import Stencil.Proofs.Nunjucks.Restoration

/-!
# Comments lifted out and put back

Lifting comments out of a source loses nothing. The placeholders and the comments together give the
source back, each symbol leads to its own comment, and no comment is left: none forms where a
placeholder meets the text around it, and an opening delimiter that was passed over is one that
nothing after it closes.

The comments are those that the source has, by a definition of their own: from left to right, each
one begins at the next opening delimiter and extends to the first closing one after it.

A comment that was lifted out can be written again. Its content holds no closing delimiter, and the
blanks that it is written with keep its content apart from the delimiters and their markers, so what
is lifted out of the written comment is the same comment.

## Main results

* `Nunjucks.exists_commentsOf` : the comments that are lifted out are those of the source.
* `Nunjucks.liftFrom_of_cut?_eq_none` : a text in which no comment ends is left as it stands.
* `Nunjucks.liftFrom_source` : nothing is lifted out of a source without comments.
* `Nunjucks.restore_liftComments` : the comments of a whole source are put back.
* `Nunjucks.liftComments_reversible` : all of this for a source without symbols of its own.
* `Nunjucks.liftComments_written` : a comment that is written again is lifted out again.
-/

namespace Stencil

/-- A text that does not hold a pattern does not hold it after its first character. -/
theorem Text.cut?_tail_eq_none {pattern : List Char} {c : Char} {cs : List Char}
    (h : cut? pattern (c :: cs) = none) : cut? pattern cs = none := by
  unfold cut? at h
  split at h
  · cases h
  · exact Option.map_eq_none_iff.mp h

/-- A text in which a pattern is not found does not hold it. -/
theorem Text.not_infix_of_cut? {pattern cs : List Char} (h : cut? pattern cs = none) :
    ¬ pattern <:+: cs := by
  rintro ⟨s, t, rfl⟩
  induction s with
  | nil =>
    have hstrip := strip?_append pattern t
    rw [List.nil_append] at h
    unfold cut? at h
    split at h
    · next hnil =>
      obtain ⟨rfl, -⟩ := List.append_eq_nil_iff.mp hnil
      cases h
    · next hcons =>
      rw [← hcons, hstrip] at h
      cases h
  | cons c s ih => exact ih (cut?_tail_eq_none h)

namespace Nunjucks

/-! ### The comments of a source -/

/-- The texts between the delimiters of the comments of a source, in order: a comment begins at the
first opening delimiter that has a closing one after it, and extends to the first of those. -/
inductive CommentsOf : List Char → List (List Char) → Prop
  | nil {text} (h : ∀ inner, ¬ ['{', '#'] ++ inner ++ ['#', '}'] <:+: text) : CommentsOf text []
  | cons {gap inner rest inners} (hgap : ¬ ['{', '#'] <:+: gap) (hinner : ¬ ['#', '}'] <:+: inner)
      (h : CommentsOf rest inners) :
      CommentsOf (gap ++ (['{', '#'] ++ inner ++ ['#', '}']) ++ rest) (inner :: inners)

/-- No closing delimiter stands between the delimiters of a comment. -/
theorem CommentsOf.not_infix {cs : List Char} {inners : List (List Char)}
    (h : CommentsOf cs inners) : ∀ inner ∈ inners, ¬ ['#', '}'] <:+: inner := by
  induction h with
  | nil => exact List.forall_mem_nil _
  | cons _ hinner _ ih => exact List.forall_mem_cons.mpr ⟨hinner, ih⟩

/-- A comment extends to the first closing delimiter. -/
theorem not_infix_of_commentAt? {cs inner rest : List Char}
    (h : commentAt? cs = some (inner, rest)) : ¬ ['#', '}'] <:+: inner := by
  rintro ⟨s, t, rfl⟩
  obtain ⟨body, -, hcut⟩ := Option.bind_eq_some_iff.mp h
  -- The comment would have ended at the first of the two.
  have hbody : body = s ++ (['#', '}'] ++ (t ++ "#\x7d".toList ++ rest)) := by
    simpa using Text.cut?_eq_some hcut
  rw [hbody] at hcut
  have hlen := (Text.prefix_of_cut? hcut).length_le
  simp only [List.length_append, List.length_cons] at hlen
  omega

theorem not_prefix_of_commentAt? {cs : List Char} (h : commentAt? cs = none) (inner : List Char) :
    ¬ ['{', '#'] ++ inner ++ ['#', '}'] <+: cs := by
  rintro ⟨rest, rfl⟩
  have hcut : Text.cut? ['#', '}'] (inner ++ (['#', '}'] ++ rest)) = none := by
    simpa [commentAt?, Text.strip?] using h
  exact Text.not_infix_of_cut? hcut ⟨inner, rest, by simp⟩

/-- A character at which no comment begins belongs to what stands before the first comment. -/
theorem CommentsOf.cons_char {c : Char} {cs : List Char} {inners : List (List Char)}
    (h : CommentsOf cs inners) (hc : commentAt? (c :: cs) = none) :
    CommentsOf (c :: cs) inners := by
  cases h with
  | nil h =>
    refine .nil fun inner hi => ?_
    rcases List.infix_cons_iff.mp hi with hi | hi
    · exact not_prefix_of_commentAt? hc inner hi
    · exact h inner hi
  | @cons gap inner rest inners hgap hinner h =>
    refine @CommentsOf.cons (c :: gap) _ _ _ (fun hi => ?_) hinner h
    rcases List.infix_cons_iff.mp hi with ⟨between, hi⟩ | hi
    · -- the comment would begin here already, whatever stands between
      refine not_prefix_of_commentAt? hc (between ++ ['{', '#'] ++ inner) ⟨rest, ?_⟩
      have hstart : c :: (gap ++ (['{', '#'] ++ inner ++ ['#', '}']) ++ rest) =
          (c :: gap) ++ (['{', '#'] ++ inner ++ ['#', '}']) ++ rest := rfl
      rw [hstart, ← hi]
      simp
    · exact hgap hi

/-- The comments that are lifted out are those of the source. -/
theorem exists_commentsOf (i : Nat) (cs : List Char) : ∃ inners, CommentsOf cs inners ∧
    (liftFrom i cs).comments = inners.map Comment.ofInner := by
  fun_induction liftFrom i cs with
  | case1 i cs inner rest h ih =>
    obtain ⟨inners, hrest, hcomments⟩ := ih
    refine ⟨inner :: inners, ?_, by rw [Lifted.consComment, hcomments, List.map_cons]⟩
    rw [eq_of_commentAt? h]
    exact @CommentsOf.cons [] _ _ _ (by decide) (not_infix_of_commentAt? h) hrest
  | case2 => exact ⟨[], .nil (by simp), rfl⟩
  | case3 i c cs h ih =>
    obtain ⟨inners, hcs, hcomments⟩ := ih
    exact ⟨inners, hcs.cons_char h, hcomments⟩

/-- What is known of a comment that was lifted out: the text between its delimiters. -/
theorem exists_inner_of_mem_comments {i : Nat} {cs : List Char} {c : Comment}
    (h : c ∈ (liftFrom i cs).comments) : ∃ inner, ¬ ['#', '}'] <:+: inner ∧ c = .ofInner inner := by
  obtain ⟨inners, hof, hcomments⟩ := exists_commentsOf i cs
  rw [hcomments] at h
  obtain ⟨inner, hinner, rfl⟩ := List.mem_map.mp h
  exact ⟨inner, hof.not_infix inner hinner, rfl⟩

/-! ### Sources without comments -/

/-- A comment at the start of a text has its closing delimiter in the text after the first brace. -/
theorem commentAt?_eq_none {c : Char} {cs : List Char} (h : Text.cut? "#\x7d".toList cs = none) :
    commentAt? (c :: cs) = none := by
  rw [commentAt?, Option.bind_eq_none_iff]
  intro body hbody
  obtain ⟨rfl, rfl⟩ := List.cons.inj (Text.eq_append_of_strip? hbody)
  exact Text.cut?_tail_eq_none h

/-- A text in which no comment ends is left as it stands. -/
theorem liftFrom_of_cut?_eq_none {cs : List Char} (h : Text.cut? "#\x7d".toList cs = none)
    (i : Nat) : liftFrom i cs = ⟨cs, []⟩ := by
  induction cs with
  | nil => exact liftFrom_nil i
  | cons c cs ih =>
    have htail := Text.cut?_tail_eq_none h
    rw [liftFrom_cons (commentAt?_eq_none htail), ih htail]
    rfl

/-- A placeholder does not begin a comment, and no comment begins in it. -/
theorem quiet_placeholder (i : Nat) : Quiet (placeholder i) := by
  have hsymbol : Quiet (commentSymbol i) := .name (isIdentifier_commentSymbol i)
  exact (Text.Lacks.append (by decide) hsymbol).append (by decide)

/-- The source without comments begins with a hash only where the source itself does. -/
theorem exists_of_liftFrom_source {i : Nat} {cs s : List Char}
    (h : (liftFrom i cs).source = '#' :: s) : ∃ cs', cs = '#' :: cs' := by
  cases hc : commentAt? cs with
  | some found =>
    rw [liftFrom_comment hc] at h
    exact absurd (List.cons.inj h).1 (by decide)
  | none =>
    cases cs with
    | nil => simp at h
    | cons c cs =>
      rw [liftFrom_cons hc] at h
      exact ⟨cs, by rw [(List.cons.inj h).1]⟩

/-- No comment begins at a character that was passed over, whatever was lifted out after it. -/
theorem commentAt?_liftFrom_source {c : Char} {cs : List Char} (h : commentAt? (c :: cs) = none)
    (i : Nat) : commentAt? (c :: (liftFrom i cs).source) = none := by
  rw [commentAt?, Option.bind_eq_none_iff]
  intro body hbody
  have hopening : c :: (liftFrom i cs).source = '{' :: '#' :: body := Text.eq_append_of_strip? hbody
  obtain ⟨rfl, hsource⟩ := List.cons.inj hopening
  obtain ⟨cs', rfl⟩ := exists_of_liftFrom_source hsource
  -- An opening delimiter is passed over only if no comment ends after it.
  have hopen : Text.cut? "#\x7d".toList cs' = none := by
    simpa [commentAt?, Text.strip?] using h
  have hhash : commentAt? ('#' :: cs') = none := commentAt?_eq_none hopen
  rw [liftFrom_cons hhash, liftFrom_of_cut?_eq_none hopen] at hsource
  obtain rfl : cs' = body := (List.cons.inj hsource).2
  exact hopen

/-- Nothing is lifted out of a source without comments, whatever number the next comment has. -/
theorem liftFrom_source (i j : Nat) (cs : List Char) :
    liftFrom j (liftFrom i cs).source = ⟨(liftFrom i cs).source, []⟩ := by
  fun_induction liftFrom i cs with
  | case1 i cs inner rest _ ih =>
    rw [Lifted.consComment, Lifts.quiet (quiet_placeholder i) j, List.length_nil, Nat.add_zero, ih]
    rfl
  | case2 => exact liftFrom_nil j
  | case3 i c cs h ih =>
    rw [Lifted.consChar, liftFrom_cons (commentAt?_liftFrom_source h i), ih]
    rfl

/-- No comment is left in a source without comments. -/
theorem not_infix_liftFrom_source (i : Nat) (cs inner : List Char) :
    ¬ ['{', '#'] ++ inner ++ ['#', '}'] <:+: (liftFrom i cs).source := by
  obtain ⟨inners, hof, hcomments⟩ := exists_commentsOf 0 (liftFrom i cs).source
  rw [liftFrom_source, eq_comm, List.map_eq_nil_iff] at hcomments
  subst hcomments
  generalize (liftFrom i cs).source = text at hof
  cases hof with
  | nil h => exact h inner

/-! ### There and back -/

/-- The comments of a whole source are put back. -/
theorem restore_liftComments {source : List Char} (h : SymbolFree source) :
    (liftComments source).restore (liftComments source).source = source := by
  obtain ⟨segs, hsegs⟩ := exists_segmented source
  have hrestore := hsegs.restore_eq h (List.infix_refl segs)
  rwa [hsegs.lifted, hsegs.written] at hrestore

/-- A source that holds no beginning of a symbol is restored from its placeholders and comments. A
second pass over the source without comments finds none, and every symbol stands for the comment
with its number, if there is one. There is no comment in the source without comments, and those that
were lifted out are the comments of the source, in order. -/
theorem liftComments_reversible (source : List Char) (h : SymbolFree source) :
    (liftComments source).restore (liftComments source).source = source ∧
      liftComments (liftComments source).source = ⟨(liftComments source).source, []⟩ ∧
      (∀ i, (liftComments source).comment? (commentSymbol i) =
        (liftComments source).comments[i]?) ∧
      (∀ inner, ¬ ['{', '#'] ++ inner ++ ['#', '}'] <:+: (liftComments source).source) ∧
      ∃ inners, CommentsOf source inners ∧
        (liftComments source).comments = inners.map Comment.ofInner :=
  ⟨restore_liftComments h, liftFrom_source 0 0 source, Lifted.comment?_commentSymbol _,
    not_infix_liftFrom_source 0 source, exists_commentsOf 0 source⟩

/-- Comments that touch, a comment after a lone brace, comments that hold delimiters, and opening
and closing delimiters without a partner. -/
theorem liftComments_reversible_seams :
    let source := "#\x7d\x7b\x7b# a \x7b# -#\x7d\x7b##\x7d#b\x7b#\x7d c".toList
    SymbolFree source ∧
      (liftComments source).comments.map (·.written) = ["\x7b# a \x7b# -#\x7d", "\x7b##\x7d"] ∧
      (liftComments source).restore (liftComments source).source = source ∧
      liftComments (liftComments source).source = ⟨(liftComments source).source, []⟩ ∧
      (∀ i, (liftComments source).comment? (commentSymbol i) =
        (liftComments source).comments[i]?) ∧
      (∀ inner, ¬ ['{', '#'] ++ inner ++ ['#', '}'] <:+: (liftComments source).source) ∧
      ∃ inners, CommentsOf source inners ∧
        (liftComments source).comments = inners.map Comment.ofInner := by
  intro source
  have hfree : SymbolFree source := by decide
  exact ⟨hfree, by decide +kernel, liftComments_reversible source hfree⟩

/-! ### Comments written again -/

/-- What is lifted out of a written comment whose content has no blanks around it. -/
theorem ofInner_commentInner {content : String} (h : Text.trim content.toList = content.toList)
    (left right : Bool) : Comment.ofInner (commentInner content.toList left right) =
      ⟨content, left, right, commentText content ⟨left, false⟩ ⟨false, right⟩⟩ := by
  have hnode := toNode_ofInner content.toList left right
  rw [h, String.ofList_toList, Comment.toNode] at hnode
  simp only [Node.comment.injEq, Trim.mk.injEq, and_true, true_and] at hnode
  obtain ⟨hbody, hleft, hright⟩ := hnode
  have hwritten : (Comment.ofInner (commentInner content.toList left right)).written =
      commentText content ⟨left, false⟩ ⟨false, right⟩ := by
    rw [← String.ofList_toList (s := commentText _ _ _), toList_commentText]
    rfl
  cases hc : Comment.ofInner (commentInner content.toList left right) with
  | mk => simp_all only

/-- A comment of a source is read as a node, and what is written for that node is a comment again:
it takes up all of the text, and it has the same content and the same markers. -/
theorem liftComments_written (source : List Char) (i : Nat) (c : Comment)
    (h : (liftComments source).comments[i]? = some c) (scope : Scope) (pos start : Nat) :
    ∃ node text,
      (liftComments source).outputNode scope pos (.symbol ⟨start, commentSymbol i⟩) = .ok node ∧
      node = .comment c.body ⟨c.trimLeft, false⟩ ⟨false, c.trimRight⟩ ∧
      write [node] = .ok text ∧
      liftComments text.toList =
        ⟨placeholder 0, [⟨c.body, c.trimLeft, c.trimRight, text⟩]⟩ := by
  obtain ⟨inner, hinner, hc⟩ := exists_inner_of_mem_comments (List.mem_of_getElem? h)
  have hbody : ¬ ['#', '}'] <:+: c.body.toList := fun hi =>
    hinner (hi.trans (hc ▸ isInfix_body_ofInner inner))
  have htrim : Text.trim c.body.toList = c.body.toList := by
    rw [hc, Comment.ofInner, String.toList_ofList, Text.trim_trim]
  have hnode : (liftComments source).outputNode scope pos (.symbol ⟨start, commentSymbol i⟩) =
      .ok c.toNode := by
    rw [Lifted.outputNode, Lifted.termComment?, Lifted.comment?_commentSymbol, h]
  refine ⟨c.toNode, commentText c.body ⟨c.trimLeft, false⟩ ⟨false, c.trimRight⟩, hnode, rfl, ?_, ?_⟩
  · simp [write, Dialect.write, Dialect.writeNode, dialect, Comment.toNode]
  · have hlifts := Lifts.comment (not_infix_commentInner hbody c.trimLeft c.trimRight)
    rw [toList_commentText, hlifts.liftComments, ofInner_commentInner htrim]

/-- A comment that begins and ends with dashes and holds an opening delimiter and hashes. -/
theorem liftComments_written_dashes :
    let source := "\x7b#-#\x7d\x7b# - a \x7b# -b# -#\x7d".toList
    let c : Comment := ⟨"- a \x7b# -b#", false, true, "\x7b# - a \x7b# -b# -#\x7d"⟩
    (liftComments source).comments[1]? = some c ∧
      ∃ node text,
        (liftComments source).outputNode {} 3 (.symbol ⟨3, commentSymbol 1⟩) = .ok node ∧
        node = .comment c.body ⟨c.trimLeft, false⟩ ⟨false, c.trimRight⟩ ∧
        write [node] = .ok text ∧
        liftComments text.toList =
          ⟨placeholder 0, [⟨c.body, c.trimLeft, c.trimRight, text⟩]⟩ := by
  intro source c
  have hc : (liftComments source).comments[1]? = some c := by decide +kernel
  exact ⟨hc, liftComments_written source 1 c hc {} 3 3⟩

end Nunjucks

end Stencil
