import Mathlib.Data.List.Infix
import Stencil.Proofs.Nunjucks.Lifting

/-!
# Sources as characters and comments

A source is a list of segments, each of which is a character or a whole comment. The source without
comments is the same list with every comment written as its placeholder. Since a placeholder begins
and ends with braces, it can be told from the text around it: the beginning of a symbol only stands
where a placeholder does, and a delimiter never begins or ends inside of one. So a part of the
source without comments gets back what was written there.
-/

namespace Stencil.Nunjucks

/-- A text that holds no beginning of a symbol of a lifted comment. -/
abbrev SymbolFree (s : List Char) : Prop :=
  ¬ symbolHead <:+: s

theorem SymbolFree.mono {s t : List Char} (h : SymbolFree t) (hs : s <:+: t) : SymbolFree s :=
  fun hi => h (hi.trans hs)

/-! ### Segments -/

/-- A character of a source, or a comment with its number. -/
inductive Segment where
  /-- A character outside all comments. -/
  | char (c : Char)
  /-- A comment, by the text between its delimiters. -/
  | comment (index : Nat) (inner : List Char)

namespace Segment

/-- The segment as it is written in the source. -/
def written : Segment → List Char
  | .char c => [c]
  | .comment _ inner => "\x7b#".toList ++ inner ++ "#\x7d".toList

/-- The segment when the comments with a number below `n` are put back and the others are lifted
out. -/
def text (n : Nat) : Segment → List Char
  | .char c => [c]
  | .comment index inner =>
    if index < n then written (.comment index inner) else placeholder index

theorem text_comment_of_le {n index : Nat} (h : n ≤ index) (inner : List Char) :
    text n (.comment index inner) = placeholder index :=
  if_neg (Nat.not_lt.mpr h)

theorem text_comment_of_lt {n index : Nat} (h : index < n) (inner : List Char) :
    text n (.comment index inner) = written (.comment index inner) :=
  if_pos h

/-- A comment begins and ends with a brace, lifted out or not. -/
theorem exists_text_comment (n index : Nat) (inner : List Char) :
    ∃ s, text n (.comment index inner) = '{' :: (s ++ ['}']) := by
  rcases Nat.lt_or_ge index n with h | h
  · rw [text_comment_of_lt h]
    exact ⟨'#' :: inner ++ ['#'], by simp [written]⟩
  · rw [text_comment_of_le h]
    exact ⟨"\x7b ".toList ++ commentSymbol index ++ " \x7d".toList, by simp [placeholder]⟩

theorem text_succ {n : Nat} {seg : Segment} (h : ∀ inner, seg ≠ .comment n inner) :
    seg.text (n + 1) = seg.text n := by
  cases seg with
  | char c => rfl
  | comment index inner =>
    have hne : index ≠ n := fun he => h inner (he ▸ rfl)
    rcases Nat.lt_or_ge index n with hlt | hge
    · rw [text_comment_of_lt hlt, text_comment_of_lt (Nat.lt_succ_of_lt hlt)]
    · rw [text_comment_of_le hge, text_comment_of_le (by omega)]

theorem text_ne_nil (n : Nat) (seg : Segment) : seg.text n ≠ [] := by
  cases seg with
  | char c => simp [text]
  | comment index inner =>
    obtain ⟨s, hs⟩ := exists_text_comment n index inner
    simp [hs]

end Segment

/-- The segments of a source out of which `l` is lifted. -/
structure Lifted.Segmented (l : Lifted) (source : List Char) (segs : List Segment) : Prop where
  written : segs.flatMap Segment.written = source
  lifted : segs.flatMap (Segment.text 0) = l.source
  comments : ∀ i inner, .comment i inner ∈ segs → l.comments[i]? = some (.ofInner inner)

/-- What is lifted out of a text, by its segments; the comments are numbered from `i` on. -/
theorem exists_segments (i : Nat) (cs : List Char) : ∃ segs : List Segment,
    segs.flatMap Segment.written = cs ∧ segs.flatMap (Segment.text 0) = (liftFrom i cs).source ∧
      ∀ k inner, .comment k inner ∈ segs →
        i ≤ k ∧ (liftFrom i cs).comments[k - i]? = some (.ofInner inner) := by
  fun_induction liftFrom i cs with
  | case1 i cs inner rest h ih =>
    obtain ⟨segs, hwritten, hlifted, hcomments⟩ := ih
    refine ⟨.comment i inner :: segs, ?_, ?_, fun k inner' hk => ?_⟩
    · rw [List.flatMap_cons, hwritten, eq_of_commentAt? h, Segment.written]
    · rw [List.flatMap_cons, hlifted]
      rfl
    · rcases List.mem_cons.mp hk with hk | hk
      · obtain ⟨rfl, rfl⟩ := Segment.comment.inj hk
        exact ⟨Nat.le_refl k, by simp [Lifted.consComment]⟩
      · obtain ⟨hle, hget⟩ := hcomments k inner' hk
        obtain ⟨m, rfl⟩ := Nat.exists_eq_add_of_le hle
        rw [Nat.add_sub_cancel_left] at hget
        refine ⟨by omega, ?_⟩
        rw [show i + 1 + m - i = m + 1 by omega]
        exact hget
  | case2 i h => exact ⟨[], rfl, rfl, by simp⟩
  | case3 i c cs h ih =>
    obtain ⟨segs, hwritten, hlifted, hcomments⟩ := ih
    refine ⟨.char c :: segs, ?_, ?_, fun k inner hk => ?_⟩
    · rw [List.flatMap_cons, hwritten]
      rfl
    · rw [List.flatMap_cons, hlifted]
      rfl
    · exact hcomments k inner (by simpa using hk)

/-- Every source has segments. -/
theorem exists_segmented (source : List Char) :
    ∃ segs, (liftComments source).Segmented source segs := by
  obtain ⟨segs, hwritten, hlifted, hcomments⟩ := exists_segments 0 source
  exact ⟨segs, hwritten, hlifted, fun i inner hi => (hcomments i inner hi).2⟩

/-! ### Beginnings of symbols -/

section Occurrence

variable {n : Nat} {segs : List Segment}

/-- A text without braces at the start of a source is written there. -/
theorem prefix_written {w : List Char} (hw : '{' ∉ w) (h : w <+: segs.flatMap (Segment.text n)) :
    w <+: segs.flatMap Segment.written := by
  induction segs generalizing w with
  | nil => exact h
  | cons seg segs ih =>
    cases w with
    | nil => exact List.nil_prefix
    | cons d w =>
      rw [List.mem_cons, not_or] at hw
      rw [List.flatMap_cons] at h ⊢
      cases seg with
      | char c =>
        obtain ⟨rfl, hrest⟩ := List.cons_prefix_cons.mp h
        exact List.cons_prefix_cons.mpr ⟨rfl, ih hw.2 hrest⟩
      | comment index inner =>
        obtain ⟨s, hs⟩ := Segment.exists_text_comment n index inner
        rw [hs] at h
        exact absurd (List.cons_prefix_cons.mp h).1.symm hw.1

/-- The symbol in a placeholder begins after the opening delimiter and a blank. -/
theorem eq_of_placeholder {i : Nat} {a b : List Char} (h : placeholder i = a ++ (symbolHead ++ b)) :
    a = "\x7b\x7b ".toList := by
  -- Its first letter occurs only once.
  have hdigits : 'C' ∉ (toString i).toList := by
    intro hc
    rw [show (toString i).toList = Nat.toDigits 10 i by simp] at hc
    exact absurd (Text.isDigit_of_mem_toDigits hc) (by decide)
  have hhead : symbolHead = "__".toList ++ 'C' :: "OMMENT_".toList := by decide
  have hplaceholder : ("\x7b\x7b ".toList ++ "__".toList) ++ 'C' ::
      ("OMMENT_".toList ++ ((toString i).toList ++ (symbolTail ++ " \x7d\x7d".toList))) =
        (a ++ "__".toList) ++ 'C' :: ("OMMENT_".toList ++ b) := by
    rw [placeholder, commentSymbol, hhead] at h
    simpa only [List.append_assoc, List.cons_append] using h
  have hrest : 'C' ∉
      "OMMENT_".toList ++ ((toString i).toList ++ (symbolTail ++ " \x7d\x7d".toList)) := by
    rw [List.mem_append, List.mem_append, not_or, not_or]
    exact ⟨by decide, hdigits, by decide⟩
  have hparts := (List.append_cons_inj_of_notMem (by decide) hrest).mp hplaceholder
  exact (List.append_cancel_right hparts.1).symm

/-- The beginning of a symbol belongs to a placeholder, if the source does not hold it itself. -/
theorem exists_of_symbolHead {a b : List Char} (hfree : SymbolFree (segs.flatMap Segment.written))
    (h : segs.flatMap (Segment.text n) = a ++ (symbolHead ++ b)) :
    ∃ before i inner after, segs = before ++ .comment i inner :: after ∧ n ≤ i ∧
      a = before.flatMap (Segment.text n) ++ "\x7b\x7b ".toList := by
  have hbrace : '{' ∉ symbolHead ∧ '}' ∉ symbolHead := by decide
  have hstart : ∀ segs : List Segment, SymbolFree (segs.flatMap Segment.written) →
      ¬ symbolHead <+: segs.flatMap (Segment.text n) :=
    fun segs hfree h => hfree (prefix_written hbrace.1 h).isInfix
  induction segs generalizing a with
  | nil => exact absurd h.symm (by simp [show symbolHead ≠ [] by decide])
  | cons seg segs ih =>
    have htail : SymbolFree (segs.flatMap Segment.written) :=
      hfree.mono ((List.suffix_cons seg segs).isInfix.flatMap _)
    have ha : a ≠ [] := by
      rintro rfl
      exact hstart _ hfree ⟨b, h.symm⟩
    rw [List.flatMap_cons] at h hfree
    rcases List.append_eq_append_iff.mp h with ⟨a', rfl, htext⟩ | ⟨m, hseg, htext⟩
    · obtain ⟨before, i, inner, after, rfl, hi, rfl⟩ := ih htail htext
      exact ⟨seg :: before, i, inner, after, rfl, hi, by simp⟩
    have hm : m ≠ [] := by
      rintro rfl
      exact hstart _ htail ⟨b, htext⟩
    cases seg with
    | char c => simp [Segment.text, List.singleton_eq_append_iff, ha, hm] at hseg
    | comment i inner =>
      obtain ⟨x, rfl⟩ : symbolHead <+: m := by
        rcases List.append_eq_append_iff.mp htext with ⟨x, hx, -⟩ | ⟨x, hx, -⟩
        · exact ⟨x, hx.symm⟩
        · obtain ⟨s, hs⟩ := Segment.exists_text_comment n i inner
          refine absurd ?_ hbrace.2
          rw [hx]
          refine List.mem_append_left x (List.mem_of_getLast? ?_)
          rw [← List.getLast?_append_of_ne_nil a hm, ← hseg, hs, ← List.cons_append,
            List.getLast?_concat]
      rcases Nat.lt_or_ge i n with hi | hi
      · rw [Segment.text_comment_of_lt hi] at hseg
        exact absurd ⟨a, x ++ segs.flatMap Segment.written, by simp [hseg]⟩ hfree
      · rw [Segment.text_comment_of_le hi] at hseg
        exact ⟨[], i, inner, segs, rfl, hi, eq_of_placeholder hseg⟩

/-- There is a blank before the beginning of a symbol. -/
theorem getLast?_of_symbolHead {a b : List Char} (hfree : SymbolFree (segs.flatMap Segment.written))
    (h : segs.flatMap (Segment.text n) = a ++ (symbolHead ++ b)) : a.getLast? = some ' ' := by
  obtain ⟨before, i, inner, after, -, -, rfl⟩ := exists_of_symbolHead hfree h
  rw [List.getLast?_append_of_ne_nil _ (by decide)]
  decide

end Occurrence

/-! ### Cuts -/

/-- A cut of a text that is put together of parts goes between two parts or through one. -/
theorem flatMap_eq_append {α : Type} {f : α → List Char} {xs : List α} {a b : List Char}
    (h : xs.flatMap f = a ++ b) :
    (∃ before after, xs = before ++ after ∧ before.flatMap f = a ∧ after.flatMap f = b) ∨
      ∃ before x after u v, xs = before ++ x :: after ∧ f x = u ++ v ∧ u ≠ [] ∧ v ≠ [] ∧
        before.flatMap f ++ u = a ∧ v ++ after.flatMap f = b := by
  induction xs generalizing a with
  | nil =>
    obtain ⟨rfl, rfl⟩ := List.append_eq_nil_iff.mp h.symm
    exact .inl ⟨[], [], rfl, rfl, rfl⟩
  | cons x xs ih =>
    rw [List.flatMap_cons] at h
    rcases List.append_eq_append_iff.mp h with ⟨a', rfl, htext⟩ | ⟨m, hx, rfl⟩
    · rcases ih htext with ⟨before, after, rfl, rfl, rfl⟩ |
        ⟨before, y, after, u, v, rfl, hy, hu, hv, rfl, rfl⟩
      · exact .inl ⟨x :: before, after, rfl, by simp, rfl⟩
      · exact .inr ⟨x :: before, y, after, u, v, rfl, hy, hu, hv, by simp, rfl⟩
    · by_cases ha : a = []
      · subst ha
        exact .inl ⟨[], x :: xs, rfl, rfl, by rw [List.flatMap_cons, hx, List.nil_append]⟩
      by_cases hm : m = []
      · subst hm
        exact .inl ⟨[x], xs, rfl, by simpa using hx, rfl⟩
      exact .inr ⟨[], x, xs, a, m, rfl, hx, ha, hm, rfl, rfl⟩

section Cuts

variable {segs : List Segment} {a b : List Char}

/-- The cut of a source without comments into `a` and `b` goes between two segments. -/
def Splits (segs : List Segment) (a b : List Char) : Prop :=
  ∃ before after, segs = before ++ after ∧ before.flatMap (Segment.text 0) = a ∧
    after.flatMap (Segment.text 0) = b

/-- A cut goes between two segments or through a placeholder. -/
theorem splits_or_placeholder (h : segs.flatMap (Segment.text 0) = a ++ b) :
    Splits segs a b ∨ ∃ i s s' u v, placeholder i = u ++ v ∧ u ≠ [] ∧ v ≠ [] ∧ s ++ u = a ∧
      v ++ s' = b := by
  refine (flatMap_eq_append h).imp_right ?_
  rintro ⟨before, seg, after, u, v, -, hseg, hu, hv, ha, hb⟩
  cases seg with
  | char c => simp [Segment.text, List.singleton_eq_append_iff, hu, hv] at hseg
  | comment i inner =>
    rw [Segment.text_comment_of_le (Nat.zero_le i)] at hseg
    exact ⟨i, _, _, u, v, hseg, hu, hv, ha, hb⟩

theorem notMem_commentSymbol (i : Nat) {c : Char} (hc : Text.isNameChar c = false) :
    c ∉ commentSymbol i := by
  intro h
  rw [Text.isNameChar_of_mem_identifier (isIdentifier_commentSymbol i) h] at hc
  cases hc

/-- No cut after a closing delimiter goes through a placeholder. -/
theorem split_after {x : Char} (hx : x ≠ ' ')
    (h : segs.flatMap (Segment.text 0) = a ++ [x, '}'] ++ b) : Splits segs (a ++ [x, '}']) b := by
  refine (splits_or_placeholder h).resolve_right ?_
  rintro ⟨i, s, -, u, v, hi, hu, hv, ha, -⟩
  obtain ⟨w, hw⟩ : ∃ w, w = "\x7b\x7b ".toList ++ commentSymbol i := ⟨_, rfl⟩
  have hbrace : '}' ∉ w ++ [' '] := by
    simp [hw, notMem_commentSymbol i (show Text.isNameChar '}' = false by decide)]
  have hplaceholder : placeholder i = (w ++ [' ']) ++ '}' :: ['}'] := by
    simp [placeholder, hw]
  -- The first part of the placeholder ends in the first of the two braces at its end.
  obtain ⟨u, y, rfl⟩ := (List.eq_nil_or_concat u).resolve_left hu
  have hy : s ++ u = a ++ [x] ∧ y = '}' := by
    have hlast : (s ++ u) ++ [y] = (a ++ [x]) ++ ['}'] := by simpa using ha
    obtain ⟨hs, hy⟩ := List.append_inj' hlast rfl
    exact ⟨hs, List.singleton_inj.mp hy⟩
  obtain ⟨hs, rfl⟩ := hy
  have hcut : (w ++ [' ']) ++ '}' :: ['}'] = u ++ '}' :: v := by
    rw [← hplaceholder, hi, List.concat_eq_append, List.append_assoc, List.singleton_append]
  have hu' : u = w ++ [' '] := by
    rcases List.append_eq_append_iff.mp hcut with ⟨m, rfl, hm⟩ | ⟨m, hm, hrest⟩
    · cases m with
      | nil => rw [List.append_nil]
      | cons c m =>
        have hlength := congrArg List.length hm
        simp only [List.length_cons, List.length_append, List.length_nil] at hlength
        exact absurd (List.eq_nil_of_length_eq_zero (by omega)) hv
    · cases m with
      | nil => rw [hm, List.append_nil]
      | cons c m =>
        obtain ⟨rfl, -⟩ := List.cons.inj hrest
        exact absurd (hm ▸ List.mem_append_right u List.mem_cons_self) hbrace
  rw [hu', ← List.append_assoc] at hs
  exact hx (List.singleton_inj.mp (List.append_inj' hs rfl).2).symm

/-- No cut before the opening delimiter of a tag goes through a placeholder. -/
theorem split_before (h : segs.flatMap (Segment.text 0) = a ++ '{' :: '%' :: b) :
    Splits segs a ('{' :: '%' :: b) := by
  refine (splits_or_placeholder h).resolve_right ?_
  rintro ⟨i, -, s', u, v, hi, hu, hv, -, hb⟩
  obtain ⟨w, hw⟩ : ∃ w, w = commentSymbol i ++ " \x7d\x7d".toList := ⟨_, rfl⟩
  have hbrace : '{' ∉ ' ' :: w := by
    simp [hw, notMem_commentSymbol i (show Text.isNameChar '{' = false by decide)]
  have hplaceholder : placeholder i = '{' :: '{' :: ' ' :: w := by
    simp [placeholder, hw]
  rw [hplaceholder] at hi
  obtain ⟨d, v, rfl⟩ := List.exists_cons_of_ne_nil hv
  obtain ⟨c, u, rfl⟩ := List.exists_cons_of_ne_nil hu
  obtain ⟨rfl, hrest⟩ := List.cons.inj hb
  have htail : '{' :: ' ' :: w = u ++ '{' :: v := (List.cons.inj hi).2
  cases u with
  | nil =>
    obtain rfl : ' ' :: w = v := (List.cons.inj htail).2
    exact absurd (List.cons.inj hrest).1 (by decide)
  | cons c u =>
    have hw' : ' ' :: w = u ++ '{' :: v := (List.cons.inj htail).2
    exact hbrace (hw' ▸ List.mem_append_right u List.mem_cons_self)

end Cuts

/-! ### Putting comments back -/

/-- A placeholder begins with no other one. -/
theorem eq_of_isPrefix_placeholder {i k : Nat} {s : List Char}
    (h : placeholder k <+: placeholder i ++ s) : k = i := by
  obtain ⟨t, ht⟩ := h
  have hdigits : ∀ n : Nat, (toString n).toList = Nat.toDigits 10 n := fun n => by simp
  simp only [placeholder, commentSymbol, List.append_assoc, hdigits] at ht
  have hcut := List.append_cancel_left (List.append_cancel_left ht)
  have htake : ∀ (n : Nat) (u : List Char),
      (Nat.toDigits 10 n ++ (symbolTail ++ u)).takeWhile Text.isDigit = Nat.toDigits 10 n :=
    fun n u => Text.takeWhile_append_stop (fun c hc => Text.isDigit_of_mem_toDigits hc)
      (by simp [symbolTail]; decide)
  have hsame : Nat.toDigits 10 k = Nat.toDigits 10 i := by
    rw [← htake k, ← htake i, hcut]
  have hposition := congrArg Text.position? hsame
  rw [Text.position?_toDigits, Text.position?_toDigits] at hposition
  exact Option.some.inj hposition

section Restore

variable {segs : List Segment}

/-- Only the placeholder of a comment begins inside a segment. -/
theorem not_isPrefix_placeholder {n : Nat} {seg : Segment}
    (hfree : SymbolFree ((seg :: segs).flatMap Segment.written))
    (hseg : ∀ inner, seg ≠ .comment n inner) {a b : List Char} (hab : seg.text n = a ++ b)
    (hb : b ≠ []) : ¬ placeholder n <+: b ++ segs.flatMap (Segment.text n) := by
  rintro ⟨t, ht⟩
  have hwhole : (seg :: segs).flatMap (Segment.text n) = (a ++ "\x7b\x7b ".toList) ++
      (symbolHead ++ ((toString n).toList ++ symbolTail ++ " \x7d\x7d".toList ++ t)) := by
    rw [List.flatMap_cons, hab, List.append_assoc, ← ht]
    simp only [placeholder, commentSymbol, List.append_assoc]
  obtain ⟨before, i, inner, after, hsegs, hi, hbefore⟩ := exists_of_symbolHead hfree hwhole
  have ha := List.append_cancel_right hbefore
  cases before with
  | nil =>
    obtain ⟨rfl, rfl⟩ := List.cons.inj hsegs
    obtain rfl : a = [] := ha
    rw [Segment.text_comment_of_le hi, List.nil_append] at hab
    subst hab
    exact hseg inner (eq_of_isPrefix_placeholder ⟨t, ht⟩ ▸ rfl)
  | cons seg' before =>
    obtain ⟨rfl, -⟩ := List.cons.inj hsegs
    have hlength := congrArg List.length ha
    rw [List.flatMap_cons, hab] at hlength
    simp only [List.length_append] at hlength
    exact hb (List.eq_nil_of_length_eq_zero (by omega))

/-- One comment after the others is put back. -/
theorem replaceAll_flatMap {n : Nat} {c : List Char}
    (hfree : SymbolFree (segs.flatMap Segment.written))
    (hc : ∀ inner, .comment n inner ∈ segs → c = Segment.written (.comment n inner)) :
    Text.replaceAll (placeholder n) c (segs.flatMap (Segment.text n)) =
      segs.flatMap (Segment.text (n + 1)) := by
  induction segs with
  | nil => rfl
  | cons seg segs ih =>
    have htail : SymbolFree (segs.flatMap Segment.written) :=
      hfree.mono ((List.suffix_cons seg segs).isInfix.flatMap _)
    have hrest := ih htail fun inner hi => hc inner (List.mem_cons_of_mem seg hi)
    rw [List.flatMap_cons, List.flatMap_cons]
    by_cases hseg : ∃ inner, seg = .comment n inner
    · obtain ⟨inner, rfl⟩ := hseg
      rw [Segment.text_comment_of_le (Nat.le_refl n),
        Segment.text_comment_of_lt (Nat.lt_succ_self n),
        Text.replaceAll_pattern (by simp [placeholder]), hrest, hc inner List.mem_cons_self]
    · rw [not_exists] at hseg
      rw [Segment.text_succ hseg, Text.replaceAll_append _ _ fun a b =>
        not_isPrefix_placeholder hfree hseg, hrest]

/-- The comments from a number on are put back. -/
theorem restoreFrom_flatMap {n : Nat} {cs : List Comment}
    (hfree : SymbolFree (segs.flatMap Segment.written))
    (hcs : ∀ i inner, .comment i inner ∈ segs → i < n ∨ cs[i - n]? = some (.ofInner inner)) :
    Lifted.restoreFrom n cs (segs.flatMap (Segment.text n)) = segs.flatMap Segment.written := by
  induction cs generalizing n with
  | nil =>
    refine List.flatMap_congr fun seg hseg => ?_
    cases seg with
    | char c => rfl
    | comment i inner =>
      have hi := (hcs i inner hseg).resolve_right (by simp)
      exact Segment.text_comment_of_lt hi inner
  | cons c cs ih =>
    rw [Lifted.restoreFrom, replaceAll_flatMap hfree fun inner hi => ?_]
    · refine ih fun i inner hi => ?_
      rcases hcs i inner hi with hlt | hget
      · exact .inl (Nat.lt_succ_of_lt hlt)
      · by_cases hlt : i < n + 1
        · exact .inl hlt
        · rw [show i - n = i - (n + 1) + 1 by omega, List.getElem?_cons_succ] at hget
          exact .inr hget
    · have hget := (hcs n inner hi).resolve_left (Nat.lt_irrefl n)
      rw [Nat.sub_self, List.getElem?_cons_zero, Option.some.injEq] at hget
      rw [hget, Comment.ofInner, Segment.written, String.toList_ofList]

/-- Comments are put back as they were written. -/
theorem Lifted.Segmented.restore_eq {l : Lifted} {source : List Char} (h : l.Segmented source segs)
    (hfree : SymbolFree source) {part : List Segment} (hpart : part <:+: segs) :
    l.restore (part.flatMap (Segment.text 0)) = part.flatMap Segment.written := by
  have hheld := h.written ▸ hpart.flatMap Segment.written
  refine restoreFrom_flatMap (hfree.mono hheld) fun i inner hi => .inr ?_
  exact h.comments i inner (hpart.subset hi)

end Restore

end Stencil.Nunjucks
