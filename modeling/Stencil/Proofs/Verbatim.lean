import Stencil.Liquid.Reader
import Stencil.Node.Equality
import Stencil.Nunjucks.Reader
import Stencil.Proofs.Liquid.Token
import Stencil.Proofs.Nunjucks.Chunk
import Stencil.Proofs.Nunjucks.Markup

/-!
# Bodies of verbatim blocks

The body of a verbatim block is kept as it stands. It may hold any delimiter, as long as no closing
tag of the block begins in it. The search for the closing tag passes over two braces at once, so the
braces at the end of the body have to come in pairs: a single one is taken together with the brace
of the closing tag.

Nunjucks trees do not tell a raw block from other text. It is known by its opening tag, which is
looked for in a window before the text; a longer tag is not found, and the body is plain text then.

## Main results

* `read_verbatim_body` : a source that is one verbatim block is read as its body.
-/

namespace Stencil

/-! ### Tags in a text -/

/-- A tag called `name` begins somewhere in a text: its name stands after an opening delimiter, with
nothing but a marker and blanks between them. -/
def HoldsTag (name s : List Char) : Prop :=
  ∃ (isMarked : Bool) (before blanks after : List Char), (∀ c ∈ blanks, Text.isBlank c) ∧
    s = before ++ ("\x7b%".toList ++ (Markup.marker isMarked).toList ++ blanks ++ name) ++ after

namespace HoldsTag

variable {name s : List Char} {c : Char}

theorem cons (h : HoldsTag name s) : HoldsTag name (c :: s) := by
  obtain ⟨isMarked, before, blanks, after, hb, rfl⟩ := h
  exact ⟨isMarked, c :: before, blanks, after, hb, rfl⟩

theorem isInfix_name (h : HoldsTag name s) : name <:+: s := by
  obtain ⟨isMarked, before, blanks, after, -, rfl⟩ := h
  exact ⟨before ++ ("\x7b%".toList ++ (Markup.marker isMarked).toList ++ blanks), after, by simp⟩

/-- The name of a tag is found after its opening delimiter. -/
theorem of_strip? {rest : List Char}
    (h : Text.strip? name (Text.trimStart (Nunjucks.unmarked s)) = some rest) :
    HoldsTag name ('{' :: '%' :: s) := by
  have hs : Nunjucks.unmarked s =
      (Nunjucks.unmarked s).takeWhile Text.isBlank ++ (name ++ rest) := by
    rw [← Text.eq_append_of_strip? h, Text.takeWhile_append_trimStart]
  have hblank : ∀ c ∈ (Nunjucks.unmarked s).takeWhile Text.isBlank, Text.isBlank c :=
    fun c hc => List.all_eq_true.mp List.all_takeWhile c hc
  by_cases hm : s.head? == some '-'
  · obtain ⟨t, rfl⟩ : ∃ t, s = '-' :: t := by
      cases s with
      | nil => cases hm
      | cons d t => exact ⟨t, by simpa using hm⟩
    refine ⟨true, [], _, rest, hblank, ?_⟩
    have hunmarked : Nunjucks.unmarked ('-' :: t) = t := rfl
    rw [hunmarked] at hs ⊢
    simp [Markup.marker, ← hs]
  · refine ⟨false, [], _, rest, hblank, ?_⟩
    have hunmarked : Nunjucks.unmarked s = s := if_neg hm
    rw [hunmarked] at hs ⊢
    simp [Markup.marker, ← hs]

theorem strip?_eq_none (h : ¬ HoldsTag name ('{' :: '%' :: s)) :
    Text.strip? name (Text.trimStart (Nunjucks.unmarked s)) = none :=
  Option.eq_none_iff_forall_ne_some.mpr fun _ hr => h (.of_strip? hr)

end HoldsTag

/-! ### Liquid -/

namespace Liquid

theorem isBody_of_not_holdsTag {name s : List Char} (h : ¬ HoldsTag name s)
    (hp : Text.EndsPaired '{' s) : isBody name s := by
  fun_induction isBody name s with
  | case1 s ih => exact ih (fun ht => h ht.cons.cons) (Text.EndsPaired.pair_iff.mp hp)
  | case2 s ih =>
    have hopens : opensTag name s = false := by
      have hstrip := HoldsTag.strip?_eq_none h
      rw [Nunjucks.unmarked] at hstrip
      simp only [opensTag, hstrip]
    rw [hopens, Bool.not_false, Bool.true_and]
    exact ih (fun ht => h ht.cons.cons) ((Text.EndsPaired.append_cons_iff (by decide) ['{']).mp hp)
  | case3 => exact absurd hp Text.EndsPaired.not_singleton
  | case4 c s h₁ h₂ h₃ ih =>
    refine ih (fun ht => h ht.cons) ?_
    by_cases hc : c = '{'
    · subst hc
      cases s with
      | nil => exact absurd rfl (h₃ rfl)
      | cons d s =>
        have hd : d ≠ '{' := by
          rintro rfl
          exact h₁ s rfl rfl
        exact (Text.EndsPaired.append_cons_iff hd []).mpr
          ((Text.EndsPaired.append_cons_iff hd ['{']).mp hp)
    · exact (Text.EndsPaired.append_cons_iff hc []).mp hp
  | case5 => rfl

/-- A source that is one verbatim block. -/
theorem read_block {name content : String} (hv : isVerbatim name)
    (hc : isBody ("end" ++ name).toList content.toList) (trim endTrim : Trim) :
    read (Markup.block name content ("end" ++ name) trim endTrim) =
      .ok [if name == "comment" then .comment content trim endTrim
        else .raw content trim endTrim] := by
  obtain ⟨opening, body, closing, htoken, hopening, hbody, hclosing⟩ :=
    readToken_verbatim hv hc trim endTrim 0 []
  rw [List.append_nil] at htoken
  have hne :
      (Piece.ofString (Markup.block name content ("end" ++ name) trim endTrim)).text ≠ [] := by
    simp [Piece.ofString, Markup.block, toList_tag]
  have htokens : tokenize (Markup.block name content ("end" ++ name) trim endTrim) =
      .ok [.verbatim opening body closing] := by
    rw [tokenize, tokenizePiece_cons hne htoken, tokenizePiece_nil]
    rfl
  have hnode : readVerbatimBlock opening body closing =
      if name == "comment" then .comment content trim endTrim else .raw content trim endTrim := by
    rw [readVerbatimBlock, hopening.name, hopening.trim, hclosing.trim, hbody]
  rw [read, readWith, parse, htokens, ← hnode]
  rfl

end Liquid

/-! ### Nunjucks -/

namespace Nunjucks

theorem findClosing_of_not_holdsTag {name s : List Char} (h : ¬ HoldsTag name s) (start : Nat) :
    findClosing name start s = none := by
  fun_induction findClosing name start s with
  | case1 _ s ih | case2 _ s ih => rw [ih fun ht => h ht.cons.cons, Option.map_none]
  | case3 _ s rest hrest =>
    rw [closingTag?_eq_none_iff.mpr] at hrest
    · cases hrest
    · intro rest hr
      rw [HoldsTag.strip?_eq_none h] at hr
      cases hr
  | case4 _ s _ ih => rw [ih fun ht => h ht.cons.cons, Option.map_none]
  | case5 _ c s _ _ _ ih => rw [ih fun ht => h ht.cons, Option.map_none]
  | case6 => rfl

/-- An opening tag of a raw block, with blanks around its name. -/
def rawOpening (trim : Trim) (before after : List Char) : List Char :=
  '{' :: '%' :: ((Markup.marker trim.left).toList ++ (before ++ ("raw".toList ++ (after ++
    ((Markup.marker trim.right).toList ++ ['%', '}'])))))

section RawOpening

variable {before after rest : List Char} {P : Char → Prop}

theorem forall_head?_append {s : List Char} (hs : ∀ c ∈ s, P c) (hr : ∀ c ∈ rest.head?, P c) :
    ∀ c ∈ (s ++ rest).head?, P c := by
  cases s with
  | nil => exact hr
  | cons d s =>
    intro c hc
    obtain rfl : d = c := by simpa using hc
    exact hs d List.mem_cons_self

/-- What stands after the marker of an opening tag does not begin with a dash. -/
theorem head?_ne_dash (hbefore : ∀ c ∈ before, Text.isBlank c) (rest : List Char) :
    (before ++ ("raw".toList ++ rest)).head? ≠ some '-' := by
  intro hc
  exact forall_head?_append (P := (· ≠ '-'))
    (fun c hb => Text.ne_of_isBlank (hbefore c hb) (by decide)) (by simp) '-' hc rfl

/-- What stands before the marker of a closing delimiter does not end with a dash. -/
theorem getLast?_ne_dash (hafter : ∀ c ∈ after, Text.isBlank c) (s : List Char) :
    (s ++ ("raw".toList ++ after)).getLast? ≠ some '-' := by
  rw [List.getLast?_append, List.getLast?_append]
  cases hl : after.getLast? with
  | none => simp
  | some c =>
    have hne : c ≠ '-' := Text.ne_of_isBlank (hafter c (List.mem_of_getLast? hl)) (by decide)
    simpa using hne

/-- A marker is taken off before a text that begins with no dash. -/
theorem unmarked_marker (isSet : Bool) {s : List Char} (h : s.head? ≠ some '-') :
    unmarked ((Markup.marker isSet).toList ++ s) = s := by
  cases isSet
  · exact if_neg (by simpa [Markup.marker] using h)
  · rfl

theorem dropMarker_marker (isSet : Bool) {s : List Char} (h : s.head? ≠ some '-') (start : Nat) :
    Piece.dropMarker ⟨start, (Markup.marker isSet).toList ++ s⟩ =
      ⟨start + Text.byteLength (Markup.marker isSet).toList, s⟩ := by
  cases isSet
  · exact if_neg (by simpa [Markup.marker] using h)
  · rfl

theorem head?_marker_close (isSet : Bool) (rest : List Char) :
    ∀ c ∈ ((Markup.marker isSet).toList ++ '%' :: rest).head?,
      Text.isBlank c = false ∧ Text.isNameChar c = false := by
  cases isSet <;> simp [Markup.marker] <;> decide

theorem opensRaw_rawOpening (hbefore : ∀ c ∈ before, Text.isBlank c)
    (hafter : ∀ c ∈ after, Text.isBlank c) (trim : Trim) :
    opensRaw (rawOpening trim before after) := by
  have hname : ∀ rest, Text.trimStart (before ++ ("raw".toList ++ rest)) = "raw".toList ++ rest :=
    fun rest => Text.dropWhile_append_stop hbefore (by simp; decide)
  have hclose : Text.trimStart (after ++ ((Markup.marker trim.right).toList ++ ['%', '}'])) =
      (Markup.marker trim.right).toList ++ ['%', '}'] :=
    Text.dropWhile_append_stop hafter fun c hc => (head?_marker_close _ _ c hc).1
  rw [rawOpening, opensRaw_cons, afterRawName?, unmarked_marker _ (head?_ne_dash hbefore _), hname,
    Text.strip?_append, Option.some_or, Option.map_some, hclose, unmarked_marker _ (by simp)]
  decide

/-- The inside of the opening tag of a raw block is one word. -/
theorem readChunk_rawOpening (hbefore : ∀ c ∈ before, Text.isBlank c)
    (hafter : ∀ c ∈ after, Text.isBlank c) (trim : Trim) (start : Nat) (rest : List Char) :
    ∃ nameStart closing, readChunk ⟨start, rawOpening trim before after ++ rest⟩ =
      tagChunk ⟨[⟨.name, ⟨nameStart, "raw".toList⟩⟩], ⟨.tagEnd, closing⟩⟩
        ⟨start + Text.byteLength (rawOpening trim before after), rest⟩ := by
  have hsize : '{'.utf8Size = 1 ∧ '%'.utf8Size = 1 := by decide
  have htext : rawOpening trim before after ++ rest = '{' :: '%' ::
      ((Markup.marker trim.left).toList ++ (before ++ ("raw".toList ++ (after ++
        ((Markup.marker trim.right).toList ++ '%' :: '}' :: rest))))) := by
    simp [rawOpening]
  have hend : ∀ c ∈ (after ++ ((Markup.marker trim.right).toList ++ '%' :: '}' :: rest)).head?,
      Text.isNameChar c = false :=
    forall_head?_append (fun c hc => Text.isNameChar_eq_false_of_isBlank (hafter c hc))
      fun c hc => (head?_marker_close _ _ c hc).2
  have hclosing : ∀ start, ∃ closing,
      lex ⟨start, (Markup.marker trim.right).toList ++ '%' :: '}' :: rest⟩ =
        (⟨[], ⟨.tagEnd, closing⟩⟩,
          ⟨start + Text.byteLength ((Markup.marker trim.right).toList ++ ['%', '}']), rest⟩) := by
    intro start
    refine ⟨⟨start, (Markup.marker trim.right).toList ++ ['%', '}']⟩, ?_⟩
    refine lex_closing (fun c hc => (head?_marker_close _ _ c hc).1) ?_
    cases trim.right <;> rfl
  obtain ⟨closing, hclose⟩ := hclosing
    (start + 2 + Text.byteLength (Markup.marker trim.left).toList + Text.byteLength before +
      Text.byteLength "raw".toList + Text.byteLength after)
  refine ⟨start + 2 + Text.byteLength (Markup.marker trim.left).toList + Text.byteLength before,
    closing, ?_⟩
  rw [htext, readChunk]
  simp only [open?, readTag]
  rw [dropMarker_marker _ (head?_ne_dash hbefore _), lex_blanks hbefore,
    lex_name (by decide) hend, lex_blanks hafter, hclose]
  simp only [Inside.cons, rawOpening, Text.byteLength, Text.byteLength_append, hsize]
  congr 2
  omega

/-- Between the delimiters of an opening tag there is no delimiter. -/
theorem exists_rawOpening (hbefore : ∀ c ∈ before, Text.isBlank c)
    (hafter : ∀ c ∈ after, Text.isBlank c) (trim : Trim) :
    ∃ inside, rawOpening trim before after = '{' :: '%' :: (inside ++ ['%', '}']) ∧
      (∀ c ∈ inside, c ≠ '{' ∧ c ≠ '%') ∧ (inside.head? == some '-') = trim.left ∧
      (inside.getLast? == some '-') = trim.right := by
  have hmarker : ∀ isSet, ∀ c ∈ (Markup.marker isSet).toList, c ≠ '{' ∧ c ≠ '%' := by decide
  have hblank : ∀ {s : List Char}, (∀ c ∈ s, Text.isBlank c) → ∀ c ∈ s, c ≠ '{' ∧ c ≠ '%' := by
    intro s hs c hc
    exact ⟨Text.ne_of_isBlank (hs c hc) (by decide), Text.ne_of_isBlank (hs c hc) (by decide)⟩
  refine ⟨(Markup.marker trim.left).toList ++ before ++ ("raw".toList ++ after) ++
    (Markup.marker trim.right).toList, by simp [rawOpening], ?_, ?_, ?_⟩
  · simp only [List.forall_mem_append]
    exact ⟨⟨⟨hmarker _, hblank hbefore⟩, by decide, hblank hafter⟩, hmarker _⟩
  · simp only [List.append_assoc]
    cases trim.left
    · exact beq_eq_false_iff_ne.mpr (head?_ne_dash hbefore _)
    · rfl
  · rw [List.getLast?_append]
    cases trim.right
    · exact beq_eq_false_iff_ne.mpr (getLast?_ne_dash hafter _)
    · rfl

theorem markersBefore_rawOpening (hbefore : ∀ c ∈ before, Text.isBlank c)
    (hafter : ∀ c ∈ after, Text.isBlank c) (trim : Trim) (post : List Char) :
    Place.markersBefore ⟨(rawOpening trim before after).reverse, post⟩ = trim := by
  obtain ⟨inside, htext, hplain, hleft, hright⟩ := exists_rawOpening hbefore hafter trim
  have hreverse : (rawOpening trim before after).reverse =
      '}' :: '%' :: (inside.reverse ++ ['%', '{']) := by
    simp [htext]
  have hp : ∀ c ∈ inside.reverse, (c == '%') = false := fun c hc =>
    beq_eq_false_iff_ne.mpr (hplain c (List.mem_reverse.mp hc)).2
  have hhead : ((inside.reverse ++ ['%', '{']).head? == some '-') =
      (inside.getLast? == some '-') := by
    rw [List.head?_append, List.head?_reverse]
    cases inside.getLast? <;> rfl
  rw [Place.markersBefore, hreverse]
  simp only [isMarkedOpening_eq, isMarkedBefore_append '{' hp, List.getLast?_reverse, hhead, hright,
    Option.or_none]
  have hmarked : isMarkedBefore '{' (· == '%') inside.head? ['%', '{'] = trim.left := hleft
  rw [hmarked]

/-- The opening tag of a raw block is known as one if it fits into the window. -/
theorem isAfterRaw_rawOpening (hbefore : ∀ c ∈ before, Text.isBlank c)
    (hafter : ∀ c ∈ after, Text.isBlank c) (trim : Trim) (post : List Char) :
    Place.isAfterRaw ⟨(rawOpening trim before after).reverse, post⟩ =
      decide (Text.byteLength (rawOpening trim before after) ≤ rawWindow) := by
  by_cases hl : Text.byteLength (rawOpening trim before after) ≤ rawWindow
  · rw [decide_eq_true hl]
    exact isAfterRaw_of_opensRaw (opensRaw_rawOpening hbefore hafter trim) hl [] post
  · rw [decide_eq_false hl]
    refine isAfterRaw_of_clear (fun a b hab hb => ?_) post
    obtain ⟨inside, htext, hplain, -⟩ := exists_rawOpening hbefore hafter trim
    obtain ⟨cs, rfl⟩ := prefix_of_opensRaw hb
    cases a with
    | nil =>
      rw [List.nil_append] at hab
      rw [← hab]
      exact Nat.lt_of_not_le hl
    | cons d a =>
      have hmem : '{' ∈ '%' :: (inside ++ ['%', '}']) := by
        rw [htext] at hab
        rw [(List.cons.inj hab).2]
        simp
      simp only [List.mem_cons, List.mem_append, List.not_mem_nil, or_false] at hmem
      rcases hmem with h | h | h | h
      · cases h
      · exact absurd rfl (hplain _ h).1
      · cases h
      · cases h

/-- No comment begins in a source that is one raw block, if none begins in its body. -/
theorem quiet_rawBlock (hbefore : ∀ c ∈ before, Text.isBlank c)
    (hafter : ∀ c ∈ after, Text.isBlank c) (trim : Trim) {content : List Char}
    (hc : ¬ "\x7b#".toList <:+: content) :
    Quiet (rawOpening trim before after ++ content ++ (Markup.tag "endraw" .unset).toList) := by
  obtain ⟨inside, htext, hplain, -⟩ := exists_rawOpening hbefore hafter trim
  have hopening : ¬ ['{', '#'] <:+: rawOpening trim before after := by
    intro h
    rw [htext] at h
    rcases Text.pair_infix_append_iff (s := ['{']).mp h with h | h | ⟨-, h⟩
    · exact absurd h (by decide)
    · have hmem : '{' ∈ '%' :: (inside ++ ['%', '}']) := h.subset (by simp)
      simp at hmem
      exact (hplain _ hmem).1 rfl
    · cases h
  have hlast : (rawOpening trim before after).getLast? = some '}' := by
    rw [htext]
    exact List.getLast?_append_of_ne_nil ('{' :: '%' :: inside) (by simp)
  have hend : (Markup.tag "endraw" .unset).toList.getLast? = some '}' := by decide
  refine ⟨fun h => ?_, by simp [List.getLast?_append, hend]⟩
  rcases Text.pair_infix_append_iff.mp h with h | h | ⟨-, h⟩
  · rcases Text.pair_infix_append_iff.mp h with h | h | ⟨h, -⟩
    · exact hopening h
    · exact hc h
    · rw [hlast] at h
      cases h
  · exact absurd h (by decide)
  · exact absurd h (by decide)

/-- The node of the body of a raw block that stands alone. -/
theorem dataNode_rawBlock (hbefore : ∀ c ∈ before, Text.isBlank c)
    (hafter : ∀ c ∈ after, Text.isBlank c) (trim : Trim) (content : String) :
    Lifted.dataNode ⟨rawOpening trim before after ++ content.toList ++
        (Markup.tag "endraw" .unset).toList, []⟩
        ⟨Text.byteLength (rawOpening trim before after), content.toList⟩ =
      if Text.byteLength (rawOpening trim before after) ≤ rawWindow then
        .raw content trim .unset else .text content := by
  have hstart := Place.at_append (rawOpening trim before after)
    (content.toList ++ (Markup.tag "endraw" .unset).toList)
  have hstop := Place.at_append (rawOpening trim before after ++ content.toList)
    (Markup.tag "endraw" .unset).toList
  have hclosing := markersAfter_tag (by decide : '%' ∉ "endraw".toList) .unset
    (rawOpening trim before after ++ content.toList).reverse []
  have hrestore : ∀ source, Lifted.restore ⟨source, []⟩ content.toList = content.toList :=
    fun _ => rfl
  rw [← List.append_assoc] at hstart
  rw [Text.byteLength_append] at hstop
  rw [List.append_nil] at hclosing
  simp only [Lifted.dataNode, hstart, Piece.stop, hstop, hclosing, hrestore,
    isAfterRaw_rawOpening hbefore hafter, markersBefore_rawOpening hbefore hafter,
    decide_eq_true_eq, Piece.toString, String.ofList_toList]

/-- A source that is one raw block. -/
theorem read_rawBlock (hbefore : ∀ c ∈ before, Text.isBlank c)
    (hafter : ∀ c ∈ after, Text.isBlank c) (trim : Trim) {content : String}
    (hc : ¬ HoldsTag "endraw".toList content.toList) (hp : Text.EndsPaired '{' content.toList)
    (hq : ¬ "\x7b#".toList <:+: content.toList) :
    read (String.ofList (rawOpening trim before after) ++ content ++ Markup.tag "endraw" .unset) =
      .ok [if Text.byteLength (rawOpening trim before after) ≤ rawWindow then
        .raw content trim .unset else .text content] := by
  have hlift := (Lifts.quiet (quiet_rawBlock hbefore hafter trim hq)).liftComments
  obtain ⟨nameStart, closing, hread⟩ := readChunk_rawOpening hbefore hafter trim 0
    (content.toList ++ (Markup.tag "endraw" .unset).toList ++ [])
  rw [tagChunk_raw (findClosing_of_not_holdsTag hc 0) hp, List.append_nil, ← List.append_assoc,
    Nat.zero_add] at hread
  have hchunks : chunks ⟨0, rawOpening trim before after ++ content.toList ++
      (Markup.tag "endraw" .unset).toList⟩ =
        [.data ⟨Text.byteLength (rawOpening trim before after), content.toList⟩] := by
    rw [chunks_of_readChunk (by simp [rawOpening]) hread, chunks]
    rfl
  rw [read, String.toList_append, String.toList_append, String.toList_ofList, hlift, parse, hchunks,
    ← dataNode_rawBlock hbefore hafter]
  rfl

end RawOpening

end Nunjucks

/-! ### Both languages -/

/-- A source that is one verbatim block is read as its body: in Liquid with either tag, and in
Nunjucks with any opening tag that fits into the window. -/
theorem read_verbatim_body (body : String) (hp : Text.EndsPaired '{' body.toList) :
    (¬ HoldsTag "endraw".toList body.toList →
      Liquid.read ("\x7b% raw %\x7d" ++ body ++ "\x7b% endraw %\x7d") =
        .ok [.raw body .unset .unset]) ∧
    (¬ HoldsTag "endcomment".toList body.toList →
      Liquid.read ("\x7b% comment %\x7d" ++ body ++ "\x7b% endcomment %\x7d") =
        .ok [.comment body .unset .unset]) ∧
    (¬ HoldsTag "endraw".toList body.toList → ¬ "\x7b#".toList <:+: body.toList →
      ∀ (trim : Trim) (before after : List Char), (∀ c ∈ before, Text.isBlank c) →
        (∀ c ∈ after, Text.isBlank c) →
        Nunjucks.read (String.ofList (Nunjucks.rawOpening trim before after) ++ body ++
            "\x7b% endraw %\x7d") =
          .ok [if Text.byteLength (Nunjucks.rawOpening trim before after) ≤ Nunjucks.rawWindow then
            .raw body trim .unset else .text body]) := by
  have hraw : Markup.block "raw" body ("end" ++ "raw") .unset .unset =
      "\x7b% raw %\x7d" ++ body ++ "\x7b% endraw %\x7d" := rfl
  have hcomment : Markup.block "comment" body ("end" ++ "comment") .unset .unset =
      "\x7b% comment %\x7d" ++ body ++ "\x7b% endcomment %\x7d" := rfl
  refine ⟨fun h => ?_, fun h => ?_, fun h hq trim before after hbefore hafter => ?_⟩
  · have hbody := Liquid.isBody_of_not_holdsTag h hp
    rw [← show "end" ++ "raw" = "endraw" from rfl] at hbody
    rw [← hraw, Liquid.read_block (by decide) hbody]
    rfl
  · have hbody := Liquid.isBody_of_not_holdsTag h hp
    rw [← show "end" ++ "comment" = "endcomment" from rfl] at hbody
    rw [← hcomment, Liquid.read_block (by decide) hbody]
    rfl
  · exact Nunjucks.read_rawBlock hbefore hafter trim h hp hq

/-- A body that holds delimiters of every kind and ends in two braces, after an opening tag with
markers and blanks that just fits into the window. -/
theorem read_verbatim_body_delimiters :
    let body := "\x7b\x7b% if a %\x7d\x7b%- end -%\x7d\x7b\x7b b \x7d\x7d \x7b\x7b"
    Liquid.read ("\x7b% raw %\x7d" ++ body ++ "\x7b% endraw %\x7d") =
        .ok [.raw body .unset .unset] ∧
      Liquid.read ("\x7b% comment %\x7d" ++ body ++ "\x7b% endcomment %\x7d") =
        .ok [.comment body .unset .unset] ∧
      Nunjucks.read ("\x7b%- \n raw   \t-%\x7d" ++ body ++ "\x7b% endraw %\x7d") =
        .ok [.raw body ⟨true, true⟩ .unset] := by
  intro body
  have hbody : Text.EndsPaired '{' body.toList ∧ ¬ "endraw".toList <:+: body.toList ∧
      ¬ "endcomment".toList <:+: body.toList ∧ ¬ "\x7b#".toList <:+: body.toList := by
    decide +kernel
  obtain ⟨hp, hraw, hcomment, hq⟩ := hbody
  have h := read_verbatim_body body hp
  refine ⟨h.1 fun ht => hraw ht.isInfix_name, h.2.1 fun ht => hcomment ht.isInfix_name, ?_⟩
  exact h.2.2 (fun ht => hraw ht.isInfix_name) hq ⟨true, true⟩ [' ', '\n', ' ']
    [' ', ' ', ' ', '\t'] (by decide) (by decide)

/-- A single brace at the end of a body hides the closing tag, and the body of a raw block whose
opening tag does not fit into the window is plain text. -/
theorem read_verbatim_body_unpaired :
    ¬ HoldsTag "endraw".toList "\x7b".toList ∧
      Liquid.read ("\x7b% raw %\x7d" ++ "\x7b" ++ "\x7b% endraw %\x7d") ≠
        .ok [.raw "\x7b" .unset .unset] ∧
      Nunjucks.read ("\x7b%       raw       %\x7d" ++ "x" ++ "\x7b% endraw %\x7d") =
        .ok [.text "x"] := by
  refine ⟨fun h => absurd h.isInfix_name (by decide), ?_⟩
  decide +kernel

end Stencil
