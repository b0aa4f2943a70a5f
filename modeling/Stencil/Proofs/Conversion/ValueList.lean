import Stencil.Liquid.Reader
import Stencil.Nunjucks.Lower
import Stencil.Proofs.Liquid.Padding
import Stencil.Proofs.Liquid.Tiling

/-!
# Lists of values and their texts

A clause of a Liquid case distinction may list several values. They are read with the grammar of
operands, but a list is kept as it was written, and whether a text is a list is found out again when
it is written to Nunjucks: by a comma, or by the word `or` after a blank and before a space, outside
quotes. The two agree as long as no string escapes its own quote, and as long as a list has some
separator that can be seen from its text.
-/

namespace Stencil

namespace Text

/-- A backslash stands before the quote. -/
def escapes (quote : Char) : List Char → Bool
  | '\\' :: c :: cs => c == quote || escapes quote cs
  | _ :: cs => escapes quote cs
  | [] => false

/-- A quoted text has its own quote after a backslash. -/
def escapesOwnQuote : List Char → Bool
  | quote :: body => escapes quote body
  | [] => false

theorem escapes_cons {c quote : Char} (hc : c ≠ '\\') (cs : List Char) :
    escapes quote (c :: cs) = escapes quote cs := by
  rw [escapes]
  rintro _ _ rfl
  exact absurd rfl hc

end Text

/-! ### What is found in a text -/

namespace Nunjucks

variable {s t : List Char} {previous : Char}

theorem listsValues_opening {q : Char} (hq : Text.isQuote q) (c : Char) (cs : List Char) :
    listsValues none c (q :: cs) = listsValues (some q) q cs := by
  rw [listsValues, if_pos hq]

theorem listsValues_closing (q c : Char) (cs : List Char) :
    listsValues (some q) c (q :: cs) = listsValues none q cs := by
  simp [listsValues]

theorem listsValues_inside {c q : Char} (hc : c ≠ q) (d : Char) (cs : List Char) :
    listsValues (some q) d (c :: cs) = listsValues (some q) c cs := by
  simp [listsValues, hc]

/-- A string without escapes of its own quote is passed over up to its closing quote. -/
theorem listsValues_quoted {q : Char} {body : List Char} (hq : Text.isQuote q)
    (h : Text.QuotedBody q body) (hescapes : Text.escapes q body = false) (previous : Char)
    (tail : List Char) :
    listsValues (some q) previous (body ++ tail) = listsValues none q tail := by
  have hslash := Text.ne_backslash_of_isQuote hq
  induction h generalizing previous with
  | closing => exact listsValues_closing _ _ _
  | escaped c _ ih =>
    rw [Text.escapes, Bool.or_eq_false_iff, beq_eq_false_iff_ne] at hescapes
    rw [List.cons_append, List.cons_append, listsValues_inside hslash.symm,
      listsValues_inside hescapes.1, ih hescapes.2]
  | doubled _ ih =>
    -- a doubled quote closes the string and opens it again
    rw [Text.escapes_cons hslash, Text.escapes_cons hslash] at hescapes
    rw [List.cons_append, List.cons_append, listsValues_closing, listsValues_opening hq,
      ih hescapes]
  | other hc hne _ ih =>
    rw [Text.escapes_cons hc] at hescapes
    rw [List.cons_append, listsValues_inside hne, ih hescapes]

/-- What is found after a text, with quotes as they were before it, is found from its start on. -/
def Passes (s : List Char) : Prop :=
  ∀ previous tail, listsValues none (s.getLast?.getD previous) tail →
    listsValues none previous (s ++ tail)

namespace Passes

theorem nil : Passes [] :=
  fun _ _ h => h

theorem append (h : Passes s) (h' : Passes t) : Passes (s ++ t) := by
  intro previous tail htail
  rw [List.append_assoc]
  refine h _ _ (h' _ _ ?_)
  cases ht : t.getLast? with
  | none => simpa [List.getLast?_append, ht] using htail
  | some c => simpa [List.getLast?_append, ht] using htail

theorem of_unquoted (h : ∀ c ∈ s, Text.isQuote c = false) : Passes s := by
  induction s with
  | nil => exact nil
  | cons c s ih =>
    obtain ⟨hc, hs⟩ := List.forall_mem_cons.mp h
    intro previous tail htail
    rw [List.getLast?_cons, Option.getD_some] at htail
    have hrest : listsValues none c (s ++ tail) := ih hs c tail htail
    rw [List.cons_append, listsValues, if_neg (by simp [hc]), hrest, Bool.or_true]

theorem string (h : Text.isString s) (hescapes : Text.escapesOwnQuote s = false) : Passes s := by
  cases s with
  | nil => exact nil
  | cons q cs =>
    obtain ⟨hq, hcs⟩ := Text.isString_cons.mp h
    intro previous tail htail
    rw [List.getLast?_cons, Text.getLast?_of_quotedRest hcs, Option.getD_some, Option.getD_some]
      at htail
    have hbody := (Text.quotedBody_of_quotedRest hcs).1
    rw [List.cons_append, listsValues_opening hq, listsValues_quoted hq hbody hescapes]
    exact htail

end Passes

/-- Nothing is found in a text without blanks, commas and quotes. -/
theorem listsValues_of_plain
    (h : ∀ c ∈ s, Text.isBlank c = false ∧ Text.isQuote c = false ∧ c ≠ ',') (previous : Char) :
    listsValues none previous s = false := by
  induction s generalizing previous with
  | nil => rfl
  | cons c s ih =>
    obtain ⟨⟨-, hq, hcomma⟩, hs⟩ := List.forall_mem_cons.mp h
    have hword : Text.startsWith "or ".toList (c :: s) = false := by
      rw [Bool.eq_false_iff, Ne, Text.startsWith_iff]
      intro hor
      have hblank := (h ' ' (hor.subset (by decide))).1
      exact absurd hblank (by decide)
    rw [listsValues, if_neg (by simp [hq]), ih hs, hword, beq_eq_false_iff_ne.mpr hcomma,
      Bool.and_false]
    rfl

end Nunjucks

/-! ### Separators -/

namespace Liquid

open Nunjucks (listsValues Passes)

/-- A separator can be seen from its text: it has a comma, or the word `or` after a blank and before
a space. -/
def isSeen (separator : List Char) : Bool :=
  separator.contains ',' ||
    (separator.head?.any Text.isBlank && Text.startsWith "or ".toList (Text.trimStart separator))

/-- A comma is found where it stands. -/
theorem listsValues_of_comma {s : List Char} (hs : ∀ c ∈ s, Text.isQuote c = false)
    (hcomma : ',' ∈ s) (previous : Char) (tail : List Char) :
    listsValues none previous (s ++ tail) := by
  obtain ⟨before, after, rfl⟩ := List.append_of_mem hcomma
  rw [List.append_assoc, List.cons_append]
  exact Passes.of_unquoted (fun c hc => hs c (List.mem_append_left _ hc)) previous _ rfl

/-- The word `or` is found after blanks. -/
theorem listsValues_of_or {s : List Char} (hor : Text.startsWith "or ".toList (Text.trimStart s))
    {previous : Char} (hp : Text.isBlank previous) (tail : List Char) :
    listsValues none previous (s ++ tail) := by
  induction s generalizing previous with
  | nil => cases hor
  | cons c s ih =>
    rw [Text.trimStart, List.dropWhile_cons] at hor
    split at hor
    · next hc =>
      rw [List.cons_append, listsValues, if_neg (by simp [Text.isQuote_eq_false_of_isBlank hc]),
        ih hor hc, Bool.or_true]
    · have hword : Text.startsWith "or ".toList (c :: s ++ tail) :=
        Text.startsWith_iff.mpr ((Text.startsWith_iff.mp hor).trans (List.prefix_append _ _))
      obtain ⟨rest, hrest⟩ := Text.startsWith_iff.mp hor
      obtain ⟨rfl, -⟩ := List.cons.inj hrest
      rw [List.cons_append] at hword ⊢
      rw [listsValues, if_neg (by decide), hp, hword]
      rfl

theorem listsValues_of_isSeen {s : List Char} (hs : ∀ c ∈ s, Text.isQuote c = false) (h : isSeen s)
    (previous : Char) (tail : List Char) : listsValues none previous (s ++ tail) := by
  rw [isSeen, Bool.or_eq_true, Bool.and_eq_true, List.contains_iff_mem] at h
  rcases h with hcomma | ⟨hblank, hor⟩
  · exact listsValues_of_comma hs hcomma previous tail
  · cases s with
    | nil => cases hblank
    | cons c s =>
      have hc : Text.isBlank c := by simpa using hblank
      rw [Text.trimStart, List.dropWhile_cons, if_pos hc] at hor
      rw [List.cons_append, listsValues, if_neg (by simp [Text.isQuote_eq_false_of_isBlank hc]),
        listsValues_of_or hor hc, Bool.or_true]

/-! ### Operands and their texts -/

theorem unquoted_takeWhile_isBlank (text : List Char) :
    ∀ c ∈ text.takeWhile Text.isBlank, Text.isQuote c = false :=
  fun _ hc => Text.isQuote_eq_false_of_isBlank (List.mem_takeWhile_imp hc)

/-- An operand stands where a piece begins, and reading leads over its text. -/
structure Spans (p text rest : Piece) : Prop where
  start : text.start = p.start
  leads : p.Leads text.text rest
  passes : Passes text.text

variable {p rest : Piece}

/-- An operand stands where its piece begins, and is passed over. -/
theorem spans_operandAt {o : Operand} (ho : ∀ t ∈ o.quotedTexts, Text.escapesOwnQuote t = false)
    (h : operandAt p = .ok (o, rest)) : Spans p o.text rest := by
  obtain ⟨text, htext, hleads, -⟩ := exists_of_operandAt h
  have hpasses : Passes text := htext.forall_text (fun _ _ => .append)
    (fun _ hs => .of_unquoted fun c hc => (isLoose_iff.mp (hs c hc)).1)
    fun t ht hstring => .string hstring (ho t ht)
  rw [htext.text_eq]
  exact ⟨rfl, hleads, hpasses⟩

theorem Spans.stop {p text rest : Piece} (h : Spans p text rest) : text.stop = rest.start := by
  rw [Piece.stop, h.start, h.leads.start]

/-! ### Lists of values -/

/-- The text of a piece between two offsets of its source. -/
def between (p : Piece) (start stop : Nat) : List Char :=
  ((Piece.slice? p.text (start - p.start) (stop - p.start)).map (·.text)).getD []

theorem between_of_leads {p q r : Piece} {before s : List Char} (h : p.Leads before q)
    (h' : q.Leads s r) : between p q.start r.start = s := by
  have hstart : q.start - p.start = Text.byteLength before := by rw [h.start]; omega
  have hstop : r.start - p.start - (q.start - p.start) = Text.byteLength s := by
    rw [h'.start, h.start]
    omega
  have hle : q.start - p.start ≤ r.start - p.start := by rw [h'.start]; omega
  rw [between, Piece.slice?, if_pos hle, hstop, hstart, h.text, h'.text, Piece.splitAt?_append]
  simp only [Option.bind_some, Piece.splitAt?_append, Option.map_some, Option.getD_some]

/-- The texts between the values of a clause. -/
def separators (args : Piece) : List Operand → List (List Char)
  | o :: o' :: os => between args o.text.stop o'.text.start :: separators args (o' :: os)
  | _ => []

/-- What separates two values has no quotes. -/
theorem leads_eatSeparator? {p rest : Piece} (h : eatSeparator? p = some rest) :
    ∃ s, p.Leads s rest.trimStart ∧ ∀ c ∈ s, Text.isQuote c = false := by
  obtain ⟨sep, hsep, hquotes⟩ : ∃ sep, p.trimStart.Leads sep rest ∧
      ∀ c ∈ sep, Text.isQuote c = false := by
    rcases Option.or_eq_some_iff.mp h with h | ⟨-, h⟩
    · exact ⟨_, .strip? h, by decide⟩
    · exact ⟨_, .strip? (Option.filter_eq_some_iff.mp h).1, by decide⟩
  refine ⟨_, ((Piece.Leads.trimStart p).trans hsep).trans (.trimStart rest), ?_⟩
  rw [List.forall_mem_append, List.forall_mem_append]
  exact ⟨⟨unquoted_takeWhile_isBlank _, hquotes⟩, unquoted_takeWhile_isBlank _⟩

/-- A separator that can be seen is found in the text after the value before it. -/
theorem listsValues_of_parseMoreValues {args p : Piece} {before : List Char} {o : Operand}
    {values : List Operand} (hargs : args.Leads before p) (ho : o.text.stop = p.start)
    (hvalues : ∀ v ∈ values, ∀ t ∈ v.quotedTexts, Text.escapesOwnQuote t = false)
    (hseen : ∃ s ∈ separators args (o :: values), isSeen s) (h : parseMoreValues p = .ok values)
    (previous : Char) : listsValues none previous p.text := by
  fun_induction parseMoreValues p generalizing before o values previous with
  | case1 p hp =>
    cases h
    obtain ⟨s, hs, -⟩ := hseen
    cases hs
  | case2 => cases h
  | case3 => cases h
  | case4 => cases h
  | case5 p hp rest hs value rest' hv values' hmore ih =>
    cases h
    obtain ⟨hvalue, hvalues⟩ := List.forall_mem_cons.mp hvalues
    obtain ⟨sep, hsep, hquotes⟩ := leads_eatSeparator? hs
    have hspans : Spans rest.trimStart value.text rest' := spans_operandAt hvalue hv
    have hbetween : between args o.text.stop value.text.start = sep := by
      rw [ho, hspans.start]
      exact between_of_leads hargs hsep
    rw [separators, hbetween] at hseen
    rw [hsep.text]
    obtain ⟨s, hmem, hs⟩ := hseen
    rcases List.mem_cons.mp hmem with rfl | hmem
    · exact listsValues_of_isSeen hquotes hs previous _
    · have hrest : ∀ c, listsValues none c rest'.text := ih ((hargs.trans hsep).trans hspans.leads)
        hspans.stop hvalues ⟨s, hmem, hs⟩ hmore
      refine Passes.of_unquoted hquotes previous _ ?_
      rw [hspans.leads.text]
      exact hspans.passes _ _ (hrest _)

/-- A clause with a separator that can be seen is taken for a list. -/
theorem isValueList_of_parseWhen {args : Piece} {values : List Operand}
    (h : parseWhen args = .ok values)
    (hvalues : ∀ v ∈ values, ∀ t ∈ v.quotedTexts, Text.escapesOwnQuote t = false)
    (hseen : ∃ s ∈ separators args values, isSeen s) : Nunjucks.isValueList args.toString := by
  obtain ⟨⟨first, rest⟩, hfirst, h⟩ := bind_eq_ok.mp h
  obtain ⟨more, hmore, rfl⟩ := bind_pure_eq_ok.mp h
  obtain ⟨hv, hvalues⟩ := List.forall_mem_cons.mp hvalues
  have hspans : Spans args.trimStart first.text rest := spans_operandAt hv hfirst
  have hleads := (Piece.Leads.trimStart args).trans hspans.leads
  have hpasses := (Passes.of_unquoted (unquoted_takeWhile_isBlank args.text)).append hspans.passes
  rw [Nunjucks.isValueList, Piece.toString, String.toList_ofList, hleads.text]
  exact hpasses _ _ (listsValues_of_parseMoreValues hleads hspans.stop hvalues hseen hmore _)

theorem isValueList_of_plain {text : List Char}
    (h : ∀ c ∈ text, Text.isBlank c = false ∧ Text.isQuote c = false ∧ c ≠ ',') :
    Nunjucks.isValueList (.ofList text) = false := by
  rw [Nunjucks.isValueList, String.toList_ofList]
  exact Nunjucks.listsValues_of_plain h ' '

/-- A single operand is not taken for a list. -/
theorem isValueList_operandAt {p rest : Piece} {o : Operand}
    (ho : ∀ t ∈ o.quotedTexts, Text.escapesOwnQuote t = false) (h : operandAt p = .ok (o, rest))
    (scope : Scope) : (o.toExpr scope).literal?.any Nunjucks.isValueList = false := by
  obtain ⟨text, htext, -⟩ := exists_of_operandAt h
  cases htext with
  | string hs =>
    obtain ⟨q, cs, rfl, hq⟩ := exists_cons_of_isString hs
    have hbody := Nunjucks.listsValues_quoted hq
      (Text.quotedBody_of_quotedRest (Text.isString_cons.mp hs).2).1
      (ho _ (List.mem_singleton_self _)) q []
    rw [List.append_nil] at hbody
    change Nunjucks.isValueList (String.ofList (q :: cs)) = false
    rw [Nunjucks.isValueList, String.toList_ofList, Nunjucks.listsValues_opening hq, hbody]
    rfl
  | number hn =>
    have hplain : Nunjucks.isValueList (.ofList text) = false := by
      refine isValueList_of_plain fun d hd => ?_
      obtain ⟨hblank, hloose, hcomma⟩ := signs_of_mem_signed hn hd
      exact ⟨hblank, (isLoose_iff.mp hloose).1, hcomma⟩
    exact hplain
  | keyword word =>
    have hplain : Nunjucks.isValueList (.ofList word.text.toList) = false :=
      isValueList_of_plain (by cases word <;> decide)
    generalize word.text.toList = text at hplain ⊢
    cases word with
    | nil | null | blank => rfl
    | true | false => exact hplain
    | empty => exact (by decide : Nunjucks.isValueList "empty" = false)
  | property =>
    simp only [Operand.toExpr, Expr.ofChain]
    split <;> rfl

/-! ### Clauses -/

/-- No string in a clause escapes its own quote, and a list has a separator that can be seen. -/
def When.IsRegular (w : When Element) : Prop :=
  (∀ v ∈ w.values, ∀ t ∈ v.quotedTexts, Text.escapesOwnQuote t = false) ∧
    (2 ≤ w.values.length → ∃ s ∈ separators w.tag.args w.values, isSeen s)

instance (w : When Element) : Decidable w.IsRegular :=
  inferInstanceAs (Decidable (_ ∧ _))

/-- A regular clause is taken for a list exactly if it is one. -/
theorem isValueList_whenCondition {w : When Element} (h : parseWhen w.tag.args = .ok w.values)
    (hw : w.IsRegular) (scope : Scope) :
    (whenCondition scope w.tag w.values).literal?.any Nunjucks.isValueList =
      decide (2 ≤ w.values.length) := by
  obtain ⟨hunescaped, hseen⟩ := hw
  obtain ⟨⟨first, rest⟩, hfirst, hmore⟩ := bind_eq_ok.mp h
  obtain ⟨more, -, hvalues⟩ := bind_eq_ok.mp hmore
  have hvalues : first :: more = w.values := Except.ok.inj hvalues
  cases more with
  | nil =>
    rw [← hvalues] at hunescaped ⊢
    exact isValueList_operandAt (hunescaped first List.mem_cons_self) hfirst scope
  | cons second more =>
    have hlength : 2 ≤ w.values.length := by simp [← hvalues]
    have hlist := isValueList_of_parseWhen h hunescaped (hseen hlength)
    rw [decide_eq_true hlength, ← hvalues]
    exact hlist

end Liquid

end Stencil
