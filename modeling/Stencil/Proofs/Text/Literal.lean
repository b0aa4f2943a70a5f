import Mathlib.Data.List.TakeWhile
import Stencil.Proofs.Text.Scan

/-!
# Literals and what follows them

A text that is one literal, a number or a quoted string, and the statement that a scan over it ends
where it ends as long as what follows does not become part of it. A scan that starts in a longer
text finds a literal in this sense.
-/

namespace Stencil.Text

variable {c q : Char} {cs body rest : List Char}

/-! ### Numbers -/

/-- The rest of a number after its first digit: digits and possibly a fraction. -/
def numberTail (cs : List Char) : List Char :=
  cs.takeWhile isDigit ++ fraction (cs.dropWhile isDigit)

/-- A text that is one unsigned number. -/
def isNumber : List Char → Bool
  | [] => false
  | c :: cs => isDigit c && numberTail cs == cs

/-- What can stand right after a number and does not become part of it. -/
def EndsNumber (rest : List Char) : Prop :=
  ∀ c ∈ rest.head?, isDigit c = false ∧ (c = '.' → ∀ d ∈ rest.tail.head?, isDigit d = false)

theorem isNumber_cons : isNumber (c :: cs) ↔ isDigit c ∧ numberTail cs = cs := by
  rw [isNumber, Bool.and_eq_true, beq_iff_eq]

/-- No fraction begins at the seam. -/
theorem fraction_eq_nil (hr : EndsNumber rest) : fraction rest = [] := by
  unfold fraction
  split
  · next d ds =>
    have hd := (hr '.' rfl).2 rfl d rfl
    simp [hd]
  · rfl

theorem fraction_append {f : List Char} (hf : fraction f = f) (hr : EndsNumber rest) :
    fraction (f ++ rest) = f := by
  unfold fraction at hf
  split at hf
  · next d ds =>
    split at hf
    · next hd =>
      rw [List.cons.injEq, List.takeWhile_eq_self_iff] at hf
      have := takeWhile_append_stop hf.2 fun c hc => (hr c hc).1
      rw [List.cons_append] at this
      simp [fraction, hd, this]
    · exact absurd hf (by simp)
  · rw [← hf, List.nil_append, fraction_eq_nil hr]

theorem mem_fraction (h : c ∈ fraction cs) : isDigit c ∨ c = '.' := by
  unfold fraction at h
  split at h
  · split at h
    · rcases List.mem_cons.mp h with rfl | h
      · exact .inr rfl
      · exact .inl (List.mem_takeWhile_imp h)
    · exact absurd h (by simp)
  · exact absurd h (by simp)

theorem mem_numberTail (h : c ∈ numberTail cs) : isDigit c ∨ c = '.' :=
  (List.mem_append.mp h).elim (fun h => .inl (List.mem_takeWhile_imp h)) mem_fraction

/-- A fraction does not begin with a digit. -/
theorem head?_fraction (cs : List Char) : ∀ c ∈ (fraction cs).head?, isDigit c = false := by
  unfold fraction
  split
  · split
    · intro c hc
      simp only [List.head?_cons, Option.mem_def, Option.some.injEq] at hc
      subst hc
      decide
    · simp
  · simp

theorem fraction_fraction (cs : List Char) : fraction (fraction cs) = fraction cs := by
  fun_cases fraction cs with
  | case1 d ds hd => simp [fraction, hd, List.takeWhile_idem]
  | case2 => rfl
  | case3 => rfl

/-- Digits and a fraction are told apart again, whatever follows them. -/
theorem numberTail_digits_append {ds f : List Char} (hds : ∀ d ∈ ds, isDigit d)
    (hf : fraction f = f) (hr : EndsNumber rest) : numberTail (ds ++ f ++ rest) = ds ++ f := by
  have hstop : ∀ d ∈ (f ++ rest).head?, isDigit d = false := by
    intro d hd
    rw [List.head?_append, Option.mem_def, Option.or_eq_some_iff] at hd
    rcases hd with hd | ⟨-, hd⟩
    · rw [← hf] at hd
      exact head?_fraction f d hd
    · exact (hr d hd).1
  rw [numberTail, List.append_assoc, takeWhile_append_stop hds hstop,
    dropWhile_append_stop hds hstop, fraction_append hf hr]

theorem endsNumber_nil : EndsNumber [] := by
  simp [EndsNumber]

/-- What is found of a number is a number again. -/
theorem numberTail_numberTail (cs : List Char) : numberTail (numberTail cs) = numberTail cs := by
  have hds : ∀ d ∈ cs.takeWhile isDigit, isDigit d := fun _ hd => List.mem_takeWhile_imp hd
  have h := numberTail_digits_append hds (fraction_fraction (cs.dropWhile isDigit)) endsNumber_nil
  rwa [List.append_nil] at h

/-- A number ends at the seam. -/
theorem numberTail_append (h : numberTail cs = cs) (hr : EndsNumber rest) :
    numberTail (cs ++ rest) = cs := by
  have hds : ∀ d ∈ cs.takeWhile isDigit, isDigit d := fun _ hd => List.mem_takeWhile_imp hd
  have := numberTail_digits_append hds (fraction_fraction (cs.dropWhile isDigit)) hr
  rwa [← numberTail, h] at this

theorem fraction_append_ends (hr : EndsNumber rest) (cs : List Char) :
    fraction (cs ++ rest) = fraction cs := by
  have hdigit : ∀ c ∈ rest.head?, isDigit c = false := fun c hc => (hr c hc).1
  rcases cs with _ | ⟨c, cs⟩
  · exact fraction_eq_nil hr
  by_cases hc : c = '.'
  · subst hc
    cases cs with
    | nil =>
      cases rest with
      | nil => rfl
      | cons d ds => simp [fraction, hdigit d rfl]
    | cons d ds =>
      have hdigits := takeWhile_append_head hdigit (d :: ds)
      rw [List.cons_append] at hdigits
      rw [List.cons_append, List.cons_append, fraction, fraction, hdigits]
  · unfold fraction
    split <;> simp_all

/-- What ends a number leaves it as it is, wherever the number is cut off. -/
theorem numberTail_append_ends (hr : EndsNumber rest) (cs : List Char) :
    numberTail (cs ++ rest) = numberTail cs := by
  have hdigit : ∀ c ∈ rest.head?, isDigit c = false := fun c hc => (hr c hc).1
  rw [numberTail, takeWhile_append_head hdigit, dropWhile_append_head hdigit,
    fraction_append_ends hr, numberTail]

theorem endsNumber_cons_blank {b : Char} (hb : isBlank b) (z : List Char) :
    EndsNumber (b :: z) := by
  rintro c ⟨⟩
  exact ⟨isDigit_eq_false_of_isBlank hb, fun hdot => absurd hdot (ne_of_isBlank hb (by decide))⟩

theorem fraction_isPrefix (cs : List Char) : fraction cs <+: cs := by
  fun_cases fraction cs with
  | case1 d ds hd => exact List.cons_prefix_cons.mpr ⟨rfl, List.takeWhile_prefix _⟩
  | case2 => exact List.nil_prefix
  | case3 => exact List.nil_prefix

theorem numberTail_isPrefix (cs : List Char) : numberTail cs <+: cs := by
  have h := (List.prefix_append_right_inj (cs.takeWhile isDigit)).mpr
    (fraction_isPrefix (cs.dropWhile isDigit))
  rwa [List.takeWhile_append_dropWhile] at h

theorem isNumber_of_digits (hne : cs ≠ []) (h : ∀ c ∈ cs, isDigit c) : isNumber cs := by
  cases cs with
  | nil => exact absurd rfl hne
  | cons c cs =>
    have hcs : ∀ d ∈ cs, isDigit d := fun d hd => h d (List.mem_cons_of_mem c hd)
    refine isNumber_cons.mpr ⟨h c List.mem_cons_self, ?_⟩
    rw [numberTail, List.takeWhile_eq_self_iff.mpr hcs, List.dropWhile_eq_nil_iff.mpr hcs, fraction,
      List.append_nil]
    simp

/-- A number consists of digits and at most a dot. -/
theorem mem_number {text : List Char} (h : isNumber text) (hc : c ∈ text) :
    isDigit c ∨ c = '.' := by
  cases text with
  | nil => cases hc
  | cons d ds =>
    rw [isNumber_cons] at h
    rw [← h.2, numberTail, List.mem_cons, List.mem_append] at hc
    rcases hc with rfl | hc | hc
    · exact .inl h.1
    · exact .inl (List.mem_takeWhile_imp hc)
    · exact mem_fraction hc

/-! ### Quoted strings -/

/-- A text that is one quoted string. -/
def isString : List Char → Bool
  | [] => false
  | q :: cs => isQuote q && quotedRest q cs == some (cs, [])

theorem isString_cons : isString (q :: cs) ↔ isQuote q ∧ quotedRest q cs = some (cs, []) := by
  rw [isString, Bool.and_eq_true, beq_iff_eq]

/-- A text without quotes of its kind and backslashes is closed by a quote. -/
theorem quotedRest_concat (h : ∀ c ∈ cs, c ≠ q ∧ c ≠ '\\') :
    quotedRest q (cs ++ [q]) = some (cs ++ [q], []) := by
  induction cs with
  | nil => simp [quotedRest]
  | cons c cs ih =>
    rw [List.forall_mem_cons] at h
    obtain ⟨d, ds, hd⟩ := List.exists_cons_of_ne_nil (List.concat_ne_nil q cs)
    have hrest := ih h.2
    rw [hd] at hrest
    rw [List.cons_append, hd, quotedRest, if_neg (by simpa using h.1.1), hrest, Option.map_some]
    exact h.1.2

theorem exists_isQuote_of_mem {quote : String} (h : quote ∈ ["'", "\""]) :
    ∃ q, isQuote q ∧ quote = String.singleton q := by
  rcases List.mem_cons.mp h with rfl | h
  · exact ⟨'\'', by decide, rfl⟩
  · obtain rfl := List.mem_singleton.mp h
    exact ⟨'"', by decide, rfl⟩

/-- A name between quotes is a quoted string. -/
theorem isString_quoted (hq : isQuote q) {name : List Char} (h : isIdentifier name) :
    isString (q :: (name ++ [q])) := by
  refine isString_cons.mpr ⟨hq, quotedRest_concat fun c hc => ?_⟩
  have hname := isNameChar_of_mem_identifier h hc
  refine ⟨?_, ne_of_isNameChar hname (by decide)⟩
  rintro rfl
  rw [isQuote_eq_false_of_isNameChar hname] at hq
  cases hq

/-- What stands in a string after its opening quote: escapes, doubled quotes and other characters up
to the closing quote. -/
inductive QuotedBody (q : Char) : List Char → Prop
  | closing : QuotedBody q [q]
  | escaped (c : Char) {cs : List Char} (h : QuotedBody q cs) : QuotedBody q ('\\' :: c :: cs)
  | doubled {cs : List Char} (h : QuotedBody q cs) : QuotedBody q (q :: q :: cs)
  | other {c : Char} {cs : List Char} (hc : c ≠ '\\') (hq : c ≠ q) (h : QuotedBody q cs) :
      QuotedBody q (c :: cs)

theorem ne_backslash_of_isQuote (hq : isQuote q) : q ≠ '\\' := by
  rintro rfl
  exact absurd hq (by decide)

/-- A string ends at its closing quote, unless another such quote follows. -/
theorem QuotedBody.quotedRest (h : QuotedBody q body) (hq : isQuote q)
    (hr : rest.head? ≠ some q) : quotedRest q (body ++ rest) = some (body, rest) := by
  have hslash := ne_backslash_of_isQuote hq
  induction h with
  | closing =>
    cases rest with
    | nil => simp [Text.quotedRest]
    | cons d ds =>
      have hd : d ≠ q := by simpa using hr
      simp [Text.quotedRest, hd]
  | escaped c _ ih => simp [Text.quotedRest, ih]
  | doubled _ ih => simp [Text.quotedRest, ih]
  | @other c cs hc hq h ih =>
    obtain ⟨d, ds, rfl⟩ : ∃ d ds, cs = d :: ds := by cases h <;> simp
    rw [List.cons_append] at ih
    simp [Text.quotedRest, hq, ih]

/-- What is found of a string is all of it. -/
theorem quotedBody_of_quotedRest (h : quotedRest q cs = some (body, rest)) :
    QuotedBody q body ∧ rest.head? ≠ some q := by
  fun_induction quotedRest q cs generalizing body rest with
  | case1 | case7 => cases h
  | case2 c cs ih =>
    obtain ⟨⟨b, r⟩, hb, he⟩ := Option.map_eq_some_iff.mp h
    obtain ⟨rfl, rfl⟩ := Prod.mk.inj he
    exact (ih hb).imp_left (.escaped c)
  | case3 c d cs _ hc hd ih =>
    obtain ⟨⟨b, r⟩, hb, he⟩ := Option.map_eq_some_iff.mp h
    obtain ⟨rfl, rfl⟩ := Prod.mk.inj he
    obtain ⟨rfl, rfl⟩ : c = q ∧ d = q := ⟨beq_iff_eq.mp hc, beq_iff_eq.mp hd⟩
    exact (ih hb).imp_left .doubled
  | case4 c d cs _ hc hd =>
    obtain ⟨rfl, rfl⟩ := Prod.mk.inj (Option.some.inj h)
    obtain rfl := beq_iff_eq.mp hc
    exact ⟨.closing, by simpa using hd⟩
  | case5 c d cs hne hc ih =>
    obtain ⟨⟨b, r⟩, hb, he⟩ := Option.map_eq_some_iff.mp h
    obtain ⟨rfl, rfl⟩ := Prod.mk.inj he
    exact (ih hb).imp_left (.other hne (by simpa using hc))
  | case6 c hc =>
    obtain ⟨rfl, rfl⟩ := Prod.mk.inj (Option.some.inj h)
    obtain rfl := beq_iff_eq.mp hc
    exact ⟨.closing, by simp⟩

/-- A quoted string ends with its closing quote. -/
theorem getLast?_of_quotedRest (h : quotedRest q cs = some (body, rest)) :
    body.getLast? = some q := by
  obtain ⟨hbody, -⟩ := quotedBody_of_quotedRest h
  clear h
  induction hbody with
  | closing => rfl
  | escaped _ _ ih | doubled _ ih | other _ _ _ ih => simp [List.getLast?_cons, ih]

/-- What does not begin with the closing quote of a string leaves it as it is. -/
theorem quotedRest_append_head {z : List Char} (hq : isQuote q) (hz : z.head? ≠ some q)
    (h : quotedRest q cs = some (body, rest)) :
    quotedRest q (cs ++ z) = some (body, rest ++ z) := by
  obtain ⟨hbody, hrest⟩ := quotedBody_of_quotedRest h
  have hne : (rest ++ z).head? ≠ some q := by
    cases rest with
    | nil => exact hz
    | cons c cs => simpa using hrest
  rw [quotedRest_append h, List.append_assoc]
  exact hbody.quotedRest hq hne

/-- A string that is not closed is not closed by a text without its quote. -/
theorem quotedRest_append_eq_none {z : List Char} (h : quotedRest q cs = none) (hz : q ∉ z) :
    quotedRest q (cs ++ z) = none := by
  have hnone : ∀ {z : List Char}, q ∉ z → quotedRest q z = none := by
    intro z hz
    cases hr : quotedRest q z with
    | none => rfl
    | some r =>
      have hmem : q ∈ r.1 := List.mem_of_getLast? (getLast?_of_quotedRest hr)
      exact absurd (quotedRest_append hr ▸ List.mem_append_left r.2 hmem) hz
  fun_induction quotedRest q cs with
  | case1 => exact hnone hz
  | case2 c cs ih =>
    rw [Option.map_eq_none_iff] at h
    simp [quotedRest, ih h]
  | case3 c d cs hne hc hd ih =>
    rw [Option.map_eq_none_iff] at h
    simp_all [quotedRest]
  | case4 => cases h
  | case5 c d cs hne hc ih =>
    rw [Option.map_eq_none_iff] at h
    have := ih h
    simp_all [quotedRest]
  | case6 => cases h
  | case7 c hc =>
    cases z with
    | nil => simpa [quotedRest] using hc
    | cons d z =>
      have hz' : q ∉ z := fun hq => hz (List.mem_cons_of_mem d hq)
      by_cases hslash : c = '\\'
      · simp [quotedRest, hslash, hnone hz']
      · simp_all [quotedRest]

/-! ### Texts without their quotes -/

theorem unquoted_of_isString {text : String} (h : isString text.toList) :
    unquoted text = text.toList.tail.dropLast := by
  rw [unquoted]
  cases htext : text.toList with
  | nil => rfl
  | cons q cs =>
    rw [htext] at h
    obtain ⟨hq, hrest⟩ := isString_cons.mp h
    simp [unquote?, hq, getLast?_of_quotedRest hrest]

theorem unquoted_infix_toList (text : String) : unquoted text <:+: text.toList := by
  rw [unquoted]
  cases text.toList with
  | nil => exact List.infix_refl _
  | cons q cs =>
    rw [unquote?]
    split
    · have hdrop := List.dropLast_prefix cs
      exact hdrop.isInfix.trans (List.suffix_cons q cs).isInfix
    · exact List.infix_refl _

end Stencil.Text
