import Mathlib.Data.List.Forall2
import Stencil.Liquid.Reader
import Stencil.Proofs.Selector
import Stencil.Proofs.Source
import Stencil.Proofs.Text.Decimal
import Stencil.Proofs.Text.Word

/-!
# Operands and their texts

The text of an access chain is read as an operand for that chain, whatever follows it that ends an
operand. Which chains operands stand for can be decided from the chain alone.
-/

namespace Stencil.Liquid

variable {c : Char} {cs name text rest : List Char}

/-! ### Punctuation -/

@[simp] theorem eat?_space (token : List Char) (start : Nat) (cs : List Char) :
    eat? token ⟨start, ' ' :: cs⟩ = eat? token ⟨start + 1, cs⟩ := by
  rw [eat?, eat?, Piece.trimStart_space]

theorem eat?_blanks {b : List Char} (hb : ∀ c ∈ b, Text.isBlank c) (token : List Char)
    (start : Nat) (rest : List Char) :
    eat? token ⟨start, b ++ rest⟩ = eat? token ⟨start + Text.byteLength b, rest⟩ := by
  rw [eat?, eat?, Piece.trimStart_blanks hb]

theorem eat?_sign (hc : Text.isBlank c = false) (start : Nat) (rest : List Char) :
    eat? [c] ⟨start, c :: rest⟩ = some ⟨start + c.utf8Size, rest⟩ := by
  have ht : Piece.trimStart ⟨start, c :: rest⟩ = ⟨start, c :: rest⟩ :=
    Piece.trimStart_eq_self (by simpa using hc)
  simp [eat?, ht, Piece.strip?, Text.strip?, Text.byteLength]

theorem eat?_eq_none (h : ∀ d ∈ (Text.trimStart rest).head?, d ≠ c) (start : Nat) :
    eat? [c] ⟨start, rest⟩ = none := by
  rw [eat?, Piece.strip?, Piece.text_trimStart, Option.map_eq_none_iff]
  cases ht : Text.trimStart rest with
  | nil => rfl
  | cons d ds =>
    rw [ht] at h
    exact Text.strip?_eq_none_of_ne (Ne.symm (h d rfl)) [] ds

/-! ### Loose characters -/

/-- The character can stand outside quotes between delimiters. -/
def isLoose (c : Char) : Bool :=
  !Text.isQuote c && c != '%' && c != '\x7d'

theorem isLoose_iff : isLoose c ↔ Text.isQuote c = false ∧ c ≠ '%' ∧ c ≠ '\x7d' := by
  simp [isLoose, and_assoc]

theorem isLoose_of_isNameChar (h : Text.isNameChar c) : isLoose c :=
  isLoose_iff.mpr ⟨Text.isQuote_eq_false_of_isNameChar h, Text.ne_of_isNameChar h (by decide),
    Text.ne_of_isNameChar h (by decide)⟩

theorem isLoose_of_isBlank (h : Text.isBlank c) : isLoose c :=
  isLoose_iff.mpr ⟨Text.isQuote_eq_false_of_isBlank h, Text.ne_of_isBlank h (by decide),
    Text.ne_of_isBlank h (by decide)⟩

/-! ### Identifiers -/

/-- A text that is one identifier. -/
def isIdentifier (name : List Char) : Bool :=
  !name.isEmpty && identifierText name == name

/-- What can stand right after an identifier and does not become part of it. -/
def Stops (rest : List Char) : Prop :=
  ∀ c ∈ rest.head?, isIdentChar c = false ∧ c ≠ '?'

theorem isIdentChar_of_isNameChar (h : Text.isNameChar c) : isIdentChar c := by
  simp [isIdentChar, h]

theorem stops_nil : Stops [] := by
  simp [Stops]

theorem stops_cons (h : isIdentChar c = false ∧ c ≠ '?') (cs : List Char) : Stops (c :: cs) := by
  intro d hd
  obtain rfl : c = d := by simpa using hd
  exact h

/-- Nothing that comes after the text becomes part of a name at its end: something stops that name,
or the text ends in a mark or a bracket. -/
def Parted (text rest : List Char) : Prop :=
  Stops rest ∨ text.getLast? = some '?' ∨ text.getLast? = some ']'

theorem Parted.of_append {before : List Char} (h : Parted (before ++ text) rest) (hne : text ≠ []) :
    Parted text rest := by
  rwa [Parted, List.getLast?_append_of_ne_nil _ hne] at h

theorem Parted.append_left (h : Parted text rest) (hne : text ≠ []) (before : List Char) :
    Parted (before ++ text) rest := by
  rwa [Parted, List.getLast?_append_of_ne_nil _ hne]

theorem Parted.apart (h : Parted text rest) : Text.Apart text rest := by
  rcases h with h | h | h
  · exact .inr fun c hc => (Bool.or_eq_false_iff.mp (h c hc).1).1
  all_goals
    refine .inl fun c hc => ?_
    obtain rfl := Option.some.inj (h.symm.trans hc)
    decide

/-- An identifier ends before what stops it. -/
theorem identifierText_append_stop (hc : Text.isNameStart c) (hcs : ∀ d ∈ cs, isIdentChar d)
    (hr : Stops rest) :
    identifierText (c :: cs ++ rest) = c :: cs := by
  have hstop : ∀ d ∈ rest.head?, isIdentChar d = false := fun d hd => (hr d hd).1
  have hq : rest.head? ≠ some '?' := fun h => (hr '?' h).2 rfl
  simp [identifierText, hc, Text.takeWhile_append_stop hcs hstop,
    Text.dropWhile_append_stop hcs hstop, hq]

/-- A question mark ends an identifier. -/
theorem identifierText_append_mark (hc : Text.isNameStart c) (hcs : ∀ d ∈ cs, isIdentChar d)
    (rest : List Char) :
    identifierText (c :: cs ++ '?' :: rest) = c :: cs ++ ['?'] := by
  have hstop : ∀ d ∈ ('?' :: rest).head?, isIdentChar d = false := by
    intro d hd
    obtain rfl : '?' = d := by simpa using hd
    decide
  simp [identifierText, hc, Text.takeWhile_append_stop hcs hstop,
    Text.dropWhile_append_stop hcs hstop]

/-- What is found of an identifier: a name, and possibly a question mark. -/
theorem identifierText_cases (h : identifierText cs ≠ []) :
    ∃ c ds, Text.isNameStart c ∧ (∀ d ∈ ds, isIdentChar d) ∧
      (identifierText cs = c :: ds ∨ identifierText cs = c :: ds ++ ['?']) := by
  cases cs with
  | nil => exact absurd rfl h
  | cons c cs =>
    by_cases hc : Text.isNameStart c
    · refine ⟨c, cs.takeWhile isIdentChar, hc, fun _ hd => List.mem_takeWhile_imp hd, ?_⟩
      simp only [identifierText, hc, if_true]
      split
      · exact .inr rfl
      · exact .inl rfl
    · exact absurd (by simp [identifierText, hc]) h

/-- What is found of an identifier is one. -/
theorem isIdentifier_identifierText (h : identifierText cs ≠ []) :
    isIdentifier (identifierText cs) := by
  obtain ⟨c, ds, hc, hds, he | he⟩ := identifierText_cases h
  · have := identifierText_append_stop hc hds stops_nil
    rw [List.append_nil] at this
    simp [he, isIdentifier, this]
  · have := identifierText_append_mark hc hds []
    simp only [List.cons_append] at this he
    simp [he, isIdentifier, this]

theorem identifierText_append (h : isIdentifier name) (hr : Parted name rest) :
    identifierText (name ++ rest) = name := by
  simp only [isIdentifier, Bool.and_eq_true, Bool.not_eq_true', List.isEmpty_eq_false_iff,
    beq_iff_eq] at h
  obtain ⟨hne, hname⟩ := h
  obtain ⟨c, ds, hc, hds, he | he⟩ := identifierText_cases (hname.symm ▸ hne)
  · rw [hname] at he
    have hall : ∀ d ∈ name, isIdentChar d := by
      rw [he]
      exact List.forall_mem_cons.mpr
        ⟨isIdentChar_of_isNameChar (Text.isNameChar_of_isNameStart hc), hds⟩
    rcases hr with hr | hr | hr
    · rw [he, identifierText_append_stop hc hds hr]
    · exact absurd (hall _ (List.mem_of_getLast? hr)) (by decide)
    · exact absurd (hall _ (List.mem_of_getLast? hr)) (by decide)
  · rw [hname] at he
    rw [he, List.append_assoc, List.singleton_append, identifierText_append_mark hc hds]

theorem exists_cons_of_isIdentifier (h : isIdentifier name) :
    ∃ c cs, name = c :: cs ∧ Text.isNameStart c := by
  cases name with
  | nil => exact absurd h (by decide)
  | cons c cs =>
    refine ⟨c, cs, rfl, ?_⟩
    by_contra hc
    simp [isIdentifier, identifierText, hc] at h

/-- The names of both languages are identifiers. -/
theorem isIdentifier_of_text (h : Text.isIdentifier name) : isIdentifier name := by
  cases name with
  | nil => exact absurd h (by decide)
  | cons c cs =>
    obtain ⟨hc, hcs⟩ := Text.isIdentifier_cons.mp h
    have :=
      identifierText_append_stop hc (fun d hd => isIdentChar_of_isNameChar (hcs d hd)) stops_nil
    rw [List.append_nil] at this
    simp [isIdentifier, this]

theorem readIdentifier_append (h : isIdentifier name) (hr : Parted name rest) (start : Nat) :
    readIdentifier ⟨start, name ++ rest⟩ =
      .ok (String.ofList name, ⟨start + Text.byteLength name, rest⟩) := by
  obtain ⟨c, cs, rfl, -⟩ := exists_cons_of_isIdentifier h
  rw [readIdentifier, identifierText_append h hr]
  simp only [List.isEmpty_cons, Bool.false_eq_true, if_false, Piece.drop_length_append]

theorem isIdentifier_of_readIdentifier {p rest : Piece} {name : String}
    (h : readIdentifier p = .ok (name, rest)) : isIdentifier name.toList := by
  unfold readIdentifier at h
  simp only at h
  split at h
  · simp at h
  · next hne =>
    obtain ⟨rfl, -⟩ := Prod.mk.inj (Except.ok.inj h)
    rw [String.toList_ofList]
    exact isIdentifier_identifierText (by simpa using hne)

/-- The characters of an identifier are neither blanks nor quotes nor any of the signs that tags are
made of. -/
theorem signs_of_mem_identifier (h : isIdentifier name) (hc : c ∈ name) :
    Text.isBlank c = false ∧ Text.isQuote c = false ∧ c ≠ '%' ∧ c ≠ '\x7d' ∧ c ≠ '=' ∧ c ≠ ',' := by
  have hchar : isIdentChar c ∨ c = '?' := by
    simp only [isIdentifier, Bool.and_eq_true, Bool.not_eq_true', List.isEmpty_eq_false_iff,
      beq_iff_eq] at h
    obtain ⟨d, ds, hd, hds, he⟩ := identifierText_cases (h.2.symm ▸ h.1)
    have hmem : c = d ∨ c ∈ ds ∨ c = '?' := by
      rw [h.2] at he
      rcases he with rfl | rfl
      · exact (List.mem_cons.mp hc).imp_right .inl
      · simpa using hc
    rcases hmem with rfl | hmem | rfl
    · exact .inl (isIdentChar_of_isNameChar (Text.isNameChar_of_isNameStart hd))
    · exact .inl (hds c hmem)
    · exact .inr rfl
  rcases hchar with hc | rfl
  · rcases Bool.or_eq_true _ _ |>.mp hc with hc | hc
    · exact ⟨Text.isBlank_eq_false_of_isNameChar hc, Text.isQuote_eq_false_of_isNameChar hc,
        Text.ne_of_isNameChar hc (by decide), Text.ne_of_isNameChar hc (by decide),
        Text.ne_of_isNameChar hc (by decide), Text.ne_of_isNameChar hc (by decide)⟩
    · rw [beq_iff_eq] at hc
      subst hc
      decide
  · decide

theorem isLoose_of_mem_identifier (h : isIdentifier name) (hc : c ∈ name) : isLoose c := by
  have hs := signs_of_mem_identifier h hc
  exact isLoose_iff.mpr ⟨hs.2.1, hs.2.2.1, hs.2.2.2.1⟩

/-- An identifier ends with a question mark or where no name goes on. -/
theorem identifierText_parted (hne : identifierText cs ≠ []) (h : identifierText cs ++ rest = cs) :
    Parted (identifierText cs) rest := by
  cases cs with
  | nil => exact absurd rfl hne
  | cons c cs =>
    by_cases hc : Text.isNameStart c
    · by_cases hmark : (cs.dropWhile isIdentChar).head? = some '?'
      · exact .inr (.inl (by simp [identifierText, hc, hmark, List.getLast?_cons]))
      · have htext : identifierText (c :: cs) = c :: cs.takeWhile isIdentChar := by
          simp [identifierText, hc, hmark]
        rw [htext, List.cons_append] at h
        obtain rfl : rest = cs.dropWhile isIdentChar := by
          refine List.append_cancel_left ((List.cons.inj h).2.trans ?_)
          exact List.takeWhile_append_dropWhile.symm
        refine .inl fun d hd => ⟨?_, by rintro rfl; exact hmark hd⟩
        have hnot := List.head?_dropWhile_not isIdentChar cs
        rwa [hd] at hnot
    · exact absurd (by simp [identifierText, hc]) hne

theorem identifierText_isPrefix (cs : List Char) : identifierText cs <+: cs := by
  cases cs with
  | nil => exact List.prefix_rfl
  | cons c cs =>
    by_cases hc : Text.isNameStart c
    · simp only [identifierText, hc, if_true]
      split
      · next h =>
        obtain ⟨ds, hds⟩ := List.head?_eq_some_iff.mp (beq_iff_eq.mp h)
        refine ⟨ds, ?_⟩
        have := List.takeWhile_append_dropWhile (p := isIdentChar) (l := cs)
        rw [hds] at this
        simpa using this
      · exact List.cons_prefix_cons.mpr ⟨rfl, List.takeWhile_prefix _⟩
    · simp [identifierText, hc]

theorem leads_readIdentifier {p rest : Piece} {name : String}
    (h : readIdentifier p = .ok (name, rest)) : p.Leads name.toList rest := by
  unfold readIdentifier at h
  simp only at h
  split at h
  · cases h
  · cases h
    have hleads := Piece.Leads.drop p (identifierText p.text).length
    rw [← List.prefix_iff_eq_take.mp (identifierText_isPrefix p.text)] at hleads
    rwa [String.toList_ofList]

theorem parted_readIdentifier {p rest : Piece} {name : String}
    (h : readIdentifier p = .ok (name, rest)) : Parted name.toList rest.text := by
  have htext := (leads_readIdentifier h).text
  unfold readIdentifier at h
  simp only at h
  split at h
  · cases h
  · next hne =>
    cases h
    rw [String.toList_ofList] at htext ⊢
    exact identifierText_parted (by simpa using hne) htext.symm

/-! ### Literals -/

/-- What can stand right after an operand: nothing, or a space or a comma, and no colon after the
blanks. -/
def Ends (rest : List Char) : Prop :=
  (∀ c ∈ rest.head?, c = ' ' ∨ c = ',') ∧ ∀ c ∈ (Text.trimStart rest).head?, c ≠ ':'

theorem ends_nil : Ends [] := by
  simp [Ends, Text.trimStart]

theorem Ends.stops (h : Ends rest) : Stops rest := by
  intro c hc
  rcases h.1 c hc with rfl | rfl <;> decide

theorem Ends.endsNumber (h : Ends rest) : Text.EndsNumber rest := by
  intro c hc
  rcases h.1 c hc with rfl | rfl <;> exact ⟨by decide, fun he => absurd he (by decide)⟩

theorem Ends.isQuote (h : Ends rest) : ∀ c ∈ rest.head?, Text.isQuote c = false := by
  intro c hc
  rcases h.1 c hc with rfl | rfl <;> decide

theorem exists_cons_of_isString (h : Text.isString text) :
    ∃ q cs, text = q :: cs ∧ Text.isQuote q := by
  cases text with
  | nil => exact absurd h (by decide)
  | cons q cs => exact ⟨q, cs, rfl, (Text.isString_cons.mp h).1⟩

theorem readQuoted_append (h : Text.isString text) (hr : ∀ c ∈ rest.head?, Text.isQuote c = false)
    (start : Nat) :
    readQuoted ⟨start, text ++ rest⟩ =
      .ok (⟨start, text⟩, ⟨start + Text.byteLength text, rest⟩) := by
  cases text with
  | nil => exact absurd h (by decide)
  | cons q cs =>
    obtain ⟨hq, hcs⟩ := Text.isString_cons.mp h
    have hne : rest.head? ≠ some q := fun hh => by simp [hr q hh] at hq
    have hbody := (Text.quotedBody_of_quotedRest hcs).1
    simp [readQuoted, hbody.quotedRest hq hne, Piece.stop]

/-- A string is read from the start of a piece. -/
theorem leads_readQuoted {p x rest : Piece} (hq : p.text.head?.any Text.isQuote)
    (h : readQuoted p = .ok (x, rest)) :
    Text.isString x.text ∧ x = ⟨p.start, x.text⟩ ∧ p.Leads x.text rest := by
  obtain ⟨quote, cs, body, hp, hrest, rfl, hstart⟩ := exists_of_readQuoted h
  have hquote : Text.isQuote quote := by simpa [hp] using hq
  have hbody : Text.quotedRest quote (body ++ []) = some (body, []) :=
    (Text.quotedBody_of_quotedRest hrest).1.quotedRest hquote (by simp)
  rw [List.append_nil] at hbody
  refine ⟨Text.isString_cons.mpr ⟨hquote, hbody⟩, rfl, ?_, hstart⟩
  rw [hp, Text.quotedRest_append hrest]
  rfl

/-- A text that is one number, possibly with a minus sign. -/
def isSigned : List Char → Bool
  | '-' :: cs => Text.isNumber cs
  | cs => Text.isNumber cs

theorem drop_length_takeWhile (p : Char → Bool) (cs : List Char) :
    cs.drop (cs.takeWhile p).length = cs.dropWhile p := by
  have h : (cs.takeWhile p ++ cs.dropWhile p).drop (cs.takeWhile p).length = cs.dropWhile p :=
    List.drop_left
  rwa [List.takeWhile_append_dropWhile] at h

theorem numberText_minus (cs : List Char) : numberText ('-' :: cs) = '-' :: Text.numberTail cs := by
  simp [numberText, Text.numberTail, Nat.add_comm 1, drop_length_takeWhile]

theorem numberText_of_ne (hcs : cs.head? ≠ some '-') : numberText cs = Text.numberTail cs := by
  simp [numberText, hcs, Text.numberTail, drop_length_takeWhile]

theorem numberTail_digit (hc : Text.isDigit c) (cs : List Char) :
    Text.numberTail (c :: cs) = c :: Text.numberTail cs := by
  simp [Text.numberTail, hc]

theorem numberText_digit (hc : Text.isDigit c) (cs : List Char) :
    numberText (c :: cs) = c :: Text.numberTail cs := by
  have hne : c ≠ '-' := by
    rintro rfl
    exact absurd hc (by decide)
  rw [numberText_of_ne (by simpa using hne), numberTail_digit hc]

/-- A number is digits after a minus sign, or without one. -/
theorem numberText_cases (cs : List Char) :
    (∃ ds, cs = '-' :: ds ∧ numberText cs = '-' :: Text.numberTail ds) ∨
      numberText cs = Text.numberTail cs := by
  by_cases hcs : cs.head? = some '-'
  · obtain ⟨ds, rfl⟩ := List.head?_eq_some_iff.mp hcs
    exact .inl ⟨ds, rfl, numberText_minus ds⟩
  · exact .inr (numberText_of_ne hcs)

theorem mem_numberText (hc : c ∈ numberText cs) : Text.isDigit c ∨ c ∈ ['-', '.'] := by
  have htail : ∀ ds, c ∈ Text.numberTail ds → Text.isDigit c ∨ c ∈ ['-', '.'] := fun ds hd =>
    (Text.mem_numberTail hd).imp_right fun hdot => by simp [hdot]
  obtain ⟨ds, -, he⟩ | he := numberText_cases cs
  · rw [he, List.mem_cons] at hc
    exact hc.elim (fun hminus => .inr (by simp [hminus])) (htail ds)
  · exact htail cs (he ▸ hc)

theorem numberText_isPrefix (cs : List Char) : numberText cs <+: cs := by
  obtain ⟨ds, rfl, he⟩ | he := numberText_cases cs
  · rw [he]
    exact List.cons_prefix_cons.mpr ⟨rfl, Text.numberTail_isPrefix ds⟩
  · rw [he]
    exact Text.numberTail_isPrefix cs

/-- A number is read from the start of a piece. -/
theorem leads_readNumber (p : Piece) :
    (readNumber p).1 = ⟨p.start, numberText p.text⟩ ∧
      p.Leads (numberText p.text) (readNumber p).2 := by
  have hleads := Piece.Leads.drop p (numberText p.text).length
  have htake := List.prefix_iff_eq_take.mp (numberText_isPrefix p.text)
  rw [← htake] at hleads
  exact ⟨congrArg (Piece.mk p.start) htake.symm, hleads⟩

/-- A number ends at the seam. -/
theorem numberText_append (h : isSigned text) (hr : Text.EndsNumber rest) :
    numberText (text ++ rest) = text := by
  unfold isSigned at h
  split at h
  · next cs =>
    cases cs with
    | nil => exact absurd h (by decide)
    | cons d ds =>
      obtain ⟨hd, hds⟩ := Text.isNumber_cons.mp h
      rw [List.cons_append, numberText_minus, List.cons_append, numberTail_digit hd,
        Text.numberTail_append hds hr]
  · cases text with
    | nil => exact absurd h (by decide)
    | cons d ds =>
      obtain ⟨hd, hds⟩ := Text.isNumber_cons.mp h
      rw [List.cons_append, numberText_digit hd, Text.numberTail_append hds hr]

/-- What is found of a number is one. -/
theorem isSigned_numberText (h : startsNumber cs) : isSigned (numberText cs) := by
  unfold startsNumber at h
  split at h
  · next d ds =>
    rw [numberText_minus, numberTail_digit h, isSigned]
    exact Text.isNumber_cons.mpr ⟨h, Text.numberTail_numberTail ds⟩
  · next c cs _ =>
    have hne : c ≠ '-' := by
      rintro rfl
      exact absurd h (by decide)
    rw [numberText_digit h, isSigned]
    · exact Text.isNumber_cons.mpr ⟨h, Text.numberTail_numberTail cs⟩
    · rintro cs' h'
      exact hne (List.cons.inj h').1
  · exact absurd h (by decide)

theorem startsNumber_append (h : isSigned text) (rest : List Char) :
    startsNumber (text ++ rest) := by
  unfold isSigned at h
  split at h
  · next cs =>
    cases cs with
    | nil => exact absurd h (by decide)
    | cons d ds => exact (Text.isNumber_cons.mp h).1
  · next hm =>
    cases text with
    | nil => exact absurd h (by decide)
    | cons d ds =>
      have hne : d ≠ '-' := fun hd => hm ds (by rw [hd])
      simpa [startsNumber, hne] using (Text.isNumber_cons.mp h).1

/-- A number begins with a digit or a minus sign. -/
theorem exists_cons_of_isSigned (h : isSigned text) :
    ∃ c cs, text = c :: cs ∧ (Text.isDigit c || c == '-') ∧ Text.isBlank c = false ∧
      Text.isQuote c = false := by
  have hs := startsNumber_append h []
  rw [List.append_nil] at hs
  unfold startsNumber at hs
  split at hs
  · exact ⟨'-', _, rfl, by decide⟩
  · next c cs _ =>
    have hc := Text.isNameChar_of_isDigit hs
    exact ⟨c, cs, rfl, by simp [hs], Text.isBlank_eq_false_of_isNameChar hc,
      Text.isQuote_eq_false_of_isNameChar hc⟩
  · exact absurd hs (by decide)

theorem mem_signed (h : isSigned text) (hc : c ∈ text) : Text.isDigit c ∨ c ∈ ['-', '.'] := by
  have htext := numberText_append h Text.endsNumber_nil
  rw [List.append_nil] at htext
  exact mem_numberText (htext ▸ hc)

theorem signs_of_mem_signed (h : isSigned text) (hc : c ∈ text) :
    Text.isBlank c = false ∧ isLoose c ∧ c ≠ ',' := by
  rcases mem_signed h hc with hd | hd
  · have hn := Text.isNameChar_of_isDigit hd
    exact ⟨Text.isBlank_eq_false_of_isNameChar hn, isLoose_of_isNameChar hn,
      Text.ne_of_isNameChar hn (by decide)⟩
  · rcases List.mem_pair.mp hd with rfl | rfl <;> decide

theorem readNumber_append (h : isSigned text) (hr : Text.EndsNumber rest) (start : Nat) :
    readNumber ⟨start, text ++ rest⟩ = (⟨start, text⟩, ⟨start + Text.byteLength text, rest⟩) := by
  rw [readNumber, numberText_append h hr, Piece.drop_length_append, Piece.take_length_append]

/-! ### Accesses -/

/-- The parts of a chain that accesses outside loops stand for. -/
def isAccess : Part → Bool
  | .ident name => isIdentifier name.toList
  | .index _ => true
  | .literal text => Text.isString text.toList && !Text.isIdentifier text.toList.tail.dropLast
  | _ => false

theorem isSigned_toString (i : Int) : isSigned (toString i).toList := by
  by_cases h : 0 ≤ i
  · have hn : Text.isNumber (toString i).toList := by
      rw [Text.toList_toString_of_nonneg h]
      exact Text.isNumber_of_digits (Text.toDigits_ne_nil _) fun c hc =>
        Text.isDigit_of_mem_toDigits hc
    unfold isSigned
    split
    · next cs hcs =>
      exact absurd (hcs ▸ hn) (by simp [Text.isNumber, show Text.isDigit '-' = false by decide])
    · exact hn
  · rw [Text.toList_toString_of_neg (Int.not_le.mp h), isSigned]
    exact Text.isNumber_of_digits (Text.toDigits_ne_nil _) fun c hc =>
      Text.isDigit_of_mem_toDigits hc

/-- The keys of subscripts: quoted strings and integers. -/
def isKey (key : List Char) : Bool :=
  Text.isString key || isSigned key && (Text.int64? key).isSome

theorem exists_cons_of_isKey {key : List Char} (h : isKey key) :
    ∃ c cs, key = c :: cs ∧ Text.isBlank c = false := by
  rw [isKey, Bool.or_eq_true, Bool.and_eq_true] at h
  rcases h with hstring | hnumber
  · obtain ⟨q, cs, rfl, hq⟩ := exists_cons_of_isString hstring
    exact ⟨q, cs, rfl, Text.isBlank_eq_false_of_isQuote hq⟩
  · obtain ⟨c, cs, rfl, -, hb, -⟩ := exists_cons_of_isSigned hnumber.1
    exact ⟨c, cs, rfl, hb⟩

/-- The access that a key in brackets is read as, where the key begins at an offset. -/
def Access.ofKey (start : Nat) (key : String) : Access :=
  match Text.int64? key.toList with
  | some i => .index i
  | none => .key ⟨start, key.toList⟩

theorem Access.ofKey_string {key : String} (h : Text.isString key.toList) (start : Nat) :
    ofKey start key = .key ⟨start, key.toList⟩ := by
  rw [ofKey, Selector.int64?_of_isString h]

theorem Access.toPart_ofKey {key : String} (h : isKey key.toList) (start : Nat) (ofLoop : Bool) :
    (ofKey start key).toPart ofLoop = Selector.keyPart id key := by
  cases hi : Text.int64? key.toList with
  | some i => simp [ofKey, toPart, Selector.keyPart, hi]
  | none =>
    have hstring : Text.isString key.toList := by simpa [isKey, hi] using h
    simp [ofKey, hi, toPart, keyPart, unquoteKey, Piece.toString, Selector.keyPart,
      Text.unquoted_of_isString hstring]

/-- A key is read before a blank or the closing bracket. -/
theorem readSubscript_key {key : String} (h : isKey key.toList) {rest : List Char}
    (hr : ∀ c ∈ rest.head?, Text.isBlank c ∨ c = ']') (start : Nat) :
    readSubscript ⟨start, key.toList ++ rest⟩ =
      .ok (.ofKey start key, ⟨start + Text.byteLength key.toList, rest⟩) := by
  rw [isKey, Bool.or_eq_true, Bool.and_eq_true] at h
  rcases h with hstring | ⟨hnumber, hint⟩
  · have hquote : ∀ c ∈ rest.head?, Text.isQuote c = false := by
      intro c hc
      rcases hr c hc with hblank | rfl
      · exact Text.isQuote_eq_false_of_isBlank hblank
      · decide
    have hread := readQuoted_append hstring hquote start
    rw [Access.ofKey_string hstring]
    obtain ⟨q, cs, hkey, hq⟩ := exists_cons_of_isString hstring
    rw [hkey, List.cons_append] at hread ⊢
    simp [readSubscript, hq, hread]
  · obtain ⟨i, hi⟩ := Option.isSome_iff_exists.mp hint
    have hends : Text.EndsNumber rest := by
      intro c hc
      rcases hr c hc with hblank | rfl
      · exact ⟨Text.isDigit_eq_false_of_isBlank hblank, fun hdot => by
          subst hdot; exact absurd hblank (by decide)⟩
      · exact ⟨by decide, fun hdot => absurd hdot (by decide)⟩
    have hread := readNumber_append hnumber hends start
    obtain ⟨c, cs, hkey, hd, -, hq⟩ := exists_cons_of_isSigned hnumber
    rw [Access.ofKey, hi]
    rw [hkey, List.cons_append] at hread ⊢
    rw [hkey] at hi
    simp only [readSubscript, hq, hd, hread, hi, if_true]
    simp

theorem readAccess_name (h : isIdentifier name) (hr : Parted name rest) (start : Nat) :
    readAccess ⟨start, '.' :: name ++ rest⟩ =
      .ok (some (.name (String.ofList name),
        ⟨start + Text.byteLength ('.' :: name), rest⟩)) := by
  have hd : Piece.drop ⟨start, '.' :: (name ++ rest)⟩ 1 = ⟨start + 1, name ++ rest⟩ :=
    Piece.drop_length_append start ['.'] _
  rw [List.cons_append, readAccess, hd, readIdentifier_append h hr]
  simp [Text.byteLength, Nat.add_assoc, show '.'.utf8Size = 1 from rfl]

/-- A key between brackets and blanks is read as an access. -/
theorem readAccess_bracket {left key right : String} (hleft : ∀ c ∈ left.toList, Text.isBlank c)
    (hkey : isKey key.toList) (hright : ∀ c ∈ right.toList, Text.isBlank c) (start : Nat)
    (rest : List Char) :
    readAccess ⟨start, (Selector.bracket left key right).text.toList ++ rest⟩ =
      .ok (some (.ofKey (start + 1 + Text.byteLength left.toList) key,
        ⟨start + Text.byteLength (Selector.bracket left key right).text.toList, rest⟩)) := by
  have htail : ∀ c ∈ (right.toList ++ ']' :: rest).head?, Text.isBlank c ∨ c = ']' := by
    intro c hc
    cases hcs : right.toList with
    | nil =>
      rw [hcs] at hc
      exact .inr (by simpa using hc.symm)
    | cons d ds =>
      rw [hcs] at hc hright
      obtain rfl : d = c := by simpa using hc
      exact .inl (hright d List.mem_cons_self)
  have hd :
      Piece.drop ⟨start, '[' :: (left.toList ++ (key.toList ++ (right.toList ++ ']' :: rest)))⟩
      1 = ⟨start + 1, left.toList ++ (key.toList ++ (right.toList ++ ']' :: rest))⟩ :=
    Piece.drop_length_append start ['['] _
  have ht : Piece.trimStart
      ⟨start + 1, left.toList ++ (key.toList ++ (right.toList ++ ']' :: rest))⟩ =
      ⟨start + 1 + Text.byteLength left.toList, key.toList ++ (right.toList ++ ']' :: rest)⟩ := by
    obtain ⟨c, cs, hcs, hc⟩ := exists_cons_of_isKey hkey
    rw [Piece.trimStart_blanks hleft, Piece.trimStart_eq_self]
    simpa [hcs] using hc
  have hclose : ∀ stop, eat? [']'] ⟨stop, right.toList ++ ']' :: rest⟩ =
      some ⟨stop + Text.byteLength right.toList + 1, rest⟩ := by
    intro stop
    rw [eat?_blanks hright]
    exact eat?_sign (by decide) _ rest
  have hstop : start + Text.byteLength (Selector.bracket left key right).text.toList =
      start + 1 + Text.byteLength left.toList + Text.byteLength key.toList +
        Text.byteLength right.toList + 1 := by
    simp [Selector.toList_bracket, Text.byteLength, show ']'.utf8Size = 1 from rfl,
      show '['.utf8Size = 1 from rfl]
    omega
  rw [hstop, Selector.toList_bracket]
  simp only [List.cons_append, List.append_assoc, List.nil_append]
  rw [readAccess, hd, ht, readSubscript_key hkey htail, ok_bind]
  simp only [hclose]
  rfl

/-- The access that a selector is read as, where the selector begins at an offset. -/
def Access.ofSelector (start : Nat) : Selector → Access
  | .dot name => .name name
  | .bracket left inner _ => .ofKey (start + 1 + Text.byteLength left.toList) inner

/-- The accesses that selectors are read as. -/
def Access.ofSelectors (start : Nat) : List Selector → List Access
  | [] => []
  | s :: ss => ofSelector start s :: ofSelectors (start + Text.byteLength s.text.toList) ss

/-- The access stands for the same part of a chain as the selector. After a dot, and only there,
names have neutral names right after the loop object. -/
def Access.StandsFor (a : Access) (s : Selector) : Prop :=
  ∀ ofLoop, a.toPart ofLoop = s.toPart (if ofLoop then chainWords.neutralProperty else id) id

theorem Access.standsFor_ofSelectors {ss : List Selector}
    (h : ∀ s ∈ ss, s.isWritten isIdentifier isKey) (start : Nat) :
    List.Forall₂ StandsFor (ofSelectors start ss) ss := by
  induction ss generalizing start with
  | nil => exact .nil
  | cons s ss ih =>
    rw [List.forall_mem_cons] at h
    refine .cons (fun ofLoop => ?_) (ih h.2 _)
    cases s with
    | dot name => cases ofLoop <;> rfl
    | bracket left key right =>
      have hkey : isKey key.toList := by simp_all [Selector.isWritten]
      exact toPart_ofKey hkey _ ofLoop

/-- A selector is read as an access. -/
theorem readAccess_selector {s : Selector} (h : s.isWritten isIdentifier isKey)
    (hr : Parted s.text.toList rest) (start : Nat) :
    readAccess ⟨start, s.text.toList ++ rest⟩ =
      .ok (some (.ofSelector start s, ⟨start + Text.byteLength s.text.toList, rest⟩)) := by
  cases s with
  | dot name =>
    rw [Selector.isWritten] at h
    obtain ⟨c, cs, hcs, -⟩ := exists_cons_of_isIdentifier h
    have hname : Parted name.toList rest := by
      simpa [Selector.toList_dot, Parted, hcs, List.getLast?_cons_cons] using hr
    rw [Selector.toList_dot, readAccess_name h hname, String.ofList_toList]
    rfl
  | bracket left key right =>
    simp only [Selector.isWritten, Bool.and_eq_true, List.all_eq_true] at h
    exact readAccess_bracket h.1.1 h.1.2 h.2 start rest

/-- An access is written as a selector. -/
theorem exists_selector_of_isAccess {part : Part} (h : isAccess part) (position : Nat) :
    ∃ s : Selector, chainWords.writeAccess false position part = .ok s.text ∧
      s.isWritten isIdentifier isKey ∧ s.toPart id id = part := by
  cases part with
  | ident name => exact ⟨.dot name, rfl, h, rfl⟩
  | index i =>
    have hsigned := isSigned_toString i.toInt
    have hint := Text.int64?_toString i
    refine ⟨.bracket "" (toString i.toInt) "", by simp [ChainWords.writeAccess, Selector.text], ?_⟩
    generalize toString i.toInt = key at hsigned hint ⊢
    exact ⟨by simp [Selector.isWritten, isKey, hsigned, hint],
      by simp [Selector.toPart, Selector.keyPart, hint]⟩
  | literal text =>
    simp only [isAccess, Bool.and_eq_true, Bool.not_eq_true'] at h
    refine ⟨.bracket "" text "", ?_, ?_, ?_⟩
    · simp [ChainWords.writeAccess, Selector.text]
    · simp [Selector.isWritten, isKey, h.1]
    · simp [Selector.toPart, Selector.keyPart, Selector.int64?_of_isString h.1,
        Text.unquoted_of_isString h.1, h.2]
  | null => exact absurd h (by decide)
  | blank => exact absurd h (by decide)
  | loopVar => exact absurd h (by decide)

theorem readAccesses_of_none {p : Piece} (h : readAccess p = .ok none) :
    readAccesses p = .ok ([], p) := by
  rw [readAccesses]
  split <;> simp_all

theorem readAccesses_of_some {p rest : Piece} {a : Access}
    (h : readAccess p = .ok (some (a, rest))) :
    readAccesses p = (readAccesses rest).map fun x => (a :: x.1, x.2) := by
  rw [readAccesses]
  split
  · simp_all
  · simp_all
  · next a' rest' h' =>
    rw [h] at h'
    obtain ⟨rfl, rfl⟩ : a = a' ∧ rest = rest' := by simpa using h'
    cases readAccesses rest <;> rfl

theorem readAccess_eq_none {rest : List Char} (hr : ∀ c ∈ rest.head?, c ≠ '.' ∧ c ≠ '[')
    (start : Nat) : readAccess ⟨start, rest⟩ = .ok none := by
  cases rest with
  | nil => rfl
  | cons c cs =>
    obtain ⟨hdot, hbracket⟩ := hr c rfl
    unfold readAccess
    split <;> simp_all

theorem Ends.noAccess {rest : List Char} (h : Ends rest) :
    ∀ c ∈ rest.head?, c ≠ '.' ∧ c ≠ '[' := by
  intro c hc
  rcases h.1 c hc with rfl | rfl <;> decide

/-- Nothing stands right after an access but another access or what comes after the last one. -/
theorem parted_texts {before : List Char} (ss : List Selector)
    (hr : Parted (before ++ (Selector.texts ss).toList) rest) :
    Parted before ((Selector.texts ss).toList ++ rest) := by
  cases ss with
  | nil => simpa [Selector.texts] using hr
  | cons s ss =>
    refine .inl fun c hc => ?_
    rcases Selector.head?_texts ss hc with rfl | rfl <;> decide

/-- Selectors are read as accesses. -/
theorem readAccesses_texts {ss : List Selector} (h : ∀ s ∈ ss, s.isWritten isIdentifier isKey)
    {before rest : List Char} (hnone : ∀ c ∈ rest.head?, c ≠ '.' ∧ c ≠ '[')
    (hr : Parted (before ++ (Selector.texts ss).toList) rest) (start : Nat) :
    readAccesses ⟨start, (Selector.texts ss).toList ++ rest⟩ =
      .ok (Access.ofSelectors start ss,
        ⟨start + Text.byteLength (Selector.texts ss).toList, rest⟩) := by
  induction ss generalizing before start with
  | nil => exact readAccesses_of_none (readAccess_eq_none hnone start)
  | cons s ss ih =>
    rw [List.forall_mem_cons] at h
    rw [Selector.texts, String.toList_append, ← List.append_assoc] at hr
    have hs := readAccess_selector h.1 ((parted_texts ss hr).of_append s.text_ne_nil) start
    rw [Selector.texts, String.toList_append, List.append_assoc, readAccesses_of_some hs,
      ih h.2 hr, map_ok, Text.byteLength_append, Nat.add_assoc, Access.ofSelectors]

theorem map_toPart_of_standsFor {accesses : List Access} {ss : List Selector}
    (h : List.Forall₂ Access.StandsFor accesses ss) :
    accesses.map (Access.toPart false) = ss.map (Selector.toPart id id) := by
  induction h with
  | nil => rfl
  | cons hs _ ih => rw [List.map_cons, List.map_cons, ih, hs false]; rfl

/-! ### Chains -/

/-- A text that begins with neither a blank nor a bar. -/
def Solid (text : List Char) : Prop :=
  ∃ c cs, text = c :: cs ∧ Text.isBlank c = false ∧ c ≠ '|'

theorem Solid.append (h : Solid text) (rest : List Char) : Solid (text ++ rest) := by
  obtain ⟨c, cs, rfl, hb, hbar⟩ := h
  exact ⟨c, cs ++ rest, rfl, hb, hbar⟩

theorem solid_of_isIdentifier (h : isIdentifier name) : Solid name := by
  obtain ⟨c, cs, rfl, hc⟩ := exists_cons_of_isIdentifier h
  have hname := Text.isNameChar_of_isNameStart hc
  exact ⟨c, cs, rfl, Text.isBlank_eq_false_of_isNameChar hname,
    Text.ne_of_isNameChar hname (by decide)⟩

theorem Solid.trimStart (h : Solid text) (start : Nat) :
    Piece.trimStart ⟨start, text⟩ = ⟨start, text⟩ := by
  obtain ⟨c, cs, rfl, hb, -⟩ := h
  exact Piece.trimStart_eq_self (by simpa using hb)


/-- The literals that are spelled as words. -/
def literalWords : List String :=
  ["true", "false", "empty"]

/-- The chains that operands outside loops stand for. -/
def isOperandChain : List Part → Bool
  | [.ident name] => isIdentifier name.toList && (Keyword.ofText? name).isNone && name != "not"
  | .ident name :: parts => isIdentifier name.toList && parts.all isAccess
  | [.literal text] =>
    Text.isString text.toList || isSigned text.toList || literalWords.contains text
  | [.null] | [.blank] => true
  | _ => false

/-- A text that is read as an operand for a chain. It begins with neither a blank nor a bar, and is
not the name of an argument. -/
structure Spells (text : List Char) (chain : List Part) : Prop where
  reads : ∀ start rest, Ends rest → ∃ o : Operand,
    operandAt ⟨start, text ++ rest⟩ = .ok (o, ⟨start + Text.byteLength text, rest⟩) ∧
      o.toExpr {} = .ofChain chain
  solid : Solid text
  unnamed : ∀ start rest, Ends rest → ∀ key p,
    readIdentifier ⟨start, text ++ rest⟩ = .ok (key, p) → eat? [':'] p = none

theorem operandAt_of_isNameStart {start : Nat} (hc : Text.isNameStart c) :
    operandAt ⟨start, c :: cs⟩ = readProperty ⟨start, c :: cs⟩ := by
  have hn := Text.isNameChar_of_isNameStart hc
  have hq := Text.isQuote_eq_false_of_isNameChar hn
  have hd := Text.isDigit_eq_false_of_isNameStart hc
  have hm : c ≠ '-' := Text.ne_of_isNameChar hn (by decide)
  have hp : c ≠ '(' := Text.ne_of_isNameChar hn (by decide)
  simp [operandAt, hq, startsNumber, hm, hd, hp, hc]

theorem readIdentifier_eq_error {start : Nat} (hc : Text.isNameStart c = false) :
    readIdentifier ⟨start, c :: cs⟩ = .error (unexpected ⟨start, c :: cs⟩) := by
  simp [readIdentifier, identifierText, hc]

/-- A text whose first character begins no name is not the name of an argument. -/
theorem unnamed_of_not_isNameStart (ht : text = c :: cs) (hc : Text.isNameStart c = false)
    (start : Nat) (rest : List Char) (key : String) (p : Piece)
    (h : readIdentifier ⟨start, text ++ rest⟩ = .ok (key, p)) :
    eat? [':'] p = none := by
  rw [ht, List.cons_append, readIdentifier_eq_error hc] at h
  exact absurd h (by simp)

theorem operandAt_string (h : Text.isString text) (hr : ∀ c ∈ rest.head?, Text.isQuote c = false)
    (start : Nat) :
    operandAt ⟨start, text ++ rest⟩ =
      .ok (.quoted ⟨start, text⟩, ⟨start + Text.byteLength text, rest⟩) := by
  obtain ⟨q, cs, rfl, hq⟩ := exists_cons_of_isString h
  have hread := readQuoted_append h hr start
  rw [List.cons_append] at hread ⊢
  simp [operandAt, hq, hread]

theorem operandAt_number (h : isSigned text) (hr : Text.EndsNumber rest) (start : Nat) :
    operandAt ⟨start, text ++ rest⟩ =
      .ok (.number ⟨start, text⟩, ⟨start + Text.byteLength text, rest⟩) := by
  obtain ⟨c, cs, rfl, -, -, hq⟩ := exists_cons_of_isSigned h
  have hread := readNumber_append h hr start
  have hstarts := startsNumber_append h rest
  rw [List.cons_append] at hread hstarts ⊢
  simp [operandAt, hq, hread, hstarts]

theorem Spells.string {text : String} (h : Text.isString text.toList) :
    Spells text.toList [.literal text] := by
  obtain ⟨q, cs, ht, hq⟩ := exists_cons_of_isString h
  have hb := Text.isBlank_eq_false_of_isQuote hq
  have hs : Text.isNameStart q = false := by
    rw [Bool.eq_false_iff]
    intro hn
    rw [Text.isQuote_eq_false_of_isNameChar (Text.isNameChar_of_isNameStart hn)] at hq
    exact absurd hq (by decide)
  refine ⟨fun start rest hr => ⟨_, operandAt_string h hr.isQuote start, ?_⟩, ⟨q, cs, ht, hb, ?_⟩,
    fun start rest _ => unnamed_of_not_isNameStart ht hs start rest⟩
  · simp [Operand.toExpr, Piece.toString, Expr.literal]
  · rintro rfl
    exact absurd hq (by decide)

theorem Spells.number {text : String} (h : isSigned text.toList) :
    Spells text.toList [.literal text] := by
  obtain ⟨c, cs, ht, hd, hb, hq⟩ := exists_cons_of_isSigned h
  have hs : Text.isNameStart c = false := by
    rw [Bool.eq_false_iff]
    intro hn
    have hm : c ≠ '-' := Text.ne_of_isNameChar (Text.isNameChar_of_isNameStart hn) (by decide)
    simp [Text.isDigit_eq_false_of_isNameStart hn, hm] at hd
  refine ⟨fun start rest hr => ⟨_, operandAt_number h hr.endsNumber start, ?_⟩, ⟨c, cs, ht, hb, ?_⟩,
    fun start rest _ => unnamed_of_not_isNameStart ht hs start rest⟩
  · simp [Operand.toExpr, Piece.toString, Expr.literal]
  · rintro rfl
    exact absurd hd (by decide)

@[simp] theorem upTo_append (start : Nat) (s rest : List Char) (stop : Nat) :
    upTo ⟨start, s ++ rest⟩ ⟨stop, rest⟩ = ⟨start, s⟩ := by
  simp [upTo, Piece.take]

theorem upTo_of_leads {p q : Piece} {s : List Char} (h : p.Leads s q) :
    upTo p q = ⟨p.start, s⟩ := by
  rw [upTo, Piece.take, h.text, List.length_append, Nat.add_sub_cancel, List.take_left]

/-- A name with selectors after it is read as what the name and the accesses make up. -/
theorem operandAt_texts {root : String} {ss : List Selector} (hroot : isIdentifier root.toList)
    (hss : ∀ s ∈ ss, s.isWritten isIdentifier isKey) {rest : List Char}
    (hnone : ∀ c ∈ rest.head?, c ≠ '.' ∧ c ≠ '[')
    (hr : Parted (root ++ Selector.texts ss).toList rest) (start : Nat) :
    operandAt ⟨start, (root ++ Selector.texts ss).toList ++ rest⟩ =
      (Operand.ofProperty root (Access.ofSelectors (start + Text.byteLength root.toList) ss)
        ⟨start, (root ++ Selector.texts ss).toList⟩).map
          fun o => (o, ⟨start + Text.byteLength (root ++ Selector.texts ss).toList, rest⟩) := by
  rw [String.toList_append] at hr
  obtain ⟨c, cs, hc, hstart⟩ := exists_cons_of_isIdentifier hroot
  have hat : operandAt ⟨start, (root ++ Selector.texts ss).toList ++ rest⟩ =
      readProperty ⟨start, (root ++ Selector.texts ss).toList ++ rest⟩ := by
    rw [String.toList_append, hc]
    exact operandAt_of_isNameStart hstart
  have hid : readIdentifier ⟨start, (root ++ Selector.texts ss).toList ++ rest⟩ =
      .ok (root, ⟨start + Text.byteLength root.toList, (Selector.texts ss).toList ++ rest⟩) := by
    rw [String.toList_append, List.append_assoc, readIdentifier_append hroot (parted_texts ss hr),
      String.ofList_toList]
  rw [hat, readProperty, hid, ok_bind]
  simp only [readAccesses_texts hss hnone hr, ok_bind, upTo_append]
  rw [String.toList_append, Text.byteLength_append, ← Nat.add_assoc]
  cases Operand.ofProperty root _ ⟨start, root.toList ++ (Selector.texts ss).toList⟩ <;> rfl

/-- A name with accesses after it is read as what the name and its accesses make up. -/
theorem Spells.named {root : String} {parts chain : List Part}
    (hroot : isIdentifier root.toList) (hparts : ∀ part ∈ parts, isAccess part)
    (h : ∀ accesses : List Access, accesses.map (Access.toPart false) = parts → ∀ text : Piece,
      (parts = [] → text.text = root.toList) → ∃ o, Operand.ofProperty root accesses text = .ok o ∧
        o.toExpr {} = .ofChain chain) :
    ∃ more, chainWords.writeAccesses false 1 parts = .ok more ∧
      Spells (root ++ more).toList chain := by
  obtain ⟨ss, hw, hss, rfl⟩ :=
    Selector.exists_of_writeAccesses (fun _ => exists_selector_of_isAccess) hparts 1
  have hsolid : Solid (root ++ Selector.texts ss).toList := by
    rw [String.toList_append]
    exact (solid_of_isIdentifier hroot).append _
  refine ⟨Selector.texts ss, hw, fun start rest hr => ?_, hsolid,
    fun start rest hr key p hkey => ?_⟩
  · have htext : ss.map (Selector.toPart id id) = [] →
        (root ++ Selector.texts ss).toList = root.toList := by
      intro hnil
      obtain rfl := List.map_eq_nil_iff.mp hnil
      rw [Selector.texts, String.append_empty]
    obtain ⟨o, ho, he⟩ := h _ (map_toPart_of_standsFor (Access.standsFor_ofSelectors hss _))
      ⟨start, (root ++ Selector.texts ss).toList⟩ htext
    exact ⟨o, by rw [operandAt_texts hroot hss hr.noAccess (.inl hr.stops), ho, map_ok], he⟩
  · rw [String.toList_append, List.append_assoc,
      readIdentifier_append hroot (parted_texts ss (.inl hr.stops))] at hkey
    obtain ⟨-, rfl⟩ := Prod.mk.inj (Except.ok.inj hkey)
    refine eat?_eq_none (fun d hd => ?_) _
    cases ss with
    | nil => exact hr.2 d hd
    | cons s ss =>
      rw [Text.trimStart_eq_self] at hd
      · rcases Selector.head?_texts ss hd with rfl | rfl <;> decide
      · intro e he
        rcases Selector.head?_texts ss he with rfl | rfl <;> decide

/-- A keyword is read as itself. -/
theorem Spells.keyword (word : Keyword) {chain : List Part}
    (h : ∀ text : Piece, text.text = word.text.toList → word.toExpr text = .ofChain chain) :
    Spells word.text.toList chain := by
  have hid : isIdentifier word.text.toList := by cases word <;> decide
  have hof : Keyword.ofText? word.text = some word := by cases word <;> rfl
  have hparts : ∀ part ∈ ([] : List Part), isAccess part := by simp
  obtain ⟨more, hw, hs⟩ := Spells.named hid hparts fun accesses ha text ht => by
    obtain rfl : accesses = [] := by simpa using ha
    exact ⟨.keyword word text, by simp [Operand.ofProperty, hof], h text (ht rfl)⟩
  obtain rfl : "" = more := by simpa [ChainWords.writeAccesses] using hw
  rwa [String.append_empty] at hs

/-- A variable with its properties is written, and its text is read as that variable. -/
theorem write_property {name : String} {parts : List Part} (hname : isIdentifier name.toList)
    (hparts : ∀ part ∈ parts, isAccess part)
    (hword : parts = [] → Keyword.ofText? name = none ∧ name ≠ "not") :
    ∃ text, chainWords.write (.ident name :: parts) = .ok text ∧
      Spells text.toList (.ident name :: parts) := by
  obtain ⟨more, hw, hs⟩ : ∃ more, chainWords.writeAccesses false 1 parts = .ok more ∧
      Spells (name ++ more).toList (.ident name :: parts) := by
    refine Spells.named hname hparts fun accesses ha text _ => ?_
    subst ha
    cases accesses with
    | nil =>
      obtain ⟨hnone, hnot⟩ := hword rfl
      exact ⟨.property name [] text, by simp [Operand.ofProperty, hnone, hnot], rfl⟩
    | cons a as => exact ⟨.property name (a :: as) text, rfl, rfl⟩
  refine ⟨name ++ more, ?_, hs⟩
  rw [ChainWords.write, ChainWords.writeRoot, ok_bind]
  exact congrArg (Except.map (name ++ ·)) hw

/-- The chain of an operand is written, and its text is read as an operand for it. -/
theorem write_spells {chain : List Part} (h : isOperandChain chain) :
    ∃ text, chainWords.write chain = .ok text ∧ Spells text.toList chain := by
  unfold isOperandChain at h
  split at h
  · next name =>
    simp only [Bool.and_eq_true, Option.isNone_iff_eq_none, bne_iff_ne] at h
    exact write_property h.1.1 (by simp) fun _ => ⟨h.1.2, h.2⟩
  · next name parts hne =>
    simp only [Bool.and_eq_true, List.all_eq_true] at h
    exact write_property h.1 h.2 fun hnil => (hne hnil).elim
  · next text =>
    refine ⟨text, ?_, ?_⟩
    · simp [ChainWords.write, ChainWords.writeRoot, ChainWords.writeAccesses]
    · rw [Bool.or_eq_true, Bool.or_eq_true] at h
      rcases h with (h | h) | h
      · exact .string h
      · exact .number h
      · simp only [literalWords, List.contains_eq_mem, List.mem_cons, List.not_mem_nil, or_false,
          decide_eq_true_eq] at h
        rcases h with rfl | rfl | rfl
        · exact Spells.keyword .true fun text ht => by
            simp [Keyword.toExpr, Piece.toString, ht, Keyword.text, Expr.literal]
        · exact Spells.keyword .false fun text ht => by
            simp [Keyword.toExpr, Piece.toString, ht, Keyword.text, Expr.literal]
        · exact Spells.keyword .empty fun text ht => rfl
  · exact ⟨"nil", rfl, Spells.keyword .nil fun _ _ => rfl⟩
  · exact ⟨"blank", rfl, Spells.keyword .blank fun _ _ => rfl⟩
  · exact absurd h (by decide)

end Stencil.Liquid
