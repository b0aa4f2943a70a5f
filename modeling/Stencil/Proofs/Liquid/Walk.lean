import Stencil.Proofs.Liquid.Operand

/-!
# Walks over values

A value is read from left to right. Reading it leads over its operands, one after the other, and
over what stands between them: blanks, connectors, names of filters and of arguments, and signs.
Each operand is read from a text that tells which operand it is, and no word goes on after that
text. What stands between operands has no quotes and no parts of closing delimiters, and no word
goes on after it either.

What is to be shown of all operands of a value is shown for one operand and one stretch between
operands, and then follows along the walk.

## Main definitions

* `Liquid.OperandText` : the operand that a text stands for.
* `Liquid.Walked` : reading leads from one piece to another over operands.

## Main results

* `Liquid.exists_of_operandAt` : an operand is read from a text that stands for it.
* `Liquid.OperandText.operandAt` : and that text is read as the operand.
* `Liquid.isOperandChain_iff` : the chains that some operand stands for.
* `Liquid.Walked.readValue` : reading a value leads over its operands.
-/

namespace Stencil.Liquid

variable {c : Char} {cs text : List Char} {start : Nat} {p rest : Piece} {a : Access} {o : Operand}

/-! ### Texts of operands -/

theorem readSubscript_eq (p : Piece) :
    readSubscript p =
      if p.text.head?.any Text.isQuote then (readQuoted p).map fun x => (.key x.1, x.2)
      else if p.text.head?.any fun c => Text.isDigit c || c == '-' then
        match Text.int64? (readNumber p).1.text with
        | some n => .ok (.index n, (readNumber p).2)
        | none =>
          .error (.badSyntax (readNumber p).1.start (.invalidIndex (readNumber p).1.toString))
      else .error (.unsupported (.dynamicIndex p.start)) := by
  unfold readSubscript
  cases p.text <;> rfl

theorem readAccess_eq (p : Piece) :
    readAccess p =
      if p.text.head?.any (· == '.') then
        readIdentifier (p.drop 1) >>= fun x => .ok (some (.name x.1, x.2))
      else if p.text.head?.any (· == '[') then
        readSubscript (p.drop 1).trimStart >>= fun x =>
          match eat? [']'] x.2 with
          | some rest => .ok (some (x.1, rest))
          | none => .error (unexpected x.2.trimStart)
      else .ok none := by
  unfold readAccess
  split
  · next hp => simp [hp]; rfl
  · next hp => simp [hp]; rfl
  · next h₁ h₂ =>
    cases hp : p.text with
    | nil => rfl
    | cons c cs =>
      have hdot : c ≠ '.' := fun hc => h₁ cs (by rw [hp, hc])
      have hbracket : c ≠ '[' := fun hc => h₂ cs (by rw [hp, hc])
      simp [hdot, hbracket]

theorem operandAt_eq (p : Piece) :
    operandAt p =
      if p.text.head?.any Text.isQuote then (readQuoted p).map fun x => (.quoted x.1, x.2)
      else if startsNumber p.text then .ok (.number (readNumber p).1, (readNumber p).2)
      else if p.text.head?.any (· == '(') then .error (.unsupported (.rangeLiteral p.start))
      else if p.text.head?.any Text.isNameStart then readProperty p
      else .error (unexpected p) := by
  unfold operandAt
  cases p.text <;> rfl

theorem leads_sign (h : p.text.head?.any (· == c)) : p.Leads [c] (p.drop 1) := by
  have hleads := Piece.Leads.drop p 1
  cases hp : p.text with
  | nil => simp [hp] at h
  | cons d ds =>
    obtain rfl : d = c := by simpa [hp] using h
    rwa [hp] at hleads

/-- What is read as an integer begins like a number. -/
theorem startsNumber_of_int64? {n : Int64}
    (hcs : cs.head?.any fun c => Text.isDigit c || c == '-')
    (h : Text.int64? (numberText cs) = some n) : startsNumber cs := by
  cases cs with
  | nil => cases hcs
  | cons c cs =>
    by_cases hc : Text.isDigit c
    · have hne : c ≠ '-' := by
        rintro rfl
        exact absurd hc (by decide)
      simpa [startsNumber, hne] using hc
    · obtain rfl : c = '-' := by simpa [hc] using hcs
      cases cs with
      | nil => cases h
      | cons d ds =>
        by_contra hd
        have hd : Text.isDigit d = false := by simpa [startsNumber] using hd
        have htail : Text.numberTail (d :: ds) = Text.fraction (d :: ds) := by
          simp [Text.numberTail, hd]
        have hhead := Text.head?_fraction (d :: ds)
        rw [numberText_minus, htail, Text.int64?, Text.integer?] at h
        cases hf : Text.fraction (d :: ds) with
        | nil => simp [hf, Text.natural?] at h
        | cons e es =>
          rw [hf] at hhead
          simp [hf, Text.natural?, Text.naturalFrom, hhead e rfl] at h

theorem exists_of_readSubscript (h : readSubscript p = .ok (a, rest)) :
    ∃ key : String, isKey key.toList ∧ p.Leads key.toList rest ∧ a = .ofKey p.start key := by
  rw [readSubscript_eq] at h
  split at h
  · next hq =>
    obtain ⟨⟨x, r⟩, hx, he⟩ := map_eq_ok.mp h
    cases he
    obtain ⟨hstring, hx, hleads⟩ := leads_readQuoted hq hx
    have hkey : Text.isString x.toString.toList := by rwa [Piece.toString, String.toList_ofList]
    refine ⟨x.toString, by rw [isKey, hkey, Bool.true_or], ?_, ?_⟩
    · rwa [Piece.toString, String.toList_ofList]
    · rw [Access.ofKey_string hkey, Piece.toString, String.toList_ofList, ← hx]
  split at h
  · next hn =>
    obtain ⟨htext, hleads⟩ := leads_readNumber p
    rw [htext] at h
    split at h
    · next n hint =>
      cases h
      have hsigned := isSigned_numberText (startsNumber_of_int64? hn hint)
      refine ⟨.ofList (numberText p.text), ?_, ?_, ?_⟩
      · rw [String.toList_ofList, isKey, hsigned, hint]
        exact Bool.or_true _
      · rwa [String.toList_ofList]
      · rw [Access.ofKey, String.toList_ofList, hint]
    · cases h
  · cases h

/-- An access is read from the text of a selector. -/
theorem exists_of_readAccess (h : readAccess p = .ok (some (a, rest))) :
    ∃ s : Selector, s.isWritten isIdentifier isKey ∧ p.Leads s.text.toList rest ∧
      a = .ofSelector p.start s ∧ Parted s.text.toList rest.text := by
  rw [readAccess_eq] at h
  split at h
  · next hdot =>
    obtain ⟨⟨name, r⟩, hname, he⟩ := bind_eq_ok.mp h
    cases he
    have hne : name.toList ≠ [] := by
      obtain ⟨c, cs, hcs, -⟩ := exists_cons_of_isIdentifier (isIdentifier_of_readIdentifier hname)
      simp [hcs]
    refine ⟨.dot name, isIdentifier_of_readIdentifier hname, ?_, rfl, ?_⟩
    · rw [Selector.toList_dot]
      exact (leads_sign hdot).trans (leads_readIdentifier hname)
    · rw [Selector.toList_dot]
      exact (parted_readIdentifier hname).append_left hne ['.']
  split at h
  · next hopen =>
    obtain ⟨⟨a', r⟩, hsub, he⟩ := bind_eq_ok.mp h
    simp only at he
    split at he
    · next r' heat =>
      cases he
      obtain ⟨key, hkey, hleads, rfl⟩ := exists_of_readSubscript hsub
      have hfirst := (leads_sign hopen).trans (.trimStart _)
      have hlast := (Piece.Leads.trimStart r).trans (.strip? heat)
      refine ⟨.bracket (.ofList ((p.drop 1).text.takeWhile Text.isBlank)) key
        (.ofList (r.text.takeWhile Text.isBlank)), ?_, ?_, ?_, .inr (.inr ?_)⟩
      · simp [Selector.isWritten, hkey]
      · simpa [Selector.toList_bracket] using (hfirst.trans hleads).trans hlast
      · rw [Access.ofSelector, String.toList_ofList, hfirst.start, Text.byteLength_append,
          ← Nat.add_assoc]
        rfl
      · rw [Selector.toList_bracket, List.getLast?_concat]
    · cases he
  · cases h

/-- Accesses are read from the text of selectors, after a text that ends where they begin. -/
theorem exists_of_readAccesses {as : List Access} {before : List Char}
    (h : readAccesses p = .ok (as, rest)) (hp : Parted before p.text) :
    ∃ ss, (∀ s ∈ ss, Selector.isWritten isIdentifier isKey s) ∧
      p.Leads (Selector.texts ss).toList rest ∧ as = Access.ofSelectors p.start ss ∧
      Parted (before ++ (Selector.texts ss).toList) rest.text := by
  fun_induction readAccesses p generalizing as rest before with
  | case1 | case3 => cases h
  | case2 p =>
    cases h
    exact ⟨[], List.forall_mem_nil _, .refl p, rfl, by simpa [Selector.texts] using hp⟩
  | case4 p a r hr as' r' hr' ih =>
    cases h
    obtain ⟨s, hs, hleads, rfl, hparted⟩ := exists_of_readAccess hr
    obtain ⟨ss, hss, hleads', rfl, hrest⟩ := ih hr' (hparted.append_left s.text_ne_nil before)
    refine ⟨s :: ss, List.forall_mem_cons.mpr ⟨hs, hss⟩, ?_, ?_, ?_⟩
    · rw [Selector.texts, String.toList_append]
      exact hleads.trans hleads'
    · rw [Access.ofSelectors, hleads.start]
    · rwa [Selector.texts, String.toList_append, ← List.append_assoc]

theorem Keyword.eq_text_of_ofText? {text : String} {word : Keyword}
    (h : Keyword.ofText? text = some word) : text = word.text := by
  unfold Keyword.ofText? at h
  split at h <;> cases h <;> rfl

/-- The operand that a text stands for, where the text begins at an offset. -/
inductive OperandText (start : Nat) : List Char → Operand → Prop
  | string {text : List Char} (h : Text.isString text) :
      OperandText start text (.quoted ⟨start, text⟩)
  | number {text : List Char} (h : isSigned text) : OperandText start text (.number ⟨start, text⟩)
  | keyword (word : Keyword) :
      OperandText start word.text.toList (.keyword word ⟨start, word.text.toList⟩)
  | property {root : String} {ss : List Selector} (hroot : isIdentifier root.toList)
      (hss : ∀ s ∈ ss, s.isWritten isIdentifier isKey)
      (hword : ss = [] → Keyword.ofText? root = none ∧ root ≠ "not") :
      OperandText start (root ++ Selector.texts ss).toList
        (.property root (Access.ofSelectors (start + Text.byteLength root.toList) ss)
          ⟨start, (root ++ Selector.texts ss).toList⟩)

/-- The text of an operand takes in nothing of what comes after it. -/
def Ended (text rest : List Char) : Prop :=
  Text.isString text ∨ isSigned text ∨ Parted text rest

theorem Ended.apart {text rest : List Char} (h : Ended text rest) : Text.Apart text rest := by
  rcases h with h | h | h
  · exact (Text.Ready.string h).apart rest
  · exact (Text.Ready.number fun _ => mem_signed h).apart rest
  · exact h.apart

/-- A property is read from the text of a name and selectors. -/
theorem exists_of_readProperty (h : readProperty p = .ok (o, rest)) :
    ∃ text, OperandText p.start text o ∧ p.Leads text rest ∧ Ended text rest.text := by
  obtain ⟨⟨root, r₁⟩, h₁, h⟩ := bind_eq_ok.mp h
  obtain ⟨⟨as, r₂⟩, h₂, h⟩ := bind_eq_ok.mp h
  obtain ⟨o', ho, h⟩ := bind_eq_ok.mp h
  cases h
  have hroot := isIdentifier_of_readIdentifier h₁
  have hfirst := leads_readIdentifier h₁
  obtain ⟨ss, hss, hleads, rfl, hparted⟩ := exists_of_readAccesses h₂ (parted_readIdentifier h₁)
  have hall := hfirst.trans hleads
  rw [upTo_of_leads hall] at ho
  rw [hfirst.start] at ho
  rw [← String.toList_append] at ho hall hparted
  refine ⟨_, ?_, hall, .inr (.inr hparted)⟩
  cases ss with
  | cons s ss =>
    cases ho
    exact .property hroot hss (by simp)
  | nil =>
    simp only [Access.ofSelectors, Operand.ofProperty] at ho
    split at ho
    · next word hword =>
      cases ho
      obtain rfl := Keyword.eq_text_of_ofText? hword
      rw [Selector.texts, String.append_empty]
      exact .keyword word
    · next hword =>
      split at ho
      · cases ho
      · next hnot =>
        cases ho
        exact .property hroot hss fun _ => ⟨hword, by simpa using hnot⟩

/-- An operand is read from a text that stands for it, and that text ends there. -/
theorem exists_of_operandAt (h : operandAt p = .ok (o, rest)) :
    ∃ text, OperandText p.start text o ∧ p.Leads text rest ∧ Ended text rest.text := by
  rw [operandAt_eq] at h
  split at h
  · next hq =>
    obtain ⟨⟨x, r⟩, hx, he⟩ := map_eq_ok.mp h
    cases he
    obtain ⟨hstring, hpiece, hleads⟩ := leads_readQuoted hq hx
    refine ⟨x.text, ?_, hleads, .inl hstring⟩
    rw [hpiece]
    exact .string hstring
  split at h
  · next hn =>
    obtain ⟨htext, hleads⟩ := leads_readNumber p
    rw [htext] at h
    cases h
    exact ⟨_, .number (isSigned_numberText hn), hleads, .inr (.inl (isSigned_numberText hn))⟩
  split at h
  · cases h
  split at h
  · exact exists_of_readProperty h
  · cases h

theorem Ended.parted {name rest : List Char} {s : List Char} (h : Ended (name ++ s) rest)
    (hname : isIdentifier name) : Parted (name ++ s) rest := by
  obtain ⟨c, cs, rfl, hc⟩ := exists_cons_of_isIdentifier hname
  rcases h with h | h | h
  · have hq := (Text.isString_cons.mp h).1
    rw [Text.isQuote_eq_false_of_isNameChar (Text.isNameChar_of_isNameStart hc)] at hq
    cases hq
  · obtain ⟨d, ds, hd, hsign, -⟩ := exists_cons_of_isSigned h
    obtain rfl := (List.cons.inj hd).1
    have hne : c ≠ '-' := by
      rintro rfl
      exact absurd hc (by decide)
    simp [Text.isDigit_eq_false_of_isNameStart hc, hne] at hsign
  · exact h

theorem isAccess_toPart {s : Selector} (h : s.isWritten isIdentifier isKey) :
    isAccess (s.toPart id id) := by
  cases s with
  | dot name => exact h
  | bracket left key right =>
    have hkey : isKey key.toList := by simp_all [Selector.isWritten]
    rw [Selector.toPart, Selector.keyPart]
    cases hi : Text.int64? key.toList with
    | some i => rfl
    | none =>
      have hstring : Text.isString key.toList := by simpa [isKey, hi] using hkey
      simp only
      split
      · next hid => simpa [isAccess] using isIdentifier_of_text hid
      · next hid => simpa [isAccess, hstring, Text.unquoted_of_isString hstring] using hid

namespace OperandText

theorem text_eq (h : OperandText start text o) : o.text = ⟨start, text⟩ := by
  cases h <;> rfl

/-- An operand stands for a chain of the kind described. -/
theorem isOperandChain (h : OperandText start text o) :
    ∃ chain, o.toExpr {} = .ofChain chain ∧ isOperandChain chain := by
  cases h with
  | string h => exact ⟨[.literal (.ofList text)], rfl, by simp [Liquid.isOperandChain, h]⟩
  | number h => exact ⟨[.literal (.ofList text)], rfl, by simp [Liquid.isOperandChain, h]⟩
  | keyword word =>
    refine ⟨(word.toExpr ⟨start, word.text.toList⟩).chain, ?_, ?_⟩
    · cases word <;> rfl
    · cases word <;> simp [Keyword.toExpr, Expr.literal, Expr.ofChain, Expr.null, Piece.toString,
        Liquid.isOperandChain, literalWords, Keyword.text]
  | @property root ss hroot hss hword =>
    have hparts := map_toPart_of_standsFor
      (Access.standsFor_ofSelectors hss (start + Text.byteLength root.toList))
    refine ⟨.ident root :: ss.map (Selector.toPart id id), by rw [← hparts]; cases ss <;> rfl, ?_⟩
    cases ss with
    | nil =>
      obtain ⟨hnone, hnot⟩ := hword rfl
      simpa [Liquid.isOperandChain, hroot, hnone] using hnot
    | cons s ss =>
      have hparts : ((s :: ss).map (Selector.toPart id id)).all isAccess := by
        rw [List.all_eq_true, List.forall_mem_map]
        exact fun s hs => isAccess_toPart (hss s hs)
      rw [List.map_cons] at hparts ⊢
      rw [Liquid.isOperandChain, hroot, hparts]
      · rfl
      · simp

theorem exists_at (h : OperandText start text o) (start' : Nat) :
    ∃ o', OperandText start' text o' := by
  cases h with
  | string h => exact ⟨_, .string h⟩
  | number h => exact ⟨_, .number h⟩
  | keyword word => exact ⟨_, .keyword word⟩
  | property hroot hss hword => exact ⟨_, .property hroot hss hword⟩

theorem solid (h : OperandText start text o) : Solid text := by
  cases h with
  | string h =>
    obtain ⟨q, cs, rfl, hq⟩ := exists_cons_of_isString h
    exact ⟨q, cs, rfl,
      Text.isBlank_eq_false_of_isQuote hq, by rintro rfl; exact absurd hq (by decide)⟩
  | number h =>
    obtain ⟨c, cs, rfl, hd, hb, -⟩ := exists_cons_of_isSigned h
    exact ⟨c, cs, rfl, hb, by rintro rfl; exact absurd hd (by decide)⟩
  | keyword word => exact solid_of_isIdentifier (by cases word <;> decide)
  | property hroot =>
    rw [String.toList_append]
    exact (solid_of_isIdentifier hroot).append _

/-- An operand is read from its text, before what does not go on with it. -/
theorem operandAt {rest : List Char} (h : OperandText start text o)
    (hr : ∀ c ∈ rest.head?, Text.isQuote c = false ∧ Text.isDigit c = false ∧ c ≠ '.' ∧ c ≠ '[')
    (he : Ended text rest) :
    Liquid.operandAt ⟨start, text ++ rest⟩ = .ok (o, ⟨start + Text.byteLength text, rest⟩) := by
  have haccess : ∀ c ∈ rest.head?, c ≠ '.' ∧ c ≠ '[' := fun c hc => (hr c hc).2.2
  cases h with
  | string h => exact operandAt_string h (fun c hc => (hr c hc).1) start
  | number h =>
    exact operandAt_number h
      (fun c hc => ⟨(hr c hc).2.1, fun hdot => absurd hdot (haccess c hc).1⟩) start
  | keyword word =>
    have hid : isIdentifier word.text.toList := by cases word <;> decide
    have hof : Keyword.ofText? word.text = some word := by cases word <;> rfl
    have hparted : Parted (word.text ++ Selector.texts []).toList rest := by
      rw [Selector.texts, String.append_empty]
      rw [← List.append_nil word.text.toList] at he ⊢
      exact he.parted hid
    have hread := operandAt_texts hid (List.forall_mem_nil _) haccess hparted start
    rw [Selector.texts, String.append_empty, Access.ofSelectors, Operand.ofProperty, hof] at hread
    exact hread
  | @property root ss hroot hss hword =>
    have hparted : Parted (root ++ Selector.texts ss).toList rest := by
      rw [String.toList_append] at he ⊢
      exact he.parted hroot
    rw [operandAt_texts hroot hss haccess hparted start]
    cases ss with
    | cons s ss => rfl
    | nil =>
      obtain ⟨hnone, hnot⟩ := hword rfl
      simp [Access.ofSelectors, Operand.ofProperty, hnone, hnot]

end OperandText

/-- An operand that is read stands for a chain of the kind described. -/
theorem isOperandChain_of_operandAt (h : operandAt p = .ok (o, rest)) :
    ∃ chain, o.toExpr {} = .ofChain chain ∧ isOperandChain chain := by
  obtain ⟨text, htext, -⟩ := exists_of_operandAt h
  exact htext.isOperandChain

/-- The chains of the kind described are exactly those that some operand stands for. -/
theorem isOperandChain_iff {chain : List Part} :
    isOperandChain chain ↔
      ∃ p o rest, readOperand p = .ok (o, rest) ∧ o.toExpr {} = .ofChain chain := by
  constructor
  · intro h
    obtain ⟨text, -, hs⟩ := write_spells h
    obtain ⟨o, ho, he⟩ := hs.reads 0 [] ends_nil
    refine ⟨⟨0, text.toList ++ []⟩, o, ⟨0 + Text.byteLength text.toList, []⟩, ?_, he⟩
    rw [readOperand, (hs.solid.append []).trimStart, ho]
  · rintro ⟨p, o, rest, hread, ho⟩
    obtain ⟨chain', hc, h⟩ := isOperandChain_of_operandAt hread
    rw [ho] at hc
    rwa [show chain = chain' from congrArg Expr.chain hc]

/-! ### Quoted texts -/

/-- The quoted text of an access. -/
def Access.quoted? : Access → Option (List Char)
  | key quoted => some quoted.text
  | name _ | index _ => none

/-- The quoted texts of an operand. -/
def Operand.quotedTexts : Operand → List (List Char)
  | quoted text => [text.text]
  | property _ accesses _ => accesses.filterMap Access.quoted?
  | number _ | keyword _ _ => []

theorem mem_quotedTexts {root : String} {as : List Access} {piece : Piece} {t : List Char}
    (ha : a ∈ as) (ht : a.quoted? = some t) :
    t ∈ (Operand.property root as piece).quotedTexts :=
  List.mem_filterMap.mpr ⟨a, ha, ht⟩

/-- What holds of texts of loose characters, of strings, and of texts that are put together from
such texts, holds of the text of a selector. -/
theorem forall_selector {C : List Char → Prop} (happend : ∀ s t, C s → C t → C (s ++ t))
    (hloose : ∀ s, (∀ c ∈ s, isLoose c) → C s) {s : Selector}
    (h : s.isWritten isIdentifier isKey)
    (hs : ∀ t ∈ (Access.ofSelector start s).quoted?, Text.isString t → C t) : C s.text.toList := by
  cases s with
  | dot name =>
    rw [Selector.toList_dot]
    exact hloose _ (List.forall_mem_cons.mpr ⟨by decide, fun c => isLoose_of_mem_identifier h⟩)
  | bracket left key right =>
    simp only [Selector.isWritten, Bool.and_eq_true, List.all_eq_true] at h
    have hblanks : ∀ s : String, (∀ c ∈ s.toList, Text.isBlank c) → C s.toList := fun s hs =>
      hloose _ fun c hc => isLoose_of_isBlank (hs c hc)
    have hsign : ∀ c, isLoose c → C [c] := fun c hc => hloose _ (by simpa using hc)
    have hkey : C key.toList := by
      obtain hstring | hsigned : Text.isString key.toList ∨ isSigned key.toList := by
        have hkey := h.1.2
        rw [isKey, Bool.or_eq_true, Bool.and_eq_true] at hkey
        exact hkey.imp_right (·.1)
      · exact hs _ (by rw [Access.ofSelector, Access.ofKey_string hstring]; rfl) hstring
      · exact hloose _ fun c hc => (signs_of_mem_signed hsigned hc).2.1
    have hinner := happend _ _ (happend _ _ (hblanks left h.1.1) hkey) (hblanks right h.2)
    rw [Selector.toList_bracket]
    exact happend _ _ (happend ['['] _ (hsign _ (by decide)) hinner) (hsign _ (by decide))

theorem forall_selectors {C : List Char → Prop} (happend : ∀ s t, C s → C t → C (s ++ t))
    (hloose : ∀ s, (∀ c ∈ s, isLoose c) → C s) {ss : List Selector}
    (h : ∀ s ∈ ss, s.isWritten isIdentifier isKey)
    (hs : ∀ a ∈ Access.ofSelectors start ss, ∀ t ∈ a.quoted?, Text.isString t → C t) :
    C (Selector.texts ss).toList := by
  induction ss generalizing start with
  | nil => exact hloose _ (by simp [Selector.texts])
  | cons s ss ih =>
    rw [List.forall_mem_cons] at h
    rw [Access.ofSelectors, List.forall_mem_cons] at hs
    rw [Selector.texts, String.toList_append]
    exact happend _ _ (forall_selector happend hloose h.1 hs.1) (ih h.2 hs.2)

/-- The same for the text of an operand, if it holds of the quoted texts of that operand. -/
theorem OperandText.forall_text {C : List Char → Prop} (happend : ∀ s t, C s → C t → C (s ++ t))
    (hloose : ∀ s, (∀ c ∈ s, isLoose c) → C s) (h : OperandText start text o)
    (ho : ∀ t ∈ o.quotedTexts, Text.isString t → C t) : C text := by
  cases h with
  | string h => exact ho _ (List.mem_singleton_self _) h
  | number h => exact hloose _ fun c hc => (signs_of_mem_signed h hc).2.1
  | keyword word => exact hloose _ (by cases word <;> decide)
  | @property root ss hroot hss =>
    rw [String.toList_append]
    refine happend _ _ (hloose _ fun c => isLoose_of_mem_identifier hroot) ?_
    exact forall_selectors happend hloose hss fun a ha t ht => ho t (mem_quotedTexts ha ht)

theorem closed_of_loose (h : ∀ c ∈ text, isLoose c) : Text.Closed text :=
  Text.closed_of_unquoted fun c hc => (isLoose_iff.mp (h c hc)).1

theorem OperandText.closed (h : OperandText start text o) : Text.Closed text :=
  h.forall_text (fun _ _ => .append) (fun _ => closed_of_loose)
    fun _ _ ht => (Text.Ready.string ht).closed

/-! ### Walks -/

/-- The operands of a chain. -/
def Chain.operands (c : Chain) : List Operand :=
  c.first :: c.links.map (·.operand)

/-- The operands of a filter. -/
def Filter.operands (f : Filter) : List Operand :=
  f.args.map (·.value)

/-- The operands of a value. -/
def Value.operands (v : Value) : List Operand :=
  v.initial.operands ++ v.filters.flatMap Filter.operands

/-- Reading leads from one piece to another over loose characters, and no word goes on after
them. -/
def Skips (p q : Piece) : Prop :=
  ∃ s, p.Leads s q ∧ (∀ c ∈ s, isLoose c) ∧ Text.Apart s q.text

/-- Reading leads from one piece to another over operands and what stands between them. -/
inductive Walked : Piece → List Operand → Piece → Prop
  | done (p : Piece) : Walked p [] p
  | skip {p q r : Piece} {os : List Operand} (h : Skips p q) (hs : Walked q os r) : Walked p os r
  | operand {p q r : Piece} {o : Operand} {os : List Operand} (h : operandAt p = .ok (o, q))
      (hs : Walked q os r) : Walked p (o :: os) r

theorem eatWord?_eq (word : List Char) (p : Piece) :
    eatWord? word p = (eat? word p).filter fun rest => !rest.text.head?.any isIdentChar := by
  unfold eatWord?
  cases eat? word p with
  | none => rfl
  | some rest =>
    obtain ⟨start, text⟩ := rest
    cases text <;> rfl

theorem readFilterArg_eq (p : Piece) :
    readFilterArg p =
      match readIdentifier p with
      | .error _ => (readOperand p).map fun x => (.positional x.1, x.2)
      | .ok x =>
        match eat? [':'] x.2 with
        | none => (readOperand p).map fun y => (.positional y.1, y.2)
        | some rest => (readOperand rest).map fun y => (.keyword x.1 y.1, y.2) := by
  unfold readFilterArg
  cases readIdentifier p with
  | error => rfl
  | ok x =>
    cases hc : eat? [':'] x.2 with
    | none => simp [Except.toOption, hc]
    | some rest => simp [Except.toOption, hc]

namespace Walked

variable {p q r : Piece} {os os' : List Operand}

theorem append (h : Walked p os q) (h' : Walked q os' r) : Walked p (os ++ os') r := by
  induction h with
  | done => exact h'
  | skip h _ ih => exact .skip h (ih h')
  | operand h _ ih => exact .operand h (ih h')

theorem signs {s : List Char} (h : p.Leads s q)
    (hs : ∀ c ∈ s, isLoose c ∧ Text.isNameStart c = false) : Walked p [] q :=
  .skip ⟨s, h, fun c hc => (hs c hc).1, .inl fun c hc => (hs c (List.mem_of_getLast? hc)).2⟩
    (.done q)

theorem trimStart (p : Piece) : Walked p [] p.trimStart := by
  refine signs (.trimStart p) fun c hc => ?_
  have hblank : Text.isBlank c := List.mem_takeWhile_imp hc
  exact ⟨isLoose_of_isBlank hblank, Text.isNameStart_eq_false_of_isBlank hblank⟩

theorem eat? {token : List Char} (ht : ∀ c ∈ token, isLoose c ∧ Text.isNameStart c = false)
    (h : Liquid.eat? token p = some q) : Walked p [] q :=
  (trimStart p).append (signs (.strip? h) ht)

/-- No name goes on after a word. -/
theorem eatWord? {word : List Char} (hw : ∀ c ∈ word, isLoose c)
    (h : Liquid.eatWord? word p = some q) : Walked p [] q := by
  obtain ⟨heat, hend⟩ := Option.filter_eq_some_iff.mp h
  refine (trimStart p).append (.skip ⟨word, .strip? heat, hw, .inr fun c hc => ?_⟩ (.done q))
  obtain ⟨cs, hcs⟩ := List.head?_eq_some_iff.mp hc
  by_contra hname
  simp [hcs, isIdentChar_of_isNameChar (Bool.not_eq_false _ ▸ hname)] at hend

theorem readIdentifier {name : String} (h : Liquid.readIdentifier p = .ok (name, q)) :
    Walked p [] q :=
  .skip ⟨_, leads_readIdentifier h,
    fun _ => isLoose_of_mem_identifier (isIdentifier_of_readIdentifier h),
    (parted_readIdentifier h).apart⟩ (.done q)

theorem readOperand (h : Liquid.readOperand p = .ok (o, q)) : Walked p [o] q :=
  (trimStart p).append (.operand h (.done q))

theorem readConnector {c : Connector} (h : Liquid.readConnector p = .ok (c, q)) :
    Walked p [] q := by
  have hsigns : ∀ c ∈ Connector.signs, ∀ d ∈ c.text.toList,
      isLoose d ∧ Text.isNameStart d = false := by decide
  have hwords : ∀ c ∈ Connector.words, ∀ d ∈ c.text.toList, isLoose d := by decide
  unfold Liquid.readConnector at h
  simp only at h
  split at h
  · next found hf =>
    cases h
    rcases Option.or_eq_some_iff.mp hf with hf | ⟨-, hf⟩
    all_goals
      obtain ⟨c', hmem, hc⟩ := List.exists_of_findSome?_eq_some hf
      obtain ⟨r, hr, he⟩ := Option.map_eq_some_iff.mp hc
      cases he
    · exact signs (.strip? hr) (hsigns c hmem)
    · exact eatWord? (hwords c hmem) hr
  · cases h

theorem readLink {l : Link} (h : Liquid.readLink p = .ok (l, q)) : Walked p [l.operand] q := by
  obtain ⟨⟨c, r₁⟩, h₁, h⟩ := bind_eq_ok.mp h
  simp only at h
  split at h
  · cases h
  · obtain ⟨-, -, h⟩ := bind_eq_ok.mp h
    obtain ⟨⟨o, r₂⟩, h₂, rfl, rfl⟩ := bind_pure_eq_ok.mp h
    exact (readConnector h₁).append (readOperand h₂)

theorem readLinks {ls : List Link} (h : Liquid.readLinks p = .ok (ls, q)) :
    Walked p (ls.map Link.operand) q := by
  fun_induction Liquid.readLinks p generalizing ls q with
  | case1 p =>
    cases h
    exact .trimStart p
  | case2 | case3 => cases h
  | case4 p _ l r hl ls' r' hls ih =>
    cases h
    exact ((trimStart p).append (readLink hl)).append (ih hls)

theorem readChain {c : Chain} (h : Liquid.readChain p = .ok (c, q)) : Walked p c.operands q := by
  unfold Liquid.readChain at h
  simp only at h
  split at h
  · cases h
  · obtain ⟨-, -, h⟩ := bind_eq_ok.mp h
    obtain ⟨⟨first, r₁⟩, h₁, h⟩ := bind_eq_ok.mp h
    obtain ⟨⟨links, r₂⟩, h₂, h⟩ := bind_eq_ok.mp h
    cases h
    exact ((trimStart p).append (readOperand h₁)).append (readLinks h₂)

theorem readFilterArg {arg : FilterArg} (h : Liquid.readFilterArg p = .ok (arg, q)) :
    Walked p [arg.value] q := by
  rw [readFilterArg_eq] at h
  split at h
  · obtain ⟨⟨o, r⟩, ho, he⟩ := map_eq_ok.mp h
    cases he
    exact readOperand ho
  · next x hx =>
    split at h
    · obtain ⟨⟨o, r⟩, ho, he⟩ := map_eq_ok.mp h
      cases he
      exact readOperand ho
    · next r hcolon =>
      obtain ⟨⟨o, r'⟩, ho, he⟩ := map_eq_ok.mp h
      cases he
      exact (readIdentifier hx).append ((eat? (by decide) hcolon).append (readOperand ho))

theorem readFilterArgs {args : List FilterArg} (h : Liquid.readFilterArgs p = .ok (args, q)) :
    Walked p (args.map FilterArg.value) q := by
  fun_induction Liquid.readFilterArgs p generalizing args q with
  | case1 | case3 => cases h
  | case2 p arg r hr =>
    cases h
    exact ((trimStart p).append (readFilterArg hr)).append (.trimStart r)
  | case4 p arg r hr r' hc args' r'' hr' ih =>
    cases h
    have hnext := (eat? (by decide) hc).append (ih hr')
    exact ((trimStart p).append (readFilterArg hr)).append hnext

theorem readFilter {f : Filter} (h : Liquid.readFilter p = .ok (f, q)) : Walked p f.operands q := by
  obtain ⟨⟨name, r₁⟩, h₁, h⟩ := bind_eq_ok.mp h
  obtain ⟨⟨args, r₂⟩, h₂, h⟩ := bind_eq_ok.mp h
  cases h
  have hname := (trimStart p).append (readIdentifier h₁)
  unfold readFilterTail at h₂
  split at h₂
  · cases h₂
    exact hname.append (.trimStart r₁)
  · next hcolon => exact hname.append ((eat? (by decide) hcolon).append (readFilterArgs h₂))

theorem readFilters {fs : List Filter} (h : Liquid.readFilters p = .ok (fs, q)) :
    Walked p (fs.flatMap Filter.operands) q := by
  fun_induction Liquid.readFilters p generalizing fs q with
  | case1 p =>
    cases h
    exact .trimStart p
  | case2 | case3 => cases h
  | case4 p r hbar f r' hf fs' r'' hfs ih =>
    cases h
    exact ((eat? (by decide) hbar).append (readFilter hf)).append (ih hfs)

/-- Reading a value leads over its operands, one after the other. -/
theorem readValue {v : Value} (h : Liquid.readValue p = .ok (v, q)) : Walked p v.operands q := by
  obtain ⟨⟨c, r₁⟩, h₁, h⟩ := bind_eq_ok.mp h
  obtain ⟨⟨fs, r₂⟩, h₂, h⟩ := bind_eq_ok.mp h
  cases h
  exact (readChain h₁).append (readFilters h₂)

end Walked

/-! ### Whole pieces -/

theorem exists_of_complete {α : Type} {reader : Piece → Except ReadError (α × Piece)} {x : α}
    (h : reader p >>= complete = .ok x) :
    ∃ rest, reader p = .ok (x, rest) ∧ rest.trimStart.text = [] := by
  obtain ⟨⟨y, rest⟩, hread, h⟩ := bind_eq_ok.mp h
  rw [complete] at h
  split at h
  · next hempty =>
    cases h
    exact ⟨rest, hread, by simpa using hempty⟩
  · cases h

theorem exists_of_parseValue {v : Value} (h : parseValue p = .ok v) :
    ∃ rest, readValue p = .ok (v, rest) ∧ rest.trimStart.text = [] :=
  exists_of_complete h

theorem walked_parseMoreValues {os : List Operand} (h : parseMoreValues p = .ok os) :
    ∃ rest, Walked p os rest := by
  fun_induction parseMoreValues p generalizing os with
  | case1 =>
    cases h
    exact ⟨_, .done _⟩
  | case2 | case3 | case4 => cases h
  | case5 p hend r hr o r' ho os' hos ih =>
    cases h
    have hsep : Walked p [] r := by
      rcases Option.or_eq_some_iff.mp hr with hr | ⟨-, hr⟩
      · exact .eat? (by decide) hr
      · exact .eatWord? (by decide) hr
    obtain ⟨rest, hrest⟩ := ih hos
    exact ⟨rest, (hsep.append (.readOperand ho)).append hrest⟩

theorem walked_parseWhen {os : List Operand} (h : parseWhen p = .ok os) :
    ∃ rest, Walked p os rest := by
  obtain ⟨⟨first, r⟩, hfirst, h⟩ := bind_eq_ok.mp h
  obtain ⟨more, hmore, rfl⟩ := bind_pure_eq_ok.mp h
  obtain ⟨rest, hrest⟩ := walked_parseMoreValues hmore
  exact ⟨rest, (Walked.readOperand hfirst).append hrest⟩

end Stencil.Liquid
