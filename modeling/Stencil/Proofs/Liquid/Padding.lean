import Stencil.Proofs.Agreement
import Stencil.Proofs.Liquid.Reading

/-!
# Values with blanks after them

Where a value stands in a source, and how many blanks come after it, plays no part in how it is
read. Two pieces of source with the same text up to blanks at their ends are read in step: a reader
fails on both of them, or it finds the same thing at the start of each and leaves pieces that again
differ in blanks only.

## Main results

* `Liquid.agree_trim` : the blanks around a value play no part in its expression.
-/

namespace Stencil.Liquid

/-! ### Pieces that differ in blanks -/

/-- The second piece is the first one with blanks at its end, wherever they begin. -/
def Padded (p q : Piece) : Prop :=
  ∃ blanks, (∀ c ∈ blanks, Text.isBlank c) ∧ q.text = p.text ++ blanks

/-- What a reader gives on two pieces: related results, and places from which the pieces are again
read in step. -/
def After {α β : Type} (S : α → β → Prop) (a : α × Piece) (b : β × Piece) : Prop :=
  S a.1 b.1 ∧ Padded a.2 b.2

theorem isIdentChar_eq_false_of_isBlank {c : Char} (h : Text.isBlank c) :
    isIdentChar c = false := by
  have hdash : c ≠ '-' := Text.ne_of_isBlank h (by decide)
  simp [isIdentChar, Text.isNameChar_eq_false_of_isBlank h, hdash]

namespace Padded

variable {p q : Piece}

/-- The blanks at the end begin with a blank, if there are any. -/
theorem cases (h : Padded p q) :
    q.text = p.text ∨ ∃ c blanks, Text.isBlank c ∧ (∀ d ∈ blanks, Text.isBlank d) ∧
      q.text = p.text ++ c :: blanks := by
  obtain ⟨blanks, hb, hq⟩ := h
  cases blanks with
  | nil => exact .inl (by simpa using hq)
  | cons c blanks =>
    rw [List.forall_mem_cons] at hb
    exact .inr ⟨c, blanks, hb.1, hb.2, hq⟩

theorem drop {n : Nat} (h : Padded p q) (hn : n ≤ p.text.length) :
    Padded (p.drop n) (q.drop n) := by
  obtain ⟨blanks, hb, hq⟩ := h
  refine ⟨blanks, hb, ?_⟩
  simp only [Piece.drop, hq]
  exact List.drop_append_of_le_length hn

theorem trimStart (h : Padded p q) : Padded p.trimStart q.trimStart := by
  obtain ⟨blanks, hb, hq⟩ := h
  have htext : q.trimStart.text = (p.text ++ blanks).dropWhile Text.isBlank := by
    rw [← hq]
    rfl
  rw [List.dropWhile_append] at htext
  split at htext
  · next hempty =>
    refine ⟨[], by simp, ?_⟩
    rw [htext, List.dropWhile_eq_nil_iff.mpr hb]
    simpa [Piece.trimStart, Piece.dropWhile] using hempty
  · exact ⟨blanks, hb, htext⟩

/-- A property that blanks do not have is told from the first character. -/
theorem head?_any (h : Padded p q) {f : Char → Bool} (hf : ∀ c, Text.isBlank c → f c = false) :
    q.text.head?.any f = p.text.head?.any f := by
  rcases h.cases with hq | ⟨c, blanks, hc, -, hq⟩
  · rw [hq]
  · rw [hq]
    cases p.text with
    | nil => simp [hf c hc]
    | cons d ds => rfl

theorem head?_beq (h : Padded p q) {c : Char} (hc : Text.isBlank c = false) :
    q.text.head?.any (· == c) = p.text.head?.any (· == c) :=
  h.head?_any fun _ hb => beq_eq_false_iff_ne.mpr (Text.ne_of_isBlank hb hc)

/-- A sign at the start of both pieces is passed over. -/
theorem drop_sign (h : Padded p q) {c : Char} (hp : p.text.head?.any (· == c)) :
    Padded (p.drop 1) (q.drop 1) := by
  refine h.drop (Nat.one_le_iff_ne_zero.mpr fun hzero => ?_)
  simp [List.length_eq_zero_iff.mp hzero] at hp

/-- Nothing is left of a piece without leading blanks, or it goes on with the same character. -/
theorem head?_trimStart (h : Padded p q) : q.trimStart.text.head? = p.trimStart.text.head? := by
  obtain ⟨blanks, hb, hq⟩ := h.trimStart
  rw [hq]
  cases hp : p.trimStart.text with
  | cons c cs => rfl
  | nil =>
    cases blanks with
    | nil => rfl
    | cons c blanks =>
      have hhead : c ∈ (Text.trimStart q.text).head? := by
        rw [← Piece.text_trimStart, hq, hp]
        rfl
      have hblank := Text.head?_trimStart hhead
      rw [hb c List.mem_cons_self] at hblank
      cases hblank

/-- Some punctuation comes next in both pieces, or in neither. -/
def Together (x y : Option Piece) : Prop :=
  x = none ∧ y = none ∨ ∃ r r', x = some r ∧ y = some r' ∧ Padded r r'

theorem strip? (h : Padded p q) {token : List Char} (ht : ∀ c ∈ token, Text.isBlank c = false) :
    Together (p.strip? token) (q.strip? token) := by
  obtain ⟨blanks, hb, hq⟩ := h
  have hstrip : Text.strip? token q.text = (Text.strip? token p.text).map (· ++ blanks) := by
    rw [hq]
    cases blanks with
    | nil => simp
    | cons c blanks =>
      refine Text.strip?_append_cons (fun hc => ?_) _ _
      exact Text.ne_of_isBlank (hb c List.mem_cons_self) (ht c hc) rfl
  rw [Piece.strip?, Piece.strip?, hstrip]
  cases Text.strip? token p.text with
  | none => exact .inl ⟨rfl, rfl⟩
  | some rest => exact .inr ⟨_, _, rfl, rfl, blanks, hb, rfl⟩

theorem eat? (h : Padded p q) {token : List Char} (ht : ∀ c ∈ token, Text.isBlank c = false) :
    Together (Liquid.eat? token p) (Liquid.eat? token q) :=
  h.trimStart.strip? ht

theorem eatWord? (h : Padded p q) {token : List Char} (ht : ∀ c ∈ token, Text.isBlank c = false) :
    Together (Liquid.eatWord? token p) (Liquid.eatWord? token q) := by
  rw [eatWord?_eq, eatWord?_eq]
  rcases h.eat? ht with ⟨hp, hq⟩ | ⟨r, r', hp, hq, hpad⟩
  · rw [hp, hq]
    exact .inl ⟨rfl, rfl⟩
  · rw [hp, hq, Option.filter_some, Option.filter_some,
      hpad.head?_any fun c hc => isIdentChar_eq_false_of_isBlank hc]
    split
    · exact .inr ⟨r, r', rfl, rfl, hpad⟩
    · exact .inl ⟨rfl, rfl⟩

end Padded

/-! ### Operands -/

/-- Accesses that are read as the same part of a chain. -/
def Access.Same (a b : Access) : Prop :=
  ∀ ofLoop, a.toPart ofLoop = b.toPart ofLoop

theorem numberText_append_ends {z : List Char} (hz : Text.EndsNumber z)
    (hminus : z.head? ≠ some '-') (cs : List Char) : numberText (cs ++ z) = numberText cs := by
  by_cases hcs : cs.head? = some '-'
  · obtain ⟨ds, rfl⟩ := List.head?_eq_some_iff.mp hcs
    rw [List.cons_append, numberText_minus, numberText_minus, Text.numberTail_append_ends hz]
  · have happend : (cs ++ z).head? ≠ some '-' := by
      cases cs with
      | nil => exact hminus
      | cons => exact hcs
    rw [numberText_of_ne hcs, numberText_of_ne happend, Text.numberTail_append_ends hz]

theorem isNumberStart_eq_false_of_isBlank {c : Char} (h : Text.isBlank c) :
    (Text.isDigit c || c == '-') = false := by
  have hdash : c ≠ '-' := Text.ne_of_isBlank h (by decide)
  simp [Text.isDigit_eq_false_of_isBlank h, hdash]

theorem readAccesses_eq (p : Piece) :
    readAccesses p = readAccess p >>= fun access? =>
      match access? with
      | none => .ok ([], p)
      | some x => (readAccesses x.2).map fun y => (x.1 :: y.1, y.2) := by
  cases h : readAccess p with
  | error =>
    rw [readAccesses]
    split <;> simp_all
  | ok access? =>
    cases access? with
    | none => exact readAccesses_of_none h
    | some x => exact readAccesses_of_some h

/-- What was read when only an identifier was read is the identifier. -/
theorem text_upTo_of_nil {p r rest : Piece} {name : String} (h : readIdentifier p = .ok (name, r))
    (hrest : readAccesses r = .ok ([], rest)) : (upTo p rest).toString = name := by
  obtain ⟨ss, -, hleads, hnil, -⟩ := exists_of_readAccesses hrest (parted_readIdentifier h)
  cases ss with
  | cons => cases hnil
  | nil =>
    rw [upTo_of_leads ((leads_readIdentifier h).trans hleads), Selector.texts, String.toList_empty,
      List.append_nil, Piece.toString, String.ofList_toList]

theorem map_toPart_of_same {as bs : List Access} (h : List.Forall₂ Access.Same as bs)
    (ofLoop : Bool) : as.map (Access.toPart ofLoop) = bs.map (Access.toPart ofLoop) := by
  induction h with
  | nil => rfl
  | cons hab _ ih => rw [List.map_cons, List.map_cons, hab ofLoop, ih]

/-- Operands that are read as the same expression. -/
def Operand.Same (a b : Operand) : Prop :=
  ∀ scope, a.toExpr scope = b.toExpr scope

namespace Padded

variable {p q : Piece}

theorem identifierText (h : Padded p q) :
    Liquid.identifierText q.text = Liquid.identifierText p.text := by
  rcases h.cases with hq | ⟨b, blanks, hb, -, hq⟩
  · rw [hq]
  have hident := isIdentChar_eq_false_of_isBlank hb
  rw [hq]
  cases p.text with
  | nil =>
    have hstart : Text.isNameStart b = false := Text.isNameStart_eq_false_of_isBlank hb
    simp [Liquid.identifierText, hstart]
  | cons c cs =>
    have hmark : ((cs.dropWhile isIdentChar ++ b :: blanks).head? == some '?') =
        ((cs.dropWhile isIdentChar).head? == some '?') := by
      cases cs.dropWhile isIdentChar with
      | nil =>
        have hne : b ≠ '?' := Text.ne_of_isBlank hb (by decide)
        simp [hne]
      | cons d ds => rfl
    rw [List.cons_append, Liquid.identifierText, Liquid.identifierText,
      Text.takeWhile_append_cons hident, Text.dropWhile_append_cons hident, hmark]

theorem startsNumber (h : Padded p q) :
    Liquid.startsNumber q.text = Liquid.startsNumber p.text := by
  rcases h.cases with hq | ⟨b, blanks, hb, -, hq⟩
  · rw [hq]
  have hdigit := Text.isDigit_eq_false_of_isBlank hb
  have hdash : b ≠ '-' := Text.ne_of_isBlank hb (by decide)
  rw [hq]
  cases p.text with
  | nil => simp [Liquid.startsNumber, hdigit, hdash]
  | cons c cs =>
    by_cases hc : c = '-'
    · cases cs with
      | nil => simpa [Liquid.startsNumber, hc, hdigit] using (by decide : Text.isDigit '-' = false)
      | cons d ds => simp [Liquid.startsNumber, hc]
    · simp [Liquid.startsNumber, hc]

theorem readIdentifier (h : Padded p q) :
    Agree Anyhow (After Eq) (Liquid.readIdentifier p) (Liquid.readIdentifier q) := by
  unfold Liquid.readIdentifier
  rw [h.identifierText]
  simp only
  split
  · trivial
  · exact ⟨rfl, h.drop (identifierText_isPrefix p.text).length_le⟩

theorem readQuoted (h : Padded p q) (hp : p.text.head?.any Text.isQuote) :
    Agree Anyhow (After (fun a b => a.text = b.text)) (Liquid.readQuoted p)
      (Liquid.readQuoted q) := by
  obtain ⟨blanks, hb, hq⟩ := h
  obtain ⟨start, text⟩ := p
  obtain ⟨start', text'⟩ := q
  cases text with
  | nil => cases hp
  | cons c cs =>
    obtain rfl : text' = c :: cs ++ blanks := hq
    have hquote : Text.isQuote c := hp
    have hblanks : c ∉ blanks := fun hc => by
      have := hb c hc
      rw [Text.isBlank_eq_false_of_isQuote hquote] at this
      cases this
    simp only [Liquid.readQuoted, List.cons_append]
    cases hr : Text.quotedRest c cs with
    | none =>
      rw [Text.quotedRest_append_eq_none hr hblanks]
      trivial
    | some r =>
      obtain ⟨body, rest⟩ := r
      have hhead : blanks.head? ≠ some c := fun hc => hblanks (List.mem_of_mem_head? hc)
      rw [Text.quotedRest_append_head hquote hhead hr]
      exact ⟨rfl, blanks, hb, rfl⟩

theorem readNumber (h : Padded p q) :
    After (fun a b => a.text = b.text) (Liquid.readNumber p) (Liquid.readNumber q) := by
  have hnumber : numberText q.text = numberText p.text := by
    rcases h.cases with hq | ⟨b, blanks, hb, -, hq⟩
    · rw [hq]
    · rw [hq]
      exact numberText_append_ends (Text.endsNumber_cons_blank hb _)
        (by simpa using Text.ne_of_isBlank hb (by decide)) _
  have hpre := numberText_isPrefix p.text
  rw [Liquid.readNumber, Liquid.readNumber, hnumber]
  refine ⟨?_, h.drop hpre.length_le⟩
  obtain ⟨blanks, -, hq⟩ := h
  simp only [Piece.take, hq]
  exact (List.take_append_of_le_length hpre.length_le).symm

theorem readSubscript (h : Padded p q) :
    Agree Anyhow (After Access.Same) (Liquid.readSubscript p) (Liquid.readSubscript q) := by
  have hquote := h.head?_any fun c hc => Text.isQuote_eq_false_of_isBlank hc
  have hnumber := h.head?_any fun c hc => isNumberStart_eq_false_of_isBlank hc
  rw [readSubscript_eq, readSubscript_eq, hquote, hnumber]
  split
  · next hp =>
    refine (h.readQuoted hp).map fun a b hab => ⟨fun ofLoop => ?_, hab.2⟩
    obtain ⟨⟨start, text⟩, rest⟩ := a
    obtain rfl : text = b.1.text := hab.1
    rfl
  · split
    · next hp =>
      obtain ⟨htext, hpad⟩ := h.readNumber
      simp only [htext]
      cases Text.int64? (Liquid.readNumber q).1.text with
      | none => trivial
      | some n => exact ⟨fun _ => rfl, hpad⟩
    · trivial

theorem readAccess (h : Padded p q) :
    Agree Anyhow
      (fun a b => a = none ∧ b = none ∨ ∃ x y, a = some x ∧ b = some y ∧ After Access.Same x y)
      (Liquid.readAccess p) (Liquid.readAccess q) := by
  have hdot := h.head?_beq (by decide : Text.isBlank '.' = false)
  have hbracket := h.head?_beq (by decide : Text.isBlank '[' = false)
  rw [readAccess_eq, readAccess_eq, hdot, hbracket]
  split
  · next hp =>
    refine (h.drop_sign hp).readIdentifier.bind fun a b _ _ hab => .inr ⟨_, _, rfl, rfl, ?_⟩
    exact ⟨fun ofLoop => by rw [hab.1], hab.2⟩
  · split
    · next hp =>
      refine (h.drop_sign hp).trimStart.readSubscript.bind fun a b _ _ hab => ?_
      rcases hab.2.eat? (by decide : ∀ c ∈ [']'], _) with ⟨ha, hb⟩ | ⟨r, r', ha, hb, hpad⟩
      · rw [ha, hb]
        trivial
      · rw [ha, hb]
        exact .inr ⟨_, _, rfl, rfl, hab.1, hpad⟩
    · exact .inl ⟨rfl, rfl⟩

theorem readAccesses (h : Padded p q) :
    Agree Anyhow (After (List.Forall₂ Access.Same)) (Liquid.readAccesses p)
      (Liquid.readAccesses q) := by
  induction hn : p.text.length using Nat.strong_induction_on generalizing p q with
  | _ n ih =>
    rw [readAccesses_eq, readAccesses_eq]
    refine h.readAccess.bind fun a b ha _ hab => ?_
    rcases hab with ⟨rfl, rfl⟩ | ⟨x, y, rfl, rfl, hsame, hpad⟩
    · exact ⟨.nil, h⟩
    · have hlt : x.2.text.length < n := hn ▸ length_readAccess ha
      exact (ih _ hlt hpad rfl).map fun a b hrest => ⟨.cons hsame hrest.1, hrest.2⟩

/-- The accesses of a property, and the word of a keyword, are read alike. -/
theorem ofProperty {root : String} {as bs : List Access} {text text' : Piece}
    (h : List.Forall₂ Access.Same as bs)
    (ht : as = [] → text.toString = root ∧ text'.toString = root) :
    Agree Anyhow Operand.Same (Operand.ofProperty root as text)
      (Operand.ofProperty root bs text') := by
  cases h with
  | nil =>
    obtain ⟨hroot, hroot'⟩ := ht rfl
    unfold Operand.ofProperty
    cases Keyword.ofText? root with
    | some word =>
      intro scope
      cases word <;> simp [Operand.toExpr, Keyword.toExpr, hroot, hroot']
    | none =>
      simp only
      split
      · trivial
      · exact fun _ => rfl
  | cons hab hs =>
    intro scope
    simp only [Operand.toExpr, accessParts, hab _, map_toPart_of_same hs]

theorem readProperty (h : Padded p q) :
    Agree Anyhow (After Operand.Same) (Liquid.readProperty p) (Liquid.readProperty q) := by
  unfold Liquid.readProperty
  refine h.readIdentifier.bind fun a b ha hb hab => ?_
  obtain ⟨root, r⟩ := a
  obtain ⟨root', r'⟩ := b
  obtain ⟨rfl, hpad⟩ := hab
  refine hpad.readAccesses.bind fun a b has hbs hrest => ?_
  obtain ⟨as, r₂⟩ := a
  obtain ⟨bs, r₂'⟩ := b
  have htext : as = [] → (upTo p r₂).toString = root ∧ (upTo q r₂').toString = root := by
    rintro rfl
    obtain rfl : bs = [] := by cases hrest.1; rfl
    exact ⟨text_upTo_of_nil ha has, text_upTo_of_nil hb hbs⟩
  exact (ofProperty hrest.1 htext).bind fun o o' _ _ ho => ⟨ho, hrest.2⟩

theorem operandAt (h : Padded p q) :
    Agree Anyhow (After Operand.Same) (Liquid.operandAt p) (Liquid.operandAt q) := by
  have hquote := h.head?_any fun c hc => Text.isQuote_eq_false_of_isBlank hc
  have hname := h.head?_any fun c hc => Text.isNameStart_eq_false_of_isBlank hc
  have hparen := h.head?_beq (by decide : Text.isBlank '(' = false)
  rw [operandAt_eq, operandAt_eq, hquote, h.startsNumber, hparen, hname]
  split
  · next hp =>
    refine (h.readQuoted hp).map fun a b hab => ⟨fun scope => ?_, hab.2⟩
    simp only [Operand.toExpr, Piece.toString, hab.1]
  split
  · next hp =>
    obtain ⟨htext, hpad⟩ := h.readNumber
    exact ⟨fun scope => by simp only [Operand.toExpr, Piece.toString, htext], hpad⟩
  split
  · trivial
  split
  · exact h.readProperty
  · trivial

theorem readOperand (h : Padded p q) :
    Agree Anyhow (After Operand.Same) (Liquid.readOperand p) (Liquid.readOperand q) :=
  h.trimStart.operandAt

end Padded

/-! ### Chains -/

/-- Links with the same connector and operands that are read alike. -/
def Link.Same (a b : Link) : Prop :=
  a.connector = b.connector ∧ a.operand.Same b.operand

theorem readLinks_eq (p : Piece) :
    readLinks p =
      if atEnd p.trimStart then .ok ([], p.trimStart)
      else readLink p.trimStart >>= fun x => (readLinks x.2).map fun y => (x.1 :: y.1, y.2) := by
  split
  · next hp => exact readLinks_of_atEnd hp
  · next hp =>
    cases hl : readLink p.trimStart with
    | error =>
      rw [readLinks, if_neg hp]
      split <;> simp_all
    | ok x => exact readLinks_of_readLink (Bool.eq_false_iff.mpr hp) hl

/-- Chains that are read as the same expression. -/
def Chain.Same (a b : Chain) : Prop :=
  a.first.Same b.first ∧ List.Forall₂ Link.Same a.links b.links

namespace Padded

variable {p q : Piece}

theorem atEnd (h : Padded p q) : Liquid.atEnd q.trimStart = Liquid.atEnd p.trimStart := by
  have hhead : ∀ r : Piece, Liquid.atEnd r = (r.text.head?.isNone || r.text.head? == some '|') := by
    intro r
    unfold Liquid.atEnd
    cases r.text <;> rfl
  rw [hhead, hhead, h.head?_trimStart]

/-- The first of some connectors that comes next is the same in both pieces. -/
theorem findSome? {cs : List Connector} {f g : Connector → Option Piece}
    (h : ∀ c ∈ cs, Together (f c) (g c)) :
    cs.findSome? (fun c => (f c).map (c, ·)) = none ∧
        cs.findSome? (fun c => (g c).map (c, ·)) = none ∨
      ∃ x y, cs.findSome? (fun c => (f c).map (c, ·)) = some x ∧
        cs.findSome? (fun c => (g c).map (c, ·)) = some y ∧ After Eq x y := by
  induction cs with
  | nil => exact .inl ⟨rfl, rfl⟩
  | cons c cs ih =>
    rw [List.forall_mem_cons] at h
    rcases h.1 with ⟨hf, hg⟩ | ⟨r, r', hf, hg, hpad⟩
    · simpa only [List.findSome?_cons, hf, hg, Option.map_none] using ih h.2
    · refine .inr ⟨(c, r), (c, r'), ?_, ?_, rfl, hpad⟩
      · simp [hf]
      · simp [hg]

theorem readConnector (h : Padded p q) :
    Agree Anyhow (After Eq) (Liquid.readConnector p) (Liquid.readConnector q) := by
  have hsolid : ∀ c : Connector, ∀ d ∈ c.text.toList, Text.isBlank d = false := by
    intro c
    cases c <;> decide
  have hsigns := findSome? fun c (_ : c ∈ Connector.signs) => h.strip? (hsolid c)
  have hwords := findSome? fun c (_ : c ∈ Connector.words) => h.eatWord? (hsolid c)
  unfold Liquid.readConnector
  rcases hsigns with ⟨hp, hq⟩ | ⟨x, y, hp, hq, hxy⟩
  · rcases hwords with ⟨hp', hq'⟩ | ⟨x, y, hp', hq', hxy⟩
    · simp only [hp, hq, hp', hq']
      trivial
    · simp only [hp, hq, hp', hq']
      exact hxy
  · simp only [hp, hq]
    exact hxy

theorem readLink (h : Padded p q) :
    Agree Anyhow (After Link.Same) (Liquid.readLink p) (Liquid.readLink q) := by
  unfold Liquid.readLink
  refine h.readConnector.bind fun a b _ _ hab => ?_
  obtain ⟨c, r⟩ := a
  obtain ⟨c', r'⟩ := b
  obtain ⟨rfl, hpad⟩ := hab
  simp only [hpad.atEnd]
  split
  · trivial
  · exact hpad.readOperand.bind fun a b _ _ hrest => ⟨⟨rfl, hrest.1⟩, hrest.2⟩

theorem readLinks (h : Padded p q) :
    Agree Anyhow (After (List.Forall₂ Link.Same)) (Liquid.readLinks p) (Liquid.readLinks q) := by
  induction hn : p.text.length using Nat.strong_induction_on generalizing p q with
  | _ n ih =>
    rw [readLinks_eq, readLinks_eq, h.atEnd]
    split
    · exact ⟨.nil, h.trimStart⟩
    · refine h.trimStart.readLink.bind fun x y hx _ hxy => ?_
      have hlt : x.2.text.length < n :=
        hn ▸ Nat.lt_of_lt_of_le (length_readLink hx) (Piece.length_trimStart_le p)
      exact (ih _ hlt hxy.2 rfl).map fun a b hrest => ⟨.cons hxy.1 hrest.1, hrest.2⟩

theorem readChain (h : Padded p q) :
    Agree Anyhow (After Chain.Same) (Liquid.readChain p) (Liquid.readChain q) := by
  unfold Liquid.readChain
  simp only [h.atEnd]
  split
  · trivial
  · refine h.trimStart.readOperand.bind fun a b _ _ hab => ?_
    exact hab.2.readLinks.bind fun a' b' _ _ hrest => ⟨⟨hab.1, hrest.1⟩, hrest.2⟩

end Padded

/-! ### Filters and values -/

/-- Arguments of the same kind with operands that are read alike. -/
def FilterArg.Same : FilterArg → FilterArg → Prop
  | .positional a, .positional b => a.Same b
  | .keyword key a, .keyword key' b => key = key' ∧ a.Same b
  | _, _ => False

/-- Filters that are read as the same step. -/
def Filter.Same (a b : Filter) : Prop :=
  a.name = b.name ∧ List.Forall₂ FilterArg.Same a.args b.args

/-- Values that are read as the same expression. -/
def Value.Same (a b : Value) : Prop :=
  a.initial.Same b.initial ∧ List.Forall₂ Filter.Same a.filters b.filters

theorem readFilterArgs_eq (p : Piece) :
    readFilterArgs p = readFilterArg p.trimStart >>= fun x =>
      match eat? [','] x.2 with
      | none => .ok ([x.1], x.2.trimStart)
      | some rest => (readFilterArgs rest).map fun y => (x.1 :: y.1, y.2) := by
  cases h : readFilterArg p.trimStart with
  | error =>
    rw [readFilterArgs]
    split <;> simp_all
  | ok x =>
    rw [ok_bind]
    cases hc : eat? [','] x.2 with
    | none => exact readFilterArgs_last h hc
    | some rest => exact readFilterArgs_more h hc

namespace Padded

variable {p q : Piece}

theorem readFilterArg (h : Padded p q) :
    Agree Anyhow (After FilterArg.Same) (Liquid.readFilterArg p) (Liquid.readFilterArg q) := by
  have hpositional : Agree Anyhow (After FilterArg.Same)
      ((Liquid.readOperand p).map fun x => (FilterArg.positional x.1, x.2))
      ((Liquid.readOperand q).map fun x => (FilterArg.positional x.1, x.2)) :=
    h.readOperand.map fun _ _ hab => hab
  rw [readFilterArg_eq, readFilterArg_eq]
  rcases h.readIdentifier.cases with
    ⟨_, _, hp, hq, -⟩ | ⟨⟨key, r⟩, ⟨key', r'⟩, hp, hq, hkey, hpad⟩
  · rw [hp, hq]
    exact hpositional
  · obtain rfl : key = key' := hkey
    rcases hpad.eat? (by decide : ∀ c ∈ [':'], _) with ⟨ha, hb⟩ | ⟨r₂, r₂', ha, hb, hpad'⟩
    · simp only [hp, hq, ha, hb]
      exact hpositional
    · simp only [hp, hq, ha, hb]
      exact hpad'.readOperand.map fun _ _ hab => ⟨⟨rfl, hab.1⟩, hab.2⟩

theorem readFilterArgs (h : Padded p q) :
    Agree Anyhow (After (List.Forall₂ FilterArg.Same)) (Liquid.readFilterArgs p)
      (Liquid.readFilterArgs q) := by
  induction hn : p.text.length using Nat.strong_induction_on generalizing p q with
  | _ n ih =>
    rw [readFilterArgs_eq, readFilterArgs_eq]
    refine h.trimStart.readFilterArg.bind fun x y hx _ hxy => ?_
    rcases hxy.2.eat? (by decide : ∀ c ∈ [','], _) with ⟨ha, hb⟩ | ⟨r, r', ha, hb, hpad⟩
    · rw [ha, hb]
      exact ⟨.cons hxy.1 .nil, hxy.2.trimStart⟩
    · have hlt : r.text.length < n := by
        have h₁ := length_readFilterArg hx
        have h₂ := length_eat? ha
        have h₃ := Piece.length_trimStart_le p
        omega
      rw [ha, hb]
      exact (ih _ hlt hpad rfl).map fun a b hrest => ⟨.cons hxy.1 hrest.1, hrest.2⟩

theorem readFilterTail (h : Padded p q) :
    Agree Anyhow (After (List.Forall₂ FilterArg.Same)) (Liquid.readFilterTail p)
      (Liquid.readFilterTail q) := by
  unfold Liquid.readFilterTail
  rcases h.eat? (by decide : ∀ c ∈ [':'], _) with ⟨ha, hb⟩ | ⟨r, r', ha, hb, hpad⟩
  · rw [ha, hb]
    exact ⟨.nil, h.trimStart⟩
  · rw [ha, hb]
    exact hpad.readFilterArgs

theorem readFilter (h : Padded p q) :
    Agree Anyhow (After Filter.Same) (Liquid.readFilter p) (Liquid.readFilter q) := by
  unfold Liquid.readFilter
  refine h.trimStart.readIdentifier.bind fun a b _ _ hab => ?_
  obtain ⟨name, r⟩ := a
  obtain ⟨name', r'⟩ := b
  obtain ⟨rfl, hpad⟩ := hab
  exact hpad.readFilterTail.bind fun a b _ _ hrest => ⟨⟨rfl, hrest.1⟩, hrest.2⟩

theorem readFilters (h : Padded p q) :
    Agree Anyhow (After (List.Forall₂ Filter.Same)) (Liquid.readFilters p)
      (Liquid.readFilters q) := by
  induction hn : p.text.length using Nat.strong_induction_on generalizing p q with
  | _ n ih =>
    rw [readFilters_eq, readFilters_eq]
    rcases h.eat? (by decide : ∀ c ∈ ['|'], _) with ⟨ha, hb⟩ | ⟨r, r', ha, hb, hpad⟩
    · rw [ha, hb]
      exact ⟨.nil, h.trimStart⟩
    · rw [ha, hb]
      refine hpad.readFilter.bind fun x y hx _ hxy => ?_
      have hlt : x.2.text.length < n := by
        have h₁ := length_eat? ha
        have h₂ := length_readFilter hx
        omega
      exact (ih _ hlt hxy.2 rfl).map fun a b hrest => ⟨.cons hxy.1 hrest.1, hrest.2⟩

theorem readValue (h : Padded p q) :
    Agree Anyhow (After Value.Same) (Liquid.readValue p) (Liquid.readValue q) := by
  unfold Liquid.readValue
  refine h.readChain.bind fun a b _ _ hab => ?_
  exact hab.2.readFilters.bind fun a' b' _ _ hrest => ⟨⟨hab.1, hrest.1⟩, hrest.2⟩

theorem complete (h : Padded p q) {α β : Type} {S : α → β → Prop} {a : α} {b : β} (hab : S a b) :
    Agree Anyhow S (Liquid.complete (a, p)) (Liquid.complete (b, q)) := by
  have hempty : ∀ s : List Char, s.isEmpty = s.head?.isNone := by
    intro s
    cases s <;> rfl
  simp only [Liquid.complete, hempty, h.head?_trimStart]
  split
  · exact hab
  · trivial

theorem parseValue (h : Padded p q) :
    Agree Anyhow Value.Same (Liquid.parseValue p) (Liquid.parseValue q) := by
  unfold Liquid.parseValue
  exact h.readValue.bind fun a b _ _ hab => hab.2.complete hab.1

end Padded

/-! ### Expressions -/

variable {scope : Scope}

theorem Compares.of_same {o o' : Operand} {ls ls' : List Link} {e : Expr}
    (h : Compares scope o' ls' e) (ho : o.Same o') (hls : List.Forall₂ Link.Same ls ls') :
    Compares scope o ls e := by
  induction h generalizing o ls with
  | single o' =>
    cases hls
    rw [← ho scope]
    exact .single o
  | cons o' hl _ ih =>
    cases hls with
    | cons hlink hrest =>
      rw [← ho scope, ← hlink.1]
      exact .cons o (hlink.1 ▸ hl) (ih hlink.2 hrest)

theorem Groups.of_same {o o' : Operand} {ls ls' : List Link} {e : Expr}
    (h : Groups scope o' ls' e) (ho : o.Same o') (hls : List.Forall₂ Link.Same ls ls') :
    Groups scope o ls e := by
  induction h generalizing o ls with
  | compares h => exact .compares (h.of_same ho hls)
  | @logical o' ls₁ ls₂ l _ _ h hl _ ih =>
    have hfirst := List.forall₂_take_append ls ls₁ (l :: ls₂) hls
    have hsecond := List.forall₂_drop_append ls ls₁ (l :: ls₂) hls
    rw [← List.take_append_drop ls₁.length ls]
    cases hd : ls.drop ls₁.length with
    | nil =>
      rw [hd] at hsecond
      cases hsecond
    | cons l' ls' =>
      rw [hd] at hsecond
      cases hsecond with
      | cons hlink hrest =>
        rw [← hlink.1]
        exact .logical (h.of_same ho hfirst) (hlink.1 ▸ hl) (ih hlink.2 hrest)

theorem Chain.Same.toExpr_eq {c c' : Chain} (h : c.Same c') (scope : Scope) :
    c.toExpr scope = c'.toExpr scope := by
  obtain ⟨e, he⟩ := exists_groups scope c'.first c'.links
  rw [show c'.toExpr scope = e from he.toExpr_eq]
  exact (he.of_same h.1 h.2).toExpr_eq

theorem Filter.Same.toArgs_eq {f f' : Filter} (h : f.Same f') (scope : Scope) :
    f.toArgs scope = f'.toArgs scope := by
  obtain ⟨name, args, span⟩ := f
  obtain ⟨name', args', span'⟩ := f'
  obtain ⟨rfl, hargs⟩ : name = name' ∧ List.Forall₂ FilterArg.Same args args' := h
  simp only [Filter.toArgs, FilterArgs.mk.injEq, true_and]
  induction hargs with
  | nil => exact ⟨rfl, rfl⟩
  | @cons a b _ _ hab _ ih =>
    cases a with
    | positional a => cases b with
      | positional b => exact ⟨by simp only [List.filterMap_cons, hab scope, ih.1], ih.2⟩
      | keyword => exact hab.elim
    | keyword key a => cases b with
      | positional => exact hab.elim
      | keyword key' b =>
        obtain ⟨rfl, hab⟩ := hab
        exact ⟨ih.1, by simp only [List.filterMap_cons, hab scope, ih.2]⟩

theorem Filter.Same.toStep {f f' : Filter} (h : f.Same f') (scope : Scope) :
    Agree Anyhow Eq (f.toStep scope) (f'.toStep scope) := by
  refine .of_ok_iff fun s => ?_
  rw [Filter.toStep_eq_ok_iff, Filter.toStep_eq_ok_iff, h.toArgs_eq scope, h.1]

theorem agree_applyFilters {fs fs' : List Filter} (h : List.Forall₂ Filter.Same fs fs')
    (scope : Scope) (e : Expr) :
    Agree Anyhow Eq (applyFilters scope e fs) (applyFilters scope e fs') := by
  induction h generalizing e with
  | nil => rfl
  | cons hf _ ih =>
    refine (hf.toStep scope).bind fun step step' _ _ hstep => ?_
    subst hstep
    exact ih _

/-- Values that are read alike are read as the same expression, or as none. -/
theorem Value.Same.toExpr {v v' : Value} (h : v.Same v') (scope : Scope) :
    Agree Anyhow Eq (v.toExpr scope) (v'.toExpr scope) := by
  unfold Value.toExpr
  rw [h.1.toExpr_eq scope]
  exact agree_applyFilters h.2 scope _

/-! ### Values of a whole piece -/

theorem parseValue_trimStart (p : Piece) : parseValue p.trimStart = parseValue p := by
  simp only [parseValue, readValue, readChain, Piece.trimStart_trimStart]

theorem padded_trim (start : Nat) (p : Piece) : Padded ⟨start, Text.trim p.text⟩ p.trimStart := by
  refine ⟨((Text.trimStart p.text).reverse.takeWhile Text.isBlank).reverse, fun c hc => ?_, ?_⟩
  · exact List.mem_takeWhile_imp (List.mem_reverse.mp hc)
  · rw [Piece.text_trimStart, Text.trim, Text.trimEnd, ← List.reverse_append,
      List.takeWhile_append_dropWhile, List.reverse_reverse]

/-- The blanks around a value play no part in the expression that it is read as. -/
theorem agree_trim (start : Nat) (p : Piece) (scope : Scope) :
    Agree Anyhow Eq (parseValue ⟨start, Text.trim p.text⟩ >>= Value.toExpr scope)
      (parseValue p >>= Value.toExpr scope) := by
  rw [← parseValue_trimStart p]
  exact (padded_trim start p).parseValue.bind fun _ _ _ _ h => h.toExpr scope

end Stencil.Liquid
