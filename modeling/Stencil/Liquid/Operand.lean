import Stencil.Error
import Stencil.Source
import Stencil.Text.Integer
import Stencil.Text.Literal

/-!
# Liquid operands

The smallest values of a Liquid expression: quoted strings, numbers, keywords, and properties with
their dots and brackets. Every operand keeps the piece of source that it was read from.

A reading function takes the source that is left and gives back what it has read together with what
is then left. Each of them comes with the statement that the source gets shorter, on which the loops
rest.

## Main definitions

* `Liquid.Operand` : an operand.
* `Liquid.readOperand` : the operand at the start of a piece of source.

## Main results

* `Liquid.length_readOperand` : reading an operand leaves less of the source.
-/

namespace Stencil.Liquid

/-- A word that stands for a value. -/
inductive Keyword where
  | true
  | false
  | nil
  | null
  | empty
  | blank
deriving DecidableEq, Repr

/-- The spelling of a keyword. -/
def Keyword.text : Keyword → String
  | true => "true"
  | false => "false"
  | nil => "nil"
  | null => "null"
  | empty => "empty"
  | blank => "blank"

/-- The keyword with a given spelling. -/
def Keyword.ofText? : String → Option Keyword
  | "true" => some true
  | "false" => some false
  | "nil" => some nil
  | "null" => some null
  | "empty" => some empty
  | "blank" => some blank
  | _ => none

/-- A step from a value to one of its properties. -/
inductive Access where
  /-- A name after a dot. -/
  | name (name : String)
  /-- An integer in brackets. -/
  | index (value : Int64)
  /-- A quoted string in brackets, its quotes included. -/
  | key (quoted : Piece)
deriving DecidableEq, Repr

/-- The text between the quotes of a quoted string. -/
def unquoteKey (quoted : Piece) : List Char :=
  quoted.text.tail.dropLast

/-- An operand. -/
inductive Operand where
  /-- A quoted string, its quotes included. -/
  | quoted (text : Piece)
  /-- A number. -/
  | number (text : Piece)
  /-- A keyword. -/
  | keyword (word : Keyword) (text : Piece)
  /-- A variable and the properties taken of it. -/
  | property (root : String) (accesses : List Access) (text : Piece)
deriving DecidableEq, Repr

/-- The piece of source that an operand was read from. -/
def Operand.text : Operand → Piece
  | quoted text | number text | keyword _ text | property _ _ text => text

/-! ### Characters and words -/

/-- A character that can go on with an identifier. -/
def isIdentChar (c : Char) : Bool :=
  Text.isNameChar c || c == '-'

/-- The error at the start of a piece that nothing can be read from. -/
def unexpected (p : Piece) : ReadError :=
  match p.text with
  | c :: _ => .badSyntax p.start (.unexpectedInExpression c)
  | [] => .badSyntax p.start .endOfExpression

/-- The source after some punctuation and the blanks before it. -/
def eat? (token : List Char) (p : Piece) : Option Piece :=
  p.trimStart.strip? token

/-- The source after a word and the blanks before it. -/
def eatWord? (word : List Char) (p : Piece) : Option Piece :=
  (eat? word p).filter fun rest =>
    match rest.text with
    | c :: _ => !isIdentChar c
    | [] => true

/-- The piece of `p` that was read when `rest` is left. -/
def upTo (p rest : Piece) : Piece :=
  p.take (p.text.length - rest.text.length)

/-- The quoted string at the start of a piece, its quotes included, and the source after it. -/
def readQuoted (p : Piece) : Except ReadError (Piece × Piece) :=
  match p.text with
  | [] => .error (.badSyntax p.start .unterminatedString)
  | quote :: cs =>
    match Text.quotedRest quote cs with
    | none => .error (.badSyntax p.start .unterminatedString)
    | some (body, rest) =>
      let text : Piece := ⟨p.start, quote :: body⟩
      .ok (text, ⟨text.stop, rest⟩)

/-- The number at the start of a text: a sign, digits, and at most one fraction. -/
def numberText (cs : List Char) : List Char :=
  let sign := cs.take (if cs.head? == some '-' then 1 else 0)
  let digits := (cs.drop sign.length).takeWhile Text.isDigit
  sign ++ digits ++ Text.fraction (cs.drop (sign.length + digits.length))

/-- The number at the start of a piece, and the source after it. -/
def readNumber (p : Piece) : Piece × Piece :=
  let n := (numberText p.text).length
  (p.take n, p.drop n)

/-- A number starts here: a digit, or a minus sign and a digit. -/
def startsNumber : List Char → Bool
  | '-' :: c :: _ => Text.isDigit c
  | c :: _ => Text.isDigit c
  | [] => false

/-- The identifier at the start of a text. It may end with a question mark. -/
def identifierText : List Char → List Char
  | [] => []
  | c :: cs =>
    if Text.isNameStart c then
      let name := c :: cs.takeWhile isIdentChar
      if (cs.dropWhile isIdentChar).head? == some '?' then name ++ ['?'] else name
    else []

/-- The identifier at the start of a piece, and the source after it. -/
def readIdentifier (p : Piece) : Except ReadError (String × Piece) :=
  let name := identifierText p.text
  if name.isEmpty then .error (unexpected p)
  else .ok (String.ofList name, p.drop name.length)

/-! ### Properties -/

/-- What stands between brackets, and the source after it. -/
def readSubscript (p : Piece) : Except ReadError (Access × Piece) :=
  match p.text with
  | [] => .error (.unsupported (.dynamicIndex p.start))
  | c :: _ =>
    if Text.isQuote c then
      (readQuoted p).map fun (text, rest) => (.key text, rest)
    else if Text.isDigit c || c == '-' then
      let (text, rest) := readNumber p
      match Text.int64? text.text with
      | some n => .ok (.index n, rest)
      | none => .error (.badSyntax text.start (.invalidIndex text.toString))
    else .error (.unsupported (.dynamicIndex p.start))

/-- The access at the start of a piece, if there is one, and the source after it. -/
def readAccess (p : Piece) : Except ReadError (Option (Access × Piece)) :=
  match p.text with
  | '.' :: _ => do
    let (name, rest) ← readIdentifier (p.drop 1)
    return some (.name name, rest)
  | '[' :: _ => do
    let (access, rest) ← readSubscript (p.drop 1).trimStart
    match eat? [']'] rest with
    | some rest => return some (access, rest)
    | none => throw (unexpected rest.trimStart)
  | _ => .ok none

/-! ### The source gets shorter -/

theorem length_eat? {token : List Char} {p rest : Piece} (h : eat? token p = some rest) :
    token.length + rest.text.length ≤ p.text.length :=
  Piece.length_of_strip? h ▸ Piece.length_dropWhile_le Text.isBlank p

theorem length_eatWord? {word : List Char} {p rest : Piece} (h : eatWord? word p = some rest) :
    word.length + rest.text.length ≤ p.text.length :=
  length_eat? (Option.filter_eq_some_iff.mp h).1

/-- A string is read from the character it starts with up to where that closes it. -/
theorem exists_of_readQuoted {p text rest : Piece} (h : readQuoted p = .ok (text, rest)) :
    ∃ quote cs body, p.text = quote :: cs ∧ Text.quotedRest quote cs = some (body, rest.text) ∧
      text = ⟨p.start, quote :: body⟩ ∧ rest.start = text.stop := by
  unfold readQuoted at h
  split at h
  · cases h
  · next quote cs hp =>
    split at h
    · cases h
    · next body r hrest =>
      cases h
      exact ⟨quote, cs, body, hp, hrest, rfl, rfl⟩

theorem length_readQuoted {p text rest : Piece} (h : readQuoted p = .ok (text, rest)) :
    rest.text.length < p.text.length := by
  obtain ⟨quote, cs, body, hp, hrest, -, -⟩ := exists_of_readQuoted h
  rw [hp, Text.quotedRest_append hrest, List.length_cons, List.length_append]
  omega

theorem length_drop_le (p : Piece) (n : Nat) : (p.drop n).text.length ≤ p.text.length := by
  simp [Piece.drop]

theorem length_drop_lt {p : Piece} {n : Nat} (hn : 0 < n) (hp : p.text ≠ []) :
    (p.drop n).text.length < p.text.length := by
  have : 0 < p.text.length := List.length_pos_iff.mpr hp
  simp only [Piece.drop, List.length_drop]
  omega

theorem length_readIdentifier {p rest : Piece} {name : String}
    (h : readIdentifier p = .ok (name, rest)) : rest.text.length < p.text.length := by
  unfold readIdentifier at h
  simp only at h
  split at h
  · simp at h
  · rename_i hn
    simp only [Except.ok.injEq, Prod.mk.injEq] at h
    have hp : p.text ≠ [] := fun hp => hn (by simp [hp, identifierText])
    have hl : 0 < (identifierText p.text).length :=
      List.length_pos_iff.mpr fun he => hn (by simp [he])
    exact h.2 ▸ length_drop_lt hl hp

theorem length_readSubscript {p rest : Piece} {access : Access}
    (h : readSubscript p = .ok (access, rest)) : rest.text.length ≤ p.text.length := by
  unfold readSubscript at h
  split at h
  · simp at h
  · split at h
    · obtain ⟨⟨text, r⟩, hq, he⟩ := map_eq_ok.mp h
      simp only [Prod.mk.injEq] at he
      exact he.2 ▸ Nat.le_of_lt (length_readQuoted hq)
    · split at h
      · simp only at h
        split at h
        · simp only [Except.ok.injEq, Prod.mk.injEq] at h
          exact h.2 ▸ length_drop_le p _
        · simp at h
      · simp at h

theorem length_readAccess {p rest : Piece} {access : Access}
    (h : readAccess p = .ok (some (access, rest))) : rest.text.length < p.text.length := by
  unfold readAccess at h
  split at h
  · obtain ⟨⟨name, r⟩, hr, he⟩ := bind_eq_ok.mp h
    simp only [pure, Except.pure, Except.ok.injEq, Option.some.injEq, Prod.mk.injEq] at he
    exact he.2 ▸ Nat.lt_of_lt_of_le (length_readIdentifier hr) (length_drop_le p 1)
  · obtain ⟨⟨a, r⟩, hr, he⟩ := bind_eq_ok.mp h
    simp only at he
    split at he
    · rename_i r' hr'
      simp only [pure, Except.pure, Except.ok.injEq, Option.some.injEq, Prod.mk.injEq] at he
      have h₁ := length_eat? hr'
      have h₂ := length_readSubscript hr
      have h₃ := Piece.length_dropWhile_le Text.isBlank (p.drop 1)
      have h₄ := length_drop_le p 1
      simp only [Piece.trimStart, List.length_singleton] at h₁ h₂ h₃
      simp only [← he.2]
      omega
    · simp [throw, throwThe, MonadExceptOf.throw] at he
  · simp at h

/-! ### Operands -/

/-- All accesses at the start of a piece, and the source after them. -/
def readAccesses (p : Piece) : Except ReadError (List Access × Piece) :=
  match _h : readAccess p with
  | .error e => .error e
  | .ok none => .ok ([], p)
  | .ok (some (access, rest)) =>
    match readAccesses rest with
    | .error e => .error e
    | .ok (accesses, rest) => .ok (access :: accesses, rest)
termination_by p.text.length
decreasing_by exact length_readAccess _h

/-- The value of a variable, its properties read: a keyword, if there are none and it is one. -/
def Operand.ofProperty (root : String) (accesses : List Access) (text : Piece) :
    Except ReadError Operand :=
  match accesses with
  | [] =>
    match Keyword.ofText? root with
    | some word => .ok (.keyword word text)
    | none =>
      if root == "not" then .error (.unsupported (.notOperator text.start))
      else .ok (.property root [] text)
  | _ => .ok (.property root accesses text)

/-- The property at the start of a piece, and the source after it. -/
def readProperty (p : Piece) : Except ReadError (Operand × Piece) := do
  let (root, rest) ← readIdentifier p
  let (accesses, rest) ← readAccesses rest
  let operand ← Operand.ofProperty root accesses (upTo p rest)
  return (operand, rest)

/-- The operand that a piece without leading blanks begins with, and the source after it. -/
def operandAt (p : Piece) : Except ReadError (Operand × Piece) :=
  match p.text with
  | [] => .error (unexpected p)
  | c :: _ =>
    if Text.isQuote c then
      (readQuoted p).map fun (text, rest) => (.quoted text, rest)
    else if startsNumber p.text then
      let (text, rest) := readNumber p
      .ok (.number text, rest)
    else if c == '(' then .error (.unsupported (.rangeLiteral p.start))
    else if Text.isNameStart c then readProperty p
    else .error (unexpected p)

/-- The operand at the start of a piece after its blanks, and the source after it. -/
def readOperand (p : Piece) : Except ReadError (Operand × Piece) :=
  operandAt p.trimStart

theorem length_readAccesses {p rest : Piece} {accesses : List Access}
    (h : readAccesses p = .ok (accesses, rest)) : rest.text.length ≤ p.text.length := by
  fun_induction readAccesses p generalizing accesses rest with
  | case1 => simp at h
  | case2 => simp_all
  | case3 => simp at h
  | case4 p access r hr accesses' r' hr' ih =>
      simp only [Except.ok.injEq, Prod.mk.injEq] at h
      have h₁ := length_readAccess hr
      have h₂ := ih hr'
      simp only [← h.2]
      omega

theorem length_readProperty {p rest : Piece} {operand : Operand}
    (h : readProperty p = .ok (operand, rest)) : rest.text.length < p.text.length := by
  obtain ⟨⟨root, r₁⟩, h₁, h⟩ := bind_eq_ok.mp h
  obtain ⟨⟨accesses, r₂⟩, h₂, h⟩ := bind_eq_ok.mp h
  obtain ⟨o, -, h⟩ := bind_eq_ok.mp h
  simp only [pure, Except.pure, Except.ok.injEq, Prod.mk.injEq] at h
  exact h.2 ▸ Nat.lt_of_le_of_lt (length_readAccesses h₂) (length_readIdentifier h₁)

theorem numberText_ne_nil {cs : List Char} (h : startsNumber cs) : numberText cs ≠ [] := by
  unfold startsNumber at h
  split at h
  · simp [numberText]
  · rename_i c cs _
    by_cases hc : c = '-'
    · simp [numberText, hc]
    · simp [numberText, hc, h]
  · simp at h

theorem length_operandAt {p rest : Piece} {operand : Operand}
    (h : operandAt p = .ok (operand, rest)) : rest.text.length < p.text.length := by
  unfold operandAt at h
  split at h
  · simp at h
  · rename_i c cs hp
    split at h
    · obtain ⟨⟨text, r⟩, hq, he⟩ := map_eq_ok.mp h
      simp only [Prod.mk.injEq] at he
      exact he.2 ▸ length_readQuoted hq
    · split at h
      · rename_i hn
        simp only [readNumber, Except.ok.injEq, Prod.mk.injEq] at h
        have hl := List.length_pos_iff.mpr (numberText_ne_nil hn)
        exact h.2 ▸ length_drop_lt hl (by simp [hp])
      · split at h
        · simp at h
        · split at h
          · exact length_readProperty h
          · simp at h

/-- Reading an operand leaves less of the source. -/
theorem length_readOperand {p rest : Piece} {operand : Operand}
    (h : readOperand p = .ok (operand, rest)) : rest.text.length < p.text.length :=
  Nat.lt_of_lt_of_le (length_operandAt h) (Piece.length_dropWhile_le Text.isBlank p)

end Stencil.Liquid
