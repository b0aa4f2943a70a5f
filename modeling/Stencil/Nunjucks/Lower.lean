import Stencil.Error
import Stencil.Node
import Stencil.Text.Blank
import Stencil.Text.Literal
import Stencil.Text.Search

/-!
# Conditionals as chains of conditions

Nunjucks has a single kind of conditional. The opposite choice becomes a chain whose first condition
is negated. A case distinction becomes a chain that compares its subject with one value after the
other, and its opening tag becomes one with the tag of its first value; with an alternative only,
that is all that is left of it.

The bodies of the branches play no part in this, so they are of any type.
-/

namespace Stencil.Nunjucks

variable {β : Type}

/-- What a conditional becomes. -/
inductive Lowered (β : Type) where
  /-- A chain of conditions, with the markers of its first tag. -/
  | chain (trim : Trim) (branches : List (Branch β))
  /-- A body that is always rendered. -/
  | always (body : β)
  /-- Nothing. -/
  | nothing

/-- The branches with the first condition negated. -/
def negateFirst : List (Branch β) → List (Branch β)
  | ⟨some condition, body, trim⟩ :: rest => ⟨some condition.negate, body, trim⟩ :: rest
  | branches => branches

/-- The rest of a text lists several values: it has a comma, or the word `or` between blanks,
outside quotes. -/
def listsValues (quote : Option Char) (previous : Char) : List Char → Bool
  | [] => false
  | c :: cs =>
    match quote with
    | some q => listsValues (if c == q then none else some q) c cs
    | none =>
      if Text.isQuote c then listsValues (some c) c cs
      else
        c == ',' || (Text.isBlank previous && Text.startsWith "or ".toList (c :: cs)) ||
          listsValues none c cs

/-- A text lists several values. -/
def isValueList (text : String) : Bool :=
  listsValues none ' ' text.toList

/-- The refusal of a clause with several values. -/
def multiValueError (language : String) : WriteError :=
  (WriteError.lacks language .multiValueWhen).withHint "Split the clause into one 'when' per value"

/-- The arms of a case distinction as arms of a chain. -/
def caseArms (language : String) (subject : Expr) :
    List (Branch β) → Except WriteError (List (Branch β))
  | [] => .ok []
  | ⟨none, body, trim⟩ :: arms => do
    let rest ← caseArms language subject arms
    return ⟨none, body, trim⟩ :: rest
  | ⟨some value, body, trim⟩ :: arms =>
    if value.literal?.any isValueList then .error (multiValueError language)
    else do
      let rest ← caseArms language subject arms
      return ⟨some (subject.apply .equal value), body, trim⟩ :: rest

/-- What the arms of a case distinction become. -/
def ofCaseArms (trim : Trim) : List (Branch β) → Lowered β
  | [] => .nothing
  | ⟨none, body, _⟩ :: _ => .always body
  | ⟨some condition, body, first⟩ :: rest =>
      .chain ⟨trim.left, first.right⟩ (⟨some condition, body, first⟩ :: rest)

/-- What a case distinction becomes. -/
def lowerCase (language : String) (trim : Trim) :
    List (Branch β) → Except WriteError (Lowered β)
  | [] => .ok .nothing
  | ⟨none, _, _⟩ :: _ => .error (.malformed .missingSubject)
  | ⟨some subject, _, _⟩ :: arms => (caseArms language subject arms).map (ofCaseArms trim)

/-- What a conditional becomes. -/
def lower (language : String) (trim : Trim) (branches : List (Branch β)) :
    Variant → Except WriteError (Lowered β)
  | .ifTrue => .ok (.chain trim branches)
  | .ifFalse => .ok (.chain trim (negateFirst branches))
  | .caseOf => lowerCase language trim branches

end Stencil.Nunjucks
