import Stencil.Error

/-!
# Arguments of filters

The arguments of a filter are known by their place or by their name. A name wins over a place.
-/

namespace Stencil

/-- The arguments of a filter by place and by name. -/
structure FilterArgs where
  /-- The name of the filter. -/
  filter : String
  /-- The arguments known by their place. -/
  positional : List Expr
  /-- The arguments known by their name. -/
  keywords : List (String × Expr)

namespace FilterArgs

/-- The argument called `key`, or else the one at place `index`. -/
def get? (a : FilterArgs) (index : Nat) (key : String) : Option Expr :=
  (a.keywords.lookup key).or a.positional[index]?

/-- An argument that has to be there; `missing` is the error for one that is not. -/
def require (a : FilterArgs) (missing : String → ReadError) (index : Nat) (key : String) :
    Except ReadError Expr :=
  match a.get? index key with
  | some e => .ok e
  | none => .error (missing key)

/-- The arguments, if none of them is known by its name. -/
def positionalOnly (a : FilterArgs) : Except ReadError (List Expr) :=
  match a.keywords with
  | [] => .ok a.positional
  | (key, _) :: _ => .error (.unsupported (.keywordArgument key a.filter))

theorem require_eq_ok_iff {a : FilterArgs} {missing : String → ReadError} {index : Nat}
    {key : String}
    {e : Expr} : a.require missing index key = .ok e ↔ a.get? index key = some e := by
  unfold require
  cases a.get? index key <;> simp

theorem positionalOnly_eq_ok_iff {a : FilterArgs} {es : List Expr} :
    a.positionalOnly = .ok es ↔ a.keywords = [] ∧ a.positional = es := by
  unfold positionalOnly
  cases a.keywords <;> simp

end FilterArgs

end Stencil
