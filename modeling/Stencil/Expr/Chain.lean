import Stencil.Error

/-!
# The words of access chains

Both languages write a chain as a root followed by names after dots and subscripts in brackets, and
differ in the words for the null value, the blank value and the loop object. The two properties of
the loop object that count down have a name of their own in either language, which reading turns
into a neutral one and writing turns back.
-/

namespace Stencil

/-- The words that a language writes access chains with. -/
structure ChainWords where
  /-- The null value. -/
  null : String
  /-- The blank value. -/
  blank : String
  /-- The loop object. -/
  loopVar : String
  /-- The loop property that counts down to one. -/
  revindex : String
  /-- The loop property that counts down to zero. -/
  revindex0 : String

namespace ChainWords

variable (w : ChainWords)

/-- The name of a property of the loop object. -/
def loopProperty (name : String) : String :=
  if name = loopRevindex then w.revindex
  else if name = loopRevindex0 then w.revindex0
  else name

/-- The neutral name of a property of the loop object. -/
def neutralProperty (name : String) : String :=
  if name = w.revindex then loopRevindex
  else if name = w.revindex0 then loopRevindex0
  else name

/-- The first part of a chain. -/
def writeRoot : Part → Except WriteError String
  | .ident name => .ok name
  | .literal text => .ok text
  | .null => .ok w.null
  | .blank => .ok w.blank
  | .loopVar => .ok w.loopVar
  | .index value => .error (.malformed (.misplacedPart (.index value) 0))

/-- A further part of a chain; `ofLoop` holds right after the loop object. -/
def writeAccess (ofLoop : Bool) (position : Nat) : Part → Except WriteError String
  | .ident name => .ok ("." ++ if ofLoop then w.loopProperty name else name)
  | .literal text => .ok ("[" ++ text ++ "]")
  | .index value => .ok ("[" ++ toString value.toInt ++ "]")
  | part => .error (.malformed (.misplacedPart part position))

/-- The further parts of a chain. -/
def writeAccesses (ofLoop : Bool) (position : Nat) : List Part → Except WriteError String
  | [] => .ok ""
  | part :: parts => do
    let first ← w.writeAccess ofLoop position part
    let rest ← writeAccesses false (position + 1) parts
    return first ++ rest

/-- The text of a chain. -/
def write : List Part → Except WriteError String
  | [] => .ok ""
  | root :: parts => do
    let first ← w.writeRoot root
    let rest ← w.writeAccesses (root == .loopVar) 1 parts
    return first ++ rest

end ChainWords

end Stencil
