/-!
# Scope

Whether an expression stands in the body of a loop decides what the name of the loop object means.
-/

namespace Stencil

/-- Where an expression stands. -/
structure Scope where
  /-- In the body of a loop. -/
  inLoop : Bool := false
deriving DecidableEq, Repr

/-- The scope of the body of a loop. -/
def Scope.loopBody : Scope := ⟨true⟩

end Stencil
