/-!
# Whitespace control

A delimiter pair can carry a marker on either side that removes the blanks next to it.
-/

namespace Stencil

/-- The whitespace-control markers of a delimiter pair. -/
structure Trim where
  /-- The marker of the opening delimiter. -/
  left : Bool := false
  /-- The marker of the closing delimiter. -/
  right : Bool := false
deriving DecidableEq, Repr

namespace Trim

/-- No markers. -/
def unset : Trim := {}

/-- Neither marker is set. -/
def isUnset (t : Trim) : Bool :=
  !t.left && !t.right

theorem eq_unset_of_isUnset {t : Trim} (h : t.isUnset) : t = unset := by
  cases t with
  | mk left right => cases left <;> cases right <;> simp_all [isUnset, unset]

end Trim

end Stencil
