import Stencil.Markup

/-!
# Writing templates

A template is written node by node, and the nodes of a block are written before the block itself.
All that differs between languages is what they make of a single node, and that is in a value of
type `Dialect`.
-/

namespace Stencil

open Markup (Written)

/-- How a language writes nodes, given the written nodes inside them. -/
structure Dialect where
  /-- An output. -/
  output : Expr → Trim → Written
  /-- A conditional. -/
  conditional : Variant → List (Branch Written) → (trim endTrim : Trim) → Written
  /-- A loop. -/
  loop : (name : String) → Expr → Written → Option Written → (trim elseTrim endTrim : Trim) →
    Written
  /-- An assignment. -/
  assignment : (target : String) → Option Expr → Option Written → (trim endTrim : Trim) → Written
  /-- A comment. -/
  comment : (content : String) → (trim endTrim : Trim) → Written
  /-- A subtemplate. -/
  subtemplate : Expr → (ignoreMissing : Bool) → Trim → Written
  /-- A tag that is passed on. -/
  tag : (name args : String) → Trim → Written

namespace Dialect

variable (d : Dialect)

mutual

/-- The text of a node. -/
def writeNode : Node → Written
  | .text content => .ok content
  | .output e trim => d.output e trim
  | .conditional kind branches trim endTrim =>
      d.conditional kind (writeBranches branches) trim endTrim
  | .loop name collection children elseChildren trim elseTrim endTrim =>
      d.loop name collection (write children) (writeOption elseChildren) trim elseTrim endTrim
  | .assignment target e children trim endTrim =>
      d.assignment target e (writeOption children) trim endTrim
  | .comment content trim endTrim => d.comment content trim endTrim
  | .raw content trim endTrim => .ok (Markup.block "raw" content "endraw" trim endTrim)
  | .subtemplate template ignoreMissing trim => d.subtemplate template ignoreMissing trim
  | .tag name args _ trim => d.tag name args trim

/-- The text of a list of nodes. -/
def write : List Node → Written
  | [] => .ok ""
  | n :: ns => do
    let first ← writeNode n
    let rest ← write ns
    return first ++ rest

/-- The text of an optional list of nodes. -/
def writeOption : Option (List Node) → Option Written
  | none => none
  | some ns => some (write ns)

/-- The branches of a conditional with their bodies written. -/
def writeBranches : List (Branch (List Node)) → List (Branch Written)
  | [] => []
  | ⟨condition, body, trim⟩ :: bs => ⟨condition, write body, trim⟩ :: writeBranches bs

end

theorem writeOption_eq_map (ns : Option (List Node)) : d.writeOption ns = ns.map d.write := by
  cases ns <;> simp [writeOption]

theorem writeBranches_eq_map : (bs : List (Branch (List Node))) →
    d.writeBranches bs = bs.map (Branch.map d.write)
  | [] => by simp [writeBranches]
  | ⟨_, _, _⟩ :: bs => by simp [writeBranches, Branch.map, writeBranches_eq_map bs]

end Dialect

end Stencil
