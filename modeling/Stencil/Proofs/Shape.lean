import Stencil.Dialect

/-!
# Shapes of templates

A template can be read back from a source only if it has the shape that reading gives. The shapes
here are common to both languages, apart from the names that a language can read.
-/

namespace Stencil

/-- The first node is text. -/
def startsWithText : List Node → Bool
  | .text _ :: _ => true
  | _ => false

variable (isName : String → Bool)

/-- An expression that is a name of the given kind. -/
def isNameExpr : Expr → Bool
  | ⟨[.ident name], []⟩ => isName name
  | _ => false

/-- The arms of a conditional after the first one: their conditions are names of the given kind, and
only the last one can have none. -/
def isArmList : List (Branch (List Node)) → Bool
  | [] => true
  | ⟨some condition, _, _⟩ :: arms => isNameExpr isName condition && isArmList arms
  | [⟨none, _, _⟩] => true
  | ⟨none, _, _⟩ :: _ :: _ => false

variable {isName}

theorem exists_of_isNameExpr {e : Expr} (h : isNameExpr isName e) :
    ∃ name, isName name ∧ e = .ident name := by
  unfold isNameExpr at h
  split at h
  · next name => exact ⟨name, h, rfl⟩
  · cases h

theorem eq_nil_of_isArmList {body : List Node} {trim : Trim} {arms : List (Branch (List Node))}
    (h : isArmList isName (⟨none, body, trim⟩ :: arms)) : arms = [] := by
  cases arms with
  | nil => rfl
  | cons => cases h

/-! ### Nodes inside nodes -/

namespace Node

mutual

/-- The nodes inside a node, in the order in which they are written. -/
def inner : Node → List Node
  | .conditional _ branches _ _ => nestedBranches branches
  | .loop _ _ children otherwise _ _ _ => nested children ++ nestedOption otherwise
  | .assignment _ _ children _ _ => nestedOption children
  | .tag _ _ children _ => nested children
  | .text _ | .output .. | .comment .. | .raw .. | .subtemplate .. => []

/-- The nodes of a template and those inside them, in the order in which they are written. -/
def nested : List Node → List Node
  | [] => []
  | n :: ns => n :: inner n ++ nested ns

/-- The nodes of a template, if there is one. -/
def nestedOption : Option (List Node) → List Node
  | none => []
  | some ns => nested ns

/-- The nodes of the branches of a conditional. -/
def nestedBranches : List (Branch (List Node)) → List Node
  | [] => []
  | ⟨_, body, _⟩ :: bs => nested body ++ nestedBranches bs

end

theorem forall_mem_nested_cons {P : Node → Prop} {n : Node} {ns : List Node} :
    (∀ m ∈ nested (n :: ns), P m) ↔ P n ∧ (∀ m ∈ inner n, P m) ∧ ∀ m ∈ nested ns, P m := by
  rw [nested, List.cons_append, List.forall_mem_cons, List.forall_mem_append]

theorem forall_mem_nestedBranches_cons {P : Node → Prop} {b : Branch (List Node)}
    {bs : List (Branch (List Node))} : (∀ m ∈ nestedBranches (b :: bs), P m) ↔
      (∀ m ∈ nested b.body, P m) ∧ ∀ m ∈ nestedBranches bs, P m := by
  rw [nestedBranches, List.forall_mem_append]

/-- The alternative of a loop as an arm. -/
theorem nestedBranches_otherwise (otherwise : Option (List Node)) (trim : Trim) :
    nestedBranches (otherwise.toList.map fun nodes => ⟨none, nodes, trim⟩) =
      nestedOption otherwise := by
  cases otherwise with
  | none => simp [nestedBranches, nestedOption]
  | some nodes => simp [nestedBranches, nestedOption]

end Node

/-! ### Written templates -/

/-- Templates that are put together are written one after the other. -/
theorem Dialect.write_append (d : Dialect) (ns ms : List Node) :
    d.write (ns ++ ms) = (do
      let first ← d.write ns
      let rest ← d.write ms
      return first ++ rest) := by
  induction ns with
  | nil =>
    rw [List.nil_append, write.eq_1]
    cases d.write ms <;> simp [bind, Except.bind, pure, Except.pure]
  | cons n ns ih =>
    rw [List.cons_append, write, write, ih]
    cases d.writeNode n with
    | error => rfl
    | ok first =>
      cases d.write ns with
      | error => rfl
      | ok rest =>
        cases d.write ms with
        | error => rfl
        | ok more => simp [bind, Except.bind, pure, Except.pure, String.append_assoc]

/-- The alternative of a loop is written like that of a conditional. -/
theorem Dialect.arms_otherwise (d : Dialect) (text : Expr → Markup.Written) (subsequent : String)
    (otherwise : Option (List Node)) (elseTrim : Trim) :
    Markup.arms text subsequent (d.writeBranches
        (otherwise.toList.map fun nodes => ⟨none, nodes, elseTrim⟩)) =
      Markup.loopElse elseTrim (d.writeOption otherwise) := by
  cases otherwise with
  | none => rfl
  | some nodes =>
    rw [Option.toList_some, List.map_singleton, writeBranches, writeBranches, writeOption,
      Markup.arms, Markup.arms, Markup.loopElse]
    cases d.write nodes with
    | error => rfl
    | ok body => simp [bind, Except.bind, Except.map, pure, Except.pure]

end Stencil
