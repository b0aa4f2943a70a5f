import Stencil.Proofs.Text.Word
import Stencil.Proofs.WellFormed

/-!
# References to the loop object

A template refers to the loop object where a chain is rooted in it. What is written in a language
can come to mean the loop object as well, since it is known there by a word, which may also stand in
names, literals and filters that are written as they are. So it matters whether the word does.
-/

namespace Stencil

open Text (ClearOf LacksWord)

variable {w : List Char} {scope : Scope}

/-! ### Expressions -/

/-- The part of a chain, as far as it is written as it stands, does not have the word. -/
def Part.Avoids (w : List Char) : Part → Prop
  | .ident name => ClearOf w name.toList
  | .literal text => ClearOf w text.toList
  | .index _ | .null | .blank | .loopVar => True

/-- The filter, if it is passed on under its own name, does not have the word. -/
def Step.Avoids {ε : Type} (w : List Char) : Step ε → Prop
  | .apply (.custom name) _ => ClearOf w name.toList
  | .apply (.op _) _ | .apply (.builtin _) _ => True
  | .truncate .. | .replace .. | .select .. | .sort .. => True

instance (w : List Char) : (p : Part) → Decidable (p.Avoids w)
  | .ident name => inferInstanceAs (Decidable (ClearOf w name.toList))
  | .literal text => inferInstanceAs (Decidable (ClearOf w text.toList))
  | .index _ | .null | .blank | .loopVar => inferInstanceAs (Decidable True)

instance {ε : Type} (w : List Char) : (s : Step ε) → Decidable (s.Avoids w)
  | .apply (.custom name) _ => inferInstanceAs (Decidable (ClearOf w name.toList))
  | .apply (.op _) _ | .apply (.builtin _) _ => inferInstanceAs (Decidable True)
  | .truncate .. | .replace .. | .select .. | .sort .. => inferInstanceAs (Decidable True)

theorem Step.Avoids.map {α β : Type} {s : Step α} (h : s.Avoids w) (f : α → β) :
    (s.map f).Avoids w := by
  cases s with
  | apply name args => cases name <;> exact h
  | truncate | replace | select | sort => trivial

namespace Expr

/-- Neither the expression nor any expression inside it refers to the loop object. -/
def LoopFree (e : Expr) : Prop :=
  e.Every fun e => e.chain.head? ≠ some .loopVar

/-- The names, literals and filters of an expression do not have the word. -/
def Avoids (w : List Char) (e : Expr) : Prop :=
  e.Every fun e => (∀ p ∈ e.chain, p.Avoids w) ∧ ∀ s ∈ e.steps, s.Avoids w

/-- The expression neither refers to the loop object nor has the word. -/
def Spares (w : List Char) (e : Expr) : Prop :=
  e.Every fun e => e.chain.head? ≠ some .loopVar ∧ (∀ p ∈ e.chain, p.Avoids w) ∧
    ∀ s ∈ e.steps, s.Avoids w

variable {e : Expr}

/-- Outside all loops nothing that is read refers to the loop object. -/
theorem LoopFree.of_everyRead {name : String} (h : e.EveryRead name scope)
    (hs : scope.inLoop = false) : e.LoopFree :=
  h.mono fun _ he => he.outside hs

theorem Avoids.spares (h : e.Avoids w) (hf : e.LoopFree) : e.Spares w :=
  (Every.and hf h).mono fun _ he => he

/-- An operator adds no name of its own. -/
theorem Spares.pipe {s : Step Expr} (h : e.Spares w) (hs : s.Avoids w)
    (ha : ∀ a ∈ s.args, a.Spares w) : (e.pipe s).Spares w := by
  refine Every.pipe h ⟨h.self.1, h.self.2.1, ?_⟩ ha
  exact List.forall_mem_append.mpr ⟨h.self.2.2, List.forall_mem_singleton.mpr hs⟩

theorem Spares.negate (h : e.Spares w) : e.negate.Spares w :=
  h.pipe trivial (by simp [Step.args])

theorem Spares.apply (h : e.Spares w) (op : Operator) {operand : Expr} (ho : operand.Spares w) :
    (e.apply op operand).Spares w := by
  refine h.pipe trivial ?_
  cases hu : op.isUnary <;> simp [Step.args, ho]

end Expr

/-! ### Nodes -/

namespace Node

/-- Neither a node that stands in a scope nor any node inside it refers to the loop object. -/
def LoopFree (scope : Scope) (n : Node) : Prop :=
  n.Every (fun _ n => ∀ e ∈ n.exprs, e.LoopFree) scope

/-- The property holds of a node that stands in a scope and of every node inside it, as far as they
stand in the body of a loop. -/
def InLoops (A : Node → Prop) (scope : Scope) (n : Node) : Prop :=
  n.Every (fun scope n => scope.inLoop → A n) scope

/-- What a node is written with, apart from its expressions and the nodes inside it. -/
def labels : Node → List String
  | .loop x .. | .assignment x .. => [x]
  | .tag _ args .. => [args]
  | .text _ | .output .. | .conditional .. | .comment .. | .raw .. | .subtemplate .. => []

/-- The labels of a node have neither quotes nor the word. -/
structure LabelsAvoid (w : List Char) (n : Node) : Prop where
  unquoted : ∀ x ∈ n.labels, ∀ c ∈ x.toList, Text.isQuote c = false
  lacks : ∀ x ∈ n.labels, LacksWord w x.toList

/-- Nothing that a node is written with has the word. The nodes inside it play no part. -/
structure Avoids (w : List Char) (n : Node) : Prop extends n.LabelsAvoid w where
  exprs : ∀ e ∈ n.exprs, e.Avoids w

/-- The node neither refers to the loop object nor has the word. The nodes inside it play no
part. -/
structure Spares (w : List Char) (n : Node) : Prop extends n.LabelsAvoid w where
  exprs : ∀ e ∈ n.exprs, e.Spares w

instance (w : List Char) (n : Node) : Decidable (n.Avoids w) :=
  decidable_of_iff ((∀ x ∈ n.labels, ∀ c ∈ x.toList, Text.isQuote c = false) ∧
      (∀ x ∈ n.labels, LacksWord w x.toList) ∧ ∀ e ∈ n.exprs, e.Every _)
    ⟨fun h => ⟨⟨h.1, h.2.1⟩, h.2.2⟩, fun h => ⟨h.unquoted, h.lacks, h.exprs⟩⟩

instance (A : Node → Prop) [DecidablePred A] (scope : Scope) (n : Node) :
    Decidable (n.InLoops A scope) :=
  inferInstanceAs (Decidable (n.Every _ scope))

theorem LabelsAvoid.clearOf {n : Node} (h : n.LabelsAvoid w) {x : String} (hx : x ∈ n.labels) :
    ClearOf w x.toList :=
  ⟨Text.closed_of_unquoted (h.unquoted x hx), h.lacks x hx⟩

theorem InLoops.spares {n : Node} (h : n.InLoops (Avoids w) scope) (hf : n.LoopFree scope) :
    n.InLoops (Spares w) scope := by
  refine (Every.and hf h).mono fun scope n ⟨hfree, havoids⟩ hin => ?_
  exact ⟨(havoids hin).toLabelsAvoid,
    fun e he => ((havoids hin).exprs e he).spares (hfree e he)⟩

end Node

end Stencil
