import Stencil.Proofs.Everywhere

/-!
# Well-formed templates

The type of templates has more values than reading gives: chains with their parts in the wrong
places, operators without operands, conditionals without a first condition. What reading gives is
well formed, and in a well-formed template the loop object stands where it belongs: at the root of a
chain in the body of a loop, and in the body of a loop its name stands for nothing else.
-/

namespace Stencil

/-! ### Chains and steps -/

/-- A part that a chain can begin with. -/
def Part.isRoot : Part → Bool
  | .index _ => false
  | .ident _ | .literal _ | .null | .blank | .loopVar => true

/-- A part that can come after another one. -/
def Part.isAccess : Part → Bool
  | .ident _ | .literal _ | .index _ => true
  | .null | .blank | .loopVar => false

/-- A chain whose parts all stand where they can. -/
def isAccessChain : List Part → Bool
  | [] => false
  | root :: parts => root.isRoot && parts.all Part.isAccess

/-- A step that has as many operands as its operator takes, if it applies one. -/
def Step.hasOperands : Step Expr → Bool
  | .apply (.op op) args => args.length == if op.isUnary then 0 else 1
  | _ => true

namespace Expr

/-- The chain is one, and all operators have their operands. -/
structure WellFormed (e : Expr) : Prop where
  chain : isAccessChain e.chain
  steps : ∀ s ∈ e.steps, s.hasOperands

/-- The loop object is at most the root of the chain, and only inside the bodies of loops; there,
its name `word` is no root of its own. -/
structure Scoped (word : String) (scope : Scope) (e : Expr) : Prop where
  tail : .loopVar ∉ e.chain.tail
  inside : scope.inLoop → e.chain.head? ≠ some (.ident word)
  outside : scope.inLoop = false → e.chain.head? ≠ some .loopVar

/-- An expression as it is read in a scope, in a language whose loop object is called `word`. -/
structure IsRead (word : String) (scope : Scope) (e : Expr) : Prop extends
  WellFormed e, Scoped word scope e

/-- An expression and all expressions inside it, as they are read in a scope. -/
abbrev EveryRead (word : String) (scope : Scope) (e : Expr) : Prop :=
  e.Every (IsRead word scope)

variable {word : String} {scope : Scope} {e : Expr}

/-- The root of a chain that is read. -/
def isScopedRoot (word : String) (scope : Scope) (root : Part) : Bool :=
  root.isRoot && root != if scope.inLoop then .ident word else .loopVar

theorem IsRead.ofChain {root : Part} {parts : List Part} (hr : isScopedRoot word scope root)
    (hp : ∀ part ∈ parts, part.isAccess) : IsRead word scope (.ofChain (root :: parts)) := by
  rw [isScopedRoot, Bool.and_eq_true, bne_iff_ne] at hr
  refine ⟨⟨?_, by simp [Expr.ofChain]⟩, ⟨fun h => ?_, fun hin h => ?_, fun hout h => ?_⟩⟩
  · rw [Expr.ofChain, isAccessChain, hr.1, Bool.true_and, List.all_eq_true]
    exact hp
  · exact absurd (hp .loopVar h) (by decide)
  · exact hr.2 (by simpa [hin, Expr.ofChain] using h)
  · exact hr.2 (by simpa [hout, Expr.ofChain] using h)

/-- A further part of a chain. -/
theorem IsRead.access {part : Part} (h : IsRead word scope e) (hp : part.isAccess) :
    IsRead word scope (.ofChain (e.chain ++ [part])) := by
  obtain ⟨⟨hchain, -⟩, htail, hinside, houtside⟩ := h
  cases hc : e.chain with
  | nil =>
    rw [hc] at hchain
    cases hchain
  | cons root parts =>
    rw [hc, isAccessChain, Bool.and_eq_true, List.all_eq_true] at hchain
    rw [hc] at hinside houtside
    rw [List.cons_append]
    refine .ofChain ?_ ?_
    · rw [isScopedRoot, hchain.1, Bool.true_and, bne_iff_ne]
      cases hl : scope.inLoop with
      | true => simpa using hinside hl
      | false => simpa using houtside hl
    · rw [List.forall_mem_append, List.forall_mem_singleton]
      exact ⟨hchain.2, hp⟩

/-- One more step keeps an expression as it is read. -/
theorem every_pipe {s : Step Expr} (h : e.EveryRead word scope) (hs : s.hasOperands)
    (hargs : ∀ a ∈ s.args, a.EveryRead word scope) :
    (e.pipe s).EveryRead word scope := by
  refine h.pipe ⟨⟨h.self.chain, ?_⟩, h.self.toScoped.tail, h.self.inside, h.self.outside⟩ hargs
  rw [Expr.pipe, List.forall_mem_append, List.forall_mem_singleton]
  exact ⟨h.self.steps, hs⟩

theorem every_apply {operand : Expr} (h : e.EveryRead word scope) (op : Operator)
    (ho : operand.EveryRead word scope) : (e.apply op operand).EveryRead word scope := by
  refine every_pipe h ?_ ?_
  · cases hu : op.isUnary <;> simp [Step.hasOperands, hu]
  · cases hu : op.isUnary <;> simp [Step.args, ho]

theorem every_negate (h : e.EveryRead word scope) : e.negate.EveryRead word scope :=
  every_pipe h rfl (List.forall_mem_nil _)

end Expr

/-! ### Nodes -/

namespace Node

/-- The node has the parts that it cannot do without: a condition in the first branch of a
conditional, and something to assign. -/
def isComplete : Node → Bool
  | .conditional _ branches _ _ => branches.head?.all (·.condition.isSome)
  | .assignment _ e children _ _ => e.isSome || children.isSome
  | _ => true

/-- A node of one of the `kinds` that a language has, as it is read in a scope. The nodes inside it
play no part. -/
structure IsRead (kinds : Node → Bool) (word : String) (scope : Scope) (n : Node) : Prop where
  kind : kinds n
  complete : n.isComplete
  exprs : ∀ e ∈ n.exprs, e.EveryRead word scope

/-- A node and all nodes inside it, as they are read in a scope. -/
abbrev EveryRead (kinds : Node → Bool) (word : String) (scope : Scope) (n : Node) : Prop :=
  n.Every (IsRead kinds word) scope

end Node

/-- In a template that is read, the loop object stands where it belongs. -/
theorem everyExpr_of_everyRead {kinds : Node → Bool} {word : String} {nodes : List Node}
    (h : ∀ n ∈ nodes, n.EveryRead kinds word {}) : EveryExpr (Expr.Scoped word) nodes :=
  fun n hn => (h n hn).mono fun _ _ hread e he => (hread.exprs e he).mono fun _ => (·.toScoped)

end Stencil
