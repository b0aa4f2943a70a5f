import Stencil.Expr.FilterArgs
import Stencil.Node
import Stencil.Scope

/-!
# Properties of all parts of a template

A property of expressions that holds of an expression and of everything inside it, and a property of
nodes that holds of a node and of everything inside it. A node is looked at together with the scope
in which it stands: the body of a loop has a scope of its own, while the collection of a loop and
its alternative have the scope of the loop itself. Both can be decided if the property can.
-/

namespace Stencil

/-! ### Expressions inside expressions -/

theorem Step.args_map {α β : Type} (f : α → β) (s : Step α) : (s.map f).args = s.args.map f := by
  cases s with
  | apply | replace | truncate | select | sort => simp [Step.map, Step.args, Option.toList_map]

namespace Expr

/-- The property holds of an expression and of every expression inside it. -/
inductive Every (P : Expr → Prop) : Expr → Prop
  | intro {e : Expr} (h : P e) (hargs : ∀ s ∈ e.steps, ∀ a ∈ s.args, Every P a) : Every P e

namespace Every

variable {P Q : Expr → Prop} {e : Expr}

theorem self (h : Every P e) : P e := by
  cases h with
  | intro h _ => exact h

theorem args (h : Every P e) : ∀ s ∈ e.steps, ∀ a ∈ s.args, Every P a := by
  cases h with
  | intro _ hargs => exact hargs

theorem mono (hPQ : ∀ e, P e → Q e) (h : Every P e) : Every Q e := by
  induction h with
  | intro h _ ih => exact .intro (hPQ _ h) ih

theorem and (h : Every P e) (h' : Every Q e) : Every (fun e => P e ∧ Q e) e := by
  induction h with
  | intro h _ ih => exact .intro ⟨h, h'.self⟩ fun s hs a ha => ih s hs a ha (h'.args s hs a ha)

theorem ofChain {chain : List Part} (h : P (.ofChain chain)) : Every P (.ofChain chain) :=
  .intro h (by simp [Expr.ofChain])

/-- One more step. -/
theorem pipe {s : Step Expr} (h : Every P e) (hs : P (e.pipe s)) (hargs : ∀ a ∈ s.args, Every P a) :
    Every P (e.pipe s) := by
  refine .intro hs ?_
  rw [Expr.pipe, List.forall_mem_append, List.forall_mem_singleton]
  exact ⟨h.args, hargs⟩

/-- One step less. -/
theorem dropLast (h : Every P e) (hs : P { e with steps := e.steps.dropLast }) :
    Every P { e with steps := e.steps.dropLast } :=
  .intro hs fun s hmem => h.args s (List.dropLast_subset _ hmem)

end Every

theorem every_iff {P : Expr → Prop} {e : Expr} :
    e.Every P ↔ P e ∧ ∀ s ∈ e.steps, ∀ a ∈ s.args, a.Every P :=
  ⟨fun h => ⟨h.self, h.args⟩, fun h => .intro h.1 h.2⟩

section Decision

variable (P : Expr → Prop) [DecidablePred P]

mutual

/-- Whether the property holds of an expression and of every expression inside it. -/
def decideEvery : (e : Expr) → Decidable (e.Every P)
  | ⟨_, steps⟩ =>
    letI := decideEverySteps steps
    decidable_of_iff' _ every_iff

/-- The same for the arguments of a pipeline. -/
def decideEverySteps : (steps : List (Step Expr)) → Decidable (∀ s ∈ steps, ∀ a ∈ s.args, a.Every P)
  | [] => isTrue (List.forall_mem_nil _)
  | s :: steps =>
    letI := decideEveryStep s
    letI := decideEverySteps steps
    decidable_of_iff' _ List.forall_mem_cons

/-- The same for the arguments of a step. -/
def decideEveryStep : (s : Step Expr) → Decidable (∀ a ∈ s.args, a.Every P)
  | .apply _ args => decideEveryArgs args
  | .truncate e o _ | .select e o =>
    letI := decideEvery e
    letI := decideEveryOption o
    decidable_of_iff' _ List.forall_mem_cons
  | .replace old new count =>
    letI := decideEvery old
    letI := decideEvery new
    letI := decideEveryOption count
    decidable_of_iff' (old.Every P ∧ new.Every P ∧ ∀ a ∈ count.toList, a.Every P)
      (by simp [Step.args])
  | .sort key _ => decideEveryOption key

/-- The same for a list of arguments. -/
def decideEveryArgs : (args : List Expr) → Decidable (∀ a ∈ args, a.Every P)
  | [] => isTrue (List.forall_mem_nil _)
  | e :: args =>
    letI := decideEvery e
    letI := decideEveryArgs args
    decidable_of_iff' _ List.forall_mem_cons

/-- The same for an argument that may be missing. -/
def decideEveryOption : (o : Option Expr) → Decidable (∀ a ∈ o.toList, a.Every P)
  | none => isTrue (List.forall_mem_nil _)
  | some e =>
    letI := decideEvery e
    decidable_of_iff' _ List.forall_mem_singleton

end

instance (e : Expr) : Decidable (e.Every P) :=
  decideEvery P e

end Decision

end Expr

/-! ### Nodes inside nodes -/

namespace Node

/-- The expressions of a node itself. -/
def exprs : Node → List Expr
  | .output e _ | .subtemplate e _ _ => [e]
  | .conditional _ branches _ _ => branches.filterMap (·.condition)
  | .loop _ collection _ _ _ _ _ => [collection]
  | .assignment _ e _ _ _ => e.toList
  | .text _ | .comment .. | .raw .. | .tag .. => []

/-- The nodes right inside a node, each with its scope, given the scope of the node. -/
def parts (scope : Scope) : Node → List (Scope × Node)
  | .conditional _ branches _ _ => branches.flatMap fun b => b.body.map (scope, ·)
  | .loop _ _ children otherwise _ _ _ =>
      children.map (.loopBody, ·) ++ (otherwise.getD []).map (scope, ·)
  | .assignment _ _ children _ _ => (children.getD []).map (scope, ·)
  | .tag _ _ children _ => children.map (scope, ·)
  | .text _ | .output .. | .comment .. | .raw .. | .subtemplate .. => []

/-- The property holds of a node that stands in a scope, and of every node inside it. -/
inductive Every (P : Scope → Node → Prop) : Scope → Node → Prop
  | intro {scope : Scope} {n : Node} (h : P scope n)
      (hparts : ∀ p ∈ n.parts scope, Every P p.1 p.2) :
      Every P scope n

variable {P Q : Scope → Node → Prop} {scope : Scope} {n : Node}

theorem Every.self (h : n.Every P scope) : P scope n := by
  cases h with
  | intro h _ => exact h

theorem Every.inside (h : n.Every P scope) : ∀ p ∈ n.parts scope, p.2.Every P p.1 := by
  cases h with
  | intro _ hparts => exact hparts

theorem Every.mono (hPQ : ∀ scope n, P scope n → Q scope n) (h : n.Every P scope) :
    n.Every Q scope := by
  induction h with
  | intro h _ ih => exact .intro (hPQ _ _ h) ih

theorem Every.and (h : n.Every P scope) (h' : n.Every Q scope) :
    n.Every (fun scope n => P scope n ∧ Q scope n) scope := by
  induction h with
  | intro h _ ih => exact .intro ⟨h, h'.self⟩ fun p hp => ih p hp (h'.inside p hp)

/-- A node with nothing inside it. -/
theorem Every.leaf (h : P scope n) (hn : n.parts scope = []) : n.Every P scope :=
  .intro h (by simp [hn])

theorem Every.conditional {kind : Variant} {branches : List (Branch (List Node))}
    {trim endTrim : Trim} (h : P scope (.conditional kind branches trim endTrim))
    (hb : ∀ b ∈ branches, ∀ n ∈ b.body, n.Every P scope) :
    (Node.conditional kind branches trim endTrim).Every P scope := by
  refine .intro h ?_
  simp only [parts, List.mem_flatMap, List.mem_map, forall_exists_index, and_imp]
  rintro _ b hmem n hn rfl
  exact hb b hmem n hn

theorem Every.loop {name : String} {collection : Expr} {children : List Node}
    {otherwise : Option (List Node)} {trim elseTrim endTrim : Trim}
    (h : P scope (.loop name collection children otherwise trim elseTrim endTrim))
    (hb : ∀ n ∈ children, n.Every P .loopBody) (ho : ∀ ns ∈ otherwise, ∀ n ∈ ns, n.Every P scope) :
    (Node.loop name collection children otherwise trim elseTrim endTrim).Every P scope := by
  refine .intro h ?_
  rw [parts, List.forall_mem_append, List.forall_mem_map, List.forall_mem_map]
  refine ⟨hb, ?_⟩
  cases otherwise with
  | none => simp
  | some ns => exact ho ns rfl

theorem Every.capture {target : String} {e : Option Expr} {children : List Node}
    {trim endTrim : Trim} (h : P scope (.assignment target e (some children) trim endTrim))
    (hb : ∀ n ∈ children, n.Every P scope) :
    (Node.assignment target e (some children) trim endTrim).Every P scope := by
  refine .intro h ?_
  rw [parts, Option.getD_some, List.forall_mem_map]
  exact hb

theorem every_iff : n.Every P scope ↔ P scope n ∧ ∀ p ∈ n.parts scope, p.2.Every P p.1 :=
  ⟨fun h => ⟨h.self, h.inside⟩, fun h => .intro h.1 h.2⟩

section Decision

variable (P : Scope → Node → Prop) [∀ scope, DecidablePred (P scope)]

mutual

/-- Whether the property holds of all nodes inside a node that stands in a scope. -/
def decideInside (scope : Scope) : (n : Node) → Decidable (∀ p ∈ n.parts scope, p.2.Every P p.1)
  | .conditional _ branches _ _ => decideBranches scope branches
  | .loop _ _ children otherwise _ _ _ =>
    letI := decideList .loopBody children
    letI := decideOption scope otherwise
    decidable_of_iff' _ List.forall_mem_append
  | .assignment _ _ children _ _ => decideOption scope children
  | .tag _ _ children _ => decideList scope children
  | .text _ | .output .. | .comment .. | .raw .. | .subtemplate .. => isTrue (List.forall_mem_nil _)

/-- Whether the property holds of all nodes of a list that stands in a scope. -/
def decideList (scope : Scope) :
    (nodes : List Node) → Decidable (∀ p ∈ nodes.map (scope, ·), p.2.Every P p.1)
  | [] => isTrue (List.forall_mem_nil _)
  | n :: nodes =>
    letI := decideInside scope n
    letI := decideList scope nodes
    letI : Decidable (n.Every P scope) := decidable_of_iff' _ every_iff
    decidable_of_iff' _ List.forall_mem_cons

/-- The same for a list that may be missing. -/
def decideOption (scope : Scope) :
    (nodes : Option (List Node)) → Decidable (∀ p ∈ (nodes.getD []).map (scope, ·), p.2.Every P p.1)
  | none => isTrue (List.forall_mem_nil _)
  | some nodes => decideList scope nodes

/-- The same for the bodies of branches. -/
def decideBranches (scope : Scope) : (branches : List (Branch (List Node))) →
    Decidable (∀ p ∈ branches.flatMap fun b => b.body.map (scope, ·), p.2.Every P p.1)
  | [] => isTrue (List.forall_mem_nil _)
  | ⟨_, body, _⟩ :: branches =>
    letI := decideList scope body
    letI := decideBranches scope branches
    decidable_of_iff' ((∀ p ∈ body.map (scope, ·), p.2.Every P p.1) ∧
        ∀ p ∈ branches.flatMap fun b => b.body.map (scope, ·), p.2.Every P p.1)
      (by rw [List.flatMap_cons, List.forall_mem_append])

end

instance (scope : Scope) (n : Node) : Decidable (n.Every P scope) :=
  letI := decideInside P scope n
  decidable_of_iff' _ every_iff

end Decision

end Node

/-- The conditions of arms that stand in a scope have the property `P`, and all nodes in their
bodies have the property `N`. -/
def EveryArms (P : Scope → Expr → Prop) (N : Scope → Node → Prop) (scope : Scope)
    (arms : List (Branch (List Node))) : Prop :=
  ∀ b ∈ arms, (∀ e ∈ b.condition, P scope e) ∧ ∀ n ∈ b.body, n.Every N scope

namespace EveryArms

variable {P : Scope → Expr → Prop} {N : Scope → Node → Prop} {scope : Scope}
  {arms : List (Branch (List Node))}

theorem cons {e : Expr} {body : List Node} {trim : Trim} (he : P scope e)
    (hb : ∀ n ∈ body, n.Every N scope) (h : EveryArms P N scope arms) :
    EveryArms P N scope (⟨some e, body, trim⟩ :: arms) := by
  refine List.forall_mem_cons.mpr ⟨⟨?_, hb⟩, h⟩
  rintro _ ⟨⟩
  exact he

/-- The alternative of a conditional is its last arm. -/
theorem append_alternative {alternative : Option (List Node × Trim)} (h : EveryArms P N scope arms)
    (ha : ∀ p ∈ alternative, ∀ n ∈ p.1, n.Every N scope) :
    EveryArms P N scope (arms ++ Branch.ofAlternative alternative) := by
  refine List.forall_mem_append.mpr ⟨h, ?_⟩
  cases alternative with
  | none => exact fun _ => nofun
  | some p => exact List.forall_mem_singleton.mpr ⟨nofun, ha p rfl⟩

theorem exprs (h : EveryArms P N scope arms) {kind : Variant} {trim endTrim : Trim} :
    ∀ e ∈ (Node.conditional kind arms trim endTrim).exprs, P scope e := by
  intro e he
  obtain ⟨b, hb, he⟩ := List.mem_filterMap.mp he
  exact (h b hb).1 e he

end EveryArms

/-- The property holds of all expressions of a template, also of those inside others, each in the
scope in which it stands. -/
def EveryExpr (P : Scope → Expr → Prop) (nodes : List Node) : Prop :=
  ∀ n ∈ nodes, n.Every (fun scope n => ∀ e ∈ n.exprs, e.Every (P scope)) {}

instance (P : Scope → Expr → Prop) [∀ scope, DecidablePred (P scope)] (nodes : List Node) :
    Decidable (EveryExpr P nodes) :=
  inferInstanceAs (Decidable (∀ n ∈ nodes, n.Every _ {}))

/-! ### Arguments of filters -/

namespace FilterArgs

/-- The property holds of all arguments of a filter. -/
structure All (P : Expr → Prop) (a : FilterArgs) : Prop where
  positional : ∀ e ∈ a.positional, P e
  keywords : ∀ entry ∈ a.keywords, P entry.2

namespace All

variable {P : Expr → Prop} {a : FilterArgs} {index : Nat} {key : String} {e : Expr}

theorem get? (h : a.All P) (he : a.get? index key = some e) : P e := by
  rcases Option.or_eq_some_iff.mp he with he | ⟨-, he⟩
  · obtain ⟨l₁, l₂, hl, -⟩ := List.lookup_eq_some_iff.mp he
    exact h.keywords (key, e) (by simp [hl])
  · exact h.positional e (List.mem_of_getElem? he)

theorem get?_toList (h : a.All P) : ∀ e ∈ (a.get? index key).toList, P e := by
  intro e he
  exact h.get? (Option.mem_toList.mp he)

theorem require {missing : String → ReadError} (h : a.All P)
    (he : a.require missing index key = .ok e) : P e :=
  h.get? (require_eq_ok_iff.mp he)

theorem positionalOnly {es : List Expr} (h : a.All P) (he : a.positionalOnly = .ok es) :
    ∀ e ∈ es, P e := by
  obtain ⟨-, rfl⟩ := positionalOnly_eq_ok_iff.mp he
  exact h.positional

end All

end FilterArgs

end Stencil
