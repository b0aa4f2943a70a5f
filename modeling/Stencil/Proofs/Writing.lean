import Stencil.Dialect
import Stencil.Expr.Chain
import Stencil.Expr.Grammar
import Stencil.Proofs.WellFormed

/-!
# Failures of writing

Writing fails for two reasons: the language lacks a construct, or the template breaks its own shape.
The second one never happens for a well-formed template. The argument is the same for every language
and follows the functions that write: what is put together from parts fails only as its parts do.
-/

namespace Stencil

open Markup (Written)

/-- The language lacks something that the template needs. -/
def WriteError.IsRefusal : WriteError → Prop
  | .unsupported .. => True
  | .malformed _ => False

/-- If the result is a failure, it is one of the kind `A`. -/
def FailsOnly (A : WriteError → Prop) {α : Type} (x : Except WriteError α) : Prop :=
  ∀ e, x = .error e → A e

namespace FailsOnly

variable {A : WriteError → Prop} {α β : Type} {x : Except WriteError α}

theorem ok (a : α) : FailsOnly A (.ok a) :=
  fun _ => nofun

theorem error {e : WriteError} (h : A e) : FailsOnly A (.error e : Except WriteError α) := by
  rintro _ ⟨⟩
  exact h

/-- Two steps fail only as each of them does. -/
theorem bind {f : α → Except WriteError β} (h : FailsOnly A x)
    (hf : ∀ a, x = .ok a → FailsOnly A (f a)) : FailsOnly A (x >>= f) := by
  cases x with
  | error e => exact .error (h e rfl)
  | ok a => exact hf a rfl

theorem map {f : α → β} (h : FailsOnly A x) : FailsOnly A (x.map f) := by
  cases x with
  | error e => exact .error (h e rfl)
  | ok a => exact .ok (f a)

/-- What cannot fail succeeds. -/
theorem exists_ok (h : FailsOnly (fun _ => False) x) : ∃ a, x = .ok a := by
  cases x with
  | error e => exact (h e rfl).elim
  | ok a => exact ⟨a, rfl⟩

end FailsOnly

/-! ### Expressions -/

theorem ChainWords.failsOnly_write (w : ChainWords) {A : WriteError → Prop} {chain : List Part}
    (h : isAccessChain chain) : FailsOnly A (w.write chain) := by
  have haccess : ∀ (ofLoop : Bool) (position : Nat) (part : Part), part.isAccess →
      FailsOnly A (w.writeAccess ofLoop position part) := by
    intro ofLoop position part hp
    cases part with
    | ident | literal | index => exact .ok _
    | null | blank | loopVar => cases hp
  have haccesses : ∀ (parts : List Part) (ofLoop : Bool) (position : Nat),
      (∀ part ∈ parts, part.isAccess) → FailsOnly A (w.writeAccesses ofLoop position parts) := by
    intro parts
    induction parts with
    | nil => exact fun _ _ _ => .ok _
    | cons part parts ih =>
      intro ofLoop position hp
      rw [List.forall_mem_cons] at hp
      exact (haccess ofLoop position part hp.1).bind fun _ _ =>
        (ih false (position + 1) hp.2).bind fun _ _ => .ok _
  cases chain with
  | nil => exact .ok _
  | cons root parts =>
    rw [isAccessChain, Bool.and_eq_true, List.all_eq_true] at h
    have hroot : FailsOnly A (w.writeRoot root) := by
      cases root with
      | index => cases h.1
      | ident | literal | null | blank | loopVar => exact .ok _
    exact hroot.bind fun _ _ => (haccesses parts _ 1 h.2).bind fun _ _ => .ok _

namespace Grammar

/-- The grammar fails in no other way than `A` on well-formed expressions: on chains, on parentheses
and on operators, and on steps whose arguments fail in no other way. Operators with two operands are
spelled between them. -/
structure Serves (g : Grammar) (A : WriteError → Prop) : Prop where
  chain : ∀ chain, isAccessChain chain → FailsOnly A (g.chain chain)
  group : ∀ text needed, FailsOnly A (g.group text needed)
  operator : ∀ op, FailsOnly A (g.operatorForm op)
  binary : ∀ op token, g.operatorForm op = .ok (.between token) ∨
    g.operatorForm op = .ok (.swapped token) → op.isUnary = false
  step : ∀ s : Step Argument, (∀ a ∈ s.args, FailsOnly A a.rendered) →
    (∀ op ∈ s.operator?, g.operatorForm op = .ok .filter) → FailsOnly A (g.step s)

namespace Serves

variable {g : Grammar} {A : WriteError → Prop} {acc : Rendered} {s : Step Argument}

theorem extendFilter (hg : g.Serves A) (ha : ∀ a ∈ s.args, FailsOnly A a.rendered)
    (hop : ∀ op ∈ s.operator?, g.operatorForm op = .ok .filter) :
    FailsOnly A (g.extendFilter acc s) :=
  (hg.step s ha hop).bind fun _ _ => (hg.group _ _).bind fun _ _ => .ok _

theorem extendOperator (hg : g.Serves A) {op : Operator} {args : List Argument}
    (ha : ∀ a ∈ args, FailsOnly A a.rendered)
    (hn : args.length = if op.isUnary then 0 else 1) :
    FailsOnly A (g.extendOperator acc op (.apply (.op op) args)) := by
  refine (hg.operator op).bind fun form hform => ?_
  have hoperand : op.isUnary = false → FailsOnly A (operand op (.apply (.op op) args)) := by
    intro hu
    rw [hu] at hn
    obtain ⟨arg, rfl⟩ := List.length_eq_one_iff.mp hn
    exact ha arg List.mem_cons_self
  cases form with
  | between token =>
    refine (hoperand (hg.binary op token (.inl hform))).bind fun _ _ => ?_
    exact (hg.group _ _).bind fun _ _ => (hg.group _ _).bind fun _ _ => .ok _
  | swapped token =>
    refine (hoperand (hg.binary op token (.inr hform))).bind fun _ _ => ?_
    exact (hg.group _ _).bind fun _ _ => (hg.group _ _).bind fun _ _ => .ok _
  | leading token => exact (hg.group _ _).bind fun _ _ => .ok _
  | filter =>
    refine hg.extendFilter ha ?_
    rintro _ ⟨⟩
    exact hform

/-- One more step, if its arguments fail only in the given way. -/
theorem extend (hg : g.Serves A) {s : Step Expr} (hs : s.hasOperands)
    (ha : ∀ e ∈ s.args, FailsOnly A (g.render e)) :
    FailsOnly A (g.extend acc (g.renderArgs s)) := by
  rw [renderArgs_eq_map]
  have hargs : ∀ a ∈ (s.map fun e => (⟨e, g.render e⟩ : Argument)).args,
      FailsOnly A a.rendered := by
    rw [Step.args_map, List.forall_mem_map]
    exact ha
  unfold Grammar.extend
  rw [Step.operator?_map]
  split
  · next op hop =>
    obtain ⟨args, rfl⟩ : ∃ args, s = .apply (.op op) args := by
      unfold Step.operator? at hop
      split at hop
      · obtain rfl := Option.some.inj hop
        exact ⟨_, rfl⟩
      · cases hop
    rw [Step.hasOperands, beq_iff_eq] at hs
    exact hg.extendOperator hargs (by rw [List.length_map, hs])
  · next hop => exact hg.extendFilter hargs (by simp [hop])

/-- A well-formed expression fails to be written only in the given way. -/
theorem render (hg : g.Serves A) {e : Expr} (h : e.Every Expr.WellFormed) :
    FailsOnly A (g.render e) := by
  induction h with
  | @intro e h _ ih =>
    obtain ⟨chain, steps⟩ := e
    have hsteps : ∀ (steps : List (Step Expr)) (acc : Rendered), (∀ s ∈ steps, s.hasOperands) →
        (∀ s ∈ steps, ∀ a ∈ s.args, FailsOnly A (g.render a)) →
          FailsOnly A (g.renderSteps steps acc) := by
      intro steps
      induction steps with
      | nil => exact fun _ _ _ => .ok _
      | cons s steps ihs =>
        intro acc hs ha
        rw [List.forall_mem_cons] at hs ha
        rw [Grammar.renderSteps]
        exact (hg.extend hs.1 ha.1).bind fun _ _ => ihs _ hs.2 ha.2
    rw [Grammar.render]
    exact (hg.chain chain h.chain).bind fun _ _ => (hsteps steps _ h.steps ih).bind fun _ _ => .ok _

theorem text (hg : g.Serves A) {e : Expr} (h : e.Every Expr.WellFormed) : FailsOnly A (g.text e) :=
  (hg.render h).map

end Serves

end Grammar

/-! ### Blocks -/

namespace Markup

variable {A : WriteError → Prop} {P : Expr → Prop} {text : Expr → Written}
  {branches : List (Branch Written)}

/-- The conditions of arms have the property `P`, and their bodies fail only in the given way. -/
def ArmsFailOnly (A : WriteError → Prop) (P : Expr → Prop) (branches : List (Branch Written)) :
    Prop :=
  ∀ b ∈ branches, (∀ e ∈ b.condition, P e) ∧ FailsOnly A b.body

theorem failsOnly_arms (subsequent : String) (ht : ∀ e, P e → FailsOnly A (text e))
    (h : ArmsFailOnly A P branches) : FailsOnly A (arms text subsequent branches) := by
  induction branches with
  | nil => exact .ok _
  | cons b branches ih =>
    obtain ⟨⟨hc, hb⟩, hrest⟩ := List.forall_mem_cons.mp h
    obtain ⟨condition, body, trim⟩ := b
    cases condition with
    | none => exact hb.bind fun _ _ => (ih hrest).bind fun _ _ => .ok _
    | some e =>
      exact (ht e (hc e rfl)).bind fun _ _ => hb.bind fun _ _ => (ih hrest).bind fun _ _ => .ok _

/-- A conditional whose first branch has a condition. -/
theorem failsOnly_conditional (words : ConditionalWords) (trim endTrim : Trim)
    (ht : ∀ e, P e → FailsOnly A (text e)) (hfirst : ∀ b ∈ branches.head?, b.condition.isSome)
    (h : ArmsFailOnly A P branches) :
    FailsOnly A (conditional text words trim endTrim branches) := by
  cases branches with
  | nil => exact .ok _
  | cons b branches =>
    obtain ⟨⟨hc, hb⟩, hrest⟩ := List.forall_mem_cons.mp h
    obtain ⟨condition, body, first⟩ := b
    cases condition with
    | none => exact absurd (hfirst _ rfl) (by simp)
    | some e =>
      exact (ht e (hc e rfl)).bind fun _ _ => hb.bind fun _ _ =>
        (failsOnly_arms _ ht hrest).bind fun _ _ => .ok _

theorem failsOnly_loop (name : String) {collection : Expr} {children : Written}
    {otherwise : Option Written} (trim elseTrim endTrim : Trim)
    (hc : FailsOnly A (text collection)) (hb : FailsOnly A children)
    (ho : ∀ body ∈ otherwise, FailsOnly A body) :
    FailsOnly A (loop text name collection children otherwise trim elseTrim endTrim) := by
  have helse : FailsOnly A (loopElse elseTrim otherwise) := by
    cases otherwise with
    | none => exact .ok _
    | some body => exact (ho body rfl).map
  exact hc.bind fun _ _ => hb.bind fun _ _ => helse.bind fun _ _ => .ok _

theorem failsOnly_assignment (words : AssignmentWords) (target : String) {e : Option Expr}
    {children : Option Written} (trim endTrim : Trim) (hn : e.isSome || children.isSome)
    (he : ∀ value ∈ e, FailsOnly A (text value)) (hc : ∀ body ∈ children, FailsOnly A body) :
    FailsOnly A (assignment text words target e children trim endTrim) := by
  cases e with
  | some e => exact (he e rfl).map
  | none =>
    cases children with
    | some body => exact (hc body rfl).map
    | none => cases hn

/-- The conditions and the bodies of arms are written. -/
def ArmsWritten (text : Expr → Written) (branches : List (Branch Written)) : Prop :=
  ∀ b ∈ branches, (∀ e ∈ b.condition, ∃ t, text e = .ok t) ∧ ∃ t, b.body = .ok t

theorem armsWritten_of_arms {subsequent t : String} (h : arms text subsequent branches = .ok t) :
    ArmsWritten text branches := by
  induction branches generalizing t with
  | nil => exact List.forall_mem_nil _
  | cons b branches ih =>
    obtain ⟨condition, body, trim⟩ := b
    cases condition with
    | none =>
      obtain ⟨body, hbody, h⟩ := bind_eq_ok.mp h
      obtain ⟨rest, hrest, -⟩ := bind_eq_ok.mp h
      exact List.forall_mem_cons.mpr ⟨⟨nofun, body, hbody⟩, ih hrest⟩
    | some e =>
      obtain ⟨condition, hcondition, h⟩ := bind_eq_ok.mp h
      obtain ⟨body, hbody, h⟩ := bind_eq_ok.mp h
      obtain ⟨rest, hrest, -⟩ := bind_eq_ok.mp h
      refine List.forall_mem_cons.mpr ⟨⟨?_, body, hbody⟩, ih hrest⟩
      rintro _ ⟨⟩
      exact ⟨condition, hcondition⟩

/-- A conditional is written only with all of its arms. -/
theorem armsWritten_of_conditional {words : ConditionalWords} {trim endTrim : Trim} {t : String}
    (h : conditional text words trim endTrim branches = .ok t) : ArmsWritten text branches := by
  match branches, h with
  | [], _ => exact List.forall_mem_nil _
  | ⟨none, _, _⟩ :: _, h => cases h
  | ⟨some e, body, first⟩ :: rest, h =>
    obtain ⟨condition, hcondition, h⟩ := bind_eq_ok.mp h
    obtain ⟨body, hbody, h⟩ := bind_eq_ok.mp h
    obtain ⟨rest, hrest, -⟩ := bind_eq_ok.mp h
    refine List.forall_mem_cons.mpr ⟨⟨?_, body, hbody⟩, armsWritten_of_arms hrest⟩
    rintro _ ⟨⟩
    exact ⟨condition, hcondition⟩

end Markup

/-! ### Templates -/

namespace Dialect

variable {d : Dialect} {A : WriteError → Prop} {N : Scope → Node → Prop} {nodes : List Node}

theorem failsOnly_write_of_forall (h : ∀ n ∈ nodes, FailsOnly A (d.writeNode n)) :
    FailsOnly A (d.write nodes) := by
  induction nodes with
  | nil =>
    rw [write]
    exact .ok _
  | cons n nodes ih =>
    rw [List.forall_mem_cons] at h
    rw [write]
    exact h.1.bind fun _ _ => (ih h.2).bind fun _ _ => .ok _

/-- A dialect that writes every single node, given the nodes inside it, without other failures than
`A` writes templates without other failures. -/
theorem failsOnly_write
    (hstep : ∀ scope n, N scope n → (∀ p ∈ n.parts scope, FailsOnly A (d.writeNode p.2)) →
      FailsOnly A (d.writeNode n))
    {scope : Scope} (h : ∀ n ∈ nodes, n.Every N scope) : FailsOnly A (d.write nodes) := by
  refine failsOnly_write_of_forall fun n hn => ?_
  have hall : ∀ {scope : Scope} {n : Node}, n.Every N scope → FailsOnly A (d.writeNode n) := by
    intro scope n h
    induction h with
    | intro h _ ih => exact hstep _ _ h ih
  exact hall (h n hn)

variable {scope : Scope}

/-- The written branches of a conditional. -/
theorem armsFailOnly_writeBranches {P : Expr → Prop} {kind : Variant}
    {branches : List (Branch (List Node))} {trim endTrim : Trim}
    (hc : ∀ e ∈ (Node.conditional kind branches trim endTrim).exprs, P e)
    (hb : ∀ p ∈ (Node.conditional kind branches trim endTrim).parts scope,
      FailsOnly A (d.writeNode p.2)) : Markup.ArmsFailOnly A P (d.writeBranches branches) := by
  rw [writeBranches_eq_map, Markup.ArmsFailOnly, List.forall_mem_map]
  intro b hmem
  refine ⟨fun e he => hc e (List.mem_filterMap.mpr ⟨b, hmem, he⟩), failsOnly_write_of_forall ?_⟩
  intro n hn
  exact hb (scope, n) (List.mem_flatMap.mpr ⟨b, hmem, List.mem_map_of_mem hn⟩)

theorem isSome_head?_writeBranches {branches : List (Branch (List Node))}
    (h : branches.head?.all (·.condition.isSome)) :
    ∀ b ∈ (d.writeBranches branches).head?, b.condition.isSome := by
  rw [writeBranches_eq_map, List.head?_map]
  cases hb : branches.head? with
  | none => simp
  | some b =>
    rw [hb] at h
    simpa [Branch.map] using h

theorem failsOnly_writeOption {ns : Option (List Node)}
    (h : ∀ n ∈ ns.getD [], FailsOnly A (d.writeNode n)) :
    ∀ body ∈ d.writeOption ns, FailsOnly A body := by
  rw [writeOption_eq_map]
  cases ns with
  | none => exact nofun
  | some ns =>
    rintro _ ⟨⟩
    exact failsOnly_write_of_forall h

section Blocks

variable {text : Expr → Written} {trim elseTrim endTrim : Trim}

theorem failsOnly_loop {name : String} {collection : Expr} {children : List Node}
    {otherwise : Option (List Node)} (hc : FailsOnly A (text collection))
    (hb : ∀ p ∈ (Node.loop name collection children otherwise trim elseTrim endTrim).parts scope,
      FailsOnly A (d.writeNode p.2)) :
    FailsOnly A (Markup.loop text name collection (d.write children) (d.writeOption otherwise) trim
      elseTrim endTrim) := by
  rw [Node.parts, List.forall_mem_append, List.forall_mem_map, List.forall_mem_map] at hb
  exact Markup.failsOnly_loop name trim elseTrim endTrim hc (failsOnly_write_of_forall hb.1)
    (failsOnly_writeOption hb.2)

theorem failsOnly_assignment (words : Markup.AssignmentWords) {target : String} {e : Option Expr}
    {children : Option (List Node)} (hn : e.isSome || children.isSome)
    (he : ∀ value ∈ e.toList, FailsOnly A (text value))
    (hb : ∀ p ∈ (Node.assignment target e children trim endTrim).parts scope,
      FailsOnly A (d.writeNode p.2)) :
    FailsOnly A (Markup.assignment text words target e (d.writeOption children) trim endTrim) := by
  rw [Node.parts, List.forall_mem_map] at hb
  refine Markup.failsOnly_assignment words target trim endTrim ?_
    (fun value h => he value (Option.mem_toList.mpr h)) (failsOnly_writeOption hb)
  rwa [writeOption_eq_map, Option.isSome_map]

end Blocks

/-- A template is written only with all of its nodes. -/
theorem forall_of_write {t : String} (h : d.write nodes = .ok t) :
    ∀ n ∈ nodes, ∃ t, d.writeNode n = .ok t := by
  induction nodes generalizing t with
  | nil => exact List.forall_mem_nil _
  | cons n nodes ih =>
    rw [write] at h
    obtain ⟨first, hfirst, h⟩ := bind_eq_ok.mp h
    obtain ⟨rest, hrest, -⟩ := bind_eq_ok.mp h
    exact List.forall_mem_cons.mpr ⟨⟨first, hfirst⟩, ih hrest⟩

end Dialect

end Stencil
