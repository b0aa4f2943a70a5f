import Stencil.Proofs.Everywhere
import Stencil.Proofs.Liquid.Expression
import Stencil.Proofs.Nesting

/-!
# The expressions that values stand for

A value that is read stands, outside loops, for a pipeline over an access chain. Its operators have
both of their operands, and a comparison comes right after the chain: the comparisons of a value
group to the right, so the left operand of each one is a single operand.
-/

namespace Stencil.Liquid

/-! ### Pipelines of values -/

/-- The step applies a comparison or membership. -/
def isComparisonStep (s : Step Expr) : Bool :=
  s.operator?.any Operator.isComparison

/-- The steps that operators and filters stand for. -/
def isReadStep (s : Step Expr) : Bool :=
  isRegularStep s && !s.operator?.any Operator.isUnary

/-- The expressions that values outside loops stand for: chains of operands and steps that are read,
at any depth, with comparisons only right after a chain. -/
inductive IsValue : Expr → Prop
  | intro {chain : List Part} {steps : List (Step Expr)} (hchain : isOperandChain chain)
      (hsteps : ∀ s ∈ steps, isReadStep s) (hcompare : ∀ s ∈ steps.tail, isComparisonStep s = false)
      (hargs : ∀ s ∈ steps, ∀ a ∈ s.args, IsValue a) : IsValue ⟨chain, steps⟩

variable {e : Expr} {o : Operand} {ls : List Link}

theorem isValue_of_chain {chain : List Part} (h : isOperandChain chain) :
    IsValue (.ofChain chain) :=
  .intro h (by simp) (by simp) (by simp)

/-- One more step, which is no comparison unless it is the first one. -/
theorem IsValue.pipe {s : Step Expr} (h : IsValue e) (hs : isReadStep s)
    (hc : e.steps = [] ∨ isComparisonStep s = false) (hargs : ∀ a ∈ s.args, IsValue a) :
    IsValue (e.pipe s) := by
  cases h with
  | @intro chain steps hchain hsteps hcompare hall =>
    refine .intro hchain ?_ ?_ ?_
    · rw [List.forall_mem_append, List.forall_mem_singleton]
      exact ⟨hsteps, hs⟩
    · cases steps with
      | nil => simp
      | cons t steps =>
        have hc : isComparisonStep s = false := hc.resolve_left (List.cons_ne_nil t steps)
        simp only [List.cons_append, List.tail_cons] at hcompare ⊢
        rw [List.forall_mem_append, List.forall_mem_singleton]
        exact ⟨hcompare, hc⟩
    · rw [List.forall_mem_append, List.forall_mem_singleton]
      exact ⟨hall, hargs⟩

/-! ### Operands and connectors -/

/-- An operand that stands for a chain of the kind that operands are read as. -/
def IsOperand (o : Operand) : Prop :=
  ∃ chain, o.toExpr {} = .ofChain chain ∧ isOperandChain chain

theorem IsOperand.isValue (h : IsOperand o) : IsValue (o.toExpr {}) := by
  obtain ⟨chain, he, hc⟩ := h
  rw [he]
  exact isValue_of_chain hc

theorem IsOperand.steps (h : IsOperand o) : (o.toExpr {}).steps = [] := by
  obtain ⟨chain, he, -⟩ := h
  rw [he]
  rfl

theorem isReadStep_connector (c : Connector) (e : Expr) :
    isReadStep (.apply (.op c.operator) (if c.operator.isUnary then [] else [e])) := by
  cases c <;> rfl

theorem isComparisonStep_connector {c : Connector} (h : c.precedence = 1) (args : List Expr) :
    isComparisonStep (.apply (.op c.operator) args) = false := by
  cases c <;> first | rfl | cases h

theorem args_connector (c : Connector) (e : Expr) :
    (Step.apply (.op c.operator) (if c.operator.isUnary then [] else [e])).args = [e] := by
  rw [isUnary_operator]
  rfl

theorem Compares.isValue (h : Compares {} o ls e) (ho : IsOperand o)
    (hls : ∀ l ∈ ls, IsOperand l.operand) : IsValue e := by
  induction h with
  | single o => exact ho.isValue
  | @cons l ls e o hl h ih =>
    rw [List.forall_mem_cons] at hls
    refine ho.isValue.pipe (isReadStep_connector _ _) (.inl ho.steps) ?_
    rw [args_connector, List.forall_mem_singleton]
    exact ih hls.1 hls.2

theorem Groups.isValue (h : Groups {} o ls e) (ho : IsOperand o)
    (hls : ∀ l ∈ ls, IsOperand l.operand) : IsValue e := by
  induction h with
  | compares h => exact h.isValue ho hls
  | @logical o ls ls' l left right h hl hr ih =>
    rw [List.forall_mem_append, List.forall_mem_cons] at hls
    obtain ⟨hleft, hl', hright⟩ := hls
    refine (h.isValue ho hleft).pipe (isReadStep_connector _ _)
      (.inr (isComparisonStep_connector hl _)) ?_
    rw [args_connector, List.forall_mem_singleton]
    exact ih hl' hright

/-- Every chain of operands groups to an expression. -/
theorem exists_groups (scope : Scope) (o : Operand) (ls : List Link) :
    ∃ e, Groups scope o ls e := by
  induction ls generalizing o with
  | nil => exact ⟨_, .compares (.single o)⟩
  | cons l ls ih =>
    obtain ⟨e, h⟩ := ih l.operand
    by_cases hl : l.connector.precedence = 1
    · have hsingle : Compares scope o [] (o.toExpr scope) := .single o
      exact ⟨_, Groups.logical hsingle hl h⟩
    · have hl : l.connector.precedence = 2 := by
        cases hc : l.connector <;> first | rfl | exact absurd (by rw [hc]; rfl) hl
      -- a comparison joins the run of comparisons that follows it
      cases h with
      | compares h => exact ⟨_, .compares (.cons o hl h)⟩
      | logical h hl' hr => exact ⟨_, Groups.logical (.cons o hl h) hl' hr⟩

/-- The operands that reading leads over stand for chains of operands. -/
theorem Walked.isOperand {p q : Piece} {os : List Operand} (h : Walked p os q) :
    ∀ o ∈ os, IsOperand o := by
  induction h with
  | done => exact List.forall_mem_nil _
  | skip _ _ ih => exact ih
  | operand h _ ih => exact List.forall_mem_cons.mpr ⟨isOperandChain_of_operandAt h, ih⟩

theorem isValue_of_operands {c : Chain} (h : ∀ o ∈ c.operands, IsOperand o) :
    IsValue (c.toExpr {}) := by
  rw [Chain.operands, List.forall_mem_cons, List.forall_mem_map] at h
  obtain ⟨e, he⟩ := exists_groups {} c.first c.links
  rw [he.toExpr_eq]
  exact he.isValue h.1 h.2

/-! ### Filters -/

/-- A filter with an identifier for its name, and arguments that were read. -/
structure IsFilter (f : Filter) : Prop where
  name : isIdentifier f.name.toList
  args : ∀ arg ∈ f.args, IsOperand arg.value

theorem isIdentifier_of_readFilters {p rest : Piece} {fs : List Filter}
    (h : readFilters p = .ok (fs, rest)) : ∀ f ∈ fs, isIdentifier f.name.toList := by
  fun_induction readFilters p generalizing fs rest with
  | case1 =>
    cases h
    exact List.forall_mem_nil _
  | case2 | case3 => cases h
  | case4 p r hb f r' hf more r'' hmore ih =>
    cases h
    obtain ⟨⟨name, r₁⟩, hname, hf⟩ := bind_eq_ok.mp hf
    obtain ⟨args, hargs, hf⟩ := bind_eq_ok.mp hf
    cases hf
    exact List.forall_mem_cons.mpr ⟨isIdentifier_of_readIdentifier hname, ih hmore⟩

theorem isFilter_of_readFilters {p rest : Piece} {fs : List Filter}
    (h : readFilters p = .ok (fs, rest)) : ∀ f ∈ fs, IsFilter f := by
  refine fun f hf => ⟨isIdentifier_of_readFilters h f hf, fun arg harg => ?_⟩
  refine (Walked.readFilters h).isOperand _ (List.mem_flatMap.mpr ⟨f, hf, ?_⟩)
  exact List.mem_map.mpr ⟨arg, harg, rfl⟩

/-! ### Steps -/

/-- What holds of the values of all arguments holds of the arguments that they stand for. -/
theorem Filter.all_toArgs {P : Expr → Prop} {scope : Scope} {f : Filter}
    (h : ∀ arg ∈ f.args, P (arg.value.toExpr scope)) : (f.toArgs scope).All P where
  positional e he := by
    obtain ⟨arg, harg, he⟩ := List.mem_filterMap.mp he
    cases arg with
    | positional value =>
      obtain rfl := Option.some.inj he
      exact h _ harg
    | keyword => cases he
  keywords entry he := by
    obtain ⟨arg, harg, he⟩ := List.mem_filterMap.mp he
    cases arg with
    | positional => cases he
    | keyword key value =>
      obtain rfl := Option.some.inj he
      exact h _ harg

theorem IsFilter.toArgs {f : Filter} (h : IsFilter f) : (f.toArgs {}).All IsValue :=
  f.all_toArgs fun arg ha => (h.args arg ha).isValue

theorem isReadStep_arithmetic {name : String} {op : Operator} (h : operatorOfFilter? name = some op)
    (e : Expr) :
    isReadStep (.apply (.op op) [e]) ∧ isComparisonStep (.apply (.op op) [e]) = false := by
  have hop : ∀ entry ∈ arithmetic, entry.2.isUnary = false ∧ entry.2.isComparison = false := by
    decide
  obtain ⟨l₁, l₂, hl, -⟩ := List.lookup_eq_some_iff.mp h
  obtain ⟨hu, hc⟩ := hop (name, op) (by simp [hl])
  simp_all [isReadStep, isRegularStep, isComparisonStep, Step.operator?]

/-- The arguments of a step are arguments of its filter. -/
theorem StepOf.forall_args {P : Expr → Prop} {name : String} {args : FilterArgs} {s : Step Expr}
    (h : StepOf name args s) (hargs : args.All P) : ∀ a ∈ s.args, P a := by
  cases h with
  | operator hop ho hk => exact List.forall_mem_singleton.mpr (hargs.get? ho)
  | truncate hn hl => exact List.forall_mem_cons.mpr ⟨hargs.get? hl, hargs.get?_toList⟩
  | replace hn ho hw =>
    exact List.forall_mem_cons.mpr ⟨hargs.get? ho, List.forall_mem_singleton.mpr (hargs.get? hw)⟩
  | select hn hk => exact List.forall_mem_cons.mpr ⟨hargs.get? hk, hargs.get?_toList⟩
  | sort hn => exact hargs.get?_toList
  | builtin hn hb hk | custom hn hb hk => exact hargs.positional

/-- A filter stands for a step that is no comparison. -/
theorem IsFilter.toStep {f : Filter} {s : Step Expr} (hf : IsFilter f) (h : f.toStep {} = .ok s) :
    isReadStep s ∧ isComparisonStep s = false ∧ ∀ a ∈ s.args, IsValue a := by
  have hstep := Filter.toStep_eq_ok_iff.mp h
  rw [← and_assoc]
  refine ⟨?_, hstep.forall_args hf.toArgs⟩
  cases hstep with
  | operator hop ho hk => exact isReadStep_arithmetic hop _
  | truncate | replace | select | sort | builtin => exact ⟨rfl, rfl⟩
  | custom hn hb hk =>
    exact ⟨by simp [isReadStep, isRegularStep, Step.operator?, hf.name, hb, hn], rfl⟩

theorem isValue_of_applyFilters {fs : List Filter} {e' : Expr} (he : IsValue e)
    (hfs : ∀ f ∈ fs, IsFilter f) (h : applyFilters {} e fs = .ok e') : IsValue e' := by
  induction fs generalizing e with
  | nil =>
    obtain rfl := Except.ok.inj h
    exact he
  | cons f fs ih =>
    rw [List.forall_mem_cons] at hfs
    obtain ⟨s, hs, h⟩ := bind_eq_ok.mp h
    obtain ⟨hread, hcompare, hargs⟩ := hfs.1.toStep hs
    exact ih (he.pipe hread (.inr hcompare) hargs) hfs.2 h

/-- A value that is read stands for an expression of the kind described. -/
theorem isValue_of_parseValue {p : Piece} {v : Value} (hv : parseValue p = .ok v)
    (he : v.toExpr {} = .ok e) : IsValue e := by
  obtain ⟨rest, hread, -⟩ := exists_of_parseValue hv
  obtain ⟨⟨initial, r₁⟩, hinitial, hread⟩ := bind_eq_ok.mp hread
  obtain ⟨⟨filters, r₂⟩, hfilters, hread⟩ := bind_eq_ok.mp hread
  obtain ⟨rfl, -⟩ := Prod.mk.inj (Except.ok.inj hread)
  exact isValue_of_applyFilters (isValue_of_operands (Walked.readChain hinitial).isOperand)
    (isFilter_of_readFilters hfilters) he

/-! ### Outputs of a source -/

/-- An output in a tree has a value that was read. -/
def IsReadOutput : Element → Prop
  | .output value _ _ => ∃ p, parseValue p = .ok value
  | _ => True

theorem isReadOutput_of_advance {block : Block} {t : Tag} {body : List Element} {e : Element}
    (h : block.advance t body = .ok (.close e)) : IsReadOutput e := by
  have hwhen : ∀ opening subject done, enterWhen opening subject done t ≠ .ok (.close e) := by
    intro opening subject done hwhen
    obtain ⟨values, -, hwhen⟩ := map_eq_ok.mp hwhen
    cases hwhen
  cases block with
  | clause opening done head condition =>
    simp only [Block.advance] at h
    split at h
    · obtain ⟨next, -, h⟩ := map_eq_ok.mp h
      cases h
    · split at h
      · cases h
      · split at h <;> cases h
        trivial
  | caseHead opening subject | caseWhen opening subject done head values =>
    simp only [Block.advance] at h
    split at h
    · exact absurd h (hwhen _ _ _)
    · split at h
      · cases h
      · split at h <;> cases h
        trivial
  | loop opening =>
    simp only [Block.advance] at h
    split at h
    · cases h
    · split at h <;> cases h
      trivial
  | clauseElse | caseElse | loopElse | capture =>
    simp only [Block.advance] at h
    split at h <;> cases h
    trivial

/-- One more token keeps the values of all outputs read. -/
theorem feed_isReadOutput {b b' : Builder} {t : Token} (hb : b.AllElements IsReadOutput)
    (h : feed b t = .ok b') : b'.AllElements IsReadOutput := by
  cases t with
  | html text | verbatim opening content closing =>
    obtain rfl := Except.ok.inj h
    exact hb.push trivial
  | output inner span trim =>
    obtain ⟨value, hv, rfl⟩ := map_eq_ok.mp h
    exact hb.push ⟨inner, hv⟩
  | tag t =>
    refine hb.advance (fun _ _ _ => isReadOutput_of_advance) (fun b' h => ?_) h
    rw [openTag] at h
    split at h
    · cases h
    · obtain ⟨block?, -, rfl⟩ := map_eq_ok.mp h
      cases block? with
      | some block => exact hb.enter block
      | none => exact hb.push trivial

/-- Only outputs are read as outputs. -/
theorem exists_value_of_toNode {fragment : FragmentReader} {scope : Scope} {el : Element}
    {trim : Trim} (h : Element.toNode fragment scope el = .ok (.output e trim)) :
    ∃ value span, el = .output value span trim ∧ value.toExpr scope = .ok e := by
  cases Element.nodeOf h with
  | output he => exact ⟨_, _, rfl, he⟩

/-- The expression of a source that is a single output is that of a value. -/
theorem isValue_of_read {source : String} {trim : Trim} (h : read source = .ok [.output e trim]) :
    IsValue e := by
  obtain ⟨es, hparse, hnodes⟩ := bind_eq_ok.mp h
  obtain ⟨ts, -, hes⟩ := bind_eq_ok.mp hparse
  obtain ⟨b, hb, -, rfl⟩ := Nesting.exists_of_run (fun b _ => b.AllElements IsReadOutput)
    (fun _ _ _ _ hb h => feed_isReadOutput hb h) .nil hes
  generalize hrev : b.elements.reverse = es at hnodes
  cases es with
  | nil => cases hnodes
  | cons el es =>
    obtain ⟨node, nodes, hnode, -, heq⟩ := Element.exists_of_toNodes_cons hnodes
    obtain ⟨rfl, -⟩ := List.cons.inj heq
    obtain ⟨value, span, rfl, he⟩ := exists_value_of_toNode hnode
    have hmem : Element.output value span trim ∈ b.elements := by
      rw [← List.mem_reverse, hrev]
      exact List.mem_cons_self
    obtain ⟨p, hp⟩ := hb.elements _ hmem
    exact isValue_of_parseValue hp he

end Stencil.Liquid
