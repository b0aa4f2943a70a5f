import Mathlib.Data.List.Chain
import Stencil.Proofs.Conversion.WellFormed
import Stencil.Proofs.Liquid.Expression

/-!
# What Liquid does not write back

Liquid reads more than it writes. In a value, operators come before filters, and a filter that comes
after an operator is applied to the result of the operator. Such an expression would have to be
grouped, which Liquid has no means for. Everything before the first bar is written as it was read,
since the writer groups operators as the reader does. Besides, several variables of a loop are read
as a single name, and no loop with such a name is written. There are no other obstacles.

## Main results

* `Liquid.Groups.writes`, `Liquid.writes_applyFilters` : chains of operands, and filters after a
  single operand, are written.
* `Liquid.unmixed_of_render` : what is written is unmixed.
* `Liquid.exists_write_iff` : the templates that are written back.
-/

namespace Stencil.Liquid

variable {scope : Scope} {e a : Expr} {s : Step Expr} {form form' : Form}

/-! ### Steps -/

/-- The step compares two operands or joins them by logic. -/
def isJoin (s : Step Expr) : Bool :=
  s.operator?.any fun op => op.isComparison || op.isLogical

/-- No filter comes right after an operator that compares two operands or joins them by logic. -/
def Unmixed (e : Expr) : Prop :=
  e.steps.IsChain fun s t => isJoin s → isJoin t

theorem isJoin_connector (c : Connector) (args : List Expr) :
    isJoin (.apply (.op c.operator) args) := by
  cases c <;> rfl

theorem isJoin_of_hasFilter (h : hasFilter s) : isJoin s = false := by
  cases s with
  | apply name args =>
    cases name with
    | op op => cases op <;> first | rfl | cases h
    | builtin | custom => rfl
  | truncate | replace | select | sort => rfl

/-! ### Chains of operands -/

/-- The expression is written, and its text is of the given form at its top level. -/
def Writes (e : Expr) (form : Form) : Prop :=
  ∃ text, grammar.render e = .ok ⟨text, form⟩

theorem Writes.text (h : Writes e form) : ∃ text, grammar.text e = .ok text := by
  obtain ⟨text, h⟩ := h
  exact ⟨text, by rw [Grammar.text, h]; rfl⟩

theorem writes_ofChain {chain : List Part} (h : isAccessChain chain) :
    Writes (.ofChain chain) .atom := by
  obtain ⟨text, htext⟩ := (chainWords.failsOnly_write h).exists_ok
  refine ⟨text, ?_⟩
  have htext : grammar.chain chain = .ok text := htext
  rw [Expr.ofChain, Grammar.render, htext]
  rfl

theorem Operand.writes (scope : Scope) (o : Operand) : Writes (o.toExpr scope) .atom := by
  have hchain := (o.isRead scope).self.chain
  cases o with
  | quoted | number | property => exact writes_ofChain hchain
  | keyword word text => cases word <;> exact writes_ofChain hchain

theorem renderSteps_append (steps steps' : List (Step Expr)) (acc : Rendered) :
    grammar.renderSteps (steps ++ steps') acc =
      grammar.renderSteps steps acc >>= grammar.renderSteps steps' := by
  induction steps generalizing acc with
  | nil => rfl
  | cons s steps ih =>
    rw [List.cons_append, Grammar.renderSteps, Grammar.renderSteps, bind_assoc]
    exact congrArg _ (funext ih)

/-- One more step is written after the text so far. -/
theorem render_pipe {acc r : Rendered} (h : grammar.render e = .ok acc)
    (hs : grammar.extend acc (s.map argumentOf) = .ok r) : grammar.render (e.pipe s) = .ok r := by
  obtain ⟨chain, steps⟩ := e
  rw [Grammar.render] at h
  obtain ⟨text, htext, h⟩ := bind_eq_ok.mp h
  obtain ⟨acc', hacc, h⟩ := bind_eq_ok.mp h
  obtain rfl : acc' = acc := Except.ok.inj h
  have hlast : grammar.renderSteps [s] acc' = .ok r := by
    rw [Grammar.renderSteps, Grammar.renderArgs_eq_map]
    exact bind_eq_ok.mpr ⟨r, hs, rfl⟩
  rw [Expr.pipe, Grammar.render, htext, ok_bind, renderSteps_append, hacc, ok_bind, hlast]
  rfl

/-- Every connector has a spelling, which may be that of another one. -/
theorem operatorForm_connector (c : Connector) :
    ∃ token, operatorForm c.operator = .ok (.between token) := by
  cases c <;> exact ⟨_, rfl⟩

theorem operatorPrecedence_connector (c : Connector) :
    operatorPrecedence c.operator = c.precedence := by
  cases c <;> rfl

/-- A connector between two written texts whose forms need no grouping. -/
theorem Writes.join (he : Writes e form) (ha : Writes a form') (c : Connector)
    (hl : grammar.needsLeft c.precedence form = false)
    (hr : grammar.needsRight c.precedence form' = false) :
    Writes (e.apply c.operator a) (.operator c.precedence) := by
  obtain ⟨left, he⟩ := he
  obtain ⟨right, ha⟩ := ha
  obtain ⟨token, htoken⟩ := operatorForm_connector c
  have htoken : grammar.operatorForm c.operator = .ok (.between token) := htoken
  have hprec : grammar.precedence c.operator = c.precedence := operatorPrecedence_connector c
  have hoperand : Grammar.operand c.operator (.apply (.op c.operator) [argumentOf a]) =
      .ok ⟨right, form'⟩ := ha
  refine ⟨left ++ " " ++ token ++ " " ++ right, render_pipe he ?_⟩
  rw [isUnary_operator]
  change grammar.extendOperator ⟨left, form⟩ c.operator (.apply (.op c.operator) [argumentOf a]) = _
  simp only [Grammar.extendOperator, htoken, hprec, hoperand, ok_bind, hl, hr, Grammar.group]
  rfl

/-- Comparisons are written as an operand or as a comparison. -/
theorem Compares.writes {o : Operand} {ls : List Link} (h : Compares scope o ls e) :
    ∃ form, Writes e form ∧ (form = .atom ∨ form = .operator 2) := by
  induction h with
  | single o => exact ⟨.atom, o.writes scope, .inl rfl⟩
  | @cons l ls e o hl _ ih =>
    obtain ⟨form, he, hform⟩ := ih
    have hright : grammar.needsRight l.connector.precedence form = false := by
      rw [hl]
      rcases hform with rfl | rfl <;> rfl
    exact ⟨_, (o.writes scope).join he l.connector rfl hright, .inr (by rw [hl])⟩

/-- A chain of operands is written, and its text can stand to the right of a logical operator. -/
theorem Groups.writes {o : Operand} {ls : List Link} (h : Groups scope o ls e) :
    ∃ form, Writes e form ∧ grammar.needsRight 1 form = false := by
  induction h with
  | compares h =>
    obtain ⟨form, he, hform⟩ := h.writes
    exact ⟨form, he, by rcases hform with rfl | rfl <;> rfl⟩
  | @logical o ls ls' l left right h hl _ ih =>
    obtain ⟨form, hleft, hform⟩ := h.writes
    obtain ⟨form', hright, hform'⟩ := ih
    refine ⟨_, hleft.join hright l.connector ?_ ?_, by rw [hl]; rfl⟩
    · rw [hl]
      rcases hform with rfl | rfl <;> rfl
    · rw [hl]
      exact hform'

/-! ### Filters -/

theorem atomText_of_writes (h : Writes e .atom) : ∃ text, atomText (argumentOf e) = .ok text := by
  obtain ⟨text, h⟩ := h
  exact ⟨text, by rw [atomText, argumentOf, h]; rfl⟩

theorem moreArgsText_of_writes {es : List Expr} (h : ∀ e ∈ es, Writes e .atom) :
    ∃ text, moreArgsText (es.map argumentOf) = .ok text := by
  induction es with
  | nil => exact ⟨_, rfl⟩
  | cons e es ih =>
    rw [List.forall_mem_cons] at h
    obtain ⟨first, hfirst⟩ := atomText_of_writes h.1
    obtain ⟨rest, hrest⟩ := ih h.2
    exact ⟨_, by rw [List.map_cons, moreArgsText, hfirst, ok_bind, hrest, ok_bind]; rfl⟩

theorem filterText_of_writes (name : String) {es : List Expr} (h : ∀ e ∈ es, Writes e .atom) :
    ∃ text, filterText name (es.map argumentOf) = .ok text := by
  cases es with
  | nil => exact ⟨_, rfl⟩
  | cons e es =>
    rw [List.forall_mem_cons] at h
    obtain ⟨first, hfirst⟩ := atomText_of_writes h.1
    obtain ⟨rest, hrest⟩ := moreArgsText_of_writes h.2
    exact ⟨_, by rw [List.map_cons, filterText, hfirst, ok_bind, hrest, ok_bind]; rfl⟩

/-- A step that there is a filter for is written as that filter if its arguments are operands. -/
theorem stepText_of_writes (hs : hasFilter s) (ha : ∀ a ∈ s.args, Writes a .atom) :
    ∃ text, stepText (s.map argumentOf) = .ok text := by
  cases s with
  | apply name args =>
    have hname : ∃ word, stepName name = .ok word := by
      cases name with
      | op op => cases op <;> first | exact ⟨_, rfl⟩ | cases hs
      | builtin | custom => exact ⟨_, rfl⟩
    obtain ⟨word, hword⟩ := hname
    obtain ⟨text, htext⟩ := filterText_of_writes word ha
    refine ⟨text, ?_⟩
    rw [Step.map, stepText, hword]
    exact htext
  | truncate length ellipsis killWords =>
    obtain rfl : killWords = false := by simpa [hasFilter] using hs
    obtain ⟨text, htext⟩ := filterText_of_writes "truncate" ha
    exact ⟨text, by cases ellipsis <;> exact htext⟩
  | replace old new count =>
    obtain rfl : count = none := by simpa [hasFilter] using hs
    exact filterText_of_writes "replace" ha
  | select key value =>
    obtain ⟨text, htext⟩ := filterText_of_writes "where" ha
    exact ⟨text, by cases value <;> exact htext⟩
  | sort key reverse =>
    obtain ⟨text, htext⟩ := filterText_of_writes "sort" ha
    have hkey : filterText "sort" (key.map argumentOf).toList = .ok text := by
      cases key <;> exact htext
    refine ⟨if reverse then text ++ " | reverse" else text, ?_⟩
    rw [Step.map, stepText, hkey]
    rfl

theorem extend_of_hasFilter (hs : hasFilter s) (acc : Rendered) :
    grammar.extend acc (s.map argumentOf) = grammar.extendFilter acc (s.map argumentOf) := by
  cases s with
  | apply name args =>
    cases name with
    | op op => cases op <;> first | rfl | cases hs
    | builtin | custom => rfl
  | truncate | replace | select | sort => rfl

/-- A filter after a written text that needs no grouping. -/
theorem Writes.filter (he : Writes e form) (hf : Grammar.needsPipe form = false) (hs : hasFilter s)
    (ha : ∀ a ∈ s.args, Writes a .atom) : Writes (e.pipe s) .pipe := by
  obtain ⟨left, he⟩ := he
  obtain ⟨filter, hfilter⟩ := stepText_of_writes hs ha
  have hfilter : grammar.step (s.map argumentOf) = .ok filter := hfilter
  refine ⟨left ++ " | " ++ filter, render_pipe he ?_⟩
  rw [extend_of_hasFilter hs, Grammar.extendFilter, hfilter, hf]
  rfl

/-- Filters after a written text that needs no grouping. -/
theorem writes_applyFilters {fs : List Filter} (he : Writes e form)
    (hf : Grammar.needsPipe form = false) (h : applyFilters scope e fs = .ok a) :
    ∃ form, Writes a form := by
  induction fs generalizing e form with
  | nil => exact ⟨form, Except.ok.inj h ▸ he⟩
  | cons f fs ih =>
    obtain ⟨s, hs, h⟩ := bind_eq_ok.mp h
    obtain ⟨hfilter, -, hargs⟩ := Filter.toStep_eq_ok (P := (Writes · .atom))
      (fun arg _ => arg.value.writes scope) hs
    exact ih (he.filter hf hfilter hargs) rfl h

/-! ### Filters after operators -/

/-- A chain of several operands applies an operator last. -/
theorem Groups.eq_apply {o : Operand} {ls : List Link} (h : Groups scope o ls e) (hls : ls ≠ []) :
    ∃ (left right : Expr) (c : Connector), e = left.apply c.operator right := by
  cases h with
  | compares h =>
    cases h with
    | single => exact absurd rfl hls
    | cons => exact ⟨_, _, _, rfl⟩
  | logical => exact ⟨_, _, _, rfl⟩

theorem Unmixed.of_pipe (h : Unmixed (e.pipe s)) : Unmixed e :=
  List.IsChain.left_of_append h

theorem Unmixed.of_applyFilters {fs : List Filter} (h : applyFilters scope e fs = .ok a)
    (hu : Unmixed a) : Unmixed e := by
  induction fs generalizing e with
  | nil => exact Except.ok.inj h ▸ hu
  | cons f fs ih =>
    obtain ⟨s, -, h⟩ := bind_eq_ok.mp h
    exact (ih h).of_pipe

/-- Only an operator comes after an operator. -/
theorem Unmixed.isJoin_of_apply {c : Connector} (h : Unmixed ((e.apply c.operator a).pipe s)) :
    isJoin s := by
  rw [Unmixed, Expr.pipe, Expr.apply, Expr.pipe, List.append_assoc, List.singleton_append,
    List.isChain_append_cons_cons] at h
  exact h.2.1 (isJoin_connector c _)

/-- An expression that a value stands for is written unless a filter comes after an operator. -/
theorem Stated.writes (h : Stated scope e) (hu : Unmixed e) : ∃ form, Writes e form := by
  obtain ⟨⟨⟨o, ls⟩, fs⟩, h⟩ := h
  obtain ⟨e', hgroups⟩ := exists_groups scope o ls
  rw [Value.toExpr, hgroups.toExpr_eq] at h
  cases fs with
  | nil =>
    obtain rfl := Except.ok.inj h
    obtain ⟨form, he, -⟩ := hgroups.writes
    exact ⟨form, he⟩
  | cons f fs =>
    by_cases hls : ls = []
    · subst hls
      obtain rfl : o.toExpr scope = e' := hgroups.toExpr_eq
      exact writes_applyFilters (o.writes scope) rfl h
    · obtain ⟨left, right, c, rfl⟩ := hgroups.eq_apply hls
      obtain ⟨s, hs, h⟩ := bind_eq_ok.mp h
      have hfilter := (Filter.toStep_eq_ok (P := fun _ => True) (fun _ _ => trivial) hs).1
      have hjoin := (hu.of_applyFilters h).isJoin_of_apply
      rw [isJoin_of_hasFilter hfilter] at hjoin
      cases hjoin

theorem needsPipe_of_extendFilter {acc r : Rendered} {t : Step Argument}
    (h : grammar.extendFilter acc t = .ok r) : Grammar.needsPipe acc.form = false := by
  obtain ⟨filter, -, h⟩ := bind_eq_ok.mp h
  obtain ⟨left, hleft, -⟩ := bind_eq_ok.mp h
  exact (group_eq_ok hleft).1

/-- A step is an operator between its operands, and then so is the text after it, or it is a filter,
and then the text before it is no operator. -/
theorem extend_eq_ok {acc r : Rendered} (h : grammar.extend acc (s.map argumentOf) = .ok r) :
    isJoin s ∧ Grammar.needsPipe r.form ∨ isJoin s = false ∧
      Grammar.needsPipe acc.form = false := by
  cases s with
  | apply name args =>
    cases name with
    | op op =>
      have h : grammar.extendOperator acc op (.apply (.op op) (args.map argumentOf)) = .ok r := h
      obtain ⟨form, hform, h⟩ := bind_eq_ok.mp h
      cases form with
      | between token =>
        obtain ⟨c, -, rfl, -⟩ := exists_connector hform
        obtain ⟨right, -, h⟩ := bind_eq_ok.mp h
        obtain ⟨_, -, h⟩ := bind_eq_ok.mp h
        obtain ⟨_, -, rfl⟩ := bind_pure_eq_ok.mp h
        exact .inl ⟨isJoin_connector c args, rfl⟩
      | filter =>
        refine .inr ⟨?_, needsPipe_of_extendFilter h⟩
        cases op <;> first | rfl | cases hform
      | swapped | leading => cases op <;> cases hform
    | builtin | custom => exact .inr ⟨rfl, needsPipe_of_extendFilter h⟩
  | truncate | replace | select | sort => exact .inr ⟨rfl, needsPipe_of_extendFilter h⟩

/-- Along a pipeline that is written, no filter comes after an operator. -/
theorem isChain_of_renderSteps {steps : List (Step Expr)} {acc r : Rendered}
    (h : grammar.renderSteps steps acc = .ok r) :
    (∀ s ∈ steps.head?, Grammar.needsPipe acc.form → isJoin s) ∧
      steps.IsChain fun s t => isJoin s → isJoin t := by
  -- the form of the text so far stands for the step before the first one
  induction steps generalizing acc with
  | nil => exact ⟨nofun, .nil⟩
  | cons s steps ih =>
    obtain ⟨acc', hacc, h⟩ := bind_eq_ok.mp h
    rw [Grammar.renderArgs_eq_map] at hacc
    obtain ⟨hhead, hsteps⟩ := ih h
    rcases extend_eq_ok hacc with ⟨hjoin, hform⟩ | ⟨hfilter, hform⟩
    · refine ⟨fun _ ht _ => ?_, List.isChain_cons.mpr ⟨fun t ht _ => hhead t ht hform, hsteps⟩⟩
      obtain rfl := Option.some.inj ht
      exact hjoin
    · refine ⟨fun _ _ h => ?_, List.isChain_cons.mpr ⟨fun t _ h => ?_, hsteps⟩⟩
      · rw [hform] at h
        cases h
      · rw [hfilter] at h
        cases h

/-- What is written is unmixed. -/
theorem unmixed_of_render {r : Rendered} (h : grammar.render e = .ok r) : Unmixed e := by
  obtain ⟨chain, steps⟩ := e
  rw [Grammar.render] at h
  obtain ⟨text, -, h⟩ := bind_eq_ok.mp h
  obtain ⟨acc, hacc, -⟩ := bind_eq_ok.mp h
  exact (isChain_of_renderSteps hacc).2

/-! ### Templates -/

/-- A node that is not refused: a loop has a single variable, and no expression applies a filter to
the result of an operator. The nodes inside it play no part. -/
structure Writable (n : Node) : Prop where
  single : hasOneVariable n
  exprs : ∀ e ∈ n.exprs, Unmixed e

/-- A node is written only with all of its expressions and all nodes inside it. -/
theorem forall_of_writeNode {n : Node} {t : String} (hk : isReadKind n)
    (h : dialect.writeNode n = .ok t) :
    hasOneVariable n ∧ (∀ e ∈ n.exprs, ∃ t, grammar.text e = .ok t) ∧
      ∀ p ∈ n.parts scope, ∃ t, dialect.writeNode p.2 = .ok t := by
  cases n with
  | text | comment | raw => exact ⟨rfl, List.forall_mem_nil _, List.forall_mem_nil _⟩
  | output e trim =>
    rw [Dialect.writeNode] at h
    obtain ⟨text, htext, -⟩ := map_eq_ok.mp h
    exact ⟨rfl, List.forall_mem_singleton.mpr ⟨text, htext⟩, List.forall_mem_nil _⟩
  | conditional kind branches trim endTrim =>
    rw [Dialect.writeNode] at h
    have harms : Markup.ArmsWritten grammar.text (dialect.writeBranches branches) :=
      Markup.armsWritten_of_conditional h
    rw [Dialect.writeBranches_eq_map, Markup.ArmsWritten, List.forall_mem_map] at harms
    refine ⟨rfl, fun e he => ?_, fun p hp => ?_⟩
    · obtain ⟨b, hb, he⟩ := List.mem_filterMap.mp he
      exact (harms b hb).1 e he
    · obtain ⟨b, hb, hp⟩ := List.mem_flatMap.mp hp
      obtain ⟨n, hn, rfl⟩ := List.mem_map.mp hp
      obtain ⟨body, hbody⟩ := (harms b hb).2
      exact Dialect.forall_of_write hbody n hn
  | loop name collection children otherwise trim elseTrim endTrim =>
    rw [Dialect.writeNode] at h
    have h : writeLoop name collection _ _ trim elseTrim endTrim = .ok t := h
    unfold writeLoop at h
    split at h
    · cases h
    · next hname =>
      obtain ⟨text, htext, h⟩ := bind_eq_ok.mp h
      obtain ⟨body, hbody, h⟩ := bind_eq_ok.mp h
      obtain ⟨alternative, halternative, -⟩ := bind_eq_ok.mp h
      refine ⟨by simpa [hasOneVariable] using hname, List.forall_mem_singleton.mpr ⟨text, htext⟩,
        ?_⟩
      rw [Node.parts, List.forall_mem_append, List.forall_mem_map, List.forall_mem_map]
      refine ⟨Dialect.forall_of_write hbody, ?_⟩
      cases otherwise with
      | none => exact List.forall_mem_nil _
      | some nodes =>
        rw [Dialect.writeOption] at halternative
        obtain ⟨text, htext, -⟩ := map_eq_ok.mp halternative
        exact Dialect.forall_of_write htext
  | assignment target e children trim endTrim =>
    rw [Dialect.writeNode] at h
    cases e with
    | some e =>
      obtain rfl : children = none := by simpa [isReadKind] using hk
      obtain ⟨text, htext, -⟩ := map_eq_ok.mp h
      exact ⟨rfl, List.forall_mem_singleton.mpr ⟨text, htext⟩, List.forall_mem_nil _⟩
    | none =>
      refine ⟨rfl, List.forall_mem_nil _, ?_⟩
      cases children with
      | none => exact List.forall_mem_nil _
      | some nodes =>
        rw [Dialect.writeOption] at h
        obtain ⟨text, htext, -⟩ := map_eq_ok.mp h
        rw [Node.parts, List.forall_mem_map]
        exact Dialect.forall_of_write htext
  | subtemplate e ignoreMissing trim =>
    obtain rfl : ignoreMissing = false := by simpa [isReadKind] using hk
    rw [Dialect.writeNode] at h
    obtain ⟨text, htext, -⟩ := map_eq_ok.mp h
    exact ⟨rfl, List.forall_mem_singleton.mpr ⟨text, htext⟩, List.forall_mem_nil _⟩
  | tag name args children trim =>
    obtain rfl : children = [] := by simpa [isReadKind] using hk
    exact ⟨rfl, List.forall_mem_nil _, List.forall_mem_nil _⟩

/-- What is written is writable, with everything inside it. -/
theorem every_writable_of_writeNode {n : Node} (hn : EveryStated scope n) {t : String}
    (h : dialect.writeNode n = .ok t) : n.Every (fun _ => Writable) scope := by
  induction hn generalizing t with
  | intro hn _ ih =>
    obtain ⟨hsingle, hexprs, hparts⟩ := forall_of_writeNode hn.kind h
    refine .intro ⟨hsingle, fun e he => ?_⟩ fun p hp => ?_
    · obtain ⟨text, htext⟩ := hexprs e he
      obtain ⟨r, hr, -⟩ := map_eq_ok.mp htext
      exact unmixed_of_render hr
    · obtain ⟨text, htext⟩ := hparts p hp
      exact ih p hp htext

/-- A template that is read is written back exactly if no loop in it has several variables and no
expression applies a filter to the result of an operator. -/
theorem exists_write_iff {source : String} {nodes : List Node} (h : read source = .ok nodes) :
    (∃ text, write nodes = .ok text) ↔ ∀ n ∈ nodes, n.Every (fun _ => Writable) {} := by
  have hread := everyStated_read h
  constructor
  · rintro ⟨text, htext⟩ n hn
    obtain ⟨t, ht⟩ := Dialect.forall_of_write htext n hn
    exact every_writable_of_writeNode (hread n hn) ht
  · intro hwritable
    refine (Dialect.failsOnly_write (d := dialect) ?_ fun n hn =>
      (hread n hn).and (hwritable n hn)).exists_ok
    rintro scope n ⟨hstated, hwritable⟩ hparts
    refine failsOnly_writeNode (.inl ⟨hwritable.single, hstated.kind⟩) hstated.complete
      (fun e he => ?_) hparts
    obtain ⟨form, hwrites⟩ := (hstated.exprs e he).writes (hwritable.exprs e he)
    obtain ⟨text, htext⟩ := hwrites.text
    rw [htext]
    exact .ok text

/-- Operators of both strengths in a condition, and filters in a header and in an output. -/
theorem exists_write_iff_filters :
    let source := "\x7b% for x in xs | sort: 'a' %\x7d\x7b% if x == 1 and y contains x %\x7d" ++
      "\x7b\x7b x | plus: 1 | upcase \x7d\x7d\x7b% endif %\x7d\x7b% endfor %\x7d"
    let condition := ((Expr.ident "x").apply .equal (.literal "1")).apply .and
      ((Expr.ident "y").apply .contains (.ident "x"))
    let output :=
      ((Expr.ident "x").apply .add (.literal "1")).pipe (.apply (.builtin .uppercase) [])
    let nodes : List Node :=
      [.loop "x" ((Expr.ident "xs").pipe (.sort (some (.literal "'a'")) false))
        [.conditional .ifTrue [⟨some condition, [.output output .unset], .unset⟩] .unset .unset]
          none
        .unset .unset .unset]
    read source = .ok nodes ∧ write nodes = .ok source ∧
      ∀ n ∈ nodes, n.Every (fun _ => Writable) {} := by
  intro source condition output nodes
  have hread : read source = .ok nodes := by decide +kernel
  have hwrite : write nodes = .ok source := by decide +kernel
  exact ⟨hread, hwrite, (exists_write_iff hread).mp ⟨source, hwrite⟩⟩

/-- A filter after a comparison and a loop over two variables, which are read and refused. -/
theorem write_refuses_filtered_comparison :
    let filtered :=
      ((Expr.ident "a").apply .equal (.ident "b")).pipe (.apply (.builtin .uppercase) [])
    let output : List Node := [.output filtered .unset]
    let loop : List Node := [.loop "a, b" (.ident "xs") [] none .unset .unset .unset]
    read "\x7b\x7b a == b | upcase \x7d\x7d" = .ok output ∧
      write output = .error (.lacks languageName (.grouping "a == b")) ∧
      read "\x7b% for a, b in xs %\x7d\x7b% endfor %\x7d" = .ok loop ∧
      write loop = .error (.lacks languageName (.loopVariables "a, b")) := by
  intro filtered output loop
  have hread : read "\x7b\x7b a == b | upcase \x7d\x7d" = .ok output ∧
      read "\x7b% for a, b in xs %\x7d\x7b% endfor %\x7d" = .ok loop := by decide +kernel
  exact ⟨hread.1, rfl, hread.2, rfl⟩

end Stencil.Liquid
