import Stencil.Liquid.Reader

/-!
# The grouping of operator chains

Operands joined by connectors group in two tiers: comparisons among themselves from right to left,
and `and` and `or` around them, again from right to left. The expression of a chain is found by
shunting the connectors behind their operands and folding the result with a stack. Here the two are
shown to agree.

## Main results

* `Liquid.Groups.toExpr_eq` : the expression of a chain is the one that it groups to.
-/

namespace Stencil.Liquid

variable (scope : Scope)

/-- The expression of operands that are joined by comparisons only. -/
inductive Compares : Operand → List Link → Expr → Prop
  | single (o : Operand) : Compares o [] (o.toExpr scope)
  | cons {l : Link} {ls : List Link} {e : Expr} (o : Operand) (hl : l.connector.precedence = 2)
      (h : Compares l.operand ls e) :
      Compares o (l :: ls) ((o.toExpr scope).apply l.connector.operator e)

/-- The expression of operands that are joined by any connectors: the first `and` or `or` stands
between what comes before it and all that comes after it. -/
inductive Groups : Operand → List Link → Expr → Prop
  | compares {o : Operand} {ls : List Link} {e : Expr} (h : Compares scope o ls e) : Groups o ls e
  | logical {o : Operand} {ls ls' : List Link} {l : Link} {left right : Expr}
      (h : Compares scope o ls left) (hl : l.connector.precedence = 1)
      (hr : Groups l.operand ls' right) :
      Groups o (ls ++ l :: ls') (left.apply l.connector.operator right)

/-! ### Entries of links -/

/-- The connector of a link as it waits for its right operand. -/
def Link.waiting (l : Link) : Connector × Span :=
  (l.connector, l.span)

/-- The entries of links, as written. -/
def linkEntries (ls : List Link) : List Entry :=
  ls.flatMap fun l => [.connector l.connector l.span, .operand l.operand]

@[simp] theorem linkEntries_append (ls ls' : List Link) :
    linkEntries (ls ++ ls') = linkEntries ls ++ linkEntries ls' :=
  List.flatMap_append

@[simp] theorem linkEntries_cons (l : Link) (ls : List Link) :
    linkEntries (l :: ls) =
      .connector l.connector l.span :: .operand l.operand :: linkEntries ls :=
  rfl

/-- The connectors of a list, as entries. -/
def connectorEntries (waiting : List (Connector × Span)) : List Entry :=
  waiting.map fun (c, s) => .connector c s

theorem Compares.precedence {o : Operand} {ls : List Link} {e : Expr}
    (h : Compares scope o ls e) : ∀ l ∈ ls, l.connector.precedence = 2 := by
  induction h with
  | single => simp
  | cons o hl h ih =>
    rw [List.forall_mem_cons]
    exact ⟨hl, ih⟩

/-! ### Shunting -/

theorem precedence_le_two (c : Connector) : c.precedence ≤ 2 := by
  cases c <;> decide

/-- No connector binds tighter than a comparison, so comparisons wait until the end of their run. -/
theorem shunt_comparisons {ls : List Link} (h : ∀ l ∈ ls, l.connector.precedence = 2)
    (waiting : List (Connector × Span)) (rest : List Entry) :
    shunt waiting (linkEntries ls ++ rest) =
      ls.map (fun l => .operand l.operand) ++
        shunt ((ls.map Link.waiting).reverse ++ waiting) rest := by
  induction ls generalizing waiting with
  | nil => rfl
  | cons l ls ih =>
    rw [List.forall_mem_cons] at h
    have htighter : ∀ w : Connector × Span,
        decide (l.connector.precedence < w.1.precedence) = false := by
      intro w
      have := precedence_le_two w.1
      rw [h.1, decide_eq_false_iff_not]
      omega
    have htake : waiting.takeWhile (fun w => decide (l.connector.precedence < w.1.precedence)) =
        [] := by
      cases waiting <;> simp only [List.takeWhile, htighter]
    have hdrop : waiting.dropWhile (fun w => decide (l.connector.precedence < w.1.precedence)) =
        waiting := by
      cases waiting <;> simp only [List.dropWhile, htighter]
    rw [linkEntries_cons, List.cons_append, List.cons_append, shunt, htake, hdrop, shunt, ih h.2]
    simp [Link.waiting]

/-- A logical connector sets free the comparisons that wait, and no more. -/
theorem shunt_logical {l : Link} (hl : l.connector.precedence = 1) {tight : List (Connector × Span)}
    (ht : ∀ w ∈ tight, w.1.precedence = 2) {loose : List (Connector × Span)}
    (hloose : ∀ w ∈ loose, w.1.precedence = 1) (rest : List Entry) :
    shunt (tight ++ loose) (.connector l.connector l.span :: rest) =
      connectorEntries tight ++ shunt (l.waiting :: loose) rest := by
  have htight : ∀ w ∈ tight, decide (l.connector.precedence < w.1.precedence) = true := by
    intro w hw
    rw [hl, ht w hw]
    decide
  have htake : loose.takeWhile (fun w => decide (l.connector.precedence < w.1.precedence)) =
      [] := by
    cases loose with
    | nil => rfl
    | cons w ws => simp [hl, hloose w List.mem_cons_self]
  have hdrop : loose.dropWhile (fun w => decide (l.connector.precedence < w.1.precedence)) =
      loose := by
    cases loose with
    | nil => rfl
    | cons w ws => simp [hl, hloose w List.mem_cons_self]
  rw [shunt, List.takeWhile_append_of_pos htight, List.dropWhile_append_of_pos htight, htake, hdrop,
    List.append_nil]
  rfl

/-! ### Folding -/

/-- The stack after some entries. -/
def runEntries (stack : List Expr) (es : List Entry) : List Expr :=
  (es.map (Entry.toPostfix scope)).foldl Postfix.push stack

@[simp] theorem runEntries_append (stack : List Expr) (es es' : List Entry) :
    runEntries scope stack (es ++ es') = runEntries scope (runEntries scope stack es) es' := by
  simp [runEntries]

@[simp] theorem runEntries_operand (stack : List Expr) (o : Operand) (es : List Entry) :
    runEntries scope stack (.operand o :: es) = runEntries scope (o.toExpr scope :: stack) es :=
  rfl

theorem isUnary_operator (c : Connector) : c.operator.isUnary = false := by
  cases c <;> rfl

@[simp] theorem runEntries_connector (left right : Expr) (stack : List Expr) (c : Connector)
    (s : Span) (es : List Entry) :
    runEntries scope (right :: left :: stack) (.connector c s :: es) =
      runEntries scope (left.apply c.operator right :: stack) es := by
  simp [runEntries, Entry.toPostfix, Postfix.push, Postfix.pop, isUnary_operator]

/-- The operands of comparisons and then their connectors, the last one first, leave the expression
that they group to on the stack. -/
theorem runEntries_compares {o : Operand} {ls : List Link} {e : Expr} (h : Compares scope o ls e)
    (stack : List Expr) :
    runEntries scope stack (.operand o :: ls.map (fun l => .operand l.operand) ++
      connectorEntries (ls.map Link.waiting).reverse) = e :: stack := by
  induction h generalizing stack with
  | single o => rfl
  | @cons l ls e o hl h ih =>
    have hls := ih (o.toExpr scope :: stack)
    simp only [List.cons_append, runEntries_operand, runEntries_append, List.map_cons,
      List.reverse_cons, connectorEntries, List.map_append] at hls ⊢
    rw [hls]
    exact runEntries_connector scope _ e stack l.connector l.span []

/-- Shunting the entries of a chain with only logical connectors waiting, and folding the result,
leaves what the chain groups to on the stack for those connectors. -/
theorem foldl_shunt_of_groups {o : Operand} {ls : List Link} {e : Expr} (h : Groups scope o ls e)
    {waiting : List (Connector × Span)} (hw : ∀ w ∈ waiting, w.1.precedence = 1)
    (stack : List Expr) :
    runEntries scope stack (shunt waiting (.operand o :: linkEntries ls)) =
      runEntries scope (e :: stack) (connectorEntries waiting) := by
  induction h generalizing waiting stack with
  | @compares o ls e h =>
    have hs := shunt_comparisons h.precedence waiting []
    rw [List.append_nil] at hs
    have hrun := runEntries_compares scope h stack
    rw [shunt, hs, shunt, List.map_append, ← List.append_assoc, ← List.cons_append,
      runEntries_append]
    exact congrArg (runEntries scope · (connectorEntries waiting)) hrun
  | @logical o ls ls' l left right h hl hr ih =>
    have hrun := runEntries_compares scope h stack
    rw [List.cons_append] at hrun
    have htight : ∀ w ∈ (ls.map Link.waiting).reverse, w.1.precedence = 2 := by
      intro w hw
      obtain ⟨l', hl', rfl⟩ := List.mem_map.mp (List.mem_reverse.mp hw)
      exact h.precedence scope l' hl'
    have hnext : ∀ w ∈ l.waiting :: waiting, w.1.precedence = 1 :=
      List.forall_mem_cons.mpr ⟨hl, hw⟩
    rw [linkEntries_append, linkEntries_cons, shunt, shunt_comparisons h.precedence,
      shunt_logical hl htight hw, ← List.append_assoc, ← List.cons_append, runEntries_append, hrun,
      ih hnext]
    exact runEntries_connector scope left right stack l.connector l.span _

/-- The expression of a chain is the one that it groups to. -/
theorem Groups.toExpr_eq {o : Operand} {ls : List Link} {e : Expr} (h : Groups scope o ls e) :
    Chain.toExpr scope ⟨o, ls⟩ = e := by
  have hnone : ∀ w ∈ ([] : List (Connector × Span)), w.1.precedence = 1 := by simp
  have hrun := foldl_shunt_of_groups scope h hnone []
  rw [Chain.toExpr, Postfix.fold]
  exact congrArg (fun stack => (Postfix.pop stack).1) hrun

end Stencil.Liquid
