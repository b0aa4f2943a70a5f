import Mathlib.Data.List.TakeWhile
import Stencil.Proofs.Liquid.Grouping

/-!
# The association of operator chains

The reading of a chain is stated here without precedences and without a stack: a chain with a
logical connector is split at the first one of them, a chain of comparisons at its first comparison,
and what stands on the right is read in the same way. The two passes over a chain, shunting and
folding, give this reading. No connector of the shunted chain is folded before both of its operands
are on the stack, so the fold never falls back on an empty expression.

## Main results

* `Liquid.groups_reading` : a chain groups to its reading.
* `Liquid.supplied_postfixEntries` : every connector of a shunted chain finds two operands.
* `Liquid.toExpr_eq_reading` : the expression of a chain is its reading, and nothing else is left.
-/

namespace Stencil.Liquid

variable (scope : Scope)

/-! ### The reading of a chain -/

/-- The link compares its operands, so it is neither `and` nor `or`. -/
def Link.isComparison (l : Link) : Bool :=
  l.connector != .and && l.connector != .or

theorem length_of_dropWhile {ls after : List Link} {l : Link}
    (h : ls.dropWhile Link.isComparison = l :: after) :
    (ls.takeWhile Link.isComparison).length + after.length + 1 = ls.length := by
  have hsplit := List.takeWhile_append_dropWhile (p := Link.isComparison) (l := ls)
  rw [h] at hsplit
  simpa [Nat.add_assoc] using congrArg List.length hsplit

/-- The expression of an operand and the links after it. The first `and` or `or` stands between what
comes before it and all that comes after it; among comparisons the first one does. -/
def reading (o : Operand) (ls : List Link) : Expr :=
  match _h : ls.dropWhile Link.isComparison with
  | l :: after =>
    (reading o (ls.takeWhile Link.isComparison)).apply l.connector.operator
      (reading l.operand after)
  | [] =>
    match ls with
    | [] => o.toExpr scope
    | l :: after => (o.toExpr scope).apply l.connector.operator (reading l.operand after)
termination_by ls.length
decreasing_by
  · have := length_of_dropWhile _h
    omega
  · have := length_of_dropWhile _h
    omega
  · exact Nat.lt_succ_self _

theorem precedence_of_isComparison {l : Link} (h : l.isComparison) :
    l.connector.precedence = 2 := by
  revert h
  rw [Link.isComparison]
  cases l.connector <;> decide

theorem precedence_of_not_isComparison {l : Link} (h : ¬ l.isComparison) :
    l.connector.precedence = 1 := by
  revert h
  rw [Link.isComparison]
  cases l.connector <;> decide

theorem compares_reading {ls : List Link} (h : ∀ l ∈ ls, l.isComparison) (o : Operand) :
    Compares scope o ls (reading scope o ls) := by
  induction ls generalizing o with
  | nil =>
    rw [reading]
    exact .single o
  | cons l ls ih =>
    have hdrop : (l :: ls).dropWhile Link.isComparison = [] := List.dropWhile_eq_nil_iff.mpr h
    rw [List.forall_mem_cons] at h
    rw [reading]
    split
    · next hcons => rw [hdrop] at hcons; cases hcons
    · exact .cons o (precedence_of_isComparison h.1) (ih h.2 l.operand)

/-- A chain groups to its reading. -/
theorem groups_reading (o : Operand) (ls : List Link) :
    Groups scope o ls (reading scope o ls) := by
  fun_induction reading scope o ls with
  | case1 o ls l after h _ hafter =>
    have hsplit : ls = ls.takeWhile Link.isComparison ++ l :: after := by
      rw [← h, List.takeWhile_append_dropWhile]
    have hbefore : ∀ l ∈ ls.takeWhile Link.isComparison, l.isComparison :=
      fun _ => List.mem_takeWhile_imp
    have hl : ¬ l.isComparison := by
      have := List.head?_dropWhile_not Link.isComparison ls
      simpa [h] using this
    have hgroups := Groups.logical (compares_reading scope hbefore o)
      (precedence_of_not_isComparison hl) hafter
    rwa [← hsplit] at hgroups
  | case2 o h => exact .compares (.single o)
  | case3 o l after h hafter =>
    have hall := List.forall_mem_cons.mp (List.dropWhile_eq_nil_iff.mp h)
    exact .compares
      (.cons o (precedence_of_isComparison hall.1) (compares_reading scope hall.2 l.operand))

/-! ### The height of the stack -/

/-- A stack of `n` expressions has two operands for every connector, at the moment when the fold
reaches it. -/
def Supplied : Nat → List Entry → Prop
  | _, [] => True
  | n, .operand _ :: es => Supplied (n + 1) es
  | n, .connector .. :: es => 2 ≤ n ∧ Supplied (n - 1) es

theorem Supplied.nil (n : Nat) : Supplied n [] :=
  trivial

/-- The connectors that are set free need one operand each besides the last one. -/
theorem supplied_connectorEntries_append {waiting : List (Connector × Span)} {n : Nat}
    (h : waiting.length < n) {es : List Entry} (hes : Supplied (n - waiting.length) es) :
    Supplied n (connectorEntries waiting ++ es) := by
  induction waiting generalizing n with
  | nil => exact hes
  | cons w ws ih =>
    rw [List.length_cons] at h hes
    exact ⟨by omega, ih (by omega) (by rwa [Nat.sub_sub, Nat.add_comm 1])⟩

/-- Links keep the stack higher than the number of connectors that wait, whatever their
precedences. -/
theorem supplied_shunt (ls : List Link) {waiting : List (Connector × Span)} {n : Nat}
    (h : waiting.length < n) : Supplied n (shunt waiting (linkEntries ls)) := by
  induction ls generalizing waiting n with
  | nil =>
    have hfree := supplied_connectorEntries_append h (Supplied.nil (n - waiting.length))
    rwa [List.append_nil] at hfree
  | cons l ls ih =>
    rw [linkEntries_cons, shunt, shunt]
    generalize (fun w : Connector × Span => decide (l.connector.precedence < w.1.precedence)) =
      tighter
    have hsplit :=
      congrArg List.length (List.takeWhile_append_dropWhile (p := tighter) (l := waiting))
    rw [List.length_append] at hsplit
    refine supplied_connectorEntries_append (by omega) (ih ?_)
    rw [List.length_cons]
    omega

/-- Every connector of a shunted chain finds two operands. -/
theorem supplied_postfixEntries (c : Chain) : Supplied 0 c.postfixEntries :=
  supplied_shunt c.links (n := 1) Nat.one_pos

theorem length_runEntries_of_supplied {before after : List Entry} {connector : Connector}
    {span : Span} {stack : List Expr}
    (h : Supplied stack.length (before ++ .connector connector span :: after)) :
    2 ≤ (runEntries scope stack before).length := by
  induction before generalizing stack with
  | nil => exact h.1
  | cons e before ih =>
    cases e with
    | operand o => exact ih h
    | connector c s =>
      obtain ⟨hlength, h⟩ := h
      match stack, hlength with
      | right :: left :: stack, _ =>
        rw [runEntries_connector]
        exact ih h

/-- The expression of a chain is its reading. The fold that finds it leaves nothing else on the
stack, and whenever it reaches a connector, both operands are there. -/
theorem toExpr_eq_reading (c : Chain) :
    c.toExpr scope = reading scope c.first c.links ∧
      runEntries scope [] c.postfixEntries = [reading scope c.first c.links] ∧
        ∀ before connector span after,
          c.postfixEntries = before ++ .connector connector span :: after →
            2 ≤ (runEntries scope [] before).length := by
  have hgroups := groups_reading scope c.first c.links
  refine ⟨hgroups.toExpr_eq scope, ?_, fun before connector span after h => ?_⟩
  · exact foldl_shunt_of_groups scope hgroups (fun w hw => absurd hw List.not_mem_nil) []
  · exact length_runEntries_of_supplied scope (h ▸ supplied_postfixEntries c)

/-- In `a == b and c contains d or e` the last connector to be folded is `and`, and it finds the two
sides that the reading joins. -/
theorem toExpr_eq_reading_mixed :
    let operand : String → Operand := fun name => .property name [] ⟨0, []⟩
    let ident : String → Expr := fun name => .ofChain [.ident name]
    let span : Span := ⟨0, 0⟩
    let c : Chain := ⟨operand "a", [⟨.equal, span, operand "b"⟩, ⟨.and, span, operand "c"⟩,
      ⟨.contains, span, operand "d"⟩, ⟨.or, span, operand "e"⟩]⟩
    let before : List Entry := [.operand (operand "a"), .operand (operand "b"),
      .connector .equal span, .operand (operand "c"), .operand (operand "d"),
      .connector .contains span, .operand (operand "e"), .connector .or span]
    let expected := ((ident "a").apply .equal (ident "b")).apply .and
      (((ident "c").apply .contains (ident "d")).apply .or (ident "e"))
    c.postfixEntries = before ++ [.connector .and span] ∧
      reading {} c.first c.links = expected ∧ c.toExpr {} = expected ∧
        2 ≤ (runEntries {} [] before).length := by
  intro operand ident span c before expected
  have hsplit : c.postfixEntries = before ++ [.connector .and span] := by decide
  obtain ⟨hreading, -, hsupplied⟩ := toExpr_eq_reading {} c
  have hexpr : c.toExpr {} = expected := by decide
  exact ⟨hsplit, hreading ▸ hexpr, hexpr, hsupplied before .and span [] hsplit⟩

end Stencil.Liquid
