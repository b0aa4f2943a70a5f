import Stencil.Proofs.Liquid.Reading
import Stencil.Proofs.WellFormed

/-!
# Templates that are read from Liquid

Whatever tree a Liquid source has, its template is well formed: every operand is a chain, operators
and filters add steps with all of their operands, and every block has the parts that it cannot do
without. The name of the loop object is looked up in the scope that is handed down the tree, so in
the body of a loop it stands for the loop object and elsewhere for itself. Fragments are read in the
scope of the tag that they stand in.

All expressions of a template are those that values stand for in some scope, so what holds of these
holds of every template that is read.

## Main results

* `Liquid.every_read` : a template that is read is well formed and scoped.
-/

namespace Stencil.Liquid

variable {scope : Scope}

/-- An expression and all expressions inside it, as they are read in a scope. -/
abbrev EveryRead (scope : Scope) (e : Expr) : Prop :=
  e.EveryRead chainWords.loopVar scope

/-- A node and all nodes inside it, as they are read in a scope. -/
abbrev EveryReadNode (scope : Scope) (n : Node) : Prop :=
  n.EveryRead (fun _ => true) chainWords.loopVar scope

/-! ### Expressions -/

theorem isAccess_accessParts (ofLoop : Bool) (accesses : List Access) :
    ∀ part ∈ accessParts ofLoop accesses, part.isAccess := by
  have haccess : ∀ (ofLoop : Bool) (a : Access), (a.toPart ofLoop).isAccess := by
    intro ofLoop a
    cases a with
    | name | index => rfl
    | key quoted =>
      rw [Access.toPart, keyPart]
      split <;> rfl
  cases accesses with
  | nil => simp [accessParts]
  | cons a as =>
    rw [accessParts, List.forall_mem_cons, List.forall_mem_map]
    exact ⟨haccess ofLoop a, fun a _ => haccess false a⟩

theorem isScopedRoot_of_ne {root : Part} (hr : root.isRoot) (hn : ∀ name, root ≠ .ident name)
    (hl : root ≠ .loopVar) : Expr.isScopedRoot chainWords.loopVar scope root := by
  rw [Expr.isScopedRoot, hr, Bool.true_and, bne_iff_ne]
  split
  · exact hn _
  · exact hl

/-- Every operand is a chain, whose root is the loop object exactly if it is called by its name in
the body of a loop. -/
theorem Operand.isRead (scope : Scope) (o : Operand) : EveryRead scope (o.toExpr scope) := by
  cases o with
  | quoted | number => exact .ofChain (.ofChain (isScopedRoot_of_ne rfl nofun nofun) (by simp))
  | keyword word text =>
    cases word <;> exact .ofChain (.ofChain (isScopedRoot_of_ne rfl nofun nofun) (by simp))
  | property root accesses text =>
    refine .ofChain (.ofChain ?_ (isAccess_accessParts _ accesses))
    cases hl : scope.inLoop with
    | false => simp [Expr.isScopedRoot, Part.isRoot, hl]
    | true =>
      by_cases hr : root = chainWords.loopVar <;> simp [Expr.isScopedRoot, Part.isRoot, hl, hr]

theorem Compares.everyRead {o : Operand} {ls : List Link} {e : Expr} (h : Compares scope o ls e) :
    EveryRead scope e := by
  induction h with
  | single o => exact o.isRead scope
  | cons o _ _ ih => exact Expr.every_apply (o.isRead scope) _ ih

theorem Groups.everyRead {o : Operand} {ls : List Link} {e : Expr} (h : Groups scope o ls e) :
    EveryRead scope e := by
  induction h with
  | compares h => exact h.everyRead
  | logical h _ _ ih => exact Expr.every_apply h.everyRead _ ih

theorem Chain.every_toExpr (scope : Scope) (c : Chain) : EveryRead scope (c.toExpr scope) := by
  obtain ⟨o, ls⟩ := c
  obtain ⟨e, h⟩ := exists_groups scope o ls
  rw [h.toExpr_eq]
  exact h.everyRead

/-- The steps that there is a filter for. -/
def hasFilter : Step Expr → Bool
  | .apply (.op op) _ => (filterOfOperator? op).isSome
  | .truncate _ _ killWords => !killWords
  | .replace _ _ count => count.isNone
  | .apply (.builtin _) _ | .apply (.custom _) _ | .select .. | .sort .. => true

/-- A filter stands for a step with all of its operands, and its arguments are those of the
filter. -/
theorem Filter.toStep_eq_ok {P : Expr → Prop} {f : Filter} {s : Step Expr}
    (hf : ∀ arg ∈ f.args, P (arg.value.toExpr scope)) (h : f.toStep scope = .ok s) :
    hasFilter s ∧ s.hasOperands ∧ ∀ a ∈ s.args, P a := by
  have hstep := Filter.toStep_eq_ok_iff.mp h
  rw [← and_assoc]
  refine ⟨?_, hstep.forall_args (f.all_toArgs hf)⟩
  cases hstep with
  | @operator op operand hop ho hk =>
    have hall : ∀ entry ∈ arithmetic,
        (filterOfOperator? entry.2).isSome ∧ entry.2.isUnary = false := by decide
    obtain ⟨l₁, l₂, hl, -⟩ := List.lookup_eq_some_iff.mp hop
    obtain ⟨hfilter, hunary⟩ := hall (f.name, op) (by simp [hl])
    exact ⟨hfilter, by simpa [Step.hasOperands] using hunary⟩
  | truncate | replace | select | sort | builtin | custom => exact ⟨rfl, rfl⟩

theorem every_applyFilters {fs : List Filter} {e e' : Expr} (he : EveryRead scope e)
    (h : applyFilters scope e fs = .ok e') : EveryRead scope e' := by
  induction fs generalizing e with
  | nil => exact Except.ok.inj h ▸ he
  | cons f fs ih =>
    obtain ⟨s, hs, h⟩ := bind_eq_ok.mp h
    obtain ⟨-, hoperands, hargs⟩ := Filter.toStep_eq_ok (fun arg _ => arg.value.isRead scope) hs
    exact ih (Expr.every_pipe he hoperands hargs) h

theorem Value.every_toExpr {v : Value} {e : Expr} (h : v.toExpr scope = .ok e) :
    EveryRead scope e :=
  every_applyFilters (v.initial.every_toExpr scope) h

/-! ### What values stand for -/

/-- A value stands for the expression in a scope. -/
def Stated (scope : Scope) (e : Expr) : Prop :=
  ∃ v : Value, v.toExpr scope = .ok e

theorem Stated.everyRead {e : Expr} (h : Stated scope e) : EveryRead scope e :=
  h.elim fun _ => Value.every_toExpr

theorem Chain.stated (scope : Scope) (c : Chain) : Stated scope (c.toExpr scope) :=
  ⟨⟨c, []⟩, rfl⟩

theorem Operand.stated (scope : Scope) (o : Operand) : Stated scope (o.toExpr scope) :=
  Chain.stated scope ⟨o, []⟩

/-- The values of a clause are written like a number, which is any text. -/
theorem stated_whenCondition (scope : Scope) (tag : Tag) (values : List Operand) :
    Stated scope (whenCondition scope tag values) := by
  unfold whenCondition
  split
  · next value => exact value.stated scope
  · exact Operand.stated scope (.number tag.args)

/-- The kinds of nodes that reading gives: no subtemplates that may be missing, and no nodes inside
a tag or beside a value that is assigned. -/
def isReadKind : Node → Bool
  | .subtemplate _ ignoreMissing _ => !ignoreMissing
  | .assignment _ e children _ _ => e.isNone || children.isNone
  | .tag _ _ children _ => children.isEmpty
  | _ => true

/-- A node as it is read in a scope. The nodes inside it play no part. -/
structure IsStated (scope : Scope) (n : Node) : Prop where
  complete : n.isComplete
  kind : isReadKind n
  exprs : ∀ e ∈ n.exprs, Stated scope e

/-- A node and all nodes inside it, as they are read in a scope. -/
abbrev EveryStated (scope : Scope) (n : Node) : Prop :=
  n.Every IsStated scope

/-- The arms of a conditional, as they are read in a scope. -/
abbrev EveryStatedArms (scope : Scope) (arms : List (Branch (List Node))) : Prop :=
  EveryArms Stated IsStated scope arms

/-- A node with a single expression and nothing inside it. -/
theorem everyStated_of_expr {n : Node} {e : Expr} (he : Stated scope e) (hc : n.isComplete)
    (hk : isReadKind n) (hn : n.exprs = [e]) (hp : n.parts scope = []) : EveryStated scope n := by
  refine .leaf ⟨hc, hk, ?_⟩ hp
  rw [hn, List.forall_mem_singleton]
  exact he

/-- A node with neither expressions nor anything inside it. -/
theorem everyStated_of_nil {n : Node} (hc : n.isComplete) (hk : isReadKind n) (hn : n.exprs = [])
    (hp : n.parts scope = []) : EveryStated scope n := by
  refine .leaf ⟨hc, hk, ?_⟩ hp
  rw [hn]
  exact fun _ => nofun

theorem everyStated_conditional {e : Expr} {body : List Node} {arms : List (Branch (List Node))}
    {kind : Variant} {first trim endTrim : Trim}
    (h : EveryStatedArms scope (⟨some e, body, first⟩ :: arms)) :
    EveryStated scope (.conditional kind (⟨some e, body, first⟩ :: arms) trim endTrim) :=
  .conditional ⟨rfl, rfl, h.exprs⟩ fun b hb => (h b hb).2

/-! ### Elements -/

/-- Fragments are read as values in the scope that is handed to them. -/
def ReadsInScope (fragment : FragmentReader) : Prop :=
  ∀ scope text e, fragment scope text = .ok e → Stated scope e

variable {fragment : FragmentReader}

theorem stated_readLoopHeader (hf : ReadsInScope fragment) {args : List Char} {name : String}
    {collection : Expr} (h : readLoopHeader fragment scope args = .ok (name, collection)) :
    Stated scope collection := by
  obtain ⟨before, rest, -, -, -, he, -⟩ := readLoopHeader_eq_ok_iff.mp h
  exact hf _ _ _ he

mutual

theorem Element.everyStated_toNode (hf : ReadsInScope fragment) {scope : Scope} {n : Node} :
    (e : Element) → e.toNode fragment scope = .ok n → EveryStated scope n
  | .html _, h | .verbatim .., h => by
    cases Element.nodeOf h <;> exact everyStated_of_nil rfl rfl rfl rfl
  | .output value span trim, h => by
    cases Element.nodeOf h with
    | output he => exact everyStated_of_expr ⟨value, he⟩ rfl rfl rfl rfl
  | .tag t, h => by
    cases Element.nodeOf h with
    | assign hn hcut he | subtemplate hn hs he =>
      exact everyStated_of_expr (hf _ _ _ he) rfl rfl rfl rfl
    | passOn => exact everyStated_of_nil rfl rfl rfl rfl
  | .conditional ⟨head, condition, body⟩ rest otherwise closing, h => by
    cases Element.nodeOf h with
    | conditional hbody harms halternative =>
      have hmore := (Element.everyStated_clauseArms hf rest harms).append_alternative
        (Element.everyStated_toAlternative hf otherwise halternative)
      exact everyStated_conditional
        (hmore.cons (condition.stated scope) (Element.everyStated_toNodes hf body hbody))
  | .caseOf opening subject whens otherwise closing, h => by
    cases Element.nodeOf h with
    | caseOf hsubject harms halternative =>
      have hmore := (Element.everyStated_whenArms hf whens harms).append_alternative
        (Element.everyStated_toAlternative hf otherwise halternative)
      exact everyStated_conditional (hmore.cons ⟨subject, hsubject⟩ (by simp))
  | .loop opening body otherwise closing, h => by
    cases Element.nodeOf h with
    | loop hheader hbody halternative =>
      refine .loop ⟨rfl, rfl, List.forall_mem_singleton.mpr (stated_readLoopHeader hf hheader)⟩
        (Element.everyStated_toNodes hf body hbody) fun ns hns => ?_
      obtain ⟨p, hp, rfl⟩ := Option.map_eq_some_iff.mp hns
      exact Element.everyStated_toAlternative hf otherwise halternative p hp
  | .capture opening body closing, h => by
    cases Element.nodeOf h with
    | capture htarget hbody =>
      exact .capture ⟨rfl, rfl, fun _ => nofun⟩ (Element.everyStated_toNodes hf body hbody)

theorem Element.everyStated_toNodes (hf : ReadsInScope fragment) {scope : Scope}
    {nodes : List Node} :
    (es : List Element) → Element.toNodes fragment scope es = .ok nodes →
      ∀ n ∈ nodes, EveryStated scope n
  | [], h => by
    rw [Element.toNodes] at h
    obtain rfl := Except.ok.inj h
    exact fun _ => nofun
  | e :: es, h => by
    obtain ⟨node, more, hnode, hmore, rfl⟩ := Element.exists_of_toNodes_cons h
    exact List.forall_mem_cons.mpr
      ⟨e.everyStated_toNode hf hnode, Element.everyStated_toNodes hf es hmore⟩

theorem Element.everyStated_clauseArms (hf : ReadsInScope fragment) {scope : Scope}
    {arms : List (Branch (List Node))} : (clauses : List (Clause Element)) →
      Element.clauseArms fragment scope clauses = .ok arms → EveryStatedArms scope arms
  | [], h => by
    rw [Element.clauseArms] at h
    obtain rfl := Except.ok.inj h
    exact fun _ => nofun
  | ⟨head, condition, body⟩ :: clauses, h => by
    obtain ⟨nodes, more, hnodes, hmore, rfl⟩ := Element.exists_of_clauseArms_cons h
    exact .cons (condition.stated scope) (Element.everyStated_toNodes hf body hnodes)
      (Element.everyStated_clauseArms hf clauses hmore)

theorem Element.everyStated_whenArms (hf : ReadsInScope fragment) {scope : Scope}
    {arms : List (Branch (List Node))} : (whens : List (When Element)) →
      Element.whenArms fragment scope whens = .ok arms → EveryStatedArms scope arms
  | [], h => by
    rw [Element.whenArms] at h
    obtain rfl := Except.ok.inj h
    exact fun _ => nofun
  | ⟨head, values, body⟩ :: whens, h => by
    obtain ⟨nodes, more, hnodes, hmore, rfl⟩ := Element.exists_of_whenArms_cons h
    exact .cons (stated_whenCondition scope head values)
      (Element.everyStated_toNodes hf body hnodes) (Element.everyStated_whenArms hf whens hmore)

theorem Element.everyStated_toAlternative (hf : ReadsInScope fragment) {scope : Scope}
    {result : Option (List Node × Trim)} : (alternative : Option (Alternative Element)) →
      Element.toAlternative fragment scope alternative = .ok result →
        ∀ p ∈ result, ∀ n ∈ p.1, EveryStated scope n
  | none, h => by
    rw [Element.toAlternative] at h
    obtain rfl := Except.ok.inj h
    exact nofun
  | some ⟨head, body⟩, h => by
    rw [Element.toAlternative] at h
    obtain ⟨nodes, hnodes, rfl⟩ := bind_pure_eq_ok.mp h
    rintro _ ⟨⟩
    exact Element.everyStated_toNodes hf body hnodes

end

/-! ### Sources and fragments -/

theorem everyStated_readWith (hf : ReadsInScope fragment) {source : String} {nodes : List Node}
    (h : readWith fragment scope source = .ok nodes) : ∀ n ∈ nodes, EveryStated scope n := by
  obtain ⟨es, -, h⟩ := bind_eq_ok.mp h
  exact Element.everyStated_toNodes hf es h

/-- A fragment is an output, and is read in the scope that is handed to it. -/
theorem readsInScope_readFragment (depth : Nat) : ReadsInScope (readFragment depth) := by
  induction depth with
  | zero => exact fun _ _ _ => nofun
  | succ depth ih =>
    intro scope text e h
    obtain ⟨nodes, hnodes, h⟩ := bind_eq_ok.mp h
    unfold outputExpr at h
    split at h
    · obtain rfl := Except.ok.inj h
      have hnode := everyStated_readWith ih hnodes _ List.mem_cons_self
      cases hnode with
      | intro h _ => exact h.exprs _ List.mem_cons_self
    · cases h

/-- A template that is read from Liquid is made of the expressions of values. -/
theorem everyStated_read {source : String} {nodes : List Node} (h : read source = .ok nodes) :
    ∀ n ∈ nodes, EveryStated {} n :=
  everyStated_readWith (readsInScope_readFragment source.length) h

/-- A template that is read from Liquid is well formed, and the loop object stands where it
belongs. -/
theorem every_read {source : String} {nodes : List Node} (h : read source = .ok nodes) :
    ∀ n ∈ nodes, EveryReadNode {} n := by
  intro n hn
  refine (everyStated_read h n hn).mono fun scope n hn => ⟨rfl, hn.complete, fun e he => ?_⟩
  exact (hn.exprs e he).everyRead

end Stencil.Liquid
