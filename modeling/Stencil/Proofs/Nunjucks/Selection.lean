import Stencil.Nunjucks.Reader
import Stencil.Proofs.Nunjucks.Containment

/-!
# The branch that is rendered

What a conditional renders depends on the truth of its conditions and, for a case distinction, on
the values that its subject agrees with. This is stated here for each kind of conditional on its
own: every branch gets a verdict, and the first branch with a positive one is rendered, or else the
one that has no condition. The chain that a conditional is written as tries its conditions one after
the other and renders the same branch, whatever the truth values are. So does the opposite choice
that a chain is read as.

## Main definitions

* `Valuation` : truth values of conditions.
* `Valuation.chosen` : the branch that a conditional renders.
* `Valuation.tried` : the branch that a chain comes to when its conditions are tried in order.
* `IsShaped` : the conditionals that readers build.
* `Nunjucks.Lowered.rendered`, `Nunjucks.Lowered.toNodes` : what is rendered of a conditional that
  has become a chain, and the chain as a template.

## Main results

* `Valuation.tried_eq_favoured` : trying conditions in order finds the favoured branch of a chain.
* `Nunjucks.rendered_lower` : a conditional becomes a chain that renders the same branch.
* `Nunjucks.chosen_recogniseVariant` : a chain without its outermost negation renders the same
  nodes.
* `Nunjucks.selection_preserved` : both, for what is written and what is read.
-/

namespace Stencil

/-! ### Valuations -/

/-- Truth values of conditions, and the values that a subject agrees with. Negation and comparison
mean what they should; apart from that, any condition may be true or false. -/
structure Valuation where
  /-- The condition is true. -/
  holds : Expr → Bool
  /-- The subject of a case distinction agrees with a value. -/
  agrees : (subject value : Expr) → Bool
  /-- Negation turns truth around. -/
  holds_not : ∀ (e : Expr) (args : List Expr),
    holds (e.pipe (.apply (.op .not) args)) = !holds e
  /-- A comparison is true if the two sides agree. -/
  holds_equal : ∀ subject value : Expr, holds (subject.apply .equal value) = agrees subject value

namespace Valuation

/-- The truth of a chain with its steps in reverse order, given the truth of the conditions that are
neither negations nor comparisons. -/
def truth (atom : Expr → Bool) (agrees : Expr → Expr → Bool) (chain : List Part) :
    List (Step Expr) → Bool
  | .apply (.op .not) _ :: before => !truth atom agrees chain before
  | .apply (.op .equal) [value] :: before => agrees ⟨chain, before.reverse⟩ value
  | steps => atom ⟨chain, steps.reverse⟩

/-- The valuation with given truth values for all conditions but negations and comparisons. -/
def ofAtoms (atom : Expr → Bool) (agrees : Expr → Expr → Bool) : Valuation where
  holds e := truth atom agrees e.chain e.steps.reverse
  agrees := agrees
  holds_not e args := by simp [Expr.pipe, truth]
  holds_equal subject value := by
    obtain ⟨chain, steps⟩ := subject
    simp [Expr.apply, Expr.pipe, Operator.isUnary, truth]

variable {β : Type} (v : Valuation)

/-- The verdicts on the branches of a conditional that can be rendered, each with its body. A branch
without condition has no verdict. -/
def verdicts : Variant → List (Branch β) → List (Option Bool × β)
  | .ifTrue, bs => bs.map fun b => (b.condition.map v.holds, b.body)
  | .ifFalse, [] => []
  | .ifFalse, b :: bs => (b.condition.map fun c => !v.holds c, b.body) ::
      bs.map fun b => (b.condition.map v.holds, b.body)
  | .caseOf, ⟨some subject, _, _⟩ :: arms =>
      arms.map fun b => (b.condition.map (v.agrees subject), b.body)
  | .caseOf, _ => []

/-- The body of the first branch with a positive verdict, or else of the one without a verdict. -/
def favoured (verdicts : List (Option Bool × β)) : Option β :=
  ((verdicts.find? (·.1 == some true)).or (verdicts.find? (·.1 == none))).map (·.2)

/-- The body that a conditional renders, if it renders one. -/
def chosen (kind : Variant) (branches : List (Branch β)) : Option β :=
  favoured (v.verdicts kind branches)

/-- The body that a chain comes to when its conditions are tried one after the other. -/
def tried : List (Branch β) → Option β
  | [] => none
  | ⟨none, body, _⟩ :: _ => some body
  | ⟨some condition, body, _⟩ :: rest => if v.holds condition then some body else tried rest

end Valuation

/-! ### Conditionals that readers build -/

/-- The shape of conditionals that are read: the first branch has a condition, and at most the last
one has none. The first branch of a case distinction has its subject and no nodes. -/
inductive IsShaped : Variant → List (Branch (List Node)) → Prop
  | chain {kind : Variant} {condition : Expr} {body : List Node} {trim : Trim}
      {arms : List (Branch (List Node))} {alternative : Option (List Node × Trim)}
      (hkind : kind ≠ .caseOf) (harms : ∀ b ∈ arms, b.condition.isSome) :
      IsShaped kind (⟨some condition, body, trim⟩ :: arms ++ Branch.ofAlternative alternative)
  | caseOf {subject : Expr} {trim : Trim} {arms : List (Branch (List Node))}
      {alternative : Option (List Node × Trim)} (harms : ∀ b ∈ arms, b.condition.isSome) :
      IsShaped .caseOf (⟨some subject, [], trim⟩ :: arms ++ Branch.ofAlternative alternative)

namespace Valuation

variable {β : Type} (v : Valuation)

theorem favoured_cons (verdict : Bool) (body : β) (rest : List (Option Bool × β)) :
    favoured ((some verdict, body) :: rest) = if verdict then some body else favoured rest := by
  cases verdict <;> simp [favoured]

/-- Conditions that are tried in order lead to the favoured branch, if only the last one has no
condition. The conditions may have been rewritten, as long as their truth is the verdict. -/
theorem tried_eq_favoured {arms : List (Branch (List Node))} {verdict : Expr → Bool}
    (rewritten : Expr → Expr) (hverdict : ∀ e, v.holds (rewritten e) = verdict e)
    (harms : ∀ b ∈ arms, b.condition.isSome) (alternative : Option (List Node × Trim)) :
    v.tried ((arms ++ Branch.ofAlternative alternative).map fun b =>
        { b with condition := b.condition.map rewritten }) =
      favoured ((arms ++ Branch.ofAlternative alternative).map fun b =>
        (b.condition.map verdict, b.body)) := by
  induction arms with
  | nil => cases alternative <;> rfl
  | cons b arms ih =>
    obtain ⟨hb, hrest⟩ := List.forall_mem_cons.mp harms
    obtain ⟨condition, body, trim⟩ := b
    obtain ⟨condition, rfl⟩ := Option.isSome_iff_exists.mp hb
    simp only [List.cons_append, List.map_cons, Option.map_some, favoured_cons, tried, hverdict,
      ih hrest]

/-- The same for conditions as they are. -/
theorem tried_eq_favoured_holds {arms : List (Branch (List Node))}
    (harms : ∀ b ∈ arms, b.condition.isSome) (alternative : Option (List Node × Trim)) :
    v.tried (arms ++ Branch.ofAlternative alternative) =
      favoured ((arms ++ Branch.ofAlternative alternative).map fun b =>
        (b.condition.map v.holds, b.body)) := by
  have h := v.tried_eq_favoured id (fun _ => rfl) harms alternative
  simpa only [Option.map_id_fun, id_eq, List.map_id_fun'] using h

end Valuation

namespace Nunjucks

/-! ### What is written -/

namespace Lowered

/-- The body that is rendered of a conditional that has become a chain. -/
def rendered {β : Type} (v : Valuation) : Lowered β → Option β
  | chain _ branches => v.tried branches
  | always body => some body
  | nothing => none

/-- A conditional that has become a chain, as a template. -/
def toNodes (endTrim : Trim) : Lowered (List Node) → List Node
  | chain trim branches => [.conditional .ifTrue branches trim endTrim]
  | always body => body
  | nothing => []

end Lowered

variable {β : Type} {kind : Variant} {branches : List (Branch (List Node))} {trim endTrim : Trim}

/-- A case distinction that is not refused compares its subject with one value after the other. -/
theorem eq_of_caseArms {language : String} {subject : Expr} {arms arms' : List (Branch β)}
    (h : caseArms language subject arms = .ok arms') :
    arms' = arms.map fun b => { b with condition := b.condition.map (subject.apply .equal) } := by
  induction arms generalizing arms' with
  | nil =>
    cases h
    rfl
  | cons b arms ih =>
    obtain ⟨_ | value, body, trim⟩ := b
    · obtain ⟨rest, hrest, h⟩ := bind_eq_ok.mp h
      cases h
      rw [ih hrest]
      rfl
    · rw [caseArms] at h
      split at h
      · cases h
      · obtain ⟨rest, hrest, h⟩ := bind_eq_ok.mp h
        cases h
        rw [ih hrest]
        rfl

/-- The first tag of a case distinction and its first value become one condition; an alternative
without values before it is always rendered. -/
theorem rendered_ofCaseArms (v : Valuation) (trim : Trim) (arms : List (Branch β)) :
    (ofCaseArms trim arms).rendered v = v.tried arms := by
  rcases arms with _ | ⟨⟨_ | condition, body, first⟩, rest⟩ <;> rfl

/-- A conditional becomes a chain that renders the same branch. -/
theorem rendered_lower (v : Valuation) {lowered : Lowered (List Node)} {language : String}
    (hshaped : IsShaped kind branches) (h : lower language trim branches kind = .ok lowered) :
    lowered.rendered v = v.chosen kind branches := by
  cases hshaped with
  | @chain _ condition body first arms alternative hkind harms =>
    have hrest := v.tried_eq_favoured_holds harms alternative
    cases kind with
    | ifTrue =>
      cases h
      simp only [Lowered.rendered, Valuation.chosen, Valuation.verdicts, List.cons_append,
        List.map_cons, Option.map_some, Valuation.favoured_cons, Valuation.tried, hrest]
    | ifFalse =>
      cases h
      -- Only the first condition is negated, both in the chain and in what it means.
      have hnot : v.holds condition.negate = !v.holds condition := v.holds_not condition []
      simp only [Lowered.rendered, Valuation.chosen, Valuation.verdicts, List.cons_append,
        negateFirst, Option.map_some, Valuation.favoured_cons, Valuation.tried, hrest, hnot]
    | caseOf => exact absurd rfl hkind
  | @caseOf subject first arms alternative harms =>
    obtain ⟨arms', harms', rfl⟩ := map_eq_ok.mp h
    rw [rendered_ofCaseArms, eq_of_caseArms harms']
    exact v.tried_eq_favoured (subject.apply .equal) (v.holds_equal subject) harms alternative

/-- A template of one node. -/
theorem write_singleton (n : Node) : write [n] = dialect.writeNode n := by
  rw [write, Dialect.write, Dialect.write]
  cases dialect.writeNode n <;> simp [bind, Except.bind, pure, Except.pure]

/-- A conditional is written as the template that it becomes. -/
theorem write_conditional :
    write [.conditional kind branches trim endTrim] =
      (lower languageName trim branches kind).bind fun lowered =>
        write (lowered.toNodes endTrim) := by
  rw [write_singleton, Dialect.writeNode, Dialect.writeBranches_eq_map]
  change writeConditional kind (branches.map (Branch.map dialect.write)) trim endTrim = _
  rw [writeConditional, lower_map]
  cases lower languageName trim branches kind with
  | error => rfl
  | ok lowered =>
    rw [map_ok, bind_ok, bind_ok]
    cases lowered with
    | chain first chain =>
      rw [Lowered.toNodes, write_singleton, writeNode_conditional rfl,
        Dialect.writeBranches_eq_map]
      rfl
    | always body => rfl
    | nothing => rfl

/-! ### What is read -/

/-- The branches of a conditional in the order of its tags, before its kind is recognised. -/
def branchesOf (l : Lifted) (scope : Scope) (first : Clause Element) (rest : List (Clause Element))
    (otherwise : Option (Alternative Element)) : Except ReadError (List (Branch (List Node))) := do
  let condition ← first.condition.toExpr scope
  let body ← Element.toNodes l scope first.body
  let arms ← Element.clauseArms l scope rest
  let alternative ← Element.toAlternative l scope otherwise
  return ⟨some condition, body, .unset⟩ :: arms ++ Branch.ofAlternative alternative

variable {l : Lifted} {scope : Scope} {first : Clause Element} {rest : List (Clause Element)}
  {otherwise : Option (Alternative Element)}

theorem toNode_conditional (endPos : Nat) :
    Element.toNode l scope (.conditional first rest otherwise endPos) =
      (branchesOf l scope first rest otherwise).map fun branches =>
        .conditional (recogniseVariant branches).1 (recogniseVariant branches).2
          (l.markers first.pos) (l.markers endPos) := by
  obtain ⟨pos, condition, body⟩ := first
  rw [Element.toNode, branchesOf]
  cases condition.toExpr scope with
  | error => rfl
  | ok e =>
    cases Element.toNodes l scope body with
    | error => rfl
    | ok nodes =>
      cases Element.clauseArms l scope rest with
      | error => rfl
      | ok arms => cases Element.toAlternative l scope otherwise <;> rfl

/-- All arms after the first one have a condition. -/
theorem isSome_of_clauseArms {clauses : List (Clause Element)} {arms : List (Branch (List Node))}
    (h : Element.clauseArms l scope clauses = .ok arms) : ∀ b ∈ arms, b.condition.isSome := by
  induction clauses generalizing arms with
  | nil =>
    rw [Element.clauseArms] at h
    cases h
    exact List.forall_mem_nil _
  | cons clause clauses ih =>
    obtain ⟨pos, condition, body⟩ := clause
    rw [Element.clauseArms] at h
    obtain ⟨e, -, h⟩ := bind_eq_ok.mp h
    obtain ⟨nodes, -, h⟩ := bind_eq_ok.mp h
    obtain ⟨rest, hrest, h⟩ := bind_eq_ok.mp h
    cases h
    exact List.forall_mem_cons.mpr ⟨rfl, ih hrest⟩

theorem isShaped_of_branchesOf (h : branchesOf l scope first rest otherwise = .ok branches) :
    IsShaped .ifTrue branches := by
  obtain ⟨condition, -, h⟩ := bind_eq_ok.mp h
  obtain ⟨body, -, h⟩ := bind_eq_ok.mp h
  obtain ⟨arms, harms, h⟩ := bind_eq_ok.mp h
  obtain ⟨alternative, -, h⟩ := bind_eq_ok.mp h
  cases h
  exact .chain (by decide) (isSome_of_clauseArms harms)

/-- An expression whose last step is a negation. -/
theorem exists_of_isNegation {e : Expr} (h : isNegation e) :
    ∃ args, e = ({ e with steps := e.steps.dropLast } : Expr).pipe (.apply (.op .not) args) := by
  obtain ⟨chain, steps⟩ := e
  rw [isNegation, beq_iff_eq, Expr.lastOperator?, Option.bind_eq_some_iff] at h
  obtain ⟨s, hs, hop⟩ := h
  obtain ⟨args, rfl⟩ : ∃ args, s = .apply (.op .not) args := by
    unfold Step.operator? at hop
    split at hop
    · obtain rfl := Option.some.inj hop
      exact ⟨_, rfl⟩
    · cases hop
  refine ⟨args, ?_⟩
  rw [Expr.pipe, Expr.mk.injEq]
  exact ⟨rfl, (List.dropLast_append_getLast? _ hs).symm⟩

/-- At most one idle arm is nothing or an arm that renders nothing. -/
theorem getD_favoured_of_idle (v : Valuation) {arms : List (Branch (List Node))}
    (hidle : arms.all isIdleElse) (hlength : arms.length ≤ 1) :
    (Valuation.favoured (arms.map fun b => (b.condition.map v.holds, b.body))).getD [] = [] := by
  rcases arms with _ | ⟨b, _ | ⟨b', arms⟩⟩
  · rfl
  · obtain ⟨condition, body, trim⟩ := b
    simp only [List.all_cons, List.all_nil, Bool.and_true, isIdleElse, Bool.and_eq_true,
      Option.isNone_iff_eq_none, List.isEmpty_iff] at hidle
    obtain ⟨⟨rfl, rfl⟩, -⟩ := hidle
    rfl
  · simp at hlength

/-- A chain renders the same nodes without its outermost negation, as the opposite choice. -/
theorem chosen_recogniseVariant (v : Valuation) (h : IsShaped .ifTrue branches) :
    (v.chosen (recogniseVariant branches).1 (recogniseVariant branches).2).getD [] =
      (v.chosen .ifTrue branches).getD [] := by
  cases h with
  | @chain _ condition body trim arms alternative _ _ =>
    rw [List.cons_append, recogniseVariant]
    split
    · next hstrip =>
      simp only [Bool.and_eq_true, decide_eq_true_eq] at hstrip
      obtain ⟨⟨hidle, hlength⟩, hnegation⟩ := hstrip
      obtain ⟨args, hcondition⟩ := exists_of_isNegation hnegation
      have hnot := v.holds_not { condition with steps := condition.steps.dropLast } args
      rw [← hcondition] at hnot
      have hrest := getD_favoured_of_idle v hidle hlength
      simp only [Valuation.chosen, Valuation.verdicts, List.map_cons, List.map_nil, Option.map_some,
        Valuation.favoured_cons, hnot]
      split
      · rfl
      · rw [hrest]
        rfl
    · rfl

/-- The opposite choice that a chain is read as is again shaped. -/
theorem isShaped_recogniseVariant (h : IsShaped .ifTrue branches) :
    IsShaped (recogniseVariant branches).1 (recogniseVariant branches).2 := by
  cases h with
  | chain hkind harms =>
    rw [List.cons_append, recogniseVariant]
    split
    · exact @IsShaped.chain .ifFalse _ _ _ [] none (by decide) (List.forall_mem_nil _)
    · exact .chain hkind harms

/-! ### Both ways -/

/-- Conditionals render the same branch whatever they are rewritten to. A conditional that is
written is written as a chain of conditions, or as what is left of one, that renders the branch of
the conditional. A conditional that is read renders the nodes that its tags render in their
order. -/
theorem selection_preserved (v : Valuation) :
    (∀ kind branches trim endTrim text, IsShaped kind branches →
      write [.conditional kind branches trim endTrim] = .ok text →
        ∃ lowered, lower languageName trim branches kind = .ok lowered ∧
          write (lowered.toNodes endTrim) = .ok text ∧
          lowered.rendered v = v.chosen kind branches) ∧
    ∀ l scope first rest otherwise endPos node,
      Element.toNode l scope (.conditional first rest otherwise endPos) = .ok node →
        ∃ chain kind branches trim endTrim,
          branchesOf l scope first rest otherwise = .ok chain ∧
          node = .conditional kind branches trim endTrim ∧
          IsShaped .ifTrue chain ∧ IsShaped kind branches ∧
          (v.chosen kind branches).getD [] = (v.chosen .ifTrue chain).getD [] := by
  refine ⟨fun kind branches trim endTrim text hshaped h => ?_,
    fun l scope first rest otherwise endPos node h => ?_⟩
  · rw [write_conditional] at h
    obtain ⟨lowered, hlower, hwrite⟩ := bind_eq_ok.mp h
    exact ⟨lowered, hlower, hwrite, rendered_lower v hshaped hlower⟩
  · rw [toNode_conditional] at h
    obtain ⟨chain, hchain, rfl⟩ := map_eq_ok.mp h
    have hshaped := isShaped_of_branchesOf hchain
    exact ⟨chain, _, _, _, _, hchain, rfl, hshaped, isShaped_recogniseVariant hshaped,
      chosen_recogniseVariant v hshaped⟩

/-- A case distinction with two values and an alternative, of which the second value agrees with the
subject, and a chain with a negated condition and an idle alternative. -/
theorem selection_preserved_both_ways :
    let v := Valuation.ofAtoms (fun _ => false) fun _ value => value.chain == [.literal "2"]
    let branches : List (Branch (List Node)) :=
      [⟨some (.ident "a"), [], .unset⟩, ⟨some (.literal "1"), [.text "x"], .unset⟩,
        ⟨some (.literal "2"), [.text "y"], .unset⟩, ⟨none, [.text "z"], .unset⟩]
    let text := "\x7b% if a == 1 %\x7dx\x7b% elif a == 2 %\x7dy\x7b% else %\x7dz\x7b% endif %\x7d"
    let first : Clause Element := ⟨3, .negated (.symbol ⟨10, ['a']⟩), [.data ⟨14, ['x']⟩]⟩
    let node : Node :=
      .conditional .ifFalse [⟨some (.ident "a"), [.text "x"], .unset⟩] .unset .unset
    IsShaped .caseOf branches ∧ write [.conditional .caseOf branches .unset .unset] = .ok text ∧
      v.chosen .caseOf branches = some [.text "y"] ∧
      (∃ lowered, lower languageName .unset branches .caseOf = .ok lowered ∧
        write (lowered.toNodes .unset) = .ok text ∧
        lowered.rendered v = v.chosen .caseOf branches) ∧
      Element.toNode ⟨[], []⟩ {} (.conditional first [] (some ⟨18, []⟩) 29) = .ok node ∧
      ∃ chain kind branches trim endTrim,
        branchesOf ⟨[], []⟩ {} first [] (some ⟨18, []⟩) = .ok chain ∧
        node = .conditional kind branches trim endTrim ∧
        IsShaped .ifTrue chain ∧ IsShaped kind branches ∧
        (v.chosen kind branches).getD [] = (v.chosen .ifTrue chain).getD [] := by
  intro v branches text first node
  have hshaped : IsShaped .caseOf branches :=
    @IsShaped.caseOf (.ident "a") .unset
      [⟨some (.literal "1"), [.text "x"], .unset⟩, ⟨some (.literal "2"), [.text "y"], .unset⟩]
      (some ([.text "z"], .unset)) (by decide)
  have hwrite : write [.conditional .caseOf branches .unset .unset] = .ok text := rfl
  have hread : Element.toNode ⟨[], []⟩ {} (.conditional first [] (some ⟨18, []⟩) 29) =
      .ok node := by
    rfl
  obtain ⟨hwritten, hreading⟩ := selection_preserved v
  exact ⟨hshaped, hwrite, rfl, hwritten _ _ _ _ _ hshaped hwrite, hread,
    hreading _ _ _ _ _ _ _ hread⟩

end Nunjucks

end Stencil
