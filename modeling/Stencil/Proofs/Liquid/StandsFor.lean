import Stencil.Liquid.Reader

/-!
# What filters and elements stand for

The reader makes a step of a filter and a node of an element, or it refuses them. What it makes of
them is said here once, case by case and with all that has to hold, so that no proof about what is
read has to look into the reader.

## Main definitions

* `Liquid.StepOf` : the step of a filter.
* `Liquid.NodeOf` : the node of an element, given how what is inside it is read.
-/

namespace Stencil.Liquid

/-! ### Filters -/

/-- The filters that stand for an operator or whose arguments are not a plain list. -/
def reservedFilters : List String :=
  arithmetic.map (·.1) ++ ["truncate", "replace", "where", "sort"]

theorem not_mem_reservedFilters_iff {name : String} : name ∉ reservedFilters ↔
    operatorOfFilter? name = none ∧ name ∉ ["truncate", "replace", "where", "sort"] := by
  have hop : name ∉ arithmetic.map (·.1) ↔ operatorOfFilter? name = none := by
    simp only [operatorOfFilter?, List.lookup_eq_none_iff, bne_iff_ne, List.mem_map, not_exists,
      not_and, ne_eq, eq_comm (a := name)]
  rw [reservedFilters, List.mem_append, not_or, hop]

/-- The step that a filter with the given name and arguments stands for. -/
inductive StepOf (name : String) (args : FilterArgs) : Step Expr → Prop
  | operator {op : Operator} {operand : Expr} (hop : operatorOfFilter? name = some op)
      (ho : args.get? 0 "operand" = some operand) (hk : args.keywords = []) :
      StepOf name args (.apply (.op op) [operand])
  | truncate {length : Expr} (hn : name = "truncate") (hl : args.get? 0 "length" = some length) :
      StepOf name args (.truncate length (args.get? 1 "ellipsis") false)
  | replace {old new : Expr} (hn : name = "replace") (ho : args.get? 0 "old" = some old)
      (hw : args.get? 1 "new" = some new) : StepOf name args (.replace old new none)
  | select {key : Expr} (hn : name = "where") (hk : args.get? 0 "attribute" = some key) :
      StepOf name args (.select key (args.get? 1 "value"))
  | sort (hn : name = "sort") : StepOf name args (.sort (args.get? 0 "attribute") false)
  | builtin {filter : Builtin} (hn : name ∉ reservedFilters)
      (hb : Builtin.ofLiquid? name = some filter) (hk : args.keywords = []) :
      StepOf name args (.apply (.builtin filter) args.positional)
  | custom (hn : name ∉ reservedFilters) (hb : Builtin.ofLiquid? name = none)
      (hk : args.keywords = []) : StepOf name args (.apply (.custom name) args.positional)

namespace Filter

variable {f : Filter} {scope : Scope} {s : Step Expr}

theorem stepOf_of_toStep (h : f.toStep scope = .ok s) : StepOf f.name (f.toArgs scope) s := by
  unfold toStep at h
  simp only at h
  split at h
  · next op hop =>
    obtain ⟨operand, ho, h⟩ := bind_eq_ok.mp h
    obtain ⟨_, hes, rfl⟩ := bind_pure_eq_ok.mp h
    exact .operator hop (FilterArgs.require_eq_ok_iff.mp ho)
      (FilterArgs.positionalOnly_eq_ok_iff.mp hes).1
  · next hop =>
    split at h
    · next hn =>
      obtain ⟨length, hl, rfl⟩ := bind_pure_eq_ok.mp h
      exact .truncate hn (FilterArgs.require_eq_ok_iff.mp hl)
    · next hn =>
      obtain ⟨old, ho, h⟩ := bind_eq_ok.mp h
      obtain ⟨new, hw, rfl⟩ := bind_pure_eq_ok.mp h
      exact .replace hn (FilterArgs.require_eq_ok_iff.mp ho) (FilterArgs.require_eq_ok_iff.mp hw)
    · next hn =>
      obtain ⟨key, hk, rfl⟩ := bind_pure_eq_ok.mp h
      exact .select hn (FilterArgs.require_eq_ok_iff.mp hk)
    · next hn =>
      obtain rfl := Except.ok.inj h
      exact .sort hn
    · next htruncate hreplace hwhere hsort =>
      have hn : f.name ∉ reservedFilters :=
        not_mem_reservedFilters_iff.mpr ⟨hop, by simpa using ⟨htruncate, hreplace, hwhere, hsort⟩⟩
      obtain ⟨es, hes, h⟩ := bind_eq_ok.mp h
      obtain ⟨hk, rfl⟩ := FilterArgs.positionalOnly_eq_ok_iff.mp hes
      split at h
      · next filter hb =>
        obtain rfl := Except.ok.inj h
        exact .builtin hn hb hk
      · next hb =>
        obtain rfl := Except.ok.inj h
        exact .custom hn hb hk

theorem toStep_of_stepOf (h : StepOf f.name (f.toArgs scope) s) : f.toStep scope = .ok s := by
  have hplain : f.name ∉ reservedFilters → (f.toArgs scope).keywords = [] →
      f.toStep scope = .ok (.apply ((Builtin.ofLiquid? f.name).elim (.custom f.name) .builtin)
        (f.toArgs scope).positional) := by
    intro hn hk
    obtain ⟨hop, hn⟩ := not_mem_reservedFilters_iff.mp hn
    have hes := FilterArgs.positionalOnly_eq_ok_iff.mpr ⟨hk, rfl⟩
    unfold toStep
    simp only [hop]
    split
    all_goals simp_all
    cases Builtin.ofLiquid? f.name <;> rfl
  cases h with
  | operator hop ho hk =>
    have hes := FilterArgs.positionalOnly_eq_ok_iff.mpr ⟨hk, rfl⟩
    simp only [toStep, hop, FilterArgs.require_eq_ok_iff.mpr ho, hes, ok_bind]
    rfl
  | truncate hn hl =>
    simp only [toStep, hn, FilterArgs.require_eq_ok_iff.mpr hl, ok_bind]
    rfl
  | replace hn ho hw =>
    simp only [toStep, hn, FilterArgs.require_eq_ok_iff.mpr ho, FilterArgs.require_eq_ok_iff.mpr hw,
      ok_bind]
    rfl
  | select hn hk =>
    simp only [toStep, hn, FilterArgs.require_eq_ok_iff.mpr hk, ok_bind]
    rfl
  | sort hn =>
    simp only [toStep, hn]
    rfl
  | builtin hn hb hk => rw [hplain hn hk, hb, Option.elim_some]
  | custom hn hb hk => rw [hplain hn hk, hb, Option.elim_none]

/-- A filter is read as a step exactly if it stands for it. -/
theorem toStep_eq_ok_iff : f.toStep scope = .ok s ↔ StepOf f.name (f.toArgs scope) s :=
  ⟨stepOf_of_toStep, toStep_of_stepOf⟩

end Filter

/-! ### Elements -/

variable {fragment : FragmentReader} {scope : Scope}

/-- The header of a loop is cut at its first `in`, and the rest of it is read as a fragment. -/
theorem readLoopHeader_eq_ok_iff {args : List Char} {name : String} {collection : Expr} :
    readLoopHeader fragment scope args = .ok (name, collection) ↔
      ∃ before rest, Text.cut? " in ".toList args = some (before, rest) ∧
        (Text.trim before).isEmpty = false ∧ loopModifier? rest = none ∧
        fragment scope rest = .ok collection ∧ name = String.ofList (Text.trim before) := by
  unfold readLoopHeader
  constructor
  · intro h
    split at h
    · cases h
    · next before rest hcut =>
      simp only at h
      split at h
      · cases h
      · next hname =>
        split at h
        · cases h
        · next hmodifier =>
          obtain ⟨e, he, heq⟩ := map_eq_ok.mp h
          obtain ⟨rfl, rfl⟩ := Prod.mk.inj heq
          exact ⟨before, rest, hcut, Bool.eq_false_iff.mpr hname, hmodifier, he, rfl⟩
  · rintro ⟨before, rest, hcut, hname, hmodifier, he, rfl⟩
    simp only [hcut, hname, Bool.false_eq_true, if_false, hmodifier, he, map_ok]

/-- The node that an element stands for in a scope, given how fragments are read and what the
elements inside it stand for. -/
inductive NodeOf (fragment : FragmentReader) (scope : Scope) : Element → Node → Prop
  | html (text : Piece) : NodeOf fragment scope (.html text) (.text text.toString)
  | output {value : Value} {span : Span} {trim : Trim} {e : Expr}
      (he : value.toExpr scope = .ok e) :
      NodeOf fragment scope (.output value span trim) (.output e trim)
  | assign {tag : Tag} {target text : List Char} {e : Expr} (hn : tag.name = "assign")
      (hcut : Text.cut? ['='] tag.args.text = some (target, text))
      (he : fragment scope text = .ok e) :
      NodeOf fragment scope (.tag tag)
        (.assignment (String.ofList (Text.trim target)) (some e) none tag.trim .unset)
  | subtemplate {tag : Tag} {e : Expr} (hn : tag.name = "include") (hs : isSingleOperand tag.args)
      (he : fragment scope tag.args.text = .ok e) :
      NodeOf fragment scope (.tag tag) (.subtemplate e false tag.trim)
  | passOn {tag : Tag} (hn : tag.name ≠ "assign") :
      NodeOf fragment scope (.tag tag) (.tag tag.name tag.args.toString [] tag.trim)
  | comment {opening closing : Tag} (content : Piece) (hn : opening.name = "comment") :
      NodeOf fragment scope (.verbatim opening content closing)
        (.comment content.toString opening.trim closing.trim)
  | raw {opening closing : Tag} (content : Piece) (hn : opening.name ≠ "comment") :
      NodeOf fragment scope (.verbatim opening content closing)
        (.raw content.toString opening.trim closing.trim)
  | conditional {head closing : Tag} {condition : Chain} {body : List Element}
      {rest : List (Clause Element)} {otherwise : Option (Alternative Element)} {nodes : List Node}
      {arms : List (Branch (List Node))} {alternative : Option (List Node × Trim)}
      (hbody : Element.toNodes fragment scope body = .ok nodes)
      (harms : Element.clauseArms fragment scope rest = .ok arms)
      (halternative : Element.toAlternative fragment scope otherwise = .ok alternative) :
      NodeOf fragment scope (.conditional ⟨head, condition, body⟩ rest otherwise closing)
        (.conditional (conditionalKind head)
          (⟨some (condition.toExpr scope), nodes, .unset⟩ :: arms ++
            Branch.ofAlternative alternative)
          head.trim closing.trim)
  | caseOf {opening closing : Tag} {subject : Value} {whens : List (When Element)}
      {otherwise : Option (Alternative Element)} {e : Expr} {arms : List (Branch (List Node))}
      {alternative : Option (List Node × Trim)} (hsubject : subject.toExpr scope = .ok e)
      (harms : Element.whenArms fragment scope whens = .ok arms)
      (halternative : Element.toAlternative fragment scope otherwise = .ok alternative) :
      NodeOf fragment scope (.caseOf opening subject whens otherwise closing)
        (.conditional .caseOf (⟨some e, [], .unset⟩ :: arms ++ Branch.ofAlternative alternative)
          opening.trim closing.trim)
  | loop {opening closing : Tag} {body : List Element} {otherwise : Option (Alternative Element)}
      {name : String} {collection : Expr} {children : List Node}
      {alternative : Option (List Node × Trim)}
      (hheader : readLoopHeader fragment scope opening.args.text = .ok (name, collection))
      (hbody : Element.toNodes fragment .loopBody body = .ok children)
      (halternative : Element.toAlternative fragment scope otherwise = .ok alternative) :
      NodeOf fragment scope (.loop opening body otherwise closing)
        (.loop name collection children (alternative.map (·.1)) opening.trim
          ((alternative.map (·.2)).getD .unset) closing.trim)
  | capture {opening closing : Tag} {body : List Element} {target : String} {children : List Node}
      (htarget : captureTarget opening = .ok target)
      (hbody : Element.toNodes fragment scope body = .ok children) :
      NodeOf fragment scope (.capture opening body closing)
        (.assignment target none (some children) opening.trim closing.trim)

theorem nodeOf_of_readSingleTag {tag : Tag} {n : Node}
    (h : readSingleTag fragment scope tag = .ok n) : NodeOf fragment scope (.tag tag) n := by
  unfold readSingleTag at h
  split at h
  · next hname =>
    unfold readAssign at h
    split at h
    · cases h
    · next target text hcut =>
      simp only at h
      split at h
      · cases h
      · obtain ⟨e, he, rfl⟩ := map_eq_ok.mp h
        exact .assign (beq_iff_eq.mp hname) hcut he
  · next hassign =>
    split at h
    · next hname =>
      rw [Bool.and_eq_true, beq_iff_eq] at hname
      obtain ⟨e, he, rfl⟩ := map_eq_ok.mp h
      exact .subtemplate hname.1 hname.2 he
    · obtain rfl := Except.ok.inj h
      exact .passOn (beq_eq_false_iff_ne.mp (Bool.eq_false_iff.mpr hassign))

/-- What the reader makes of an element is a node that it stands for. -/
theorem Element.nodeOf {e : Element} {n : Node} (h : e.toNode fragment scope = .ok n) :
    NodeOf fragment scope e n := by
  cases e with
  | html text =>
    rw [Element.toNode] at h
    obtain rfl := Except.ok.inj h
    exact .html text
  | output value span trim =>
    rw [Element.toNode] at h
    obtain ⟨e, he, rfl⟩ := map_eq_ok.mp h
    exact .output he
  | tag t =>
    rw [Element.toNode] at h
    exact nodeOf_of_readSingleTag h
  | verbatim opening content closing =>
    rw [Element.toNode, readVerbatimBlock] at h
    split at h
    · next hname =>
      obtain rfl := Except.ok.inj h
      exact .comment content (beq_iff_eq.mp hname)
    · next hname =>
      obtain rfl := Except.ok.inj h
      exact .raw content (beq_eq_false_iff_ne.mp (Bool.eq_false_iff.mpr hname))
  | conditional first rest otherwise closing =>
    obtain ⟨head, condition, body⟩ := first
    rw [Element.toNode] at h
    obtain ⟨nodes, hbody, h⟩ := bind_eq_ok.mp h
    obtain ⟨arms, harms, h⟩ := bind_eq_ok.mp h
    obtain ⟨alternative, halternative, rfl⟩ := bind_pure_eq_ok.mp h
    exact .conditional hbody harms halternative
  | caseOf opening subject whens otherwise closing =>
    rw [Element.toNode] at h
    obtain ⟨e, hsubject, h⟩ := bind_eq_ok.mp h
    obtain ⟨arms, harms, h⟩ := bind_eq_ok.mp h
    obtain ⟨alternative, halternative, rfl⟩ := bind_pure_eq_ok.mp h
    exact .caseOf hsubject harms halternative
  | loop opening body otherwise closing =>
    rw [Element.toNode] at h
    obtain ⟨⟨name, collection⟩, hheader, h⟩ := bind_eq_ok.mp h
    obtain ⟨children, hbody, h⟩ := bind_eq_ok.mp h
    obtain ⟨alternative, halternative, rfl⟩ := bind_pure_eq_ok.mp h
    cases alternative <;> exact .loop hheader hbody halternative
  | capture opening body closing =>
    rw [Element.toNode] at h
    obtain ⟨target, htarget, h⟩ := bind_eq_ok.mp h
    obtain ⟨children, hbody, rfl⟩ := bind_pure_eq_ok.mp h
    exact .capture htarget hbody

/-! ### Lists of elements and clauses -/

theorem exists_of_bind_cons {α β : Type} {f : α → β} {first : Except ReadError α}
    {rest : Except ReadError (List β)} {bs : List β}
    (h : (first >>= fun a => rest >>= fun more => pure (f a :: more)) = .ok bs) :
    ∃ a more, first = .ok a ∧ rest = .ok more ∧ bs = f a :: more := by
  obtain ⟨a, ha, h⟩ := bind_eq_ok.mp h
  obtain ⟨more, hmore, h⟩ := bind_eq_ok.mp h
  exact ⟨a, more, ha, hmore, (Except.ok.inj h).symm⟩

theorem Element.exists_of_toNodes_cons {e : Element} {es : List Element} {nodes : List Node}
    (h : Element.toNodes fragment scope (e :: es) = .ok nodes) :
    ∃ n more, e.toNode fragment scope = .ok n ∧ Element.toNodes fragment scope es = .ok more ∧
      nodes = n :: more := by
  rw [Element.toNodes] at h
  exact exists_of_bind_cons (f := id) h

theorem Element.exists_of_clauseArms_cons {c : Clause Element} {clauses : List (Clause Element)}
    {arms : List (Branch (List Node))}
    (h : Element.clauseArms fragment scope (c :: clauses) = .ok arms) :
    ∃ nodes more, Element.toNodes fragment scope c.body = .ok nodes ∧
      Element.clauseArms fragment scope clauses = .ok more ∧
      arms = ⟨some (c.condition.toExpr scope), nodes, c.tag.trim⟩ :: more := by
  rw [Element.clauseArms] at h
  exact exists_of_bind_cons h

theorem Element.exists_of_whenArms_cons {w : When Element} {whens : List (When Element)}
    {arms : List (Branch (List Node))}
    (h : Element.whenArms fragment scope (w :: whens) = .ok arms) :
    ∃ nodes more, Element.toNodes fragment scope w.body = .ok nodes ∧
      Element.whenArms fragment scope whens = .ok more ∧
      arms = ⟨some (whenCondition scope w.tag w.values), nodes, w.tag.trim⟩ :: more := by
  rw [Element.whenArms] at h
  exact exists_of_bind_cons h

end Stencil.Liquid
