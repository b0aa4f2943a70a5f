import Stencil.Nunjucks.Reader
import Stencil.Proofs.Nunjucks.Items
import Stencil.Proofs.WellFormed

/-!
# From trees to templates

The expression of a term is built in a few ways, and so are the nodes of a tree. A property that all
of these ways keep holds of the expression of each term, and what holds of the items of a tree is
carried over to the nodes of its template, at any depth.
-/

namespace Stencil.Nunjucks

/-! ### Terms -/

theorem sizeOf_lt_of_mem_entries {α β : Type} [SizeOf α] [SizeOf β] {entry : α × β}
    {entries : List (α × β)} (h : entry ∈ entries) :
    sizeOf entry.1 < sizeOf entries ∧ sizeOf entry.2 < sizeOf entries := by
  have hlt := List.sizeOf_lt_of_mem h
  have hentry : sizeOf entry = 1 + sizeOf entry.1 + sizeOf entry.2 := rfl
  omega

section Terms

variable {P : Token → Prop} (hP : ∀ t, P t)
include hP

theorem nameFrom_of_forall (name : String) : NameFrom P name :=
  ⟨⟨0, name.toList⟩, by simp [Piece.toString], hP _⟩

theorem dottedFrom_of_forall (name : String) : DottedFrom P name := by
  obtain ⟨text, rfl, ht⟩ := nameFrom_of_forall hP name
  exact .single ht

/-- A term is made of tokens, whatever they are. -/
theorem Term.from_of_forall : (x : Term) → x.From P
  | .symbol _ => .symbol (hP _)
  | .literal _ text => .literal (t := ⟨.name, text⟩) (hP _)
  | .lookup target key => .lookup target.from_of_forall key.from_of_forall
  | .group inner => .group inner.from_of_forall
  | .filter name target args keywords =>
    .filter (dottedFrom_of_forall hP name) target.from_of_forall (fun x _ => x.from_of_forall)
      (fun entry _ => nameFrom_of_forall hP entry.1) fun entry h =>
        have := sizeOf_lt_of_mem_entries h
        entry.2.from_of_forall
  | .binary _ left right => .binary left.from_of_forall right.from_of_forall
  | .comparison first rest => .comparison first.from_of_forall fun c h =>
    have := sizeOf_lt_of_mem_entries h
    c.2.from_of_forall
  | .negated target => .negated target.from_of_forall
  | .opposite target => .opposite target.from_of_forall
  | .test subject condition => .test subject.from_of_forall condition.from_of_forall
  | .call function args => .call function.from_of_forall fun x _ => x.from_of_forall
  | .choice condition body otherwise =>
    .choice condition.from_of_forall body.from_of_forall fun x _ => x.from_of_forall
  | .array items => .array fun x _ => x.from_of_forall
  | .dict entries =>
    .dict (fun entry h =>
      have := sizeOf_lt_of_mem_entries h
      entry.1.from_of_forall) fun entry h =>
        have := sizeOf_lt_of_mem_entries h
        entry.2.from_of_forall

end Terms

/-! ### Expressions -/

/-- A property of expressions that is kept by every way to build one in a scope out of tokens with
the property `P`. -/
structure ExprClosed (P : Token → Prop) (scope : Scope) (E : Expr → Prop) : Prop where
  loopVar : scope.inLoop → E (.ofChain [.loopVar])
  ident {name : Piece} : P ⟨.name, name⟩ →
    (scope.inLoop → name.toString ≠ chainWords.loopVar) → E (.ident name.toString)
  null : E .null
  literal {t : Token} : P t → E (.literal t.text.toString)
  opposite {t : Token} : P t → E (.literal ("-" ++ t.text.toString))
  lookup {base e : Expr} {key : Term} : E base → key.From P → lookupExpr base key = .ok e → E e
  pipe {e : Expr} {s : Step Expr} : E e → s.hasOperands → (∀ a ∈ s.args, E a) →
    (∀ name args, s = .apply (.custom name) args → DottedFrom P name) → E (e.pipe s)

/-- A filter stands for a step whose arguments are its own, as is the name that a step may have. -/
theorem step_of_filterStep {P : Expr → Prop} {a : FilterArgs} {s : Step Expr} (ha : a.All P)
    (h : filterStep a = .ok s) :
    s.hasOperands ∧ (∀ e ∈ s.args, P e) ∧
      ∀ name args, s = .apply (.custom name) args → name = a.filter := by
  unfold filterStep at h
  simp only at h
  split at h
  · obtain ⟨length, hlength, h⟩ := bind_eq_ok.mp h
    obtain ⟨killWords, -, rfl⟩ := bind_pure_eq_ok.mp h
    exact ⟨rfl, List.forall_mem_cons.mpr ⟨ha.require hlength, ha.get?_toList⟩, by simp⟩
  · obtain ⟨old, hold, h⟩ := bind_eq_ok.mp h
    obtain ⟨new, hnew, rfl⟩ := bind_pure_eq_ok.mp h
    exact ⟨rfl, List.forall_mem_cons.mpr
      ⟨ha.require hold, List.forall_mem_cons.mpr ⟨ha.require hnew, ha.get?_toList⟩⟩, by simp⟩
  · obtain ⟨key, hkey, rfl⟩ := bind_pure_eq_ok.mp h
    exact ⟨rfl, List.forall_mem_cons.mpr ⟨ha.require hkey, ha.get?_toList⟩, by simp⟩
  · obtain ⟨reverse, -, rfl⟩ := bind_pure_eq_ok.mp h
    exact ⟨rfl, ha.get?_toList, by simp⟩
  · obtain ⟨es, hes, h⟩ := bind_eq_ok.mp h
    split at h
    all_goals
      obtain rfl := Except.ok.inj h
      exact ⟨rfl, ha.positionalOnly hes, by simp⟩

namespace ExprClosed

variable {P : Token → Prop} {scope : Scope} {E : Expr → Prop}

theorem apply (hE : ExprClosed P scope E) {e operand : Expr} (he : E e) (op : Operator)
    (ho : E operand) : E (e.apply op operand) := by
  refine hE.pipe he ?_ ?_ (by simp)
  · cases hu : op.isUnary <;> simp [Step.hasOperands, hu]
  · cases hu : op.isUnary <;> simp [Step.args, ho]

theorem binaryExpr (hE : ExprClosed P scope E) {left right : Expr} (op : Binary) (hl : E left)
    (hr : E right) : E (binaryExpr op left right) := by
  unfold Nunjucks.binaryExpr
  split
  · exact hE.apply hr _ hl
  · exact hE.apply hl _ hr

mutual

theorem toExpr (hE : ExprClosed P scope E) {e : Expr} :
    (t : Term) → t.From P → t.toExpr scope = .ok e → E e
  | .symbol name, .symbol hname, h => by
    rw [Term.toExpr] at h
    split at h
    · next hloop =>
      obtain rfl := Except.ok.inj h
      exact hE.loopVar (Bool.and_eq_true_iff.mp hloop).1
    · next hloop =>
      obtain rfl := Except.ok.inj h
      exact hE.ident hname fun hin heq => hloop (by simp [hin, heq])
  | .literal kind _, .literal ht, h => by
    cases kind with
    | none =>
      rw [Term.toExpr] at h
      obtain rfl := Except.ok.inj h
      exact hE.null
    | string | number | boolean =>
      rw [Term.toExpr] at h
      · obtain rfl := Except.ok.inj h
        exact hE.literal ht
      · nofun
  | .lookup target key, .lookup ht hk, h => by
    rw [Term.toExpr] at h
    obtain ⟨base, hbase, h⟩ := bind_eq_ok.mp h
    exact hE.lookup (hE.toExpr target ht hbase) hk h
  | .group inner, .group hi, h => by
    rw [Term.toExpr] at h
    exact hE.toExpr inner hi h
  | .filter name target args keywords, .filter hn ht ha _ hk, h => by
    rw [Term.toExpr] at h
    obtain ⟨base, hbase, h⟩ := bind_eq_ok.mp h
    obtain ⟨positional, hpositional, h⟩ := bind_eq_ok.mp h
    obtain ⟨named, hnamed, h⟩ := bind_eq_ok.mp h
    obtain ⟨step, hstep, rfl⟩ := bind_pure_eq_ok.mp h
    obtain ⟨hoperands, hargs, hcustom⟩ := step_of_filterStep
      ⟨hE.toExprs args ha hpositional, hE.toKeywords keywords hk hnamed⟩ hstep
    refine hE.pipe (hE.toExpr target ht hbase) hoperands hargs fun name' args' heq => ?_
    exact hcustom name' args' heq ▸ hn
  | .binary op left right, .binary hl hr, h => by
    rw [Term.toExpr] at h
    obtain ⟨l, hleft, h⟩ := bind_eq_ok.mp h
    obtain ⟨r, hright, rfl⟩ := bind_pure_eq_ok.mp h
    exact hE.binaryExpr op (hE.toExpr left hl hleft) (hE.toExpr right hr hright)
  | .comparison first [(c, second)], .comparison hf hr, h => by
    rw [Term.toExpr] at h
    obtain ⟨l, hleft, h⟩ := bind_eq_ok.mp h
    obtain ⟨r, hright, rfl⟩ := bind_pure_eq_ok.mp h
    exact hE.apply (hE.toExpr first hf hleft) _
      (hE.toExpr second (hr (c, second) List.mem_cons_self) hright)
  | .comparison _ [], _, h | .comparison _ (_ :: _ :: _), _, h => by simp [Term.toExpr] at h
  | .negated target, .negated ht, h => by
    rw [Term.toExpr] at h
    obtain ⟨base, hbase, rfl⟩ := bind_pure_eq_ok.mp h
    exact hE.pipe (hE.toExpr target ht hbase) rfl (by simp [Step.args]) (by simp)
  | .opposite target, .opposite ht, h => by
    by_cases hn : ∃ text, target = .literal .number text
    · obtain ⟨text, rfl⟩ := hn
      rw [Term.toExpr] at h
      obtain rfl := Except.ok.inj h
      cases ht with
      | literal ht => exact hE.opposite ht
    · rw [Term.toExpr] at h
      · cases h
      · exact fun text ht => hn ⟨text, ht⟩
  | .test .., _, h | .call .., _, h | .choice .., _, h | .array _, _, h | .dict _, _, h => by
    simp [Term.toExpr] at h

theorem toExprs (hE : ExprClosed P scope E) {es : List Expr} : (ts : List Term) →
    (∀ t ∈ ts, t.From P) → Term.toExprs scope ts = .ok es → ∀ e ∈ es, E e
  | [], _, h => by
    rw [Term.toExprs] at h
    obtain rfl := Except.ok.inj h
    exact List.forall_mem_nil _
  | t :: ts, ht, h => by
    rw [Term.toExprs] at h
    obtain ⟨e, he, h⟩ := bind_eq_ok.mp h
    obtain ⟨more, hmore, rfl⟩ := bind_pure_eq_ok.mp h
    rw [List.forall_mem_cons] at ht
    exact List.forall_mem_cons.mpr ⟨hE.toExpr t ht.1 he, hE.toExprs ts ht.2 hmore⟩

theorem toKeywords (hE : ExprClosed P scope E) {es : List (String × Expr)} :
    (ts : List (String × Term)) → (∀ entry ∈ ts, entry.2.From P) →
      Term.toKeywords scope ts = .ok es → ∀ entry ∈ es, E entry.2
  | [], _, h => by
    rw [Term.toKeywords] at h
    obtain rfl := Except.ok.inj h
    exact List.forall_mem_nil _
  | (key, t) :: ts, ht, h => by
    rw [Term.toKeywords] at h
    obtain ⟨e, he, h⟩ := bind_eq_ok.mp h
    obtain ⟨more, hmore, rfl⟩ := bind_pure_eq_ok.mp h
    rw [List.forall_mem_cons] at ht
    exact List.forall_mem_cons.mpr ⟨hE.toExpr t ht.1 he, hE.toKeywords ts ht.2 hmore⟩

end

end ExprClosed

/-! ### Nodes -/

/-- A property of nodes and one of the expressions of a scope that are kept by every way to build
them out of items with the property `I`. -/
structure NodeClosed (l : Lifted) (I : Item → Prop) (D : Node → Prop)
    (E : Scope → Expr → Prop) : Prop where
  data {text : Piece} : I (.data text) → D (l.dataNode text)
  comment {pos : Nat} {value : Term} {c : Comment} : I (.output pos value) →
    l.termComment? value = some c → D c.toNode
  output {pos : Nat} {value : Term} {scope : Scope} {e : Expr} {trim : Trim} :
    I (.output pos value) → l.termComment? value = none → value.toExpr scope = .ok e →
      E scope e ∧ D (.output e trim)
  term {word : String} {pos : Nat} {names : List String} {terms : List Term} {x : Term}
    {scope : Scope} {e : Expr} : I (.tag word pos names terms) → x ∈ terms →
      x.toExpr scope = .ok e → E scope e
  dropLast {scope : Scope} {e : Expr} : E scope e →
    E scope { e with steps := e.steps.dropLast }
  conditional {kind : Variant} {e : Expr} {body : List Node} {first : Trim}
    {arms : List (Branch (List Node))} {trim endTrim : Trim} : kind ≠ .caseOf →
      D (.conditional kind (⟨some e, body, first⟩ :: arms) trim endTrim)
  loop {pos : Nat} {names : List String} {terms : List Term} {e : Expr} {children : List Node}
    {otherwise : Option (List Node)} {trim elseTrim endTrim : Trim} :
    I (.tag "for" pos names terms) →
      D (.loop (", ".intercalate names) e children otherwise trim elseTrim endTrim)
  assignment {pos : Nat} {names : List String} {terms : List Term} {e : Option Expr}
    {children : Option (List Node)} {trim endTrim : Trim} : I (.tag "set" pos names terms) →
      e.isSome || children.isSome →
        D (.assignment (", ".intercalate names) e children trim endTrim)
  subtemplate {e : Expr} {ignoreMissing : Bool} {trim : Trim} :
    D (.subtemplate e ignoreMissing trim)

namespace NodeClosed

variable {l : Lifted} {I : Item → Prop} {D : Node → Prop} {E : Scope → Expr → Prop}

/-- A node and its expressions have the properties `D` and `E`. -/
abbrev Holds (D : Node → Prop) (E : Scope → Expr → Prop) (scope : Scope) (n : Node) : Prop :=
  D n ∧ ∀ e ∈ n.exprs, E scope e

theorem outputNode (hN : NodeClosed l I D E) {pos : Nat} {value : Term} {scope : Scope}
    {n : Node} (hi : I (.output pos value)) (h : l.outputNode scope pos value = .ok n) :
    n.Every (Holds D E) scope := by
  rw [Lifted.outputNode] at h
  split at h
  · next c hc =>
    obtain rfl := Except.ok.inj h
    exact .leaf ⟨hN.comment hi hc, List.forall_mem_nil _⟩ rfl
  · next hc =>
    obtain ⟨e, he, rfl⟩ := map_eq_ok.mp h
    obtain ⟨hvalue, hnode⟩ := hN.output hi hc he
    exact .leaf ⟨hnode, List.forall_mem_singleton.mpr hvalue⟩ rfl

/-- A conditional, whichever way it is taken. -/
theorem recogniseVariant (hN : NodeClosed l I D E) {scope : Scope} {e : Expr} {body : List Node}
    {first : Trim} {arms : List (Branch (List Node))} (trim endTrim : Trim)
    (h : EveryArms E (Holds D E) scope (⟨some e, body, first⟩ :: arms)) :
    (Node.conditional (recogniseVariant (⟨some e, body, first⟩ :: arms)).1
      (recogniseVariant (⟨some e, body, first⟩ :: arms)).2 trim endTrim).Every
        (Holds D E) scope := by
  rw [Nunjucks.recogniseVariant]
  obtain ⟨⟨he, hb⟩, -⟩ := List.forall_mem_cons.mp h
  split
  · have harm : EveryArms E (Holds D E) scope
        [⟨some { e with steps := e.steps.dropLast }, body, first⟩] :=
      .cons (hN.dropLast (he e rfl)) hb (List.forall_mem_nil _)
    exact .conditional ⟨hN.conditional (by simp), harm.exprs⟩ fun b hmem => (harm b hmem).2
  · exact .conditional ⟨hN.conditional (by simp), h.exprs⟩ fun b hmem => (h b hmem).2

mutual

theorem toNode (hN : NodeClosed l I D E) {scope : Scope} {n : Node} : (e : Element) →
    (∀ item ∈ e.items, I item) → e.toNode l scope = .ok n → n.Every (Holds D E) scope
  | .data text, hi, h => by
    rw [Element.toNode] at h
    obtain rfl := Except.ok.inj h
    rw [Element.items, List.forall_mem_singleton] at hi
    refine .leaf ⟨hN.data hi, ?_⟩ ?_
    all_goals
      rw [Lifted.dataNode]
      split
    iterate 2 exact List.forall_mem_nil _
    iterate 2 rfl
  | .output pos value, hi, h => by
    rw [Element.toNode] at h
    rw [Element.items, List.forall_mem_singleton] at hi
    exact hN.outputNode hi h
  | .conditional ⟨pos, condition, body⟩ rest otherwise endPos, hi, h => by
    rw [Element.toNode] at h
    obtain ⟨e, he, h⟩ := bind_eq_ok.mp h
    obtain ⟨nodes, hnodes, h⟩ := bind_eq_ok.mp h
    obtain ⟨arms, harms, h⟩ := bind_eq_ok.mp h
    obtain ⟨alternative, halternative, rfl⟩ := bind_pure_eq_ok.mp h
    rw [Element.items, List.forall_mem_cons, List.forall_mem_append, List.forall_mem_append,
      List.forall_mem_append] at hi
    obtain ⟨hcondition, hbody, hrest, hotherwise, -⟩ := hi
    have hmore := (hN.clauseArms rest hrest harms).append_alternative
      (hN.toAlternative otherwise hotherwise halternative)
    exact hN.recogniseVariant _ _
      (hmore.cons (hN.term hcondition List.mem_cons_self he) (hN.toNodes body hbody hnodes))
  | .loop pos names collection body otherwise endPos, hi, h => by
    rw [Element.toNode] at h
    obtain ⟨e, he, h⟩ := bind_eq_ok.mp h
    obtain ⟨children, hchildren, h⟩ := bind_eq_ok.mp h
    obtain ⟨alternative, halternative, rfl⟩ := bind_pure_eq_ok.mp h
    rw [Element.items, List.forall_mem_cons, List.forall_mem_append, List.forall_mem_append] at hi
    obtain ⟨htag, hbody, hotherwise, -⟩ := hi
    refine .loop ⟨hN.loop htag, List.forall_mem_singleton.mpr (hN.term htag List.mem_cons_self he)⟩
      (hN.toNodes body hbody hchildren) fun ns hns => ?_
    obtain ⟨p, hp, rfl⟩ := Option.map_eq_some_iff.mp hns
    exact hN.toAlternative otherwise hotherwise halternative p hp
  | .assign pos targets value, hi, h => by
    rw [Element.toNode] at h
    obtain ⟨e, he, rfl⟩ := bind_pure_eq_ok.mp h
    rw [Element.items, List.forall_mem_singleton] at hi
    exact .leaf ⟨hN.assignment hi rfl,
      List.forall_mem_singleton.mpr (hN.term hi List.mem_cons_self he)⟩ rfl
  | .capture pos targets body endPos, hi, h => by
    rw [Element.toNode] at h
    obtain ⟨children, hchildren, rfl⟩ := bind_pure_eq_ok.mp h
    rw [Element.items, List.forall_mem_cons, List.forall_mem_append] at hi
    obtain ⟨htag, hbody, -⟩ := hi
    exact .capture ⟨hN.assignment htag rfl, List.forall_mem_nil _⟩ (hN.toNodes body hbody hchildren)
  | .subtemplate pos template ignoreMissing, hi, h => by
    rw [Element.toNode] at h
    obtain ⟨e, he, rfl⟩ := bind_pure_eq_ok.mp h
    rw [Element.items, List.forall_mem_singleton] at hi
    exact .leaf ⟨hN.subtemplate,
      List.forall_mem_singleton.mpr (hN.term hi List.mem_cons_self he)⟩ rfl

theorem toNodes (hN : NodeClosed l I D E) {scope : Scope} {nodes : List Node} :
    (es : List Element) → (∀ item ∈ Element.allItems es, I item) →
      Element.toNodes l scope es = .ok nodes → ∀ n ∈ nodes, n.Every (Holds D E) scope
  | [], _, h => by
    rw [Element.toNodes] at h
    obtain rfl := Except.ok.inj h
    exact List.forall_mem_nil _
  | e :: es, hi, h => by
    rw [Element.toNodes] at h
    obtain ⟨node, hnode, h⟩ := bind_eq_ok.mp h
    obtain ⟨more, hmore, rfl⟩ := bind_pure_eq_ok.mp h
    rw [Element.allItems, List.forall_mem_append] at hi
    exact List.forall_mem_cons.mpr ⟨hN.toNode e hi.1 hnode, hN.toNodes es hi.2 hmore⟩

theorem clauseArms (hN : NodeClosed l I D E) {scope : Scope} {arms : List (Branch (List Node))} :
    (clauses : List (Clause Element)) → (∀ item ∈ Element.clauseItems clauses, I item) →
      Element.clauseArms l scope clauses = .ok arms → EveryArms E (Holds D E) scope arms
  | [], _, h => by
    rw [Element.clauseArms] at h
    obtain rfl := Except.ok.inj h
    exact List.forall_mem_nil _
  | ⟨pos, condition, body⟩ :: clauses, hi, h => by
    rw [Element.clauseArms] at h
    obtain ⟨e, he, h⟩ := bind_eq_ok.mp h
    obtain ⟨nodes, hnodes, h⟩ := bind_eq_ok.mp h
    obtain ⟨more, hmore, rfl⟩ := bind_pure_eq_ok.mp h
    rw [Element.clauseItems, List.forall_mem_cons, List.forall_mem_append] at hi
    obtain ⟨hcondition, hbody, hclauses⟩ := hi
    exact (hN.clauseArms clauses hclauses hmore).cons (hN.term hcondition List.mem_cons_self he)
      (hN.toNodes body hbody hnodes)

theorem toAlternative (hN : NodeClosed l I D E) {scope : Scope}
    {result : Option (List Node × Trim)} : (alternative : Option (Alternative Element)) →
      (∀ item ∈ Element.alternativeItems alternative, I item) →
        Element.toAlternative l scope alternative = .ok result →
          ∀ p ∈ result, ∀ n ∈ p.1, n.Every (Holds D E) scope
  | none, _, h => by
    rw [Element.toAlternative] at h
    obtain rfl := Except.ok.inj h
    simp
  | some ⟨pos, body⟩, hi, h => by
    rw [Element.toAlternative] at h
    obtain ⟨nodes, hnodes, rfl⟩ := bind_pure_eq_ok.mp h
    rw [Element.alternativeItems, List.forall_mem_cons] at hi
    intro p hp
    obtain rfl := Option.some.inj hp
    exact hN.toNodes body hi.2 hnodes

end

end NodeClosed

end Stencil.Nunjucks
