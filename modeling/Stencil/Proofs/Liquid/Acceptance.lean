import Stencil.Proofs.Liquid.Name
import Stencil.Proofs.Liquid.Spelling
import Stencil.Proofs.Shape

/-!
# Written templates that are read

The writer refuses what has no Liquid form, but it does not look at the place where an expression
stands: a condition has no place for filters, the header of a loop none for the words that change
what the loop runs over. A template that fits, node by node, is read again if it is written, though
not always as the same template.

The proof has two halves that meet at the tokens: a contained template is written as the tokens that
`Spelled` describes, and those tokens are accepted if the template fits.

## Main results

* `Liquid.Spelled.accepted` : the tokens of a template that fits are accepted.
* `Liquid.exists_read_of_write` : a contained template that fits is read if it is written.
-/

namespace Stencil.Liquid

/-! ### Nodes whose expressions fit -/

/-- Every arm but the last one has a condition. -/
def ElseLast (branches : List (Branch (List Node))) : Prop :=
  ∀ branch ∈ branches.dropLast, branch.condition.isSome

/-- The nodes whose expressions can be read where they are written. What is inside of them plays no
part. -/
inductive FitsNode : Node → Prop
  | text (content : String) : FitsNode (.text content)
  | output {e : Expr} (he : Readable e) (trim : Trim) : FitsNode (.output e trim)
  | conditional {kind : Variant} {branches : List (Branch (List Node))} (hk : kind ≠ .caseOf)
      (hl : ElseLast branches) (hc : ∀ branch ∈ branches, ∀ e ∈ branch.condition, IsCondition e)
      (trim endTrim : Trim) : FitsNode (.conditional kind branches trim endTrim)
  | caseOf {subject : Expr} {body : List Node} {first : Trim} {arms : List (Branch (List Node))}
      (hs : Readable subject) (hl : ElseLast arms)
      (hc : ∀ arm ∈ arms, ∀ e ∈ arm.condition, IsWhen e) (trim endTrim : Trim) :
      FitsNode (.conditional .caseOf (⟨some subject, body, first⟩ :: arms) trim endTrim)
  | loop {x : String} {e : Expr} {body : List Node} {otherwise : Option (List Node)}
      (hx : ∀ rest, Text.cut? " in ".toList (x.toList ++ " in ".toList ++ rest) =
        some (x.toList, rest))
      (he : Readable e) (hm : ∀ text, grammar.text e = .ok text → loopModifier? text.toList = none)
      (trim elseTrim endTrim : Trim) :
      FitsNode (.loop x e body otherwise trim elseTrim endTrim)
  | assign {x : String} {e : Expr} {children : Option (List Node)} (hx : '=' ∉ x.toList)
      (he : Readable e) (trim endTrim : Trim) :
      FitsNode (.assignment x (some e) children trim endTrim)
  | capture (x : String) (children : Option (List Node)) (trim endTrim : Trim) :
      FitsNode (.assignment x none children trim endTrim)
  | comment (content : String) (trim endTrim : Trim) : FitsNode (.comment content trim endTrim)
  | raw (content : String) (trim endTrim : Trim) : FitsNode (.raw content trim endTrim)
  | subtemplate {e : Expr} (he : Readable e ∨ ∀ text, grammar.text e = .ok text →
        ∀ start, isSingleOperand ⟨start, text.toList⟩ = false) (ignoreMissing : Bool)
          (trim : Trim) :
      FitsNode (.subtemplate e ignoreMissing trim)
  | tag {name args : String} {children : List Node} (ha : name ≠ "assign")
      (hi : name = "include" → ∀ start, isSingleOperand ⟨start, args.toList⟩ = false)
      (trim : Trim) :
      FitsNode (.tag name args children trim)

theorem ElseLast.tail {branch : Branch (List Node)} {branches : List (Branch (List Node))}
    (h : ElseLast (branch :: branches)) : ElseLast branches := by
  intro b hb
  cases branches with
  | nil => cases hb
  | cons c cs => exact h b (List.mem_cons_of_mem _ hb)

theorem ElseLast.eq_nil {body : List Node} {trim : Trim} {branches : List (Branch (List Node))}
    (h : ElseLast (⟨none, body, trim⟩ :: branches)) : branches = [] := by
  cases branches with
  | nil => rfl
  | cons c cs => cases h _ List.mem_cons_self

theorem elseLast_otherwise (otherwise : Option (List Node)) (trim : Trim) :
    ElseLast (otherwise.toList.map fun nodes => ⟨none, nodes, trim⟩) := by
  cases otherwise with
  | none => exact fun _ h => absurd h List.not_mem_nil
  | some nodes => exact fun _ h => absurd h List.not_mem_nil

/-! ### Tokens that are read -/

/-- The tokens are read as some template. -/
def Accepted (ts : List Token) : Prop :=
  ∃ es, Derives ts es ∧
    ∀ depth scope, ∃ nodes, Element.toNodes (readFragment (depth + 1)) scope es = .ok nodes

/-- The tokens are read as some node. -/
def AcceptedNode (ts : List Token) : Prop :=
  ∃ e, (∀ us es, Derives us es → Derives (ts ++ us) (e :: es)) ∧
    ∀ depth scope, ∃ n, Element.toNode (readFragment (depth + 1)) scope e = .ok n

/-- The tokens of the further arms of a block and its closing tag, with bodies that are read. -/
inductive AcceptedArms (subsequent closing : String) :
    List (Branch (List Node)) → List Token → Prop
  | closing {t : Tag} (ht : t.name = closing) : AcceptedArms subsequent closing [] [.tag t]
  | arm {e : Expr} {text : String} {body : List Node} {trim : Trim}
      {arms : List (Branch (List Node))} {head : Tag} {ts us : List Token}
      (he : grammar.text e = .ok text) (hh : IsTag head subsequent text.toList trim)
      (hb : Accepted ts) (hs : AcceptedArms subsequent closing arms us) :
      AcceptedArms subsequent closing (⟨some e, body, trim⟩ :: arms) (.tag head :: (ts ++ us))
  | otherwise {body : List Node} {trim : Trim} {arms : List (Branch (List Node))} {head : Tag}
      {ts us : List Token} (hh : IsTag head "else" [] trim) (hb : Accepted ts)
      (hs : AcceptedArms subsequent closing arms us) :
      AcceptedArms subsequent closing (⟨none, body, trim⟩ :: arms) (.tag head :: (ts ++ us))

variable {e : Expr} {text x : String} {trim : Trim} {t o c : Tag} {ts us : List Token}
  {arms : List (Branch (List Node))} {subsequent last : String}

theorem Accepted.nil : Accepted [] :=
  ⟨[], .nil, fun _ _ => ⟨[], by rw [Element.toNodes]⟩⟩

theorem AcceptedNode.cons (hn : AcceptedNode ts) (hs : Accepted us) : Accepted (ts ++ us) := by
  obtain ⟨e, hd, he⟩ := hn
  obtain ⟨es, hds, hes⟩ := hs
  refine ⟨e :: es, hd us es hds, fun depth scope => ?_⟩
  obtain ⟨n, hn⟩ := he depth scope
  obtain ⟨ns, hns⟩ := hes depth scope
  exact ⟨n :: ns, by rw [Element.toNodes, hn, hns]; rfl⟩

theorem SpelledText.cons {s : List Char} (hs : SpelledText s ts) (h : Accepted us) :
    Accepted (ts ++ us) := by
  cases hs with
  | nil => exact h
  | html p =>
    refine AcceptedNode.cons ⟨.html p, fun _ _ => .html p, fun _ _ => ?_⟩ h
    exact ⟨_, by rw [Element.toNode]⟩

/-! ### Outputs and single tags -/

theorem AcceptedNode.output (he : Readable e) (h : grammar.text e = .ok text) {inner : Piece}
    (hi : inner.text = ' ' :: text.toList ++ [' ']) (span : Span) (trim : Trim) :
    AcceptedNode [.output inner span trim] := by
  obtain ⟨start, _⟩ := inner
  obtain rfl := hi
  obtain ⟨v, hv, hexpr⟩ := parseValue_padded_of_readable he h start
  refine ⟨.output v span trim, fun _ _ => .output hv span trim, fun depth scope => ?_⟩
  obtain ⟨a, ha⟩ := hexpr scope
  exact ⟨.output a trim, by rw [Element.toNode, ha, map_ok]⟩

theorem AcceptedNode.verbatim (o : Tag) (body : Piece) (c : Tag) :
    AcceptedNode [.verbatim o body c] :=
  ⟨.verbatim o body c, fun _ _ => .verbatim o body c, fun _ _ => ⟨_, by rw [Element.toNode]⟩⟩

/-- A tag that opens no block is read if its node is. -/
theorem AcceptedNode.single (hb : t.name ∉ blockNames) (hs : t.name ∉ structural)
    (h : ∀ depth scope, ∃ n, readSingleTag (readFragment (depth + 1)) scope t = .ok n) :
    AcceptedNode [.tag t] := by
  refine ⟨.tag t, fun _ _ => .tag hb hs, fun depth scope => ?_⟩
  obtain ⟨n, hn⟩ := h depth scope
  exact ⟨n, by rw [Element.toNode, hn]⟩

/-- A readable expression is read as a fragment. -/
theorem Readable.readFragment (he : Readable e) (h : grammar.text e = .ok text) {body : List Char}
    (hb : Text.trim body = text.toList) (depth : Nat) (scope : Scope) :
    ∃ a, readFragment (depth + 1) scope body = .ok a := by
  have htidy := (tidy_render he).text h
  have hvalue : ∀ start, ∃ v, parseValue ⟨start, ' ' :: text.toList ++ [' ']⟩ = .ok v ∧
      ∃ a, v.toExpr scope = .ok a ∧ True := by
    intro start
    obtain ⟨v, hv, hexpr⟩ := parseValue_padded_of_readable he h start
    obtain ⟨a, ha⟩ := hexpr scope
    exact ⟨v, hv, a, ha, trivial⟩
  obtain ⟨a, ha, -⟩ := readFragment_of_value (htidy.enclosed '\x7d' (by simp)) hb hvalue depth
  exact ⟨a, ha⟩

theorem AcceptedNode.assign (hx : Tidy x.toList) (hsign : '=' ∉ x.toList) (he : Readable e)
    (h : grammar.text e = .ok text)
    (ht : IsTag t "assign" (x.toList ++ " = ".toList ++ text.toList) trim) :
    AcceptedNode [.tag t] := by
  refine .single (by rw [ht.name]; decide) (by rw [ht.name]; decide) fun depth scope => ?_
  have hcut : Text.cut? ['='] t.args.text = some (x.toList ++ [' '], ' ' :: text.toList) := by
    have := Text.cut?_append (s := x.toList ++ [' ']) (p := '=') (by simpa using hsign) []
      (' ' :: text.toList)
    rw [ht.args]
    simpa using this
  obtain ⟨a, ha⟩ := he.readFragment h
    ((Text.trim_cons_space _).trans ((tidy_render he).text h).trim) depth scope
  have hne : x.toList.isEmpty = false := by simpa using hx.ne_nil
  refine ⟨.assignment (String.ofList x.toList) (some a) none t.trim .unset, ?_⟩
  rw [readSingleTag, if_pos (by rw [ht.name]; rfl), readAssign, hcut]
  simp only [Text.trim_concat_space, hx.trim, hne, ha, map_ok, Bool.false_eq_true, if_false]

/-- The name of a subtemplate is read, or its tag is passed on. -/
theorem AcceptedNode.subtemplate (he : Readable e ∨ ∀ text, grammar.text e = .ok text →
      ∀ start, isSingleOperand ⟨start, text.toList⟩ = false)
    (h : grammar.text e = .ok text) (ht : IsTag t "include" text.toList trim) :
    AcceptedNode [.tag t] := by
  refine .single (by rw [ht.name]; decide) (by rw [ht.name]; decide) fun depth scope => ?_
  have hargs : t.args = ⟨t.args.start, text.toList⟩ := by rw [← ht.args]
  rw [readSingleTag, if_neg (by rw [ht.name]; decide)]
  split
  · next hs =>
    rcases he with he | he
    · obtain ⟨a, ha⟩ := he.readFragment h (((tidy_render he).text h).trim) depth scope
      exact ⟨_, by rw [ht.args, ha, map_ok]⟩
    · rw [hargs, he text h, Bool.and_false] at hs
      cases hs
  · exact ⟨_, rfl⟩

theorem AcceptedNode.passedOn {name : String} {args : List Char} (hb : name ∉ blockNames)
    (hs : name ∉ structural) (ha : name ≠ "assign")
    (hi : name = "include" → ∀ start, isSingleOperand ⟨start, args⟩ = false)
    (ht : IsTag t name args trim) : AcceptedNode [.tag t] := by
  refine .single (ht.name ▸ hb) (ht.name ▸ hs) fun depth scope => ⟨passOn t, ?_⟩
  have hargs : t.args = ⟨t.args.start, args⟩ := by rw [← ht.args]
  rw [readSingleTag, if_neg (by simpa [ht.name] using ha), if_neg]
  intro h
  rw [ht.name, Bool.and_eq_true, beq_iff_eq] at h
  rw [hargs, hi h.1] at h
  cases h.2

/-! ### Blocks -/

theorem AcceptedNode.capture (hx : Tidy x.toList) (ho : IsTag o "capture" x.toList trim)
    (hb : Accepted ts) (hc : c.name = "endcapture") :
    AcceptedNode (.tag o :: (ts ++ [.tag c])) := by
  obtain ⟨es, hd, hes⟩ := hb
  refine ⟨.capture o es c, fun us es' hs => ?_, fun depth scope => ?_⟩
  · simpa using Derives.capture ho.name hd hc hs
  · obtain ⟨nodes, hnodes⟩ := hes depth scope
    have hne : x.toList.isEmpty = false := by simpa using hx.ne_nil
    exact ⟨_,
      by rw [Element.toNode, captureTarget, ho.args, hx.trim, hne, if_neg (by decide), hnodes]; rfl⟩

/-- The end of a block: its alternative, if there is one, and its closing tag. -/
def AcceptedEnd (name : String) (ts : List Token) : Prop :=
  ∃ otherwise c, DerivesEnd name ts otherwise c ∧ ∀ depth scope, ∃ alternative,
    Element.toAlternative (readFragment (depth + 1)) scope otherwise = .ok alternative

theorem AcceptedEnd.closing (ht : t.name = last) : AcceptedEnd last [.tag t] :=
  ⟨none, t, .closing ht, fun _ _ => ⟨none, by rw [Element.toAlternative]⟩⟩

theorem AcceptedEnd.otherwise (hh : o.name = "else") (hb : Accepted ts) (ht : t.name = last) :
    AcceptedEnd last (.tag o :: (ts ++ [.tag t])) := by
  obtain ⟨es, hd, hes⟩ := hb
  refine ⟨some ⟨o, es⟩, t, .otherwise hh hd ht, fun depth scope => ?_⟩
  obtain ⟨nodes, hnodes⟩ := hes depth scope
  exact ⟨_, by rw [Element.toAlternative, hnodes]; rfl⟩

/-- What holds of the end of a block, and before it of each arm and what comes after the arm, holds
of all arms. -/
theorem AcceptedArms.induct {C : Expr → Prop} {A : List Token → Prop}
    (hend : ∀ {ts}, AcceptedEnd last ts → A ts)
    (harm : ∀ {e text trim t ts us}, C e → grammar.text e = .ok text →
      IsTag t subsequent text.toList trim → Accepted ts → A us → A (.tag t :: (ts ++ us)))
    (h : AcceptedArms subsequent last arms ts) (hl : ElseLast arms)
    (hc : ∀ arm ∈ arms, ∀ e ∈ arm.condition, C e) : A ts := by
  induction h with
  | closing ht => exact hend (.closing ht)
  | arm he hh hb hs ih =>
    rw [List.forall_mem_cons] at hc
    exact harm (hc.1 _ rfl) he hh hb (ih hl.tail hc.2)
  | otherwise hh hb hs ih =>
    obtain rfl := hl.eq_nil
    cases hs with
    | closing ht => exact hend (.otherwise hh.name hb ht)

/-- An alternative with no arm after it is the end of the block. -/
theorem AcceptedArms.acceptedEnd (h : AcceptedArms subsequent last arms ts) (hl : ElseLast arms)
    (hn : ∀ arm ∈ arms, arm.condition = none) : AcceptedEnd last ts := by
  refine h.induct (C := fun _ => False) id False.elim hl fun arm harm e he => ?_
  rw [hn arm harm] at he
  cases he

theorem AcceptedNode.loop (hx : Tidy x.toList)
    (hcut : ∀ rest, Text.cut? " in ".toList (x.toList ++ " in ".toList ++ rest) =
      some (x.toList, rest))
    (he : Readable e) (h : grammar.text e = .ok text) (hm : loopModifier? text.toList = none)
    (ho : IsTag o "for" (x.toList ++ " in ".toList ++ text.toList) trim) (hb : Accepted ts)
    (hs : AcceptedEnd "endfor" us) : AcceptedNode (.tag o :: (ts ++ us)) := by
  obtain ⟨es, hd, hes⟩ := hb
  obtain ⟨otherwise, c, hend, halt⟩ := hs
  refine ⟨.loop o es otherwise c, fun vs es' hs => ?_, fun depth scope => ?_⟩
  · simpa using Derives.loop ho.name hd hend hs
  · obtain ⟨a, ha⟩ := he.readFragment h (((tidy_render he).text h).trim) depth scope
    obtain ⟨nodes, hnodes⟩ := hes depth .loopBody
    obtain ⟨alternative, halternative⟩ := halt depth scope
    have hne : x.toList.isEmpty = false := by simpa using hx.ne_nil
    have hheader : readLoopHeader (Liquid.readFragment (depth + 1)) scope o.args.text =
        .ok (String.ofList x.toList, a) := by
      rw [ho.args]
      exact readLoopHeader_eq_ok_iff.mpr
        ⟨_, _, hcut _, by rw [hx.trim, hne], hm, ha, by rw [hx.trim]⟩
    exact ⟨_, by rw [Element.toNode, hheader, hnodes, halternative]; rfl⟩

theorem IsCondition.readCondition (he : IsCondition e) (h : grammar.text e = .ok text)
    (ht : t.args.text = text.toList) : ∃ c, readCondition t = .ok c := by
  have hne : t.args.text.isEmpty = false := by
    rw [ht]
    simpa using ((tidy_render he.readable).text h).ne_nil
  have hargs : t.args = ⟨t.args.start, text.toList⟩ := by rw [← ht]
  obtain ⟨c, hc⟩ := he.parseChain h t.args.start
  exact ⟨c, by rw [Liquid.readCondition, hne, if_neg (by decide), hargs, hc]⟩

/-- The rest of a conditional. -/
def AcceptedClauses (name : String) (ts : List Token) : Prop :=
  ∃ clauses otherwise c, DerivesClauses name ts clauses otherwise c ∧
    ∀ depth scope, ∃ arms alternative,
    Element.clauseArms (readFragment (depth + 1)) scope clauses = .ok arms ∧
    Element.toAlternative (readFragment (depth + 1)) scope otherwise = .ok alternative

theorem AcceptedEnd.clauses (h : AcceptedEnd last ts) : AcceptedClauses last ts := by
  obtain ⟨otherwise, c, hend, halt⟩ := h
  refine ⟨[], otherwise, c, .last hend, fun depth scope => ?_⟩
  obtain ⟨alternative, halternative⟩ := halt depth scope
  exact ⟨[], alternative, by rw [Element.clauseArms], halternative⟩

theorem AcceptedClauses.clause (he : IsCondition e) (h : grammar.text e = .ok text)
    (ht : IsTag t "elsif" text.toList trim) (hb : Accepted ts) (hs : AcceptedClauses last us) :
    AcceptedClauses last (.tag t :: (ts ++ us)) := by
  obtain ⟨es, hd, hes⟩ := hb
  obtain ⟨clauses, otherwise, c, hclauses, harms⟩ := hs
  obtain ⟨condition, hcondition⟩ := he.readCondition h ht.args
  refine ⟨⟨t, condition, es⟩ :: clauses, otherwise, c, .clause ht.name hcondition hd hclauses,
    fun depth scope => ?_⟩
  obtain ⟨nodes, hnodes⟩ := hes depth scope
  obtain ⟨arms, alternative, harms, halternative⟩ := harms depth scope
  exact ⟨_, alternative, by rw [Element.clauseArms, hnodes, harms]; rfl, halternative⟩

theorem AcceptedArms.clauses (h : AcceptedArms "elsif" last arms ts) (hl : ElseLast arms)
    (hc : ∀ arm ∈ arms, ∀ e ∈ arm.condition, IsCondition e) : AcceptedClauses last ts :=
  h.induct AcceptedEnd.clauses AcceptedClauses.clause hl hc

theorem AcceptedNode.conditional (ho : o.name = "if" ∨ o.name = "unless") (he : IsCondition e)
    (h : grammar.text e = .ok text) (ha : o.args.text = text.toList) (hb : Accepted ts)
    (hs : AcceptedClauses ("end" ++ o.name) us) : AcceptedNode (.tag o :: (ts ++ us)) := by
  obtain ⟨es, hd, hes⟩ := hb
  obtain ⟨clauses, otherwise, c, hclauses, harms⟩ := hs
  obtain ⟨condition, hcondition⟩ := he.readCondition h ha
  refine ⟨.conditional ⟨o, condition, es⟩ clauses otherwise c, fun vs es' hs => ?_,
    fun depth scope => ?_⟩
  · simpa using Derives.conditional ho hcondition hd hclauses hs
  · obtain ⟨nodes, hnodes⟩ := hes depth scope
    obtain ⟨arms, alternative, harms, halternative⟩ := harms depth scope
    exact ⟨_, by rw [Element.toNode, hnodes, harms, halternative]; rfl⟩

/-- A case distinction from its first clause on. -/
def AcceptedWhens (ts : List Token) : Prop :=
  ∃ whens otherwise c, DerivesWhens ts whens otherwise c ∧ ∀ depth scope, ∃ arms alternative,
    Element.whenArms (readFragment (depth + 1)) scope whens = .ok arms ∧
    Element.toAlternative (readFragment (depth + 1)) scope otherwise = .ok alternative

theorem AcceptedEnd.whens (h : AcceptedEnd "endcase" ts) : AcceptedWhens ts := by
  obtain ⟨otherwise, c, hend, halt⟩ := h
  refine ⟨[], otherwise, c, .last hend, fun depth scope => ?_⟩
  obtain ⟨alternative, halternative⟩ := halt depth scope
  exact ⟨[], alternative, by rw [Element.whenArms], halternative⟩

theorem AcceptedWhens.clause (he : IsWhen e) (h : grammar.text e = .ok text)
    (ht : IsTag t "when" text.toList trim) (hb : Accepted ts) (hs : AcceptedWhens us) :
    AcceptedWhens (.tag t :: (ts ++ us)) := by
  obtain ⟨es, hd, hes⟩ := hb
  obtain ⟨whens, otherwise, c, hwhens, harms⟩ := hs
  obtain ⟨values, hvalues⟩ := he.parseWhen h t.args.start
  rw [← ht.args] at hvalues
  refine ⟨⟨t, values, es⟩ :: whens, otherwise, c, .clause ht.name hvalues hd hwhens,
    fun depth scope => ?_⟩
  obtain ⟨nodes, hnodes⟩ := hes depth scope
  obtain ⟨arms, alternative, harms, halternative⟩ := harms depth scope
  exact ⟨_, alternative, by rw [Element.whenArms, hnodes, harms]; rfl, halternative⟩

theorem AcceptedArms.whens (h : AcceptedArms "when" "endcase" arms ts) (hl : ElseLast arms)
    (hc : ∀ arm ∈ arms, ∀ e ∈ arm.condition, IsWhen e) : AcceptedWhens ts :=
  h.induct AcceptedEnd.whens AcceptedWhens.clause hl hc

theorem AcceptedNode.caseOf (ho : o.name = "case") (he : Readable e) (h : grammar.text e = .ok text)
    (ha : o.args.text = text.toList) (hb : Accepted ts) (hs : AcceptedWhens us) :
    AcceptedNode (.tag o :: (ts ++ us)) := by
  obtain ⟨es, hd, -⟩ := hb
  obtain ⟨whens, otherwise, c, hwhens, harms⟩ := hs
  obtain ⟨subject, hsubject, hexpr⟩ := parseValue_of_readable he h o.args.start
  rw [← ha] at hsubject
  refine ⟨.caseOf o subject whens otherwise c, fun vs es' hs => ?_, fun depth scope => ?_⟩
  · simpa using Derives.caseOf ho hsubject hd hwhens hs
  · obtain ⟨a, ha⟩ := hexpr scope
    obtain ⟨arms, alternative, harms, halternative⟩ := harms depth scope
    exact ⟨_, by rw [Element.toNode, ha, harms, halternative]; rfl⟩

/-! ### Whole templates -/

/-- Every node of a template fits, at every depth. -/
def Fits (nodes : List Node) : Prop :=
  ∀ n ∈ Node.nested nodes, FitsNode n

/-- The words of the conditionals that have conditions. -/
theorem conditionalWords_of_ne_caseOf {kind : Variant} (hk : kind ≠ .caseOf) :
    ∃ word, (word = "if" ∨ word = "unless") ∧
      conditionalWords kind = ⟨word, "elsif", "end" ++ word⟩ := by
  cases kind with
  | ifTrue => exact ⟨"if", .inl rfl, rfl⟩
  | ifFalse => exact ⟨"unless", .inr rfl, rfl⟩
  | caseOf => exact absurd rfl hk

mutual

/-- The tokens of a template that fits are accepted. -/
theorem Spelled.accepted {s : List Char} {nodes : List Node} {ts : List Token}
    (h : Spelled s nodes ts) (hf : Fits nodes) : Accepted ts := by
  match h with
  | .nil hs =>
    rw [← List.append_nil ts]
    exact hs.cons .nil
  | .text h => exact h.accepted (Node.forall_mem_nested_cons.mp hf).2.2
  | .node hs hn h =>
    obtain ⟨hfn, hfi, hfs⟩ := Node.forall_mem_nested_cons.mp hf
    exact hs.cons ((hn.accepted hfn hfi).cons (h.accepted hfs))

/-- The same for a single node. -/
theorem SpelledNode.accepted {n : Node} {ts : List Token} (h : SpelledNode n ts) (hf : FitsNode n)
    (hi : ∀ m ∈ n.inner, FitsNode m) : AcceptedNode ts := by
  match h with
  | .output he hi =>
    cases hf with
    | output hr => exact .output hr he hi _ _
  | .conditional he ho hb hs =>
    rw [Node.inner, Node.forall_mem_nestedBranches_cons] at hi
    have harms := hs.accepted hi.2
    cases hf with
    | conditional hk hl hc =>
      obtain ⟨word, hword, hwords⟩ := conditionalWords_of_ne_caseOf hk
      rw [hwords] at ho harms
      rw [List.forall_mem_cons] at hc
      have hname : ("end" ++ word) = "end" ++ _ := congrArg ("end" ++ ·) ho.name.symm
      exact .conditional (ho.name ▸ hword) (hc.1 _ rfl) he ho.args (hb.accepted hi.1)
        (hname ▸ harms.clauses hl.tail hc.2)
    | caseOf hr hl hc => exact .caseOf ho.name hr he ho.args (hb.accepted hi.1) (harms.whens hl hc)
  | .loop hx he ho hb hs =>
    rw [Node.inner, List.forall_mem_append] at hi
    have harms := hs.accepted (by rw [Node.nestedBranches_otherwise]; exact hi.2)
    have hend := harms.acceptedEnd (elseLast_otherwise _ _) (by simp)
    cases hf with
    | loop hcut hr hm => exact .loop hx hcut hr he (hm _ he) ho (hb.accepted hi.1) hend
  | .assign hx he ht =>
    cases hf with
    | assign hsign hr => exact .assign hx hsign hr he ht
  | .capture hx ho hb hc =>
    rw [Node.inner, Node.nestedOption] at hi
    exact .capture hx ho (hb.accepted hi) hc.name
  | .comment _ _ => exact .verbatim _ _ _
  | .raw _ _ => exact .verbatim _ _ _
  | .subtemplate he ht =>
    cases hf with
    | subtemplate hr => exact .subtemplate hr he ht
  | .tag hn ht =>
    rw [List.mem_append, List.mem_append, not_or, not_or] at hn
    cases hf with
    | tag ha hi => exact .passedOn hn.1.1 hn.1.2 ha hi ht

/-- The same for the further arms of a block. -/
theorem SpelledArms.accepted {subsequent closing : String} {arms : List (Branch (List Node))}
    {ts : List Token} (h : SpelledArms subsequent closing arms ts)
    (hi : ∀ m ∈ Node.nestedBranches arms, FitsNode m) :
    AcceptedArms subsequent closing arms ts := by
  match h with
  | .closing ht => exact .closing ht
  | .arm he hh hb hs =>
    rw [Node.forall_mem_nestedBranches_cons] at hi
    exact .arm he hh (hb.accepted hi.1) (hs.accepted hi.2)
  | .otherwise hh hb hs =>
    rw [Node.forall_mem_nestedBranches_cons] at hi
    exact .otherwise hh (hb.accepted hi.1) (hs.accepted hi.2)

end

/-- A source is read if its tokens are accepted. -/
theorem exists_read_of_tokenizes {source : String} (h : Tokenizes Opens source.toList Accepted) :
    ∃ nodes, read source = .ok nodes := by
  -- fragments are read at least one deep, except in the empty source
  cases hl : source.length with
  | zero =>
    obtain rfl : source = "" := by simpa using hl
    exact ⟨[], read_empty⟩
  | succ depth =>
    obtain ⟨ts, hts, es, hd, hes⟩ := h 0 [] (.inl rfl)
    have htokens : tokenize source = .ok ts := by
      rw [tokenize, Piece.ofString]
      simpa [tokenizePiece_nil] using hts
    obtain ⟨nodes, hnodes⟩ := hes depth {}
    exact ⟨nodes, by rw [read, readWith, parse, htokens, bind_ok, hd.ofTokens, bind_ok, hl, hnodes]⟩

/-- A template in which nothing leaves its delimiters and every expression fits its place is read if
it is written. -/
theorem exists_read_of_write {nodes : List Node} {source : String} (hc : Contained [] nodes)
    (hf : Fits nodes) (h : write nodes = .ok source) : ∃ nodes', read source = .ok nodes' :=
  exists_read_of_tokenizes ((hc.tokenizes h).mono fun _ hts => hts.accepted hf)

end Stencil.Liquid
