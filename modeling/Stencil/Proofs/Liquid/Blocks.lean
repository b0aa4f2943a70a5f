import Stencil.Liquid.Tree
import Stencil.Proofs.Nesting

/-!
# The block grammar of Liquid

A list of tokens is a template if its blocks are closed in the order in which they were opened. The
grammar says so without a stack of open blocks: a block is its opening tag, the tokens of its body,
its further clauses with their bodies, and its closing tag. The tree of a template nests as the
derivation does; the tokens between the opening tag of a case distinction and its first clause are
derived too, and left out of the tree.
-/

namespace Stencil.Liquid

open Nesting (Feeds)

/-- The names of the tags that open blocks. -/
def blockNames : List String :=
  ["if", "unless", "case", "for", "capture"]

/-! ### The grammar -/

mutual

/-- The elements that a list of tokens stands for. -/
inductive Derives : List Token → List Element → Prop
  | nil : Derives [] []
  | html {ts es} (text : Piece) (hs : Derives ts es) : Derives (.html text :: ts) (.html text :: es)
  | output {ts es inner value} (hv : parseValue inner = .ok value) (span : Span) (trim : Trim)
      (hs : Derives ts es) :
      Derives (.output inner span trim :: ts) (.output value span trim :: es)
  | verbatim {ts es} (opening : Tag) (content : Piece) (closing : Tag) (hs : Derives ts es) :
      Derives (.verbatim opening content closing :: ts) (.verbatim opening content closing :: es)
  | tag {ts es tag} (hb : tag.name ∉ blockNames) (ht : tag.name ∉ structural) (hs : Derives ts es) :
      Derives (.tag tag :: ts) (.tag tag :: es)
  | conditional {opening condition body bodyTs arms clauses otherwise closing ts es}
      (ho : opening.name = "if" ∨ opening.name = "unless")
      (hc : readCondition opening = .ok condition) (hb : Derives bodyTs body)
      (ha : DerivesClauses ("end" ++ opening.name) arms clauses otherwise closing)
      (hs : Derives ts es) :
      Derives (.tag opening :: bodyTs ++ arms ++ ts)
        (.conditional ⟨opening, condition, body⟩ clauses otherwise closing :: es)
  | caseOf {opening subject skipped skippedTs arms whens otherwise closing ts es}
      (ho : opening.name = "case") (hv : parseValue opening.args = .ok subject)
      (hb : Derives skippedTs skipped) (ha : DerivesWhens arms whens otherwise closing)
      (hs : Derives ts es) :
      Derives (.tag opening :: skippedTs ++ arms ++ ts)
        (.caseOf opening subject whens otherwise closing :: es)
  | loop {opening body bodyTs rest otherwise closing ts es} (ho : opening.name = "for")
      (hb : Derives bodyTs body) (ha : DerivesEnd "endfor" rest otherwise closing)
      (hs : Derives ts es) :
      Derives (.tag opening :: bodyTs ++ rest ++ ts) (.loop opening body otherwise closing :: es)
  | capture {opening body bodyTs closing ts es} (ho : opening.name = "capture")
      (hb : Derives bodyTs body) (hc : closing.name = "endcapture") (hs : Derives ts es) :
      Derives (.tag opening :: bodyTs ++ .tag closing :: ts) (.capture opening body closing :: es)

/-- The tokens of a conditional after the body of its first clause. -/
inductive DerivesClauses :
    String → List Token → List (Clause Element) → Option (Alternative Element) → Tag → Prop
  | last {name ts otherwise closing} (h : DerivesEnd name ts otherwise closing) :
      DerivesClauses name ts [] otherwise closing
  | clause {name head condition body bodyTs ts clauses otherwise closing}
      (hh : head.name = "elsif")
      (hc : readCondition head = .ok condition) (hb : Derives bodyTs body)
      (hs : DerivesClauses name ts clauses otherwise closing) :
      DerivesClauses name (.tag head :: bodyTs ++ ts) (⟨head, condition, body⟩ :: clauses) otherwise
        closing

/-- The tokens of a case distinction from its first clause on. -/
inductive DerivesWhens :
    List Token → List (When Element) → Option (Alternative Element) → Tag → Prop
  | last {ts otherwise closing} (h : DerivesEnd "endcase" ts otherwise closing) :
      DerivesWhens ts [] otherwise closing
  | clause {head values body bodyTs ts whens otherwise closing} (hh : head.name = "when")
      (hv : parseWhen head.args = .ok values) (hb : Derives bodyTs body)
      (hs : DerivesWhens ts whens otherwise closing) :
      DerivesWhens (.tag head :: bodyTs ++ ts) (⟨head, values, body⟩ :: whens) otherwise closing

/-- The tokens of a block from its alternative on, or only its closing tag. -/
inductive DerivesEnd : String → List Token → Option (Alternative Element) → Tag → Prop
  | closing {name closing} (hc : closing.name = name) : DerivesEnd name [.tag closing] none closing
  | otherwise {name head body bodyTs closing} (hh : head.name = "else") (hb : Derives bodyTs body)
      (hc : closing.name = name) :
      DerivesEnd name (.tag head :: bodyTs ++ [.tag closing]) (some ⟨head, body⟩) closing

end

/-! ### Open blocks -/

/-- All open blocks were opened by the tags that open blocks. -/
def Proper (b : Builder) : Prop :=
  ∀ p ∈ b.blocks, p.1.opening.name ∈ blockNames

variable {b : Builder} {t : Tag} {block : Block} {es : List Element}

theorem Proper.enter (hb : Proper b) (h : block.opening.name ∈ blockNames) :
    Proper (b.enter block) := by
  intro p hp
  rcases List.mem_cons.mp hp with rfl | hp
  · exact h
  · exact hb p hp

theorem mem_blockNames_of_eq {word : String} (h : t.name = word) (hw : word ∈ blockNames) :
    t.name ∈ blockNames :=
  h ▸ hw

theorem mem_blockNames_of_conditional (h : t.name = "if" ∨ t.name = "unless") :
    t.name ∈ blockNames :=
  h.elim (mem_blockNames_of_eq · (by decide)) (mem_blockNames_of_eq · (by decide))

theorem end_mem_structural {name : String} (h : name ∈ blockNames) :
    "end" ++ name ∈ structural := by
  revert name
  decide

/-- A tag that is not made for the inside of a block does not belong to a block that it does not
end. -/
theorem Block.advance_eq_foreign_of_ne (hend : t.name ≠ "end" ++ block.opening.name)
    (ht : t.name ∉ structural) (body : List Element) : block.advance t body = .ok .foreign := by
  have hne : ∀ word ∈ structural, (t.name == word) = false := fun word hw => by
    rw [beq_eq_false_iff_ne]
    rintro rfl
    exact ht hw
  rw [← beq_eq_false_iff_ne] at hend
  cases block with
  | clause | clauseElse =>
    rw [Block.opening] at hend
    simp only [Block.advance, hne "elsif" (by decide), hne "else" (by decide), hend,
      Bool.false_eq_true, if_false]
  | caseHead | caseWhen | caseElse =>
    simp [Block.advance, hne "when" (by decide), hne "else" (by decide), hne "endcase" (by decide)]
  | loop | loopElse => simp [Block.advance, hne "else" (by decide), hne "endfor" (by decide)]
  | capture => simp [Block.advance, hne "endcapture" (by decide)]

/-- A tag that is not made for the inside of a block does not belong to any block. -/
theorem Block.advance_eq_foreign (hb : block.opening.name ∈ blockNames) (ht : t.name ∉ structural)
    (body : List Element) : block.advance t body = .ok .foreign :=
  advance_eq_foreign_of_ne (fun h => ht (h ▸ end_mem_structural hb)) ht body

/-- A tag that is not made for the inside of a block opens one or stands on its own. -/
theorem feed_openTag (hb : Proper b) (ht : t.name ∉ structural) :
    feed b (.tag t) = (Block.open? t).map fun block? =>
      match block? with
      | some block => b.enter block
      | none => b.push (.tag t) := by
  rw [feed, Nesting.advance_foreign fun p hp body => Block.advance_eq_foreign (hb p hp) ht body]
  exact if_neg (by simpa using ht)

theorem feed_open (hb : Proper b) (ht : t.name ∈ blockNames)
    (ho : Block.open? t = .ok (some block)) : feed b (.tag t) = .ok (b.enter block) := by
  have hdisjoint : ∀ name ∈ blockNames, name ∉ structural := by decide
  rw [feed_openTag hb (hdisjoint t.name ht), ho]
  rfl

theorem feed_conditional {condition : Chain} (hb : Proper b)
    (ht : t.name = "if" ∨ t.name = "unless") (hc : readCondition t = .ok condition) :
    feed b (.tag t) = .ok (b.enter (.clause t none t condition)) :=
  feed_open hb (mem_blockNames_of_conditional ht)
    (by rcases ht with h | h <;> simp [Block.open?, h, hc])

theorem feed_case {subject : Value} (hb : Proper b) (ht : t.name = "case")
    (hv : parseValue t.args = .ok subject) :
    feed b (.tag t) = .ok (b.enter (.caseHead t subject)) :=
  feed_open hb (mem_blockNames_of_eq ht (by decide)) (by simp [Block.open?, ht, hv])

theorem feed_loop (hb : Proper b) (ht : t.name = "for") :
    feed b (.tag t) = .ok (b.enter (.loop t)) :=
  feed_open hb (mem_blockNames_of_eq ht (by decide)) (by simp [Block.open?, ht])

theorem feed_capture (hb : Proper b) (ht : t.name = "capture") :
    feed b (.tag t) = .ok (b.enter (.capture t)) :=
  feed_open hb (mem_blockNames_of_eq ht (by decide)) (by simp [Block.open?, ht])

theorem feed_single (hb : Proper b) (ht : t.name ∉ structural) (hn : t.name ∉ blockNames) :
    feed b (.tag t) = .ok (b.push (.tag t)) := by
  have ho : Block.open? t = .ok none := by
    simp only [blockNames, List.mem_cons, List.not_mem_nil, or_false, not_or] at hn
    simp [Block.open?, hn]
  rw [feed_openTag hb ht, ho]
  rfl

theorem feed_enter {next : Block} (h : block.advance t es = .ok (.enter next)) :
    feed ((b.enter block).extend es) (.tag t) = .ok (b.enter next) := by
  rw [feed, Nesting.advance_enter h]

theorem feed_close {e : Element} (h : block.advance t es = .ok (.close e)) :
    feed ((b.enter block).extend es) (.tag t) = .ok (b.push e) := by
  rw [feed, Nesting.advance_close h]

/-- An open block, with the elements of the part that is being read, that can end or have an
alternative. Its element is `element` of the alternative and of the closing tag, which is called
`name`. -/
structure CanEnd (name : String) (block : Block) (body : List Element)
    (element : Option (Alternative Element) → Tag → Element) (alternative : Tag → Block) :
    Prop where
  close : ∀ t : Tag, t.name = name → block.advance t body = .ok (.close (element none t))
  enter : ∀ t : Tag, t.name = "else" → block.advance t body = .ok (.enter (alternative t))
  closeElse : ∀ (head t : Tag) (otherwise : List Element), t.name = name →
    (alternative head).advance t otherwise = .ok (.close (element (some ⟨head, otherwise⟩) t))
  opening : ∀ t, (alternative t).opening.name ∈ blockNames

/-- A conditional can end after each clause. -/
theorem canEnd_clause {opening : Tag} (ho : opening.name = "if" ∨ opening.name = "unless")
    (done : Option (Clauses (Clause Element))) (head : Tag) (condition : Chain)
    (body : List Element) :
    CanEnd ("end" ++ opening.name) (.clause opening done head condition) body
      (.conditional (Clauses.extend done ⟨head, condition, body⟩).first
        (Clauses.extend done ⟨head, condition, body⟩).rest)
      (.clauseElse opening (Clauses.extend done ⟨head, condition, body⟩)) where
  close t ht := by
    have h₁ : (t.name == "elsif") = false := by rcases ho with h | h <;> rw [ht, h] <;> decide
    have h₂ : (t.name == "else") = false := by rcases ho with h | h <;> rw [ht, h] <;> decide
    have h₃ : (t.name == "end" ++ opening.name) = true := by simp [ht]
    simp only [Block.advance, h₁, h₂, h₃, Bool.false_eq_true, if_false, if_true]
  enter t ht := by simp [Block.advance, ht]
  closeElse head t otherwise ht := by simp [Block.advance, ht]
  opening _ := mem_blockNames_of_conditional ho

theorem advance_elsif {opening head : Tag} {done : Option (Clauses (Clause Element))}
    {condition next : Chain} {body : List Element} (ht : t.name = "elsif")
    (hc : readCondition t = .ok next) :
    (Block.clause opening done head condition).advance t body =
      .ok (.enter
        (.clause opening (some (Clauses.extend done ⟨head, condition, body⟩)) t next)) := by
  simp [Block.advance, ht, hc]

/-- A loop can end after its body. -/
theorem canEnd_loop {opening : Tag} (ho : opening.name = "for") (body : List Element) :
    CanEnd "endfor" (.loop opening) body (.loop opening body) (.loopElse opening body) where
  close t ht := by simp [Block.advance, ht]
  enter t ht := by simp [Block.advance, ht]
  closeElse head t otherwise ht := by simp [Block.advance, ht]
  opening _ := mem_blockNames_of_eq ho (by decide)

/-- An open case distinction, with the elements of the part that is being read, that has the clauses
`whens` so far. -/
structure CanGoOn (opening : Tag) (subject : Value) (whens : List (When Element)) (block : Block)
    (body : List Element) : Prop where
  next : ∀ t : Tag, t.name = "when" → block.advance t body = enterWhen opening subject whens t
  canEnd : CanEnd "endcase" block body (.caseOf opening subject whens)
    (.caseElse opening subject whens)

theorem CanGoOn.advance {opening : Tag} {subject : Value} {whens : List (When Element)}
    {body : List Element} (h : CanGoOn opening subject whens block body) (ht : t.name = "when")
    {values : List Operand} (hv : parseWhen t.args = .ok values) :
    block.advance t body = .ok (.enter (.caseWhen opening subject whens t values)) := by
  rw [h.next t ht, enterWhen, hv, map_ok]

theorem canGoOn_caseHead {opening : Tag} (ho : opening.name = "case") (subject : Value)
    (body : List Element) : CanGoOn opening subject [] (.caseHead opening subject) body where
  next t ht := by simp [Block.advance, ht]
  canEnd :=
    { close t ht := by simp [Block.advance, ht]
      enter t ht := by simp [Block.advance, ht]
      closeElse head t otherwise ht := by simp [Block.advance, ht]
      opening _ := mem_blockNames_of_eq ho (by decide) }

theorem canGoOn_caseWhen {opening : Tag} (ho : opening.name = "case") (subject : Value)
    (done : List (When Element)) (head : Tag) (values : List Operand) (body : List Element) :
    CanGoOn opening subject (done ++ [⟨head, values, body⟩])
      (.caseWhen opening subject done head values) body where
  next t ht := by simp [Block.advance, ht]
  canEnd :=
    { close t ht := by simp [Block.advance, ht]
      enter t ht := by simp [Block.advance, ht]
      closeElse head t otherwise ht := by simp [Block.advance, ht]
      opening _ := mem_blockNames_of_eq ho (by decide) }

/-! ### Derived tokens are built -/

mutual

/-- A derived list of tokens adds its elements to any tree that is being built. -/
theorem Derives.feeds {ts : List Token} {es : List Element} (h : Derives ts es) {b : Builder}
    (hb : Proper b) : Feeds feed ts b (b.extend es) := by
  match h with
  | .nil => exact .nil
  | .html text hs =>
    rw [← Nesting.extend_push]
    exact .cons rfl (hs.feeds hb)
  | .output hv span trim hs =>
    rw [← Nesting.extend_push]
    exact .cons (by rw [feed, hv, map_ok]) (hs.feeds hb)
  | .verbatim opening content closing hs =>
    rw [← Nesting.extend_push]
    exact .cons rfl (hs.feeds hb)
  | .tag hn ht hs =>
    rw [← Nesting.extend_push]
    exact .cons (feed_single hb ht hn) (hs.feeds hb)
  | .conditional ho hc hbody ha hs =>
    have hname := mem_blockNames_of_conditional ho
    rw [← Nesting.extend_push]
    refine .append (.append (.cons (feed_conditional hb ho hc) (hbody.feeds (hb.enter hname))) ?_)
      (hs.feeds hb)
    exact ha.feeds rfl ho hb none _ _ _
  | .caseOf ho hv hbody ha hs =>
    have hname := mem_blockNames_of_eq ho (by decide)
    rw [← Nesting.extend_push]
    refine .append (.append (.cons (feed_case hb ho hv) (hbody.feeds (hb.enter hname))) ?_)
      (hs.feeds hb)
    exact ha.feeds ho hb (canGoOn_caseHead ho _ _)
  | .loop ho hbody ha hs =>
    have hname := mem_blockNames_of_eq ho (by decide)
    rw [← Nesting.extend_push]
    refine .append (.append (.cons (feed_loop hb ho) (hbody.feeds (hb.enter hname))) ?_)
      (hs.feeds hb)
    exact ha.feeds hb (canEnd_loop ho _)
  | .capture ho hbody hc hs =>
    have hname := mem_blockNames_of_eq ho (by decide)
    rw [← Nesting.extend_push]
    refine .append (.cons (feed_capture hb ho) (hbody.feeds (hb.enter hname))) ?_
    exact .cons (feed_close (by simp [Block.advance, hc])) (hs.feeds hb)

/-- The rest of a conditional closes it. -/
theorem DerivesClauses.feeds {ts : List Token} {clauses : List (Clause Element)}
    {otherwise : Option (Alternative Element)} {opening closing : Tag} {name : String}
    (h : DerivesClauses name ts clauses otherwise closing) (hn : name = "end" ++ opening.name)
    (ho : opening.name = "if" ∨ opening.name = "unless") {b : Builder} (hb : Proper b)
    (done : Option (Clauses (Clause Element))) (head : Tag) (condition : Chain)
    (body : List Element) :
    Feeds feed ts ((b.enter (.clause opening done head condition)).extend body)
      (b.push (.conditional (Clauses.extend done ⟨head, condition, body⟩).first
        ((Clauses.extend done ⟨head, condition, body⟩).rest ++ clauses) otherwise closing)) := by
  match h with
  | .last h =>
    rw [List.append_nil]
    exact h.feeds hb (hn ▸ canEnd_clause ho done head condition body)
  | .clause hh hc hbody hs =>
    have hname := mem_blockNames_of_conditional ho
    refine .append (.cons (feed_enter (advance_elsif hh hc)) (hbody.feeds (hb.enter hname))) ?_
    rw [← List.singleton_append, ← List.append_assoc]
    exact hs.feeds hn ho hb (some (Clauses.extend done ⟨head, condition, body⟩)) _ _ _

/-- The rest of a case distinction closes it. -/
theorem DerivesWhens.feeds {ts : List Token} {whens done : List (When Element)}
    {otherwise : Option (Alternative Element)} {opening closing : Tag} {subject : Value}
    {block : Block} {body : List Element} (h : DerivesWhens ts whens otherwise closing)
    (ho : opening.name = "case") {b : Builder} (hb : Proper b)
    (hg : CanGoOn opening subject done block body) :
    Feeds feed ts ((b.enter block).extend body)
      (b.push (.caseOf opening subject (done ++ whens) otherwise closing)) := by
  match h with
  | .last h =>
    rw [List.append_nil]
    exact h.feeds hb hg.canEnd
  | .clause hh hv hbody hs =>
    have hname := mem_blockNames_of_eq ho (by decide)
    refine .append (.cons (feed_enter (hg.advance hh hv)) (hbody.feeds (hb.enter hname))) ?_
    rw [← List.singleton_append, ← List.append_assoc]
    exact hs.feeds ho hb (canGoOn_caseWhen ho subject done _ _ _)

/-- The end of a block closes it. -/
theorem DerivesEnd.feeds {name : String} {ts : List Token}
    {otherwise : Option (Alternative Element)} {closing : Tag} {block : Block}
    {body : List Element} {element : Option (Alternative Element) → Tag → Element}
    {alternative : Tag → Block} (h : DerivesEnd name ts otherwise closing) {b : Builder}
    (hb : Proper b) (he : CanEnd name block body element alternative) :
    Feeds feed ts ((b.enter block).extend body) (b.push (element otherwise closing)) := by
  match h with
  | .closing hc => exact .cons (feed_close (he.close _ hc)) .nil
  | .otherwise hh hbody hc =>
    refine .append (.cons (feed_enter (he.enter _ hh)) (hbody.feeds (hb.enter (he.opening _)))) ?_
    exact .cons (feed_close (he.closeElse _ _ _ hc)) .nil

end

/-- The tree of a derived list of tokens. -/
theorem Derives.ofTokens {ts : List Token} {es : List Element} (h : Derives ts es) :
    Element.ofTokens ts = .ok es :=
  Feeds.run (h.feeds fun _ hp => absurd hp List.not_mem_nil)

end Stencil.Liquid
