import Stencil.Proofs.Liquid.Echo
import Stencil.Proofs.Liquid.Padding

/-!
# Fragments

The value of an assignment, the collection of a loop and the name of a subtemplate are read as
fragments: each is put between the delimiters of an output, and the source that this makes is split
into tokens, built into a tree and read. That is the same as reading the text as a value right away.
A text that closes the output early is no value, and a value never does.

So a tag for a subtemplate whose arguments are a single operand is never the reason why a source
cannot be read: without it, reading fails in the same way or not at all.

## Main results

* `Liquid.readWith_output_iff` : a single output is read as the value between its delimiters.
* `Liquid.readFragment_eq_ok_iff` : a fragment is read as the value that its text is.
* `Liquid.BuilderAlike.run` : tokens that always have a node make no difference to failures.
* `Liquid.read_eq_error_iff` : subtemplates never make reading fail.
* `Liquid.readFragment_reads_value` : fragments are values, and no tag for a subtemplate is to blame
  for a failure.
-/

namespace Stencil.Liquid

variable {scope : Scope} {depth : Nat} {text : List Char} {e : Expr}

/-! ### Fragments are values -/

theorem text_eq_nil_of_tokenizePiece {p : Piece} (h : tokenizePiece p = .ok []) : p.text = [] := by
  rw [tokenizePiece] at h
  split at h
  · next hp => exact hp
  · split at h
    · cases h
    · split at h <;> cases h

/-- A padded text between the delimiters of an output, if nothing comes after the first closing
delimiter. -/
theorem inner_of_delimited? {start : Nat} {d : Delimited}
    (h : delimited? .output ⟨start, ' ' :: text ++ [' '] ++ ['}', '}']⟩ = some d)
    (hrest : d.rest.text = []) : d.inner.text = ' ' :: text ++ [' '] := by
  obtain ⟨⟨i, r⟩, hi, rfl⟩ := Option.map_eq_some_iff.mp h
  obtain rfl : r = [] := hrest
  have hsplit : ' ' :: text ++ [' '] ++ ['}', '}'] = i ++ ['}', '}'] := eq_append_of_untilClose hi
  obtain rfl := List.append_cancel_right hsplit
  refine if_neg ?_
  rw [List.getLast?_concat]
  decide

/-- An output is the only token of its source only if it ends where the source ends. -/
theorem inner_of_tokenize_output {body : String} {inner : Piece} {span : Span} {trim : Trim}
    (h : tokenize (Markup.output body .unset) = .ok [.output inner span trim]) :
    inner.text = ' ' :: body.toList ++ [' '] := by
  have htext : (Markup.output body .unset).toList =
      '{' :: '{' :: (' ' :: body.toList ++ [' '] ++ ['}', '}']) := by
    simp [Markup.output, Markup.delimit, Markup.marker, Trim.unset]
  rw [tokenize, Piece.ofString, htext, tokenizePiece, dif_neg (by simp)] at h
  split at h
  · cases h
  · next t rest ht =>
    split at h
    · cases h
    · next ts hts =>
      obtain ⟨rfl, rfl⟩ := List.cons.inj (Except.ok.inj h)
      have hrest := text_eq_nil_of_tokenizePiece hts
      simp only [readToken, open?, readOutput] at ht
      split at ht
      · cases ht
      · next d hd =>
        obtain ⟨htoken, rfl⟩ := Prod.mk.inj (Except.ok.inj ht)
        obtain ⟨rfl, -, -⟩ := Token.output.inj htoken
        exact inner_of_delimited? hd hrest

/-- A source that is a single output is read as the value between its delimiters. -/
theorem readWith_output_iff (fragment : FragmentReader) (scope : Scope) (body : String)
    (e : Expr) :
    (∃ trim, readWith fragment scope (Markup.output body .unset) = .ok [.output e trim]) ↔
      ∃ v, parseValue ⟨0, body.toList⟩ = .ok v ∧ v.toExpr scope = .ok e := by
  have hpadded : ∀ start,
      (parseValue ⟨0, body.toList⟩ >>= Value.toExpr scope = .ok e ↔
        parseValue ⟨start, ' ' :: body.toList ++ [' ']⟩ >>= Value.toExpr scope = .ok e) := by
    intro start
    have h := agree_trim 0 ⟨start, ' ' :: body.toList ++ [' ']⟩ scope
    rw [Text.trim_pad] at h
    rw [← (agree_trim 0 ⟨0, body.toList⟩ scope).ok_iff, h.ok_iff]
  rw [← bind_eq_ok]
  constructor
  · rintro ⟨trim, h⟩
    obtain ⟨es, hparse, hnodes⟩ := bind_eq_ok.mp h
    obtain ⟨ts, htokens, hes⟩ := bind_eq_ok.mp hparse
    obtain ⟨el, rfl, hel⟩ := exists_of_toNodes_singleton hnodes
    obtain ⟨value, span, rfl, he⟩ := exists_value_of_toNode hel
    cases derives_of_ofTokens hes with
    | @output _ _ inner _ hv _ _ hs =>
      cases hs
      have hinner := inner_of_tokenize_output htokens
      obtain ⟨start, cs⟩ := inner
      obtain rfl : cs = _ := hinner
      exact (hpadded start).mpr (bind_eq_ok.mpr ⟨value, hv, he⟩)
  · intro h
    obtain ⟨v, hv, -⟩ := bind_eq_ok.mp h
    obtain ⟨start, span, hparse⟩ := parse_output (isEnclosed_of_parseValue hv) .unset
    obtain ⟨v', hv', he⟩ := bind_eq_ok.mp ((hpadded start).mp h)
    refine ⟨.unset, ?_⟩
    rw [readWith, hparse, hv', map_ok, bind_ok, Element.toNodes, Element.toNode, he]
    rfl

theorem outputExpr_eq_ok_iff {nodes : List Node} :
    outputExpr nodes = .ok e ↔ ∃ trim, nodes = [.output e trim] := by
  unfold outputExpr
  split
  · simp
  · next h =>
    constructor
    · intro he
      cases he
    · rintro ⟨trim, hnodes⟩
      exact (h e trim hnodes).elim

theorem fragmentSource_eq (text : List Char) :
    fragmentSource text = Markup.output (String.ofList (Text.trim text)) .unset := by
  simp [← String.toList_inj, fragmentSource, Markup.output, Markup.delimit, Markup.marker,
    Trim.unset]

theorem readFragment_eq_ok_iff (depth : Nat) (scope : Scope) (text : List Char) (e : Expr) :
    readFragment (depth + 1) scope text = .ok e ↔
      ∃ v, parseValue ⟨0, text⟩ = .ok v ∧ v.toExpr scope = .ok e := by
  rw [← bind_eq_ok, ← (agree_trim 0 ⟨0, text⟩ scope).ok_iff, bind_eq_ok]
  have h := readWith_output_iff (readFragment depth) scope (String.ofList (Text.trim text)) e
  rw [String.toList_ofList, ← fragmentSource_eq] at h
  rw [← h, readFragment]
  constructor
  · intro h
    obtain ⟨nodes, hnodes, h⟩ := bind_eq_ok.mp h
    obtain ⟨trim, rfl⟩ := outputExpr_eq_ok_iff.mp h
    exact ⟨trim, hnodes⟩
  · rintro ⟨trim, h⟩
    rw [h]
    rfl

/-! ### Subtemplates are read -/

/-- A tag for a subtemplate whose arguments are a single operand. -/
def Tag.isSubtemplate (t : Tag) : Bool :=
  t.name == "include" && isSingleOperand t.args

/-- A token that is a tag for a subtemplate with a single operand. -/
def Token.isSubtemplate : Token → Bool
  | .tag t => t.isSubtemplate
  | _ => false

/-- A single operand is read as a fragment, wherever it stood. -/
theorem exists_readFragment_of_isSingleOperand {p : Piece} (h : isSingleOperand p) (depth : Nat)
    (scope : Scope) : ∃ e, readFragment (depth + 1) scope p.text = .ok e := by
  unfold isSingleOperand at h
  split at h
  · next o hv =>
    have hpadded : Padded p ⟨0, p.text⟩ := ⟨[], by simp, by simp⟩
    rcases hpadded.parseValue.cases with ⟨_, _, hp, -, -⟩ | ⟨v, v', hp, hv', hsame⟩
    · rw [hv] at hp
      cases hp
    · rw [hv] at hp
      cases hp
      obtain ⟨initial, filters⟩ := v'
      obtain rfl : filters = [] := by
        cases hsame.2
        rfl
      exact ⟨_, (readFragment_eq_ok_iff depth scope p.text _).mpr ⟨_, hv', rfl⟩⟩
  · cases h

/-- A subtemplate with a single operand has a node. -/
theorem Tag.isSubtemplate.exists_toNode {t : Tag} (h : t.isSubtemplate) (depth : Nat)
    (scope : Scope) :
    ∃ node, Element.toNode (readFragment (depth + 1)) scope (.tag t) = .ok node := by
  rw [Tag.isSubtemplate, Bool.and_eq_true] at h
  obtain ⟨e, he⟩ := exists_readFragment_of_isSingleOperand h.2 depth scope
  refine ⟨.subtemplate e false t.trim, ?_⟩
  have hassign : (t.name == "assign") = false := by
    rw [beq_iff_eq.mp h.1]
    decide
  rw [Element.toNode, readSingleTag, hassign, h.1, h.2]
  simp [he]

/-! ### Trees that fail alike -/

/-- Results of any kind. -/
def AnyResult {α β : Type} (_ : α) (_ : β) : Prop :=
  True

section Alike

variable (fragment : FragmentReader)

/-- Lists of elements whose nodes are read with the same error, or both without one. -/
def Alike (es es' : List Element) : Prop :=
  ∀ scope,
    Agree Eq AnyResult (Element.toNodes fragment scope es) (Element.toNodes fragment scope es')

/-- The same for single elements. -/
def Element.Alike (e e' : Element) : Prop :=
  ∀ scope, Agree Eq AnyResult (e.toNode fragment scope) (e'.toNode fragment scope)

/-- Clauses that only differ in bodies that fail alike. -/
def Clause.Alike (c c' : Clause Element) : Prop :=
  c.tag = c'.tag ∧ c.condition = c'.condition ∧ Liquid.Alike fragment c.body c'.body

/-- Clauses of a case distinction that only differ in bodies that fail alike. -/
def When.Alike (w w' : When Element) : Prop :=
  w.tag = w'.tag ∧ w.values = w'.values ∧ Liquid.Alike fragment w.body w'.body

/-- Alternatives that only differ in bodies that fail alike. -/
def Alternative.Alike (a a' : Alternative Element) : Prop :=
  a.tag = a'.tag ∧ Liquid.Alike fragment a.body a'.body

variable {fragment}

theorem agree_clauseArms {cs cs' : List (Clause Element)}
    (h : List.Forall₂ (Clause.Alike fragment) cs cs') (scope : Scope) :
    Agree Eq AnyResult (Element.clauseArms fragment scope cs)
      (Element.clauseArms fragment scope cs') := by
  induction h with
  | nil => trivial
  | @cons c c' _ _ hc _ ih =>
    obtain ⟨tag, condition, body⟩ := c
    obtain ⟨tag', condition', body'⟩ := c'
    unfold Element.clauseArms
    exact (hc.2.2 scope).bind fun _ _ _ _ _ => ih.bind fun _ _ _ _ _ => trivial

theorem agree_whenArms {ws ws' : List (When Element)}
    (h : List.Forall₂ (When.Alike fragment) ws ws') (scope : Scope) :
    Agree Eq AnyResult (Element.whenArms fragment scope ws)
      (Element.whenArms fragment scope ws') := by
  induction h with
  | nil => trivial
  | @cons w w' _ _ hw _ ih =>
    obtain ⟨tag, values, body⟩ := w
    obtain ⟨tag', values', body'⟩ := w'
    unfold Element.whenArms
    exact (hw.2.2 scope).bind fun _ _ _ _ _ => ih.bind fun _ _ _ _ _ => trivial

theorem agree_toAlternative {a a' : Option (Alternative Element)}
    (h : Option.Rel (Alternative.Alike fragment) a a') (scope : Scope) :
    Agree Eq AnyResult (Element.toAlternative fragment scope a)
      (Element.toAlternative fragment scope a') := by
  cases h with
  | none => trivial
  | @some a a' ha =>
    obtain ⟨tag, body⟩ := a
    obtain ⟨tag', body'⟩ := a'
    unfold Element.toAlternative
    exact (ha.2 scope).bind fun _ _ _ _ _ => trivial

theorem Element.Alike.conditional {first first' : Clause Element}
    {rest rest' : List (Clause Element)} {otherwise otherwise' : Option (Alternative Element)}
    (hf : Clause.Alike fragment first first')
    (hr : List.Forall₂ (Clause.Alike fragment) rest rest')
    (ho : Option.Rel (Alternative.Alike fragment) otherwise otherwise') (closing : Tag) :
    Element.Alike fragment (.conditional first rest otherwise closing)
      (.conditional first' rest' otherwise' closing) := by
  intro scope
  obtain ⟨tag, condition, body⟩ := first
  obtain ⟨tag', condition', body'⟩ := first'
  unfold Element.toNode
  exact (hf.2.2 scope).bind fun _ _ _ _ _ => (agree_clauseArms hr scope).bind fun _ _ _ _ _ =>
    (agree_toAlternative ho scope).bind fun _ _ _ _ _ => trivial

theorem Element.Alike.caseOf {whens whens' : List (When Element)}
    {otherwise otherwise' : Option (Alternative Element)}
    (hw : List.Forall₂ (When.Alike fragment) whens whens')
    (ho : Option.Rel (Alternative.Alike fragment) otherwise otherwise') (opening : Tag)
    (subject : Value) (closing : Tag) :
    Element.Alike fragment (.caseOf opening subject whens otherwise closing)
      (.caseOf opening subject whens' otherwise' closing) := by
  intro scope
  unfold Element.toNode
  exact (Agree.refl (fun _ => rfl) _).bind fun _ _ _ _ _ =>
    (agree_whenArms hw scope).bind fun _ _ _ _ _ =>
      (agree_toAlternative ho scope).bind fun _ _ _ _ _ => trivial

theorem Element.Alike.loop {body body' : List Element}
    {otherwise otherwise' : Option (Alternative Element)} (hb : Liquid.Alike fragment body body')
    (ho : Option.Rel (Alternative.Alike fragment) otherwise otherwise') (opening closing : Tag) :
    Element.Alike fragment (.loop opening body otherwise closing)
      (.loop opening body' otherwise' closing) := by
  intro scope
  unfold Element.toNode
  exact (Agree.refl (fun _ => rfl) _).bind fun _ _ _ _ _ => (hb _).bind fun _ _ _ _ _ =>
    (agree_toAlternative ho scope).bind fun _ _ _ _ _ => trivial

theorem Element.Alike.capture {body body' : List Element} (hb : Liquid.Alike fragment body body')
    (opening closing : Tag) :
    Element.Alike fragment (.capture opening body closing) (.capture opening body' closing) := by
  intro scope
  unfold Element.toNode
  exact (Agree.refl (fun _ => rfl) _).bind fun _ _ _ _ _ => (hb scope).bind fun _ _ _ _ _ => trivial

theorem Element.Alike.refl (e : Element) : Element.Alike fragment e e :=
  fun _ => (Agree.refl (fun _ => rfl) _).mono fun _ _ _ => trivial

namespace Alike

variable {es es' : List Element} {e e' : Element}

theorem refl (es : List Element) : Alike fragment es es :=
  fun _ => (Agree.refl (fun _ => rfl) _).mono fun _ _ _ => trivial

theorem toNodes_append (scope : Scope) (es fs : List Element) :
    Element.toNodes fragment scope (es ++ fs) =
      Element.toNodes fragment scope es >>= fun nodes =>
        (Element.toNodes fragment scope fs).map (nodes ++ ·) := by
  induction es with
  | nil =>
    rw [List.nil_append, Element.toNodes, ok_bind]
    cases Element.toNodes fragment scope fs <;> rfl
  | cons e es ih =>
    rw [List.cons_append, Element.toNodes, Element.toNodes, ih]
    cases Element.toNode fragment scope e with
    | error => rfl
    | ok node =>
      cases Element.toNodes fragment scope es with
      | error => rfl
      | ok nodes => cases Element.toNodes fragment scope fs <;> rfl

theorem singleton (h : Element.Alike fragment e e') : Alike fragment [e] [e'] := by
  intro scope
  unfold Element.toNodes
  exact (h scope).bind fun _ _ _ _ _ => trivial

theorem append {fs fs' : List Element} (h : Alike fragment es es') (h' : Alike fragment fs fs') :
    Alike fragment (es ++ fs) (es' ++ fs') := by
  intro scope
  rw [toNodes_append, toNodes_append]
  exact (h scope).bind fun _ _ _ _ _ => (h' scope).map fun _ _ _ => trivial

/-- An element that always has a node can be left out. -/
theorem skip (h : ∀ scope, ∃ node, e.toNode fragment scope = .ok node) : Alike fragment [e] [] := by
  intro scope
  obtain ⟨node, hnode⟩ := h scope
  have hnodes : Element.toNodes fragment scope [e] = .ok [node] := by
    rw [Element.toNodes, hnode]
    rfl
  rw [hnodes]
  trivial

end Alike

/-! ### Builders that fail alike -/

variable (fragment) in
/-- The clauses of a conditional, if they only differ in bodies that fail alike. -/
def ClausesAlike (c c' : Clauses (Clause Element)) : Prop :=
  Clause.Alike fragment c.first c'.first ∧ List.Forall₂ (Clause.Alike fragment) c.rest c'.rest

theorem ClausesAlike.extend {done done' : Option (Clauses (Clause Element))} {c c' : Clause Element}
    (h : Option.Rel (ClausesAlike fragment) done done') (hc : Clause.Alike fragment c c') :
    ClausesAlike fragment (Clauses.extend done c) (Clauses.extend done' c') := by
  cases h with
  | none => exact ⟨hc, .nil⟩
  | some hd => exact ⟨hd.1, List.rel_append hd.2 (.cons hc .nil)⟩

variable (fragment) in
/-- Open blocks that only differ in bodies that fail alike. -/
inductive Block.Alike : Block → Block → Prop
  | clause {done done' : Option (Clauses (Clause Element))} (opening tag : Tag) (condition : Chain)
      (h : Option.Rel (ClausesAlike fragment) done done') :
      Alike (.clause opening done tag condition) (.clause opening done' tag condition)
  | clauseElse {done done' : Clauses (Clause Element)} (opening tag : Tag)
      (h : ClausesAlike fragment done done') :
      Alike (.clauseElse opening done tag) (.clauseElse opening done' tag)
  | caseHead (opening : Tag) (subject : Value) :
      Alike (.caseHead opening subject) (.caseHead opening subject)
  | caseWhen {done done' : List (When Element)} (opening : Tag) (subject : Value) (tag : Tag)
      (values : List Operand) (h : List.Forall₂ (When.Alike fragment) done done') :
      Alike (.caseWhen opening subject done tag values) (.caseWhen opening subject done' tag values)
  | caseElse {done done' : List (When Element)} (opening : Tag) (subject : Value) (tag : Tag)
      (h : List.Forall₂ (When.Alike fragment) done done') :
      Alike (.caseElse opening subject done tag) (.caseElse opening subject done' tag)
  | loop (opening : Tag) : Alike (.loop opening) (.loop opening)
  | loopElse {body body' : List Element} (opening tag : Tag)
      (h : Liquid.Alike fragment body body') :
      Alike (.loopElse opening body tag) (.loopElse opening body' tag)
  | capture (opening : Tag) : Alike (.capture opening) (.capture opening)

theorem Block.Alike.of_open? {tag : Tag} {block : Block} (h : Block.open? tag = .ok (some block)) :
    Block.Alike fragment block block := by
  simp only [Block.open?] at h
  split_ifs at h
  · obtain ⟨condition, -, h⟩ := map_eq_ok.mp h
    cases h
    exact .clause _ _ _ .none
  · obtain ⟨subject, -, h⟩ := map_eq_ok.mp h
    cases h
    exact .caseHead _ _
  · cases h
    exact .loop _
  · cases h
    exact .capture _
  · cases h

variable (fragment) in
/-- The same progress, in blocks and elements that fail alike. -/
inductive ProgressAlike : Progress Block Element → Progress Block Element → Prop
  | enter {block block' : Block} (h : Block.Alike fragment block block') :
      ProgressAlike (.enter block) (.enter block')
  | close {e e' : Element} (h : Element.Alike fragment e e') : ProgressAlike (.close e) (.close e')
  | foreign : ProgressAlike .foreign .foreign

theorem Block.Alike.opening_eq {block block' : Block} (h : Block.Alike fragment block block') :
    block.opening = block'.opening := by
  cases h <;> rfl

/-- A tag does the same to blocks that fail alike. -/
theorem Block.Alike.advance {block block' : Block} {body body' : List Element}
    (h : Block.Alike fragment block block') (hb : Liquid.Alike fragment body body') (tag : Tag) :
    Agree Eq (ProgressAlike fragment) (block.advance tag body) (block'.advance tag body') := by
  have hcondition : Agree Eq Eq (readCondition tag) (readCondition tag) := .refl (fun _ => rfl) _
  have hvalues : Agree Eq Eq (parseWhen tag.args) (parseWhen tag.args) := .refl (fun _ => rfl) _
  cases h with
  | clause opening head condition h =>
    have hlast : Clause.Alike fragment ⟨head, condition, body⟩ ⟨head, condition, body'⟩ :=
      ⟨rfl, rfl, hb⟩
    have hclauses := ClausesAlike.extend h hlast
    simp only [Block.advance]
    split
    · refine hcondition.map fun a b hab => ?_
      subst hab
      exact .enter (.clause _ _ _ (.some hclauses))
    split
    · exact .enter (.clauseElse _ _ hclauses)
    split
    · exact .close (.conditional hclauses.1 hclauses.2 .none tag)
    · exact .foreign
  | clauseElse opening head h =>
    have halternative : Alternative.Alike fragment ⟨head, body⟩ ⟨head, body'⟩ := ⟨rfl, hb⟩
    simp only [Block.advance]
    split
    · exact .close (.conditional h.1 h.2 (.some halternative) tag)
    · exact .foreign
  | caseHead opening subject =>
    simp only [Block.advance, enterWhen]
    split
    · refine hvalues.map fun a b hab => ?_
      subst hab
      exact .enter (.caseWhen _ _ _ _ .nil)
    split
    · exact .enter (.caseElse _ _ _ .nil)
    split
    · exact .close (.caseOf .nil .none _ _ _)
    · exact .foreign
  | @caseWhen done done' opening subject head values h =>
    have hwhens : List.Forall₂ (When.Alike fragment) (done ++ [⟨head, values, body⟩])
        (done' ++ [⟨head, values, body'⟩]) := List.rel_append h (.cons ⟨rfl, rfl, hb⟩ .nil)
    simp only [Block.advance, enterWhen]
    split
    · refine hvalues.map fun a b hab => ?_
      subst hab
      exact .enter (.caseWhen _ _ _ _ hwhens)
    split
    · exact .enter (.caseElse _ _ _ hwhens)
    split
    · exact .close (.caseOf hwhens .none _ _ _)
    · exact .foreign
  | caseElse opening subject head h =>
    have halternative : Alternative.Alike fragment ⟨head, body⟩ ⟨head, body'⟩ := ⟨rfl, hb⟩
    simp only [Block.advance]
    split
    · exact .close (.caseOf h (.some halternative) _ _ _)
    · exact .foreign
  | loop opening =>
    simp only [Block.advance]
    split
    · exact .enter (.loopElse _ _ hb)
    split
    · exact .close (.loop hb .none _ _)
    · exact .foreign
  | loopElse opening head h =>
    have halternative : Alternative.Alike fragment ⟨head, body⟩ ⟨head, body'⟩ := ⟨rfl, hb⟩
    simp only [Block.advance]
    split
    · exact .close (.loop h (.some halternative) _ _)
    · exact .foreign
  | capture opening =>
    simp only [Block.advance]
    split
    · exact .close (.capture hb _ _)
    · exact .foreign

variable (fragment) in
/-- What has been read so far, if it only differs in elements that fail alike. -/
structure BuilderAlike (b b' : Builder) : Prop where
  elements : Alike fragment b.elements.reverse b'.elements.reverse
  blocks : List.Forall₂ (fun p p' => Block.Alike fragment p.1 p'.1 ∧
    Alike fragment p.2.reverse p'.2.reverse) b.blocks b'.blocks

namespace BuilderAlike

variable {b b' : Builder}

theorem push {e e' : Element} (h : BuilderAlike fragment b b') (he : Element.Alike fragment e e') :
    BuilderAlike fragment (b.push e) (b'.push e') := by
  refine ⟨?_, h.blocks⟩
  simp only [Nesting.push, List.reverse_cons]
  exact h.elements.append (.singleton he)

theorem push_left {e : Element} (h : BuilderAlike fragment b b')
    (he : ∀ scope, ∃ node, e.toNode fragment scope = .ok node) :
    BuilderAlike fragment (b.push e) b' := by
  refine ⟨?_, h.blocks⟩
  have happend := h.elements.append (.skip he)
  rw [List.append_nil] at happend
  simpa only [Nesting.push, List.reverse_cons] using happend

theorem enter {block block' : Block} (h : BuilderAlike fragment b b')
    (hb : Block.Alike fragment block block') :
    BuilderAlike fragment (b.enter block) (b'.enter block') :=
  ⟨.refl [], .cons ⟨hb, h.elements⟩ h.blocks⟩

theorem openTag (h : BuilderAlike fragment b b') (tag : Tag) :
    Agree Eq (BuilderAlike fragment) (Liquid.openTag b tag) (Liquid.openTag b' tag) := by
  unfold Liquid.openTag
  split
  · exact rfl
  · have hopen : Agree Eq Eq (Block.open? tag) (Block.open? tag) := .refl (fun _ => rfl) _
    cases hblock : Block.open? tag with
    | error x => exact rfl
    | ok block? =>
      cases block? with
      | none => exact h.push (.refl _)
      | some block => exact h.enter (.of_open? hblock)

theorem advance (h : BuilderAlike fragment b b') (tag : Tag)
    {otherwise otherwise' : Except ReadError Builder}
    (ho : Agree Eq (BuilderAlike fragment) otherwise otherwise') :
    Agree Eq (BuilderAlike fragment)
      (b.advance (fun block body => block.advance tag body) otherwise)
      (b'.advance (fun block body => block.advance tag body) otherwise') := by
  obtain ⟨elements, blocks⟩ := b
  obtain ⟨elements', blocks'⟩ := b'
  obtain ⟨helements, hblocks⟩ := h
  unfold Nesting.advance
  cases hblocks with
  | nil => exact ho
  | cons hblock houter =>
    refine (hblock.1.advance helements tag).bind fun progress progress' _ _ hprogress => ?_
    cases hprogress with
    | enter hnext => exact ⟨.refl [], .cons ⟨hnext, hblock.2⟩ houter⟩
    | close he =>
      refine ⟨?_, houter⟩
      simp only [List.reverse_cons]
      exact hblock.2.append (.singleton he)
    | foreign => exact ho

theorem feed (h : BuilderAlike fragment b b') (t : Token) :
    Agree Eq (BuilderAlike fragment) (Liquid.feed b t) (Liquid.feed b' t) := by
  cases t with
  | html text => exact h.push (.refl _)
  | output inner span trim =>
    have hvalue : Agree Eq Eq (parseValue inner) (parseValue inner) := .refl (fun _ => rfl) _
    refine hvalue.map fun value value' hv => ?_
    subst hv
    exact h.push (.refl _)
  | verbatim opening content closing => exact h.push (.refl _)
  | tag tag => exact h.advance tag (h.openTag tag)

/-- Tokens that make no difference to failures can be left out. -/
theorem run {keep : Token → Bool}
    (hskip : ∀ t, keep t = false → ∀ b : Builder, ∃ e, Liquid.feed b t = .ok (b.push e) ∧
      ∀ scope, ∃ node, e.toNode fragment scope = .ok node)
    (ts : List Token) (h : BuilderAlike fragment b b') :
    Agree Eq (Alike fragment) (Nesting.run Liquid.feed Block.unclosed b ts)
      (Nesting.run Liquid.feed Block.unclosed b' (ts.filter keep)) := by
  induction ts generalizing b b' with
  | nil =>
    obtain ⟨elements, blocks⟩ := b
    obtain ⟨elements', blocks'⟩ := b'
    obtain ⟨helements, hblocks⟩ := h
    cases hblocks with
    | nil => exact helements
    | cons hblock _ =>
      change Block.unclosed _ = Block.unclosed _
      rw [Block.unclosed, Block.unclosed, hblock.1.opening_eq]
  | cons t ts ih =>
    cases ht : keep t with
    | true =>
      rw [List.filter_cons_of_pos ht]
      exact (h.feed t).bind fun _ _ _ _ h => ih h
    | false =>
      obtain ⟨e, hfeed, he⟩ := hskip t ht b
      rw [List.filter_cons_of_neg (by simp [ht]), Nesting.run, hfeed]
      exact ih (h.push_left he)

end BuilderAlike

end Alike

/-! ### Subtemplates never fail -/

/-- A tag that includes a subtemplate belongs to no block and opens none. -/
theorem feed_of_isSubtemplate {tag : Tag} (h : tag.isSubtemplate) (b : Builder) :
    feed b (.tag tag) = .ok (b.push (.tag tag)) := by
  rw [Tag.isSubtemplate, Bool.and_eq_true, beq_iff_eq] at h
  have hstructural : tag.name ∉ structural := by
    rw [h.1]
    decide
  have hend : ∀ name : String, tag.name ≠ "end" ++ name := by
    intro name hname
    have hchars := congrArg String.toList (h.1.symm.trans hname)
    rw [String.toList_append] at hchars
    cases hchars
  have hopen : Block.open? tag = .ok none := by simp [Block.open?, h.1]
  have hforeign : ∀ p ∈ b.blocks, ∀ body, p.1.advance tag body = .ok .foreign :=
    fun p _ => Block.advance_eq_foreign_of_ne (hend _) hstructural
  rw [feed, Nesting.advance_foreign hforeign, openTag, if_neg (by simpa using hstructural), hopen]
  rfl

/-- The trees with and without the tags for subtemplates fail alike. -/
theorem agree_ofTokens (depth : Nat) (ts : List Token) :
    Agree Eq (Alike (readFragment (depth + 1))) (Element.ofTokens ts)
      (Element.ofTokens (ts.filter (!·.isSubtemplate))) := by
  refine BuilderAlike.run (fun t ht b => ?_) ts ⟨.refl [], .nil⟩
  rw [Bool.not_eq_false'] at ht
  cases t with
  | tag tag =>
    exact ⟨.tag tag, feed_of_isSubtemplate ht b, fun scope =>
      Tag.isSubtemplate.exists_toNode ht depth scope⟩
  | html | output | verbatim => cases ht

/-- A source fails with an error if and only if it fails with it once all tags that include a
subtemplate are taken out of it. -/
theorem read_eq_error_iff (source : String) (x : ReadError) :
    read source = .error x ↔
      ((tokenize source).bind fun ts => Element.ofTokens (ts.filter (!·.isSubtemplate))).bind
        (Element.toNodes (readFragment source.length) {}) = .error x := by
  rw [read, readWith, parse]
  cases hlength : source.length with
  | zero =>
    obtain rfl : source = "" := String.length_eq_zero_iff.mp hlength
    have htokens : tokenize "" = .ok [] := by
      rw [tokenize, tokenizePiece]
      rfl
    rw [htokens]
    rfl
  | succ depth =>
    have htokens : Agree Eq Eq (tokenize source) (tokenize source) := .refl (fun _ => rfl) _
    have htrees : Agree Eq (Alike (readFragment (depth + 1)))
        ((tokenize source).bind Element.ofTokens)
        ((tokenize source).bind fun ts => Element.ofTokens (ts.filter (!·.isSubtemplate))) := by
      refine htokens.bind fun ts ts' _ _ hts => ?_
      subst hts
      exact agree_ofTokens depth ts
    exact (htrees.bind fun _ _ _ _ h => h {}).error_iff x

/-- Reading a text as a source of its own, as the output that it would be the inside of, agrees with
reading the value of the text. So a tag that includes a subtemplate with a single operand never
makes a source fail: the source fails with an error if and only if it fails with it once all such
tags are taken out. -/
theorem readFragment_reads_value :
    (∀ (depth : Nat) (scope : Scope) (text : List Char) (e : Expr),
      readFragment (depth + 1) scope text = .ok e ↔
        ∃ v, parseValue ⟨0, text⟩ = .ok v ∧ v.toExpr scope = .ok e) ∧
    ∀ (source : String) (x : ReadError), read source = .error x ↔
      ((tokenize source).bind fun ts => Element.ofTokens (ts.filter (!·.isSubtemplate))).bind
        (Element.toNodes (readFragment source.length) {}) = .error x :=
  ⟨readFragment_eq_ok_iff, read_eq_error_iff⟩

end Stencil.Liquid
