import Stencil.Proofs.Liquid.Derivation
import Stencil.Proofs.Text.Scan

/-!
# The nesting of Liquid blocks

Which lists of tokens are templates, and how their blocks nest, is settled by the names of the tags:
a block of each form has its opening tag, a body, further arms, perhaps an alternative, and its
closing tag. The grammar here says no more than that. If the expressions of the tokens are ones, a
source has a tree just if its tokens nest by this grammar. The grammar is unambiguous then, and the
tree nests as the grammar does.

What stands between the opening tag of a case distinction and its first clause nests like any other
body, but it is no part of the tree.

## Main definitions

* `Liquid.Outline` : a template without its expressions.
* `Liquid.blockForms` : the forms of blocks.
* `Liquid.Nests`, `Liquid.NestsArms` : the grammar.
* `Liquid.Element.outline` : the outline of an element of a tree.

## Main results

* `Liquid.Derives.nests` : a tree nests by the grammar.
* `Liquid.Nests.exists_derives` : what nests by the grammar is a tree.
* `Liquid.parse_iff_nests` : the sources that have a tree.
-/

namespace Stencil.Liquid

/-! ### The grammar of blocks -/

/-- The nesting of a template: its leaves and its blocks, whatever their expressions say. -/
inductive Outline where
  | html (text : Piece)
  | output (span : Span) (trim : Trim)
  | tag (tag : Tag)
  | verbatim (opening : Tag) (content : Piece) (closing : Tag)
  /-- A block: its opening tag and body, the tag and the body of each further arm, and its closing
  tag. -/
  | block (opening : Tag) (body : List Outline) (arms : List (Tag × List Outline)) (closing : Tag)

/-- The form of a block, which is closed by the tag with `end` before its name. -/
structure BlockForm where
  /-- The name of the opening tag. -/
  name : String
  /-- The name of the tags that open further arms, if there can be any. -/
  arm : Option String
  /-- The last arm can be an alternative. -/
  hasElse : Bool
  /-- What stands before the first arm is a part of the block. -/
  keepsBody : Bool
deriving DecidableEq

/-- The forms of all blocks. -/
def blockForms : List BlockForm :=
  [⟨"if", some "elsif", true, true⟩, ⟨"unless", some "elsif", true, true⟩,
   ⟨"case", some "when", true, false⟩, ⟨"for", none, true, true⟩, ⟨"capture", none, false, true⟩]

/-- The outline of a token that is no part of a block's own tags: a tag that is neither the opening
tag of a block nor made for the inside of one, or any token but a tag. -/
def Token.leaf? : Token → Option Outline
  | .html text => some (.html text)
  | .output _ span trim => some (.output span trim)
  | .tag t => if t.name ∈ blockNames ∨ t.name ∈ structural then none else some (.tag t)
  | .verbatim opening content closing => some (.verbatim opening content closing)

mutual

/-- The outlines that a list of tokens derives to, by the names of its tags alone. -/
inductive Nests : List Token → List Outline → Prop
  | nil : Nests [] []
  | leaf {token o ts os} (hl : token.leaf? = some o) (hs : Nests ts os) :
      Nests (token :: ts) (o :: os)
  | block {form opening bodyTs body armsTs arms closing ts os} (hf : form ∈ blockForms)
      (ho : opening.name = form.name) (hb : Nests bodyTs body)
      (ha : NestsArms form armsTs arms closing) (hs : Nests ts os) :
      Nests (.tag opening :: bodyTs ++ armsTs ++ ts)
        (.block opening (if form.keepsBody then body else []) arms closing :: os)

/-- The further arms of a block, and its closing tag. -/
inductive NestsArms : BlockForm → List Token → List (Tag × List Outline) → Tag → Prop
  | close {form closing} (hc : closing.name = "end" ++ form.name) :
      NestsArms form [.tag closing] [] closing
  | otherwise {form head bodyTs body closing} (he : form.hasElse) (hh : head.name = "else")
      (hb : Nests bodyTs body) (hc : closing.name = "end" ++ form.name) :
      NestsArms form (.tag head :: bodyTs ++ [.tag closing]) [(head, body)] closing
  | arm {form head bodyTs body ts arms closing} (hh : form.arm = some head.name)
      (hb : Nests bodyTs body) (ha : NestsArms form ts arms closing) :
      NestsArms form (.tag head :: bodyTs ++ ts) ((head, body) :: arms) closing

end

/-! ### The outline of a tree -/

mutual

/-- The outline of an element. -/
def Element.outline : Element → Outline
  | .html text => .html text
  | .output _ span trim => .output span trim
  | .tag t => .tag t
  | .verbatim opening content closing => .verbatim opening content closing
  | .conditional ⟨head, _, body⟩ rest otherwise closing =>
      .block head (Element.outlines body)
        (Element.clauseOutlines rest ++ Element.elseOutlines otherwise) closing
  | .caseOf opening _ whens otherwise closing =>
      .block opening [] (Element.whenOutlines whens ++ Element.elseOutlines otherwise) closing
  | .loop opening body otherwise closing =>
      .block opening (Element.outlines body) (Element.elseOutlines otherwise) closing
  | .capture opening body closing => .block opening (Element.outlines body) [] closing

/-- The outlines of a list of elements. -/
def Element.outlines : List Element → List Outline
  | [] => []
  | e :: es => Element.outline e :: Element.outlines es

/-- The outlines of the clauses of a conditional. -/
def Element.clauseOutlines : List (Clause Element) → List (Tag × List Outline)
  | [] => []
  | ⟨head, _, body⟩ :: cs => (head, Element.outlines body) :: Element.clauseOutlines cs

/-- The outlines of the clauses of a case distinction. -/
def Element.whenOutlines : List (When Element) → List (Tag × List Outline)
  | [] => []
  | ⟨head, _, body⟩ :: ws => (head, Element.outlines body) :: Element.whenOutlines ws

/-- The outline of an alternative. -/
def Element.elseOutlines : Option (Alternative Element) → List (Tag × List Outline)
  | none => []
  | some ⟨head, body⟩ => [(head, Element.outlines body)]

end

/-! ### Trees nest by the grammar -/

mutual

theorem Derives.nests {ts : List Token} {es : List Element} (h : Derives ts es) :
    Nests ts (Element.outlines es) := by
  match h with
  | .nil => exact .nil
  | .html text hs => exact .leaf rfl hs.nests
  | .output hv span trim hs => exact .leaf rfl hs.nests
  | .verbatim opening content closing hs => exact .leaf rfl hs.nests
  | .tag hb ht hs => exact .leaf (if_neg (not_or.mpr ⟨hb, ht⟩)) hs.nests
  | .conditional ho hc hb ha hs =>
    rcases ho with ho | ho
    · have hf : (⟨"if", some "elsif", true, true⟩ : BlockForm) ∈ blockForms := by decide
      exact .block hf ho hb.nests (ha.nests rfl rfl (congrArg ("end" ++ ·) ho)) hs.nests
    · have hf : (⟨"unless", some "elsif", true, true⟩ : BlockForm) ∈ blockForms := by decide
      exact .block hf ho hb.nests (ha.nests rfl rfl (congrArg ("end" ++ ·) ho)) hs.nests
  | .caseOf ho hv hb ha hs =>
    have hf : (⟨"case", some "when", true, false⟩ : BlockForm) ∈ blockForms := by decide
    exact .block hf ho hb.nests (ha.nests rfl rfl rfl) hs.nests
  | .loop ho hb ha hs =>
    have hf : (⟨"for", none, true, true⟩ : BlockForm) ∈ blockForms := by decide
    exact .block hf ho hb.nests (ha.nests rfl rfl) hs.nests
  | .capture ho hb hc hs =>
    have hf : (⟨"capture", none, false, true⟩ : BlockForm) ∈ blockForms := by decide
    have := Nests.block hf ho hb.nests (.close hc) hs.nests
    rwa [List.append_assoc] at this

theorem DerivesClauses.nests {form : BlockForm} {name : String} {ts : List Token}
    {clauses : List (Clause Element)} {otherwise : Option (Alternative Element)} {closing : Tag}
    (h : DerivesClauses name ts clauses otherwise closing) (hf : form.arm = some "elsif")
    (he : form.hasElse) (hn : name = "end" ++ form.name) :
    NestsArms form ts (Element.clauseOutlines clauses ++ Element.elseOutlines otherwise)
      closing := by
  match h with
  | .last h => exact h.nests he hn
  | .clause hh hc hb hs => exact .arm (hh ▸ hf) hb.nests (hs.nests hf he hn)

theorem DerivesWhens.nests {form : BlockForm} {ts : List Token}
    {whens : List (When Element)} {otherwise : Option (Alternative Element)} {closing : Tag}
    (h : DerivesWhens ts whens otherwise closing) (hf : form.arm = some "when")
    (he : form.hasElse) (hn : "endcase" = "end" ++ form.name) :
    NestsArms form ts (Element.whenOutlines whens ++ Element.elseOutlines otherwise) closing := by
  match h with
  | .last h => exact h.nests he hn
  | .clause hh hc hb hs => exact .arm (hh ▸ hf) hb.nests (hs.nests hf he hn)

theorem DerivesEnd.nests {form : BlockForm} {name : String} {ts : List Token}
    {otherwise : Option (Alternative Element)} {closing : Tag}
    (h : DerivesEnd name ts otherwise closing) (he : form.hasElse)
    (hn : name = "end" ++ form.name) :
    NestsArms form ts (Element.elseOutlines otherwise) closing := by
  match h with
  | .closing hc => exact .close (hn ▸ hc)
  | .otherwise hh hb hc => exact .otherwise he hh hb.nests (hn ▸ hc)

end

/-! ### What nests is a tree -/

/-- The expression of a token is one, if the token has to have one: the value of an output, the
condition of a clause, the subject of a case distinction or the values of its clauses. -/
def Token.parses : Token → Bool
  | .output inner _ _ => (parseValue inner).isOk
  | .tag t =>
    if t.name ∈ ["if", "unless", "elsif"] then (parseChain t.args).isOk
    else if t.name = "case" then (parseValue t.args).isOk
    else if t.name = "when" then (parseWhen t.args).isOk
    else true
  | _ => true

/-- There is no condition in an empty piece, so nothing is lost by looking for that first. -/
theorem readCondition_eq_parseChain {t : Tag} {c : Chain} (h : parseChain t.args = .ok c) :
    readCondition t = .ok c := by
  rw [readCondition, if_neg, h]
  intro hempty
  have htext : t.args.trimStart.text = [] := by
    rw [Piece.text_trimStart, List.isEmpty_iff.mp hempty]
    rfl
  simp [parseChain, readChain, atEnd, htext, throw, throwThe, MonadExceptOf.throw, bind,
    Except.bind] at h

theorem exists_readCondition {t : Tag} (h : (Token.tag t).parses)
    (ht : t.name ∈ ["if", "unless", "elsif"]) : ∃ c, readCondition t = .ok c := by
  rw [Token.parses, if_pos ht] at h
  obtain ⟨c, hc⟩ := exists_of_isOk h
  exact ⟨c, readCondition_eq_parseChain hc⟩

theorem exists_parseValue {t : Tag} (h : (Token.tag t).parses) (ht : t.name = "case") :
    ∃ v, parseValue t.args = .ok v := by
  simp only [Token.parses, ht] at h
  exact exists_of_isOk h

theorem exists_parseWhen {t : Tag} (h : (Token.tag t).parses) (ht : t.name = "when") :
    ∃ vs, parseWhen t.args = .ok vs := by
  simp only [Token.parses, ht] at h
  exact exists_of_isOk h

/-- A leaf is an element of its own. -/
theorem Derives.of_leaf {token : Token} {o : Outline} {ts : List Token} {es : List Element}
    (hl : token.leaf? = some o) (hp : token.parses) (h : Derives ts es) :
    ∃ e, Derives (token :: ts) (e :: es) ∧ e.outline = o := by
  cases token with
  | html text =>
    obtain rfl := Option.some.inj hl
    exact ⟨_, .html text h, rfl⟩
  | output inner span trim =>
    obtain rfl := Option.some.inj hl
    obtain ⟨value, hvalue⟩ := exists_of_isOk hp
    exact ⟨_, .output hvalue span trim h, rfl⟩
  | verbatim opening content closing =>
    obtain rfl := Option.some.inj hl
    exact ⟨_, .verbatim opening content closing h, rfl⟩
  | tag t =>
    rw [Token.leaf?] at hl
    split at hl
    · cases hl
    · next hname =>
      obtain rfl := Option.some.inj hl
      exact ⟨_, .tag (fun hb => hname (.inl hb)) (fun hs => hname (.inr hs)) h, rfl⟩

/-- A conditional has the outline of its clauses. -/
theorem Derives.exists_conditional {opening closing : Tag} {bodyTs armsTs ts : List Token}
    {body es : List Element} {arms : List (Tag × List Outline)} (hb : Derives bodyTs body)
    (ho : opening.name = "if" ∨ opening.name = "unless") (hp : (Token.tag opening).parses)
    (ha : ∃ clauses otherwise,
      DerivesClauses ("end" ++ opening.name) armsTs clauses otherwise closing ∧
        Element.clauseOutlines clauses ++ Element.elseOutlines otherwise = arms)
    (hs : Derives ts es) :
    ∃ es', Derives (.tag opening :: bodyTs ++ armsTs ++ ts) es' ∧ Element.outlines es' =
      .block opening (Element.outlines body) arms closing :: Element.outlines es := by
  obtain ⟨condition, hc⟩ := exists_readCondition hp (by rcases ho with h | h <;> simp [h])
  obtain ⟨clauses, otherwise, ha, rfl⟩ := ha
  exact ⟨.conditional ⟨opening, condition, body⟩ clauses otherwise closing :: es,
    .conditional ho hc hb ha hs, rfl⟩

mutual

/-- What nests by the grammar is a tree of the same outlines, if all its expressions are ones. -/
theorem Nests.exists_derives {ts : List Token} {os : List Outline} (h : Nests ts os)
    (hp : ∀ t ∈ ts, t.parses) : ∃ es, Derives ts es ∧ Element.outlines es = os := by
  match h with
  | .nil => exact ⟨[], .nil, rfl⟩
  | .leaf hl hs =>
    rw [List.forall_mem_cons] at hp
    obtain ⟨es, hes, rfl⟩ := hs.exists_derives hp.2
    obtain ⟨e, he, rfl⟩ := hes.of_leaf hl hp.1
    exact ⟨e :: es, he, rfl⟩
  | .block hf ho hb ha hs =>
    simp only [List.cons_append, List.forall_mem_cons, List.forall_mem_append] at hp
    obtain ⟨hopening, ⟨hpBody, hpArms⟩, hpRest⟩ := hp
    obtain ⟨body, hbody, rfl⟩ := hb.exists_derives hpBody
    obtain ⟨es, hes, rfl⟩ := hs.exists_derives hpRest
    have hclauses := ha.exists_clauses hpArms
    have hwhens := ha.exists_whens hpArms
    have hend := ha.exists_end hpArms
    simp only [blockForms, List.mem_cons, List.not_mem_nil, or_false] at hf
    rcases hf with rfl | rfl | rfl | rfl | rfl
    · exact hbody.exists_conditional (.inl ho) hopening (ho ▸ hclauses rfl) hes
    · exact hbody.exists_conditional (.inr ho) hopening (ho ▸ hclauses rfl) hes
    · obtain ⟨subject, hsubject⟩ := exists_parseValue hopening ho
      obtain ⟨whens, otherwise, harms, rfl⟩ := hwhens rfl rfl
      exact ⟨.caseOf _ subject whens otherwise _ :: es, .caseOf ho hsubject hbody harms hes, rfl⟩
    · obtain ⟨otherwise, harms, rfl⟩ := hend rfl
      exact ⟨.loop _ body otherwise _ :: es, .loop ho hbody harms hes, rfl⟩
    · cases ha with
      | close hc =>
        refine ⟨.capture _ body _ :: es, ?_, rfl⟩
        rw [List.append_assoc]
        exact .capture ho hbody hc hes
      | otherwise he => cases he
      | arm hh => cases hh

theorem NestsArms.exists_clauses {form : BlockForm} {ts : List Token}
    {arms : List (Tag × List Outline)} {closing : Tag} (h : NestsArms form ts arms closing)
    (hp : ∀ t ∈ ts, t.parses) (hf : form.arm = some "elsif") :
    ∃ clauses otherwise, DerivesClauses ("end" ++ form.name) ts clauses otherwise closing ∧
      Element.clauseOutlines clauses ++ Element.elseOutlines otherwise = arms := by
  match h with
  | .close hc => exact ⟨[], none, .last (.closing hc), rfl⟩
  | .otherwise he hh hb hc =>
    simp only [List.cons_append, List.forall_mem_cons, List.forall_mem_append] at hp
    obtain ⟨body, hbody, rfl⟩ := hb.exists_derives hp.2.1
    exact ⟨[], some ⟨_, body⟩, .last (.otherwise hh hbody hc), rfl⟩
  | .arm hh hb ha =>
    simp only [List.cons_append, List.forall_mem_cons, List.forall_mem_append] at hp
    have hname := Option.some.inj (hh.symm.trans hf)
    obtain ⟨body, hbody, rfl⟩ := hb.exists_derives hp.2.1
    obtain ⟨condition, hc⟩ := exists_readCondition hp.1 (by simp [hname])
    obtain ⟨clauses, otherwise, hclauses, rfl⟩ := ha.exists_clauses hp.2.2 hf
    exact ⟨⟨_, condition, body⟩ :: clauses, otherwise, .clause hname hc hbody hclauses, rfl⟩

theorem NestsArms.exists_whens {form : BlockForm} {ts : List Token}
    {arms : List (Tag × List Outline)} {closing : Tag} (h : NestsArms form ts arms closing)
    (hp : ∀ t ∈ ts, t.parses) (hf : form.arm = some "when") (hn : "end" ++ form.name = "endcase") :
    ∃ whens otherwise, DerivesWhens ts whens otherwise closing ∧
      Element.whenOutlines whens ++ Element.elseOutlines otherwise = arms := by
  match h with
  | .close hc => exact ⟨[], none, .last (.closing (hn ▸ hc)), rfl⟩
  | .otherwise he hh hb hc =>
    simp only [List.cons_append, List.forall_mem_cons, List.forall_mem_append] at hp
    obtain ⟨body, hbody, rfl⟩ := hb.exists_derives hp.2.1
    exact ⟨[], some ⟨_, body⟩, .last (.otherwise hh hbody (hn ▸ hc)), rfl⟩
  | .arm hh hb ha =>
    simp only [List.cons_append, List.forall_mem_cons, List.forall_mem_append] at hp
    have hname := Option.some.inj (hh.symm.trans hf)
    obtain ⟨body, hbody, rfl⟩ := hb.exists_derives hp.2.1
    obtain ⟨values, hv⟩ := exists_parseWhen hp.1 hname
    obtain ⟨whens, otherwise, hwhens, rfl⟩ := ha.exists_whens hp.2.2 hf hn
    exact ⟨⟨_, values, body⟩ :: whens, otherwise, .clause hname hv hbody hwhens, rfl⟩

theorem NestsArms.exists_end {form : BlockForm} {ts : List Token}
    {arms : List (Tag × List Outline)} {closing : Tag} (h : NestsArms form ts arms closing)
    (hp : ∀ t ∈ ts, t.parses) (hf : form.arm = none) :
    ∃ otherwise, DerivesEnd ("end" ++ form.name) ts otherwise closing ∧
      Element.elseOutlines otherwise = arms := by
  match h with
  | .close hc => exact ⟨none, .closing hc, rfl⟩
  | .otherwise he hh hb hc =>
    simp only [List.cons_append, List.forall_mem_cons, List.forall_mem_append] at hp
    obtain ⟨body, hbody, rfl⟩ := hb.exists_derives hp.2.1
    exact ⟨some ⟨_, body⟩, .otherwise hh hbody hc, rfl⟩
  | .arm hh hb ha => exact absurd (hh.symm.trans hf) (by simp)

end

/-- The tree of a source whose expressions are ones: there is one just if the tokens nest by the
grammar, and then they nest in one way only, which is that of the tree. -/
theorem parse_iff_nests {source : String} {ts : List Token} (h : tokenize source = .ok ts)
    (hp : ∀ t ∈ ts, t.parses) :
    ((∃ es, parse source = .ok es) ↔ ∃ os, Nests ts os) ∧
      ∀ es os, parse source = .ok es → (Nests ts os ↔ Element.outlines es = os) := by
  have hparse : ∀ es, parse source = .ok es ↔ Derives ts es := fun es => by
    rw [parse, h]
    exact ofTokens_eq_ok_iff
  refine ⟨⟨fun ⟨es, hes⟩ => ⟨_, ((hparse es).mp hes).nests⟩, fun ⟨os, hos⟩ => ?_⟩,
    fun es os hes => ⟨fun hos => ?_, fun hos => hos ▸ ((hparse es).mp hes).nests⟩⟩
  · obtain ⟨es, hes, -⟩ := hos.exists_derives hp
    exact ⟨es, (hparse es).mpr hes⟩
  · obtain ⟨es', hes', rfl⟩ := hos.exists_derives hp
    rw [Except.ok.inj (hes.symm.trans ((hparse es').mpr hes'))]

/-- A conditional with three arms, the second of them with a loop, then a case distinction, and a
conditional that is closed too late, so that it does not nest. -/
theorem parse_iff_nests_blocks :
    let conditional := "\x7b% if a %\x7dx\x7b% elsif b == 1 %\x7d\x7b% for i in c %\x7d" ++
      "\x7b\x7b i \x7d\x7d\x7b% else %\x7d\x7b% endfor %\x7d\x7b% else %\x7d\x7b% endif %\x7d"
    let nested := conditional ++ "\x7b% case k %\x7d \x7b% when 1, 2 %\x7dy\x7b% endcase %\x7d"
    let crossed := "\x7b% if a %\x7d\x7b% for i in c %\x7d\x7b% endif %\x7d\x7b% endfor %\x7d"
    (∃ ts es os, tokenize nested = .ok ts ∧ (∀ t ∈ ts, t.parses) ∧ parse nested = .ok es ∧
      Nests ts os ∧ Element.outlines es = os) ∧
    ∃ ts, tokenize crossed = .ok ts ∧ (∀ t ∈ ts, t.parses) ∧ ¬ ∃ os, Nests ts os := by
  intro conditional nested crossed
  have hall : (∀ source ∈ [nested, crossed],
      ((tokenize source).toOption.map fun ts => ts.all Token.parses) = some true) ∧
        (parse nested).isOk ∧ ¬ (parse crossed).isOk := by
    decide +kernel
  obtain ⟨hall, hnested, hcrossed⟩ := hall
  have hparses : ∀ source ∈ [nested, crossed],
      ∃ ts, tokenize source = .ok ts ∧ ∀ t ∈ ts, t.parses := by
    intro source hsource
    have := hall source hsource
    cases hts : tokenize source with
    | error e => simp [hts, Except.toOption] at this
    | ok ts => exact ⟨ts, rfl, by simpa [hts, Except.toOption] using this⟩
  obtain ⟨ts, hts, hp⟩ := hparses nested (by simp)
  obtain ⟨ts', hts', hp'⟩ := hparses crossed (by simp)
  obtain ⟨es, hes⟩ : ∃ es, parse nested = .ok es := exists_of_isOk hnested
  refine ⟨⟨ts, es, _, hts, hp, hes, ((parse_iff_nests hts hp).2 es _ hes).mpr rfl, rfl⟩,
    ts', hts', hp', fun hnests => ?_⟩
  obtain ⟨es', hes'⟩ := (parse_iff_nests hts' hp').1.mpr hnests
  rw [hes'] at hcrossed
  exact hcrossed rfl

end Stencil.Liquid
