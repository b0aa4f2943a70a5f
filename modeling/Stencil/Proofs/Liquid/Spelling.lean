import Stencil.Liquid.Writer
import Stencil.Proofs.Liquid.Blocks
import Stencil.Proofs.Liquid.Enclosure
import Stencil.Proofs.Liquid.Tokenizes
import Stencil.Proofs.Shape

/-!
# Tokens of a written template

A template is written without a look at what stands between its delimiters. As long as nothing in it
leaves its delimiters, the tokens of the text follow the tree: one for each text, output, tag and
verbatim block. Texts that stand next to each other become one token, so the text that has been
written and not yet ended by a delimiter is kept track of.

What the expressions mean plays no part here; each tag just holds the text that its expression was
written as.
-/

namespace Stencil.Liquid

/-! ### Templates in which nothing leaves its delimiters -/

mutual

/-- The nodes, after a text `s`, are written so that texts, expressions and bodies stay between
their delimiters. -/
inductive Contained : List Char → List Node → Prop
  | nil {s} (hs : Passage s) : Contained s []
  | text {s content nodes} (h : Contained (s ++ content.toList) nodes) :
      Contained s (.text content :: nodes)
  | node {s n nodes} (hs : Passage s) (hn : ContainedNode n) (h : Contained [] nodes) :
      Contained s (n :: nodes)

/-- The same for a single node that is no text. -/
inductive ContainedNode : Node → Prop
  | output {e} (he : WritesTidy e) (trim : Trim) : ContainedNode (.output e trim)
  | conditional {kind e body arms} (he : WritesTidy e) (hb : Contained [] body)
      (hk : kind = .caseOf → body = []) (has : ∀ arm ∈ arms, ∀ e ∈ arm.condition, WritesTidy e)
      (hbs : ∀ arm ∈ arms, Contained [] arm.body) (headTrim trim endTrim : Trim) :
      ContainedNode (.conditional kind (⟨some e, body, headTrim⟩ :: arms) trim endTrim)
  | loop {x e body otherwise} (hx : Tidy x.toList) (he : WritesTidy e) (hb : Contained [] body)
      (ho : ∀ nodes ∈ otherwise, Contained [] nodes) (trim elseTrim endTrim : Trim) :
      ContainedNode (.loop x e body otherwise trim elseTrim endTrim)
  | assign {x e} (hx : Tidy x.toList) (he : WritesTidy e) (trim endTrim : Trim) :
      ContainedNode (.assignment x (some e) none trim endTrim)
  | capture {x body} (hx : Tidy x.toList) (hb : Contained [] body) (trim endTrim : Trim) :
      ContainedNode (.assignment x none (some body) trim endTrim)
  | comment {content} (hc : isBody "endcomment".toList content.toList) (trim endTrim : Trim) :
      ContainedNode (.comment content trim endTrim)
  | raw {content} (hc : isBody "endraw".toList content.toList) (trim endTrim : Trim) :
      ContainedNode (.raw content trim endTrim)
  | subtemplate {e} (he : WritesTidy e) (ignoreMissing : Bool) (trim : Trim) :
      ContainedNode (.subtemplate e ignoreMissing trim)
  | tag {name args} (hw : isTagName name.toList)
      (hn : name ∉ blockNames ++ structural ++ ["raw", "comment"]) (ha : isTagArgs args.toList)
      (trim : Trim) : ContainedNode (.tag name args [] trim)

end

theorem passage_nil : Passage [] :=
  fun _ _ => .nil

theorem Contained.cons {n : Node} {nodes : List Node} (hn : ContainedNode n)
    (h : Contained [] nodes) : Contained [] (n :: nodes) :=
  .node passage_nil hn h

theorem Contained.singleton {n : Node} (hn : ContainedNode n) : Contained [] [n] :=
  .cons hn (.nil passage_nil)

/-! ### The tokens of a template -/

/-- The tokens of a text without delimiters. -/
inductive SpelledText : List Char → List Token → Prop
  | nil : SpelledText [] []
  | html (p : Piece) : SpelledText p.text [.html p]

mutual

/-- The tokens that nodes are written as, with a text `s` before them. -/
inductive Spelled : List Char → List Node → List Token → Prop
  | nil {s ts} (hs : SpelledText s ts) : Spelled s [] ts
  | text {s content nodes ts} (h : Spelled (s ++ content.toList) nodes ts) :
      Spelled s (.text content :: nodes) ts
  | node {s n nodes ts us vs} (hs : SpelledText s ts) (hn : SpelledNode n us)
      (h : Spelled [] nodes vs) : Spelled s (n :: nodes) (ts ++ (us ++ vs))

/-- The tokens that a node is written as. -/
inductive SpelledNode : Node → List Token → Prop
  | output {e text trim inner span} (he : grammar.text e = .ok text)
      (hi : inner.text = ' ' :: text.toList ++ [' ']) :
      SpelledNode (.output e trim) [.output inner span trim]
  | conditional {kind e text body arms headTrim trim endTrim o ts us}
      (he : grammar.text e = .ok text)
      (ho : IsTag o (conditionalWords kind).opening text.toList trim) (hb : Spelled [] body ts)
      (hs : SpelledArms (conditionalWords kind).subsequent (conditionalWords kind).closing arms
        us) :
      SpelledNode (.conditional kind (⟨some e, body, headTrim⟩ :: arms) trim endTrim)
        (.tag o :: (ts ++ us))
  | loop {x e text body otherwise trim elseTrim endTrim o ts us} (hx : Tidy x.toList)
      (he : grammar.text e = .ok text)
      (ho : IsTag o "for" (x.toList ++ " in ".toList ++ text.toList) trim) (hb : Spelled [] body ts)
      (hs : SpelledArms "else" "endfor" (otherwise.toList.map fun nodes => ⟨none, nodes, elseTrim⟩)
        us) :
      SpelledNode (.loop x e body otherwise trim elseTrim endTrim) (.tag o :: (ts ++ us))
  | assign {x e text trim endTrim t} (hx : Tidy x.toList) (he : grammar.text e = .ok text)
      (ht : IsTag t "assign" (x.toList ++ " = ".toList ++ text.toList) trim) :
      SpelledNode (.assignment x (some e) none trim endTrim) [.tag t]
  | capture {x body trim endTrim o c ts} (hx : Tidy x.toList) (ho : IsTag o "capture" x.toList trim)
      (hb : Spelled [] body ts) (hc : IsTag c "endcapture" [] endTrim) :
      SpelledNode (.assignment x none (some body) trim endTrim) (.tag o :: (ts ++ [.tag c]))
  | comment {content trim endTrim o body c} (ho : IsTag o "comment" [] trim)
      (hb : body.toString = content) :
      SpelledNode (.comment content trim endTrim) [.verbatim o body c]
  | raw {content trim endTrim o body c} (ho : IsTag o "raw" [] trim)
      (hb : body.toString = content) :
      SpelledNode (.raw content trim endTrim) [.verbatim o body c]
  | subtemplate {e text ignoreMissing trim t} (he : grammar.text e = .ok text)
      (ht : IsTag t "include" text.toList trim) :
      SpelledNode (.subtemplate e ignoreMissing trim) [.tag t]
  | tag {name args trim t} (hn : name ∉ blockNames ++ structural ++ ["raw", "comment"])
      (ht : IsTag t name args.toList trim) : SpelledNode (.tag name args [] trim) [.tag t]

/-- The tokens that the further arms of a block and its closing tag are written as. -/
inductive SpelledArms : String → String → List (Branch (List Node)) → List Token → Prop
  | closing {subsequent closing t} (ht : t.name = closing) :
      SpelledArms subsequent closing [] [.tag t]
  | arm {subsequent closing e text body trim arms head ts us} (he : grammar.text e = .ok text)
      (hh : IsTag head subsequent text.toList trim) (hb : Spelled [] body ts)
      (hs : SpelledArms subsequent closing arms us) :
      SpelledArms subsequent closing (⟨some e, body, trim⟩ :: arms) (.tag head :: (ts ++ us))
  | otherwise {subsequent closing body trim arms head ts us} (hh : IsTag head "else" [] trim)
      (hb : Spelled [] body ts) (hs : SpelledArms subsequent closing arms us) :
      SpelledArms subsequent closing (⟨none, body, trim⟩ :: arms) (.tag head :: (ts ++ us))

end

/-! ### Texts and single tags -/

variable {s : List Char} {n : Node} {nodes : List Node} {arms : List (Branch (List Node))}
  {P : List Token → Prop}

theorem tokenizes_passage (hs : Passage s) : Tokenizes Opens s (SpelledText s) := by
  by_cases hne : s = []
  · subst hne
    exact .nil .nil
  · refine (Tokenizes.html hne hs).mono ?_
    rintro _ ⟨_, rfl, p, rfl, rfl⟩
    exact .html p

theorem WritesTidy.text {e : Expr} (he : WritesTidy e) {text : String}
    (h : grammar.text e = .ok text) : Tidy text.toList := by
  obtain ⟨r, hr, rfl⟩ := map_eq_ok.mp h
  exact he r hr

/-- A tag whose arguments are tidy, before more. -/
theorem tokenizes_header (word : String) {args : String} (hw : isTagName word.toList)
    (hv : isVerbatim word = false) (ha : Tidy args.toList) (trim : Trim) {C : List Char → Prop}
    {more : List Char}
    (hs : ∀ t, IsTag t word args.toList trim → Tokenizes C more fun ts => P (.tag t :: ts)) :
    Tokenizes C ((Markup.tag (word ++ " " ++ args) trim).toList ++ more) P :=
  .tag word (toList_header word _ ha.ne_nil) hw ha.isTagArgs hv trim hs

/-- A tag whose arguments are tidy and that stands on its own. -/
theorem tokenizes_single (word : String) {args : String} (hw : isTagName word.toList)
    (hv : isVerbatim word = false) (ha : Tidy args.toList) (trim : Trim)
    (hP : ∀ t, IsTag t word args.toList trim → P [.tag t]) :
    Tokenizes Anything (Markup.tag (word ++ " " ++ args) trim).toList P := by
  rw [← List.append_nil (Markup.tag (word ++ " " ++ args) trim).toList]
  exact tokenizes_header word hw hv ha trim fun t ht => .nil (hP t ht)

/-- The words of the conditionals are names of tags that are read as such. -/
theorem isTagName_conditionalWords (kind : Variant) :
    isTagName (conditionalWords kind).opening.toList ∧
      isVerbatim (conditionalWords kind).opening = false ∧
      isTagName (conditionalWords kind).subsequent.toList ∧
      isVerbatim (conditionalWords kind).subsequent = false ∧
      isTagName (conditionalWords kind).closing.toList ∧
      isVerbatim (conditionalWords kind).closing = false := by
  cases kind <;> decide

/-! ### Nodes -/

/-- Nodes that, if they are written, are split into the tokens that follow their tree. -/
def Tokenized (nodes : List Node) : Prop :=
  ∀ text, dialect.write nodes = .ok text → Tokenizes Opens text.toList (Spelled [] nodes)

/-- The same for a node that begins with a delimiter. -/
def TokenizedNode (n : Node) : Prop :=
  ∀ text, dialect.writeNode n = .ok text →
    Tokenizes Anything text.toList (SpelledNode n) ∧ ∀ rest, Opens (text.toList ++ rest)

/-- The further arms of a block and its closing tag. -/
theorem tokenizes_arms (subsequent closing : String) (hsub : isTagName subsequent.toList)
    (hsv : isVerbatim subsequent = false) (hclosing : isTagName closing.toList)
    (hcv : isVerbatim closing = false) (has : ∀ arm ∈ arms, ∀ e ∈ arm.condition, WritesTidy e)
    (hbs : ∀ arm ∈ arms, Tokenized arm.body) {text : String}
    (hw : Markup.arms grammar.text subsequent (dialect.writeBranches arms) = .ok text)
    (endTrim : Trim) :
    Tokenizes Anything (text.toList ++ (Markup.tag closing endTrim).toList)
        (SpelledArms subsequent closing arms) ∧
      ∀ rest, Opens (text.toList ++ ((Markup.tag closing endTrim).toList ++ rest)) := by
  induction arms generalizing text with
  | nil =>
    rw [Dialect.writeBranches, Markup.arms] at hw
    obtain rfl := Except.ok.inj hw
    simp only [String.toList_empty, List.nil_append]
    refine ⟨?_, opens_tag closing endTrim⟩
    exact .closing closing hclosing hcv endTrim fun t ht => .closing ht.name
  | cons arm arms ih =>
    rw [List.forall_mem_cons] at has hbs
    obtain ⟨condition, body, trim⟩ := arm
    cases condition with
    | none =>
      rw [Dialect.writeBranches, Markup.arms] at hw
      obtain ⟨inner, hinner, hw⟩ := bind_eq_ok.mp hw
      obtain ⟨more, hmore, rfl⟩ := bind_pure_eq_ok.mp hw
      obtain ⟨hrest, hopens⟩ := ih has.2 hbs.2 hmore
      simp only [String.toList_append, List.append_assoc]
      refine ⟨?_, fun rest => opens_tag "else" trim _⟩
      refine .tag "else" (by simp) (by decide) isTagArgs_nil rfl trim fun h hh => ?_
      refine (hbs.1 inner hinner).append (fun rest _ => ?_) fun ts hts => ?_
      · rw [List.append_assoc]
        exact hopens rest
      · exact hrest.mono fun us hus => .otherwise hh hts hus
    | some e =>
      rw [Dialect.writeBranches, Markup.arms] at hw
      obtain ⟨condition, hcondition, hw⟩ := bind_eq_ok.mp hw
      obtain ⟨inner, hinner, hw⟩ := bind_eq_ok.mp hw
      obtain ⟨more, hmore, rfl⟩ := bind_pure_eq_ok.mp hw
      obtain ⟨hrest, hopens⟩ := ih has.2 hbs.2 hmore
      simp only [String.toList_append, List.append_assoc] at hrest ⊢
      refine ⟨?_, fun rest => opens_tag _ trim _⟩
      refine tokenizes_header subsequent hsub hsv ((has.1 e rfl).text hcondition) trim fun h hh =>
        ?_
      refine (hbs.1 inner hinner).append (fun rest _ => ?_) fun ts hts => ?_
      · rw [List.append_assoc]
        exact hopens rest
      · exact hrest.mono fun us hus => .arm hcondition hh hts hus

namespace TokenizedNode

variable {e : Expr} {x : String} {body : List Node}

theorem output (he : WritesTidy e) (trim : Trim) : TokenizedNode (.output e trim) := by
  intro text hw
  rw [Dialect.writeNode] at hw
  obtain ⟨body, hbody, rfl⟩ := map_eq_ok.mp hw
  refine ⟨(Tokenizes.output ((he.text hbody).enclosed '\x7d' (by simp)) trim).mono ?_,
    opens_output body trim⟩
  rintro _ ⟨_, rfl, inner, span, rfl, hi⟩
  exact .output hbody hi

theorem conditional (kind : Variant) (he : WritesTidy e) (hb : Tokenized body)
    (has : ∀ arm ∈ arms, ∀ e ∈ arm.condition, WritesTidy e) (hbs : ∀ arm ∈ arms, Tokenized arm.body)
    (headTrim trim endTrim : Trim) :
    TokenizedNode (.conditional kind (⟨some e, body, headTrim⟩ :: arms) trim endTrim) := by
  intro text hw
  obtain ⟨hopening, hov, hsub, hsv, hclosing, hcv⟩ := isTagName_conditionalWords kind
  rw [Dialect.writeNode, Dialect.writeBranches] at hw
  obtain ⟨condition, hcondition, hw⟩ := bind_eq_ok.mp hw
  obtain ⟨inner, hinner, hw⟩ := bind_eq_ok.mp hw
  obtain ⟨more, hmore, rfl⟩ := bind_pure_eq_ok.mp hw
  obtain ⟨hrest, hopens⟩ := tokenizes_arms _ _ hsub hsv hclosing hcv has hbs hmore endTrim
  rw [String.toList_append, String.toList_append, String.toList_append]
  simp only [List.append_assoc]
  refine ⟨?_, fun rest => opens_tag _ trim _⟩
  refine tokenizes_header _ hopening hov (he.text hcondition) trim fun o ho => ?_
  refine (hb inner hinner).append (fun rest _ => ?_) fun ts hts => ?_
  · rw [List.append_assoc]
    exact hopens rest
  · exact hrest.mono fun us hus => .conditional hcondition ho hts hus

theorem loop (hx : Tidy x.toList) (he : WritesTidy e) (hb : Tokenized body)
    {otherwise : Option (List Node)} (ho : ∀ nodes ∈ otherwise, Tokenized nodes)
    (trim elseTrim endTrim : Trim) :
    TokenizedNode (.loop x e body otherwise trim elseTrim endTrim) := by
  intro text hw
  rw [Dialect.writeNode] at hw
  change writeLoop x e _ _ trim elseTrim endTrim = _ at hw
  unfold writeLoop at hw
  split at hw
  · cases hw
  obtain ⟨collection, hcollection, hw⟩ := bind_eq_ok.mp hw
  obtain ⟨inner, hinner, hw⟩ := bind_eq_ok.mp hw
  obtain ⟨more, hmore, rfl⟩ := bind_pure_eq_ok.mp hw
  have hargs : Tidy (x ++ " in " ++ collection).toList := by
    simpa using hx.join (by decide : ∀ c ∈ " in ".toList, isLoose c) (he.text hcollection)
  obtain ⟨hrest, hopens⟩ := tokenizes_arms "else" "endfor" (by decide) rfl
    (by decide) rfl (by simp) (by simpa using ho)
    ((dialect.arms_otherwise grammar.text "else" otherwise elseTrim).trans hmore) endTrim
  have htag : "for " ++ x ++ " in " ++ collection =
      "for" ++ " " ++ (x ++ " in " ++ collection) := by
    simp [← String.toList_inj]
  rw [htag]
  rw [String.toList_append, String.toList_append, String.toList_append]
  simp only [List.append_assoc]
  refine ⟨?_, fun rest => opens_tag _ trim _⟩
  refine tokenizes_header "for" (by decide) rfl hargs trim fun o ho => ?_
  refine (hb inner hinner).append (fun rest _ => ?_) fun ts hts => ?_
  · rw [List.append_assoc]
    exact hopens rest
  · rw [String.toList_append, String.toList_append] at ho
    exact hrest.mono fun us hus => .loop hx hcollection ho hts hus

theorem assign (hx : Tidy x.toList) (he : WritesTidy e) (trim endTrim : Trim) :
    TokenizedNode (.assignment x (some e) none trim endTrim) := by
  intro text hw
  rw [Dialect.writeNode] at hw
  obtain ⟨value, hvalue, rfl⟩ := map_eq_ok.mp hw
  have hargs : Tidy (x ++ " = " ++ value).toList := by
    simpa using hx.join (by decide : ∀ c ∈ " = ".toList, isLoose c) (he.text hvalue)
  have htag : assignmentWords.value ++ " " ++ x ++ " = " ++ value =
      "assign" ++ " " ++ (x ++ " = " ++ value) := by
    simp [← String.toList_inj, assignmentWords]
  rw [htag]
  refine ⟨tokenizes_single "assign" (by decide) rfl hargs trim fun t ht => ?_, opens_tag _ trim⟩
  rw [String.toList_append, String.toList_append] at ht
  exact .assign hx hvalue ht

theorem capture (hx : Tidy x.toList) (hb : Tokenized body) (trim endTrim : Trim) :
    TokenizedNode (.assignment x none (some body) trim endTrim) := by
  intro text hw
  rw [Dialect.writeNode, Dialect.writeOption] at hw
  obtain ⟨inner, hinner, rfl⟩ := map_eq_ok.mp hw
  simp only [Markup.block, String.toList_append, List.append_assoc]
  refine ⟨?_, fun rest => opens_tag _ trim _⟩
  refine tokenizes_header "capture" (by decide) rfl hx trim fun o ho => ?_
  refine (hb inner hinner).append (fun rest _ => opens_tag "endcapture" endTrim rest) fun ts hts =>
    ?_
  exact .closing "endcapture" (by decide) rfl endTrim fun c hc => .capture hx ho hts hc

theorem verbatim (name : String) {content : String} (hv : isVerbatim name)
    (hc : isBody ("end" ++ name).toList content.toList) (trim endTrim : Trim)
    (hw : dialect.writeNode n = .ok (Markup.block name content ("end" ++ name) trim endTrim))
    (hn : ∀ o body c, IsTag o name [] trim → body.toString = content →
      SpelledNode n [.verbatim o body c]) : TokenizedNode n := by
  intro text ht
  obtain rfl := Except.ok.inj (hw.symm.trans ht)
  refine ⟨(Tokenizes.verbatim hv hc trim endTrim).mono ?_, fun rest => ?_⟩
  · rintro _ ⟨_, rfl, o, body, c, rfl, ho, hb, -⟩
    exact hn o body c ho hb
  · simp only [Markup.block, String.toList_append, List.append_assoc]
    exact opens_tag name trim _

theorem subtemplate (he : WritesTidy e) (ignoreMissing : Bool) (trim : Trim) :
    TokenizedNode (.subtemplate e ignoreMissing trim) := by
  intro text hw
  rw [Dialect.writeNode] at hw
  change writeSubtemplate e ignoreMissing trim = _ at hw
  unfold writeSubtemplate at hw
  split at hw
  · cases hw
  obtain ⟨template, htemplate, rfl⟩ := map_eq_ok.mp hw
  have htag : "include " ++ template = "include" ++ " " ++ template := by simp
  rw [htag]
  exact ⟨tokenizes_single "include" (by decide) rfl (he.text htemplate) trim fun t ht =>
    .subtemplate htemplate ht, opens_tag _ trim⟩

theorem tag {name args : String} (hw : isTagName name.toList)
    (hn : name ∉ blockNames ++ structural ++ ["raw", "comment"]) (ha : isTagArgs args.toList)
    (trim : Trim) : TokenizedNode (.tag name args [] trim) := by
  intro text ht
  rw [Dialect.writeNode] at ht
  obtain rfl := Except.ok.inj ht
  have hv : isVerbatim name = false := by
    have hn := hn
    simp only [List.mem_append, List.mem_cons, List.not_mem_nil, or_false, not_or] at hn
    simp [isVerbatim, hn]
  refine ⟨?_, opens_tag _ trim⟩
  rw [Markup.tagWithArgs, ← List.append_nil (Markup.tag _ trim).toList]
  refine .tag name ?_ hw ha hv trim fun t ht => .nil (.tag hn ht)
  split
  · next he => simp [String.isEmpty_iff.mp he]
  · next he =>
    have hne : args.toList ≠ [] := fun h => he (by simpa using h)
    simp [argsTail, hne]

end TokenizedNode

/-! ### Whole templates -/

mutual

/-- A contained template that is written is split into the tokens that follow its tree. -/
theorem Contained.tokenizes {s : List Char} {nodes : List Node} (h : Contained s nodes)
    {text : String} (hw : dialect.write nodes = .ok text) :
    Tokenizes Opens (s ++ text.toList) (Spelled s nodes) := by
  match h with
  | .nil hs =>
    rw [Dialect.write] at hw
    obtain rfl := Except.ok.inj hw
    rw [String.toList_empty, List.append_nil]
    exact (tokenizes_passage hs).mono fun _ => .nil
  | .text h =>
    rw [Dialect.write, Dialect.writeNode, ok_bind] at hw
    obtain ⟨rest, hrest, rfl⟩ := bind_pure_eq_ok.mp hw
    rw [String.toList_append, ← List.append_assoc]
    exact (h.tokenizes hrest).mono fun _ => .text
  | .node hs hn h =>
    rw [Dialect.write] at hw
    obtain ⟨first, hfirst, hw⟩ := bind_eq_ok.mp hw
    obtain ⟨rest, hrest, rfl⟩ := bind_pure_eq_ok.mp hw
    obtain ⟨htokens, hopens⟩ := hn.tokenizedNode first hfirst
    rw [String.toList_append]
    refine (tokenizes_passage hs).append (fun r _ => ?_) fun ts hts => ?_
    · rw [List.append_assoc]
      exact hopens _
    · refine htokens.append (fun _ _ => trivial) fun us hus => ?_
      exact (h.tokenizes hrest).mono fun vs hvs => .node hts hus hvs

/-- The same for a single node. -/
theorem ContainedNode.tokenizedNode {n : Node} (h : ContainedNode n) : TokenizedNode n := by
  match h with
  | .output he trim => exact .output he trim
  | .conditional he hb _ has hbs headTrim trim endTrim =>
    exact .conditional _ he (fun _ => hb.tokenizes) has (fun arm h _ => (hbs arm h).tokenizes)
      headTrim
      trim endTrim
  | .loop hx he hb ho trim elseTrim endTrim =>
    exact .loop hx he (fun _ => hb.tokenizes) (fun nodes h _ => (ho nodes h).tokenizes) trim
      elseTrim
      endTrim
  | .assign hx he trim endTrim => exact .assign hx he trim endTrim
  | .capture hx hb trim endTrim => exact .capture hx (fun _ => hb.tokenizes) trim endTrim
  | .comment hc trim endTrim =>
    exact .verbatim "comment" rfl hc trim endTrim (by simp [Dialect.writeNode, dialect])
      fun _ _ _ => .comment
  | .raw hc trim endTrim =>
    exact .verbatim "raw" rfl hc trim endTrim (by simp [Dialect.writeNode]) fun _ _ _ => .raw
  | .subtemplate he ignoreMissing trim => exact .subtemplate he ignoreMissing trim
  | .tag hw hn ha trim => exact .tag hw hn ha trim

end

end Stencil.Liquid
