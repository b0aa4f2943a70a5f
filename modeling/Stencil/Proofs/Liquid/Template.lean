import Stencil.Proofs.Liquid.Blocks
import Stencil.Proofs.Liquid.Name
import Stencil.Proofs.Liquid.Tokenizes
import Stencil.Proofs.Shape

/-!
# Templates that are read as they were written

A template whose expressions are plain names is written as a Liquid source, and reading that source
gives the template back: every node, nested to any depth, with the markers of each of its tags.

The proof goes through the tokens. The tokens of the text of a list of nodes are derived by the
block grammar, and the elements that they are derived for stand for the nodes.

## Main results

* `Liquid.roundTrips_of_regularNodes` : regular nodes are read as they were written.
* `Liquid.read_write_of_regularNodes` : the same for a whole source.
-/

namespace Stencil.Liquid

/-! ### Regular templates -/

/-- The names of the tags that stand on their own and have a node of their own. -/
def singleNames : List String :=
  ["raw", "comment", "assign", "include"]

/-- Templates in which every expression is a plain name and every text stays what it is between
delimiters. -/
inductive RegularNodes : List Node → Prop
  | nil : RegularNodes []
  | text {content nodes} (hne : content ≠ "") (ho : ¬ ['{', '{'] <:+: content.toList)
      (hc : HoldsNoTag content) (ht : startsWithText nodes = false) (hs : RegularNodes nodes) :
      RegularNodes (.text content :: nodes)
  | output {name nodes} (hn : isPlainName name) (trim : Trim) (hs : RegularNodes nodes) :
      RegularNodes (.output (.ident name) trim :: nodes)
  | conditional {kind name body arms nodes} (hk : kind ≠ .caseOf) (hn : isPlainName name)
      (hb : RegularNodes body) (ha : isArmList isPlainName arms)
      (hbs : ∀ arm ∈ arms, RegularNodes arm.body) (trim endTrim : Trim) (hs : RegularNodes nodes) :
      RegularNodes
        (.conditional kind (⟨some (.ident name), body, .unset⟩ :: arms) trim endTrim :: nodes)
  | caseOf {name arms nodes} (hn : isPlainName name) (ha : isArmList isPlainName arms)
      (hbs : ∀ arm ∈ arms, RegularNodes arm.body) (trim endTrim : Trim) (hs : RegularNodes nodes) :
      RegularNodes
        (.conditional .caseOf (⟨some (.ident name), [], .unset⟩ :: arms) trim endTrim :: nodes)
  | loop {x name body otherwise elseTrim nodes} (hx : isIdentifier x.toList) (hn : isPlainName name)
      (hb : RegularNodes body) (ho : ∀ nodes ∈ otherwise, RegularNodes nodes)
      (he : otherwise = none → elseTrim = .unset) (trim endTrim : Trim) (hs : RegularNodes nodes) :
      RegularNodes (.loop x (.ident name) body otherwise trim elseTrim endTrim :: nodes)
  | assign {x name nodes} (hx : isIdentifier x.toList) (hn : isPlainName name) (trim : Trim)
      (hs : RegularNodes nodes) :
      RegularNodes (.assignment x (some (.ident name)) none trim .unset :: nodes)
  | capture {x body nodes} (hx : isIdentifier x.toList) (hb : RegularNodes body)
      (trim endTrim : Trim) (hs : RegularNodes nodes) :
      RegularNodes (.assignment x none (some body) trim endTrim :: nodes)
  | comment {content nodes} (hc : HoldsNoTag content) (trim endTrim : Trim)
      (hs : RegularNodes nodes) : RegularNodes (.comment content trim endTrim :: nodes)
  | raw {content nodes} (hc : HoldsNoTag content) (trim endTrim : Trim) (hs : RegularNodes nodes) :
      RegularNodes (.raw content trim endTrim :: nodes)
  | subtemplate {name nodes} (hn : isPlainName name) (trim : Trim) (hs : RegularNodes nodes) :
      RegularNodes (.subtemplate (.ident name) false trim :: nodes)
  | tag {name args nodes} (hw : isTagName name.toList)
      (hn : name ∉ blockNames ++ structural ++ singleNames) (ha : isTagArgs args.toList)
      (trim : Trim) (hs : RegularNodes nodes) : RegularNodes (.tag name args [] trim :: nodes)

/-! ### Nodes that are read as they were written -/

/-- The elements stand for the nodes, in any scope, if plain names are read in fragments. -/
def Means (es : List Element) (nodes : List Node) : Prop :=
  ∀ fragment, ReadsNames fragment → ∀ scope, Element.toNodes fragment scope es = .ok nodes

/-- The tokens are derived for one element, which stands for the node. -/
def DerivesNode (ts : List Token) (n : Node) : Prop :=
  ∃ e, (∀ us es, Derives us es → Derives (ts ++ us) (e :: es)) ∧
    ∀ fragment, ReadsNames fragment → ∀ scope, Element.toNode fragment scope e = .ok n

/-- The tokens are derived for elements that stand for the nodes. -/
def DerivesNodes (ts : List Token) (nodes : List Node) : Prop :=
  ∃ es, Derives ts es ∧ Means es nodes

/-- A template that is written, and whose text is read as that template wherever it stands. -/
def RoundTrips (nodes : List Node) : Prop :=
  ∃ text, dialect.write nodes = .ok text ∧ Tokenizes Opens text.toList (DerivesNodes · nodes) ∧
    (startsWithText nodes = false → ∀ rest, Opens rest → Opens (text.toList ++ rest))

/-- The same for a single node that is not text. -/
def NodeRoundTrips (n : Node) : Prop :=
  ∃ text, dialect.writeNode n = .ok text ∧ Tokenizes Anything text.toList (DerivesNode · n) ∧
    ∀ rest, Opens (text.toList ++ rest)

variable {n : Node} {nodes body : List Node} {ts us : List Token}

theorem DerivesNode.cons (hn : DerivesNode ts n) (hs : DerivesNodes us nodes) :
    DerivesNodes (ts ++ us) (n :: nodes) := by
  obtain ⟨e, hd, hm⟩ := hn
  obtain ⟨es, hds, hms⟩ := hs
  refine ⟨e :: es, hd us es hds, fun fragment hf scope => ?_⟩
  rw [Element.toNodes, hm fragment hf scope, hms fragment hf scope]
  rfl

theorem RoundTrips.nil : RoundTrips [] := by
  refine ⟨"", by rw [Dialect.write], ?_, fun _ rest hr => hr⟩
  exact .nil ⟨[], .nil, fun _ _ _ => by rw [Element.toNodes]⟩

theorem RoundTrips.cons (hn : NodeRoundTrips n) (hs : RoundTrips nodes) :
    RoundTrips (n :: nodes) := by
  obtain ⟨first, hw, ht, ho⟩ := hn
  obtain ⟨text, hws, hts, -⟩ := hs
  refine ⟨first ++ text, ?_, ?_, ?_⟩
  · rw [Dialect.write, hw, hws]
    rfl
  · rw [String.toList_append]
    refine ht.append (fun _ _ => trivial) fun ts hd => ?_
    exact hts.mono fun us hds => hd.cons hds
  · intro _ rest _
    rw [String.toList_append, List.append_assoc]
    exact ho _

/-- A text is read back if no text comes after it. -/
theorem RoundTrips.text {content : String} (hne : content ≠ "")
    (ho : ¬ ['{', '{'] <:+: content.toList) (hc : HoldsNoTag content)
    (ht : startsWithText nodes = false) (hs : RoundTrips nodes) :
    RoundTrips (.text content :: nodes) := by
  obtain ⟨text, hws, hts, hopens⟩ := hs
  refine ⟨content ++ text, ?_, ?_, ?_⟩
  · rw [Dialect.write, Dialect.writeNode, hws]
    rfl
  · rw [String.toList_append]
    have hpassage : Passage content.toList := by
      simp only [Passage, List.forall_mem_cons, List.not_mem_nil, false_imp_iff, implies_true,
        and_true]
      exact ⟨⟨ho, hc.2⟩, hc⟩
    refine (Tokenizes.html (by simpa using hne) hpassage).append (hopens ht) ?_
    rintro _ ⟨_, rfl, p, rfl, hp⟩
    refine hts.mono fun us hds => DerivesNode.cons ⟨.html p, fun _ _ => .html p, ?_⟩ hds
    intro _ _ _
    rw [Element.toNode, Piece.toString, hp, String.ofList_toList]
  · intro h
    cases h

/-! ### Outputs, verbatim blocks and single tags -/

variable {name x : String} {trim elseTrim endTrim : Trim}

theorem text_name (name : String) : grammar.text (.ident name) = .ok name := by
  simp [Grammar.text, Grammar.render, Grammar.renderSteps, Grammar.wrap, grammar, Expr.ident,
    Expr.ofChain, ChainWords.write, ChainWords.writeRoot, ChainWords.writeAccesses]

theorem NodeRoundTrips.output (hn : isPlainName name) (trim : Trim) :
    NodeRoundTrips (.output (.ident name) trim) := by
  refine ⟨Markup.output name trim, ?_, ?_, opens_output name trim⟩
  · simp [Dialect.writeNode, dialect, text_name]
  have henclosed := isEnclosed_identifier (isIdentifier_of_isPlainName hn) (.inr rfl)
  refine (Tokenizes.output henclosed trim).mono ?_
  rintro _ ⟨_, rfl, ⟨start, inner⟩, span, rfl, hi⟩
  obtain rfl : inner = ' ' :: name.toList ++ [' '] := hi
  obtain ⟨o, hparse, ho⟩ := parseValue_padded hn start
  refine ⟨_, fun _ _ => .output hparse span trim, fun fragment _ scope => ?_⟩
  have hvalue : (⟨⟨o, []⟩, []⟩ : Value).toExpr scope = .ok (.ident name) := by
    rw [← ho scope]
    rfl
  rw [Element.toNode, hvalue, map_ok]

theorem NodeRoundTrips.verbatim (name : String) {content : String} (hv : isVerbatim name)
    (hc : HoldsNoTag content) (trim endTrim : Trim)
    (hw : dialect.writeNode n = .ok (Markup.block name content ("end" ++ name) trim endTrim))
    (hn : ∀ opening text closing, IsTag opening name [] trim → text.toString = content →
      IsTag closing ("end" ++ name) [] endTrim → readVerbatimBlock opening text closing = n) :
    NodeRoundTrips n := by
  refine ⟨_, hw, (Tokenizes.verbatim hv (hc.isBody _) trim endTrim).mono ?_, fun rest => ?_⟩
  · rintro _ ⟨_, rfl, opening, text, closing, rfl, ho, ht, hcl⟩
    refine ⟨_, fun _ _ => .verbatim opening text closing, fun fragment _ scope => ?_⟩
    rw [Element.toNode, hn opening text closing ho ht hcl]
  · rw [Markup.block, String.toList_append, String.toList_append]
    simp only [List.append_assoc]
    exact opens_tag name trim _

theorem NodeRoundTrips.comment {content : String} (hc : HoldsNoTag content) (trim endTrim : Trim) :
    NodeRoundTrips (.comment content trim endTrim) := by
  refine .verbatim "comment" rfl hc trim endTrim (by simp [Dialect.writeNode, dialect]) ?_
  intro opening text closing ho ht hcl
  simp [readVerbatimBlock, ho.name, ht, ho.trim, hcl.trim]

theorem NodeRoundTrips.raw {content : String} (hc : HoldsNoTag content) (trim endTrim : Trim) :
    NodeRoundTrips (.raw content trim endTrim) := by
  refine .verbatim "raw" rfl hc trim endTrim (by simp [Dialect.writeNode]) ?_
  intro opening text closing ho ht hcl
  simp [readVerbatimBlock, ho.name, ht, ho.trim, hcl.trim]

/-- A tag that opens no block is read back if its node is. -/
theorem NodeRoundTrips.single (name body : String) {args : List Char}
    (hbody : body.toList = name.toList ++ argsTail args) (hname : isTagName name.toList)
    (hargs : isTagArgs args) (hv : isVerbatim name = false) (hb : name ∉ blockNames)
    (hs : name ∉ structural) (trim : Trim)
    (hw : dialect.writeNode n = .ok (Markup.tag body trim))
    (hn : ∀ t, IsTag t name args trim → ∀ fragment, ReadsNames fragment → ∀ scope,
      readSingleTag fragment scope t = .ok n) :
    NodeRoundTrips n := by
  refine ⟨_, hw, ?_, opens_tag body trim⟩
  rw [← List.append_nil (Markup.tag body trim).toList]
  refine .tag name hbody hname hargs hv trim fun t ht => .nil ?_
  refine ⟨.tag t, fun _ _ => .tag (ht.name ▸ hb) (ht.name ▸ hs), fun fragment hf scope => ?_⟩
  rw [Element.toNode, hn t ht fragment hf scope]

theorem NodeRoundTrips.assign (hx : isIdentifier x.toList) (hn : isPlainName name) (trim : Trim) :
    NodeRoundTrips (.assignment x (some (.ident name)) none trim .unset) := by
  have hargs := isTagArgs_names hx (isIdentifier_of_isPlainName hn) " = ".toList (by decide +kernel)
  refine .single "assign" ("assign " ++ x ++ " = " ++ name) ?_ (by decide +kernel) hargs rfl
    (by decide +kernel) (by decide +kernel) trim ?_ ?_
  · obtain ⟨c, cs, hc, -⟩ := exists_cons_of_isIdentifier hx
    simp [hc]
  · simp [Dialect.writeNode, dialect, Dialect.writeOption, Markup.assignment, text_name,
      assignmentWords]
  · intro t ht fragment hf scope
    rw [readSingleTag, ht.name]
    simp [readAssign_names hf hx hn scope ht.args, ht.trim]

theorem NodeRoundTrips.subtemplate (hn : isPlainName name) (trim : Trim) :
    NodeRoundTrips (.subtemplate (.ident name) false trim) := by
  have hident := isIdentifier_of_isPlainName hn
  have hargs : isTagArgs name.toList :=
    isTagArgs_iff.mpr ⟨isEnclosed_identifier hident (.inl rfl), trim_identifier hident⟩
  refine .single "include" ("include " ++ name) ?_ (by decide +kernel) hargs rfl (by decide +kernel)
    (by decide +kernel)
    trim ?_ ?_
  · obtain ⟨c, cs, hc, -⟩ := exists_cons_of_isIdentifier hident
    simp [hc]
  · simp [Dialect.writeNode, dialect, writeSubtemplate, text_name]
  · rintro ⟨_, ⟨start, args⟩, span, _⟩ ⟨rfl, rfl, rfl⟩ fragment hf scope
    simp [readSingleTag, isSingleOperand_name hn start, hf scope name _ hn (trim_identifier hident)]

theorem NodeRoundTrips.tag {args : String} (hw : isTagName name.toList)
    (hn : name ∉ blockNames ++ structural ++ singleNames) (ha : isTagArgs args.toList)
    (trim : Trim) :
    NodeRoundTrips (.tag name args [] trim) := by
  simp only [List.mem_append, not_or] at hn
  obtain ⟨⟨hb, hs⟩, h⟩ := hn
  simp only [singleNames, List.mem_cons, List.not_mem_nil, or_false, not_or] at h
  refine .single name (if args.isEmpty then name else name ++ " " ++ args) ?_ hw ha
    (by simp [isVerbatim, h]) hb hs trim (by simp [Dialect.writeNode, dialect, Markup.tagWithArgs])
      ?_
  · split
    · next he => simp [String.isEmpty_iff.mp he]
    · next he =>
      have hne : args.toList ≠ [] := fun h => he (by simpa using h)
      simp [argsTail, hne]
  · intro t ht fragment hf scope
    have hargs : t.args.toString = args := by simp [Piece.toString, ht.args]
    simp [readSingleTag, ht.name, h, passOn, ht.trim, hargs]

/-! ### Captures and loops -/

theorem toList_ne_nil_of_isIdentifier (h : isIdentifier x.toList) : x.toList ≠ [] := by
  obtain ⟨c, cs, hc, -⟩ := exists_cons_of_isIdentifier h
  simp [hc]

theorem isTagArgs_identifier (h : isIdentifier x.toList) : isTagArgs x.toList :=
  isTagArgs_iff.mpr ⟨isEnclosed_identifier h (.inl rfl), trim_identifier h⟩

theorem NodeRoundTrips.capture (hx : isIdentifier x.toList) (hb : RoundTrips body)
    (trim endTrim : Trim) : NodeRoundTrips (.assignment x none (some body) trim endTrim) := by
  obtain ⟨text, hw, ht, -⟩ := hb
  refine ⟨Markup.block ("capture" ++ " " ++ x) text "endcapture" trim endTrim, ?_, ?_,
    fun rest => ?_⟩
  · rw [Dialect.writeNode, Dialect.writeOption, hw]
    rfl
  all_goals simp only [Markup.block, String.toList_append, List.append_assoc]
  · refine .tag "capture" (toList_header "capture" x (toList_ne_nil_of_isIdentifier hx))
      (by decide +kernel) (isTagArgs_identifier hx) rfl trim fun o ho => ?_
    refine ht.append (fun rest _ => opens_tag "endcapture" endTrim rest) ?_
    rintro ts ⟨es, hd, hm⟩
    refine .closing "endcapture" (by decide +kernel) rfl endTrim fun c hc => ?_
    refine ⟨.capture o es c, fun us es' hs => ?_, fun fragment hf scope => ?_⟩
    · simpa using Derives.capture ho.name hd hc.name hs
    · simp [Element.toNode, captureTarget, ho.args, trim_identifier hx, isEmpty_of_isIdentifier hx,
        hm fragment hf scope, ho.trim, hc.trim]
  · exact opens_tag _ trim _

/-! ### Arms -/

/-- The tokens of a block from its alternative on, and the arms that they stand for, of which there
is at most one. -/
def ReadsEnd (name : String) (ts : List Token) (arms : List (Branch (List Node)))
    (closing : Tag) : Prop :=
  ∃ otherwise, DerivesEnd name ts otherwise closing ∧
    ∀ fragment, ReadsNames fragment → ∀ scope, ∃ alternative,
      Element.toAlternative fragment scope otherwise = .ok alternative ∧
      arms = Branch.ofAlternative alternative

theorem ReadsEnd.closing {t : Tag} (ht : t.name = name) : ReadsEnd name [.tag t] [] t := by
  refine ⟨none, .closing ht, fun fragment _ scope => ⟨none, ?_, rfl⟩⟩
  rw [Element.toAlternative]

theorem ReadsEnd.otherwise {head t : Tag} (hh : head.name = "else") (hts : DerivesNodes ts body)
    (ht : t.name = name) :
    ReadsEnd name (.tag head :: ts ++ [.tag t]) [⟨none, body, head.trim⟩] t := by
  obtain ⟨es, hd, hm⟩ := hts
  refine ⟨some ⟨head, es⟩, .otherwise hh hd ht, fun fragment hf scope => ?_⟩
  refine ⟨some (body, head.trim), ?_, rfl⟩
  rw [Element.toAlternative, hm fragment hf scope]
  rfl

/-- A relation between the tokens of a conditional after the body of its first tag, the arms that
they stand for, and the closing tag. Further arms begin with a tag called `subsequent`. -/
structure ReadsArms (subsequent closing : String)
    (R : List Token → List (Branch (List Node)) → Tag → Prop) : Prop where
  last : ∀ ts arms t, ReadsEnd closing ts arms t → R ts arms t
  arm : ∀ (head t : Tag) name ts body us arms, isPlainName name → head.name = subsequent →
    head.args.text = name.toList → DerivesNodes ts body → R us arms t →
    R (.tag head :: ts ++ us) (⟨some (.ident name), body, head.trim⟩ :: arms) t

variable {subsequent closing : String} {arms : List (Branch (List Node))}
  {R : List Token → List (Branch (List Node)) → Tag → Prop}

/-- The arms of a conditional and its closing tag are read back. -/
theorem arms_tokenize (hR : ReadsArms subsequent closing R) (hsub : isTagName subsequent.toList)
    (hsv : isVerbatim subsequent = false) (hcl : isTagName closing.toList)
    (hcv : isVerbatim closing = false) (ha : isArmList isPlainName arms)
    (hbs : ∀ arm ∈ arms, RoundTrips arm.body) (endTrim : Trim) :
    ∃ text, Markup.arms grammar.text subsequent (dialect.writeBranches arms) = .ok text ∧
      Tokenizes Anything (text.toList ++ (Markup.tag closing endTrim).toList)
        (fun ts => ∃ t, R ts arms t ∧ t.trim = endTrim) ∧
      ∀ rest, Opens (text.toList ++ (Markup.tag closing endTrim).toList ++ rest) := by
  induction arms with
  | nil =>
    refine ⟨"", by rw [Dialect.writeBranches, Markup.arms], ?_, ?_⟩
    all_goals rw [String.toList_empty, List.nil_append]
    on_goal 2 => exact opens_tag closing endTrim
    exact .closing closing hcl hcv endTrim fun t ht =>
      ⟨t, hR.last _ _ t (.closing ht.name), ht.trim⟩
  | cons arm arms ih =>
    obtain ⟨condition, body, trim⟩ := arm
    obtain ⟨text, hw, ht, -⟩ := hbs _ List.mem_cons_self
    cases condition with
    | none =>
      obtain rfl := eq_nil_of_isArmList ha
      refine ⟨Markup.tag "else" trim ++ text ++ "", ?_, ?_, fun rest => ?_⟩
      · rw [Dialect.writeBranches, Dialect.writeBranches, Markup.arms, Markup.arms, hw]
        rfl
      all_goals simp only [String.toList_append, List.append_assoc, String.toList_empty,
        List.nil_append]
      · refine .tag "else" (by simp) (by decide +kernel) isTagArgs_nil rfl trim fun h hh => ?_
        refine ht.append (fun rest _ => opens_tag closing endTrim rest) fun ts hts => ?_
        refine .closing closing hcl hcv endTrim fun t ht => ⟨t, ?_, ht.trim⟩
        rw [← hh.trim]
        exact hR.last _ _ t (.otherwise hh.name hts ht.name)
      · exact opens_tag "else" trim _
    | some condition =>
      obtain ⟨hn, harms⟩ := Bool.and_eq_true _ _ |>.mp ha
      obtain ⟨name, hname, rfl⟩ := exists_of_isNameExpr hn
      obtain ⟨more, hws, hts, hopens⟩ := ih harms fun arm h => hbs arm (List.mem_cons_of_mem _ h)
      have hident := isIdentifier_of_isPlainName hname
      refine ⟨Markup.tag (subsequent ++ " " ++ name) trim ++ text ++ more, ?_, ?_, fun rest => ?_⟩
      · rw [Dialect.writeBranches, Markup.arms, text_name, hw, hws]
        rfl
      all_goals simp only [String.toList_append, List.append_assoc]
      · refine .tag subsequent (toList_header _ _ (toList_ne_nil_of_isIdentifier hident)) hsub
          (isTagArgs_identifier hident) hsv trim fun h hh => ?_
        refine ht.append (fun rest _ => hopens rest) fun ts hd => ?_
        refine hts.mono ?_
        rintro us ⟨t, hus, ht⟩
        refine ⟨t, ?_, ht⟩
        rw [← hh.trim]
        exact hR.arm h t name ts body us arms hname hh.name hh.args hd hus
      · exact opens_tag _ trim _

/-! ### Loops -/

/-- What is written after the body of a loop ends it. -/
theorem loopElse_tokenizes {otherwise : Option (List Node)}
    (ho : ∀ nodes ∈ otherwise, RoundTrips nodes) (elseTrim endTrim : Trim) :
    ∃ text, Markup.loopElse elseTrim (dialect.writeOption otherwise) = .ok text ∧
      Tokenizes Anything (text.toList ++ (Markup.tag "endfor" endTrim).toList) (fun ts =>
        ∃ t, ReadsEnd "endfor" ts (otherwise.toList.map fun nodes => ⟨none, nodes, elseTrim⟩) t ∧
          t.trim = endTrim) ∧
      ∀ rest, Opens (text.toList ++ (Markup.tag "endfor" endTrim).toList ++ rest) := by
  -- the alternative is an arm of which no condition is asked
  have hR : ReadsArms "else" "endfor" fun ts arms t =>
      (∀ arm ∈ arms, arm.condition = none) → ReadsEnd "endfor" ts arms t :=
    { last := fun _ _ _ h _ => h
      arm := fun _ _ _ _ _ _ _ _ _ _ _ _ h => absurd (h _ List.mem_cons_self) (by simp) }
  have ha : isArmList isPlainName (otherwise.toList.map fun nodes => ⟨none, nodes, elseTrim⟩) := by
    cases otherwise <;> rfl
  obtain ⟨text, hw, ht, hopens⟩ := arms_tokenize hR (by decide +kernel) rfl (by decide +kernel) rfl
    ha (List.forall_mem_map.mpr fun nodes h => ho nodes (Option.mem_toList.mp h)) endTrim
  rw [dialect.arms_otherwise] at hw
  refine ⟨text, hw, ht.mono ?_, hopens⟩
  rintro ts ⟨t, hts, htrim⟩
  exact ⟨t, hts (List.forall_mem_map.mpr fun _ _ => rfl), htrim⟩

theorem NodeRoundTrips.loop {otherwise : Option (List Node)} (hx : isIdentifier x.toList)
    (hn : isPlainName name) (hb : RoundTrips body) (ho : ∀ nodes ∈ otherwise, RoundTrips nodes)
    (he : otherwise = none → elseTrim = .unset) (trim endTrim : Trim) :
    NodeRoundTrips (.loop x (.ident name) body otherwise trim elseTrim endTrim) := by
  obtain ⟨text, hw, ht, -⟩ := hb
  obtain ⟨more, hws, hts, hopens⟩ := loopElse_tokenizes ho elseTrim endTrim
  have hcomma : x.toList.contains ',' = false := by
    simpa using fun h => (signs_of_mem_identifier hx h).2.2.2.2.2 rfl
  have hargs :=
    isTagArgs_names hx (isIdentifier_of_isPlainName hn) " in ".toList (by decide +kernel)
  refine ⟨Markup.tag ("for " ++ x ++ " in " ++ name) trim ++ text ++ more ++
    Markup.tag "endfor" endTrim, ?_, ?_, fun rest => ?_⟩
  · rw [Dialect.writeNode, hw]
    change writeLoop x (.ident name) _ _ trim elseTrim endTrim = _
    rw [writeLoop, hcomma, if_neg (by decide), Markup.loop, text_name, hws]
    rfl
  all_goals simp only [String.toList_append, List.append_assoc]
  · refine .tag "for" ?_ (by decide +kernel) hargs rfl trim fun o ho => ?_
    · obtain ⟨c, cs, hc, -⟩ := exists_cons_of_isIdentifier hx
      simp [hc]
    refine ht.append (fun rest _ => hopens rest) ?_
    rintro ts ⟨es, hd, hm⟩
    refine hts.mono ?_
    rintro us ⟨closing, ⟨alternative, hend, ha⟩, hclosing⟩
    refine ⟨.loop o es alternative closing, fun vs es' hs => ?_, fun fragment hf scope => ?_⟩
    · simpa using Derives.loop ho.name hd hend hs
    · obtain ⟨read, hread, harms⟩ := ha fragment hf scope
      rw [Element.toNode, ho.args, readLoopHeader_names hf hx hn, ok_bind]
      simp only [hm fragment hf, hread, ok_bind, ho.trim, hclosing]
      cases otherwise with
      | none =>
        cases read with
        | none => rw [he rfl]; rfl
        | some => cases harms
      | some nodes =>
        cases read with
        | none => cases harms
        | some =>
          cases harms
          rfl
  · exact opens_tag _ trim _

/-! ### Conditionals -/

/-- The tokens after the first body of a chain of conditions, and the arms that they stand for. -/
def ReadsClauses (name : String) (ts : List Token) (arms : List (Branch (List Node)))
    (closing : Tag) : Prop :=
  ∃ clauses otherwise, DerivesClauses name ts clauses otherwise closing ∧
    ∀ fragment, ReadsNames fragment → ∀ scope, ∃ first alternative,
      Element.clauseArms fragment scope clauses = .ok first ∧
      Element.toAlternative fragment scope otherwise = .ok alternative ∧
      arms = first ++ Branch.ofAlternative alternative

/-- The tokens after the opening tag of a case distinction, and the arms that they stand for. -/
def ReadsWhens (ts : List Token) (arms : List (Branch (List Node))) (closing : Tag) : Prop :=
  ∃ whens otherwise, DerivesWhens ts whens otherwise closing ∧
    ∀ fragment, ReadsNames fragment → ∀ scope, ∃ first alternative,
      Element.whenArms fragment scope whens = .ok first ∧
      Element.toAlternative fragment scope otherwise = .ok alternative ∧
      arms = first ++ Branch.ofAlternative alternative

theorem readCondition_name (hn : isPlainName name) {t : Tag} (ht : t.args.text = name.toList) :
    ∃ o, readCondition t = .ok ⟨o, []⟩ ∧ ∀ scope, o.toExpr scope = .ident name := by
  obtain ⟨_, ⟨start, args⟩, _, _⟩ := t
  obtain rfl : args = name.toList := ht
  obtain ⟨o, ho, he⟩ := parseChain_name hn start
  refine ⟨o, ?_, he⟩
  rw [readCondition, if_neg (by simp [isEmpty_of_isIdentifier (isIdentifier_of_isPlainName hn)]),
    ho]

theorem readsArms_clauses (name : String) : ReadsArms "elsif" name (ReadsClauses name) where
  last ts arms t := by
    rintro ⟨otherwise, hd, hm⟩
    refine ⟨[], otherwise, .last hd, fun fragment hf scope => ?_⟩
    obtain ⟨alternative, halt, rfl⟩ := hm fragment hf scope
    exact ⟨[], alternative, by rw [Element.clauseArms], halt, rfl⟩
  arm head t name ts body us arms hn hh ha hts hus := by
    obtain ⟨es, hd, hm⟩ := hts
    obtain ⟨clauses, otherwise, hc, hmean⟩ := hus
    obtain ⟨o, ho, he⟩ := readCondition_name hn ha
    refine ⟨⟨head, ⟨o, []⟩, es⟩ :: clauses, otherwise, .clause hh ho hd hc,
      fun fragment hf scope => ?_⟩
    obtain ⟨first, alternative, hfirst, halt, rfl⟩ := hmean fragment hf scope
    refine ⟨⟨some (.ident name), body, head.trim⟩ :: first, alternative, ?_, halt, rfl⟩
    rw [Element.clauseArms, hm fragment hf scope, hfirst, ← he scope]
    rfl

theorem readsArms_whens : ReadsArms "when" "endcase" ReadsWhens where
  last ts arms t := by
    rintro ⟨otherwise, hd, hm⟩
    refine ⟨[], otherwise, .last hd, fun fragment hf scope => ?_⟩
    obtain ⟨alternative, halt, rfl⟩ := hm fragment hf scope
    exact ⟨[], alternative, by rw [Element.whenArms], halt, rfl⟩
  arm head t name ts body us arms hn hh ha hts hus := by
    obtain ⟨es, hd, hm⟩ := hts
    obtain ⟨whens, otherwise, hw, hmean⟩ := hus
    obtain ⟨o, ho, he⟩ := parseWhen_name hn head.args.start
    rw [← ha] at ho
    refine ⟨⟨head, [o], es⟩ :: whens, otherwise, .clause hh ho hd hw, fun fragment hf scope => ?_⟩
    obtain ⟨first, alternative, hfirst, halt, rfl⟩ := hmean fragment hf scope
    refine ⟨⟨some (.ident name), body, head.trim⟩ :: first, alternative, ?_, halt, rfl⟩
    rw [Element.whenArms, hm fragment hf scope, hfirst, ← he scope]
    rfl

theorem dialect_conditional (kind : Variant) (branches : List (Branch Markup.Written))
    (trim endTrim : Trim) : dialect.conditional kind branches trim endTrim =
      Markup.conditional grammar.text (conditionalWords kind) trim endTrim branches :=
  rfl

theorem NodeRoundTrips.conditional {kind : Variant} (hk : kind ≠ .caseOf) (hn : isPlainName name)
    (hb : RoundTrips body) (ha : isArmList isPlainName arms)
    (hbs : ∀ arm ∈ arms, RoundTrips arm.body) (trim endTrim : Trim) :
    NodeRoundTrips
      (.conditional kind (⟨some (.ident name), body, .unset⟩ :: arms) trim endTrim) := by
  obtain ⟨word, hword, hwords, hkind⟩ : ∃ word : String, (word = "if" ∨ word = "unless") ∧
      conditionalWords kind = ⟨word, "elsif", "end" ++ word⟩ ∧
      ∀ t : Tag, t.name = word → conditionalKind t = kind := by
    cases kind with
    | ifTrue => exact ⟨"if", .inl rfl, rfl, fun t ht => by simp [conditionalKind, ht]⟩
    | ifFalse => exact ⟨"unless", .inr rfl, rfl, fun t ht => by simp [conditionalKind, ht]⟩
    | caseOf => exact absurd rfl hk
  have hchars : isTagName word.toList ∧ isVerbatim word = false ∧
      isTagName ("end" ++ word).toList ∧ isVerbatim ("end" ++ word) = false := by
    rcases hword with rfl | rfl <;> decide +kernel
  have hident := isIdentifier_of_isPlainName hn
  obtain ⟨text, hw, ht, -⟩ := hb
  obtain ⟨more, hws, hts, hopens⟩ :=
    arms_tokenize (readsArms_clauses ("end" ++ word)) (by decide +kernel)
    rfl hchars.2.2.1 hchars.2.2.2 ha hbs endTrim
  refine ⟨Markup.tag (word ++ " " ++ name) trim ++ text ++ more ++
    Markup.tag ("end" ++ word) endTrim, ?_, ?_, fun rest => ?_⟩
  · rw [Dialect.writeNode, Dialect.writeBranches, hw, dialect_conditional, hwords,
      Markup.conditional, text_name, hws]
    rfl
  all_goals rw [String.toList_append, String.toList_append, String.toList_append]
  all_goals simp only [List.append_assoc]
  · refine .tag word (toList_header _ _ (toList_ne_nil_of_isIdentifier hident)) hchars.1
      (isTagArgs_identifier hident) hchars.2.1 trim fun o ho => ?_
    refine ht.append (fun rest _ => hopens rest) ?_
    rintro ts ⟨es, hd, hm⟩
    refine hts.mono ?_
    rintro us ⟨closing, ⟨clauses, otherwise, hc, hmean⟩, hclosing⟩
    obtain ⟨c, hcond, he⟩ := readCondition_name hn ho.args
    refine ⟨.conditional ⟨o, ⟨c, []⟩, es⟩ clauses otherwise closing, fun vs es' hs => ?_,
      fun fragment hf scope => ?_⟩
    · rw [← ho.name] at hword hc
      simpa using Derives.conditional hword hcond hd hc hs
    · obtain ⟨first, alternative, hfirst, halt, rfl⟩ := hmean fragment hf scope
      rw [Element.toNode, hm fragment hf scope, hfirst, halt, ← hclosing, ← ho.trim, ← he scope,
        ← hkind o ho.name]
      rfl
  · exact opens_tag _ trim _

theorem NodeRoundTrips.caseOf (hn : isPlainName name) (ha : isArmList isPlainName arms)
    (hbs : ∀ arm ∈ arms, RoundTrips arm.body) (trim endTrim : Trim) :
    NodeRoundTrips
      (.conditional .caseOf (⟨some (.ident name), [], .unset⟩ :: arms) trim endTrim) := by
  have hident := isIdentifier_of_isPlainName hn
  obtain ⟨more, hws, hts, hopens⟩ :=
    arms_tokenize readsArms_whens (by decide +kernel) rfl (by decide +kernel) rfl
    ha hbs endTrim
  refine ⟨Markup.tag ("case" ++ " " ++ name) trim ++ "" ++ more ++ Markup.tag "endcase" endTrim,
    ?_, ?_, fun rest => ?_⟩
  · rw [Dialect.writeNode, Dialect.writeBranches, Dialect.write, dialect_conditional,
      conditionalWords, Markup.conditional, text_name, hws]
    rfl
  all_goals rw [String.toList_append, String.toList_append, String.toList_append]
  all_goals simp only [String.toList_empty, List.append_assoc, List.nil_append]
  · refine .tag "case" (toList_header _ _ (toList_ne_nil_of_isIdentifier hident))
      (by decide +kernel) (isTagArgs_identifier hident) rfl trim fun o ho => ?_
    refine hts.mono ?_
    rintro us ⟨closing, ⟨whens, otherwise, hw, hmean⟩, hclosing⟩
    obtain ⟨c, hparse, he⟩ := parseValue_name hn o.args.start
    rw [← ho.args] at hparse
    refine ⟨.caseOf o ⟨⟨c, []⟩, []⟩ whens otherwise closing, fun vs es' hs => ?_,
      fun fragment hf scope => ?_⟩
    · simpa using Derives.caseOf ho.name hparse .nil hw hs
    · obtain ⟨first, alternative, hfirst, halt, rfl⟩ := hmean fragment hf scope
      have hsubject : (⟨⟨c, []⟩, []⟩ : Value).toExpr scope = .ok (.ident name) := by
        rw [← he scope]
        rfl
      rw [Element.toNode, hsubject, hfirst, halt, ← hclosing, ← ho.trim]
      rfl
  · exact opens_tag _ trim _

/-! ### Whole templates -/

/-- Regular templates are read back wherever they stand. -/
theorem roundTrips_of_regularNodes (h : RegularNodes nodes) : RoundTrips nodes := by
  induction h with
  | nil => exact .nil
  | text hne ho hc ht _ ih => exact .text hne ho hc ht ih
  | output hn trim _ ih => exact .cons (.output hn trim) ih
  | conditional hk hn _ ha _ trim endTrim _ hb hbs ih =>
    exact .cons (.conditional hk hn hb ha hbs trim endTrim) ih
  | caseOf hn ha _ trim endTrim _ hbs ih => exact .cons (.caseOf hn ha hbs trim endTrim) ih
  | loop hx hn _ _ he trim endTrim _ hb ho ih => exact .cons (.loop hx hn hb ho he trim endTrim) ih
  | assign hx hn trim _ ih => exact .cons (.assign hx hn trim) ih
  | capture hx _ trim endTrim _ hb ih => exact .cons (.capture hx hb trim endTrim) ih
  | comment hc trim endTrim _ ih => exact .cons (.comment hc trim endTrim) ih
  | raw hc trim endTrim _ ih => exact .cons (.raw hc trim endTrim) ih
  | subtemplate hn trim _ ih => exact .cons (.subtemplate hn trim) ih
  | tag hw hn ha trim _ ih => exact .cons (.tag hw hn ha trim) ih

/-- The only template without text is the empty one. -/
theorem RoundTrips.eq_nil (ht : Tokenizes Opens [] (DerivesNodes · nodes)) : nodes = [] := by
  obtain ⟨ts, hts, es, hd, hm⟩ := ht 0 [] (.inl rfl)
  obtain rfl : ts = [] := by simpa [tokenizePiece_nil, Text.byteLength] using hts
  cases hd
  have := hm _ (readsNames_readFragment 0) {}
  rw [Element.toNodes] at this
  exact (Except.ok.inj this).symm

/-- A regular template is written, and reading what is written gives the template back. -/
theorem read_write_of_regularNodes (nodes : List Node) (h : RegularNodes nodes) :
    ∃ source, write nodes = .ok source ∧ read source = .ok nodes := by
  obtain ⟨source, hw, ht, -⟩ := roundTrips_of_regularNodes h
  refine ⟨source, hw, ?_⟩
  -- fragments are read at least one deep, except in the empty source
  cases hl : source.length with
  | zero =>
    obtain rfl : source = "" := by simpa using hl
    obtain rfl := RoundTrips.eq_nil ht
    rw [read, readWith, parse, tokenize, Piece.ofString]
    simp [tokenizePiece_nil, Element.ofTokens, Nesting.run, Nesting.finish, Element.toNodes]
  | succ depth =>
    obtain ⟨ts, hts, es, hd, hm⟩ := ht 0 [] (.inl rfl)
    have htokens : tokenize source = .ok ts := by
      rw [tokenize, Piece.ofString]
      simpa [tokenizePiece_nil] using hts
    rw [read, readWith, parse, htokens, bind_ok, hd.ofTokens, bind_ok, hl]
    exact hm _ (readsNames_readFragment depth) {}

/-- Nested blocks of every kind, with markers on some of their tags. -/
theorem read_write_of_regularNodes_nested :
    let nodes : List Node :=
      [.text "a \x7b b",
       .conditional .ifFalse
         [⟨some (.ident "sold-out?"), [.loop "item" (.ident "items")
             [.output (.ident "item") ⟨true, false⟩, .text " "]
             (some [.raw "{{ x }}" .unset ⟨false, true⟩]) .unset ⟨true, true⟩ .unset], .unset⟩,
          ⟨some (.ident "b"), [.tag "cycle" "'one', 'two'" [] .unset], ⟨false, true⟩⟩,
          ⟨none, [], .unset⟩] ⟨true, false⟩ .unset,
       .conditional .caseOf
         [⟨some (.ident "kind"), [], .unset⟩,
          ⟨some (.ident "small"), [.comment "none" .unset .unset], ⟨true, false⟩⟩,
          ⟨none, [.subtemplate (.ident "page") false .unset], .unset⟩] .unset ⟨false, true⟩,
       .assignment "x" none (some [.assignment "y" (some (.ident "z")) none .unset .unset]) .unset
         .unset]
    RegularNodes nodes ∧ ∃ source, write nodes = .ok source ∧ read source = .ok nodes := by
  intro nodes
  have h : RegularNodes nodes := by
    refine .text (by decide +kernel) (by decide +kernel) ⟨by decide +kernel, by decide +kernel⟩ rfl
      ?_
    refine .conditional (by decide +kernel) (by decide +kernel) ?_ (by decide +kernel) ?_ _ _ ?_
    · refine .loop (by decide +kernel) (by decide +kernel) ?_ ?_ (by simp) _ _ .nil
      · exact .output (by decide +kernel) _ (.text (by decide +kernel) (by decide +kernel)
          ⟨by decide +kernel, by decide +kernel⟩ rfl .nil)
      · intro ns hns
        obtain rfl := Option.mem_some.mp hns
        exact .raw ⟨by decide +kernel, by decide +kernel⟩ _ _ .nil
    · simp only [List.forall_mem_cons, List.not_mem_nil, false_imp_iff, implies_true, and_true]
      exact ⟨.tag (by decide +kernel) (by decide +kernel) (by decide +kernel) _ .nil, .nil⟩
    refine .caseOf (by decide +kernel) (by decide +kernel) ?_ _ _ ?_
    · simp only [List.forall_mem_cons, List.not_mem_nil, false_imp_iff, implies_true, and_true]
      exact ⟨.comment ⟨by decide +kernel, by decide +kernel⟩ _ _ .nil,
        .subtemplate (by decide +kernel) _ .nil⟩
    exact .capture (by decide +kernel) (.assign (by decide +kernel) (by decide +kernel) _ .nil) _ _
      .nil
  exact ⟨h, read_write_of_regularNodes nodes h⟩

end Stencil.Liquid
