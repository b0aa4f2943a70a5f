import Stencil.Proofs.Avoidance
import Stencil.Proofs.Echo
import Stencil.Proofs.Liquid.Derivation
import Stencil.Proofs.Liquid.Spelling
import Stencil.Proofs.Liquid.Tiling
import Stencil.Proofs.Liquid.Variables

/-!
# What is read where a template was written as Liquid

A contained template is written as the tokens that follow its tree. If they are read at all, what is
read echoes the template: text, raw blocks and comments come back, and the loop object is read only
where something in the body of a loop is written with the word for it.

Nothing is said about whether the tokens are read. They are fed to a tree that is being built, and
as long as none of them is refused, the blocks that are built follow the nodes.

## Main results

* `Liquid.echoes_of_write` : what is read from a contained template echoes it.
-/

namespace Stencil.Liquid

open Nesting (Feeds)
open Text (LacksWord)

/-! ### Expressions without the loop object -/

variable {scope : Scope} {p : Piece} {e : Expr}

theorem loopFree_of_parseValue {v : Value} (hv : parseValue p = .ok v) (h : v.toExpr scope = .ok e)
    (hp : scope.inLoop → LacksWord loopWord p.text) : e.LoopFree := by
  cases hs : scope.inLoop with
  | false => exact Expr.LoopFree.of_everyRead (Value.every_toExpr h) hs
  | true =>
    have hv := isOrdinary_of_parseValue (hp hs) hv
    rw [Value.toExpr_eq hv] at h
    exact Expr.LoopFree.of_everyRead (Value.every_toExpr h) rfl

theorem loopFree_of_parseChain {c : Chain} (hc : parseChain p = .ok c)
    (hp : scope.inLoop → LacksWord loopWord p.text) : (c.toExpr scope).LoopFree := by
  cases hs : scope.inLoop with
  | false => exact Expr.LoopFree.of_everyRead (c.every_toExpr scope) hs
  | true =>
    have hc := isOrdinary_of_parseChain (hp hs) hc
    rw [Chain.toExpr_eq hc]
    exact Expr.LoopFree.of_everyRead (c.every_toExpr {}) rfl

theorem loopFree_whenCondition {t : Tag} {values : List Operand}
    (hv : parseWhen t.args = .ok values)
    (hp : scope.inLoop → LacksWord loopWord t.args.text) :
    (whenCondition scope t values).LoopFree := by
  cases hs : scope.inLoop with
  | false => exact Expr.LoopFree.of_everyRead (stated_whenCondition scope t values).everyRead hs
  | true =>
    have hvalues := isOrdinary_of_parseWhen (hp hs) hv
    have heq : whenCondition scope t values = whenCondition {} t values := by
      unfold whenCondition
      split
      · exact Operand.toExpr_eq (hvalues _ List.mem_cons_self) scope
      · rfl
    rw [heq]
    exact Expr.LoopFree.of_everyRead (stated_whenCondition {} t values).everyRead rfl

theorem lacksWord_dropMarker (h : LacksWord loopWord p.text) :
    LacksWord loopWord p.dropMarker.text := by
  obtain ⟨s, hs, hleads⟩ := Piece.Leads.dropMarker p
  rw [hleads.text] at h
  refine h.of_ready isWord_loopWord ?_
  rcases hs with rfl | rfl <;> decide

/-- What stands in an output is followed by its closing delimiter. -/
theorem lacksWord_of_readOutput {start : Nat} {inner rest : Piece} {span : Span} {trim : Trim}
    (h : readOutput start p = .ok (.output inner span trim, rest))
    (hp : LacksWord loopWord p.text) : LacksWord loopWord inner.text := by
  unfold readOutput at h
  split at h
  · cases h
  · next d hd =>
    cases h
    obtain ⟨⟨i, r⟩, hi, rfl⟩ := Option.map_eq_some_iff.mp hd
    have hinner : LacksWord loopWord i := by
      have hbody := lacksWord_dropMarker hp
      rw [eq_append_of_untilClose hi] at hbody
      exact hbody.of_append_cons (by decide)
    simp only
    split
    · next hdash =>
      have hi' := List.dropLast_append_getLast? _ (beq_iff_eq.mp hdash)
      exact (hi'.symm ▸ hinner).of_append_cons (by decide)
    · exact hinner

theorem lacksWord_of_readToken {inner rest : Piece} {span : Span} {trim : Trim}
    (h : readToken p = .ok (.output inner span trim, rest)) (hp : LacksWord loopWord p.text) :
    LacksWord loopWord inner.text := by
  unfold readToken at h
  split at h
  · next cs ho =>
    rw [(leads_open? ho).text] at hp
    exact lacksWord_of_readOutput h (hp.of_ready isWord_loopWord (.of_forall (by decide)))
  · unfold readTagToken at h
    split at h
    · cases h
    · split at h
      · unfold readVerbatim at h
        split at h <;> cases h
      · cases h
  · cases h

/-- A source that is a single output. -/
theorem lacksWord_of_tokenize {source : String} {inner : Piece} {span : Span} {trim : Trim}
    (h : tokenize source = .ok [.output inner span trim]) (hs : LacksWord loopWord source.toList) :
    LacksWord loopWord inner.text := by
  rw [tokenize, tokenizePiece] at h
  split at h
  · cases h
  · split at h
    · cases h
    · next t rest ht =>
      split at h
      · cases h
      · cases h
        exact lacksWord_of_readToken ht hs

theorem lacksWord_fragmentSource {text : List Char} (h : LacksWord loopWord text) :
    LacksWord loopWord (fragmentSource text).toList := by
  have hw := isWord_loopWord
  have hend : LacksWord loopWord (Text.trim text ++ [' '] ++ ['\x7d'] ++ ['\x7d']) :=
    .concat hw (by decide) (.concat hw (by decide) (.concat hw (by decide) (h.trim hw)))
  have hsource := LacksWord.cons hw (c := '\x7b') (by decide)
    (.cons hw (c := '\x7b') (by decide) (.cons hw (c := ' ') (by decide) hend))
  simpa [fragmentSource] using hsource

/-- What is left after a cut at the end of a text without quotes. -/
theorem lacksWord_of_cut? {pattern args before rest : List Char} (h : LacksWord loopWord args)
    (hcut : Text.cut? pattern args = some (before, rest))
    (hb : ∀ c ∈ before ++ pattern, Text.isQuote c = false)
    (hstop : ∀ c ∈ (before ++ pattern).getLast?, Text.isNameStart c = false) :
    LacksWord loopWord rest := by
  rw [Text.cut?_eq_some hcut] at h
  exact h.of_ready isWord_loopWord ⟨Text.closed_of_unquoted hb, hstop⟩

theorem exists_of_toNodes_singleton {fragment : FragmentReader} {es : List Element} {n : Node}
    (h : Element.toNodes fragment scope es = .ok [n]) :
    ∃ el, es = [el] ∧ el.toNode fragment scope = .ok n := by
  cases es with
  | nil => cases h
  | cons el es =>
    obtain ⟨node, nodes, hnode, hnodes, heq⟩ := Element.exists_of_toNodes_cons h
    obtain ⟨rfl, rfl⟩ := List.cons.inj heq
    cases es with
    | nil => exact ⟨el, rfl, hnode⟩
    | cons el' es =>
      obtain ⟨_, _, -, -, heq⟩ := Element.exists_of_toNodes_cons hnodes
      cases heq

/-- A fragment without the word for the loop object. -/
theorem loopFree_readFragment {depth : Nat} {text : List Char}
    (h : readFragment depth scope text = .ok e) (ht : scope.inLoop → LacksWord loopWord text) :
    e.LoopFree := by
  cases depth with
  | zero => cases h
  | succ depth =>
    obtain ⟨nodes, hnodes, h⟩ := bind_eq_ok.mp h
    obtain ⟨es, hparse, hnodes⟩ := bind_eq_ok.mp hnodes
    obtain ⟨ts, htokens, hes⟩ := bind_eq_ok.mp hparse
    unfold outputExpr at h
    split at h
    · cases h
      obtain ⟨el, rfl, hel⟩ := exists_of_toNodes_singleton hnodes
      obtain ⟨value, span, rfl, he⟩ := exists_value_of_toNode hel
      cases derives_of_ofTokens hes with
      | output hv _ _ hs =>
        cases hs
        refine loopFree_of_parseValue hv he fun hin => ?_
        exact lacksWord_of_tokenize htokens (lacksWord_fragmentSource (ht hin))
    · cases h

/-! ### Tokens that are read as an echo -/

/-- If the tokens are fed to a tree that is being built, they add elements that are read as an echo
of the nodes, with a text `s` before them. -/
def Echoed (s : List Char) (nodes : List Node) (ts : List Token) : Prop :=
  ∀ b b', Feeds feed ts b b' → Proper b → ∃ es, b' = b.extend es ∧
    ∀ depth scope nodes', Element.toNodes (readFragment depth) scope es = .ok nodes' →
      Echoes loopWord scope s nodes nodes'

/-- The same for a node and a single element. -/
def EchoedNode (n : Node) (ts : List Token) : Prop :=
  ∀ b b', Feeds feed ts b b' → Proper b → ∃ e, b' = b.push e ∧
    ∀ depth scope n', Element.toNode (readFragment depth) scope e = .ok n' →
      EchoesNode loopWord scope n n'

/-- The tokens of the further arms of a block and its closing tag, with bodies that are read as
echoes. -/
inductive EchoedArms (subsequent closing : String) :
    List (Branch (List Node)) → List Token → Prop
  | closing {t : Tag} (ht : t.name = closing) : EchoedArms subsequent closing [] [.tag t]
  | arm {e : Expr} {text : String} {body : List Node} {trim : Trim}
      {arms : List (Branch (List Node))} {head : Tag} {ts us : List Token}
      (he : grammar.text e = .ok text) (hh : IsTag head subsequent text.toList trim)
      (hb : Echoed [] body ts) (hs : EchoedArms subsequent closing arms us) :
      EchoedArms subsequent closing (⟨some e, body, trim⟩ :: arms) (.tag head :: (ts ++ us))
  | otherwise {body : List Node} {trim : Trim} {arms : List (Branch (List Node))} {head : Tag}
      {ts us : List Token} (hh : IsTag head "else" [] trim) (hb : Echoed [] body ts)
      (hs : EchoedArms subsequent closing arms us) :
      EchoedArms subsequent closing (⟨none, body, trim⟩ :: arms) (.tag head :: (ts ++ us))

variable {s : List Char} {n : Node} {nodes body : List Node} {ts us : List Token} {t o c : Tag}
  {text x : String} {trim elseTrim endTrim : Trim} {arms : List (Branch (List Node))}
  {b b' : Builder} {block : Block} {es : List Element}

theorem Echoed.nil : Echoed [] [] [] := by
  intro b b' h _
  obtain rfl : b = b' := Except.ok.inj h
  refine ⟨[], rfl, fun depth scope nodes' h => ?_⟩
  rw [Element.toNodes] at h
  obtain rfl := Except.ok.inj h
  exact .nil

theorem Echoed.cons_text {content : String} (h : Echoed (s ++ content.toList) nodes ts) :
    Echoed s (.text content :: nodes) ts := by
  intro b b' hf hb
  obtain ⟨es, rfl, hes⟩ := h b b' hf hb
  exact ⟨es, rfl, fun depth scope nodes' hn => (hes depth scope nodes' hn).text⟩

theorem EchoedNode.cons (hn : EchoedNode n ts) (hs : Echoed [] nodes us) :
    Echoed [] (n :: nodes) (ts ++ us) := by
  intro b b' h hb
  obtain ⟨m, hm, h⟩ := h.of_append
  obtain ⟨e, rfl, he⟩ := hn b m hm hb
  obtain ⟨es, rfl, hes⟩ := hs (b.push e) b' h hb
  refine ⟨e :: es, Nesting.extend_push b e es, fun depth scope nodes' h => ?_⟩
  obtain ⟨n', more, hn', hmore, rfl⟩ := Element.exists_of_toNodes_cons h
  exact (he depth scope n' hn').cons (hes depth scope more hmore)

theorem SpelledText.echoed (hs : SpelledText s ts) (h : Echoed [] nodes us) :
    Echoed s nodes (ts ++ us) := by
  cases hs with
  | nil => exact h
  | html p =>
    intro b b' hf hb
    obtain ⟨m, hm, hf⟩ := hf.of_cons
    cases hm
    obtain ⟨es, rfl, hes⟩ := h (b.push (.html p)) b' hf hb
    refine ⟨.html p :: es, Nesting.extend_push b (.html p) es, fun depth scope nodes' h => ?_⟩
    obtain ⟨n', more, hn', hmore, rfl⟩ := Element.exists_of_toNodes_cons h
    rw [Element.toNode] at hn'
    obtain rfl := Except.ok.inj hn'
    exact (hes depth scope more hmore).cons_text

/-! ### Outputs and single tags -/

/-- A token that adds an element, if it is read. -/
theorem EchoedNode.single {token : Token}
    (h : ∀ b b', Proper b → feed b token = .ok b' → ∃ e, b' = b.push e ∧
      ∀ depth scope n', Element.toNode (readFragment depth) scope e = .ok n' →
        EchoesNode loopWord scope n n') : EchoedNode n [token] := by
  intro b b' hf hb
  obtain ⟨m, hm, hf⟩ := hf.of_cons
  obtain rfl : m = b' := Except.ok.inj hf
  exact h b m hb hm

theorem EchoedNode.output (h : grammar.text e = .ok text) {inner : Piece}
    (hi : inner.text = ' ' :: text.toList ++ [' ']) (span : Span) (trim : Trim) :
    EchoedNode (.output e trim) [.output inner span trim] := by
  refine .single fun b b' _ hf => ?_
  obtain ⟨value, hv, rfl⟩ := map_eq_ok.mp hf
  refine ⟨_, rfl, fun depth scope n' hn => ?_⟩
  rw [Element.toNode] at hn
  obtain ⟨e', he, rfl⟩ := map_eq_ok.mp hn
  refine .leaf rfl rfl fun hA => List.forall_mem_singleton.mpr ?_
  refine loopFree_of_parseValue hv he fun hin => ?_
  rw [hi]
  exact (Text.ClearOf.pad isWord_loopWord
    (spares_grammar.text ((hA hin).exprs e List.mem_cons_self) h)).lacks

theorem EchoedNode.comment (ho : o.name = "comment") {content : Piece} :
    EchoedNode (.comment content.toString trim endTrim) [.verbatim o content c] := by
  refine .single fun b b' _ hf => ?_
  obtain rfl := Except.ok.inj hf
  refine ⟨_, rfl, fun depth scope n' hn => ?_⟩
  rw [Element.toNode, readVerbatimBlock, if_pos (by simp [ho])] at hn
  obtain rfl := Except.ok.inj hn
  exact .leaf rfl rfl fun _ => by simp [Node.exprs]

theorem EchoedNode.raw (ho : o.name = "raw") {content : Piece} :
    EchoedNode (.raw content.toString trim endTrim) [.verbatim o content c] := by
  refine .single fun b b' _ hf => ?_
  obtain rfl := Except.ok.inj hf
  refine ⟨_, rfl, fun depth scope n' hn => ?_⟩
  rw [Element.toNode, readVerbatimBlock, if_neg (by simp [ho])] at hn
  obtain rfl := Except.ok.inj hn
  exact .leaf rfl rfl fun _ => by simp [Node.exprs]

/-- A tag that opens no block is read as a node with nothing inside it, whose expression, if there
is one, is a fragment of its arguments. -/
theorem leaf_of_readSingleTag {depth : Nat} {n' : Node}
    (h : readSingleTag (readFragment depth) scope t = .ok n') (hw : n.whole = .nil)
    (hn : n.Spares loopWord → LacksWord loopWord t.args.text)
    (hcut : n.Spares loopWord → t.name = "assign" → ∀ before rest,
      Text.cut? ['='] t.args.text = some (before, rest) → ∀ c ∈ before, Text.isQuote c = false) :
    EchoesNode loopWord scope n n' := by
  cases nodeOf_of_readSingleTag h with
  | assign hname hvalue he =>
    refine .leaf hw.symm rfl fun hA => List.forall_mem_singleton.mpr ?_
    refine loopFree_readFragment he fun hin => lacksWord_of_cut? (hn (hA hin)) hvalue ?_ ?_
    · exact List.forall_mem_append.mpr ⟨hcut (hA hin) hname _ _ hvalue, by decide⟩
    · simp only [List.getLast?_append, List.getLast?_singleton, Option.some_or]
      decide
  | subtemplate hname hs he =>
    refine .leaf hw.symm rfl fun hA => List.forall_mem_singleton.mpr ?_
    exact loopFree_readFragment he fun hin => hn (hA hin)
  | passOn => exact .leaf hw.symm rfl fun _ => by simp [Node.exprs]

theorem EchoedNode.tag (hb : t.name ∉ blockNames) (hs : t.name ∉ structural) (hw : n.whole = .nil)
    (hn : n.Spares loopWord → LacksWord loopWord t.args.text)
    (hcut : n.Spares loopWord → t.name = "assign" → ∀ before rest,
      Text.cut? ['='] t.args.text = some (before, rest) → ∀ c ∈ before, Text.isQuote c = false) :
    EchoedNode n [.tag t] := by
  refine .single fun b b' hb' hf => ?_
  rw [feed_single hb' hs hb] at hf
  obtain rfl := Except.ok.inj hf
  refine ⟨_, rfl, fun depth scope n' h => ?_⟩
  rw [Element.toNode] at h
  exact leaf_of_readSingleTag h hw hn hcut

theorem EchoedNode.assign (h : grammar.text e = .ok text)
    (ht : IsTag t "assign" (x.toList ++ " = ".toList ++ text.toList) trim) :
    EchoedNode (.assignment x (some e) none trim endTrim) [.tag t] := by
  refine .tag (by rw [ht.name]; decide) (by rw [ht.name]; decide) rfl (fun hA => ?_)
    fun hA _ before rest hcut c hc => ?_
  · have hsign : Text.ClearOf loopWord ['='] := .of_absent (by decide)
    rw [ht.args]
    exact (Text.ClearOf.join_sign isWord_loopWord (hA.clearOf List.mem_cons_self) hsign
      (spares_grammar.text (hA.exprs e List.mem_cons_self) h)).lacks
  · have hbefore : before <+: x.toList ++ [' '] := by
      have hargs : t.args.text = (x.toList ++ [' ']) ++ (['='] ++ ' ' :: text.toList) := by
        simpa using ht.args
      exact Text.prefix_of_cut? (hargs ▸ hcut)
    rcases List.mem_append.mp (hbefore.subset hc) with hc | hc
    · exact hA.unquoted x List.mem_cons_self c hc
    · rw [List.mem_singleton.mp hc]
      decide

theorem EchoedNode.subtemplate (h : grammar.text e = .ok text)
    (ht : IsTag t "include" text.toList trim) (ignoreMissing : Bool) :
    EchoedNode (.subtemplate e ignoreMissing trim) [.tag t] := by
  refine .tag (by rw [ht.name]; decide) (by rw [ht.name]; decide) rfl (fun hA => ?_)
    fun _ hname => absurd (ht.name.symm.trans hname) (by decide)
  rw [ht.args]
  exact (spares_grammar.text (hA.exprs e List.mem_cons_self) h).lacks

theorem EchoedNode.passedOn {name args : String} (hb : name ∉ blockNames) (hs : name ∉ structural)
    (ht : IsTag t name args.toList trim) : EchoedNode (.tag name args [] trim) [.tag t] := by
  refine .tag (ht.name ▸ hb) (ht.name ▸ hs) rfl (fun hA => ?_) fun hA _ before rest hcut c hc => ?_
  · rw [ht.args]
    exact hA.lacks args List.mem_cons_self
  · refine hA.unquoted args List.mem_cons_self c ?_
    rw [← ht.args, Text.cut?_eq_some hcut]
    simp [hc]

/-! ### Captures and loops -/

theorem EchoedNode.capture (ho : IsTag o "capture" x.toList trim) (hb : Echoed [] body ts)
    (hc : c.name = "endcapture") :
    EchoedNode (.assignment x none (some body) trim endTrim) (.tag o :: (ts ++ [.tag c])) := by
  intro b b' hf hp
  obtain ⟨_, hopen, hf⟩ := hf.of_cons
  rw [feed_capture hp ho.name] at hopen
  obtain rfl := Except.ok.inj hopen
  obtain ⟨_, hbody, hf⟩ := hf.of_append
  obtain ⟨es, rfl, hes⟩ := hb _ _ hbody (hp.enter (mem_blockNames_of_eq ho.name (by decide)))
  obtain ⟨_, hclose, hf⟩ := hf.of_cons
  rw [feed_close (e := .capture o es c) (by simp [Block.advance, hc])] at hclose
  obtain rfl := Except.ok.inj hclose
  obtain rfl := Except.ok.inj hf
  refine ⟨_, rfl, fun depth scope n' hn => ?_⟩
  cases Element.nodeOf hn with
  | capture htarget hbody => exact .capture (hes depth scope _ hbody)

/-- A tag that only stands inside a block is refused where it does not go on with the block. -/
theorem feed_ne_ok (ht : t.name ∈ structural) (h : block.advance t es = .ok .foreign) :
    feed ((b.enter block).extend es) (.tag t) ≠ .ok b' := by
  rw [feed, Nesting.advance_otherwise h, openTag, if_pos (by simpa using ht)]
  exact fun hf => by cases hf

/-- After the alternative of a block, only its closing tag called `name` goes on with it. -/
def EndsNext (name : String) (alternative : Tag → Block) : Prop :=
  ∀ (head t : Tag) (body : List Element), t.name ≠ name →
    (alternative head).advance t body = .ok .foreign

theorem endsNext_clauseElse (opening : Tag) (done : Clauses (Clause Element)) :
    EndsNext ("end" ++ opening.name) (.clauseElse opening done) := by
  intro head t body ht
  simp [Block.advance, ht]

theorem endsNext_caseElse (opening : Tag) (subject : Value) (done : List (When Element)) :
    EndsNext "endcase" (.caseElse opening subject done) := by
  intro head t body ht
  simp [Block.advance, ht]

theorem endsNext_loopElse (opening : Tag) (done : List Element) :
    EndsNext "endfor" (.loopElse opening done) := by
  intro head t body ht
  simp [Block.advance, ht]

/-- A block was closed, and its alternative is read as an echo of the arms. -/
def EchoedEnd (arms : List (Branch (List Node)))
    (element : Option (Alternative Element) → Tag → Element) (b b' : Builder) : Prop :=
  ∃ otherwise closing, b' = b.push (element otherwise closing) ∧ ∀ depth scope alternative,
    Element.toAlternative (readFragment depth) scope otherwise = .ok alternative →
      EchoesArms loopWord scope arms (Branch.ofAlternative alternative)

variable {subsequent last : String} {element : Option (Alternative Element) → Tag → Element}
  {alternative : Tag → Block} {head opening : Tag}

theorem EchoedEnd.closing (he : CanEnd last block es element alternative) (ht : t.name = last)
    (hf : Feeds feed [.tag t] ((b.enter block).extend es) b') : EchoedEnd [] element b b' := by
  obtain ⟨_, hclose, hf⟩ := hf.of_cons
  rw [feed_close (he.close t ht)] at hclose
  obtain rfl := Except.ok.inj hclose
  obtain rfl := Except.ok.inj hf
  refine ⟨none, t, rfl, fun depth scope alternative h => ?_⟩
  rw [Element.toAlternative] at h
  obtain rfl := Except.ok.inj h
  exact .nil

/-- An alternative is the last arm: whatever else comes before the closing tag is refused. -/
theorem EchoedEnd.otherwise (hb : Proper b) (he : CanEnd last block es element alternative)
    (hn : EndsNext last alternative) (hsub : subsequent ∈ structural ∧ subsequent ≠ last)
    (hlast : "else" ≠ last) (hh : IsTag head "else" [] trim) (hbody : Echoed [] body ts)
    (hs : EchoedArms subsequent last arms us)
    (hf : Feeds feed (.tag head :: (ts ++ us)) ((b.enter block).extend es) b') :
    EchoedEnd (⟨none, body, trim⟩ :: arms) element b b' := by
  obtain ⟨_, helse, hf⟩ := hf.of_cons
  rw [feed_enter (he.enter head hh.name)] at helse
  obtain rfl := Except.ok.inj helse
  obtain ⟨_, hinner, hf⟩ := hf.of_append
  obtain ⟨es', rfl, hes⟩ := hbody _ _ hinner (hb.enter (he.opening head))
  cases hs with
  | closing ht =>
    obtain ⟨_, hclose, hf⟩ := hf.of_cons
    rw [feed_close (he.closeElse head _ es' ht)] at hclose
    obtain rfl := Except.ok.inj hclose
    obtain rfl := Except.ok.inj hf
    refine ⟨some ⟨head, es'⟩, _, rfl, fun depth scope alternative h => ?_⟩
    rw [Element.toAlternative] at h
    obtain ⟨nodes, hnodes, rfl⟩ := bind_pure_eq_ok.mp h
    exact .cons (fun _ => by simp) (hes depth scope nodes hnodes) .nil
  | arm _ hh' =>
    obtain ⟨_, hnext, -⟩ := hf.of_cons
    exact absurd hnext (feed_ne_ok (hh'.name ▸ hsub.1) (hn head _ es' (hh'.name ▸ hsub.2)))
  | otherwise hh' =>
    obtain ⟨_, hnext, -⟩ := hf.of_cons
    refine absurd hnext (feed_ne_ok ?_ (hn head _ es' (hh'.name ▸ hlast)))
    rw [hh'.name]
    decide

/-- Arms without conditions are the end of a block. -/
theorem EchoedArms.echoedEnd (h : EchoedArms subsequent last arms ts) (hb : Proper b)
    (he : CanEnd last block es element alternative) (hn : EndsNext last alternative)
    (hsub : subsequent ∈ structural ∧ subsequent ≠ last) (hlast : "else" ≠ last)
    (hc : ∀ arm ∈ arms, arm.condition = none)
    (hf : Feeds feed ts ((b.enter block).extend es) b') : EchoedEnd arms element b b' := by
  cases h with
  | closing ht => exact .closing he ht hf
  | arm => cases hc _ List.mem_cons_self
  | otherwise hh hbody hs => exact .otherwise hb he hn hsub hlast hh hbody hs hf

theorem EchoedNode.loop {otherwise : Option (List Node)} (h : grammar.text e = .ok text)
    (ho : IsTag o "for" (x.toList ++ " in ".toList ++ text.toList) trim) (hb : Echoed [] body ts)
    (hs : EchoedArms "else" "endfor" (otherwise.toList.map fun nodes => ⟨none, nodes, elseTrim⟩)
      us) :
    EchoedNode (.loop x e body otherwise trim elseTrim endTrim) (.tag o :: (ts ++ us)) := by
  intro b b' hf hp
  obtain ⟨_, hopen, hf⟩ := hf.of_cons
  rw [feed_loop hp ho.name] at hopen
  obtain rfl := Except.ok.inj hopen
  obtain ⟨_, hbody, hf⟩ := hf.of_append
  obtain ⟨es, rfl, hes⟩ := hb _ _ hbody (hp.enter (mem_blockNames_of_eq ho.name (by decide)))
  obtain ⟨alternative, closing, rfl, hend⟩ := hs.echoedEnd hp (canEnd_loop ho.name es)
    (endsNext_loopElse o es) (by decide) (by decide) (by simp) hf
  refine ⟨_, rfl, fun depth scope n' hn => ?_⟩
  cases Element.nodeOf hn with
  | loop hheader hbody halternative =>
    refine .loop (fun hA => ?_) (hes depth _ _ hbody) (hend depth scope _ halternative)
    obtain ⟨before, rest, hcut, -, -, he, -⟩ := readLoopHeader_eq_ok_iff.mp hheader
    refine loopFree_readFragment he fun hin => ?_
    have hsign : Text.ClearOf loopWord ['i', 'n'] := .of_absent (by decide)
    have hargs := Text.ClearOf.join_sign isWord_loopWord ((hA hin).clearOf List.mem_cons_self) hsign
      (spares_grammar.text ((hA hin).exprs e List.mem_cons_self) h)
    rw [ho.args] at hcut
    refine lacksWord_of_cut? hargs.lacks hcut ?_ ?_
    · have hbefore : before <+: x.toList := Text.prefix_of_cut? (List.append_assoc .. ▸ hcut)
      refine List.forall_mem_append.mpr ⟨fun c hc => ?_, by decide⟩
      exact (hA hin).unquoted x List.mem_cons_self c (hbefore.subset hc)
    · have hspace : " in ".toList.getLast? = some ' ' := by decide
      rw [List.getLast?_append, hspace]
      exact fun c hc => Option.some.inj hc ▸ by decide

/-! ### Conditionals -/

theorem readCondition_eq_ok {condition : Chain} (h : readCondition t = .ok condition) :
    parseChain t.args = .ok condition := by
  unfold readCondition at h
  split at h
  · cases h
  · exact h

/-- A condition that is read from the text of a condition. -/
theorem loopFree_of_readCondition {condition : Chain} (hc : readCondition t = .ok condition)
    (h : grammar.text e = .ok text) (ht : t.args.text = text.toList)
    (he : scope.inLoop → ∀ e' ∈ some e, e'.Spares loopWord) :
    ∀ e' ∈ some (condition.toExpr scope), e'.LoopFree := by
  rintro _ ⟨⟩
  refine loopFree_of_parseChain (readCondition_eq_ok hc) fun hin => ?_
  rw [ht]
  exact (spares_grammar.text (he hin e rfl) h).lacks

/-- A conditional was closed, and the clauses that came last are read as an echo of the arms. -/
def EchoedClauses (arms : List (Branch (List Node))) (clauses : Clauses (Clause Element))
    (b b' : Builder) : Prop :=
  ∃ more otherwise closing,
    b' = b.push (.conditional clauses.first (clauses.rest ++ more) otherwise closing) ∧
      ∀ depth scope arms' alternative,
        Element.clauseArms (readFragment depth) scope more = .ok arms' →
        Element.toAlternative (readFragment depth) scope otherwise = .ok alternative →
          EchoesArms loopWord scope arms (arms' ++ Branch.ofAlternative alternative)

theorem EchoedEnd.clauses {clauses : Clauses (Clause Element)}
    (h : EchoedEnd arms (.conditional clauses.first clauses.rest) b b') :
    EchoedClauses arms clauses b b' := by
  obtain ⟨otherwise, closing, rfl, h⟩ := h
  refine ⟨[], otherwise, closing, by rw [List.append_nil], fun depth scope arms' result ha hr => ?_⟩
  rw [Element.clauseArms] at ha
  obtain rfl := Except.ok.inj ha
  exact h depth scope result hr

/-- A further clause is opened only by a condition. -/
theorem exists_clause_of_feed {done : Option (Clauses (Clause Element))} {condition : Chain}
    (ht : t.name = "elsif")
    (hf : feed ((b.enter (.clause opening done head condition)).extend es) (.tag t) = .ok b') :
    ∃ next, readCondition t = .ok next ∧ b' = b.enter (.clause opening
      (some (Clauses.extend done ⟨head, condition, es⟩)) t next) := by
  cases hc : readCondition t with
  | error x =>
    have hstep : (Block.clause opening done head condition).advance t es = .error x := by
      simp only [Block.advance, ht, hc]
      rfl
    rw [feed, Nesting.advance_error hstep] at hf
    cases hf
  | ok next =>
    rw [feed_enter (advance_elsif ht hc)] at hf
    exact ⟨next, rfl, (Except.ok.inj hf).symm⟩

theorem EchoedArms.clauses (h : EchoedArms "elsif" last arms ts) (hl : last = "end" ++ opening.name)
    (ho : opening.name = "if" ∨ opening.name = "unless") (hb : Proper b)
    (done : Option (Clauses (Clause Element))) (head : Tag) (condition : Chain)
    (hf : Feeds feed ts ((b.enter (.clause opening done head condition)).extend es) b') :
    EchoedClauses arms (Clauses.extend done ⟨head, condition, es⟩) b b' := by
  have hend := canEnd_clause ho done head condition es
  have hnext := endsNext_clauseElse opening (Clauses.extend done ⟨head, condition, es⟩)
  have hsub : "elsif" ≠ last := by rcases ho with h | h <;> rw [hl, h] <;> decide
  have hlast : "else" ≠ last := by rcases ho with h | h <;> rw [hl, h] <;> decide
  rw [← hl] at hend hnext
  induction h generalizing done head condition es with
  | closing ht => exact (EchoedEnd.closing hend ht hf).clauses
  | otherwise hh hbody hs =>
    exact (EchoedEnd.otherwise hb hend hnext ⟨by decide, hsub⟩ hlast hh hbody hs hf).clauses
  | @arm e text body trim arms t ts us he hh hbody hs ih =>
    obtain ⟨_, helsif, hf⟩ := hf.of_cons
    obtain ⟨next, hc, rfl⟩ := exists_clause_of_feed hh.name helsif
    obtain ⟨_, hinner, hf⟩ := hf.of_append
    obtain ⟨es', rfl, hes⟩ := hbody _ _ hinner (hb.enter (mem_blockNames_of_conditional ho))
    obtain ⟨more, otherwise, closing, rfl, harms⟩ := ih (some _) t next hf
      (hl ▸ canEnd_clause ho (some _) t next es') (hl ▸ endsNext_clauseElse opening _)
    refine ⟨⟨t, next, es'⟩ :: more, otherwise, closing, by simp [Clauses.extend], ?_⟩
    intro depth scope arms' alternative ha halternative
    obtain ⟨nodes, arms', hnodes, harms', rfl⟩ := Element.exists_of_clauseArms_cons ha
    exact .cons (loopFree_of_readCondition hc he hh.args) (hes depth scope nodes hnodes)
      (harms depth scope arms' alternative harms' halternative)

/-- A conditional is opened only by a condition. -/
theorem exists_condition_of_feed (hb : Proper b) (ho : o.name = "if" ∨ o.name = "unless")
    (hf : feed b (.tag o) = .ok b') :
    ∃ condition, readCondition o = .ok condition ∧ b' = b.enter (.clause o none o condition) := by
  cases hc : readCondition o with
  | error =>
    have hdisjoint : ∀ name ∈ blockNames, name ∉ structural := by decide
    have hopen : Block.open? o = (readCondition o).map fun condition =>
        some (.clause o none o condition) := by
      rcases ho with h | h <;> simp [Block.open?, h]
    rw [feed_openTag hb (hdisjoint _ (mem_blockNames_of_conditional ho)), hopen, hc] at hf
    cases hf
  | ok condition =>
    rw [feed_conditional hb ho hc] at hf
    exact ⟨condition, rfl, (Except.ok.inj hf).symm⟩

theorem EchoedNode.conditional {kind : Variant} {headTrim : Trim}
    (ho : o.name = "if" ∨ o.name = "unless") (h : grammar.text e = .ok text)
    (ha : o.args.text = text.toList) (hb : Echoed [] body ts)
    (hs : EchoedArms "elsif" ("end" ++ o.name) arms us) :
    EchoedNode (.conditional kind (⟨some e, body, headTrim⟩ :: arms) trim endTrim)
      (.tag o :: (ts ++ us)) := by
  intro b b' hf hp
  obtain ⟨_, hopen, hf⟩ := hf.of_cons
  obtain ⟨condition, hc, rfl⟩ := exists_condition_of_feed hp ho hopen
  obtain ⟨_, hbody, hf⟩ := hf.of_append
  obtain ⟨es, rfl, hes⟩ := hb _ _ hbody (hp.enter (mem_blockNames_of_conditional ho))
  obtain ⟨clauses, otherwise, closing, rfl, harms⟩ := hs.clauses rfl ho hp none o condition hf
  refine ⟨_, rfl, fun depth scope n' hn => ?_⟩
  rw [Clauses.extend, List.nil_append] at hn
  cases Element.nodeOf hn with
  | conditional hbody harms' halternative =>
    have hmore := harms depth scope _ _ harms' halternative
    exact (EchoesArms.cons (loopFree_of_readCondition hc h ha) (hes depth scope _ hbody)
      hmore).conditional (by simp) sparingArms_of_conditional

/-! ### Case distinctions -/

/-- A case distinction was closed, and the clauses that came last are read as an echo of the
arms. -/
def EchoedWhens (arms : List (Branch (List Node))) (opening : Tag) (subject : Value)
    (whens : List (When Element)) (b b' : Builder) : Prop :=
  ∃ more otherwise closing,
    b' = b.push (.caseOf opening subject (whens ++ more) otherwise closing) ∧
      ∀ depth scope arms' alternative,
        Element.whenArms (readFragment depth) scope more = .ok arms' →
        Element.toAlternative (readFragment depth) scope otherwise = .ok alternative →
          EchoesArms loopWord scope arms (arms' ++ Branch.ofAlternative alternative)

variable {subject : Value} {done : List (When Element)}

theorem EchoedEnd.whens (h : EchoedEnd arms (.caseOf opening subject done) b b') :
    EchoedWhens arms opening subject done b b' := by
  obtain ⟨otherwise, closing, rfl, h⟩ := h
  refine ⟨[], otherwise, closing, by rw [List.append_nil], fun depth scope arms' result ha hr => ?_⟩
  rw [Element.whenArms] at ha
  obtain rfl := Except.ok.inj ha
  exact h depth scope result hr

/-- A further clause is opened only by values. -/
theorem exists_when_of_feed (hg : CanGoOn opening subject done block es) (ht : t.name = "when")
    (hf : feed ((b.enter block).extend es) (.tag t) = .ok b') :
    ∃ values, parseWhen t.args = .ok values ∧
      b' = b.enter (.caseWhen opening subject done t values) := by
  cases hv : parseWhen t.args with
  | error x =>
    have hstep : block.advance t es = .error x := by
      rw [hg.next t ht, enterWhen, hv]
      rfl
    rw [feed, Nesting.advance_error hstep] at hf
    cases hf
  | ok values =>
    rw [feed_enter (hg.advance ht hv)] at hf
    exact ⟨values, rfl, (Except.ok.inj hf).symm⟩

theorem EchoedArms.whens (h : EchoedArms "when" "endcase" arms ts) (ho : opening.name = "case")
    (hb : Proper b) (hg : CanGoOn opening subject done block es)
    (hf : Feeds feed ts ((b.enter block).extend es) b') :
    EchoedWhens arms opening subject done b b' := by
  induction h generalizing done block es with
  | closing ht => exact (EchoedEnd.closing hg.canEnd ht hf).whens
  | otherwise hh hbody hs =>
    exact (EchoedEnd.otherwise hb hg.canEnd (endsNext_caseElse opening subject done) (by decide)
      (by decide) hh hbody hs hf).whens
  | @arm e text body trim arms t ts us he hh hbody hs ih =>
    obtain ⟨_, hwhen, hf⟩ := hf.of_cons
    obtain ⟨values, hv, rfl⟩ := exists_when_of_feed hg hh.name hwhen
    obtain ⟨_, hinner, hf⟩ := hf.of_append
    obtain ⟨es', rfl, hes⟩ := hbody _ _ hinner (hb.enter (mem_blockNames_of_eq ho (by decide)))
    obtain ⟨more, otherwise, closing, rfl, harms⟩ :=
      ih (canGoOn_caseWhen ho subject done t values es') hf
    refine ⟨⟨t, values, es'⟩ :: more, otherwise, closing, by simp, ?_⟩
    intro depth scope arms' alternative ha halternative
    obtain ⟨nodes, arms', hnodes, harms', rfl⟩ := Element.exists_of_whenArms_cons ha
    refine .cons (fun hC => ?_) (hes depth scope nodes hnodes)
      (harms depth scope arms' alternative harms' halternative)
    rintro _ ⟨⟩
    refine loopFree_whenCondition hv fun hin => ?_
    rw [hh.args]
    exact (spares_grammar.text (hC hin e rfl) he).lacks

/-- A case distinction is opened only by a value. -/
theorem exists_subject_of_feed (hb : Proper b) (ho : o.name = "case")
    (hf : feed b (.tag o) = .ok b') :
    ∃ subject, parseValue o.args = .ok subject ∧ b' = b.enter (.caseHead o subject) := by
  cases hv : parseValue o.args with
  | error =>
    have hopen : Block.open? o = (parseValue o.args).map fun subject =>
        some (.caseHead o subject) := by
      simp [Block.open?, ho]
    rw [feed_openTag hb (by rw [ho]; decide), hopen, hv] at hf
    cases hf
  | ok subject =>
    rw [feed_case hb ho hv] at hf
    exact ⟨subject, rfl, (Except.ok.inj hf).symm⟩

/-- The elements between the opening tag of a case distinction and its first clause are left out, so
nothing may be written there. -/
theorem EchoedNode.caseOf {headTrim : Trim} (ho : o.name = "case") (h : grammar.text e = .ok text)
    (ha : o.args.text = text.toList) (hb : Echoed [] [] ts)
    (hs : EchoedArms "when" "endcase" arms us) :
    EchoedNode (.conditional .caseOf (⟨some e, [], headTrim⟩ :: arms) trim endTrim)
      (.tag o :: (ts ++ us)) := by
  intro b b' hf hp
  obtain ⟨_, hopen, hf⟩ := hf.of_cons
  obtain ⟨subject, hv, rfl⟩ := exists_subject_of_feed hp ho hopen
  obtain ⟨_, hskipped, hf⟩ := hf.of_append
  obtain ⟨es, rfl, -⟩ := hb _ _ hskipped (hp.enter (mem_blockNames_of_eq ho (by decide)))
  obtain ⟨whens, otherwise, closing, rfl, harms⟩ :=
    hs.whens ho hp (canGoOn_caseHead ho subject es) hf
  refine ⟨_, rfl, fun depth scope n' hn => ?_⟩
  rw [List.nil_append] at hn
  cases Element.nodeOf hn with
  | caseOf hsubject harms' halternative =>
    have hmore := harms depth scope _ _ harms' halternative
    refine (EchoesArms.cons (fun hC => ?_) .nil hmore).conditional (by simp)
      sparingArms_of_conditional
    rintro _ ⟨⟩
    refine loopFree_of_parseValue hv hsubject fun hin => ?_
    rw [ha]
    exact (spares_grammar.text (hC hin e rfl) h).lacks

/-! ### Whole templates -/

/-- The further arms of a block, given their bodies. -/
theorem SpelledArms.echoed {subsequent closing : String} {arms : List (Branch (List Node))}
    {ts : List Token} (h : SpelledArms subsequent closing arms ts)
    (hb : ∀ arm ∈ arms, ∀ us, Spelled [] arm.body us → Echoed [] arm.body us) :
    EchoedArms subsequent closing arms ts := by
  match h with
  | .closing ht => exact .closing ht
  | .arm he hh hbody hs =>
    rw [List.forall_mem_cons] at hb
    exact .arm he hh (hb.1 _ hbody) (hs.echoed hb.2)
  | .otherwise hh hbody hs =>
    rw [List.forall_mem_cons] at hb
    exact .otherwise hh (hb.1 _ hbody) (hs.echoed hb.2)

/-- The words of the conditionals, by the tags that they are read as. -/
theorem EchoedNode.ofKind {kind : Variant} {headTrim : Trim} (hk : kind = .caseOf → body = [])
    (h : grammar.text e = .ok text)
    (ho : IsTag o (conditionalWords kind).opening text.toList trim) (hb : Echoed [] body ts)
    (hs : EchoedArms (conditionalWords kind).subsequent (conditionalWords kind).closing arms us) :
    EchoedNode (.conditional kind (⟨some e, body, headTrim⟩ :: arms) trim endTrim)
      (.tag o :: (ts ++ us)) := by
  cases kind with
  | ifTrue => exact .conditional (.inl ho.name) h ho.args hb (ho.name ▸ hs)
  | ifFalse => exact .conditional (.inr ho.name) h ho.args hb (ho.name ▸ hs)
  | caseOf =>
    obtain rfl := hk rfl
    exact .caseOf ho.name h ho.args hb hs

mutual

/-- The tokens of a contained template are read as an echo of it, if they are read. -/
theorem Contained.echoed {s : List Char} {nodes : List Node} (h : Contained s nodes)
    {ts : List Token} (hs : Spelled s nodes ts) : Echoed s nodes ts := by
  match h with
  | .nil _ =>
    cases hs with
    | nil ht =>
      rw [← List.append_nil ts]
      exact ht.echoed .nil
  | .text h =>
    cases hs with
    | text hs => exact (h.echoed hs).cons_text
    | node _ hn => cases hn
  | .node _ hn h =>
    cases hs with
    | text => cases hn
    | node ht hnode hs => exact ht.echoed ((hn.echoed hnode).cons (h.echoed hs))

/-- The same for a single node. -/
theorem ContainedNode.echoed {n : Node} (h : ContainedNode n) {ts : List Token}
    (hs : SpelledNode n ts) : EchoedNode n ts := by
  match h with
  | .output _ trim =>
    cases hs with
    | output he hi => exact .output he hi _ trim
  | .conditional _ hb hk _ hbs headTrim trim endTrim =>
    cases hs with
    | conditional he ho hbody harms =>
      exact .ofKind hk he ho (hb.echoed hbody)
        (harms.echoed fun arm harm _ => (hbs arm harm).echoed)
  | .loop _ _ hb ho trim elseTrim endTrim =>
    cases hs with
    | loop _ he hopen hbody harms =>
      refine .loop he hopen (hb.echoed hbody) (harms.echoed fun arm harm us hus => ?_)
      obtain ⟨nodes, hnodes, rfl⟩ := List.mem_map.mp harm
      exact (ho nodes (Option.mem_toList.mp hnodes)).echoed hus
  | .assign _ _ trim endTrim =>
    cases hs with
    | assign _ he ht => exact .assign he ht
  | .capture _ hb trim endTrim =>
    cases hs with
    | capture _ ho hbody hc => exact .capture ho (hb.echoed hbody) hc.name
  | .comment _ trim endTrim =>
    cases hs with
    | comment ho hbody => exact hbody ▸ .comment ho.name
  | .raw _ trim endTrim =>
    cases hs with
    | raw ho hbody => exact hbody ▸ .raw ho.name
  | .subtemplate _ ignoreMissing trim =>
    cases hs with
    | subtemplate he ht => exact .subtemplate he ht ignoreMissing
  | .tag _ hn _ trim =>
    cases hs with
    | tag _ ht =>
      rw [List.mem_append, List.mem_append, not_or, not_or] at hn
      exact .passedOn hn.1.1 hn.1.2 ht

end

/-- What is read from a contained template that was written echoes it. -/
theorem echoes_of_write {nodes nodes' : List Node} {source : String} (hc : Contained [] nodes)
    (hw : write nodes = .ok source) (hr : read source = .ok nodes') :
    Echoes loopWord {} [] nodes nodes' := by
  obtain ⟨es, hparse, hnodes⟩ := bind_eq_ok.mp hr
  obtain ⟨ts, htokens, hes⟩ := bind_eq_ok.mp hparse
  have hspelled : Spelled [] nodes ts := by
    obtain ⟨us, hus, hspelled⟩ := hc.tokenizes hw 0 [] (.inl rfl)
    have htokens' : tokenize source = .ok us := by
      rw [tokenize, Piece.ofString]
      simpa [tokenizePiece_nil] using hus
    rwa [Except.ok.inj (htokens.symm.trans htokens')]
  obtain ⟨b, hb⟩ := Nesting.exists_feeds_of_run hes
  obtain ⟨es', rfl, hes'⟩ := hc.echoed hspelled {} b hb fun _ hp => absurd hp List.not_mem_nil
  rw [Element.ofTokens, hb.run] at hes
  obtain rfl := Except.ok.inj hes
  exact hes' _ _ _ hnodes

end Stencil.Liquid
