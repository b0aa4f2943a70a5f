import Stencil.Proofs.Avoidance
import Stencil.Proofs.Nunjucks.Containment
import Stencil.Proofs.Nunjucks.Template
import Stencil.Proofs.Nunjucks.Variables

/-!
# What is read where a template was written as Nunjucks

A contained template is written as chunks that follow its tree. If they are read at all, what is
read echoes the template: text, raw blocks and comments come back, and the loop object is read only
where something in the body of a loop is written with the word for it.

Nothing is said about whether the chunks are read. They are fed to a tree that is being built, and
as long as none of them is refused, the blocks that are built follow the nodes. What a tag holds is
known by its lexemes, and all variables of a term are names among them.

## Main results

* `Nunjucks.echoes_of_write` : what is read from a contained template echoes it.
-/

namespace Stencil.Nunjucks

open Nesting (Feeds)

/-! ### Terms without the loop object -/

/-- The term is made of tokens with the lexemes. -/
def Term.Uses (ls : List Lexeme) (x : Term) : Prop :=
  x.From fun t => t.lexeme ∈ ls

section Terms

variable {ls : List Lexeme} {ts rest : List Token} {x : Term} {ending : Ending} {scope : Scope}
  {e : Expr}

theorem mem_lexemes (hts : ts.map Token.lexeme = ls) : ∀ t ∈ ts, t.lexeme ∈ ls :=
  fun _ ht => hts ▸ List.mem_map_of_mem ht

theorem uses_of_parseTerm (hts : ∀ t ∈ ts, t.lexeme ∈ ls)
    (h : parseTerm ending ts = .ok (x, rest)) :
    x.Uses ls :=
  ((takes_parseTerm ending ts x rest h).of_forall hts).1

theorem uses_of_termToEnd (hts : ∀ t ∈ ts, t.lexeme ∈ ls) (h : termToEnd ending ts = .ok x) :
    x.Uses ls := by
  obtain ⟨⟨y, rest⟩, hy, h⟩ := bind_eq_ok.mp h
  obtain ⟨_, -, rfl⟩ := bind_pure_eq_ok.mp h
  exact uses_of_parseTerm hts hy

theorem exists_uses_of_bind {f : Term → Statement} {statement : Statement}
    (hts : ∀ t ∈ ts, t.lexeme ∈ ls)
    (h : (termToEnd ending ts >>= fun x => pure (f x)) = .ok statement) :
    ∃ x : Term, x.Uses ls ∧ statement = f x := by
  obtain ⟨x, hx, h⟩ := bind_eq_ok.mp h
  exact ⟨x, uses_of_termToEnd hts hx, (Except.ok.inj h).symm⟩

theorem uses_of_readOutputTerm {inside : Inside} (hts : inside.tokens.map Token.lexeme = ls)
    (h : readOutputTerm inside = .ok x) : x.Uses ls := by
  obtain ⟨⟨y, rest⟩, hy, h⟩ := bind_eq_ok.mp h
  simp only at h
  split at h
  · obtain rfl := Except.ok.inj h
    exact uses_of_parseTerm (mem_lexemes hts) hy
  · cases h

/-- A term without the word for the loop object. -/
theorem Term.Uses.loopFree (h : x.Uses ls) (hx : x.toExpr scope = .ok e)
    (hl : scope.inLoop → .word chainWords.loopVar ∉ ls) : e.LoopFree := by
  cases hs : scope.inLoop with
  | false => exact .of_everyRead (Term.every_toExpr scope x hx) hs
  | true =>
    have heq := Term.From.toExpr_eq h (fun name hname hloop => hl hs ?_) scope
    · rw [heq] at hx
      exact .of_everyRead (Term.every_toExpr {} x hx) rfl
    · rw [Lexeme.word, ← hloop, Piece.toString, String.toList_ofList]
      exact hname

/-- What is written for an expression has the word for the loop object among its lexemes only if the
expression refers to it or has the word. -/
theorem notMem_of_spares {text : String} (he : e.Spares loopWord) (h : grammar.text e = .ok text) :
    .word chainWords.loopVar ∉ lexemes text.toList :=
  notMem_lexemes isWord_loopWord (spares_grammar.text he h).lacks

end Terms

/-! ### What tags do if they are read -/

section Tags

variable {t : Inside} {pos : Nat} {word : String} {ls : List Lexeme} {b b' : Builder}
  {block : Block} {es : List Element} {first : String} {more : List String}

theorem readStatement_if (ending : Ending) (pos : Nat) (ts : List Token) :
    readStatement ending ⟨pos, "if".toList⟩ ts =
      (termToEnd ending ts).map fun condition => .enter (.clause none pos condition) := by
  simp [readStatement, Piece.toString]

theorem readStatement_for (ending : Ending) (pos : Nat) (ts : List Token) :
    readStatement ending ⟨pos, "for".toList⟩ ts = readLoop ending pos ts := by
  simp [readStatement, Piece.toString]

theorem readStatement_set (ending : Ending) (pos : Nat) (ts : List Token) :
    readStatement ending ⟨pos, "set".toList⟩ ts = readSet ending pos ts := by
  simp [readStatement, Piece.toString]

theorem readStatement_include (ending : Ending) (pos : Nat) (ts : List Token) :
    readStatement ending ⟨pos, "include".toList⟩ ts = readSubtemplate ending pos ts := by
  simp [readStatement, Piece.toString]

/-- What a statement adds to a tree. -/
def Statement.addTo (b : Builder) : Statement → Builder
  | .enter block => b.enter block
  | .single element => b.push element

/-- A tag that does not go on with a block is read as a statement. -/
theorem exists_of_feed_statement (ht : IsTag t pos word ls) (hw : word ∉ continuing)
    (hf : feed b (.tag t) = .ok b') :
    ∃ ts closing statement, ts.map Token.lexeme = ls ∧
      readStatement ⟨.tagEnd, closing⟩ ⟨pos, word.toList⟩ ts = .ok statement ∧
      b' = statement.addTo b := by
  obtain ⟨ts, closing, rfl, hts⟩ := ht
  rw [feed_statement hw, openTag] at hf
  obtain ⟨statement, hs, rfl⟩ := map_eq_ok.mp hf
  exact ⟨ts, closing, statement, hts, hs, by cases statement <;> rfl⟩

/-- A conditional is opened only by a term. -/
theorem exists_of_feed_if (ht : IsTag t pos "if" ls) (hf : feed b (.tag t) = .ok b') :
    ∃ x : Term, x.Uses ls ∧ b' = b.enter (.clause none pos x) := by
  obtain ⟨ts, closing, statement, hts, hs, rfl⟩ := exists_of_feed_statement ht (by decide) hf
  rw [readStatement_if] at hs
  obtain ⟨x, hx, rfl⟩ := map_eq_ok.mp hs
  exact ⟨x, uses_of_termToEnd (mem_lexemes hts) hx, rfl⟩

/-- A further clause is opened only by a term. -/
theorem exists_of_feed_elif {done : Option (Clauses (Clause Element))} {start : Nat}
    {condition : Term} (ht : IsTag t pos "elif" ls)
    (hf : feed ((b.enter (.clause done start condition)).extend es) (.tag t) = .ok b') :
    ∃ x : Term, x.Uses ls ∧
      b' = b.enter (.clause (some (Clauses.extend done ⟨start, condition, es⟩)) pos x) := by
  obtain ⟨ts, closing, rfl, hts⟩ := ht
  have hstep : ∀ result, termToEnd ⟨.tagEnd, closing⟩ ts = result →
      (Block.clause done start condition).advance ⟨.tagEnd, closing⟩ ⟨pos, "elif".toList⟩ ts es =
        result.map fun next =>
          .enter (.clause (some (Clauses.extend done ⟨start, condition, es⟩)) pos next) := by
    rintro _ rfl
    simp [Block.advance, Piece.toString]
  rw [feed_tag] at hf
  cases hx : termToEnd ⟨.tagEnd, closing⟩ ts with
  | error x =>
    rw [Nesting.advance_error (hstep _ hx)] at hf
    cases hf
  | ok x =>
    rw [Nesting.advance_enter (hstep _ hx)] at hf
    exact ⟨x, uses_of_termToEnd (mem_lexemes hts) hx, (Except.ok.inj hf).symm⟩

/-- A statement with names before a separator is read only if a term comes after it. -/
theorem exists_of_feed_names {separator : Lexeme} {f : Term → Statement}
    (hne : separator ≠ .sign ",") (hw : word ∉ continuing)
    (hread : ∀ {ending ts u rest}, nameList ending ts = .ok (first :: more, u :: rest) →
      u.lexeme = separator → readStatement ending ⟨pos, word.toList⟩ ts =
        termToEnd ending rest >>= fun x => pure (f x))
    (ht : IsTag t pos word (nameLexemes first more ++ separator :: ls))
    (hf : feed b (.tag t) = .ok b') : ∃ x : Term, x.Uses ls ∧ b' = (f x).addTo b := by
  obtain ⟨ts, closing, statement, hts, hs, rfl⟩ := exists_of_feed_statement ht hw hf
  obtain ⟨ts₁, ts₂, rfl, hts₁, hts₂⟩ := List.map_eq_append_iff.mp hts
  obtain ⟨u, rest, rfl, rfl, hrest⟩ := List.map_eq_cons_iff.mp hts₂
  have hnames := nameList_eq ⟨.tagEnd, closing⟩ hts₁ (u :: rest) (by rintro v ⟨⟩; exact hne)
  rw [hread hnames rfl] at hs
  obtain ⟨x, huses, rfl⟩ := exists_uses_of_bind (mem_lexemes hrest) hs
  exact ⟨x, huses, rfl⟩

/-- A loop is opened only by a term after its names. -/
theorem exists_of_feed_for (ht : IsTag t pos "for" (nameLexemes first more ++ .word "in" :: ls))
    (hf : feed b (.tag t) = .ok b') :
    ∃ x : Term, x.Uses ls ∧ b' = b.enter (.loop pos (first :: more) x) := by
  refine exists_of_feed_names (f := fun x => .enter (.loop pos (first :: more) x)) (by decide)
    (by decide) (fun hnames hu => ?_) ht hf
  rw [readStatement_for, readLoop, hnames, ok_bind]
  simp only [eatName?, Token.isName_eq, hu, BEq.rfl, if_true]

/-- A value is assigned only if it is a term. -/
theorem exists_of_feed_set (ht : IsTag t pos "set" (nameLexemes first more ++ .sign "=" :: ls))
    (hf : feed b (.tag t) = .ok b') :
    ∃ x : Term, x.Uses ls ∧ b' = b.push (.assign pos (first :: more) x) := by
  refine exists_of_feed_names (f := fun x => .single (.assign pos (first :: more) x)) (by decide)
    (by decide) (fun hnames hu => ?_) ht hf
  rw [readStatement_set, readSet, hnames, ok_bind]
  simp only [eatSign?, Token.isSign_eq, hu, BEq.rfl, if_true]

/-- Another template is named only by a term. -/
theorem exists_of_feed_include (ht : IsTag t pos "include" ls) (hf : feed b (.tag t) = .ok b') :
    ∃ (x : Term) (ignored : Bool), x.Uses ls ∧ b' = b.push (.subtemplate pos x ignored) := by
  obtain ⟨ts, closing, statement, hts, hs, rfl⟩ := exists_of_feed_statement ht (by decide) hf
  rw [readStatement_include] at hs
  obtain ⟨⟨x, ts₁⟩, hx, hs⟩ := bind_eq_ok.mp hs
  obtain ⟨⟨ignored, ts₂⟩, -, hs⟩ := bind_eq_ok.mp hs
  obtain ⟨_, -, rfl⟩ := bind_pure_eq_ok.mp hs
  exact ⟨x, ignored, uses_of_parseTerm (mem_lexemes hts) hx, rfl⟩

/-- A list of names up to the end of a tag has no sign for an assignment in it. -/
theorem notMem_of_nameList {ending : Ending} {ts : List Token} {names : List String}
    (h : nameList ending ts = .ok (names, [])) : .sign "=" ∉ ts.map Token.lexeme := by
  fun_induction nameList ending ts generalizing names with
  | case1 name t ts hcomma ih =>
    obtain ⟨⟨more, rest⟩, hmore, h⟩ := bind_eq_ok.mp h
    obtain ⟨-, rfl⟩ := Prod.mk.inj (Except.ok.inj h)
    rw [Token.isSign_eq, beq_iff_eq] at hcomma
    rw [List.map_cons, List.map_cons, hcomma]
    simpa [Lexeme.sign, Token.lexeme] using ih hmore
  | case2 => cases h
  | case3 => simp [Lexeme.sign, Token.lexeme]
  | case4 => cases h

theorem readStatement_unknown (ending : Ending) (pos : Nat) (ts : List Token)
    (hw : word ∉ ["if", "for", "set", "include"]) :
    ∃ x, readStatement ending ⟨pos, word.toList⟩ ts = .error x := by
  simp only [List.mem_cons, List.not_mem_nil, or_false, not_or] at hw
  by_cases hv : word = "raw" ∨ word = "verbatim"
  · exact ⟨unexpected ending "end of block tag" ts, by simp [readStatement, Piece.toString, hw, hv]⟩
  · exact ⟨.badSyntax pos (.unknownBlockTag word), by simp [readStatement, Piece.toString, hw, hv]⟩

/-- The element assigns the term or names another template by it. -/
def Element.IsSingle (pos : Nat) (x : Term) (el : Element) : Prop :=
  (∃ names, el = .assign pos names x) ∨ ∃ ignored, el = .subtemplate pos x ignored

/-- A tag that neither opens a block nor goes on with one is an assignment or names another
template, if it is not refused. -/
theorem exists_of_feed_single (ht : IsTag t pos word ls) (hw : word ∉ continuing ++ ["if", "for"])
    (hs : word = "set" → .sign "=" ∈ ls) (hf : feed b (.tag t) = .ok b') :
    ∃ (x : Term) (el : Element), x.Uses ls ∧ el.IsSingle pos x ∧ b' = b.push el := by
  rw [List.mem_append, not_or] at hw
  by_cases hinclude : word = "include"
  · subst hinclude
    obtain ⟨x, ignored, huses, rfl⟩ := exists_of_feed_include ht hf
    exact ⟨x, _, huses, .inr ⟨ignored, rfl⟩, rfl⟩
  obtain ⟨ts, closing, rfl, hts⟩ := ht
  rw [feed_statement hw.1, openTag] at hf
  obtain ⟨statement, hstatement, rfl⟩ := map_eq_ok.mp hf
  by_cases hset : word = "set"
  · subst hset
    rw [readStatement_set] at hstatement
    obtain ⟨⟨names, rest⟩, hnames, hstatement⟩ := bind_eq_ok.mp hstatement
    have hrest := ((takes_nameList _ _ _ _ hnames).of_forall (mem_lexemes hts)).2
    simp only at hstatement
    split at hstatement
    · next heat =>
      have hvalue := ((Uses.eatSign? heat (by decide)).of_forall hrest).2
      obtain ⟨x, huses, rfl⟩ := exists_uses_of_bind hvalue hstatement
      exact ⟨x, _, huses, .inl ⟨names, rfl⟩, rfl⟩
    · obtain ⟨_, hend, -⟩ := bind_eq_ok.mp hstatement
      unfold expectTagEnd at hend
      split at hend
      · next hnil =>
        obtain ⟨rfl, -⟩ := hnil
        exact absurd (hts ▸ hs rfl) (notMem_of_nameList hnames)
      · cases hend
  · obtain ⟨x, hx⟩ := readStatement_unknown ⟨.tagEnd, closing⟩ pos ts
      (by simp_all : word ∉ ["if", "for", "set", "include"])
    rw [hx] at hstatement
    cases hstatement

/-- A word that goes on with a block is refused where it does not go on with the innermost one. -/
theorem feed_ne_ok (ht : IsTag t pos word ls) (hw : word ∈ continuing)
    (h : ∀ ending ts, block.advance ending ⟨pos, word.toList⟩ ts es = .ok .foreign) :
    feed ((b.enter block).extend es) (.tag t) ≠ .ok b' := by
  obtain ⟨ts, closing, rfl, -⟩ := ht
  have hother : ∀ word ∈ continuing, word ∉ ["if", "for", "set", "include"] := by decide
  obtain ⟨x, hx⟩ := readStatement_unknown ⟨.tagEnd, closing⟩ pos ts (hother word hw)
  rw [feed_tag, Nesting.advance_otherwise (h _ ts), openTag, hx]
  exact fun hf => by cases hf

end Tags

/-! ### Chunks that are read as an echo -/

/-- If the chunks are fed to a tree that is being built, they add elements that are read in the
source `l` as an echo of the nodes, with a text `s` before them. -/
def Echoed (s : List Char) (nodes : List Node) (l : Lifted) (chs : List Chunk) : Prop :=
  ∀ b b' : Builder, Feeds feed chs b b' → ∃ es, b' = b.extend es ∧
    ∀ scope nodes', Element.toNodes l scope es = .ok nodes' → Echoes loopWord scope s nodes nodes'

/-- The same for a node and a single element. -/
def EchoedNode (n : Node) (l : Lifted) (chs : List Chunk) : Prop :=
  ∀ b b' : Builder, Feeds feed chs b b' → ∃ e, b' = b.push e ∧
    ∀ scope n', Element.toNode l scope e = .ok n' → EchoesNode loopWord scope n n'

/-- The chunks of the further arms of a block and its closing tag, with bodies that are read as
echoes. -/
inductive EchoedArms (l : Lifted) (last : String) : List (Branch (List Node)) → List Chunk → Prop
  | closing {t : Inside} {pos : Nat} (ht : IsTag t pos last []) : EchoedArms l last [] [.tag t]
  | arm {e : Expr} {text : String} {body : List Node} {trim : Trim}
      {arms : List (Branch (List Node))} {t : Inside} {pos : Nat} {chs chs' : List Chunk}
      (he : grammar.text e = .ok text) (ht : IsTag t pos "elif" (lexemes text.toList))
      (hb : Echoed [] body l chs) (hs : EchoedArms l last arms chs') :
      EchoedArms l last (⟨some e, body, trim⟩ :: arms) (.tag t :: (chs ++ chs'))
  | otherwise {body : List Node} {trim : Trim} {arms : List (Branch (List Node))} {t : Inside}
      {pos : Nat} {chs chs' : List Chunk} (ht : IsTag t pos "else" []) (hb : Echoed [] body l chs)
      (hs : EchoedArms l last arms chs') :
      EchoedArms l last (⟨none, body, trim⟩ :: arms) (.tag t :: (chs ++ chs'))

variable {s : List Char} {n n' : Node} {nodes body : List Node} {l : Lifted} {chs chs' : List Chunk}
  {b b' : Builder} {block : Block} {es : List Element} {t u : Inside} {pos : Nat} {x text : String}
  {e : Expr} {trim elseTrim endTrim : Trim} {arms : List (Branch (List Node))} {first : String}
  {more : List String}

theorem Echoed.nil : Echoed [] [] l [] := by
  intro b b' h
  obtain rfl : b = b' := Except.ok.inj h
  refine ⟨[], rfl, fun scope nodes' h => ?_⟩
  rw [Element.toNodes] at h
  obtain rfl := Except.ok.inj h
  exact .nil

theorem Echoed.cons_text {content : String} (h : Echoed (s ++ content.toList) nodes l chs) :
    Echoed s (.text content :: nodes) l chs := by
  intro b b' hf
  obtain ⟨es, rfl, hes⟩ := h b b' hf
  exact ⟨es, rfl, fun scope nodes' hn => (hes scope nodes' hn).text⟩

theorem EchoedNode.cons (hn : EchoedNode n l chs) (hs : Echoed [] nodes l chs') :
    Echoed [] (n :: nodes) l (chs ++ chs') := by
  intro b b' h
  obtain ⟨m, hm, h⟩ := h.of_append
  obtain ⟨e, rfl, he⟩ := hn b m hm
  obtain ⟨es, rfl, hes⟩ := hs (b.push e) b' h
  refine ⟨e :: es, Nesting.extend_push b e es, fun scope nodes' h => ?_⟩
  rw [Element.toNodes] at h
  obtain ⟨n', hn', h⟩ := bind_eq_ok.mp h
  obtain ⟨more, hmore, rfl⟩ := bind_pure_eq_ok.mp h
  exact (he scope n' hn').cons (hes scope more hmore)

/-- A text is read as one, before what is read as an echo. -/
theorem Echoed.data {p : Piece} (hp : l.dataNode p = .text (String.ofList s))
    (h : Echoed [] nodes l chs) : Echoed s nodes l (.data p :: chs) := by
  intro b b' hf
  obtain ⟨_, hdata, hf⟩ := hf.of_cons
  obtain rfl := Except.ok.inj hdata
  obtain ⟨es, rfl, hes⟩ := h _ b' hf
  refine ⟨.data p :: es, Nesting.extend_push b (.data p) es, fun scope nodes' h => ?_⟩
  rw [Element.toNodes, Element.toNode, ok_bind, hp] at h
  obtain ⟨more, hmore, rfl⟩ := bind_pure_eq_ok.mp h
  exact (hes scope more hmore).cons_text

/-- The case distinctions of which only the body of their alternative is left. -/
theorem Echoed.always {subject : Expr} {headTrim : Trim} (h : Echoed s (body ++ nodes) l chs) :
    Echoed s (.conditional .caseOf [⟨some subject, [], headTrim⟩, ⟨none, body, elseTrim⟩] trim
      endTrim :: nodes) l chs := by
  intro b b' hf
  obtain ⟨es, rfl, hes⟩ := h b b' hf
  refine ⟨es, rfl, fun scope nodes' hn => ?_⟩
  obtain ⟨hcontents, hfree⟩ := hes scope nodes' hn
  refine ⟨by simp [hcontents, Node.contents_append], fun hA => hfree ?_⟩
  rw [List.forall_mem_cons] at hA
  rw [List.forall_mem_append]
  refine ⟨fun n hn => hA.1.inside (scope, n) ?_, hA.2⟩
  simp [Node.parts, hn]

/-- The case distinctions of which nothing is left. -/
theorem Echoed.nothing {subject : Expr} {headTrim : Trim} (h : Echoed s nodes l chs) :
    Echoed s (.conditional .caseOf [⟨some subject, [], headTrim⟩] trim endTrim :: nodes) l chs := by
  intro b b' hf
  obtain ⟨es, rfl, hes⟩ := h b b' hf
  refine ⟨es, rfl, fun scope nodes' hn => ?_⟩
  obtain ⟨hcontents, hfree⟩ := hes scope nodes' hn
  exact ⟨by simp [hcontents], fun hA => hfree (List.forall_mem_cons.mp hA).2⟩

/-! ### Outputs, comments, raw blocks and single tags -/

/-- A chunk that adds an element, if it is read. -/
theorem EchoedNode.single {chunk : Chunk}
    (h : ∀ b b' : Builder, feed b chunk = .ok b' → ∃ e, b' = b.push e ∧
      ∀ scope n', Element.toNode l scope e = .ok n' → EchoesNode loopWord scope n n') :
    EchoedNode n l [chunk] := by
  intro b b' hf
  obtain ⟨m, hm, hf⟩ := hf.of_cons
  obtain rfl : m = b' := Except.ok.inj hf
  exact h b m hm

/-- What is known to be read is an echo if its node is. -/
theorem BuildsNode.echoed (h : BuildsNode n' l chs) (hn : ∀ scope, EchoesNode loopWord scope n n') :
    EchoedNode n l chs := by
  obtain ⟨e, hd, hm⟩ := h
  intro b b' hf
  obtain rfl : b.push e = b' := Except.ok.inj ((hd b).symm.trans hf)
  refine ⟨e, rfl, fun scope n'' hn'' => ?_⟩
  obtain rfl := Except.ok.inj ((hm scope).symm.trans hn'')
  exact hn scope

theorem EchoedNode.output (h : grammar.text e = .ok text) (hc : WritesNoComment e) {ts : List Token}
    (hts : ts.map Token.lexeme = lexemes text.toList) (closing : Piece) (trim : Trim) :
    EchoedNode (.output e trim) l [.output ⟨ts, ⟨.outputEnd, closing⟩⟩] := by
  refine .single fun b b' hf => ?_
  obtain ⟨x, hx, rfl⟩ := map_eq_ok.mp hf
  have huses := uses_of_readOutputTerm hts hx
  refine ⟨_, rfl, fun scope n' hn => ?_⟩
  have hnone := Term.From.termComment?_eq_none huses (fun _ hname => hc text h _ hname) l
  rw [Element.toNode, Lifted.outputNode, hnone] at hn
  obtain ⟨e', he', rfl⟩ := map_eq_ok.mp hn
  refine .leaf rfl rfl fun hA => List.forall_mem_singleton.mpr ?_
  exact huses.loopFree he' fun hin =>
    notMem_of_spares ((hA hin).exprs e List.mem_cons_self) h

theorem echoesNode_comment (content : String) (left right : Bool) (scope : Scope) :
    EchoesNode loopWord scope (.comment content trim endTrim)
      (Comment.ofInner (commentInner content.toList left right)).toNode := by
  rw [toNode_ofInner]
  refine .leaf ?_ rfl fun _ => by simp [Node.exprs]
  simp [Node.whole, Node.content, Node.inner, Node.collect]

theorem echoesNode_raw (content : String) (scope : Scope) :
    EchoesNode loopWord scope (.raw content trim endTrim) (.raw content trim endTrim) :=
  .leaf rfl rfl fun _ => by simp [Node.exprs]

/-- What an assignment is read as has a single term in it, and so has a reference to another
template. -/
theorem Term.Uses.echoesNode {y : Term} {el : Element} {ls : List Lexeme} (huses : y.Uses ls)
    (hel : el.IsSingle pos y) (hn : n.whole = .nil)
    (hl : n.Spares loopWord → .word chainWords.loopVar ∉ ls) (scope : Scope)
    (h : el.toNode l scope = .ok n') : EchoesNode loopWord scope n n' := by
  rcases hel with ⟨names, rfl⟩ | ⟨ignored, rfl⟩
  all_goals
    rw [Element.toNode] at h
    obtain ⟨e, he, rfl⟩ := bind_pure_eq_ok.mp h
    refine .leaf hn.symm rfl fun hA => List.forall_mem_singleton.mpr ?_
    exact huses.loopFree he fun hin => hl (hA hin)

theorem EchoedNode.assign (h : grammar.text e = .ok text)
    (ht : IsTag t pos "set" (nameLexemes first more ++ .sign "=" :: lexemes text.toList)) :
    EchoedNode (.assignment x (some e) none trim endTrim) l [.tag t] := by
  refine .single fun b b' hf => ?_
  obtain ⟨y, huses, rfl⟩ := exists_of_feed_set ht hf
  refine ⟨_, rfl, fun scope n' => huses.echoesNode (.inl ⟨_, rfl⟩) rfl (fun hA => ?_) scope⟩
  exact notMem_of_spares (hA.exprs e List.mem_cons_self) h

theorem EchoedNode.subtemplate (h : grammar.text e = .ok text) {ignored : Bool}
    (ht : IsTag t pos "include" (lexemes text.toList ++ ignoreLexemes ignored)) :
    EchoedNode (.subtemplate e ignored trim) l [.tag t] := by
  refine .single fun b b' hf => ?_
  obtain ⟨y, _, huses, rfl⟩ := exists_of_feed_include ht hf
  refine ⟨_, rfl, fun scope n' => huses.echoesNode (.inr ⟨_, rfl⟩) rfl (fun hA => ?_) scope⟩
  have hignore : ∀ ignored, .word chainWords.loopVar ∉ ignoreLexemes ignored := by decide
  rw [List.mem_append, not_or]
  exact ⟨notMem_of_spares (hA.exprs e List.mem_cons_self) h, hignore ignored⟩

theorem EchoedNode.passedOn {name args : String} (ht : IsTag t pos name (lexemes args.toList))
    (hn : name ∉ continuing ++ ["if", "for"])
    (hs : name = "set" → .sign "=" ∈ lexemes args.toList) :
    EchoedNode (.tag name args [] trim) l [.tag t] := by
  refine .single fun b b' hf => ?_
  obtain ⟨y, el, huses, hel, rfl⟩ := exists_of_feed_single ht hn hs hf
  refine ⟨el, rfl, fun scope n' => huses.echoesNode hel rfl (fun hA => ?_) scope⟩
  exact notMem_lexemes isWord_loopWord (hA.lacks args List.mem_cons_self)

/-! ### Captures and loops -/

theorem EchoedNode.capture (ht : IsTag t pos "set" (nameLexemes first more))
    (hb : Echoed [] body l chs) {endPos : Nat} (hu : IsTag u endPos "endset" []) :
    EchoedNode (.assignment x none (some body) trim endTrim) l (.tag t :: (chs ++ [.tag u])) := by
  intro b b' hf
  obtain ⟨_, hopen, hf⟩ := hf.of_cons
  rw [feed_capture ht] at hopen
  obtain rfl := Except.ok.inj hopen
  obtain ⟨_, hbody, hf⟩ := hf.of_append
  obtain ⟨es, rfl, hes⟩ := hb _ _ hbody
  obtain ⟨_, hclose, hf⟩ := hf.of_cons
  rw [feed_close (e := .capture pos (first :: more) es endPos) hu fun _ => rfl] at hclose
  obtain rfl := Except.ok.inj hclose
  obtain rfl := Except.ok.inj hf
  refine ⟨_, rfl, fun scope n' hn => ?_⟩
  rw [Element.toNode] at hn
  obtain ⟨children, hchildren, rfl⟩ := bind_pure_eq_ok.mp hn
  exact .capture (hes scope children hchildren)

/-- How a part of a block can end: with the closing tag of the block, or with its alternative, with
which only the closing tag goes on. -/
structure CanEnd (last : String) (block : Block) (es : List Element)
    (element : Option (Alternative Element) → Nat → Element) (alternative : Nat → Block) :
    Prop where
  close : ∀ closing pos, block.advance ⟨.tagEnd, closing⟩ ⟨pos, last.toList⟩ [] es =
    .ok (.close (element none pos))
  enter : ∀ closing pos, block.advance ⟨.tagEnd, closing⟩ ⟨pos, "else".toList⟩ [] es =
    .ok (.enter (alternative pos))
  closeElse : ∀ elsePos es' closing pos,
    (alternative elsePos).advance ⟨.tagEnd, closing⟩ ⟨pos, last.toList⟩ [] es' =
      .ok (.close (element (some ⟨elsePos, es'⟩) pos))
  foreign : ∀ elsePos es' word, word ≠ last → ∀ ending pos ts,
    (alternative elsePos).advance ending ⟨pos, String.toList word⟩ ts es' = .ok .foreign

theorem canEnd_clause (done : Option (Clauses (Clause Element))) (pos : Nat) (condition : Term)
    (es : List Element) :
    CanEnd "endif" (.clause done pos condition) es
      (.conditional (Clauses.extend done ⟨pos, condition, es⟩).first
        (Clauses.extend done ⟨pos, condition, es⟩).rest)
      (.clauseElse (Clauses.extend done ⟨pos, condition, es⟩)) :=
  ⟨fun _ _ => rfl, fun _ _ => rfl, fun _ _ _ _ => rfl, fun _ _ word hw _ _ _ => by
    simp [Block.advance, Piece.toString, hw]⟩

theorem canEnd_loop (pos : Nat) (names : List String) (collection : Term) (es : List Element) :
    CanEnd "endfor" (.loop pos names collection) es (.loop pos names collection es)
      (.loopElse pos names collection es) :=
  ⟨fun _ _ => rfl, fun _ _ => rfl, fun _ _ _ _ => rfl, fun _ _ word hw _ _ _ => by
    simp [Block.advance, Piece.toString, hw]⟩

/-- A block was closed, and its alternative is read as an echo of the arms. -/
def EchoedEnd (l : Lifted) (arms : List (Branch (List Node)))
    (element : Option (Alternative Element) → Nat → Element) (b b' : Builder) : Prop :=
  ∃ otherwise endPos, b' = b.push (element otherwise endPos) ∧ ∀ scope alternative,
    Element.toAlternative l scope otherwise = .ok alternative →
      EchoesArms loopWord scope arms (Branch.ofAlternative alternative)

variable {last : String} {element : Option (Alternative Element) → Nat → Element}
  {alternative : Nat → Block}

theorem EchoedEnd.closing (he : CanEnd last block es element alternative) (ht : IsTag t pos last [])
    (hf : Feeds feed [.tag t] ((b.enter block).extend es) b') : EchoedEnd l [] element b b' := by
  obtain ⟨_, hclose, hf⟩ := hf.of_cons
  rw [feed_close ht fun closing => he.close closing pos] at hclose
  obtain rfl := Except.ok.inj hclose
  obtain rfl := Except.ok.inj hf
  refine ⟨none, pos, rfl, fun scope alternative h => ?_⟩
  rw [Element.toAlternative] at h
  obtain rfl := Except.ok.inj h
  exact .nil

/-- An alternative is the last arm: whatever else comes before the closing tag is refused. -/
theorem EchoedEnd.otherwise (he : CanEnd last block es element alternative) (hl : "elif" ≠ last)
    (hl' : "else" ≠ last) (ht : IsTag t pos "else" []) (hbody : Echoed [] body l chs)
    (hs : EchoedArms l last arms chs')
    (hf : Feeds feed (.tag t :: (chs ++ chs')) ((b.enter block).extend es) b') :
    EchoedEnd l (⟨none, body, trim⟩ :: arms) element b b' := by
  obtain ⟨_, helse, hf⟩ := hf.of_cons
  rw [feed_enter ht fun closing => he.enter closing pos] at helse
  obtain rfl := Except.ok.inj helse
  obtain ⟨_, hinner, hf⟩ := hf.of_append
  obtain ⟨es', rfl, hes⟩ := hbody _ _ hinner
  cases hs with
  | closing hu =>
    obtain ⟨_, hclose, hf⟩ := hf.of_cons
    rw [feed_close hu fun closing => he.closeElse pos es' closing _] at hclose
    obtain rfl := Except.ok.inj hclose
    obtain rfl := Except.ok.inj hf
    refine ⟨some ⟨pos, es'⟩, _, rfl, fun scope alternative h => ?_⟩
    rw [Element.toAlternative] at h
    obtain ⟨nodes, hnodes, rfl⟩ := bind_pure_eq_ok.mp h
    exact .cons (fun _ => by simp) (hes scope nodes hnodes) .nil
  | arm _ hu =>
    obtain ⟨_, hnext, -⟩ := hf.of_cons
    refine absurd hnext (feed_ne_ok hu (by decide) fun ending ts => ?_)
    exact he.foreign pos es' "elif" hl ending _ ts
  | otherwise hu =>
    obtain ⟨_, hnext, -⟩ := hf.of_cons
    refine absurd hnext (feed_ne_ok hu (by decide) fun ending ts => ?_)
    exact he.foreign pos es' "else" hl' ending _ ts

theorem EchoedNode.loop {otherwise : Option (List Node)} (h : grammar.text e = .ok text)
    (ht : IsTag t pos "for" (nameLexemes first more ++ .word "in" :: lexemes text.toList))
    (hb : Echoed [] body l chs)
    (hs : EchoedArms l "endfor" (otherwise.toList.map fun nodes => ⟨none, nodes, elseTrim⟩) chs') :
    EchoedNode (.loop x e body otherwise trim elseTrim endTrim) l (.tag t :: (chs ++ chs')) := by
  intro b b' hf
  obtain ⟨_, hopen, hf⟩ := hf.of_cons
  obtain ⟨y, huses, rfl⟩ := exists_of_feed_for ht hopen
  obtain ⟨_, hbody, hf⟩ := hf.of_append
  obtain ⟨es, rfl, hes⟩ := hb _ _ hbody
  have hend : EchoedEnd l (otherwise.toList.map fun nodes => ⟨none, nodes, elseTrim⟩)
      (.loop pos (first :: more) y es) b b' := by
    have hcan := canEnd_loop pos (first :: more) y es
    cases otherwise with
    | none =>
      cases hs with
      | closing hu => exact .closing hcan hu hf
    | some nodes =>
      cases hs with
      | otherwise hu hbody hs => exact .otherwise hcan (by decide) (by decide) hu hbody hs hf
  obtain ⟨alternative, endPos, rfl, hend⟩ := hend
  refine ⟨_, rfl, fun scope n' hn => ?_⟩
  rw [Element.toNode] at hn
  obtain ⟨collection, hcollection, hn⟩ := bind_eq_ok.mp hn
  obtain ⟨children, hchildren, hn⟩ := bind_eq_ok.mp hn
  obtain ⟨result, hresult, rfl⟩ := bind_pure_eq_ok.mp hn
  refine .loop (fun hA => ?_) (hes _ children hchildren) (hend scope result hresult)
  exact huses.loopFree hcollection fun hin =>
    notMem_of_spares ((hA hin).exprs e List.mem_cons_self) h

/-! ### Conditionals -/

/-- A condition that is read from the lexemes of a condition. -/
theorem Term.Uses.loopFree_condition {y : Term} {scope : Scope} {e' : Expr}
    (huses : y.Uses (lexemes text.toList)) (he' : y.toExpr scope = .ok e')
    (h : grammar.text e = .ok text) (hC : scope.inLoop → ∀ a ∈ some e, a.Spares loopWord) :
    ∀ a ∈ some e', a.LoopFree := by
  rintro _ ⟨⟩
  exact huses.loopFree he' fun hin => notMem_of_spares (hC hin e rfl) h

/-- A conditional was closed, and the clauses that came last are read as an echo of the arms. -/
def EchoedClauses (l : Lifted) (arms : List (Branch (List Node)))
    (clauses : Clauses (Clause Element)) (b b' : Builder) : Prop :=
  ∃ more otherwise endPos,
    b' = b.push (.conditional clauses.first (clauses.rest ++ more) otherwise endPos) ∧
      ∀ scope arms' alternative, Element.clauseArms l scope more = .ok arms' →
        Element.toAlternative l scope otherwise = .ok alternative →
          EchoesArms loopWord scope arms (arms' ++ Branch.ofAlternative alternative)

theorem EchoedEnd.clauses {clauses : Clauses (Clause Element)}
    (h : EchoedEnd l arms (.conditional clauses.first clauses.rest) b b') :
    EchoedClauses l arms clauses b b' := by
  obtain ⟨otherwise, endPos, rfl, h⟩ := h
  refine ⟨[], otherwise, endPos, by rw [List.append_nil], fun scope arms' result ha hr => ?_⟩
  rw [Element.clauseArms] at ha
  obtain rfl := Except.ok.inj ha
  exact h scope result hr

theorem EchoedArms.clauses (h : EchoedArms l "endif" arms chs)
    (done : Option (Clauses (Clause Element))) (start : Nat) (condition : Term)
    (hf : Feeds feed chs ((b.enter (.clause done start condition)).extend es) b') :
    EchoedClauses l arms (Clauses.extend done ⟨start, condition, es⟩) b b' := by
  induction h generalizing done start condition es with
  | closing ht => exact (EchoedEnd.closing (canEnd_clause done start condition es) ht hf).clauses
  | otherwise ht hbody hs =>
    exact (EchoedEnd.otherwise (canEnd_clause done start condition es) (by decide) (by decide) ht
      hbody hs hf).clauses
  | @arm e text body trim arms t pos chs chs' he ht hbody hs ih =>
    obtain ⟨_, helif, hf⟩ := hf.of_cons
    obtain ⟨next, huses, rfl⟩ := exists_of_feed_elif ht helif
    obtain ⟨_, hinner, hf⟩ := hf.of_append
    obtain ⟨es', rfl, hes⟩ := hbody _ _ hinner
    obtain ⟨more, otherwise, endPos, rfl, harms⟩ := ih (some _) pos next hf
    refine ⟨⟨pos, next, es'⟩ :: more, otherwise, endPos, by simp [Clauses.extend], ?_⟩
    intro scope arms' alternative ha halternative
    rw [Element.clauseArms] at ha
    obtain ⟨e', he', ha⟩ := bind_eq_ok.mp ha
    obtain ⟨nodes, hnodes, ha⟩ := bind_eq_ok.mp ha
    obtain ⟨arms', harms', rfl⟩ := bind_pure_eq_ok.mp ha
    exact .cons (huses.loopFree_condition he' he) (hes scope nodes hnodes)
      (harms scope arms' alternative harms' halternative)

/-- An idle arm holds nothing. -/
theorem armContents_of_isIdleElse (h : ∀ arm ∈ arms, isIdleElse arm) :
    Node.armContents arms = .nil := by
  induction arms with
  | nil => exact Node.armContents_nil
  | cons arm arms ih =>
    rw [List.forall_mem_cons] at h
    have hidle := h.1
    rw [isIdleElse, Bool.and_eq_true, Bool.and_eq_true, List.isEmpty_iff] at hidle
    rw [Node.armContents_cons, hidle.1.2, ih h.2, Node.contents_nil, Contents.nil_append]

/-- A conditional that is taken for the opposite choice holds the same and refers to the same. -/
theorem echoesArms_recogniseVariant {w : List Char} {scope : Scope}
    {branches : List (Branch (List Node))} (h : EchoesArms w scope arms branches) :
    EchoesArms w scope arms (recogniseVariant branches).2 := by
  unfold recogniseVariant
  split
  · next condition body trim rest =>
    split
    · next hvariant =>
      rw [Bool.and_eq_true, Bool.and_eq_true, List.all_eq_true] at hvariant
      have hrest := armContents_of_isIdleElse hvariant.1.1
      refine ⟨?_, fun hA => ?_⟩
      · rw [← h.contents, Node.armContents_cons, Node.armContents_cons, hrest]
        rfl
      · obtain ⟨⟨hcondition, hbody⟩, -⟩ := List.forall_mem_cons.mp (h.loopFree hA)
        refine List.forall_mem_singleton.mpr ⟨?_, hbody⟩
        rintro _ ⟨⟩
        exact (hcondition condition rfl).dropLast (hcondition condition rfl).self
    · exact h
  · exact h

/-- A conditional that was written as its chain. -/
theorem EchoedNode.conditional {kind : Variant} {branches : List (Branch (List Node))}
    {first headTrim : Trim} (hl : lower languageName trim branches kind =
      .ok (.chain first (⟨some e, body, headTrim⟩ :: arms)))
    (hk : kind = .caseOf → ∀ b ∈ branches.head?, b.body = []) (h : grammar.text e = .ok text)
    (ht : IsTag t pos "if" (lexemes text.toList)) (hb : Echoed [] body l chs)
    (hs : EchoedArms l "endif" arms chs') :
    EchoedNode (.conditional kind branches trim endTrim) l (.tag t :: (chs ++ chs')) := by
  intro b b' hf
  obtain ⟨_, hopen, hf⟩ := hf.of_cons
  obtain ⟨y, huses, rfl⟩ := exists_of_feed_if ht hopen
  obtain ⟨_, hbody, hf⟩ := hf.of_append
  obtain ⟨es, rfl, hes⟩ := hb _ _ hbody
  obtain ⟨clauses, otherwise, endPos, rfl, harms⟩ := hs.clauses none pos y hf
  refine ⟨_, rfl, fun scope n' hn => ?_⟩
  rw [Clauses.extend, List.nil_append, Element.toNode] at hn
  obtain ⟨condition, hcondition, hn⟩ := bind_eq_ok.mp hn
  obtain ⟨nodes, hnodes, hn⟩ := bind_eq_ok.mp hn
  obtain ⟨arms', harms', hn⟩ := bind_eq_ok.mp hn
  obtain ⟨alternative, halternative, rfl⟩ := bind_pure_eq_ok.mp hn
  have hchain : EchoesArms loopWord scope (⟨some e, body, headTrim⟩ :: arms)
      (⟨some condition, nodes, .unset⟩ :: (arms' ++ Branch.ofAlternative alternative)) :=
    .cons (huses.loopFree_condition hcondition h) (hes scope nodes hnodes)
      (harms scope arms' alternative harms' halternative)
  refine (echoesArms_recogniseVariant hchain).conditional ?_ fun hA arm harm => ?_
  · rw [Node.whole_conditional, armContents_of_lower hl hk]
  · obtain ⟨branch, hbranch, hbodies⟩ := exists_branch_of_lower hl harm
    have hbranches := sparingArms_of_conditional hA
    refine ⟨fun hin => ?_, fun n hn => (hbranches branch hbranch).2 n (hbodies ▸ hn)⟩
    exact spares_lower hl (fun b hb => (hbranches b hb).1 hin) arm harm

/-! ### Phrases of tags -/

section Phrases

variable {args sign : List Char} {ls : List Lexeme} {lexeme : Lexeme} {C : List Char → Prop}

/-- A phrase after the first word of a tag. -/
theorem Phrase.cons_space {s : List Char} (h : Phrase s ls) : Phrase (' ' :: s) ls :=
  Words.nil.phrase.space h

/-- A tag with a phrase after its first word. -/
theorem Reads.header (word : String) (hw : word ∈ statementWords) {body : String}
    (hbody : body.toList = word.toList ++ ' ' :: args) (ha : Phrase (' ' :: args) ls)
    (trim : Trim) :
    Reads Anything (Markup.tag body trim).toList fun _ chs => ∃ t pos,
      chs = [.tag t] ∧ IsTag t pos word ls := by
  obtain ⟨hident, hv⟩ := isIdentifier_statementWords word hw
  refine (Reads.tagPhrase hbody hident (.cons (by decide) args) ha hv trim).mono ?_
  rintro _ _ ⟨t, pos, hchs, ht, -⟩
  exact ⟨t, pos, hchs, ht⟩

theorem phrase_names (hx : ∀ x ∈ first :: more, Text.isIdentifier (String.toList x)) :
    Phrase (' ' :: (", ".intercalate (first :: more)).toList) (nameLexemes first more) := by
  simpa using (words_names hx .nil).phrase

/-- The words and the sign that stand between names, values and flags. -/
theorem phrase_separators : Phrase "in".toList [.word "in"] ∧ Phrase "=".toList [.sign "="] ∧
    Phrase "ignore missing".toList (ignoreLexemes true) := by
  have hphrase (entries : List (String × List Lexeme)) (h : ∀ entry ∈ entries,
      lexemes entry.1.toList = entry.2 ∧ isWhole entry.1.toList ∧
        ∀ c ∈ ['%', '#'], Text.Lacks '{' c entry.1.toList) :
      ∀ entry ∈ entries, Phrase entry.1.toList entry.2 :=
    fun entry he => (h entry he).1 ▸ .of_isWhole (h entry he).2.1 (h entry he).2.2
  simpa only [List.forall_mem_cons, List.not_mem_nil, false_imp_iff, implies_true, and_true] using
    hphrase [("in", [.word "in"]), ("=", [.sign "="]), ("ignore missing", ignoreLexemes true)]
      (by decide +kernel)

/-- Names and a value with a sign between them. -/
theorem phrase_join (hx : ∀ x ∈ first :: more, Text.isIdentifier (String.toList x))
    (hsign : Phrase sign [lexeme]) (ha : Phrase args ls) :
    Phrase (' ' :: ((", ".intercalate (first :: more)).toList ++ ' ' :: (sign ++ ' ' :: args)))
      (nameLexemes first more ++ lexeme :: ls) := by
  simpa using ((phrase_names hx).space (hsign.space ha))

end Phrases

/-! ### Whole templates -/

/-- Nodes that, if they are written, are read as an echo wherever they stand, if they are read. -/
def ReadsAsEcho (nodes : List Node) : Prop :=
  ∀ text, dialect.write nodes = .ok text → Reads Opens text.toList (Echoed [] nodes)

/-- The same for a node that begins with a delimiter. -/
def NodeReadsAsEcho (n : Node) : Prop :=
  ∀ text, dialect.writeNode n = .ok text →
    Reads Anything text.toList (EchoedNode n) ∧ ∀ rest, Opens (text.toList ++ rest)

/-- A text without delimiters, before what is read as an echo. -/
theorem reads_passage (hs : Passage s) : Reads Opens s fun l chs => ∀ nodes chs',
    Echoed [] nodes l chs' → Echoed s nodes l (chs ++ chs') := by
  by_cases hne : s = []
  · subst hne
    exact .nil fun l nodes chs' h => h
  · obtain ⟨content, rfl⟩ : ∃ content : String, content.toList = s :=
      ⟨String.ofList s, String.toList_ofList⟩
    refine (Reads.text (by simpa using hne) hs).mono ?_
    rintro l _ ⟨p, rfl, hp⟩ nodes chs' h
    exact .data (hp.trans (by rw [String.ofList_toList])) h

/-- The further arms of a block and its closing tag. -/
theorem reads_echoedArms (last : String) (hlast : last ∈ statementWords)
    (has : ∀ arm ∈ arms, ∀ e ∈ arm.condition, WritesPhrase e)
    (hbs : ∀ arm ∈ arms, ReadsAsEcho arm.body)
    (hw : Markup.arms grammar.text "elif" (dialect.writeBranches arms) = .ok text)
    (endTrim : Trim) :
    Reads Anything (text.toList ++ (Markup.tag last endTrim).toList)
        (fun l chs => EchoedArms l last arms chs) ∧
      ∀ rest, Opens (text.toList ++ ((Markup.tag last endTrim).toList ++ rest)) := by
  induction arms generalizing text with
  | nil =>
    rw [Dialect.writeBranches, Markup.arms] at hw
    obtain rfl := Except.ok.inj hw
    simp only [String.toList_empty, List.nil_append]
    refine ⟨(Reads.word last hlast endTrim).mono ?_, opens_tag last endTrim⟩
    rintro l _ ⟨t, pos, rfl, ht, -⟩
    exact .closing ht
  | cons arm arms ih =>
    rw [List.forall_mem_cons] at has hbs
    obtain ⟨condition, body, trim⟩ := arm
    cases condition with
    | none =>
      rw [Dialect.writeBranches, Markup.arms] at hw
      obtain ⟨inner, hinner, hw⟩ := bind_eq_ok.mp hw
      obtain ⟨more, hmore, rfl⟩ := bind_pure_eq_ok.mp hw
      obtain ⟨hrest, hopens⟩ := ih has.2 hbs.2 hmore
      simp only [String.toList_append, List.append_assoc]
      refine ⟨?_, fun rest => opens_tag "else" trim _⟩
      refine ((Reads.word "else" (by decide) trim).append (fun _ _ => trivial)
        ((hbs.1 inner hinner).append (fun rest _ => ?_) hrest)).mono ?_
      · rw [List.append_assoc]
        exact hopens rest
      · rintro l _ ⟨_, _, rfl, ⟨t, pos, rfl, ht, -⟩, chs, chs', rfl, hb, hs⟩
        rw [List.singleton_append]
        exact .otherwise ht hb hs
    | some e =>
      rw [Dialect.writeBranches, Markup.arms] at hw
      obtain ⟨condition, hcondition, hw⟩ := bind_eq_ok.mp hw
      obtain ⟨inner, hinner, hw⟩ := bind_eq_ok.mp hw
      obtain ⟨more, hmore, rfl⟩ := bind_pure_eq_ok.mp hw
      obtain ⟨hrest, hopens⟩ := ih has.2 hbs.2 hmore
      simp only [String.toList_append, List.append_assoc]
      refine ⟨?_, fun rest => opens_tag _ trim _⟩
      refine ((Reads.header "elif" (by decide) (by simp)
        ((has.1 e rfl).phrase hcondition).cons_space trim).append (fun _ _ => trivial)
        ((hbs.1 inner hinner).append (fun rest _ => ?_) hrest)).mono ?_
      · rw [List.append_assoc]
        exact hopens rest
      · rintro l _ ⟨_, _, rfl, ⟨t, pos, rfl, ht⟩, chs, chs', rfl, hb, hs⟩
        rw [List.singleton_append]
        exact .arm hcondition ht hb hs

namespace NodeReadsAsEcho

theorem output (he : WritesPhrase e) (hc : WritesNoComment e) (trim : Trim) :
    NodeReadsAsEcho (.output e trim) := by
  intro text hw
  rw [Dialect.writeNode] at hw
  obtain ⟨body, hbody, rfl⟩ := map_eq_ok.mp hw
  refine ⟨(Reads.outputPhrase (he.phrase hbody) trim).mono ?_, opens_output body trim⟩
  rintro l _ ⟨ts, closing, rfl, hts⟩
  exact .output hbody hc hts closing trim

theorem conditional {kind : Variant} {branches : List (Branch (List Node))} {first headTrim : Trim}
    (hl : lower languageName trim branches kind =
      .ok (.chain first (⟨some e, body, headTrim⟩ :: arms)))
    (hk : kind = .caseOf → ∀ b ∈ branches.head?, b.body = []) (he : WritesPhrase e)
    (hb : ReadsAsEcho body) (has : ∀ arm ∈ arms, ∀ e ∈ arm.condition, WritesPhrase e)
    (hbs : ∀ arm ∈ arms, ReadsAsEcho arm.body) (endTrim : Trim) :
    NodeReadsAsEcho (.conditional kind branches trim endTrim) := by
  intro text hw
  rw [writeNode_conditional hl, Dialect.writeBranches] at hw
  obtain ⟨condition, hcondition, hw⟩ := bind_eq_ok.mp hw
  obtain ⟨inner, hinner, hw⟩ := bind_eq_ok.mp hw
  obtain ⟨more, hmore, rfl⟩ := bind_pure_eq_ok.mp hw
  obtain ⟨hrest, hopens⟩ := reads_echoedArms "endif" (by decide) has hbs hmore endTrim
  simp only [conditionalWords, String.toList_append, List.append_assoc]
  refine ⟨?_, fun rest => opens_tag _ first _⟩
  refine ((Reads.header "if" (by decide) (by simp) (he.phrase hcondition).cons_space first).append
    (fun _ _ => trivial) ((hb inner hinner).append (fun rest _ => ?_) hrest)).mono ?_
  · rw [List.append_assoc]
    exact hopens rest
  · rintro l _ ⟨_, _, rfl, ⟨t, pos, rfl, ht⟩, chs, chs', rfl, hb, hs⟩
    rw [List.singleton_append]
    exact .conditional hl hk hcondition ht hb hs

theorem loop (hx : NameList x) (he : WritesPhrase e) (hb : ReadsAsEcho body)
    {otherwise : Option (List Node)} (ho : ∀ nodes ∈ otherwise, ReadsAsEcho nodes)
    (trim elseTrim endTrim : Trim) :
    NodeReadsAsEcho (.loop x e body otherwise trim elseTrim endTrim) := by
  intro text hw
  obtain ⟨first, more, rfl, hnames⟩ := hx
  rw [Dialect.writeNode] at hw
  obtain ⟨collection, hcollection, hw⟩ := bind_eq_ok.mp hw
  obtain ⟨inner, hinner, hw⟩ := bind_eq_ok.mp hw
  obtain ⟨alternative, halternative, rfl⟩ := bind_pure_eq_ok.mp hw
  obtain ⟨hrest, hopens⟩ := reads_echoedArms "endfor" (by decide) (by simp) (by simpa using ho)
    ((dialect.arms_otherwise grammar.text "elif" otherwise elseTrim).trans halternative) endTrim
  simp only [String.toList_append, List.append_assoc]
  refine ⟨?_, fun rest => opens_tag _ trim _⟩
  refine ((Reads.header "for" (by decide) (by simp)
    (phrase_join hnames phrase_separators.1 (he.phrase hcollection)) trim).append
    (fun _ _ => trivial) ((hb inner hinner).append (fun rest _ => ?_) hrest)).mono ?_
  · rw [List.append_assoc]
    exact hopens rest
  · rintro l _ ⟨_, _, rfl, ⟨t, pos, rfl, ht⟩, chs, chs', rfl, hb, hs⟩
    rw [List.singleton_append]
    exact .loop hcollection ht hb hs

theorem assign (hx : NameList x) (he : WritesPhrase e) (trim endTrim : Trim) :
    NodeReadsAsEcho (.assignment x (some e) none trim endTrim) := by
  intro text hw
  obtain ⟨first, more, rfl, hnames⟩ := hx
  rw [Dialect.writeNode] at hw
  obtain ⟨value, hvalue, rfl⟩ := map_eq_ok.mp hw
  refine ⟨(Reads.header "set" (by decide) (by simp [assignmentWords])
    (phrase_join hnames phrase_separators.2.1 (he.phrase hvalue)) trim).mono ?_, opens_tag _ trim⟩
  rintro l _ ⟨t, pos, rfl, ht⟩
  exact .assign hvalue ht

theorem capture (hx : NameList x) (hb : ReadsAsEcho body) (trim endTrim : Trim) :
    NodeReadsAsEcho (.assignment x none (some body) trim endTrim) := by
  intro text hw
  obtain ⟨first, more, rfl, hnames⟩ := hx
  rw [Dialect.writeNode, Dialect.writeOption] at hw
  obtain ⟨inner, hinner, rfl⟩ := map_eq_ok.mp hw
  simp only [Markup.block, String.toList_append, List.append_assoc]
  refine ⟨?_, fun rest => opens_tag _ trim _⟩
  refine ((Reads.header "set" (by decide) (by simp [assignmentWords]) (phrase_names hnames)
    trim).append (fun _ _ => trivial)
    ((hb inner hinner).append (fun rest _ => opens_tag "endset" endTrim rest)
      (.word "endset" (by decide) endTrim))).mono ?_
  rintro l _ ⟨_, _, rfl, ⟨t, pos, rfl, ht⟩, chs, _, rfl, hb, u, endPos, rfl, hu, -⟩
  rw [List.singleton_append]
  exact .capture ht hb hu

theorem comment {content : String} (hc : ¬ ['#', '}'] <:+: content.toList) (trim endTrim : Trim) :
    NodeReadsAsEcho (.comment content trim endTrim) := by
  intro text hw
  rw [Dialect.writeNode] at hw
  have htext : text = commentText content ⟨trim.left, false⟩ ⟨false, endTrim.right⟩ :=
    (Except.ok.inj hw).symm
  rw [htext, toList_commentText]
  refine ⟨(Reads.comment (not_infix_commentInner hc trim.left endTrim.right)).mono ?_,
    fun rest => .inr rfl⟩
  rintro l _ ⟨i, pos, closing, rfl, hi⟩
  exact (BuildsNode.comment hi pos closing).echoed fun scope => echoesNode_comment content _ _ scope

theorem raw {content : String} (hc : Kept "endraw".toList content.toList)
    (hq : Quiet content.toList) (hs : ¬ symbolHead <:+: content.toList) (trim endTrim : Trim) :
    NodeReadsAsEcho (.raw content trim endTrim) := by
  intro text hw
  rw [Dialect.writeNode] at hw
  obtain rfl := Except.ok.inj hw
  refine ⟨(Reads.raw hc hq hs trim endTrim).mono ?_, fun rest => ?_⟩
  · rintro l _ ⟨p, rfl, hp⟩
    exact (BuildsNode.data hp).echoed fun scope => echoesNode_raw content scope
  · simp only [Markup.block, String.toList_append, List.append_assoc]
    exact opens_tag "raw" trim _

theorem subtemplate (he : WritesPhrase e) (ignored : Bool) (trim : Trim) :
    NodeReadsAsEcho (.subtemplate e ignored trim) := by
  intro text hw
  rw [Dialect.writeNode] at hw
  obtain ⟨template, htemplate, rfl⟩ := map_eq_ok.mp hw
  have hphrase : Phrase (' ' :: (template.toList ++
      (if ignored then " ignore missing" else "").toList))
      (lexemes template.toList ++ ignoreLexemes ignored) := by
    have htext := (he.phrase htemplate).cons_space
    cases ignored with
    | false => simpa [ignoreLexemes] using htext
    | true => simpa using htext.space phrase_separators.2.2
  refine ⟨(Reads.header "include" (by decide) (by simp) hphrase trim).mono ?_, opens_tag _ trim⟩
  rintro l _ ⟨t, pos, rfl, ht⟩
  exact .subtemplate htemplate ht

theorem passedOn {name args : String} (hw : Text.isIdentifier name.toList)
    (hn : name ∉ continuing ++ ["if", "for"]) (hv : name ∉ ["raw", "verbatim"])
    (hs : name = "set" → .sign "=" ∈ lexemes args.toList) (ha : isWhole args.toList)
    (hd : ∀ c ∈ ['%', '#'], Text.Lacks '{' c args.toList) (trim : Trim) :
    NodeReadsAsEcho (.tag name args [] trim) := by
  intro text hwrite
  rw [Dialect.writeNode] at hwrite
  change writeTag name args trim = .ok text at hwrite
  unfold writeTag at hwrite
  split at hwrite
  · cases hwrite
  obtain rfl := Except.ok.inj hwrite
  have hv' : name.toList ≠ "raw".toList ∧ name.toList ≠ "verbatim".toList := by
    simpa only [ne_eq, String.toList_inj, List.mem_cons, List.not_mem_nil, or_false, not_or]
      using hv
  obtain ⟨rest, hbody, hp, hphrase⟩ : ∃ rest,
      (if args.isEmpty then name else name ++ " " ++ args).toList = name.toList ++ rest ∧
        Parts rest ∧ Phrase rest (lexemes args.toList) := by
    have hphrase := Phrase.of_isWhole ha hd
    by_cases hempty : args = ""
    · subst hempty
      rw [String.toList_empty] at hphrase ⊢
      exact ⟨[], by simp, .nil, hphrase⟩
    · exact ⟨' ' :: args.toList, by simp [hempty], .cons (by decide) _, hphrase.cons_space⟩
  refine ⟨(Reads.tagPhrase hbody hw hp hphrase hv' trim).mono ?_, opens_tag _ trim⟩
  rintro l _ ⟨t, pos, rfl, ht, -⟩
  exact .passedOn ht hn hs

end NodeReadsAsEcho

mutual

/-- A contained template that is written is read as an echo of it wherever it stands, if it is
read. -/
theorem Contained.reads {s : List Char} {nodes : List Node} (h : Contained s nodes) {text : String}
    (hw : dialect.write nodes = .ok text) :
    Reads Opens (s ++ text.toList) (Echoed s nodes) := by
  match h with
  | .nil hs =>
    rw [Dialect.write] at hw
    obtain rfl := Except.ok.inj hw
    rw [String.toList_empty, List.append_nil]
    refine (reads_passage hs).mono fun l chs hchs => ?_
    rw [← List.append_nil chs]
    exact hchs [] [] .nil
  | .text h =>
    rw [Dialect.write, Dialect.writeNode, ok_bind] at hw
    obtain ⟨rest, hrest, rfl⟩ := bind_pure_eq_ok.mp hw
    rw [String.toList_append, ← List.append_assoc]
    exact (h.reads hrest).mono fun l chs => .cons_text
  | .node hs hn h =>
    rw [Dialect.write] at hw
    obtain ⟨first, hfirst, hw⟩ := bind_eq_ok.mp hw
    obtain ⟨rest, hrest, rfl⟩ := bind_pure_eq_ok.mp hw
    obtain ⟨hreads, hopens⟩ := hn.readsAsEcho first hfirst
    rw [String.toList_append]
    refine ((reads_passage hs).append (fun r _ => ?_)
      (hreads.append (fun _ _ => trivial) (h.reads hrest))).mono ?_
    · rw [List.append_assoc]
      exact hopens _
    · rintro l _ ⟨chs, _, rfl, htext, chs', chs'', rfl, hnode, hnodes⟩
      exact htext _ _ (hnode.cons hnodes)
  | .always h =>
    rw [write_always] at hw
    exact (h.reads hw).mono fun l chs => .always
  | .nothing h =>
    rw [write_nothing] at hw
    exact (h.reads hw).mono fun l chs => .nothing

/-- The same for a single node. -/
theorem ContainedNode.readsAsEcho {n : Node} (h : ContainedNode n) : NodeReadsAsEcho n := by
  match h with
  | .output he hc trim => exact .output he hc trim
  | .conditional hl hk he hb has hbs endTrim =>
    exact .conditional hl hk he (fun _ => hb.reads) has (fun arm harm _ => (hbs arm harm).reads)
      endTrim
  | .loop hx he hb ho trim elseTrim endTrim =>
    exact .loop hx he (fun _ => hb.reads) (fun nodes hnodes _ => (ho nodes hnodes).reads) trim
      elseTrim endTrim
  | .assign hx he trim endTrim => exact .assign hx he trim endTrim
  | .capture hx hb trim endTrim => exact .capture hx (fun _ => hb.reads) trim endTrim
  | .comment hc trim endTrim => exact .comment hc trim endTrim
  | .raw hc hq hs trim endTrim => exact .raw hc hq hs trim endTrim
  | .subtemplate he ignored trim => exact .subtemplate he ignored trim
  | .tag hw hn hv hs ha hd trim => exact .passedOn hw hn hv hs ha hd trim

end

/-- What is read from a contained template that was written echoes it. -/
theorem echoes_of_write {nodes nodes' : List Node} {source : String} (hc : Contained [] nodes)
    (hw : write nodes = .ok source) (hr : read source = .ok nodes') :
    Echoes loopWord {} [] nodes nodes' := by
  have hechoed := (hc.reads hw).whole
  obtain ⟨es, hes, hnodes⟩ := bind_eq_ok.mp hr
  obtain ⟨b, hb⟩ := Nesting.exists_feeds_of_run hes
  obtain ⟨es', rfl, hes'⟩ := hechoed {} b hb
  rw [parse, hb.run] at hes
  obtain rfl := Except.ok.inj hes
  exact hes' {} nodes' hnodes

end Stencil.Nunjucks
