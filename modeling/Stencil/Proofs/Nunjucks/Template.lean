import Stencil.Proofs.Nunjucks.Markup
import Stencil.Proofs.Shape

/-!
# Templates that are read as they were written

A template whose expressions are plain names is written as a Nunjucks source, and reading that
source gives the template back: every node, nested to any depth, with the markers of each of its
tags, although neither the markers nor the comments and raw blocks are part of the tree that is
read.

Each node is a piece of markup with other nodes inside it, so its chunks are known at every place
(`Nunjucks.Reads`). They add one element to the tree, and that element stands for the node in the
source as a whole, where the markers of its tags are found.

## Main results

* `Nunjucks.roundTrips_of_plainNodes` : plain nodes are read as they were written.
* `Nunjucks.read_write_of_plainNodes` : the same for a whole source.
-/

namespace Stencil.Nunjucks

/-! ### Plain templates -/

/-- Templates in which every expression is a plain name and every text stays what it is between
delimiters. -/
inductive PlainNodes : List Node → Prop
  | nil : PlainNodes []
  | text {content nodes} (hne : content ≠ "")
      (hc : ∀ c ∈ ['{', '%', '#'], Text.Lacks '{' c content.toList)
      (ht : startsWithText nodes = false) (hs : PlainNodes nodes) :
      PlainNodes (.text content :: nodes)
  | output {name nodes} (hn : isPlainName name) (trim : Trim) (hs : PlainNodes nodes) :
      PlainNodes (.output (.ident name) trim :: nodes)
  | conditional {name body arms nodes} (hn : isPlainName name) (hb : PlainNodes body)
      (ha : isArmList isPlainName arms) (hbs : ∀ arm ∈ arms, PlainNodes arm.body)
      (trim endTrim : Trim) (hs : PlainNodes nodes) :
      PlainNodes
        (.conditional .ifTrue (⟨some (.ident name), body, .unset⟩ :: arms) trim endTrim :: nodes)
  | opposite {name body nodes} (hn : isPlainName name) (hb : PlainNodes body) (trim endTrim : Trim)
      (hs : PlainNodes nodes) :
      PlainNodes
        (.conditional .ifFalse [⟨some (.ident name), body, .unset⟩] trim endTrim :: nodes)
  | loop {first more name body otherwise elseTrim nodes}
      (hx : ∀ x ∈ first :: more, Text.isIdentifier (String.toList x)) (hn : isPlainName name)
      (hb : PlainNodes body) (ho : ∀ nodes ∈ otherwise, PlainNodes nodes)
      (he : otherwise = none → elseTrim = .unset) (trim endTrim : Trim) (hs : PlainNodes nodes) :
      PlainNodes
        (.loop (", ".intercalate (first :: more)) (.ident name) body otherwise trim elseTrim
        endTrim :: nodes)
  | assign {x name nodes} (hx : Text.isIdentifier (String.toList x)) (hn : isPlainName name)
      (trim : Trim) (hs : PlainNodes nodes) :
      PlainNodes (.assignment x (some (.ident name)) none trim .unset :: nodes)
  | capture {x body nodes} (hx : Text.isIdentifier (String.toList x)) (hb : PlainNodes body)
      (trim endTrim : Trim) (hs : PlainNodes nodes) :
      PlainNodes (.assignment x none (some body) trim endTrim :: nodes)
  | comment {content nodes} (ht : Text.trim content.toList = content.toList)
      (hc : ¬ ['#', '}'] <:+: content.toList) (left right : Bool) (hs : PlainNodes nodes) :
      PlainNodes (.comment content ⟨left, false⟩ ⟨false, right⟩ :: nodes)
  | raw {content nodes} (hc : ∀ c ∈ ['%', '#'], Text.Lacks '{' c content.toList)
      (hh : ¬ symbolHead <:+: content.toList) (trim endTrim : Trim) (hs : PlainNodes nodes) :
      PlainNodes (.raw content trim endTrim :: nodes)
  | subtemplate {name nodes} (hn : isPlainName name) (ignoreMissing : Bool) (trim : Trim)
      (hs : PlainNodes nodes) :
      PlainNodes (.subtemplate (.ident name) ignoreMissing trim :: nodes)

/-! ### Nodes that are read as they were written -/

/-- The chunks add one element to the tree, which stands for the node in the source `l`. -/
def BuildsNode (n : Node) (l : Lifted) (chs : List Chunk) : Prop :=
  ∃ e, (∀ b : Builder, Nesting.Feeds feed chs b (b.push e)) ∧
    ∀ scope, Element.toNode l scope e = .ok n

/-- The chunks add elements to the tree, which stand for the nodes in the source `l`. -/
def Builds (nodes : List Node) (l : Lifted) (chs : List Chunk) : Prop :=
  ∃ es, (∀ b : Builder, Nesting.Feeds feed chs b (b.extend es)) ∧
    ∀ scope, Element.toNodes l scope es = .ok nodes

/-- A template that is written, and whose text is read as that template wherever it stands. -/
def RoundTrips (nodes : List Node) : Prop :=
  ∃ text, dialect.write nodes = .ok text ∧ Reads Opens text.toList (Builds nodes) ∧
    (startsWithText nodes = false → ∀ rest, Opens rest → Opens (text.toList ++ rest))

/-- The same for a single node that is not text. -/
def NodeRoundTrips (n : Node) : Prop :=
  ∃ text, dialect.writeNode n = .ok text ∧ Reads Anything text.toList (BuildsNode n) ∧
    ∀ rest, Opens (text.toList ++ rest)

variable {n : Node} {nodes body : List Node} {l : Lifted} {chs chs' : List Chunk}

theorem BuildsNode.cons (hn : BuildsNode n l chs) (hs : Builds nodes l chs') :
    Builds (n :: nodes) l (chs ++ chs') := by
  obtain ⟨e, hd, hm⟩ := hn
  obtain ⟨es, hds, hms⟩ := hs
  refine ⟨e :: es, fun b => ?_, fun scope => ?_⟩
  · rw [← Nesting.extend_push]
    exact (hd b).append (hds _)
  · rw [Element.toNodes, hm scope, hms scope]
    rfl

theorem RoundTrips.nil : RoundTrips [] := by
  refine ⟨"", by rw [Dialect.write], ?_, fun _ rest hr => hr⟩
  exact .nil fun l => ⟨[], fun _ => .nil, fun _ => by rw [Element.toNodes]⟩

theorem RoundTrips.cons (hn : NodeRoundTrips n) (hs : RoundTrips nodes) :
    RoundTrips (n :: nodes) := by
  obtain ⟨first, hw, hr, ho⟩ := hn
  obtain ⟨text, hws, hrs, -⟩ := hs
  refine ⟨first ++ text, ?_, ?_, ?_⟩
  · rw [Dialect.write, hw, hws]
    rfl
  · rw [String.toList_append]
    refine (hr.append (fun _ _ => trivial) hrs).mono ?_
    rintro l _ ⟨chs, chs', rfl, hd, hds⟩
    exact hd.cons hds
  · intro _ rest _
    rw [String.toList_append, List.append_assoc]
    exact ho _

theorem BuildsNode.data {p : Piece} (h : l.dataNode p = n) : BuildsNode n l [.data p] :=
  ⟨.data p, fun _ => .cons rfl .nil, fun _ => by rw [Element.toNode, h]⟩

/-- A text is read back if no text comes after it. -/
theorem RoundTrips.text {content : String} (hne : content ≠ "")
    (hc : ∀ c ∈ ['{', '%', '#'], Text.Lacks '{' c content.toList)
    (ht : startsWithText nodes = false) (hs : RoundTrips nodes) :
    RoundTrips (.text content :: nodes) := by
  obtain ⟨text, hws, hrs, ho⟩ := hs
  refine ⟨content ++ text, ?_, ?_, ?_⟩
  · rw [Dialect.write, Dialect.writeNode, hws]
    rfl
  · rw [String.toList_append]
    refine ((Reads.text hne hc).append (ho ht) hrs).mono ?_
    rintro l _ ⟨_, chs', rfl, ⟨p, rfl, hp⟩, hds⟩
    exact (BuildsNode.data hp).cons hds
  · intro h
    cases h

/-! ### Tags with an expression -/

variable {name x text : String} {e : Expr} {trim elseTrim endTrim : Trim}

theorem opens_tag (body : String) (trim : Trim) (rest : List Char) :
    Opens ((Markup.tag body trim).toList ++ rest) := by
  rw [toList_tag]
  exact .inr rfl

theorem opens_output (body : String) (trim : Trim) (rest : List Char) :
    Opens ((Markup.output body trim).toList ++ rest) := by
  rw [toList_output]
  exact .inr rfl

/-- The expression `e` is written as `text`, which is read as `e` after the first word of a tag. -/
structure Stands (e : Expr) (text : String) : Prop where
  writes : grammar.text e = .ok text
  reads : ∃ ls, Words (' ' :: text.toList) ls ∧
    ReadsAt 12 ls fun x => ∀ scope, x.toExpr scope = .ok e

theorem words_name {name : List Char} (hn : Text.isIdentifier name) :
    Words (' ' :: name) [⟨.name, name⟩] := by
  simpa using Words.word hn .nil

theorem stands_name (hn : isPlainName name) : Stands (.ident name) name := by
  obtain ⟨hident, hk, hloop, -⟩ := isPlainName_iff.mp hn
  refine ⟨by rw [Grammar.text, render_name, map_ok], _, words_name hident, ?_⟩
  exact (readsAt_symbol hk (by omega)).imp fun x hx => hx.toExpr hloop

theorem stands_not (hn : isPlainName name) : Stands (Expr.ident name).negate ("not " ++ name) := by
  obtain ⟨hident, hk, hloop, -⟩ := isPlainName_iff.mp hn
  refine ⟨?_, [.word "not", .word name], ?_, ?_⟩
  · simp [Grammar.text, Grammar.render, Grammar.renderSteps, Grammar.renderArgs, Grammar.renderList,
      Grammar.extend, Grammar.extendOperator, Grammar.group, Grammar.needsLeading, Grammar.wrap,
      grammar, operatorForm, Step.operator?, Expr.negate, Expr.pipe, Expr.ident, Expr.ofChain,
      ChainWords.write, ChainWords.writeRoot, ChainWords.writeAccesses]
  · have hnot : Text.isIdentifier "not".toList := by decide
    simpa [Lexeme.word] using Words.word hnot (words_name hident)
  · refine (readsAt_not_symbol hk).imp ?_
    rintro _ ⟨x, rfl, hx⟩ scope
    rw [Term.toExpr, hx.toExpr hloop]
    rfl

/-- The first words of tags that open no raw block. -/
def statementWords : List String :=
  ["if", "elif", "else", "endif", "for", "endfor", "set", "endset", "include"]

theorem isIdentifier_statementWords : ∀ word ∈ statementWords, Text.isIdentifier word.toList ∧
    word.toList ≠ "raw".toList ∧ word.toList ≠ "verbatim".toList := by
  decide

theorem Reads.statement (word : String) (hw : word ∈ statementWords) {args : List Char}
    {ls : List Lexeme} {body : String} (hbody : body.toList = word.toList ++ args)
    (ha : Words args ls) (trim : Trim) :
    Reads Anything (Markup.tag body trim).toList fun l chs => ∃ t pos,
      chs = [.tag t] ∧ IsTag t pos word ls ∧ l.markers pos = trim := by
  obtain ⟨hident, hv⟩ := isIdentifier_statementWords word hw
  exact .tag hbody hident ha hv trim

/-- A tag that is a single word. -/
theorem Reads.word (word : String) (hw : word ∈ statementWords) (trim : Trim) :
    Reads Anything (Markup.tag word trim).toList fun l chs => ∃ t pos,
      chs = [.tag t] ∧ IsTag t pos word [] ∧ l.markers pos = trim :=
  .statement word hw (by simp) .nil trim

/-! ### Outputs, comments, raw blocks and single tags -/

theorem NodeRoundTrips.output (hn : isPlainName name) (trim : Trim) :
    NodeRoundTrips (.output (.ident name) trim) := by
  obtain ⟨hident, hk, hloop, hcomment⟩ := isPlainName_iff.mp hn
  refine ⟨Markup.output name trim, ?_, ?_, opens_output name trim⟩
  · simp [Dialect.writeNode, dialect, (stands_name hn).writes]
  refine (Reads.output hident trim).mono ?_
  rintro l _ ⟨pos, closing, rfl, hmarkers⟩
  have hts : [Token.mk .name ⟨pos, name.toList⟩].map Token.lexeme = [.word name] := rfl
  obtain ⟨x, hx, hread⟩ := readOutputTerm_of_readsAt (readsAt_symbol hk (by omega)) hts closing
  refine ⟨.output pos x, fun b => .cons ?_ .nil, fun scope => ?_⟩
  · rw [feed, hread]
    rfl
  · rw [Element.toNode, Lifted.outputNode, hx.termComment?_eq_none hcomment, hx.toExpr hloop,
      map_ok, hmarkers]

theorem commentSymbol_notMem_keywords (i : Nat) : String.ofList (commentSymbol i) ∉ keywords := by
  have hhead : ∀ word ∈ keywords, word.toList.head? ≠ some '_' := by decide
  intro h
  refine hhead _ h ?_
  rw [String.toList_ofList]
  rfl

/-- The output of a symbol is the comment that the symbol stands for. -/
theorem BuildsNode.comment {i : Nat} {inner : List Char}
    (hi : l.comments[i]? = some (.ofInner inner))
    (pos : Nat) (closing : Piece) : BuildsNode (Comment.ofInner inner).toNode l
      [.output ⟨[⟨.name, ⟨pos, commentSymbol i⟩⟩], ⟨.outputEnd, closing⟩⟩] := by
  have hts : [Token.mk .name ⟨pos, commentSymbol i⟩].map Token.lexeme =
      [.word (String.ofList (commentSymbol i))] := by
    simp [Token.lexeme, Lexeme.word]
  obtain ⟨_, ⟨start, rfl⟩, hread⟩ := readOutputTerm_of_readsAt
    (readsAt_symbol (commentSymbol_notMem_keywords i) (by omega)) hts closing
  rw [String.toList_ofList] at hread
  refine ⟨.output pos (.symbol ⟨start, commentSymbol i⟩), fun b => .cons ?_ .nil, fun scope => ?_⟩
  · rw [feed, hread]
    rfl
  · rw [Element.toNode, Lifted.outputNode, Lifted.termComment?, Lifted.comment?_commentSymbol, hi]

theorem NodeRoundTrips.comment {content : String} (ht : Text.trim content.toList = content.toList)
    (hc : ¬ ['#', '}'] <:+: content.toList) (left right : Bool) :
    NodeRoundTrips (.comment content ⟨left, false⟩ ⟨false, right⟩) := by
  refine ⟨_, by rw [Dialect.writeNode]; rfl, ?_, fun rest => ?_⟩
  all_goals rw [toList_commentText]
  on_goal 2 => exact .inr rfl
  refine (Reads.comment (not_infix_commentInner hc left right)).mono ?_
  rintro l _ ⟨i, pos, closing, rfl, hi⟩
  have hbuilds := BuildsNode.comment hi pos closing
  rwa [toNode_ofInner, ht, String.ofList_toList] at hbuilds

theorem NodeRoundTrips.raw {content : String}
    (hc : ∀ c ∈ ['%', '#'], Text.Lacks '{' c content.toList)
    (hh : ¬ symbolHead <:+: content.toList) (trim endTrim : Trim) :
    NodeRoundTrips (.raw content trim endTrim) := by
  have hreads := Reads.raw (.of_lacks (hc '%' (by simp)) _) (hc '#' (by simp)) hh trim endTrim
  refine ⟨_, by rw [Dialect.writeNode], hreads.mono ?_, fun rest => ?_⟩
  · rintro l _ ⟨p, rfl, hp⟩
    exact .data hp
  · rw [Markup.block, String.toList_append, String.toList_append]
    simp only [List.append_assoc]
    exact opens_tag _ trim _

theorem NodeRoundTrips.assign (hx : Text.isIdentifier x.toList) (hn : isPlainName name)
    (trim : Trim) : NodeRoundTrips (.assignment x (some (.ident name)) none trim .unset) := by
  obtain ⟨hwrite, ls, hwords, hread⟩ := stands_name hn
  refine ⟨Markup.tag ("set" ++ " " ++ x ++ " = " ++ name) trim, ?_, ?_, opens_tag _ trim⟩
  · simp [Dialect.writeNode, dialect, Dialect.writeOption, Markup.assignment, hwrite,
      assignmentWords]
  refine (Reads.statement "set" (by decide) (by simp) (.word hx hwords.equals) trim).mono ?_
  rintro l _ ⟨t, pos, rfl, ht, hmarkers⟩
  obtain ⟨y, hy, hfeed⟩ := feed_set (x := x) ht hread
  refine ⟨_, fun b => .cons (hfeed b) .nil, fun scope => ?_⟩
  rw [Element.toNode, hy scope, hmarkers]
  simp

/-- The words of the permission for a template not to exist. -/
theorem words_ignore (ignored : Bool) :
    Words (if ignored then " ignore missing" else "").toList (ignoreLexemes ignored) := by
  cases ignored
  · exact .nil
  · have hwords : Text.isIdentifier "ignore".toList ∧ Text.isIdentifier "missing".toList := by
      decide
    exact .word hwords.1 (words_name hwords.2)

theorem NodeRoundTrips.subtemplate (hn : isPlainName name) (ignored : Bool) (trim : Trim) :
    NodeRoundTrips (.subtemplate (.ident name) ignored trim) := by
  obtain ⟨hwrite, ls, hwords, hread⟩ := stands_name hn
  refine ⟨_, ?_, ?_, opens_tag
    ("include " ++ name ++ if ignored then " ignore missing" else "") trim⟩
  · simp [Dialect.writeNode, dialect, writeSubtemplate, hwrite]
  refine (Reads.statement "include" (by decide) (by simp)
    (hwords.append (words_ignore ignored)) trim).mono ?_
  rintro l _ ⟨t, pos, rfl, ht, hmarkers⟩
  obtain ⟨y, hy, hfeed⟩ := feed_include ht hread
  refine ⟨_, fun b => .cons (hfeed b) .nil, fun scope => ?_⟩
  rw [Element.toNode, hy scope, hmarkers]
  rfl

/-! ### Captures and loops -/

theorem NodeRoundTrips.capture (hx : Text.isIdentifier x.toList) (hb : RoundTrips body)
    (trim endTrim : Trim) : NodeRoundTrips (.assignment x none (some body) trim endTrim) := by
  obtain ⟨text, hw, hr, -⟩ := hb
  refine ⟨Markup.block ("set" ++ " " ++ x) text "endset" trim endTrim, ?_, ?_, fun rest => ?_⟩
  · rw [Dialect.writeNode, Dialect.writeOption, hw]
    rfl
  all_goals rw [Markup.block, String.toList_append, String.toList_append]
  all_goals rw [List.append_assoc]
  on_goal 2 => rw [List.append_assoc]; exact opens_tag _ trim _
  refine ((Reads.statement "set" (by decide) (by simp) (words_name hx) trim).append
    (fun _ _ => trivial) (hr.append (fun rest _ => opens_tag "endset" endTrim rest)
      (.word "endset" (by decide) endTrim))).mono ?_
  rintro l _ ⟨_, _, rfl, ⟨t, pos, rfl, ht, hmarkers⟩, chs, _, rfl, ⟨es, hfeeds, hnodes⟩,
    u, endPos, rfl, hu, hend⟩
  have ht : IsTag t pos "set" (nameLexemes x []) := ht
  refine ⟨.capture pos [x] es endPos, fun b => .cons (feed_capture ht b) ?_, fun scope => ?_⟩
  · refine (hfeeds _).append (.cons (feed_close hu fun closing => ?_) .nil)
    rfl
  · rw [Element.toNode, hnodes scope, hmarkers, hend]
    simp

/-- Names with commas between them, before more words. -/
theorem words_names {first : String} {more : List String} {s : List Char} {ls : List Lexeme}
    (hx : ∀ x ∈ first :: more, Text.isIdentifier (String.toList x)) (hs : Words s ls) :
    Words (' ' :: ((", ".intercalate (first :: more)).toList ++ s))
      (nameLexemes first more ++ ls) := by
  induction more generalizing first with
  | nil => simpa [nameLexemes, Lexeme.word] using Words.word (hx first List.mem_cons_self) hs
  | cons name more ih =>
    have htail := ih fun x h => hx x (List.mem_cons_of_mem _ h)
    have hwords := Words.word (hx first List.mem_cons_self) htail.comma
    simpa [nameLexemes, Lexeme.word, Text.intercalate_cons] using hwords

/-- The alternative of a loop and its closing tag are read back. -/
theorem reads_loopElse {otherwise : Option (List Node)} (ho : ∀ nodes ∈ otherwise, RoundTrips nodes)
    (elseTrim endTrim : Trim) :
    ∃ text, Markup.loopElse elseTrim (dialect.writeOption otherwise) = .ok text ∧
      Reads Anything (text.toList ++ (Markup.tag "endfor" endTrim).toList) (fun l chs =>
        ∃ alternative endPos, l.markers endPos = endTrim ∧
          (∀ (b : Builder) pos names collection body,
            Nesting.Feeds feed chs ((b.enter (.loop pos names collection)).extend body)
              (b.push (.loop pos names collection body alternative endPos))) ∧
          ∀ scope, Element.toAlternative l scope alternative =
            .ok (otherwise.map fun nodes => (nodes, elseTrim))) ∧
      ∀ rest, Opens (text.toList ++ (Markup.tag "endfor" endTrim).toList ++ rest) := by
  cases otherwise with
  | none =>
    refine ⟨"", by rw [Dialect.writeOption, Markup.loopElse], ?_, ?_⟩
    all_goals rw [String.toList_empty, List.nil_append]
    on_goal 2 => exact opens_tag "endfor" endTrim
    refine (Reads.word "endfor" (by decide) endTrim).mono ?_
    rintro l _ ⟨t, endPos, rfl, ht, hend⟩
    refine ⟨none, endPos, hend, fun b pos names collection body => ?_, fun scope => ?_⟩
    · exact .cons (feed_close ht fun closing => rfl) .nil
    · rw [Element.toAlternative]
      rfl
  | some nodes =>
    obtain ⟨text, hw, hr, -⟩ := ho nodes rfl
    refine ⟨Markup.tag "else" elseTrim ++ text, ?_, ?_, fun rest => ?_⟩
    · rw [Dialect.writeOption, hw]
      rfl
    all_goals rw [String.toList_append, List.append_assoc]
    on_goal 2 => rw [List.append_assoc]; exact opens_tag "else" elseTrim _
    refine ((Reads.word "else" (by decide) elseTrim).append (fun _ _ => trivial)
      (hr.append (fun rest _ => opens_tag "endfor" endTrim rest)
        (.word "endfor" (by decide) endTrim))).mono ?_
    rintro l _ ⟨_, _, rfl, ⟨t, elsePos, rfl, ht, helse⟩, chs, _, rfl, ⟨es, hfeeds, hnodes⟩,
      u, endPos, rfl, hu, hend⟩
    refine ⟨some ⟨elsePos, es⟩, endPos, hend, fun b pos names collection body => ?_,
      fun scope => ?_⟩
    · refine .cons (feed_enter ht fun closing => rfl) ((hfeeds _).append ?_)
      exact .cons (feed_close hu fun closing => rfl) .nil
    · rw [Element.toAlternative, hnodes scope, helse]
      rfl

theorem NodeRoundTrips.loop {first : String} {more : List String} {otherwise : Option (List Node)}
    (hx : ∀ x ∈ first :: more, Text.isIdentifier (String.toList x)) (hn : isPlainName name)
    (hb : RoundTrips body) (ho : ∀ nodes ∈ otherwise, RoundTrips nodes)
    (he : otherwise = none → elseTrim = .unset) (trim endTrim : Trim) :
    NodeRoundTrips (.loop (", ".intercalate (first :: more)) (.ident name) body otherwise trim
      elseTrim endTrim) := by
  obtain ⟨text, hw, hr, -⟩ := hb
  obtain ⟨closing, hwe, hre, hopens⟩ := reads_loopElse ho elseTrim endTrim
  obtain ⟨hwrite, ls, hwords, hread⟩ := stands_name hn
  have hin : Text.isIdentifier "in".toList := by decide
  refine ⟨Markup.tag ("for " ++ ", ".intercalate (first :: more) ++ " in " ++ name) trim ++ text ++
    closing ++ Markup.tag "endfor" endTrim, ?_, ?_, fun rest => ?_⟩
  · rw [Dialect.writeNode, hw]
    change Markup.loop grammar.text _ (.ident name) _ _ trim elseTrim endTrim = _
    rw [Markup.loop, hwrite, hwe]
    rfl
  all_goals simp only [String.toList_append, List.append_assoc]
  on_goal 2 => exact opens_tag _ trim _
  refine ((Reads.statement "for" (by decide) (by simp) (words_names hx (.word hin hwords))
    trim).append (fun _ _ => trivial) (hr.append (fun rest _ => hopens rest) hre)).mono ?_
  rintro l _ ⟨_, _, rfl, ⟨t, pos, rfl, ht, hmarkers⟩, chs, chs', rfl, ⟨es, hfeeds, hnodes⟩,
    alternative, endPos, hend, hfeedEnd, halt⟩
  obtain ⟨y, hy, hfeed⟩ := feed_for ht hread
  refine ⟨.loop pos (first :: more) y es alternative endPos, fun b => ?_, fun scope => ?_⟩
  · exact .cons (hfeed b) ((hfeeds _).append (hfeedEnd b pos _ y es))
  · rw [Element.toNode, hy scope, hnodes .loopBody, halt scope, hmarkers, hend]
    cases otherwise with
    | none => rw [he rfl]; rfl
    | some nodes => rfl

/-! ### Conditionals -/

variable {arms : List (Branch (List Node))}

/-- After the body of a clause, the chunks end the conditional with these further arms. -/
def BuildsArms (arms : List (Branch (List Node))) (endTrim : Trim) (l : Lifted)
    (chs : List Chunk) : Prop :=
  ∃ rest otherwise endPos, l.markers endPos = endTrim ∧
    (∀ (b : Builder) done pos condition body,
      Nesting.Feeds feed chs ((b.enter (.clause done pos condition)).extend body)
        (b.push (.conditional (Clauses.extend done ⟨pos, condition, body⟩).first
          ((Clauses.extend done ⟨pos, condition, body⟩).rest ++ rest) otherwise endPos))) ∧
    ∀ scope, ∃ first alternative, Element.clauseArms l scope rest = .ok first ∧
      Element.toAlternative l scope otherwise = .ok alternative ∧
      arms = first ++ Branch.ofAlternative alternative

/-- A clause comes after those that are done. -/
theorem Clauses.extend_some {γ : Type} (done : Option (Clauses γ)) (clause next : γ) :
    Clauses.extend (some (Clauses.extend done clause)) next =
      ⟨(Clauses.extend done clause).first, (Clauses.extend done clause).rest ++ [next]⟩ :=
  rfl

theorem BuildsArms.closing {t : Inside} {endPos : Nat} (ht : IsTag t endPos "endif" [])
    (hend : l.markers endPos = endTrim) : BuildsArms [] endTrim l [.tag t] := by
  refine ⟨[], none, endPos, hend, fun b done pos condition body => ?_, fun scope => ?_⟩
  · refine .cons (feed_close ht fun closing => ?_) .nil
    rw [List.append_nil]
    rfl
  · exact ⟨[], none, by rw [Element.clauseArms], by rw [Element.toAlternative], rfl⟩

theorem BuildsArms.otherwise {t u : Inside} {elsePos endPos : Nat} (ht : IsTag t elsePos "else" [])
    (helse : l.markers elsePos = trim) (hb : Builds body l chs) (hu : IsTag u endPos "endif" [])
    (hend : l.markers endPos = endTrim) :
    BuildsArms [⟨none, body, trim⟩] endTrim l (.tag t :: (chs ++ [.tag u])) := by
  obtain ⟨es, hfeeds, hnodes⟩ := hb
  refine ⟨[], some ⟨elsePos, es⟩, endPos, hend, fun b done pos condition body' => ?_,
    fun scope => ?_⟩
  · refine .cons (feed_enter ht fun closing => rfl) ((hfeeds _).append ?_)
    refine .cons (feed_close hu fun closing => ?_) .nil
    rw [List.append_nil]
    rfl
  · refine ⟨[], some (body, trim), by rw [Element.clauseArms], ?_, rfl⟩
    rw [Element.toAlternative, hnodes scope, helse]
    rfl

theorem BuildsArms.clause {t : Inside} {pos : Nat} {ls : List Lexeme} (ht : IsTag t pos "elif" ls)
    (hread : ReadsAt 12 ls fun x => ∀ scope, x.toExpr scope = .ok e)
    (hmarkers : l.markers pos = trim)
    (hb : Builds body l chs) (ha : BuildsArms arms endTrim l chs') :
    BuildsArms (⟨some e, body, trim⟩ :: arms) endTrim l (.tag t :: (chs ++ chs')) := by
  obtain ⟨es, hfeeds, hnodes⟩ := hb
  obtain ⟨rest, otherwise, endPos, hend, hfeedEnd, harms⟩ := ha
  obtain ⟨x, hx, hfeed⟩ := feed_elif ht hread
  refine ⟨⟨pos, x, es⟩ :: rest, otherwise, endPos, hend, fun b done start condition body' => ?_,
    fun scope => ?_⟩
  · refine .cons (hfeed b done start condition body') ((hfeeds _).append ?_)
    have := hfeedEnd b (some (Clauses.extend done ⟨start, condition, body'⟩)) pos x es
    rwa [Clauses.extend_some, List.append_assoc] at this
  · obtain ⟨first, alternative, hfirst, halt, rfl⟩ := harms scope
    refine ⟨⟨some e, body, trim⟩ :: first, alternative, ?_, halt, rfl⟩
    rw [Element.clauseArms, hx scope, hnodes scope, hfirst, hmarkers]
    rfl

/-- The arms of a conditional and its closing tag are read back. -/
theorem reads_arms (ha : isArmList isPlainName arms) (hbs : ∀ arm ∈ arms, RoundTrips arm.body)
    (endTrim : Trim) :
    ∃ text, Markup.arms grammar.text "elif" (dialect.writeBranches arms) = .ok text ∧
      Reads Anything (text.toList ++ (Markup.tag "endif" endTrim).toList)
        (BuildsArms arms endTrim) ∧
      ∀ rest, Opens (text.toList ++ (Markup.tag "endif" endTrim).toList ++ rest) := by
  induction arms with
  | nil =>
    refine ⟨"", by rw [Dialect.writeBranches, Markup.arms], ?_, ?_⟩
    all_goals rw [String.toList_empty, List.nil_append]
    on_goal 2 => exact opens_tag "endif" endTrim
    refine (Reads.word "endif" (by decide) endTrim).mono ?_
    rintro l _ ⟨t, endPos, rfl, ht, hend⟩
    exact .closing ht hend
  | cons arm arms ih =>
    obtain ⟨condition, body, trim⟩ := arm
    obtain ⟨text, hw, hr, -⟩ := hbs _ List.mem_cons_self
    cases condition with
    | none =>
      obtain rfl := eq_nil_of_isArmList ha
      refine ⟨Markup.tag "else" trim ++ text ++ "", ?_, ?_, fun rest => ?_⟩
      · rw [Dialect.writeBranches, Dialect.writeBranches, Markup.arms, Markup.arms, hw]
        rfl
      all_goals simp only [String.toList_append, List.append_assoc, String.toList_empty,
        List.nil_append]
      on_goal 2 => exact opens_tag "else" trim _
      refine ((Reads.word "else" (by decide) trim).append (fun _ _ => trivial)
        (hr.append (fun rest _ => opens_tag "endif" endTrim rest)
          (.word "endif" (by decide) endTrim))).mono ?_
      rintro l _
        ⟨_, _, rfl, ⟨t, elsePos, rfl, ht, helse⟩, chs, _, rfl, hb, u, endPos, rfl, hu, hend⟩
      rw [List.singleton_append]
      exact .otherwise ht helse hb hu hend
    | some condition =>
      obtain ⟨hn, harms⟩ := Bool.and_eq_true _ _ |>.mp ha
      obtain ⟨name, hname, rfl⟩ := exists_of_isNameExpr hn
      obtain ⟨more, hws, hrs, hopens⟩ := ih harms fun arm h => hbs arm (List.mem_cons_of_mem _ h)
      obtain ⟨hwrite, ls, hwords, hread⟩ := stands_name hname
      refine ⟨Markup.tag ("elif" ++ " " ++ name) trim ++ text ++ more, ?_, ?_, fun rest => ?_⟩
      · rw [Dialect.writeBranches, Markup.arms, hwrite, hw, hws]
        rfl
      all_goals simp only [String.toList_append, List.append_assoc]
      on_goal 2 => exact opens_tag _ trim _
      refine ((Reads.statement "elif" (by decide) (by simp) hwords trim).append
        (fun _ _ => trivial) (hr.append (fun rest _ => hopens rest) hrs)).mono ?_
      rintro l _ ⟨_, _, rfl, ⟨t, pos, rfl, ht, hmarkers⟩, chs, chs', rfl, hb, harms⟩
      rw [List.singleton_append]
      exact .clause ht hread hmarkers hb harms

/-- A chain of conditions is read back as far as the choice of its kind. -/
theorem reads_chain (hs : Stands e text) (hb : RoundTrips body) (ha : isArmList isPlainName arms)
    (hbs : ∀ arm ∈ arms, RoundTrips arm.body) (trim endTrim : Trim) {kind : Variant}
    {branches : List (Branch (List Node))}
    (hkind : recogniseVariant (⟨some e, body, .unset⟩ :: arms) = (kind, branches)) :
    ∃ source, Markup.conditional grammar.text conditionalWords trim endTrim
        (dialect.writeBranches (⟨some e, body, .unset⟩ :: arms)) = .ok source ∧
      Reads Anything source.toList (BuildsNode (.conditional kind branches trim endTrim)) ∧
      ∀ rest, Opens (source.toList ++ rest) := by
  obtain ⟨first, hw, hr, -⟩ := hb
  obtain ⟨more, hws, hrs, hopens⟩ := reads_arms ha hbs endTrim
  obtain ⟨hwrite, ls, hwords, hread⟩ := hs
  refine ⟨Markup.tag ("if" ++ " " ++ text) trim ++ first ++ more ++ Markup.tag "endif" endTrim,
    ?_, ?_, fun rest => ?_⟩
  · rw [Dialect.writeBranches, Markup.conditional, hwrite, hw, conditionalWords, hws]
    rfl
  all_goals simp only [String.toList_append, List.append_assoc]
  on_goal 2 => exact opens_tag _ trim _
  refine ((Reads.statement "if" (by decide) (by simp) hwords trim).append
    (fun _ _ => trivial) (hr.append (fun rest _ => hopens rest) hrs)).mono ?_
  rintro l _ ⟨_, _, rfl, ⟨t, pos, rfl, ht, hmarkers⟩, chs, chs', rfl, ⟨es, hfeeds, hnodes⟩,
    rest, otherwise, endPos, hend, hfeedEnd, harms⟩
  obtain ⟨x, hx, hfeed⟩ := feed_if ht hread
  refine ⟨.conditional ⟨pos, x, es⟩ rest otherwise endPos, fun b => ?_, fun scope => ?_⟩
  · exact .cons (hfeed b) ((hfeeds _).append (hfeedEnd b none pos x es))
  · obtain ⟨first, alternative, hfirst, halt, rfl⟩ := harms scope
    rw [Element.toNode, hx scope, hnodes scope, hfirst, halt, hmarkers, hend]
    simp only [ok_bind, List.cons_append, hkind]
    rfl

theorem NodeRoundTrips.conditional (hn : isPlainName name) (hb : RoundTrips body)
    (ha : isArmList isPlainName arms) (hbs : ∀ arm ∈ arms, RoundTrips arm.body)
    (trim endTrim : Trim) : NodeRoundTrips
      (.conditional .ifTrue (⟨some (.ident name), body, .unset⟩ :: arms) trim endTrim) := by
  have hkind : recogniseVariant (⟨some (.ident name), body, .unset⟩ :: arms) =
      (.ifTrue, ⟨some (.ident name), body, .unset⟩ :: arms) := by
    have hnegation : isNegation (.ident name) = false := rfl
    simp [recogniseVariant, hnegation]
  obtain ⟨source, hw, hr, ho⟩ := reads_chain (stands_name hn) hb ha hbs trim endTrim hkind
  refine ⟨source, ?_, hr, ho⟩
  rw [Dialect.writeNode, ← hw]
  rfl

/-- The opposite choice is written as a chain with a negated condition, and read back from it. -/
theorem NodeRoundTrips.opposite (hn : isPlainName name) (hb : RoundTrips body)
    (trim endTrim : Trim) : NodeRoundTrips
      (.conditional .ifFalse [⟨some (.ident name), body, .unset⟩] trim endTrim) := by
  have hkind : recogniseVariant [⟨some (Expr.ident name).negate, body, .unset⟩] =
      (.ifFalse, [⟨some (.ident name), body, .unset⟩]) := rfl
  obtain ⟨source, hw, hr, ho⟩ := reads_chain (stands_not hn) hb rfl (by simp) trim endTrim hkind
  refine ⟨source, ?_, hr, ho⟩
  rw [Dialect.writeNode, ← hw]
  rfl

/-! ### Whole templates -/

/-- Plain templates are read back wherever they stand. -/
theorem roundTrips_of_plainNodes (h : PlainNodes nodes) : RoundTrips nodes := by
  induction h with
  | nil => exact .nil
  | text hne hc ht _ ih => exact .text hne hc ht ih
  | output hn trim _ ih => exact .cons (.output hn trim) ih
  | conditional hn _ ha _ trim endTrim _ hb hbs ih =>
    exact .cons (.conditional hn hb ha hbs trim endTrim) ih
  | opposite hn _ trim endTrim _ hb ih => exact .cons (.opposite hn hb trim endTrim) ih
  | loop hx hn _ _ he trim endTrim _ hb ho ih => exact .cons (.loop hx hn hb ho he trim endTrim) ih
  | assign hx hn trim _ ih => exact .cons (.assign hx hn trim) ih
  | capture hx _ trim endTrim _ hb ih => exact .cons (.capture hx hb trim endTrim) ih
  | comment ht hc left right _ ih => exact .cons (.comment ht hc left right) ih
  | raw hc hh trim endTrim _ ih => exact .cons (.raw hc hh trim endTrim) ih
  | subtemplate hn ignored trim _ ih => exact .cons (.subtemplate hn ignored trim) ih

/-- What is known of a text that is read at any place holds of it as a whole source. -/
theorem Reads.whole {source : String} {P : Lifted → List Chunk → Prop}
    (h : Reads Opens source.toList P) :
    P (liftComments source.toList) (chunks ⟨0, (liftComments source.toList).source⟩) := by
  obtain ⟨pre, chs, -, hextend, hchunks, hP⟩ := h ⟨[], []⟩ [] .nil (.inl rfl)
  have hlift : liftComments source.toList = pre.extend [] := by
    rw [← hextend, List.append_nil, Lifted.extend]
    rfl
  have hempty : pre.chunksAfter [] = [] := by
    rw [Lifted.chunksAfter, liftFrom_nil, chunks]
    simp
  have hsource : chunks ⟨0, (liftComments source.toList).source⟩ = chs := by
    rw [hempty, List.append_nil, List.append_nil] at hchunks
    exact hchunks
  rwa [hsource, hlift]

/-- A text that is read as elements when it stands alone is read as their nodes. -/
theorem read_of_reads {source : String} (h : Reads Opens source.toList (Builds nodes)) :
    read source = .ok nodes := by
  obtain ⟨es, hfeeds, hnodes⟩ := h.whole
  rw [read, parse, (hfeeds {}).run, bind_ok]
  exact hnodes {}

/-- A plain template is written, and reading what is written gives the template back. -/
theorem read_write_of_plainNodes (nodes : List Node) (h : PlainNodes nodes) :
    ∃ source, write nodes = .ok source ∧ read source = .ok nodes := by
  obtain ⟨source, hw, hr, -⟩ := roundTrips_of_plainNodes h
  exact ⟨source, hw, read_of_reads hr⟩

/-- Nested blocks of every kind, with markers on some of their tags, and comments and raw blocks
that hold delimiters. -/
theorem read_write_of_plainNodes_nested :
    let nodes : List Node :=
      [.text "a \x7b b",
       .comment "\x7b% x" ⟨true, false⟩ ⟨false, false⟩,
       .conditional .ifTrue
         [⟨some (.ident "a"), [.loop "key, value" (.ident "items")
             [.output (.ident "key") ⟨true, false⟩, .text " "]
             (some [.raw "\x7b\x7b x \x7d\x7d" .unset ⟨false, true⟩]) .unset ⟨true, true⟩ .unset],
           .unset⟩,
          ⟨some (.ident "b"), [.subtemplate (.ident "page") true ⟨true, true⟩], ⟨false, true⟩⟩,
          ⟨none, [.comment "" ⟨false, false⟩ ⟨false, true⟩], .unset⟩] ⟨true, false⟩ .unset,
       .conditional .ifFalse [⟨some (.ident "c"), [], .unset⟩] .unset ⟨false, true⟩,
       .assignment "x" none (some [.assignment "y" (some (.ident "z")) none ⟨true, true⟩ .unset])
         .unset .unset]
    PlainNodes nodes ∧ ∃ source, write nodes = .ok source ∧ read source = .ok nodes := by
  intro nodes
  have h : PlainNodes nodes := by
    refine .text (by decide +kernel) (by decide +kernel) rfl (.comment (by decide +kernel)
      (by decide +kernel) true false (.conditional (by decide +kernel) ?_ (by decide +kernel) ?_ _ _
        (.opposite (by decide +kernel) .nil _ _
          (.capture (by decide +kernel) (.assign (by decide +kernel) (by decide +kernel) _ .nil) _ _
            .nil))))
    · have hnames : ", ".intercalate ["key", "value"] = "key, value" := by decide +kernel
      rw [← hnames]
      refine .loop (by decide +kernel) (by decide +kernel) (.output (by decide +kernel) _
        (.text (by decide +kernel) (by decide +kernel) rfl .nil)) ?_ (by simp) _ _ .nil
      intro ns hns
      obtain rfl := Option.mem_some.mp hns
      exact .raw (by decide +kernel) (by decide +kernel) _ _ .nil
    · simp only [List.forall_mem_cons, List.not_mem_nil, false_imp_iff, implies_true, and_true]
      refine ⟨.subtemplate (by decide +kernel) _ _ .nil, ?_⟩
      exact .comment (by decide +kernel) (by decide +kernel) false true .nil
  exact ⟨h, read_write_of_plainNodes nodes h⟩

end Stencil.Nunjucks
