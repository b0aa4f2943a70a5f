import Stencil.Nunjucks.Tree
import Stencil.Proofs.Nesting
import Stencil.Proofs.Nunjucks.Chain
import Stencil.Proofs.Nunjucks.Chunk

/-!
# Statements of written tags

What a tag does to the tree that is being built depends on its first word and the lexemes after it.
A word that goes on with a block does so with the innermost one; the other words open a block or add
an element, whatever blocks are open.
-/

namespace Stencil.Nunjucks

variable {ls ls' : List Lexeme} {P : Term → Prop}

/-! ### Whole terms -/

/-- A whole term is read up to what no level takes for its own. -/
theorem parseTerm_of_readsAt (h : ReadsAt 12 ls P) (ending : Ending) {ts rest : List Token}
    (hts : ts.map Token.lexeme = ls) (hr : Follow 13 rest) :
    ∃ x, P x ∧ parseTerm ending (ts ++ rest) = .ok (x, rest) := by
  obtain ⟨x, hx, hterm⟩ := h.reads ending (ts ++ rest).length ts rest hts
    (by rw [← hts, List.length_map, List.length_append]; omega) hr
  exact ⟨x, hx, hterm⟩

/-- The lexemes of a whole term make up the value of an output. -/
theorem readOutputTerm_of_readsAt (h : ReadsAt 12 ls P) {ts : List Token}
    (hts : ts.map Token.lexeme = ls) (closing : Piece) :
    ∃ x, P x ∧ readOutputTerm ⟨ts, ⟨.outputEnd, closing⟩⟩ = .ok x := by
  obtain ⟨x, hx, hterm⟩ := parseTerm_of_readsAt h ⟨.outputEnd, closing⟩ hts (.nil _)
  refine ⟨x, hx, ?_⟩
  rw [List.append_nil] at hterm
  simp [readOutputTerm, hterm]

/-- The lexemes of a whole term take up the rest of a tag. -/
theorem termToEnd_of_readsAt (h : ReadsAt 12 ls P) {ts : List Token}
    (hts : ts.map Token.lexeme = ls) (closing : Piece) :
    ∃ x, P x ∧ termToEnd ⟨.tagEnd, closing⟩ ts = .ok x := by
  obtain ⟨x, hx, hterm⟩ := parseTerm_of_readsAt h ⟨.tagEnd, closing⟩ hts (.nil _)
  refine ⟨x, hx, ?_⟩
  rw [List.append_nil] at hterm
  simp [termToEnd, hterm, expectTagEnd]

/-! ### Plain names -/

/-- The names that stand for themselves wherever they are read: those that are not taken, are not
the loop object and do not stand for a comment. -/
def isPlainName (name : String) : Bool :=
  Text.isIdentifier name.toList && !keywords.contains name && name != chainWords.loopVar &&
    !Text.startsWith symbolHead name.toList

/-- A term that is a given name. -/
def IsSymbol (name : String) (x : Term) : Prop :=
  ∃ start, x = .symbol ⟨start, name.toList⟩

section Names

variable {name : String} {x : Term}

theorem isPlainName_iff : isPlainName name ↔ Text.isIdentifier name.toList ∧ name ∉ keywords ∧
    name ≠ chainWords.loopVar ∧ Text.startsWith symbolHead name.toList = false := by
  simp [isPlainName, and_assoc]

theorem render_name (name : String) : grammar.render (.ident name) = .ok ⟨name, .atom⟩ := by
  simp [Grammar.render, Grammar.renderSteps, Grammar.wrap, grammar, Expr.ident, Expr.ofChain,
    ChainWords.write, ChainWords.writeRoot, ChainWords.writeAccesses]

theorem readsAt_symbol (hk : name ∉ keywords) {n : Nat} (hn : n ≤ 12) :
    ReadsAt n [.word name] (IsSymbol name) := by
  have hnot : name.toList ≠ "not".toList := by
    intro hn
    rw [String.toList_inj] at hn
    exact hk (by simp [hn, keywords])
  refine (ExtendsAt.name hnot fun start => ?_).readsAt.mono (by omega) hn
  exact ⟨start, wordTerm_of_notMem (by simpa using hk) start⟩

theorem readsAt_not_symbol (hk : name ∉ keywords) :
    ReadsAt 12 [.word "not", .word name] fun x => ∃ y, x = .negated y ∧ IsSymbol name y := by
  have hname := readsAt_symbol hk (n := 9) (by omega)
  exact (hname.negated fun x hx => ⟨x, rfl, hx⟩).mono (by omega) (by omega)

theorem IsSymbol.toExpr (hx : IsSymbol name x) (hn : name ≠ chainWords.loopVar) (scope : Scope) :
    x.toExpr scope = .ok (.ident name) := by
  obtain ⟨start, rfl⟩ := hx
  simp [Term.toExpr, Piece.toString, hn]

theorem IsSymbol.termComment?_eq_none (hx : IsSymbol name x)
    (hn : Text.startsWith symbolHead name.toList = false) (l : Lifted) :
    l.termComment? x = none := by
  obtain ⟨start, rfl⟩ := hx
  exact l.comment?_eq_none hn

end Names

/-! ### Tags -/

/-- A tag with the first word `word` at the offset `pos`, and the lexemes `ls` after it. -/
def IsTag (t : Inside) (pos : Nat) (word : String) (ls : List Lexeme) : Prop :=
  ∃ ts closing, t = ⟨⟨.name, ⟨pos, word.toList⟩⟩ :: ts, ⟨.tagEnd, closing⟩⟩ ∧
    ts.map Token.lexeme = ls

variable {t : Inside} {pos : Nat} {word : String} {b : Builder} {block next : Block} {e : Element}
  {es : List Element}

theorem feed_tag (b : Builder) (pos : Nat) (word : List Char) (ts : List Token) (ending : Ending) :
    feed b (.tag ⟨⟨.name, ⟨pos, word⟩⟩ :: ts, ending⟩) =
      b.advance (fun block body => block.advance ending ⟨pos, word⟩ ts body)
        (openTag b ending ⟨pos, word⟩ ts) :=
  rfl

/-- A tag without arguments that ends the innermost block. -/
theorem feed_close (ht : IsTag t pos word [])
    (h : ∀ closing, block.advance ⟨.tagEnd, closing⟩ ⟨pos, word.toList⟩ [] es = .ok (.close e)) :
    feed ((b.enter block).extend es) (.tag t) = .ok (b.push e) := by
  obtain ⟨ts, closing, rfl, hts⟩ := ht
  obtain rfl := List.map_eq_nil_iff.mp hts
  rw [feed_tag]
  exact Nesting.advance_close (h closing)

/-- A tag without arguments that begins another part of the innermost block. -/
theorem feed_enter (ht : IsTag t pos word [])
    (h : ∀ closing, block.advance ⟨.tagEnd, closing⟩ ⟨pos, word.toList⟩ [] es = .ok (.enter next)) :
    feed ((b.enter block).extend es) (.tag t) = .ok (b.enter next) := by
  obtain ⟨ts, closing, rfl, hts⟩ := ht
  obtain rfl := List.map_eq_nil_iff.mp hts
  rw [feed_tag]
  exact Nesting.advance_enter (h closing)

/-- Another condition of the innermost block. -/
theorem feed_elif (ht : IsTag t pos "elif" ls) (h : ReadsAt 12 ls P) :
    ∃ x, P x ∧ ∀ (b : Builder) done start condition body,
      feed ((b.enter (.clause done start condition)).extend body) (.tag t) =
        .ok (b.enter (.clause (Clauses.extend done ⟨start, condition, body⟩) pos x)) := by
  obtain ⟨ts, closing, rfl, hts⟩ := ht
  obtain ⟨x, hx, hterm⟩ := termToEnd_of_readsAt h hts closing
  refine ⟨x, hx, fun b done start condition body => ?_⟩
  rw [feed_tag]
  refine Nesting.advance_enter ?_
  simp [Block.advance, Piece.toString, hterm]

/-- The words that go on with a block. -/
def continuing : List String :=
  ["elif", "elseif", "else", "endif", "endfor", "endset"]

/-- The other words go on with no block. -/
theorem feed_statement (hw : word ∉ continuing) (b : Builder) (pos : Nat) (ts : List Token)
    (ending : Ending) :
    feed b (.tag ⟨⟨.name, ⟨pos, word.toList⟩⟩ :: ts, ending⟩) =
      openTag b ending ⟨pos, word.toList⟩ ts := by
  simp only [continuing, List.mem_cons, List.not_mem_nil, or_false, not_or] at hw
  rw [feed_tag]
  refine Nesting.advance_foreign fun p _ body => ?_
  cases p.1 <;> simp [Block.advance, Piece.toString, hw]

/-- The first tag of a conditional. -/
theorem feed_if (ht : IsTag t pos "if" ls) (h : ReadsAt 12 ls P) :
    ∃ x, P x ∧ ∀ b : Builder, feed b (.tag t) = .ok (b.enter (.clause none pos x)) := by
  obtain ⟨ts, closing, rfl, hts⟩ := ht
  obtain ⟨x, hx, hterm⟩ := termToEnd_of_readsAt h hts closing
  refine ⟨x, hx, fun b => ?_⟩
  rw [feed_statement (by decide), openTag]
  simp [readStatement, Piece.toString, hterm]

/-! ### Names -/

/-- The lexemes of names with commas between them. -/
def nameLexemes (first : String) (more : List String) : List Lexeme :=
  .word first :: more.flatMap fun name => [.sign ",", .word name]

theorem nameList_eq (ending : Ending) {first : String} {more : List String} {ts : List Token}
    (hts : ts.map Token.lexeme = nameLexemes first more) (rest : List Token)
    (hr : ∀ t ∈ rest.head?, t.lexeme ≠ .sign ",") :
    nameList ending (ts ++ rest) = .ok (first :: more, rest) := by
  induction more generalizing first ts with
  | nil =>
    obtain ⟨start, ts₁, rfl, hts₁⟩ := exists_token hts
    obtain rfl := List.map_eq_nil_iff.mp hts₁
    cases rest with
    | nil => simp [nameList, Lexeme.word, Piece.toString]
    | cons t rest =>
      have := hr t rfl
      simp [nameList, Lexeme.word, Piece.toString, this]
  | cons name more ih =>
    obtain ⟨start, ts₁, rfl, hts₁⟩ := exists_token hts
    obtain ⟨t, ts₂, rfl, ht, hts₂⟩ := List.map_eq_cons_iff.mp hts₁
    simp [nameList, Lexeme.word, Piece.toString, ht, ih hts₂]

/-- A loop over a term. -/
theorem feed_for {first : String} {more : List String}
    (ht : IsTag t pos "for" (nameLexemes first more ++ .word "in" :: ls)) (h : ReadsAt 12 ls P) :
    ∃ x, P x ∧ ∀ b : Builder, feed b (.tag t) = .ok (b.enter (.loop pos (first :: more) x)) := by
  obtain ⟨ts, closing, rfl, hts⟩ := ht
  obtain ⟨ts₁, ts₂, rfl, hts₁, hts₂⟩ := List.map_eq_append_iff.mp hts
  obtain ⟨u, ts₃, rfl, hu, hts₃⟩ := List.map_eq_cons_iff.mp hts₂
  obtain ⟨x, hx, hterm⟩ := termToEnd_of_readsAt h hts₃ closing
  refine ⟨x, hx, fun b => ?_⟩
  have hnames := nameList_eq ⟨.tagEnd, closing⟩ hts₁ (u :: ts₃) (by rintro v ⟨⟩; rw [hu]; decide)
  rw [feed_statement (by decide), openTag]
  simp [readStatement, Piece.toString, readLoop, hnames, eatName?, hu, hterm]

/-- An assignment of a term. -/
theorem feed_set {x : String} (ht : IsTag t pos "set" (.word x :: .sign "=" :: ls))
    (h : ReadsAt 12 ls P) :
    ∃ y, P y ∧ ∀ b : Builder, feed b (.tag t) = .ok (b.push (.assign pos [x] y)) := by
  obtain ⟨ts, closing, rfl, hts⟩ := ht
  obtain ⟨v, ts₁, rfl, hv, hts₁⟩ := List.map_eq_cons_iff.mp hts
  obtain ⟨u, ts₂, rfl, hu, hts₂⟩ := List.map_eq_cons_iff.mp hts₁
  obtain ⟨y, hy, hterm⟩ := termToEnd_of_readsAt h hts₂ closing
  refine ⟨y, hy, fun b => ?_⟩
  have hname : [v].map Token.lexeme = nameLexemes x [] := by simp [nameLexemes, hv]
  have hnames := nameList_eq ⟨.tagEnd, closing⟩ hname (u :: ts₂) (by rintro v ⟨⟩; rw [hu]; decide)
  rw [List.singleton_append] at hnames
  rw [feed_statement (by decide), openTag]
  simp [readStatement, Piece.toString, readSet, hnames, eatSign?, hu, hterm]

/-- An assignment of what a body renders. -/
theorem feed_capture {first : String} {more : List String}
    (ht : IsTag t pos "set" (nameLexemes first more)) (b : Builder) :
    feed b (.tag t) = .ok (b.enter (.capture pos (first :: more))) := by
  obtain ⟨ts, closing, rfl, hts⟩ := ht
  have hnames := nameList_eq ⟨.tagEnd, closing⟩ hts [] (by simp)
  rw [List.append_nil] at hnames
  rw [feed_statement (by decide), openTag]
  simp [readStatement, Piece.toString, readSet, hnames, eatSign?, expectTagEnd]

/-- The lexemes of the permission for a template not to exist. -/
def ignoreLexemes (ignored : Bool) : List Lexeme :=
  if ignored then [.word "ignore", .word "missing"] else []

theorem rank_ignoreLexemes : ∀ ignored, ∀ l ∈ (ignoreLexemes ignored).head?, 13 ≤ rank l := by
  decide

theorem ignoreMissing_eq (ending : Ending) {ignored : Bool} {ts : List Token}
    (hts : ts.map Token.lexeme = ignoreLexemes ignored) :
    ignoreMissing ending ts = .ok (ignored, []) := by
  cases ignored with
  | false =>
    obtain rfl := List.map_eq_nil_iff.mp hts
    rfl
  | true =>
    obtain ⟨u, ts₁, rfl, hu, hts₁⟩ := List.map_eq_cons_iff.mp hts
    obtain ⟨v, ts₂, rfl, hv, hts₂⟩ := List.map_eq_cons_iff.mp hts₁
    obtain rfl := List.map_eq_nil_iff.mp hts₂
    simp [ignoreMissing, eatName?, hu, hv]

/-- Another template. -/
theorem feed_include {ignored : Bool}
    (ht : IsTag t pos "include" (ls ++ ignoreLexemes ignored)) (h : ReadsAt 12 ls P) :
    ∃ x, P x ∧ ∀ b : Builder, feed b (.tag t) = .ok (b.push (.subtemplate pos x ignored)) := by
  obtain ⟨ts, closing, rfl, hts⟩ := ht
  obtain ⟨ts₁, ts₂, rfl, hts₁, hts₂⟩ := List.map_eq_append_iff.mp hts
  have hfollow : Follow 13 ts₂ := by
    intro u hu
    have hl : u.lexeme ∈ (ignoreLexemes ignored).head? := by
      rw [← hts₂, List.head?_map, hu]
      rfl
    exact rank_ignoreLexemes ignored _ hl
  obtain ⟨x, hx, hterm⟩ := parseTerm_of_readsAt h ⟨.tagEnd, closing⟩ hts₁ hfollow
  refine ⟨x, hx, fun b => ?_⟩
  rw [feed_statement (by decide), openTag]
  simp [readStatement, Piece.toString, readSubtemplate, hterm, ignoreMissing_eq _ hts₂,
    expectTagEnd]

end Stencil.Nunjucks
