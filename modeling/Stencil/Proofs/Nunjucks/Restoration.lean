import Stencil.Node.Equality
import Stencil.Proofs.Nunjucks.Placement
import Stencil.Proofs.Nunjucks.Template
import Stencil.Proofs.Nunjucks.Transport
import Stencil.Proofs.Nunjucks.Variables

/-!
# Comments of a Nunjucks template

A template shows nothing of the symbols that stand for the comments of its source while it is read:
where a placeholder is, there is a comment again in the template, as a node of its own or as a part
of a raw block. Names are always free of symbols, and so are comments and raw blocks. There are two
ways for a symbol to get into a template, and both begin with a comment that is lifted out of a text
in which it is none. A string keeps the placeholders that it holds. And the body of a raw block that
is taken for plain text, because its opening tag is too long, keeps them too.

## Main results

* `Nunjucks.exprClosed_free`, `Nunjucks.nodeClosed_free` : expressions and nodes are built free of
  symbols if the items of a tree are.
* `Nunjucks.item_free_of_parse` : the items of a tree are free of symbols.
* `Nunjucks.everyText_symbolFree_of_read` : a template is free of symbols, except for the two ways
  in.
-/

namespace Stencil

/-! ### The texts of a template -/

/-- What a text of a template is. -/
inductive TextKind where
  /-- A variable, a property, a filter, a target, a loop variable or a tag. -/
  | name
  /-- A literal. -/
  | literal
  /-- Text that is rendered as it stands. -/
  | text
  /-- The content of a comment. -/
  | comment
  /-- The content of a raw block. -/
  | raw
deriving DecidableEq, Repr

/-- The text of a part of a chain. -/
def Part.text? : Part → Option (TextKind × String)
  | .ident name => some (.name, name)
  | .literal text => some (.literal, text)
  | .index _ | .null | .blank | .loopVar => none

/-- The name that a step keeps. -/
def Step.text? {ε : Type} : Step ε → Option (TextKind × String)
  | .apply (.custom name) _ => some (.name, name)
  | .apply (.op _) _ | .apply (.builtin _) _ => none
  | .truncate .. | .replace .. | .select .. | .sort .. => none

/-- The texts of an expression itself, without those of its arguments. -/
def Expr.texts (e : Expr) : List (TextKind × String) :=
  e.chain.filterMap Part.text? ++ e.steps.filterMap Step.text?

/-- The texts of a node itself, without those of its expressions and nodes. -/
def Node.texts : Node → List (TextKind × String)
  | .text content => [(.text, content)]
  | .comment content .. => [(.comment, content)]
  | .raw content .. => [(.raw, content)]
  | .loop name .. => [(.name, name)]
  | .assignment target .. => [(.name, target)]
  | .tag name args .. => [(.name, name), (.text, args)]
  | .output .. | .conditional .. | .subtemplate .. => []

/-- What holds of all texts of a template. -/
def EveryText (P : TextKind → String → Prop) (nodes : List Node) : Prop :=
  ∀ n ∈ nodes, n.Every (fun _ n => (∀ x ∈ n.texts, P x.1 x.2) ∧
    ∀ e ∈ n.exprs, e.Every fun e => ∀ x ∈ e.texts, P x.1 x.2) {}

namespace Nunjucks

/-! ### Texts that are put together -/

theorem SymbolFree.append_cons {a b : List Char} {c : Char} (hc : c ∉ symbolHead)
    (ha : SymbolFree a) (hb : SymbolFree b) : SymbolFree (a ++ c :: b) := by
  have hcut : ∀ s t, symbolHead = s ++ t → t <+: c :: b → t = [] := by
    intro s t hst ht
    cases t with
    | nil => rfl
    | cons d t =>
      obtain ⟨rfl, -⟩ := List.cons_prefix_cons.mp ht
      exact absurd (hst ▸ List.mem_append_right s List.mem_cons_self) hc
  intro h
  rcases List.infix_append_iff.mp h with h | h | ⟨s, t, hst, hs, ht⟩
  · exact ha h
  · rcases List.infix_cons_iff.mp h with h | h
    · exact absurd (hcut [] symbolHead rfl h) (by decide)
    · exact hb h
  · rw [hcut s t hst ht, List.append_nil] at hst
    exact ha (hst ▸ hs.isInfix)

theorem symbolFree_intercalate {names : List String} (h : ∀ name ∈ names, SymbolFree name.toList) :
    SymbolFree (", ".intercalate names).toList := by
  have hlist : (", ".intercalate names).toList =
      [',', ' '].intercalate (names.map String.toList) := by simp
  rw [hlist]
  induction names with
  | nil => decide
  | cons name names ih =>
    rw [List.forall_mem_cons] at h
    cases names with
    | nil => simpa using h.1
    | cons next names =>
      have hrest := ih h.2 (by simp)
      rw [List.map_cons, List.map_cons, List.intercalate_cons_cons, List.append_assoc]
      refine .append_cons (by decide) h.1 ?_
      exact .append_cons (a := []) (by decide) (by decide) hrest

/-! ### Expressions -/

section Free

variable {S B : Prop}

/-- A text is free of symbols, where `S` is needed if it is a literal and `B` if it is rendered as
it stands. -/
def FreeText (S B : Prop) (kind : TextKind) (s : String) : Prop :=
  (kind = .literal → S) → (kind = .text → B) → SymbolFree s.toList

/-- The texts of an expression and its arguments are free of symbols. -/
abbrev FreeExpr (S B : Prop) (e : Expr) : Prop :=
  e.Every fun e => ∀ x ∈ e.texts, FreeText S B x.1 x.2

/-- What a token is made into is free of symbols, where `S` is needed if it is a string. -/
structure Token.Free (S : Prop) (t : Token) : Prop where
  text : (t.kind = .string → S) → SymbolFree t.text.text
  unquoted : Text.isIdentifier (Text.unquoted t.text.toString) →
    SymbolFree (Text.unquoted t.text.toString)

theorem FreeText.of_symbolFree {kind : TextKind} {s : String} (h : SymbolFree s.toList) :
    FreeText S B kind s :=
  fun _ _ => h

theorem symbolFree_of_name {name : Piece} (h : Token.Free S ⟨.name, name⟩) :
    SymbolFree name.toString.toList := by
  have hname := h.text (by simp)
  simpa [Piece.toString] using hname

theorem symbolFree_of_nameFrom {name : String} (h : NameFrom (Token.Free S) name) :
    SymbolFree name.toList := by
  obtain ⟨text, rfl, ht⟩ := h
  exact symbolFree_of_name ht

theorem symbolFree_of_dottedFrom {name : String} (h : DottedFrom (Token.Free S) name) :
    SymbolFree name.toList := by
  induction h with
  | single h => exact symbolFree_of_name h
  | dot h hl ih =>
    have hdot := SymbolFree.append_cons (show '.' ∉ symbolHead by decide) ih (symbolFree_of_name hl)
    simpa using hdot

theorem freeText_literal {t : Token} (h : t.Free S) : FreeText S B .literal t.text.toString := by
  intro hs _
  have ht := h.text fun _ => hs rfl
  simpa [Piece.toString] using ht

/-- A key is free of symbols, as a name or as a literal. -/
theorem free_keyPart {t : Token} (h : t.Free S) (ofLoop : Bool) :
    ∀ x ∈ (keyPart ofLoop t.text).text?, FreeText S B x.1 x.2 := by
  have hneutral : ∀ name : String, SymbolFree name.toList →
      SymbolFree (chainWords.neutralProperty name).toList := by
    intro name hname
    unfold ChainWords.neutralProperty
    split
    · decide
    · split
      · decide
      · exact hname
  unfold keyPart
  simp only
  split
  · next hname =>
    have hcontent : SymbolFree (String.ofList (Text.unquoted t.text.toString)).toList := by
      rw [String.toList_ofList]
      exact h.unquoted hname
    intro x hx
    obtain rfl := Option.some.inj hx
    split
    · exact .of_symbolFree (hneutral _ hcontent)
    · exact .of_symbolFree hcontent
  · intro x hx
    obtain rfl := Option.some.inj hx
    exact freeText_literal h

theorem free_subscriptPart {ofLoop : Bool} {key : Term} {part : Part} (hk : key.From (Token.Free S))
    (h : subscriptPart ofLoop key = .ok part) : ∀ x ∈ part.text?, FreeText S B x.1 x.2 := by
  unfold subscriptPart at h
  split at h
  · obtain rfl := Except.ok.inj h
    cases hk with
    | literal ht => exact free_keyPart ht ofLoop
  · split at h
    · obtain rfl := Except.ok.inj h
      exact fun x hx => absurd hx (by simp [Part.text?])
    · cases h
  · cases h

theorem freeExpr_ofChain {chain : List Part}
    (h : ∀ part ∈ chain, ∀ x ∈ part.text?, FreeText S B x.1 x.2) :
    FreeExpr S B (.ofChain chain) := by
  refine .ofChain fun x hx => ?_
  rw [Expr.texts, Expr.ofChain, List.filterMap_nil, List.append_nil] at hx
  obtain ⟨part, hpart, hx⟩ := List.mem_filterMap.mp hx
  exact h part hpart x hx

theorem FreeExpr.pipe {e : Expr} {s : Step Expr} (h : FreeExpr S B e)
    (hs : ∀ x ∈ s.text?, FreeText S B x.1 x.2) (hargs : ∀ a ∈ s.args, FreeExpr S B a) :
    FreeExpr S B (e.pipe s) := by
  refine Expr.Every.pipe h (fun x hx => ?_) hargs
  rw [Expr.texts, Expr.pipe, List.filterMap_append, ← List.append_assoc] at hx
  rcases List.mem_append.mp hx with hx | hx
  · exact h.self x hx
  · obtain ⟨s', hs', hx⟩ := List.mem_filterMap.mp hx
    rw [List.mem_singleton.mp hs'] at hx
    exact hs x hx

theorem FreeExpr.dropLast {e : Expr} (h : FreeExpr S B e) :
    FreeExpr S B { e with steps := e.steps.dropLast } := by
  refine Expr.Every.dropLast h fun x hx => h.self x ?_
  rcases List.mem_append.mp hx with hx | hx
  · exact List.mem_append_left _ hx
  · obtain ⟨s, hs, hx⟩ := List.mem_filterMap.mp hx
    exact List.mem_append_right _ (List.mem_filterMap.mpr ⟨s, List.dropLast_subset _ hs, hx⟩)

theorem free_lookupExpr {base e : Expr} {key : Term} (hb : FreeExpr S B base)
    (hk : key.From (Token.Free S)) (h : lookupExpr base key = .ok e) : FreeExpr S B e := by
  unfold lookupExpr at h
  split at h
  · obtain ⟨part, hpart, rfl⟩ := map_eq_ok.mp h
    refine freeExpr_ofChain (List.forall_mem_append.mpr ⟨fun p hp x hx => ?_, ?_⟩)
    · exact hb.self x (List.mem_append_left _ (List.mem_filterMap.mpr ⟨p, hp, hx⟩))
    · exact List.forall_mem_singleton.mpr (free_subscriptPart hk hpart)
  · cases h

/-- A chain that is nothing but a text. -/
theorem freeExpr_root {root : Part} {x : TextKind × String} (hr : root.text? = some x)
    (h : FreeText S B x.1 x.2) : FreeExpr S B (.ofChain [root]) := by
  refine freeExpr_ofChain (List.forall_mem_singleton.mpr fun y hy => ?_)
  obtain rfl := Option.some.inj (hr.symm.trans hy)
  exact h

/-- Expressions are built free of symbols. -/
theorem exprClosed_free (scope : Scope) : ExprClosed (Token.Free S) scope (FreeExpr S B) where
  loopVar _ := freeExpr_ofChain (by simp [Part.text?])
  ident hname _ := freeExpr_root rfl (.of_symbolFree (symbolFree_of_name hname))
  null := freeExpr_ofChain (by simp [Part.text?])
  literal ht := freeExpr_root rfl (freeText_literal ht)
  opposite ht := by
    refine freeExpr_root rfl fun hs hb => ?_
    have hminus := SymbolFree.append_cons (show '-' ∉ symbolHead by decide)
      (show SymbolFree [] by decide) (freeText_literal ht hs hb)
    simpa using hminus
  lookup hb hk h := free_lookupExpr hb hk h
  pipe he _ hargs hcustom := by
    refine he.pipe (fun x hx => ?_) hargs
    unfold Step.text? at hx
    split at hx
    · obtain rfl := Option.some.inj hx
      exact .of_symbolFree (symbolFree_of_dottedFrom (hcustom _ _ rfl))
    all_goals cases hx

/-! ### Nodes -/

/-- What a tree has of a chunk is free of symbols. -/
def Item.Free (S B : Prop) (l : Lifted) : Item → Prop
  | .data text => ∀ x ∈ (l.dataNode text).texts, FreeText S B x.1 x.2
  | .output _ value =>
    match l.termComment? value with
    | some c => SymbolFree c.body.toList
    | none => value.From (Token.Free S)
  | .tag _ _ names terms =>
    (∀ name ∈ names, NameFrom (Token.Free S) name) ∧ ∀ x ∈ terms, x.From (Token.Free S)

variable {l : Lifted}

/-- The names of a tag make up a text that is free of symbols. -/
theorem freeText_names {word : String} {pos : Nat} {names : List String} {terms : List Term}
    (hi : (Item.tag word pos names terms).Free S B l) (kind : TextKind) :
    FreeText S B kind (", ".intercalate names) :=
  .of_symbolFree (symbolFree_intercalate fun name hname =>
    symbolFree_of_nameFrom (hi.1 name hname))

/-- Nodes are built free of symbols if the items are. -/
theorem nodeClosed_free (l : Lifted) : NodeClosed l (Item.Free S B l)
    (fun n => ∀ x ∈ n.texts, FreeText S B x.1 x.2) fun _ => FreeExpr S B where
  data hi := hi
  comment hi hc := by
    rw [Item.Free, hc] at hi
    exact List.forall_mem_singleton.mpr (.of_symbolFree hi)
  output hi hc he := by
    rw [Item.Free, hc] at hi
    exact ⟨(exprClosed_free _).toExpr _ hi he, List.forall_mem_nil _⟩
  term hi hx he := (exprClosed_free _).toExpr _ (hi.2 _ hx) he
  dropLast := FreeExpr.dropLast
  conditional _ := List.forall_mem_nil _
  loop hi := List.forall_mem_singleton.mpr (freeText_names hi .name)
  assignment hi _ := List.forall_mem_singleton.mpr (freeText_names hi .name)
  subtemplate := List.forall_mem_nil _

/-! ### Items -/

/-- The content of a comment is a part of what is written. -/
theorem isInfix_body_ofInner (inner : List Char) :
    (Comment.ofInner inner).body.toList <:+: inner := by
  have hlast : ∀ s : List Char, (if s.getLast? == some '-' then s.dropLast else s) <:+: s := by
    intro s
    split
    · have hinit := List.dropLast_prefix s
      exact hinit.isInfix
    · exact List.infix_refl s
  rw [Comment.ofInner, String.toList_ofList]
  refine (Text.isInfix_trim _).trans ((hlast _).trans ?_)
  split
  · exact inner.tail_suffix.isInfix
  · exact List.infix_refl inner

/-- An output of nothing but a symbol stands for the comment with its number. -/
theorem termComment?_of_symbol {inside : Inside} {value : Term} {i : Nat}
    (hts : inside.tokens.map Token.lexeme = [⟨.name, commentSymbol i⟩])
    (h : readOutputTerm inside = .ok value) (l : Lifted) :
    l.termComment? value = l.comments[i]? := by
  obtain ⟨ts, ⟨kind, closing⟩⟩ := inside
  obtain rfl : kind = .outputEnd := outputEnd_of_readOutputTerm h
  have hword : ts.map Token.lexeme = [.word (String.ofList (commentSymbol i))] := by
    rw [hts, Lexeme.word, String.toList_ofList]
  obtain ⟨_, ⟨start, rfl⟩, hread⟩ := readOutputTerm_of_readsAt
    (readsAt_symbol (commentSymbol_notMem_keywords i) (by omega)) hword closing
  obtain rfl := Except.ok.inj (h.symm.trans hread)
  rw [Lifted.termComment?, String.toList_ofList, Lifted.comment?_commentSymbol]

theorem Token.NameFree.free {t : Token} (h : t.NameFree)
    (hs : t.kind = .string → S → SymbolFree t.text.text) : t.Free S where
  text hS := h.text.elim (fun hk => hs hk (hS hk)) id
  unquoted := h.unquoted

section Segmented

variable {source : List Char} {segs : List Segment} (hsegs : l.Segmented source segs)
  (hsource : SymbolFree source)
include hsegs hsource

theorem symbolFree_written {part : List Segment} (hpart : part <:+: segs) :
    SymbolFree (part.flatMap Segment.written) :=
  hsource.mono (hsegs.written ▸ hpart.flatMap _)

/-- The content of a comment of the source. -/
theorem symbolFree_body {i : Nat} {inner : List Char} (hi : .comment i inner ∈ segs) :
    SymbolFree (Comment.ofInner inner).body.toList := by
  obtain ⟨before, after, hat⟩ := List.append_of_mem hi
  have hpart : [.comment i inner] <:+: segs := ⟨before, after, by simp [hat]⟩
  refine (symbolFree_written hsegs hsource hpart).mono ((isInfix_body_ofInner inner).trans ?_)
  rw [List.flatMap_singleton, Segment.written]
  exact List.infix_append _ _ _

/-- The node of a text has its comments back, or there were none in it. -/
theorem free_dataNode {text : Piece} {plain : Prop} (hfits : (Chunk.data text).Fits segs plain)
    (hB : ¬ plain → B → SymbolFree text.text ∨ (Place.at l.source text.start).isAfterRaw) :
    ∀ x ∈ (l.dataNode text).texts, FreeText S B x.1 x.2 := by
  obtain ⟨part, hp, htext, hplain⟩ := hfits
  have hwritten := symbolFree_written hsegs hsource hp
  rw [Lifted.dataNode]
  split
  · refine List.forall_mem_singleton.mpr (.of_symbolFree ?_)
    rw [String.toList_ofList, htext, hsegs.restore_eq hsource hp]
    exact hwritten
  · next hraw =>
    refine List.forall_mem_singleton.mpr fun _ hb => ?_
    rw [Piece.toString, String.toList_ofList]
    by_cases hq : plain
    · exact hplain hq ▸ hwritten
    · exact (hB hq (hb rfl)).resolve_right hraw

/-- What a chunk is made into is free of symbols if the chunk fits the segments of the source. -/
theorem Item.Of.free {chunk : Chunk} {item : Item} {plain : Prop} (h : Item.Of chunk item)
    (hfits : chunk.Fits segs plain)
    (hS : ∀ inside ∈ chunk.inside?, ∀ t ∈ inside.tokens, t.kind = .string → S →
      SymbolFree t.text.text)
    (hB : ∀ text, chunk = .data text → ¬ plain → B →
      SymbolFree text.text ∨ (Place.at l.source text.start).isAfterRaw) :
    item.Free S B l := by
  cases h with
  | data text => exact free_dataNode hsegs hsource hfits (hB text rfl)
  | @output inside value h =>
    rw [Item.Free]
    rcases hfits with hnames | ⟨i, inner, hi, hts⟩
    · have hvalue : value.From (Token.Free S) := from_readOutputTerm h fun t ht =>
        (hnames t ht).free (hS inside rfl t ht)
      rw [hvalue.termComment?_eq_none fun _ hname => Bool.eq_false_iff.mpr fun hhead =>
        hname.text (by simp) (Text.startsWith_iff.mp hhead).isInfix]
      exact hvalue
    · rw [termComment?_of_symbol hts h, hsegs.comments i inner hi]
      exact symbolFree_body hsegs hsource hi
  | @tag inside name ts item hname h =>
    obtain ⟨-, hnames, hterms⟩ := h
    have hfree : ∀ t ∈ ts, t.Free S := fun t ht =>
      have hmem : t ∈ inside.tokens := hname ▸ List.mem_cons_of_mem _ ht
      (hfits t hmem).free (hS inside rfl t hmem)
    exact ⟨hnames _ hfree, hterms _ hfree⟩

end Segmented

end Free

/-! ### Sources -/

/-- The body of a raw block, for a chunk and the source that it is read from. -/
def verbatimBody? : Piece × Chunk → Option Piece
  | (p, .data text) => if isOpen p.text then some text else none
  | (_, .output _) | (_, .tag _) | (_, .fault _) => none

/-- The bodies of the raw blocks of a piece of source. -/
def verbatimBodies (p : Piece) : List Piece :=
  (sitedChunks p).filterMap verbatimBody?

/-- No string of the source without comments holds a placeholder. -/
abbrev StringsFree (source : String) : Prop :=
  ∀ chunk ∈ chunks ⟨0, (liftComments source.toList).source⟩, ∀ inside ∈ chunk.inside?,
    ∀ t ∈ inside.tokens, t.kind = .string → SymbolFree t.text.text

/-- No body of a raw block that is taken for plain text holds a placeholder. -/
abbrev BodiesFree (source : String) : Prop :=
  ∀ body ∈ verbatimBodies ⟨0, (liftComments source.toList).source⟩, SymbolFree body.text ∨
    (Place.at (liftComments source.toList).source body.start).isAfterRaw

/-- The items of a tree are free of symbols. -/
theorem item_free_of_parse {source : String} {es : List Element}
    (h : parse (liftComments source.toList).source = .ok es) (hsource : SymbolFree source.toList) :
    ∀ item ∈ Element.allItems es,
      item.Free (StringsFree source) (BodiesFree source) (liftComments source.toList) := by
  obtain ⟨segs, hsegs⟩ := exists_segmented source.toList
  have hall := forall₂_of_parse h
  have hitems := exists_mem_of_forall₂ hall.flip
  rw [← map_snd_sitedChunks, List.forall₂_map_left_iff] at hall
  intro item hitem
  obtain ⟨⟨q, chunk⟩, hmem, hof⟩ := exists_mem_of_forall₂ hall item hitem
  have hfits : chunk.Fits segs (open? q.text = none) :=
    fits_of_mem_sitedChunks (hsegs.written ▸ hsource) hsegs.lifted
      (fun c hc => (hitems c hc).imp fun _ => And.right) hmem
  refine Item.Of.free hsegs hsource hof hfits (fun inside hi t ht hk hS => ?_)
    fun text hdata hopen hB => ?_
  · exact hS chunk (map_snd_sitedChunks _ ▸ List.mem_map_of_mem hmem) inside hi t ht hk
  · obtain rfl : chunk = .data text := hdata
    refine hB text (List.mem_filterMap.mpr ⟨_, hmem, ?_⟩)
    rw [verbatimBody?, isOpen, if_pos (Option.isSome_iff_ne_none.mpr hopen)]

/-- Symbols of comments do not get into templates. If a source does not spell out a symbol, no name,
no comment and no raw block of its template does. No literal does if no string of the source held a
comment, and no text does if every raw block that held a comment is read as one. -/
theorem everyText_symbolFree_of_read {source : String} {nodes : List Node}
    (h : read source = .ok nodes) (hsource : SymbolFree source.toList) :
    EveryText (fun kind s => (kind = .literal → StringsFree source) →
      (kind = .text → BodiesFree source) → SymbolFree s.toList) nodes := by
  obtain ⟨es, hes, hnodes⟩ := bind_eq_ok.mp h
  exact (nodeClosed_free _).toNodes es (item_free_of_parse hes hsource) hnodes

theorem everyText_symbolFree_of_read_blocks :
    let source := "a\x7b# b #\x7d\x7b% if c['d e'] %\x7d\x7b#- f -#\x7d" ++
      "\x7b\x7b g | h('i') \x7d\x7d\x7b% endif %\x7d\x7b% raw %\x7dj\x7b# k #\x7d\x7b% endraw %\x7d"
    StringsFree source ∧ BodiesFree source ∧ (liftComments source.toList).comments.length = 3 ∧
      ∃ nodes, read source = .ok nodes ∧
        EveryText (fun kind s => (kind = .literal → StringsFree source) →
          (kind = .text → BodiesFree source) → SymbolFree s.toList) nodes := by
  intro source
  have hsource : StringsFree source ∧ BodiesFree source ∧
      (liftComments source.toList).comments.length = 3 ∧ (read source).isOk ∧
        SymbolFree source.toList := by
    decide +kernel
  obtain ⟨hstrings, hbodies, hcomments, hok, hfree⟩ := hsource
  cases hread : read source with
  | error x =>
    rw [hread] at hok
    cases hok
  | ok nodes =>
    exact ⟨hstrings, hbodies, hcomments, nodes, rfl, everyText_symbolFree_of_read hread hfree⟩

/-- A string keeps the symbol of a comment that is lifted out of it, and so does the body of a raw
block with a long opening tag. -/
theorem symbol_in_string_and_text :
    let string := "\x7b\x7b 'a \x7b# x #\x7d b' \x7d\x7d"
    let block := "\x7b%       raw       %\x7d\x7b# c #\x7d\x7b% endraw %\x7d"
    (SymbolFree string.toList ∧ ∃ s, read string = .ok [.output (.literal s) {}] ∧
      ¬ SymbolFree s.toList) ∧
    SymbolFree block.toList ∧ ∃ s, read block = .ok [.text s] ∧ ¬ SymbolFree s.toList := by
  have hread : read "\x7b\x7b 'a \x7b# x #\x7d b' \x7d\x7d" =
        .ok [.output (.literal "'a \x7b\x7b __COMMENT_0__ \x7d\x7d b'") {}] ∧
      read "\x7b%       raw       %\x7d\x7b# c #\x7d\x7b% endraw %\x7d" =
        .ok [.text "\x7b\x7b __COMMENT_0__ \x7d\x7d"] := by
    decide +kernel
  exact ⟨⟨by decide, _, hread.1, by decide⟩, by decide, _, hread.2, by decide⟩

end Nunjucks

end Stencil
