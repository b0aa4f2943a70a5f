import Stencil.Proofs.Nunjucks.Items
import Stencil.Proofs.Nunjucks.Segments

/-!
# Placeholders among the chunks of a source

Comments are lifted out of a source before it is cut into chunks, so a comment may be anywhere: in
text, in a tag, in a string or in the body of a raw block. In a source that is read, every chunk
begins and ends between two segments, because chunks are ended by their delimiters. That leaves few
places for a placeholder. It is never a part of plain text. It can be a part of the body of a raw
block, and then all of it is. And if its symbol is a name among the tokens of a chunk, then the
chunk is an output of nothing but that name: the braces before the name are the opening delimiter of
the chunk, or they would be a dictionary that is not closed.
-/

namespace Stencil.Nunjucks

/-! ### Tokens in their places -/

/-- The source `p` begins with the token `t`, and `q` is the source after it. -/
structure Token.Begins (t : Token) (p q : Piece) : Prop where
  leads : Piece.Leads p t.text.text q
  tokenAt : ∃ c r, Text.isBlank c = false ∧ t.text.text = c :: r ∧
    tokenAt c (r ++ q.text) = .ok (t.kind, r)
  lex : (lex p).1 = (Nunjucks.lex q).1.cons t

/-- The text `s` has the tokens `ts` in it and ends with the last of them, up to blanks. -/
inductive TakesUp : List Token → List Char → Prop
  | nil {s : List Char} (h : ∀ c ∈ s, Text.isBlank c) : TakesUp [] s
  | concat {ts : List Token} {t : Token} {p q : Piece} {s b : List Char} (ht : t.Begins p q)
      (hb : ∀ c ∈ b, Text.isBlank c) : TakesUp (ts ++ [t]) (s ++ t.text.text ++ b)

theorem TakesUp.cons {ts : List Token} {s : List Char} (h : TakesUp ts s) {t : Token} {p q : Piece}
    (ht : t.Begins p q) (b : List Char) : TakesUp (t :: ts) (b ++ t.text.text ++ s) := by
  cases h with
  | nil h =>
    have hsingle : TakesUp ([] ++ [t]) (b ++ t.text.text ++ s) := .concat ht h
    exact hsingle
  | @concat ts u p' q' s b' hu hb =>
    have hcons : TakesUp ((t :: ts) ++ [u]) (b ++ t.text.text ++ s ++ u.text.text ++ b') :=
      .concat hu hb
    simpa only [List.append_assoc, List.cons_append] using hcons

/-- The first token has its place after the blanks. -/
theorem begins_of_tokenAt {p : Piece} {c : Char} {cs rest : List Char} {kind : TokenKind}
    (hc : closing? p.trimStart = none) (htext : p.trimStart.text = c :: cs)
    (hk : tokenAt c cs = .ok (kind, rest)) :
    Token.Begins ⟨kind, ⟨p.trimStart.start, c :: rest⟩⟩ p.trimStart
      (p.trimStart.drop (rest.length + 1)) := by
  obtain ⟨more, rfl⟩ := isPrefix_of_tokenAt hk
  have hp : p.trimStart = ⟨p.trimStart.start, c :: rest ++ more⟩ :=
    congrArg (Piece.mk p.trimStart.start) htext
  have hdrop : p.trimStart.drop (rest.length + 1) =
      ⟨p.trimStart.start + Text.byteLength (c :: rest), more⟩ := by
    rw [hp]
    exact Piece.drop_length_append _ (c :: rest) more
  have hhead : c ∈ (Text.trimStart p.text).head? := by
    rw [← Piece.text_trimStart, htext]
    rfl
  have hblank := Text.head?_trimStart hhead
  refine ⟨hdrop ▸ ⟨htext, rfl⟩, ⟨c, rest, hblank, rfl, by rwa [hdrop]⟩, ?_⟩
  rw [hdrop, hp]
  exact congrArg Prod.fst (lex_token hblank (by rwa [hp] at hc) hk)

theorem begins_of_tokens {p : Piece} {t : Token} {ts : List Token}
    (h : (lex p).1.tokens = t :: ts) :
    ∃ q, t.Begins p.trimStart q ∧ t.text.start = p.trimStart.start ∧
      (lex q).1 = ⟨ts, (lex p).1.ending⟩ := by
  revert h
  fun_cases lex p with
  | case1 | case2 | case3 => exact fun h => absurd h (List.cons_ne_nil _ _).symm
  | case4 hc c cs htext kind rest hk after =>
    intro h
    obtain ⟨rfl, rfl⟩ := List.cons.inj h
    exact ⟨_, begins_of_tokenAt hc htext hk, rfl, rfl⟩

/-- Every token has its place. -/
theorem begins_of_mem_lex {p : Piece} {t : Token} (h : t ∈ (lex p).1.tokens) :
    ∃ ts s q q', Piece.Leads p s q ∧ TakesUp ts s ∧ t.Begins q q' ∧
      (lex p).1 = (lex q).1.prepend ts := by
  fun_induction lex p with
  | case1 | case2 | case3 => cases h
  | case4 p hc c cs htext kind rest hk after ih =>
    have hbegins := begins_of_tokenAt hc htext hk
    have hblanks : ∀ d ∈ p.text.takeWhile Text.isBlank, Text.isBlank d :=
      fun d hd => List.mem_takeWhile_imp hd
    rcases List.mem_cons.mp h with rfl | h
    · refine ⟨[], _, p.trimStart, _, .trimStart p, .nil hblanks, hbegins, ?_⟩
      rw [hbegins.lex]
      rfl
    · obtain ⟨ts, s, q, q', hq, hts, ht, hlex⟩ := ih h
      refine ⟨_ :: ts, _, q, q', ?_, hts.cons hbegins (p.text.takeWhile Text.isBlank), ht, ?_⟩
      · exact ((Piece.Leads.trimStart p).trans hbegins.leads).trans hq
      · rw [hlex]
        rfl

section Tokens

variable {t : Token} {p q : Piece}

/-- A token ends in no blank, and if it ends in an opening brace it is one. -/
theorem Token.Begins.getLast? (h : t.Begins p q) :
    ∀ d ∈ t.text.text.getLast?, Text.isBlank d = false ∧ (d = '{' → t.isSign "\x7b") := by
  obtain ⟨c, r, -, htext, htoken⟩ := h.tokenAt
  intro d hd
  rw [htext] at hd
  have hname : ∀ {d}, Text.isNameChar d → Text.isBlank d = false ∧ (d = '{' → t.isSign "\x7b") := by
    intro d hd
    refine ⟨Text.isBlank_eq_false_of_isNameChar hd, ?_⟩
    rintro rfl
    exact absurd hd (by decide)
  rcases tokenAt_cases htoken with ⟨-, hquote, _, hbody⟩ | ⟨-, hdigit, hr⟩ | ⟨-, hstart, hr⟩ |
    ⟨hkind, ⟨sign, hsign, hc⟩, -⟩
  · rw [List.getLast?_cons, Text.getLast?_of_quotedRest hbody] at hd
    obtain rfl : c = d := Option.some.inj hd
    refine ⟨Text.isBlank_eq_false_of_isQuote hquote, ?_⟩
    rintro rfl
    exact absurd hquote (by decide)
  · rcases List.mem_cons.mp (List.mem_of_getLast? hd) with rfl | hd
    · exact hname (Text.isNameChar_of_isDigit hdigit)
    · rw [hr] at hd
      rcases Text.mem_numberTail hd with hd | rfl
      · exact hname (Text.isNameChar_of_isDigit hd)
      · exact ⟨by decide, fun hd => absurd hd (by decide)⟩
  · rcases List.mem_cons.mp (List.mem_of_getLast? hd) with rfl | hd
    · exact hname (Text.isNameChar_of_isNameStart hstart)
    · rw [hr] at hd
      exact hname (List.mem_takeWhile_imp hd)
  · have hsigns : ∀ sign ∈ signs, ∀ d ∈ sign.toList.getLast?,
        Text.isBlank d = false ∧ (d = '{' → sign = "\x7b") := by decide
    obtain ⟨hblank, hopen⟩ := hsigns sign hsign d (by rwa [hc])
    refine ⟨hblank, fun hd => ?_⟩
    rw [Token.isSign, hkind, htext, ← hc, hopen hd]
    rfl

/-- A token before blanks is an opening brace, if such a brace comes before the blanks. -/
theorem Token.Begins.isSign_of_blanks (h : t.Begins p q) {a b z : List Char}
    (hb : ∀ c ∈ b, Text.isBlank c) (he : a ++ t.text.text ++ b = z ++ "\x7b\x7b ".toList) :
    t.isSign "\x7b" := by
  obtain ⟨c, r, -, htext, -⟩ := h.tokenAt
  obtain ⟨w, d, hw⟩ := (List.eq_nil_or_concat t.text.text).resolve_left (by simp [htext])
  obtain ⟨hblank, hopen⟩ := h.getLast? d (by simp [hw])
  have hreverse : b.reverse ++ (d :: (a ++ w).reverse) = [' '] ++ ('{' :: '{' :: z.reverse) := by
    simpa [hw] using congrArg List.reverse he
  have hdrop := congrArg (List.dropWhile Text.isBlank) hreverse
  rw [Text.dropWhile_append_stop (by simpa using hb) (by simpa using hblank),
    Text.dropWhile_append_stop (by decide) (by simp; decide)] at hdrop
  exact hopen (List.cons.inj hdrop).1

/-- A name takes up all that can belong to it. -/
theorem Token.Begins.name_eq (h : t.Begins p q) (hk : t.kind = .name) :
    t.text.text = p.text.takeWhile Text.isNameChar := by
  obtain ⟨c, r, -, htext, htoken⟩ := h.tokenAt
  rw [hk] at htoken
  rcases tokenAt_cases htoken with ⟨hkind, -⟩ | ⟨hkind, -⟩ | ⟨-, hstart, hr⟩ | ⟨hkind, -⟩
  · cases hkind
  · cases hkind
  · rw [h.leads.text, htext, List.cons_append, List.takeWhile_cons,
      if_pos (Text.isNameChar_of_isNameStart hstart), ← hr]
  · cases hkind

/-- A string has quotes around it. -/
theorem Token.Begins.string_eq (h : t.Begins p q) (hk : t.kind = .string) :
    ∃ c inner, Text.isQuote c ∧ t.text.text = c :: (inner ++ [c]) := by
  obtain ⟨c, r, -, htext, htoken⟩ := h.tokenAt
  rw [hk] at htoken
  rcases tokenAt_cases htoken with ⟨-, hquote, rest, hbody⟩ | ⟨hkind, -⟩ | ⟨hkind, -⟩ | ⟨hkind, -⟩
  · obtain ⟨inner, rfl⟩ := List.getLast?_eq_some_iff.mp (Text.getLast?_of_quotedRest hbody)
    exact ⟨c, inner, hquote, htext⟩
  · cases hkind
  · cases hkind
  · cases hkind

/-- Only names and strings hold the beginning of a symbol. -/
theorem Token.Begins.symbolFree (h : t.Begins p q) (hk : t.kind ≠ .string) (hn : t.kind ≠ .name) :
    SymbolFree t.text.text := by
  obtain ⟨c, r, -, htext, htoken⟩ := h.tokenAt
  rw [htext]
  rcases tokenAt_cases htoken with ⟨hkind, -⟩ | ⟨-, hdigit, hr⟩ | ⟨hkind, -⟩ |
    ⟨-, ⟨sign, hsign, hc⟩, -⟩
  · exact absurd hkind hk
  · intro hheld
    rcases List.mem_cons.mp (hheld.subset (show '_' ∈ symbolHead by decide)) with rfl | hr'
    · exact absurd hdigit (by decide)
    · rw [hr] at hr'
      rcases Text.mem_numberTail hr' with hd | hd
      · exact absurd hd (by decide)
      · exact absurd hd (by decide)
  · exact absurd hkind hn
  · have hsigns : ∀ sign ∈ signs, SymbolFree sign.toList := by decide
    exact hc ▸ hsigns sign hsign

theorem lex_outputEnd (start : Nat) (z : List Char) :
    ∃ text, (lex ⟨start, ' ' :: '}' :: '}' :: z⟩).1 = ⟨[], ⟨.outputEnd, text⟩⟩ := by
  have hblank : ∀ c ∈ ('}' :: '}' :: z).head?, Text.isBlank c = false := by
    rintro c ⟨⟩
    decide
  rw [lex_space, lex_closing hblank rfl]
  exact ⟨_, rfl⟩

/-- A string with the beginning of a symbol in it is not taken for a name, because there is a blank
before the symbol. -/
theorem symbolFree_unquoted_of_mem_lex {segs : List Segment} {pre : List Char}
    (hfree : SymbolFree (segs.flatMap Segment.written))
    (hp : segs.flatMap (Segment.text 0) = pre ++ p.text) (ht : t ∈ (lex p).1.tokens)
    (hk : t.kind = .string) (hname : Text.isIdentifier (Text.unquoted t.text.toString)) :
    SymbolFree (Text.unquoted t.text.toString) := by
  obtain ⟨-, s, q, q', hq, -, hbegins, -⟩ := begins_of_mem_lex ht
  obtain ⟨c, inner, hquote, htext⟩ := hbegins.string_eq hk
  have hinner : Text.unquoted t.text.toString = inner := by
    simp [Text.unquoted, Piece.toString, htext, Text.unquote?, hquote]
  rw [hinner] at hname ⊢
  rintro ⟨a, b, rfl⟩
  have hwhole : segs.flatMap (Segment.text 0) =
      (pre ++ s ++ c :: a) ++ (symbolHead ++ (b ++ [c] ++ q'.text)) := by
    rw [hp, hq.text, hbegins.leads.text, htext]
    simp only [List.append_assoc, List.cons_append]
  have hblank := getLast?_of_symbolHead hfree hwhole
  rw [List.getLast?_append_of_ne_nil _ (by simp)] at hblank
  rcases List.mem_cons.mp (List.mem_of_getLast? hblank) with rfl | ha
  · exact absurd hquote (by decide)
  · have hmem : ' ' ∈ a ++ symbolHead ++ b := by simp [ha]
    exact absurd (Text.isNameChar_of_mem_identifier hname hmem) (by decide)

/-- A name that holds the beginning of a symbol is the symbol of a lifted comment, and the rest of
the placeholder stands around it. -/
theorem Token.Begins.symbol_eq (h : t.Begins p q) (hk : t.kind = .name)
    (hsymbol : symbolHead <:+: t.text.text) {segs : List Segment} {pre : List Char}
    (hfree : SymbolFree (segs.flatMap Segment.written))
    (hp : segs.flatMap (Segment.text 0) = pre ++ p.text) :
    ∃ before i inner after, segs = before ++ .comment i inner :: after ∧
      t.text.text = commentSymbol i ∧
      pre = before.flatMap (Segment.text 0) ++ "\x7b\x7b ".toList ∧
      q.text = ' ' :: '}' :: '}' :: after.flatMap (Segment.text 0) := by
  obtain ⟨a, b, hab⟩ := hsymbol
  have hwhole : segs.flatMap (Segment.text 0) = (pre ++ a) ++ (symbolHead ++ (b ++ q.text)) := by
    rw [hp, h.leads.text, ← hab]
    simp only [List.append_assoc]
  obtain ⟨before, i, inner, after, rfl, -, hpos⟩ := exists_of_symbolHead hfree hwhole
  -- The symbol begins with the name, since a blank comes before the one and a name has none.
  obtain rfl : a = [] := by
    by_contra hne
    have hblank := getLast?_of_symbolHead hfree hwhole
    rw [List.getLast?_append_of_ne_nil _ hne] at hblank
    have hmem : ' ' ∈ t.text.text := by simp [← hab, List.mem_of_getLast? hblank]
    rw [h.name_eq hk] at hmem
    exact absurd (List.mem_takeWhile_imp hmem) (by decide)
  rw [List.append_nil] at hpos
  have hrest : t.text.text ++ q.text =
      commentSymbol i ++ (' ' :: '}' :: '}' :: after.flatMap (Segment.text 0)) := by
    have hcut : pre ++ (t.text.text ++ q.text) = pre ++
        (commentSymbol i ++ (" \x7d\x7d".toList ++ after.flatMap (Segment.text 0))) := by
      rw [h.leads.text, List.flatMap_append, List.flatMap_cons,
        Segment.text_comment_of_le (Nat.zero_le i), placeholder] at hp
      rw [← hp, hpos]
      simp only [List.append_assoc]
    exact List.append_cancel_left hcut
  have htext : t.text.text = commentSymbol i := by
    rw [h.name_eq hk, h.leads.text, hrest]
    refine Text.takeWhile_append_stop (fun c hc => ?_) (by simp; decide)
    exact Text.isNameChar_of_mem_identifier (isIdentifier_commentSymbol i) hc
  rw [htext] at hrest
  exact ⟨before, i, inner, after, rfl, htext, hpos, List.append_cancel_left hrest⟩

/-- A token that is no string and holds the beginning of a symbol is the symbol of a lifted comment.
It is the last token before the end of an output, and there is no token or an opening brace before
it. -/
theorem symbol_of_mem_lex {segs : List Segment} {pre : List Char}
    (hfree : SymbolFree (segs.flatMap Segment.written))
    (hp : segs.flatMap (Segment.text 0) = pre ++ p.text) (ht : t ∈ (lex p).1.tokens)
    (hk : t.kind ≠ .string) (hsymbol : symbolHead <:+: t.text.text) :
    ∃ i inner, .comment i inner ∈ segs ∧ t.lexeme = ⟨.name, commentSymbol i⟩ ∧
      (lex p).1.ending.kind = .outputEnd ∧
        ((lex p).1.tokens = [t] ∨ ∃ ts u, (lex p).1.tokens = ts ++ [u, t] ∧ u.isSign "\x7b") := by
  obtain ⟨ts, s, q, ⟨start, text⟩, hq, hts, hbegins, hlex⟩ := begins_of_mem_lex ht
  have hname : t.kind = .name := by
    by_contra hn
    exact hbegins.symbolFree hk hn hsymbol
  rw [hq.text, ← List.append_assoc] at hp
  obtain ⟨before, i, inner, after, rfl, htext, hpos, rfl⟩ :=
    hbegins.symbol_eq hname hsymbol hfree hp
  obtain ⟨closing, hclosing⟩ := lex_outputEnd start (after.flatMap (Segment.text 0))
  have hinside : (lex p).1 = ⟨ts ++ [t], ⟨.outputEnd, closing⟩⟩ := by
    rw [hlex, hbegins.lex, hclosing]
    rfl
  rw [hinside]
  refine ⟨i, inner, by simp, by rw [Token.lexeme, hname, htext], rfl, ?_⟩
  cases hts with
  | nil => exact .inl rfl
  | @concat ts u p' q' s b hu hb =>
    rw [← List.append_assoc, ← List.append_assoc] at hpos
    exact .inr ⟨ts, u, by simp, hu.isSign_of_blanks hb hpos⟩

end Tokens

/-! ### Chunks -/

/-- A token holds no beginning of a symbol that could get into a name: it is a string or holds none
at all, and what could be a name between its quotes does not either. -/
structure Token.NameFree (t : Token) : Prop where
  text : t.kind = .string ∨ SymbolFree t.text.text
  unquoted : Text.isIdentifier (Text.unquoted t.text.toString) →
    SymbolFree (Text.unquoted t.text.toString)

/-- What a chunk has of the segments that it is read from. A text is made of whole segments, which
are characters only if it is `plain`, that is, not the body of a verbatim block. The tokens of an
output or a tag hold no beginning of a symbol that could get into a name, unless the symbol of a
comment is all that is there. -/
def Chunk.Fits (segs : List Segment) (plain : Prop) : Chunk → Prop
  | .data text => ∃ part, part <:+: segs ∧ text.text = part.flatMap (Segment.text 0) ∧
      (plain → text.text = part.flatMap Segment.written)
  | .output inside => (∀ t ∈ inside.tokens, t.NameFree) ∨ ∃ i inner, .comment i inner ∈ segs ∧
      inside.tokens.map Token.lexeme = [⟨.name, commentSymbol i⟩]
  | .tag inside => ∀ t ∈ inside.tokens, t.NameFree
  | .fault _ => True

section Chunks

variable {segs : List Segment} {p q r : Piece} {pre : List Char}

/-- Whole segments make up the source after some chunks. -/
def Remains (segs : List Segment) (p : Piece) : Prop :=
  ∃ rest, rest <:+ segs ∧ rest.flatMap (Segment.text 0) = p.text

/-- After a closing delimiter there are whole segments. -/
theorem remains_of_leads {s s' : List Char} {c : Char} (hc : c ≠ ' ')
    (hp : segs.flatMap (Segment.text 0) = p.text) (h : Piece.Leads p s q)
    (h' : Piece.Leads q (s' ++ [c, '}']) r) : Remains segs r := by
  have htext : segs.flatMap (Segment.text 0) = (s ++ s') ++ [c, '}'] ++ r.text := by
    rw [hp, h.text, h'.text]
    simp only [List.append_assoc]
  obtain ⟨before, after, rfl, -, hafter⟩ := split_after hc htext
  exact ⟨after, List.suffix_append before after, hafter⟩

theorem ne_space_of_isClosing {c : Char} (h : isClosing c) : c ≠ ' ' := by
  rintro rfl
  exact absurd h (by decide)

theorem remains_of_closes {s : List Char} (hp : segs.flatMap (Segment.text 0) = p.text)
    (h : Piece.Leads p s q) (hc : (lex q).1.Closes) : Remains segs (lex q).2 := by
  obtain ⟨s', c, hclosing, hlex⟩ := leads_lex_of_closes hc
  exact remains_of_leads (ne_space_of_isClosing hclosing) hp h hlex

/-- A token is free of symbols or is one. -/
theorem nameFree_or_symbol (hfree : SymbolFree (segs.flatMap Segment.written))
    (hp : segs.flatMap (Segment.text 0) = pre ++ p.text) {t : Token}
    (ht : t ∈ (lex p).1.tokens) : t.NameFree ∨ t.kind ≠ .string ∧ symbolHead <:+: t.text.text := by
  by_cases hk : t.kind = .string
  · exact .inl ⟨.inl hk, symbolFree_unquoted_of_mem_lex hfree hp ht hk⟩
  by_cases hsymbol : symbolHead <:+: t.text.text
  · exact .inr ⟨hk, hsymbol⟩
  · refine .inl ⟨.inr hsymbol, fun _ => SymbolFree.mono hsymbol ?_⟩
    simpa [Piece.toString] using Text.unquoted_infix_toList t.text.toString

theorem fits_tag (hfree : SymbolFree (segs.flatMap Segment.written))
    (hp : segs.flatMap (Segment.text 0) = pre ++ p.text) {item : Item}
    (hitem : Item.Of (.tag (lex p).1) item) (plain : Prop) :
    (Chunk.tag (lex p).1).Fits segs plain := by
  intro t ht
  refine (nameFree_or_symbol hfree hp ht).resolve_right ?_
  rintro ⟨hk, hsymbol⟩
  obtain ⟨i, inner, -, -, hend, -⟩ := symbol_of_mem_lex hfree hp ht hk hsymbol
  cases hitem with
  | tag hname htag =>
    obtain ⟨htag, -, -⟩ := htag
    cases hend.symm.trans htag

theorem fits_output (hfree : SymbolFree (segs.flatMap Segment.written))
    (hp : segs.flatMap (Segment.text 0) = pre ++ p.text) {item : Item}
    (hitem : Item.Of (.output (lex p).1) item) (plain : Prop) :
    (Chunk.output (lex p).1).Fits segs plain := by
  by_cases hall : ∀ t ∈ (lex p).1.tokens, t.NameFree
  · exact .inl hall
  simp only [not_forall] at hall
  obtain ⟨t, ht, hnot⟩ := hall
  obtain ⟨hk, hsymbol⟩ := (nameFree_or_symbol hfree hp ht).resolve_left hnot
  obtain ⟨i, inner, hi, hlexeme, -, htokens | ⟨ts, u, htokens, hopen⟩⟩ :=
    symbol_of_mem_lex hfree hp ht hk hsymbol
  · exact .inr ⟨i, inner, hi, by rw [htokens, List.map_singleton, hlexeme]⟩
  -- A brace before the symbol would have to be closed after it.
  cases hitem with
  | output hvalue =>
    have hmatched := matched_of_readOutputTerm hvalue
    obtain ⟨v, hv, hclose⟩ := hmatched ts u [t] htokens hopen
    have hkind : t.kind = .name := congrArg Lexeme.kind hlexeme
    rw [List.mem_singleton.mp hv, Token.isSign_eq_false_of_kind (by simp [hkind])] at hclose
    cases hclose

/-- Plain text goes up to the next delimiter, and so it has no placeholder in it. -/
theorem splitBefore_isOpen (segs : List Segment) :
    ∃ part rest, segs = part ++ rest ∧
      Text.splitBefore isOpen (segs.flatMap (Segment.text 0)) =
        (part.flatMap Segment.written, rest.flatMap (Segment.text 0)) ∧
      part.flatMap (Segment.text 0) = part.flatMap Segment.written := by
  induction segs with
  | nil => exact ⟨[], [], rfl, rfl, rfl⟩
  | cons seg segs ih =>
    by_cases hopen : isOpen ((seg :: segs).flatMap (Segment.text 0))
    · refine ⟨[], seg :: segs, rfl, ?_, rfl⟩
      obtain ⟨c, s, hs⟩ := List.exists_cons_of_ne_nil (l := (seg :: segs).flatMap (Segment.text 0))
        (by simp [Segment.text_ne_nil])
      rw [hs] at hopen ⊢
      rw [Text.splitBefore, if_pos hopen]
      rfl
    · cases seg with
      | comment i inner =>
        rw [List.flatMap_cons, Segment.text_comment_of_le (Nat.zero_le i)] at hopen
        exact absurd rfl hopen
      | char c =>
        obtain ⟨part, rest, rfl, hsplit, hpart⟩ := ih
        refine ⟨.char c :: part, rest, rfl, ?_, ?_⟩
        · rw [List.flatMap_cons, Segment.text, List.singleton_append] at hopen ⊢
          rw [Text.splitBefore, if_neg hopen, hsplit]
          rfl
        · rw [List.flatMap_cons, List.flatMap_cons, hpart]
          rfl

/-- The body of a verbatim block is made of whole segments, and whole segments come after it. -/
theorem segments_of_verbatimBody {name : String} {body rest : Piece}
    (hp : segs.flatMap (Segment.text 0) = p.text) (h : verbatimBody name p = .ok (body, rest)) :
    (∃ part, part <:+: segs ∧ part.flatMap (Segment.text 0) = body.text) ∧ Remains segs rest := by
  obtain ⟨s, c, hc, hleads⟩ := leads_verbatimBody h
  constructor
  · have htext : segs.flatMap (Segment.text 0) =
        body.text ++ '{' :: '%' :: (s ++ [c, '}'] ++ rest.text) := by
      rw [hp, hleads.text]
      simp only [List.append_assoc, List.cons_append]
    obtain ⟨before, after, rfl, hbefore, -⟩ := split_before htext
    exact ⟨before, (List.prefix_append before after).isInfix, hbefore⟩
  · exact remains_of_leads (ne_space_of_isClosing hc) hp (.refl p) hleads

/-- Chunks that have items fit the segments that they are read from, and whole segments come after
them. -/
def FitsRead (segs : List Segment) (plain : Prop) (result : List Chunk × Piece) : Prop :=
  (∀ chunk ∈ result.1, ∃ item, Item.Of chunk item) →
    (∀ chunk ∈ result.1, chunk.Fits segs plain) ∧ Remains segs result.2

theorem FitsRead.single {chunk : Chunk} {plain : Prop}
    (h : ∀ item, Item.Of chunk item → chunk.Fits segs plain ∧ Remains segs p) :
    FitsRead segs plain ([chunk], p) := by
  intro hitems
  obtain ⟨item, hitem⟩ := List.forall_mem_singleton.mp hitems
  exact ⟨List.forall_mem_singleton.mpr (h item hitem).1, (h item hitem).2⟩

theorem FitsRead.fault {error : ReadError} {plain : Prop} :
    FitsRead segs plain ([.fault error], p) := by
  refine .single fun item hitem => ?_
  cases hitem

theorem fitsRead_readComment {s : List Char} {start : Nat} {plain : Prop}
    (hp : segs.flatMap (Segment.text 0) = p.text) (h : Piece.Leads p s q) :
    FitsRead segs plain (readComment start q) := by
  rw [readComment]
  split
  · next inner rest hcut =>
    exact fun _ => ⟨List.forall_mem_nil _, remains_of_leads (by decide) hp h (leads_cut? hcut)⟩
  · exact .fault

theorem fitsRead_output {s : List Char} {plain : Prop}
    (hfree : SymbolFree (segs.flatMap Segment.written))
    (hp : segs.flatMap (Segment.text 0) = p.text) (h : Piece.Leads p s q) :
    FitsRead segs plain ([.output (lex q).1], (lex q).2) :=
  .single fun _ hitem => ⟨fits_output hfree (hp.trans h.text) hitem plain,
    remains_of_closes hp h (hitem.closes rfl)⟩

theorem fitsRead_tagChunk {s : List Char} {plain : Prop} (hplain : ¬ plain)
    (hfree : SymbolFree (segs.flatMap Segment.written))
    (hp : segs.flatMap (Segment.text 0) = p.text) (h : Piece.Leads p s q) :
    FitsRead segs plain (tagChunk (lex q).1 (lex q).2) := by
  rw [tagChunk]
  split
  · exact .single fun _ hitem => ⟨fits_tag hfree (hp.trans h.text) hitem plain,
      remains_of_closes hp h (hitem.closes rfl)⟩
  · next name hname =>
    split
    · exact .fault
    · next body rest hbody =>
      obtain ⟨after, hafter, htext⟩ :=
        remains_of_closes hp h (.inl (tagEnd_of_verbatimName? hname))
      obtain ⟨⟨part, hpart, hbodyText⟩, rest', hrest, hrestText⟩ :=
        segments_of_verbatimBody htext hbody
      refine .single fun _ _ => ⟨⟨part, hpart.trans hafter.isInfix, hbodyText.symm, ?_⟩, ?_⟩
      · exact fun h => absurd h hplain
      · exact ⟨rest', hrest.trans hafter, hrestText⟩

theorem fitsRead_readData {plain : Prop} (hp : segs.flatMap (Segment.text 0) = p.text) :
    FitsRead segs plain (readData p) := by
  obtain ⟨part, rest, rfl, hsplit, hpart⟩ := splitBefore_isOpen segs
  rw [hp] at hsplit
  have htext : (p.splitBefore isOpen).1.text = part.flatMap Segment.written :=
    congrArg Prod.fst hsplit
  refine .single fun _ _ => ⟨⟨part, (List.prefix_append part rest).isInfix, ?_, fun _ => htext⟩, ?_⟩
  · exact htext.trans hpart.symm
  · exact ⟨rest, List.suffix_append part rest, (congrArg Prod.snd hsplit).symm⟩

/-- The first chunks of a source. -/
theorem fitsRead_readChunk (hfree : SymbolFree (segs.flatMap Segment.written))
    (hp : segs.flatMap (Segment.text 0) = p.text) :
    FitsRead segs (open? p.text = none) (readChunk p) := by
  rw [readChunk]
  split
  · next cs ho =>
    obtain ⟨c, -, hopening⟩ := leads_open? ho
    exact fitsRead_readComment hp hopening
  · next cs ho =>
    obtain ⟨s, hinside⟩ := leads_inside ho
    exact fitsRead_output hfree hp hinside
  · next cs ho =>
    obtain ⟨s, hinside⟩ := leads_inside ho
    exact fitsRead_tagChunk (by simp [ho]) hfree hp hinside
  · exact fitsRead_readData hp

theorem Chunk.Fits.mono {part : List Segment} {plain : Prop} {chunk : Chunk}
    (h : chunk.Fits part plain) (hpart : part <:+ segs) : chunk.Fits segs plain := by
  cases chunk with
  | data text =>
    obtain ⟨inner, hinner, htext, hplain⟩ := h
    exact ⟨inner, hinner.trans hpart.isInfix, htext, hplain⟩
  | output inside =>
    refine h.imp_right ?_
    rintro ⟨i, inner, hi, htokens⟩
    exact ⟨i, inner, hpart.subset hi, htokens⟩
  | tag inside => exact h
  | fault error => trivial

/-- All chunks of a source fit its segments, if all of them have items. -/
theorem fits_of_mem_sitedChunks {q : Piece} {chunk : Chunk}
    (hfree : SymbolFree (segs.flatMap Segment.written))
    (hp : segs.flatMap (Segment.text 0) = p.text)
    (hitems : ∀ chunk ∈ chunks p, ∃ item, Item.Of chunk item) (h : (q, chunk) ∈ sitedChunks p) :
    chunk.Fits segs (open? q.text = none) := by
  fun_induction sitedChunks p generalizing segs with
  | case1 => cases h
  | case2 p hne ih =>
    rw [chunks, dif_neg hne, List.forall_mem_append] at hitems
    obtain ⟨hfits, rest, hrest, htext⟩ := fitsRead_readChunk hfree hp hitems.1
    rcases List.mem_append.mp h with h | h
    · obtain ⟨c, hc, he⟩ := List.mem_map.mp h
      obtain ⟨rfl, rfl⟩ := Prod.mk.inj he
      exact hfits c hc
    · exact (ih (hfree.mono (hrest.isInfix.flatMap _)) htext hitems.2 h).mono hrest

end Chunks

end Stencil.Nunjucks
