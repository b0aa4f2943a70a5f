import Stencil.Nunjucks.Chunk
import Stencil.Proofs.Nunjucks.Lexing
import Stencil.Proofs.Nunjucks.Marker

/-!
# Chunks of a written source

A source is read chunk by chunk, and each piece of markup that is written is one chunk: a tag or an
output, whatever stands after it; a raw block, up to its closing tag; and a text, up to the next
delimiter. What is known about a tag or an output is its first word, at its offset in the source,
and the lexemes after that word.
-/

namespace Stencil.Nunjucks

/-! ### The words of a tag -/

/-- A text that can stand after the first word of a tag, with its lexemes: there is no delimiter in
it. -/
structure Words (s : List Char) (ls : List Lexeme) : Prop where
  lexes : Lexes s ls
  parts : Parts s
  plain : ∀ x ∈ s, x ∉ ['{', '}', '%']

namespace Words

variable {s name : List Char} {ls : List Lexeme}

theorem nil : Words [] [] :=
  ⟨.nil, .nil, by simp⟩

/-- Names hold no delimiters. -/
theorem plain_name (hn : Text.isIdentifier name) : ∀ x ∈ name, x ∉ ['{', '}', '%'] := by
  intro x hx hd
  have hx := Text.isNameChar_of_mem_identifier hn hx
  simp only [List.mem_cons, List.not_mem_nil, or_false] at hd
  rcases hd with rfl | rfl | rfl <;> exact absurd hx (by decide)

theorem append {s' : List Char} {ls' : List Lexeme} (h : Words s ls) (h' : Words s' ls') :
    Words (s ++ s') (ls ++ ls') := by
  refine ⟨h.lexes.append h'.lexes h'.parts, fun rest hr => ?_, fun x hx => ?_⟩
  · rw [List.append_assoc]
    exact h.parts _ (h'.parts rest hr)
  · rcases List.mem_append.mp hx with hx | hx
    · exact h.plain x hx
    · exact h'.plain x hx

/-- A word, after a space. -/
theorem word (hn : Text.isIdentifier name) (h : Words s ls) :
    Words (' ' :: (name ++ s)) (⟨.name, name⟩ :: ls) := by
  refine ⟨((Lexes.name hn).append h.lexes h.parts).space, .cons (by decide) _, ?_⟩
  intro x hx
  rcases List.mem_cons.mp hx with rfl | hx
  · decide
  · rcases List.mem_append.mp hx with hx | hx
    · exact plain_name hn x hx
    · exact h.plain x hx

/-- A comma, right after a word. -/
theorem comma (h : Words s ls) : Words (',' :: s) (.sign "," :: ls) := by
  refine ⟨h.lexes.lone (by decide), .cons (by decide) _, ?_⟩
  intro x hx
  rcases List.mem_cons.mp hx with rfl | hx
  · decide
  · exact h.plain x hx

/-- An equals sign between spaces. -/
theorem equals (h : Words (' ' :: s) ls) : Words (' ' :: '=' :: ' ' :: s) (.sign "=" :: ls) := by
  refine ⟨(Lexes.equals (by decide) h.lexes).space, .cons (by decide) _, ?_⟩
  intro x hx
  rcases List.mem_cons.mp hx with rfl | hx
  · decide
  · rcases List.mem_cons.mp hx with rfl | hx
    · decide
    · exact h.plain x hx

end Words

/-! ### Texts between delimiters -/

/-- A text that can stand before the space of a closing delimiter, with its lexemes: it is made of
whole tokens, and neither a tag nor a comment begins in it. -/
structure Phrase (s : List Char) (ls : List Lexeme) : Prop where
  lexes : ∀ start rest, ∃ ts : List Token, ts.map Token.lexeme = ls ∧
    lex ⟨start, s ++ ' ' :: rest⟩ = ((lex ⟨start + Text.byteLength s, ' ' :: rest⟩).1.prepend ts,
      (lex ⟨start + Text.byteLength s, ' ' :: rest⟩).2)
  quiet : ∀ c ∈ ['%', '#'], Text.Lacks '{' c s

namespace Phrase

variable {s s' : List Char} {ls ls' : List Lexeme}

theorem of_isWhole (h : isWhole s) (hq : ∀ c ∈ ['%', '#'], Text.Lacks '{' c s) :
    Phrase s (lexemes s) :=
  ⟨fun start rest => lex_append (beq_iff_eq.mp h) (.space rest) start, hq⟩

/-- A further phrase, after a space. -/
theorem space (h : Phrase s ls) (h' : Phrase s' ls') : Phrase (s ++ ' ' :: s') (ls ++ ls') := by
  refine ⟨fun start rest => ?_, fun c hc => ?_⟩
  · obtain ⟨ts, rfl, hlex⟩ := h.lexes start (s' ++ ' ' :: rest)
    obtain ⟨ts', rfl, hlex'⟩ := h'.lexes (start + Text.byteLength s + 1) rest
    have hsize : ' '.utf8Size = 1 := by decide
    refine ⟨ts ++ ts', List.map_append, ?_⟩
    rw [List.append_assoc, List.cons_append, hlex, lex_space, hlex']
    simp [Inside.prepend, Text.byteLength, hsize, Nat.add_assoc]
  · have hne : ' ' ≠ '{' := by decide
    exact (h.quiet c hc).append ((h'.quiet c hc).cons hne)

end Phrase

theorem Words.phrase {s : List Char} {ls : List Lexeme} (h : Words s ls) : Phrase s ls := by
  refine ⟨fun start rest => h.lexes start (' ' :: rest) (.cons (by decide) rest), fun c _ => ?_⟩
  exact .of_notMem fun hb => h.plain _ hb (by simp)

/-! ### The inside of a delimiter pair -/

/-- The characters before the brace of a closing delimiter, with what it ends. -/
def closers : List (Char × EndKind) :=
  [('%', .tagEnd), ('}', .outputEnd)]

theorem lex_closer {c : Char} {kind : EndKind} (hk : (c, kind) ∈ closers) (isSet : Bool)
    (start : Nat) (rest : List Char) :
    ∃ closing, lex ⟨start, closer c isSet ++ rest⟩ =
      (⟨[], ⟨kind, closing⟩⟩, ⟨start + Text.byteLength (closer c isSet), rest⟩) := by
  refine ⟨⟨start + 1, (Markup.marker isSet).toList ++ [c, '}']⟩, ?_⟩
  simp only [closers, List.mem_cons, List.not_mem_nil, or_false, Prod.mk.injEq] at hk
  rw [closer, List.cons_append, lex_space]
  rcases hk with ⟨rfl, rfl⟩ | ⟨rfl, rfl⟩ <;> cases isSet <;>
    exact lex_closing (by simp [Markup.marker]; decide) rfl

/-- The inside of a written delimiter pair. -/
theorem lex_phrase {s : List Char} {ls : List Lexeme} (h : Phrase s ls) {c : Char} {kind : EndKind}
    (hk : (c, kind) ∈ closers) (isSet : Bool) (start : Nat) (rest : List Char) :
    ∃ ts closing, ts.map Token.lexeme = ls ∧
      lex ⟨start, s ++ closer c isSet ++ rest⟩ =
        (⟨ts, ⟨kind, closing⟩⟩, ⟨start + Text.byteLength (s ++ closer c isSet), rest⟩) := by
  obtain ⟨ts, hts, hlex⟩ := h.lexes start ((Markup.marker isSet).toList ++ [c, '}'] ++ rest)
  obtain ⟨closing, hclose⟩ := lex_closer hk isSet (start + Text.byteLength s) rest
  refine ⟨ts, closing, hts, ?_⟩
  rw [closer, List.cons_append] at hclose
  rw [List.append_assoc, closer, List.cons_append, hlex, hclose]
  simp [Inside.prepend, Nat.add_assoc]

/-- The inside of a written delimiter pair, from its first word on. -/
theorem lex_words {word args : List Char} {ls : List Lexeme} (hw : Text.isIdentifier word)
    (hp : Parts args) (ha : Phrase args ls) {c : Char} {kind : EndKind} (hk : (c, kind) ∈ closers)
    (isSet : Bool) (start : Nat) (rest : List Char) :
    ∃ ts closing, ts.map Token.lexeme = ls ∧
      lex ⟨start, word ++ args ++ closer c isSet ++ rest⟩ =
        (⟨⟨.name, ⟨start, word⟩⟩ :: ts, ⟨kind, closing⟩⟩,
          ⟨start + Text.byteLength (word ++ args ++ closer c isSet), rest⟩) := by
  have hseam : Seam (closer c isSet ++ rest) := .cons (by decide) _
  obtain ⟨ts, closing, hts, hlex⟩ := lex_phrase ha hk isSet (start + Text.byteLength word) rest
  refine ⟨ts, closing, hts, ?_⟩
  rw [List.append_assoc, List.append_assoc, lex_name hw (hp _ hseam).isNameChar,
    ← List.append_assoc, hlex]
  simp [Inside.cons, Nat.add_assoc]

/-- An opening delimiter is passed over with its marker and the space after it. -/
theorem lex_dropMarker {o : Char} (ho : o.utf8Size = 1) (isSet : Bool) (start : Nat)
    (cs : List Char) :
    lex (Piece.dropMarker ⟨start + 2, (Markup.marker isSet).toList ++ ' ' :: cs⟩) =
      lex ⟨start + Text.byteLength (opener o isSet), cs⟩ := by
  have hsize : '{'.utf8Size = 1 ∧ '-'.utf8Size = 1 ∧ ' '.utf8Size = 1 := by decide
  cases isSet
  · have hlength : Text.byteLength (opener o false) = 3 := by
      simp [opener, Markup.marker, Text.byteLength, ho, hsize]
    rw [hlength]
    exact lex_space (start + 2) cs
  · have hlength : Text.byteLength (opener o true) = 4 := by
      simp [opener, Markup.marker, Text.byteLength, ho, hsize]
    rw [hlength]
    exact lex_space (start + 3) cs

theorem readChunk_opener_output (isSet : Bool) (start : Nat) (cs : List Char) :
    readChunk ⟨start, opener '{' isSet ++ cs⟩ =
      ([.output (lex ⟨start + Text.byteLength (opener '{' isSet), cs⟩).1],
        (lex ⟨start + Text.byteLength (opener '{' isSet), cs⟩).2) := by
  rw [← lex_dropMarker (by decide)]
  simp [readChunk, opener, open?, readOutput]

theorem readChunk_opener_tag (isSet : Bool) (start : Nat) (cs : List Char) :
    readChunk ⟨start, opener '%' isSet ++ cs⟩ =
      tagChunk (lex ⟨start + Text.byteLength (opener '%' isSet), cs⟩).1
        (lex ⟨start + Text.byteLength (opener '%' isSet), cs⟩).2 := by
  rw [← lex_dropMarker (by decide)]
  simp [readChunk, opener, open?, readTag]

/-! ### Tags and outputs -/

section Delimited

variable {word args : List Char} {ls : List Lexeme} {body : String}

/-- A written output is one chunk, whose tokens are those of its phrase. -/
theorem readChunk_phrase (hb : Phrase body.toList ls) (trim : Trim) (start : Nat)
    (rest : List Char) :
    ∃ ts closing, ts.map Token.lexeme = ls ∧
      readChunk ⟨start, (Markup.output body trim).toList ++ rest⟩ =
        ([.output ⟨ts, ⟨.outputEnd, closing⟩⟩],
          ⟨start + Text.byteLength (Markup.output body trim).toList, rest⟩) := by
  obtain ⟨ts, closing, hts, hlex⟩ := lex_phrase hb (by decide : ('}', .outputEnd) ∈ closers)
    trim.right (start + Text.byteLength (opener '{' trim.left)) rest
  refine ⟨ts, closing, hts, ?_⟩
  rw [toList_output, List.append_assoc, readChunk_opener_output, hlex]
  simp [Nat.add_assoc]

/-- A written output is one chunk. -/
theorem readChunk_output (hbody : body.toList = word ++ args) (hw : Text.isIdentifier word)
    (hp : Parts args) (ha : Phrase args ls) (trim : Trim) (start : Nat) (rest : List Char) :
    ∃ ts closing, ts.map Token.lexeme = ls ∧
      readChunk ⟨start, (Markup.output body trim).toList ++ rest⟩ =
        ([.output ⟨⟨.name, ⟨start + Text.byteLength (opener '{' trim.left), word⟩⟩ :: ts,
          ⟨.outputEnd, closing⟩⟩],
          ⟨start + Text.byteLength (Markup.output body trim).toList, rest⟩) := by
  obtain ⟨ts, closing, hts, hlex⟩ := lex_words hw hp ha (by decide : ('}', .outputEnd) ∈ closers)
    trim.right (start + Text.byteLength (opener '{' trim.left)) rest
  refine ⟨ts, closing, hts, ?_⟩
  rw [toList_output, hbody, List.append_assoc, readChunk_opener_output, hlex]
  simp [Nat.add_assoc]

/-- A written tag is one chunk, if it opens no verbatim block. -/
theorem readChunk_tag (hbody : body.toList = word ++ args) (hw : Text.isIdentifier word)
    (hp : Parts args) (ha : Phrase args ls) (hv : word ≠ "raw".toList ∧ word ≠ "verbatim".toList)
    (trim : Trim) (start : Nat) (rest : List Char) :
    ∃ ts closing, ts.map Token.lexeme = ls ∧
      readChunk ⟨start, (Markup.tag body trim).toList ++ rest⟩ =
        ([.tag ⟨⟨.name, ⟨start + Text.byteLength (opener '%' trim.left), word⟩⟩ :: ts,
          ⟨.tagEnd, closing⟩⟩],
          ⟨start + Text.byteLength (Markup.tag body trim).toList, rest⟩) := by
  obtain ⟨ts, closing, hts, hlex⟩ := lex_words hw hp ha (by decide : ('%', .tagEnd) ∈ closers)
    trim.right (start + Text.byteLength (opener '%' trim.left)) rest
  refine ⟨ts, closing, hts, ?_⟩
  have hname : ∀ start, verbatimName? ⟨⟨.name, ⟨start, word⟩⟩ :: ts, ⟨.tagEnd, closing⟩⟩ =
      none := by
    intro start
    cases ts with
    | nil => simpa [verbatimName?, Token.isName] using hv
    | cons => rfl
  rw [toList_tag, hbody, List.append_assoc, readChunk_opener_tag, hlex, tagChunk]
  simp [hname, Nat.add_assoc]

end Delimited

/-! ### Raw blocks -/

theorem closingTag?_eq_none_iff {name : List Char} {p : Piece} :
    closingTag? name p = none ↔ ∀ rest,
      Text.strip? name (Text.trimStart (unmarked p.text)) = some rest →
        rest.head?.any Text.isNameChar := by
  have htext : p.dropMarker.trimStart.text = Text.trimStart (unmarked p.text) := by
    rw [Piece.text_trimStart, Piece.dropMarker, unmarked]
    split
    · simp [Piece.drop]
    · rfl
  rw [closingTag?, Option.bind_eq_none_iff, Piece.strip?, htext]
  simp

/-- What comes after a text and begins with a brace has no part in a closing tag in the text. -/
theorem closingTag?_append {name s : List Char} (hn : '{' ∉ name) {start : Nat}
    (h : closingTag? name ⟨start, s⟩ = none) (start' : Nat) (z : List Char) :
    closingTag? name ⟨start', s ++ '{' :: z⟩ = none := by
  rw [closingTag?_eq_none_iff] at h ⊢
  intro rest hr
  rw [unmarked_append (.inl rfl), Text.trimStart_append_cons (by decide),
    Text.strip?_append_cons hn] at hr
  obtain ⟨r, hs, rfl⟩ := Option.map_eq_some_iff.mp hr
  have hany := h r hs
  cases r with
  | nil => cases hany
  | cons c cs => exact hany

/-- A text that is kept as it stands up to a closing tag called `name`: no such tag begins in it,
and it does not end in the middle of a delimiter. -/
structure Kept (name content : List Char) : Prop where
  closing : findClosing name 0 content = none
  last : content.getLast? ≠ some '{'

/-- A text without a closing tag is passed over character by character, or by two characters at a
delimiter. -/
theorem findClosing_append {name content : List Char} {start' : Nat} (hname : '{' ∉ name)
    (hc : findClosing name start' content = none) (hl : Text.EndsPaired '{' content)
    (cs : List Char) (start : Nat) {rest : Piece}
    (h : closingTag? name ⟨start + Text.byteLength content + 2, cs⟩ = some rest) :
    findClosing name start (content ++ '{' :: '%' :: cs) = some (content, rest) := by
  have hsize : '{'.utf8Size = 1 ∧ '#'.utf8Size = 1 ∧ '%'.utf8Size = 1 := by decide
  have hother : ∀ {d : Char} {s : List Char}, d ≠ '{' → Text.EndsPaired '{' ('{' :: d :: s) →
      Text.EndsPaired '{' s := fun hd => (Text.EndsPaired.append_cons_iff hd ['{']).mp
  fun_induction findClosing name start' content generalizing start with
  | case1 _ s ih =>
    rw [Option.map_eq_none_iff] at hc
    rw [List.cons_append, List.cons_append, findClosing,
      ih hc (Text.EndsPaired.pair_iff.mp hl) (start + 2)]
    · rfl
    · rw [← h]
      simp only [Text.byteLength, hsize]
      congr 2
      omega
  | case2 _ s ih =>
    rw [Option.map_eq_none_iff] at hc
    rw [List.cons_append, List.cons_append, findClosing, ih hc (hother (by decide) hl) (start + 2)]
    · rfl
    · rw [← h]
      simp only [Text.byteLength, hsize]
      congr 2
      omega
  | case3 => cases hc
  | case4 _ s hn ih =>
    rw [Option.map_eq_none_iff] at hc
    rw [List.cons_append, List.cons_append, findClosing, closingTag?_append hname hn,
      ih hc (hother (by decide) hl) (start + 2)]
    · rfl
    · rw [← h]
      simp only [Text.byteLength, hsize]
      congr 2
      omega
  | case5 _ c s h₁ h₂ h₃ ih =>
    rw [Option.map_eq_none_iff] at hc
    have hne : c = '{' → ∃ d ds, s = d :: ds ∧ d ≠ '{' ∧ d ≠ '#' ∧ d ≠ '%' := by
      rintro rfl
      cases s with
      | nil => exact absurd hl Text.EndsPaired.not_singleton
      | cons d ds =>
        refine ⟨d, ds, rfl, ?_, ?_, ?_⟩
        · rintro rfl
          exact h₁ ds rfl rfl
        · rintro rfl
          exact h₂ ds rfl rfl
        · rintro rfl
          exact h₃ ds rfl rfl
    have htail : Text.EndsPaired '{' s := by
      by_cases hb : c = '{'
      · obtain ⟨d, ds, rfl, hd, -⟩ := hne hb
        rw [hb] at hl
        exact (Text.EndsPaired.append_cons_iff hd []).mpr (hother hd hl)
      · exact (Text.EndsPaired.append_cons_iff hb []).mp hl
    have hnext := ih hc htail (start + c.utf8Size)
      (by rw [← h, Text.byteLength, Nat.add_assoc start])
    rw [List.cons_append, findClosing, hnext]
    · rfl
    all_goals
      intro z hz hzs
      obtain ⟨d, ds, rfl, hd⟩ := hne hz
      rw [List.cons_append] at hzs
      obtain ⟨rfl, -⟩ := List.cons.inj hzs
      simp at hd
  | case6 =>
    rw [Text.byteLength, Nat.add_zero] at h
    rw [List.nil_append, findClosing, h]

/-- A text in which no tag begins is kept as it stands. -/
theorem Kept.of_lacks {content : List Char} (hc : Text.Lacks '{' '%' content) (name : List Char) :
    Kept name content := by
  refine ⟨?_, hc.2⟩
  generalize 0 = start
  fun_induction findClosing name start content with
  | case1 _ s ih | case2 _ s ih => rw [ih hc.tail.tail, Option.map_none]
  | case3 _ s | case4 _ s => exact absurd ⟨[], s, rfl⟩ hc.1
  | case5 _ c s _ _ _ ih => rw [ih hc.tail, Option.map_none]
  | case6 => rfl

/-- The name of a closing tag is found behind its marker. -/
theorem closingTag?_marker {name : List Char} (hn : Text.isIdentifier name) (isSet : Bool)
    (start : Nat) (rest : List Char) (hr : ∀ c ∈ rest.head?, Text.isNameChar c = false) :
    closingTag? name ⟨start, (Markup.marker isSet).toList ++ ' ' :: (name ++ rest)⟩ =
      some ⟨start + Text.byteLength ((Markup.marker isSet).toList ++ ' ' :: name), rest⟩ := by
  have htrim : ∀ start, Piece.trimStart ⟨start, ' ' :: (name ++ rest)⟩ =
      ⟨start + 1, name ++ rest⟩ := by
    intro start
    rw [Piece.trimStart_space, Piece.trimStart_eq_self]
    intro c hc
    cases name with
    | nil => exact absurd hn (by decide)
    | cons d ds =>
      obtain rfl : d = c := by simpa using hc
      exact Text.isBlank_eq_false_of_isNameChar
        (Text.isNameChar_of_mem_identifier hn List.mem_cons_self)
  have hdrop : (Piece.dropMarker ⟨start, (Markup.marker isSet).toList ++ ' ' :: (name ++ rest)⟩) =
      ⟨start + Text.byteLength (Markup.marker isSet).toList, ' ' :: (name ++ rest)⟩ := by
    cases isSet <;> rfl
  have hhead : rest.head?.any Text.isNameChar = false := by
    cases h : rest.head? with
    | none => rfl
    | some c => exact hr c h
  have hsize : ' '.utf8Size = 1 := by decide
  rw [closingTag?, hdrop, htrim]
  simp [Piece.strip?, Text.strip?_append, hhead, Text.byteLength, hsize, Nat.add_assoc]

/-- The body of a verbatim block ends where its closing tag was written. -/
theorem verbatimBody_append (name : String) (hn : Text.isIdentifier ("end" ++ name).toList)
    {content : List Char} {start' : Nat}
    (hc : findClosing ("end" ++ name).toList start' content = none)
    (hl : Text.EndsPaired '{' content) (trim : Trim) (start : Nat) (rest : List Char) :
    verbatimBody name ⟨start, content ++ (Markup.tag ("end" ++ name) trim).toList ++ rest⟩ =
      .ok (⟨start, content⟩, ⟨start + Text.byteLength
        (content ++ (Markup.tag ("end" ++ name) trim).toList), rest⟩) := by
  have htext : content ++ (Markup.tag ("end" ++ name) trim).toList ++ rest =
      content ++ '{' :: '%' :: ((Markup.marker trim.left).toList ++
        ' ' :: (("end" ++ name).toList ++ (closer '%' trim.right ++ rest))) := by
    simp [toList_tag, opener]
  have hclosing := closingTag?_marker hn trim.left (start + Text.byteLength content + 2)
    (closer '%' trim.right ++ rest) (Seam.cons (by decide) _).isNameChar
  obtain ⟨closing, hend⟩ := lex_closer (by decide : ('%', .tagEnd) ∈ closers) trim.right
    (start + Text.byteLength content + 2 +
      Text.byteLength ((Markup.marker trim.left).toList ++ ' ' :: ("end" ++ name).toList)) rest
  have hsize : '{'.utf8Size = 1 ∧ '%'.utf8Size = 1 ∧ ' '.utf8Size = 1 := by decide
  have hbrace : '{' ∉ ("end" ++ name).toList := fun hb =>
    absurd (Text.isNameChar_of_mem_identifier hn hb) (by decide)
  rw [htext, verbatimBody, findClosing_append hbrace hc hl _ _ hclosing]
  simp only [hend, expectTagEnd]
  simp [toList_tag, opener, Text.byteLength, hsize]
  omega

/-- A raw block is one chunk of text, given the inside of its opening tag. -/
theorem tagChunk_raw {content : List Char} {start' : Nat}
    (hc : findClosing "endraw".toList start' content = none) (hl : Text.EndsPaired '{' content)
    (nameStart : Nat) (closing : Piece) (endTrim : Trim) (start : Nat) (rest : List Char) :
    tagChunk ⟨[⟨.name, ⟨nameStart, "raw".toList⟩⟩], ⟨.tagEnd, closing⟩⟩
        ⟨start, content ++ (Markup.tag "endraw" endTrim).toList ++ rest⟩ =
      ([.data ⟨start, content⟩],
        ⟨start + Text.byteLength (content ++ (Markup.tag "endraw" endTrim).toList), rest⟩) := by
  have hname : verbatimName? ⟨[⟨.name, ⟨nameStart, "raw".toList⟩⟩], ⟨.tagEnd, closing⟩⟩ =
      some "raw" := by
    simp [verbatimName?, Token.isName, Piece.toString]
  have hbody := verbatimBody_append "raw" (by decide) hc hl endTrim start rest
  rw [show "end" ++ "raw" = "endraw" from rfl] at hbody
  rw [tagChunk]
  simp only [hname, hbody]

/-- A raw block is one chunk of text. -/
theorem readChunk_raw {content : String} (hc : Kept "endraw".toList content.toList)
    (trim endTrim : Trim) (start : Nat) (rest : List Char) :
    readChunk ⟨start, (Markup.block "raw" content "endraw" trim endTrim).toList ++ rest⟩ =
      ([.data ⟨start + Text.byteLength (Markup.tag "raw" trim).toList, content.toList⟩],
        ⟨start + Text.byteLength (Markup.block "raw" content "endraw" trim endTrim).toList,
          rest⟩) := by
  have htext : (Markup.block "raw" content "endraw" trim endTrim).toList ++ rest =
      opener '%' trim.left ++ ("raw".toList ++ [] ++ closer '%' trim.right ++
        (content.toList ++ (Markup.tag "endraw" endTrim).toList ++ rest)) := by
    simp [Markup.block, toList_tag]
  obtain ⟨ts, closing, hts, hlex⟩ := lex_words (by decide : Text.isIdentifier "raw".toList) .nil
    Words.nil.phrase (by decide : ('%', .tagEnd) ∈ closers) trim.right
    (start + Text.byteLength (opener '%' trim.left))
    (content.toList ++ (Markup.tag "endraw" endTrim).toList ++ rest)
  obtain rfl := List.map_eq_nil_iff.mp hts
  have hstart : start + Text.byteLength (opener '%' trim.left) +
      Text.byteLength ("raw".toList ++ [] ++ closer '%' trim.right) =
        start + Text.byteLength (Markup.tag "raw" trim).toList := by
    rw [toList_tag, List.append_nil, Nat.add_assoc, ← Text.byteLength_append]
  rw [htext, readChunk_opener_tag, hlex, hstart,
    tagChunk_raw hc.closing (.of_getLast?_ne hc.last)]
  simp [Markup.block, Nat.add_assoc]

/-! ### Text -/

/-- A text with which a new chunk begins. -/
def Opens (rest : List Char) : Prop :=
  rest = [] ∨ isOpen rest

theorem exists_of_isOpen {s : List Char} (h : isOpen s) :
    ∃ c ∈ ['{', '%', '#'], ∃ cs, s = '{' :: c :: cs := by
  unfold isOpen open? at h
  split at h
  · exact ⟨'{', by decide, _, rfl⟩
  · exact ⟨'%', by decide, _, rfl⟩
  · exact ⟨'#', by decide, _, rfl⟩
  · cases h

/-- A text is one chunk, up to the next delimiter. -/
theorem readChunk_text {content rest : List Char} (hne : content ≠ [])
    (hc : ∀ c ∈ ['{', '%', '#'], Text.Lacks '{' c content) (hr : Opens rest) (start : Nat) :
    readChunk ⟨start, content ++ rest⟩ =
      ([.data ⟨start, content⟩], ⟨start + Text.byteLength content, rest⟩) := by
  have hstop : ∀ a b, content = a ++ b → b ≠ [] → isOpen (b ++ rest) = false := by
    rintro a b rfl hb
    rw [Bool.eq_false_iff]
    intro ho
    obtain ⟨c, hmem, cs, hcs⟩ := exists_of_isOpen ho
    obtain ⟨d, b, rfl⟩ := List.exists_cons_of_ne_nil hb
    rw [List.cons_append, List.cons.injEq] at hcs
    obtain ⟨rfl, hcs⟩ := hcs
    obtain ⟨d, b, rfl, hd⟩ := (hc c hmem).of_append.exists_cons
    exact hd (List.cons.inj hcs).1
  have hopen : open? (content ++ rest) = none := by
    simpa [isOpen] using hstop [] content rfl hne
  rw [readChunk, hopen]
  simp only [readData, Piece.splitBefore, Text.splitBefore_append_stop hstop hr]

end Stencil.Nunjucks
