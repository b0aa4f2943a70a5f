import Stencil.Error
import Stencil.Source
import Stencil.Text.Literal
import Stencil.Trim

/-!
# Liquid tokens

A Liquid source is text with outputs `{{ … }}` and tags `{% … %}` in it. Inside a delimiter pair, a
quoted string may hold the closing delimiter. The body of a `raw` or `comment` block is not split at
all: it extends to the first closing tag of its name.

## Main definitions

* `Liquid.Tag` : a tag with its name and arguments.
* `Liquid.Token` : text, an output, a tag, or a verbatim block.
* `Liquid.tokenize` : the tokens of a source.
-/

namespace Stencil.Liquid

/-- A tag. -/
structure Tag where
  /-- The name. -/
  name : String
  /-- The text after the name, without blanks around it. -/
  args : Piece
  /-- The whole tag, its delimiters included. -/
  span : Span
  /-- The markers of its delimiters. -/
  trim : Trim
deriving DecidableEq, Repr

/-- A token of a source. -/
inductive Token where
  /-- Text outside all delimiters. -/
  | html (text : Piece)
  /-- An output and the text inside its delimiters. -/
  | output (inner : Piece) (span : Span) (trim : Trim)
  /-- A tag. -/
  | tag (tag : Tag)
  /-- A block whose body is not split into tokens. -/
  | verbatim (opening : Tag) (content : Piece) (closing : Tag)
deriving DecidableEq, Repr

/-! ### Delimiters -/

/-- The two kinds of delimiter pairs. -/
inductive Mark where
  /-- An output. -/
  | output
  /-- A tag. -/
  | tag
deriving DecidableEq, Repr

/-- The character before the brace of a closing delimiter. -/
def Mark.close : Mark → Char
  | output => '}'
  | tag => '%'

/-- The opening delimiter at the start of a text, and what comes after it. -/
def open? : List Char → Option (Mark × List Char)
  | '{' :: '{' :: cs => some (.output, cs)
  | '{' :: '%' :: cs => some (.tag, cs)
  | _ => none

theorem length_of_open? {cs rest : List Char} {m : Mark} (h : open? cs = some (m, rest)) :
    cs.length = rest.length + 2 := by
  unfold open? at h
  split at h <;> simp_all

/-- An opening delimiter stands at the start of a text. -/
def isOpen (cs : List Char) : Bool :=
  (open? cs).isSome

/-- The text up to the first closing delimiter outside quotes, and the text after it. A backslash
inside quotes keeps the character after it from ending them. -/
def untilClose (close : Char) : (quote : Option Char) → List Char → Option (List Char × List Char)
  | _, [] => none
  | some q, '\\' :: c :: cs =>
      (untilClose close (some q) cs).map fun (inner, rest) => ('\\' :: c :: inner, rest)
  | some q, c :: cs =>
      (untilClose close (if c == q then none else some q) cs).map fun (inner, rest) =>
        (c :: inner, rest)
  | none, c :: cs =>
    if c == close && cs.head? == some '}' then some ([], cs.tail)
    else
      (untilClose close (if Text.isQuote c then some c else none) cs).map fun (inner, rest) =>
        (c :: inner, rest)

theorem length_untilClose {close : Char} {quote : Option Char} {cs inner rest : List Char}
    (h : untilClose close quote cs = some (inner, rest)) :
    cs.length = inner.length + rest.length + 2 := by
  fun_induction untilClose close quote cs generalizing inner rest with
  | case1 => simp at h
  | case2 q c cs ih =>
      obtain ⟨⟨i, r⟩, hi, he⟩ := Option.map_eq_some_iff.mp h
      simp only [Prod.mk.injEq] at he
      obtain ⟨rfl, rfl⟩ := he
      simp only [List.length_cons, ih hi]
      omega
  | case3 q c cs _ ih =>
      obtain ⟨⟨i, r⟩, hi, he⟩ := Option.map_eq_some_iff.mp h
      simp only [Prod.mk.injEq] at he
      obtain ⟨rfl, rfl⟩ := he
      simp only [List.length_cons, ih hi]
      omega
  | case4 c cs hc =>
      cases cs with
      | nil => simp at hc
      | cons d ds => simp_all
  | case5 c cs _ ih =>
      obtain ⟨⟨i, r⟩, hi, he⟩ := Option.map_eq_some_iff.mp h
      simp only [Prod.mk.injEq] at he
      obtain ⟨rfl, rfl⟩ := he
      simp only [List.length_cons, ih hi]
      omega

/-- What stands inside a delimiter pair. -/
structure Delimited where
  /-- The text inside, without markers. -/
  inner : Piece
  /-- The markers. -/
  trim : Trim
  /-- The source after the closing delimiter. -/
  rest : Piece

/-- The contents of a delimiter pair, given the source after its opening delimiter. -/
def delimited? (mark : Mark) (p : Piece) : Option Delimited :=
  let body := p.dropMarker
  (untilClose mark.close none body.text).map fun (inner, rest) =>
    let right := inner.getLast? == some '-'
    { inner := ⟨body.start, if right then inner.dropLast else inner⟩
      trim := ⟨p.text.head? == some '-', right⟩
      rest := ⟨body.start + Text.byteLength inner + 2, rest⟩ }

theorem length_delimited? {mark : Mark} {p : Piece} {d : Delimited}
    (h : delimited? mark p = some d) : d.rest.text.length < p.text.length := by
  obtain ⟨⟨i, r⟩, hi, rfl⟩ := Option.map_eq_some_iff.mp h
  have hl := length_untilClose hi
  have hm := p.length_dropMarker_le
  simp only
  omega

/-! ### Tags -/

/-- A character that can stand in the name of a tag. -/
def isTagNameChar (c : Char) : Bool :=
  Text.isNameChar c || c == '-'

/-- The name at the start of the body of a tag. A hash sign is a name of its own. -/
def tagName (body : List Char) : List Char :=
  if body.head? == some '#' then ['#'] else body.takeWhile isTagNameChar

/-- The tag that begins at byte `start`, given what stands inside its delimiters. -/
def Tag.ofDelimited (start : Nat) (d : Delimited) : Except ReadError Tag :=
  let body := d.inner.trim
  let name := tagName body.text
  if name.isEmpty then .error (.badSyntax start .missingTagName)
  else
    .ok
      { name := String.ofList name
        args := (body.drop name.length).trimStart
        span := ⟨start, d.rest.start⟩
        trim := d.trim }

/-- The tag that begins at byte `start` and the source after it, given the source after its opening
delimiter. -/
def readTag (start : Nat) (p : Piece) : Except ReadError (Tag × Piece) :=
  match delimited? .tag p with
  | none => .error (.badSyntax start .delimiterNotClosed)
  | some d => (Tag.ofDelimited start d).map fun tag => (tag, d.rest)

theorem length_readTag {start : Nat} {p rest : Piece} {tag : Tag}
    (h : readTag start p = .ok (tag, rest)) : rest.text.length < p.text.length := by
  unfold readTag at h
  split at h
  · simp at h
  · rename_i d hd
    cases ht : Tag.ofDelimited start d with
    | error e => simp [ht, Except.map] at h
    | ok t =>
        simp only [ht, Except.map, Except.ok.injEq, Prod.mk.injEq] at h
        exact h.2 ▸ length_delimited? hd

/-- A tag called `name` begins after this opening delimiter: the name is followed by a blank, a
marker or the closing delimiter. -/
def opensTag (name : List Char) (cs : List Char) : Bool :=
  let body := if cs.head? == some '-' then cs.tail else cs
  match Text.strip? name (Text.trimStart body) with
  | some (c :: _) => Text.isBlank c || c == '-' || c == '%'
  | _ => false

/-- A tag found in a source: the text before it, the tag, and the source after it. -/
structure Found where
  /-- The text before the tag. -/
  before : List Char
  /-- The tag. -/
  tag : Tag
  /-- The source after the tag. -/
  rest : Piece

/-- What was found, if anything, with more text before it. -/
def Found.prepend (cs : List Char) :
    Except ReadError (Option Found) → Except ReadError (Option Found) :=
  Except.map (Option.map fun f => { f with before := cs ++ f.before })

theorem Found.prepend_eq_ok {cs : List Char} {r : Except ReadError (Option Found)} {f : Found}
    (h : Found.prepend cs r = .ok (some f)) :
    ∃ g, r = .ok (some g) ∧ f = { g with before := cs ++ g.before } := by
  cases r with
  | error e => simp [Found.prepend, Except.map] at h
  | ok o =>
      cases o with
      | none => simp [Found.prepend, Except.map] at h
      | some g => exact ⟨g, rfl, by simpa [Found.prepend, Except.map] using h.symm⟩

/-- The first tag called `name` in the source that begins at byte `start`. -/
def findTag (name : List Char) (start : Nat) : List Char → Except ReadError (Option Found)
  | '{' :: '{' :: cs => Found.prepend ['{', '{'] (findTag name (start + 2) cs)
  | '{' :: '%' :: cs =>
    if opensTag name cs then
      (readTag start ⟨start + 2, cs⟩).map fun (tag, rest) => some ⟨[], tag, rest⟩
    else Found.prepend ['{', '%'] (findTag name (start + 2) cs)
  | c :: cs => Found.prepend [c] (findTag name (start + c.utf8Size) cs)
  | [] => .ok none

theorem length_findTag {name : List Char} {start : Nat} {cs : List Char} {f : Found}
    (h : findTag name start cs = .ok (some f)) : f.rest.text.length < cs.length := by
  fun_induction findTag name start cs generalizing f with
  | case1 start cs ih =>
      obtain ⟨g, hg, rfl⟩ := Found.prepend_eq_ok h
      have := ih hg
      simp only [List.length_cons]
      omega
  | case2 start cs _ =>
      cases hr : readTag start ⟨start + 2, cs⟩ with
      | error e => simp [hr, Except.map] at h
      | ok r =>
          simp only [hr, Except.map, Except.ok.injEq, Option.some.injEq] at h
          have := length_readTag hr
          simp only [← h, List.length_cons] at this ⊢
          omega
  | case3 start cs _ ih =>
      obtain ⟨g, hg, rfl⟩ := Found.prepend_eq_ok h
      have := ih hg
      simp only [List.length_cons]
      omega
  | case4 start c cs _ _ ih =>
      obtain ⟨g, hg, rfl⟩ := Found.prepend_eq_ok h
      have := ih hg
      simp only [List.length_cons]
      omega
  | case5 => simp at h

/-! ### Tokens -/

/-- A block whose body is kept as it stands. -/
def isVerbatim (name : String) : Bool :=
  name == "raw" || name == "comment"

/-- The verbatim block that `opening` begins, and the source after it. -/
def readVerbatim (opening : Tag) (p : Piece) : Except ReadError (Token × Piece) :=
  match findTag ("end" ++ opening.name).toList p.start p.text with
  | .error e => .error e
  | .ok none => .error (.badSyntax opening.span.start (.blockNotClosed opening.name))
  | .ok (some f) => .ok (.verbatim opening ⟨p.start, f.before⟩ f.tag, f.rest)

/-- The token that begins with a tag, and the source after it. -/
def readTagToken (start : Nat) (p : Piece) : Except ReadError (Token × Piece) :=
  match readTag start p with
  | .error e => .error e
  | .ok (tag, rest) => if isVerbatim tag.name then readVerbatim tag rest else .ok (.tag tag, rest)

/-- The output that begins at byte `start`, and the source after it. -/
def readOutput (start : Nat) (p : Piece) : Except ReadError (Token × Piece) :=
  match delimited? .output p with
  | none => .error (.badSyntax start .outputNotClosed)
  | some d => .ok (.output d.inner ⟨start, d.rest.start⟩ d.trim, d.rest)

/-- The text up to the next opening delimiter, and the source after it. -/
def readHtml (p : Piece) : Token × Piece :=
  let (text, rest) := p.splitBefore isOpen
  (.html text, rest)

/-- The token at the start of a source that is not empty, and the source after it. -/
def readToken (p : Piece) : Except ReadError (Token × Piece) :=
  match open? p.text with
  | some (.output, cs) => readOutput p.start ⟨p.start + 2, cs⟩
  | some (.tag, cs) => readTagToken p.start ⟨p.start + 2, cs⟩
  | none => .ok (readHtml p)

theorem length_readVerbatim {opening : Tag} {p rest : Piece} {t : Token}
    (h : readVerbatim opening p = .ok (t, rest)) : rest.text.length < p.text.length := by
  unfold readVerbatim at h
  split at h
  · simp at h
  · simp at h
  · rename_i f hf
    simp only [Except.ok.injEq, Prod.mk.injEq] at h
    exact h.2 ▸ length_findTag hf

theorem length_readTagToken {start : Nat} {p rest : Piece} {t : Token}
    (h : readTagToken start p = .ok (t, rest)) : rest.text.length < p.text.length := by
  unfold readTagToken at h
  split at h
  · simp at h
  · rename_i tag r hr
    have hl := length_readTag hr
    split at h
    · exact Nat.lt_trans (length_readVerbatim h) hl
    · simp only [Except.ok.injEq, Prod.mk.injEq] at h
      exact h.2 ▸ hl

theorem length_readOutput {start : Nat} {p rest : Piece} {t : Token}
    (h : readOutput start p = .ok (t, rest)) : rest.text.length < p.text.length := by
  unfold readOutput at h
  split at h
  · simp at h
  · rename_i d hd
    simp only [Except.ok.injEq, Prod.mk.injEq] at h
    exact h.2 ▸ length_delimited? hd

theorem length_readHtml {p : Piece} (hp : p.text ≠ []) (ho : open? p.text = none) :
    (readHtml p).2.text.length < p.text.length :=
  Piece.length_splitBefore hp (by simp [isOpen, ho])

/-- Reading a token leaves less of the source. -/
theorem length_readToken {p rest : Piece} {t : Token} (hp : p.text ≠ [])
    (h : readToken p = .ok (t, rest)) : rest.text.length < p.text.length := by
  unfold readToken at h
  split at h
  · rename_i cs ho
    have := length_of_open? ho
    have := length_readOutput h
    simp only at this
    omega
  · rename_i cs ho
    have := length_of_open? ho
    have := length_readTagToken h
    simp only at this
    omega
  · rename_i ho
    simp only [Except.ok.injEq] at h
    have := length_readHtml hp ho
    rwa [h] at this

/-- The tokens of a piece of source, up to its end. -/
def tokenizePiece (p : Piece) : Except ReadError (List Token) :=
  if _hp : p.text = [] then .ok []
  else
    match _ht : readToken p with
    | .error e => .error e
    | .ok (t, rest) =>
      match tokenizePiece rest with
      | .error e => .error e
      | .ok ts => .ok (t :: ts)
termination_by p.text.length
decreasing_by exact length_readToken _hp _ht

/-- The tokens of a source. -/
def tokenize (source : String) : Except ReadError (List Token) :=
  tokenizePiece (.ofString source)

end Stencil.Liquid
