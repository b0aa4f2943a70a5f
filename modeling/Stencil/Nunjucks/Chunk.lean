import Stencil.Nunjucks.Token

/-!
# Chunks of a Nunjucks source

A Nunjucks source is text with outputs and tags in it. Comments leave nothing behind. The body of a
`raw` or `verbatim` block is text like any other, up to the closing tag of its name. A fault ends
the source at its place, so that what comes before it is read first.

## Main definitions

* `Nunjucks.Chunk` : text, an output, a tag or a fault.
* `Nunjucks.chunks` : the chunks of a source.
-/

namespace Stencil.Nunjucks

/-- A part of a source. -/
inductive Chunk where
  /-- Text. -/
  | data (text : Piece)
  /-- An output. -/
  | output (inside : Inside)
  /-- A tag. -/
  | tag (inside : Inside)
  /-- Source that cannot be read. -/
  | fault (error : ReadError)
deriving DecidableEq, Repr

/-! ### Opening delimiters -/

/-- What an opening delimiter begins. -/
inductive Mark where
  | output
  | tag
  | comment
deriving DecidableEq, Repr

/-- The opening delimiter at the start of a text, and what comes after it. -/
def open? : List Char → Option (Mark × List Char)
  | '{' :: '{' :: cs => some (.output, cs)
  | '{' :: '%' :: cs => some (.tag, cs)
  | '{' :: '#' :: cs => some (.comment, cs)
  | _ => none

theorem length_of_open? {cs rest : List Char} {m : Mark} (h : open? cs = some (m, rest)) :
    cs.length = rest.length + 2 := by
  unfold open? at h
  split at h <;> simp_all

/-- An opening delimiter stands at the start of a text. -/
def isOpen (cs : List Char) : Bool :=
  (open? cs).isSome

/-! ### Verbatim bodies -/

/-- The tokens are all read and the tag ends there. -/
def expectTagEnd (ending : Ending) (ts : List Token) : Except ReadError Unit :=
  if ts = [] ∧ ending.kind = .tagEnd then .ok ()
  else .error (unexpected ending "end of block tag" ts)

/-- The source after the name of a closing tag, given the source after an opening delimiter. -/
def closingTag? (name : List Char) (p : Piece) : Option Piece :=
  (p.dropMarker.trimStart.strip? name).bind fun rest =>
    if rest.text.head?.any Text.isNameChar then none else some rest

theorem length_closingTag? {name : List Char} {p rest : Piece}
    (h : closingTag? name p = some rest) : rest.text.length ≤ p.text.length := by
  obtain ⟨r, hr, hc⟩ := Option.bind_eq_some_iff.mp h
  split at hc
  · simp at hc
  · simp only [Option.some.injEq] at hc
    have h1 := Piece.length_of_strip? hr
    have h2 := p.dropMarker.length_trimStart_le
    have h3 := p.length_dropMarker_le
    rw [hc] at h1
    omega

/-- The text before the first closing tag called `name`, and the source after that name. -/
def findClosing (name : List Char) (start : Nat) : List Char → Option (List Char × Piece)
  | '{' :: '{' :: cs =>
      (findClosing name (start + 2) cs).map fun (body, rest) => ('{' :: '{' :: body, rest)
  | '{' :: '#' :: cs =>
      (findClosing name (start + 2) cs).map fun (body, rest) => ('{' :: '#' :: body, rest)
  | '{' :: '%' :: cs =>
    match closingTag? name ⟨start + 2, cs⟩ with
    | some rest => some ([], rest)
    | none =>
      (findClosing name (start + 2) cs).map fun (body, rest) => ('{' :: '%' :: body, rest)
  | c :: cs =>
      (findClosing name (start + c.utf8Size) cs).map fun (body, rest) => (c :: body, rest)
  | [] => none

theorem length_findClosing {name : List Char} {start : Nat} {cs body : List Char} {rest : Piece}
    (h : findClosing name start cs = some (body, rest)) : rest.text.length ≤ cs.length := by
  fun_induction findClosing name start cs generalizing body rest with
  | case1 _ cs ih | case2 _ cs ih | case4 _ cs _ ih | case5 _ c cs _ _ _ ih =>
      obtain ⟨⟨b, r⟩, hb, he⟩ := Option.map_eq_some_iff.mp h
      simp only [Prod.mk.injEq] at he
      have := ih hb
      simp only [← he.2, List.length_cons]
      omega
  | case3 _ cs r hr =>
      simp only [Option.some.injEq, Prod.mk.injEq] at h
      have := length_closingTag? hr
      simp only [← h.2, List.length_cons] at this ⊢
      omega
  | case6 => simp at h

/-- The body of a verbatim block and the source after its closing tag, given the source after its
opening tag. -/
def verbatimBody (name : String) (p : Piece) : Except ReadError (Piece × Piece) :=
  match findClosing ("end" ++ name).toList p.start p.text with
  | none => .error (.badSyntax p.start (.unclosedVerbatim ("end" ++ name)))
  | some (body, rest) =>
    let (inside, rest) := lex rest
    (expectTagEnd inside.ending inside.tokens).map fun _ => (⟨p.start, body⟩, rest)

theorem length_verbatimBody {name : String} {p body rest : Piece}
    (h : verbatimBody name p = .ok (body, rest)) : rest.text.length ≤ p.text.length := by
  unfold verbatimBody at h
  split at h
  · simp at h
  · rename_i b r hb
    obtain ⟨_, _, he⟩ := map_eq_ok.mp h
    simp only [Prod.mk.injEq] at he
    have h1 := length_lex_le r
    have h2 := length_findClosing hb
    rw [he.2] at h1
    omega

/-- The name of a block whose body is kept as it stands, if that is what a tag opens. -/
def verbatimName? (inside : Inside) : Option String :=
  match inside.tokens with
  | [t] =>
    if (t.isName "raw" || t.isName "verbatim") && inside.ending.kind == .tagEnd then
      some t.text.toString
    else none
  | _ => none

/-! ### Chunks -/

/-- The chunks that a comment leaves, and the source after it. -/
def readComment (start : Nat) (p : Piece) : List Chunk × Piece :=
  match Text.cut? "#\x7d".toList p.text with
  | some (inner, rest) => ([], ⟨p.start + Text.byteLength inner + 2, rest⟩)
  | none => ([.fault (.badSyntax start .unclosedComment)], ⟨p.stop, []⟩)

/-- The chunk of an output, and the source after it. -/
def readOutput (p : Piece) : List Chunk × Piece :=
  let (inside, rest) := lex p.dropMarker
  ([.output inside], rest)

/-- The chunk of a tag, or of the verbatim block that it opens, and the source after it, given the
inside of the tag and what follows it. -/
def tagChunk (inside : Inside) (rest : Piece) : List Chunk × Piece :=
  match verbatimName? inside with
  | none => ([.tag inside], rest)
  | some name =>
    match verbatimBody name rest with
    | .error e => ([.fault e], ⟨rest.stop, []⟩)
    | .ok (body, rest) => ([.data body], rest)

/-- The chunk that begins with a tag, and the source after it. -/
def readTag (p : Piece) : List Chunk × Piece :=
  let (inside, rest) := lex p.dropMarker
  tagChunk inside rest

/-- The text up to the next opening delimiter, and the source after it. -/
def readData (p : Piece) : List Chunk × Piece :=
  let (text, rest) := p.splitBefore isOpen
  ([.data text], rest)

/-- The first chunks of a source that is not empty, and the source after them. -/
def readChunk (p : Piece) : List Chunk × Piece :=
  match open? p.text with
  | some (.comment, cs) => readComment p.start ⟨p.start + 2, cs⟩
  | some (.output, cs) => readOutput ⟨p.start + 2, cs⟩
  | some (.tag, cs) => readTag ⟨p.start + 2, cs⟩
  | none => readData p

theorem length_readComment (start : Nat) (p : Piece) :
    (readComment start p).2.text.length ≤ p.text.length := by
  unfold readComment
  split
  · rename_i inner rest h
    simp [Text.cut?_eq_some h]
    omega
  · simp

theorem length_readOutput (p : Piece) : (readOutput p).2.text.length ≤ p.text.length :=
  Nat.le_trans (length_lex_le _) p.length_dropMarker_le

theorem length_tagChunk (inside : Inside) (rest : Piece) :
    (tagChunk inside rest).2.text.length ≤ rest.text.length := by
  unfold tagChunk
  split
  · exact Nat.le_refl _
  · split
    · simp
    · rename_i hb
      exact length_verbatimBody hb

theorem length_readTag (p : Piece) : (readTag p).2.text.length ≤ p.text.length :=
  Nat.le_trans (length_tagChunk _ _) (Nat.le_trans (length_lex_le _) p.length_dropMarker_le)

theorem length_readData {p : Piece} (hp : p.text ≠ []) (ho : open? p.text = none) :
    (readData p).2.text.length < p.text.length :=
  Piece.length_splitBefore hp (by simp [isOpen, ho])

/-- Reading chunks leaves less of the source. -/
theorem length_readChunk {p : Piece} (hp : p.text ≠ []) :
    (readChunk p).2.text.length < p.text.length := by
  unfold readChunk
  split
  · rename_i cs ho
    have h1 := length_of_open? ho
    have h2 := length_readComment p.start ⟨p.start + 2, cs⟩
    simp only at h2
    omega
  · rename_i cs ho
    have h1 := length_of_open? ho
    have h2 := length_readOutput ⟨p.start + 2, cs⟩
    simp only at h2
    omega
  · rename_i cs ho
    have h1 := length_of_open? ho
    have h2 := length_readTag ⟨p.start + 2, cs⟩
    simp only at h2
    omega
  · rename_i ho
    exact length_readData hp ho

/-- The chunks of a piece of source, up to its end. -/
def chunks (p : Piece) : List Chunk :=
  if _h : p.text = [] then []
  else (readChunk p).1 ++ chunks (readChunk p).2
termination_by p.text.length
decreasing_by exact length_readChunk _h

end Stencil.Nunjucks
