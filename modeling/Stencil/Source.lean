import Stencil.Text.Blank
import Stencil.Text.Search

/-!
# Pieces of a source text

Positions in a source are byte offsets of its UTF-8 form. A `Piece` is a stretch of the source
together with the offset at which it begins, so that what is still to be read knows where it is.

## Main definitions

* `Span` : a range of byte offsets.
* `Piece` : a stretch of source text and its offset.
* `Piece.drop`, `Piece.dropWhile`, `Piece.trim` : shorter pieces at their own offsets.
* `Piece.slice?` : the piece between two byte offsets.

## Main results

* `Piece.stop_drop`, `Piece.stop_dropWhile` : reading on in a piece keeps its end.
-/

namespace Stencil

/-- The number of bytes of a text in UTF-8. -/
def Text.byteLength : List Char → Nat
  | [] => 0
  | c :: cs => c.utf8Size + byteLength cs

@[simp] theorem Text.byteLength_append (a b : List Char) :
    byteLength (a ++ b) = byteLength a + byteLength b := by
  induction a with
  | nil => simp [byteLength]
  | cons c cs ih => simp [byteLength, ih, Nat.add_assoc]

/-- A range of byte offsets, its end excluded. -/
structure Span where
  /-- The first offset. -/
  start : Nat
  /-- The offset after the last one. -/
  stop : Nat
deriving DecidableEq, Repr

/-- A stretch of source text. -/
structure Piece where
  /-- The byte offset at which the text begins. -/
  start : Nat
  /-- The characters. -/
  text : List Char
deriving DecidableEq, Repr

namespace Piece

/-- The whole of a source. -/
def ofString (s : String) : Piece :=
  ⟨0, s.toList⟩

/-- The byte offset after the last character. -/
def stop (p : Piece) : Nat :=
  p.start + Text.byteLength p.text

/-- The offsets that a piece covers. -/
def span (p : Piece) : Span :=
  ⟨p.start, p.stop⟩

/-- The text as a string. -/
def toString (p : Piece) : String :=
  String.ofList p.text

/-- The piece after its first `n` characters. -/
def drop (p : Piece) (n : Nat) : Piece :=
  ⟨p.start + Text.byteLength (p.text.take n), p.text.drop n⟩

/-- The piece made of the first `n` characters. -/
def take (p : Piece) (n : Nat) : Piece :=
  ⟨p.start, p.text.take n⟩

/-- The longest leading piece whose characters all satisfy `f`. -/
def takeWhile (f : Char → Bool) (p : Piece) : Piece :=
  ⟨p.start, p.text.takeWhile f⟩

/-- The piece after its longest leading run of characters that satisfy `f`. -/
def dropWhile (f : Char → Bool) (p : Piece) : Piece :=
  ⟨p.start + Text.byteLength (p.text.takeWhile f), p.text.dropWhile f⟩

/-- The piece after a leading `pattern`, if it begins with it. -/
def strip? (pattern : List Char) (p : Piece) : Option Piece :=
  (Text.strip? pattern p.text).map fun rest => ⟨p.start + Text.byteLength pattern, rest⟩

/-- The piece after its leading blanks. -/
def trimStart (p : Piece) : Piece :=
  p.dropWhile Text.isBlank

/-- The piece without a leading marker, which is a dash. -/
def dropMarker (p : Piece) : Piece :=
  if p.text.head? == some '-' then p.drop 1 else p

/-- The piece without the blanks at either end. -/
def trim (p : Piece) : Piece :=
  ⟨p.trimStart.start, Text.trim p.text⟩

/-- The piece before the first place where what is left satisfies `stop`, and what is left there. -/
def splitBefore (stop : List Char → Bool) (p : Piece) : Piece × Piece :=
  let (before, rest) := Text.splitBefore stop p.text
  (⟨p.start, before⟩, ⟨p.start + Text.byteLength before, rest⟩)

/-! ### Reading on in a piece keeps its end -/

@[simp] theorem stop_drop (p : Piece) (n : Nat) : (p.drop n).stop = p.stop := by
  have h := Text.byteLength_append (p.text.take n) (p.text.drop n)
  rw [List.take_append_drop] at h
  simp only [stop, drop]
  omega

@[simp] theorem stop_dropWhile (f : Char → Bool) (p : Piece) : (p.dropWhile f).stop = p.stop := by
  have h := Text.byteLength_append (p.text.takeWhile f) (p.text.dropWhile f)
  rw [List.takeWhile_append_dropWhile] at h
  simp only [stop, dropWhile]
  omega

theorem length_dropWhile_le (f : Char → Bool) (p : Piece) :
    (p.dropWhile f).text.length ≤ p.text.length :=
  (List.dropWhile_suffix f).length_le

theorem length_trimStart_le (p : Piece) : p.trimStart.text.length ≤ p.text.length :=
  length_dropWhile_le _ p

theorem length_dropMarker_le (p : Piece) : p.dropMarker.text.length ≤ p.text.length := by
  unfold dropMarker
  split <;> simp [drop]

theorem length_of_strip? {pattern : List Char} {p rest : Piece} (h : p.strip? pattern = some rest) :
    p.text.length = pattern.length + rest.text.length := by
  obtain ⟨text, ht, rfl⟩ := Option.map_eq_some_iff.mp h
  simp [Text.eq_append_of_strip? ht]

theorem length_splitBefore {stop : List Char → Bool} {p : Piece} (hp : p.text ≠ [])
    (hs : stop p.text = false) : (p.splitBefore stop).2.text.length < p.text.length := by
  obtain ⟨start, text⟩ := p
  cases text with
  | nil => exact absurd rfl hp
  | cons c cs =>
      have h := congrArg List.length (Text.splitBefore_append stop cs)
      simp only [List.length_append] at h
      simp only at hs
      simp only [splitBefore, Text.splitBefore, hs, Bool.false_eq_true, if_false, List.length_cons]
      omega

/-! ### Pieces by byte offset -/

/-- The text split at a byte offset that lies between two characters. -/
def splitAt? : Nat → List Char → Option (List Char × List Char)
  | 0, cs => some ([], cs)
  | _ + 1, [] => none
  | n + 1, c :: cs =>
    if n + 1 < c.utf8Size then none
    else (splitAt? (n + 1 - c.utf8Size) cs).map fun (before, rest) => (c :: before, rest)

/-- The piece of a text between two byte offsets, if they are in order and between characters. -/
def slice? (source : List Char) (start stop : Nat) : Option Piece :=
  if start ≤ stop then
    (splitAt? start source).bind fun (_, rest) =>
      (splitAt? (stop - start) rest).map fun (text, _) => ⟨start, text⟩
  else none

end Piece

end Stencil
