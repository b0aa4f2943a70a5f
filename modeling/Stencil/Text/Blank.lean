import Stencil.Text.Ranges

/-!
# Blanks and trimming

The Unicode property *White_Space*: tabs and line ends, the space, the no-break space and the
typographic spaces. The zero-width space and the byte-order mark are not blanks.
-/

namespace Stencil.Text

/-- All blank characters, in increasing order. -/
def blankRanges : List (Nat × Nat) :=
  [(0x9, 0xd), (0x20, 0x20), (0x85, 0x85), (0xa0, 0xa0), (0x1680, 0x1680), (0x2000, 0x200a),
   (0x2028, 0x2029), (0x202f, 0x202f), (0x205f, 0x205f), (0x3000, 0x3000)]

/-- A character that separates words without being seen. -/
def isBlank (c : Char) : Bool :=
  inRanges c.toNat blankRanges

/-- The text without its leading blanks. -/
def trimStart (cs : List Char) : List Char :=
  cs.dropWhile isBlank

/-- The text without its trailing blanks. -/
def trimEnd (cs : List Char) : List Char :=
  (cs.reverse.dropWhile isBlank).reverse

/-- The text without the blanks at either end. -/
def trim (cs : List Char) : List Char :=
  trimEnd (trimStart cs)

/-- The string without the blanks at either end. -/
def trimmed (s : String) : String :=
  String.ofList (trim s.toList)

/-- A string with nothing but blanks in it. -/
def isBlankString (s : String) : Bool :=
  s.toList.all isBlank

/-- The words of a text, given the letters `word` read since the last blank, newest first. -/
def wordsFrom (word : List Char) : List Char → List (List Char)
  | [] => if word.isEmpty then [] else [word.reverse]
  | c :: cs =>
    if isBlank c then
      if word.isEmpty then wordsFrom [] cs else word.reverse :: wordsFrom [] cs
    else wordsFrom (c :: word) cs

/-- The maximal runs of characters that are not blank, in order. -/
def words (cs : List Char) : List (List Char) :=
  wordsFrom [] cs

/-! ### What trimming removes -/

theorem takeWhile_append_trimStart (cs : List Char) :
    cs.takeWhile isBlank ++ trimStart cs = cs :=
  List.takeWhile_append_dropWhile

theorem length_trimStart_le : (cs : List Char) → (trimStart cs).length ≤ cs.length
  | [] => Nat.le_refl _
  | c :: cs => by
      have ih := length_trimStart_le cs
      by_cases h : isBlank c
      · simp only [trimStart, List.dropWhile_cons, h, if_true, List.length_cons] at ih ⊢
        omega
      · simp [trimStart, h]

end Stencil.Text
