/-!
# Strings of a settings file

A settings file has four kinds of strings: in double quotes, with escapes, and in single quotes,
without; each on one line, or over several lines between three quotes. A line break right after
three opening quotes is dropped, a line break of two characters counts as one, and up to two quotes
may stand right before three closing quotes.

## Main definitions

* `Settings.isPlain` : the characters that stand for themselves.
* `Settings.newline?` : the two spellings of a line break.
* `Settings.quotedLine?` : a string on one line.
* `Settings.quoted?` : a string of any kind.
-/

namespace Stencil.Settings

/-- A character that stands for itself: all but the control characters, the tab aside. -/
def isPlain (c : Char) : Bool :=
  c == '\t' || (' ' ≤ c && c != '\x7f')

/-- A blank within a line. -/
def isSpace (c : Char) : Bool :=
  c == ' ' || c == '\t'

/-- The text after a line break. -/
def newline? : List Char → Option (List Char)
  | '\n' :: cs => some cs
  | '\r' :: '\n' :: cs => some cs
  | _ => none

/-- The text after blanks and line breaks. -/
def skipLines : List Char → List Char
  | ' ' :: cs => skipLines cs
  | '\t' :: cs => skipLines cs
  | '\n' :: cs => skipLines cs
  | '\r' :: '\n' :: cs => skipLines cs
  | cs => cs

theorem length_newline? {cs rest : List Char} (h : newline? cs = some rest) :
    rest.length < cs.length := by
  unfold newline? at h
  split at h
  · cases h
    exact Nat.lt_succ_self _
  · cases h
    exact Nat.lt_succ_of_lt (Nat.lt_succ_self _)
  · exact nomatch h

theorem length_skipLines (cs : List Char) : (skipLines cs).length ≤ cs.length := by
  fun_induction skipLines cs with
  | case1 cs ih | case2 cs ih | case3 cs ih => exact Nat.le_trans ih (by simp)
  | case4 cs ih => exact Nat.le_trans ih (Nat.le_add_right cs.length 2)
  | case5 => exact Nat.le_refl _

/-! ### Escapes -/

/-- The value of a hexadecimal digit. -/
def hexDigit? (c : Char) : Option Nat :=
  if '0' ≤ c && c ≤ '9' then some (c.toNat - '0'.toNat)
  else if 'a' ≤ c && c ≤ 'f' then some (c.toNat - 'a'.toNat + 10)
  else if 'A' ≤ c && c ≤ 'F' then some (c.toNat - 'A'.toNat + 10)
  else none

/-- The number that hexadecimal digits stand for, after digits that stand for `n`. -/
def hexFrom? (n : Nat) : List Char → Option Nat
  | [] => some n
  | c :: cs => (hexDigit? c).bind fun d => hexFrom? (16 * n + d) cs

/-- The character whose code is spelled by the first `digits` characters of a text. -/
def hexChar? (digits : Nat) (cs : List Char) : Option Char :=
  if digits ≤ cs.length then
    (hexFrom? 0 (cs.take digits)).bind fun n =>
      if n.isValidChar then some (Char.ofNat n) else none
  else none

/-- The character that an escape stands for, given the text after the backslash, and how many
characters of that text belong to it. -/
def escape? : List Char → Option (Char × Nat)
  | 'b' :: _ => some ('\x08', 1)
  | 't' :: _ => some ('\t', 1)
  | 'n' :: _ => some ('\n', 1)
  | 'f' :: _ => some ('\x0c', 1)
  | 'r' :: _ => some ('\r', 1)
  | '"' :: _ => some ('"', 1)
  | '\\' :: _ => some ('\\', 1)
  | 'u' :: cs => (hexChar? 4 cs).map fun c => (c, 5)
  | 'U' :: cs => (hexChar? 8 cs).map fun c => (c, 9)
  | _ => none

/-! ### Strings on one line -/

/-- The value of a string in double quotes after its opening quote, and the text after it. -/
def doubleRest : List Char → Option (List Char × List Char)
  | [] => none
  | '"' :: cs => some ([], cs)
  | '\\' :: cs =>
    match escape? cs with
    | none => none
    | some (c, n) => (doubleRest (cs.drop n)).map fun (value, rest) => (c :: value, rest)
  | c :: cs =>
    if isPlain c then (doubleRest cs).map fun (value, rest) => (c :: value, rest) else none
termination_by cs => cs.length
decreasing_by all_goals simp; try omega

/-- The value of a string in single quotes after its opening quote, and the text after it. -/
def singleRest : List Char → Option (List Char × List Char)
  | [] => none
  | '\'' :: cs => some ([], cs)
  | c :: cs =>
    if isPlain c then (singleRest cs).map fun (value, rest) => (c :: value, rest) else none

/-- A string on one line, and the text after it. -/
def quotedLine? : List Char → Option (List Char × List Char)
  | '"' :: cs => doubleRest cs
  | '\'' :: cs => singleRest cs
  | _ => none

/-! ### Strings over several lines -/

/-- Up to two quotes that stand before three closing quotes, given the text after the first
three. -/
def extraQuotes (quote : Char) (cs : List Char) : List Char :=
  (cs.takeWhile (· == quote)).take 2

/-- The text after a line break that a backslash hides, with all blanks and line breaks after it. -/
def hiddenBreak? (cs : List Char) : Option (List Char) :=
  (newline? (cs.dropWhile isSpace)).map skipLines

theorem length_hiddenBreak? {cs rest : List Char} (h : hiddenBreak? cs = some rest) :
    rest.length < cs.length := by
  obtain ⟨r, hr, rfl⟩ := Option.map_eq_some_iff.mp h
  have h1 := length_newline? hr
  have h2 := length_skipLines r
  have h3 := (List.dropWhile_suffix (l := cs) isSpace).length_le
  omega

/-- The value of a string between three double quotes after the opening quotes, and the text after
it. -/
def doubleLines : List Char → Option (List Char × List Char)
  | [] => none
  | '"' :: '"' :: '"' :: cs =>
      some (extraQuotes '"' cs, cs.drop (extraQuotes '"' cs).length)
  | '\\' :: cs =>
    match _h : hiddenBreak? cs with
    | some rest => doubleLines rest
    | none =>
      match escape? cs with
      | none => none
      | some (c, n) => (doubleLines (cs.drop n)).map fun (value, rest) => (c :: value, rest)
  | '\n' :: cs => (doubleLines cs).map fun (value, rest) => ('\n' :: value, rest)
  | '\r' :: '\n' :: cs => (doubleLines cs).map fun (value, rest) => ('\n' :: value, rest)
  | c :: cs =>
    if isPlain c then (doubleLines cs).map fun (value, rest) => (c :: value, rest) else none
termination_by cs => cs.length
decreasing_by
  · have := length_hiddenBreak? _h
    simp
    omega
  all_goals simp; try omega

/-- The value of a string between three single quotes after the opening quotes, and the text after
it. -/
def singleLines : List Char → Option (List Char × List Char)
  | [] => none
  | '\'' :: '\'' :: '\'' :: cs =>
      some (extraQuotes '\'' cs, cs.drop (extraQuotes '\'' cs).length)
  | '\n' :: cs => (singleLines cs).map fun (value, rest) => ('\n' :: value, rest)
  | '\r' :: '\n' :: cs => (singleLines cs).map fun (value, rest) => ('\n' :: value, rest)
  | c :: cs =>
    if isPlain c then (singleLines cs).map fun (value, rest) => (c :: value, rest) else none

/-- The text after a line break, or all of it if it begins with none. -/
def dropNewline (cs : List Char) : List Char :=
  (newline? cs).getD cs

/-- A string of any kind, and the text after it. -/
def quoted? : List Char → Option (List Char × List Char)
  | '"' :: '"' :: '"' :: cs => doubleLines (dropNewline cs)
  | '\'' :: '\'' :: '\'' :: cs => singleLines (dropNewline cs)
  | cs => quotedLine? cs

end Stencil.Settings
