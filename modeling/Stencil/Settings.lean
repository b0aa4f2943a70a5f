import Stencil.Settings.Quoted

/-!
# Settings

A settings file names the languages that are converted between unless the command line does. Every
line of it is empty, a comment, or one of the two keys `from` and `to` with a string. Neither key
may be given twice, and there are no others.
-/

namespace Stencil

/-- The languages that are converted between. -/
structure Settings where
  /-- The source language. -/
  source : Option String := none
  /-- The target language. -/
  target : Option String := none
deriving DecidableEq, Repr

namespace Settings

/-- The settings with one more key, if there is such a key and it is not set yet. -/
def put? (s : Settings) (key value : String) : Option Settings :=
  if key = "from" ∧ s.source.isNone then some { s with source := some value }
  else if key = "to" ∧ s.target.isNone then some { s with target := some value }
  else none

/-- A character that can stand in a key without quotes. -/
def isKeyChar (c : Char) : Bool :=
  ('a' ≤ c && c ≤ 'z') || ('A' ≤ c && c ≤ 'Z') || ('0' ≤ c && c ≤ '9') || c == '_' || c == '-'

/-- A key, and the text after it. -/
def key? (cs : List Char) : Option (List Char × List Char) :=
  match cs.takeWhile isKeyChar with
  | [] => quotedLine? cs
  | key => some (key, cs.dropWhile isKeyChar)

/-- The text after the equals sign that follows a key. -/
def equals? (cs : List Char) : Option (List Char) :=
  match cs.dropWhile isSpace with
  | '=' :: cs => some (cs.dropWhile isSpace)
  | _ => none

/-- The text after the rest of a line that has nothing more than a comment. -/
def lineEnd? (cs : List Char) : Option (List Char) :=
  let cs := cs.dropWhile isSpace
  let cs := if cs.head? == some '#' then cs.dropWhile isPlain else cs
  if cs.isEmpty then some [] else newline? cs

/-- A key with its value, and the text after the line. -/
def assignment? (s : Settings) (cs : List Char) : Option (Settings × List Char) := do
  let (key, cs) ← key? (cs.dropWhile isSpace)
  let cs ← equals? cs
  let (value, cs) ← quoted? cs
  let cs ← lineEnd? cs
  let s ← s.put? (String.ofList key) (String.ofList value)
  return (s, cs)

/-- The settings after some more lines. Every line takes a character, so `fuel` bounds their
number. -/
def parseLines (s : Settings) : (fuel : Nat) → List Char → Option Settings
  | _, [] => some s
  | 0, _ => none
  | fuel + 1, cs =>
    match lineEnd? cs with
    | some cs => parseLines s fuel cs
    | none => (assignment? s cs).bind fun (s, cs) => parseLines s fuel cs

/-- The settings of a file. It may begin with a byte order mark. -/
def parse? (text : String) : Option Settings :=
  let cs := text.toList
  let cs := if cs.head? == some '\uFEFF' then cs.tail else cs
  parseLines {} cs.length cs

/-- The languages that are named, or else those of the settings. -/
def override (s : Settings) (source target : Option String) : Settings where
  source := source.or s.source
  target := target.or s.target

end Settings

end Stencil
