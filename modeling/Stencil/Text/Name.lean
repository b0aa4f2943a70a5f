import Stencil.Text.Letter
import Stencil.Text.Numeral

/-!
# Names

Names begin with a letter or an underscore and go on with letters, numerals and underscores, in
any script.
-/

namespace Stencil.Text

/-- A letter or a numeral of any script. -/
def isWordChar (c : Char) : Bool :=
  isLetter c || isNumeral c

/-- A character that can begin a name. -/
def isNameStart (c : Char) : Bool :=
  isLetter c || c == '_'

/-- A character that can go on with a name. -/
def isNameChar (c : Char) : Bool :=
  isWordChar c || c == '_'

/-- An ASCII digit. -/
def isDigit (c : Char) : Bool :=
  '0' ≤ c && c ≤ '9'

/-- A text that is exactly one name. -/
def isIdentifier : List Char → Bool
  | [] => false
  | c :: cs => isNameStart c && cs.all isNameChar

end Stencil.Text
