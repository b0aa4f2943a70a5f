import Stencil.Error
import Stencil.Source
import Stencil.Text.Literal

/-!
# Tokens of a Nunjucks delimiter

What stands inside `{{ … }}` and `{% … %}` is a list of tokens that runs up to the first closing
delimiter outside a string. Where the source ends first, or has a character that begins no token,
the list ends there; the reader reports that only when it needs the token that is missing.

## Main definitions

* `Nunjucks.Token` : a token.
* `Nunjucks.Ending` : what the tokens of a delimiter end at.
* `Nunjucks.lex` : the tokens from a place in the source on.
* `Nunjucks.unexpected` : the error for a token that is not the expected one.

## Main results

* `Nunjucks.length_lex_le` : what is left after the tokens is no longer than the source.
-/

namespace Stencil.Nunjucks

/-- The kinds of tokens. -/
inductive TokenKind where
  /-- A word. -/
  | name
  /-- A quoted string. -/
  | string
  /-- A number. -/
  | number
  /-- An operator or a bracket. -/
  | sign
deriving DecidableEq, Repr

/-- A token. -/
structure Token where
  /-- Its kind. -/
  kind : TokenKind
  /-- Its text. -/
  text : Piece
deriving DecidableEq, Repr

/-- Whether a token is a given operator or bracket. -/
def Token.isSign (sign : String) (t : Token) : Bool :=
  t.kind == .sign && t.text.text == sign.toList

/-- Whether a token is a given word. -/
def Token.isName (name : String) (t : Token) : Bool :=
  t.kind == .name && t.text.text == name.toList

/-- The ways in which the tokens of a delimiter end. -/
inductive EndKind where
  /-- The end of a tag. -/
  | tagEnd
  /-- The end of an output. -/
  | outputEnd
  /-- The end of the source. -/
  | sourceEnd
  /-- Source that begins no token. -/
  | invalid (fault : SyntaxFault)
deriving DecidableEq, Repr

/-- What the tokens of a delimiter end at. -/
structure Ending where
  /-- How they end. -/
  kind : EndKind
  /-- The closing delimiter, with its marker. -/
  text : Piece
deriving DecidableEq, Repr

/-- The inside of a delimiter. -/
structure Inside where
  /-- The tokens. -/
  tokens : List Token
  /-- What they end at. -/
  ending : Ending
deriving DecidableEq, Repr

/-- The inside with one more token before the others. -/
def Inside.cons (t : Token) (l : Inside) : Inside :=
  { l with tokens := t :: l.tokens }

/-- The offset of the first token, or of the end. -/
def Inside.start (l : Inside) : Nat :=
  match l.tokens with
  | t :: _ => t.text.start
  | [] => l.ending.text.start

/-! ### Single tokens -/

/-- The operators and brackets, each before those that it begins with. -/
def signs : List String :=
  ["===", "!==", "==", "!=", "<=", ">=", "//", "**", "<", ">", "+", "-", "*", "/", "%", "~", "|",
    "(", ")", "[", "]", "\x7b", "\x7d", ",", ":", ".", "="]

/-- The spellings of the closing delimiters, in the order in which they are tried. -/
def closings : List (String × EndKind) :=
  [("%\x7d", .tagEnd), ("-%\x7d", .tagEnd), ("\x7d\x7d", .outputEnd), ("-\x7d\x7d", .outputEnd)]

/-- The closing delimiter at the start of a piece, and the source after it. -/
def closing? (p : Piece) : Option (Ending × Piece) :=
  closings.findSome? fun (closing, kind) =>
    (p.strip? closing.toList).map fun rest => (⟨kind, ⟨p.start, closing.toList⟩⟩, rest)

/-- The kind of the token that begins with the character `c` before the text `cs`, and what its text
has after `c`. -/
def tokenAt (c : Char) (cs : List Char) : Except SyntaxFault (TokenKind × List Char) :=
  if Text.isQuote c then
    match Text.quotedRest c cs with
    | some (body, _) => .ok (.string, body)
    | none => .error .unterminatedString
  else if Text.isDigit c then
    .ok (.number, cs.takeWhile Text.isDigit ++ Text.fraction (cs.dropWhile Text.isDigit))
  else if Text.isNameStart c then
    .ok (.name, cs.takeWhile Text.isNameChar)
  else
    match signs.find? fun sign => Text.startsWith sign.toList (c :: cs) with
    | some sign => .ok (.sign, sign.toList.tail)
    | none => .error (.unexpectedCharacter c)

/-! ### The tokens of a delimiter -/

/-- The inside of a delimiter that begins at a piece, and the source after its closing delimiter. -/
def lex (p : Piece) : Inside × Piece :=
  match closing? p.trimStart with
  | some (ending, rest) => (⟨[], ending⟩, rest)
  | none =>
    match _h : p.trimStart.text with
    | [] => (⟨[], ⟨.sourceEnd, p.trimStart⟩⟩, p.trimStart)
    | c :: cs =>
      match tokenAt c cs with
      | .error fault => (⟨[], ⟨.invalid fault, ⟨p.trimStart.start, []⟩⟩⟩, p.trimStart)
      | .ok (kind, rest) =>
        let after := lex (p.trimStart.drop (rest.length + 1))
        (after.1.cons ⟨kind, ⟨p.trimStart.start, c :: rest⟩⟩, after.2)
termination_by p.text.length
decreasing_by
  have h1 := p.length_trimStart_le
  have h2 := congrArg List.length _h
  simp only [List.length_cons] at h2
  simp only [Piece.drop, List.length_drop]
  omega

theorem length_of_closing? {p rest : Piece} {ending : Ending}
    (h : closing? p = some (ending, rest)) : rest.text.length ≤ p.text.length := by
  obtain ⟨⟨closing, kind⟩, _, hs⟩ := List.exists_of_findSome?_eq_some h
  obtain ⟨piece, hp, he⟩ := Option.map_eq_some_iff.mp hs
  simp only [Prod.mk.injEq] at he
  simp [← he.2, Piece.length_of_strip? hp]

/-- What is left after the tokens of a delimiter is no longer than the source. -/
theorem length_lex_le (p : Piece) : (lex p).2.text.length ≤ p.text.length := by
  fun_induction lex p with
  | case1 p ending rest h => exact Nat.le_trans (length_of_closing? h) p.length_trimStart_le
  | case2 p => exact p.length_trimStart_le
  | case3 p => exact p.length_trimStart_le
  | case4 p hc c cs ht kind rest hk after ih =>
      refine Nat.le_trans ih ?_
      have := p.length_trimStart_le
      simp only [Piece.drop, List.length_drop]
      omega

/-! ### Errors -/

/-- The error for tokens that do not begin with what was expected. -/
def unexpected (ending : Ending) (expected : String) : List Token → ReadError
  | t :: _ => .badSyntax t.text.start (.expected expected (some t.text.toString))
  | [] =>
    match ending.kind with
    | .invalid fault => .badSyntax ending.text.start fault
    | .sourceEnd => .badSyntax ending.text.start (.expected expected none)
    | .tagEnd | .outputEnd =>
        .badSyntax ending.text.start (.expected expected (some ending.text.toString))

end Stencil.Nunjucks
