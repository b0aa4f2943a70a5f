import Stencil.Nunjucks.Term
import Stencil.Nunjucks.Token

/-!
# Reading terms from tokens

The levels of the term grammar, from the tightest to the loosest. Every level is a function of the
level that binds more tightly, so each can be understood alone; only subscripts, arguments and
brackets hold a whole term again, and `Nested` stands for what is read there. Each such nesting
takes at least one token, so the number of tokens bounds the depth.

## Main definitions

* `Nunjucks.Parser` : what reads a value off the front of a token list.
* `Nunjucks.Nested` : what is read inside brackets.
* `Nunjucks.parseTerm` : the term at the front of a token list.
-/

namespace Stencil.Nunjucks

/-- What reads a value off the front of a token list, and leaves the tokens after it. -/
abbrev Parser (α : Type) := List Token → Except ReadError (α × List Token)

/-! ### Single tokens -/

/-- The tokens after a leading operator or bracket, if it is there. -/
def eatSign? (sign : String) : List Token → Option (List Token)
  | t :: ts => if t.isSign sign then some ts else none
  | [] => none

/-- The tokens after a leading word, if it is there. -/
def eatName? (name : String) : List Token → Option (List Token)
  | t :: ts => if t.isName name then some ts else none
  | [] => none

/-- The tokens after an operator or bracket that has to be there. -/
def expectSign (ending : Ending) (sign : String) (ts : List Token) :
    Except ReadError (List Token) :=
  match eatSign? sign ts with
  | some rest => .ok rest
  | none => .error (unexpected ending (quoted sign) ts)

/-- A word that has to be there. -/
def expectName (ending : Ending) : Parser Piece
  | ⟨.name, text⟩ :: ts => .ok (text, ts)
  | ts => .error (unexpected ending "a name" ts)

/-! ### Lists -/

/-- The rest of a bracketed list, up to its closing bracket. Items are separated by commas, and no
comma may follow the last one. Every item takes a token, so `fuel` bounds their number. -/
def itemsUntil {α : Type} (ending : Ending) (closing : String) (item : Parser α) :
    (fuel : Nat) → (isFirst : Bool) → Parser (List α)
  | 0, _, ts => .error (unexpected ending (quoted closing) ts)
  | fuel + 1, isFirst, ts =>
    match eatSign? closing ts with
    | some rest => .ok ([], rest)
    | none => do
      let ts ← if isFirst then .ok ts else expectSign ending "," ts
      let (x, ts) ← item ts
      let (xs, ts) ← itemsUntil ending closing item fuel false ts
      return (x :: xs, ts)

/-- A bracketed list after its opening bracket. -/
def items {α : Type} (ending : Ending) (closing : String) (item : Parser α) : Parser (List α) :=
  fun ts => itemsUntil ending closing item (ts.length + 1) true ts

/-! ### What brackets hold -/

/-- What is read inside brackets: whole terms, and the keys of a dictionary. -/
structure Nested where
  /-- Reads a whole term. -/
  term : Parser Term
  /-- Reads a key. -/
  key : Parser Term

/-- An argument of a call. -/
inductive CallArg where
  /-- An argument known by its place. -/
  | positional (value : Term)
  /-- An argument known by its name. -/
  | keyword (key : String) (value : Term)

/-- An argument of a call. A word with an equals sign after it makes it a keyword. -/
def callArg (nested : Nested) : Parser CallArg
  | ⟨.name, key⟩ :: t :: ts =>
    if t.isSign "=" then do
      let (value, ts) ← nested.term ts
      return (.keyword key.toString value, ts)
    else do
      let (value, ts) ← nested.term (⟨.name, key⟩ :: t :: ts)
      return (.positional value, ts)
  | ts => do
    let (value, ts) ← nested.term ts
    return (.positional value, ts)

/-- The arguments of a call that are known by their place. -/
def positionalArgs (args : List CallArg) : List Term :=
  args.filterMap fun
    | .positional value => some value
    | .keyword .. => none

/-- The arguments of a call that are known by their name. -/
def keywordArgs (args : List CallArg) : List (String × Term) :=
  args.filterMap fun
    | .positional _ => none
    | .keyword key value => some (key, value)

/-- The arguments of a call after its opening parenthesis. -/
def callArgs (ending : Ending) (nested : Nested) : Parser (List CallArg) :=
  items ending ")" (callArg nested)

/-- The entry of a dictionary. -/
def dictEntry (ending : Ending) (nested : Nested) : Parser (Term × Term) := fun ts => do
  let (key, ts) ← nested.key ts
  let ts ← expectSign ending ":" ts
  let (value, ts) ← nested.term ts
  return ((key, value), ts)

/-! ### Primary terms -/

/-- The term that a word is. -/
def wordTerm (word : Piece) : Term :=
  if ["true", "false", "True", "False"].contains word.toString then .literal .boolean word
  else if ["none", "null", "None"].contains word.toString then .literal .none word
  else .symbol word

/-- A literal, a variable or something in brackets. -/
def atom (ending : Ending) (nested : Nested) : Parser Term
  | [] => .error (unexpected ending "an expression" [])
  | ⟨.string, text⟩ :: ts => .ok (.literal .string text, ts)
  | ⟨.number, text⟩ :: ts => .ok (.literal .number text, ts)
  | ⟨.name, text⟩ :: ts => .ok (wordTerm text, ts)
  | ⟨.sign, text⟩ :: ts =>
    if text.text == ['('] then do
      let (inner, ts) ← nested.term ts
      let ts ← expectSign ending ")" ts
      return (.group inner, ts)
    else if text.text == ['['] then do
      let (xs, ts) ← items ending "]" nested.term ts
      return (.array xs, ts)
    else if text.text == ['\x7b'] then do
      let (entries, ts) ← items ending "\x7d" (dictEntry ending nested) ts
      return (.dict entries, ts)
    else .error (unexpected ending "an expression" (⟨.sign, text⟩ :: ts))

/-- The properties, subscripts and calls that follow a term. -/
def accesses (ending : Ending) (nested : Nested) : (fuel : Nat) → Term → Parser Term
  | 0, x, ts => .ok (x, ts)
  | fuel + 1, x, ts =>
    match eatSign? "." ts with
    | some ts => do
      let (name, ts) ← expectName ending ts
      accesses ending nested fuel (.lookup x (.literal .string name)) ts
    | none =>
      match eatSign? "[" ts with
      | some ts => do
        let (key, ts) ← nested.term ts
        let ts ← expectSign ending "]" ts
        accesses ending nested fuel (.lookup x key) ts
      | none =>
        match eatSign? "(" ts with
        | some ts => do
          let (args, ts) ← callArgs ending nested ts
          let all := positionalArgs args ++ (keywordArgs args).map (·.2)
          accesses ending nested fuel (.call x all) ts
        | none => .ok (x, ts)

/-- A primary term: an atom with what follows it. -/
def primary (ending : Ending) (nested : Nested) : Parser Term := fun ts => do
  let (x, ts) ← atom ending nested ts
  accesses ending nested ts.length x ts

/-! ### Filters and signs -/

/-- The rest of the name of a filter. Names may have dots. -/
def dottedName (ending : Ending) (name : String) : Parser String
  | t :: ts =>
    if t.isSign "." then
      match ts with
      | ⟨.name, text⟩ :: ts => dottedName ending (name ++ "." ++ text.toString) ts
      | ts => .error (unexpected ending "a name" ts)
    else .ok (name, t :: ts)
  | [] => .ok (name, [])

/-- The arguments of a filter, if it has any. -/
def filterArgs (ending : Ending) (nested : Nested) : Parser (List CallArg) := fun ts =>
  match eatSign? "(" ts with
  | some ts => callArgs ending nested ts
  | none => .ok ([], ts)

/-- The filters that follow a term. -/
def filters (ending : Ending) (nested : Nested) : (fuel : Nat) → Term → Parser Term
  | 0, x, ts => .ok (x, ts)
  | fuel + 1, x, ts =>
    match eatSign? "|" ts with
    | none => .ok (x, ts)
    | some ts => do
      let (first, ts) ← expectName ending ts
      let (name, ts) ← dottedName ending first.toString ts
      let (args, ts) ← filterArgs ending nested ts
      filters ending nested fuel (.filter name x (positionalArgs args) (keywordArgs args)) ts

/-- A primary term or its opposite, with filters. Filters belong to the opposite as well. -/
def signed (ending : Ending) (nested : Nested) : Parser Term
  | [] => primary ending nested []
  | t :: ts =>
    if t.isSign "-" then do
      let (x, ts) ← signed ending nested ts
      filters ending nested ts.length (.opposite x) ts
    else do
      let (x, ts) ← primary ending nested (t :: ts)
      filters ending nested ts.length x ts

/-! ### Operators -/

/-- The operands and operators that follow a term, grouped from left to right. -/
def binaryRest (operator? : Token → Option Binary) (operand : Parser Term) :
    (fuel : Nat) → Term → Parser Term
  | 0, left, ts => .ok (left, ts)
  | _ + 1, left, [] => .ok (left, [])
  | fuel + 1, left, t :: ts =>
    match operator? t with
    | none => .ok (left, t :: ts)
    | some op => do
      let (right, ts) ← operand ts
      binaryRest operator? operand fuel (.binary op left right) ts

/-- Operands with the operators of one level between them. -/
def binaryLevel (operator? : Token → Option Binary) (operand : Parser Term) : Parser Term :=
  fun ts => do
    let (left, ts) ← operand ts
    binaryRest operator? operand ts.length left ts

/-- The operator that a sign is, out of those of one level. -/
def signOf (table : List (String × Binary)) (t : Token) : Option Binary :=
  if t.kind = .sign then table.lookup t.text.toString else none

/-- The operator that a word is. -/
def wordOf (word : String) (op : Binary) (t : Token) : Option Binary :=
  if t.isName word then some op else none

/-- Powers. -/
def powers (operand : Parser Term) : Parser Term :=
  binaryLevel (signOf [("**", .power)]) operand

/-- Products. -/
def products (operand : Parser Term) : Parser Term :=
  binaryLevel (signOf [("*", .multiply), ("//", .floorDivide), ("/", .divide), ("%", .modulo)])
    operand

/-- Sums. -/
def sums (operand : Parser Term) : Parser Term :=
  binaryLevel (signOf [("+", .add), ("-", .subtract)]) operand

/-- Concatenations. -/
def concatenations (operand : Parser Term) : Parser Term :=
  binaryLevel (signOf [("~", .concat)]) operand

/-- The comparisons that follow a term. -/
def comparisonRest (operand : Parser Term) : (fuel : Nat) → Parser (List (Comparison × Term))
  | 0, ts => .ok ([], ts)
  | _ + 1, [] => .ok ([], [])
  | fuel + 1, t :: ts =>
    match if t.kind = .sign then Comparison.ofText? t.text.toString else none with
    | none => .ok ([], t :: ts)
    | some c => do
      let (right, ts) ← operand ts
      let (rest, ts) ← comparisonRest operand fuel ts
      return ((c, right) :: rest, ts)

/-- A chain of comparisons, or a single operand. -/
def comparisons (operand : Parser Term) : Parser Term := fun ts => do
  let (first, ts) ← operand ts
  let (rest, ts) ← comparisonRest operand ts.length ts
  return (if rest.isEmpty then first else .comparison first rest, ts)

/-- A test, or a single operand. -/
def tests (operand : Parser Term) : Parser Term := fun ts => do
  let (subject, ts) ← operand ts
  match eatName? "is" ts with
  | none => return (subject, ts)
  | some ts =>
    match eatName? "not" ts with
    | none => do
      let (condition, ts) ← operand ts
      return (.test subject condition, ts)
    | some ts => do
      let (condition, ts) ← operand ts
      return (.negated (.test subject condition), ts)

/-- Membership. -/
def memberships (operand : Parser Term) : Parser Term :=
  binaryLevel (wordOf "in" .member) operand

/-- Negations. -/
def negations (operand : Parser Term) : Parser Term
  | [] => operand []
  | t :: ts =>
    if t.isName "not" then do
      let (x, ts) ← negations operand ts
      return (.negated x, ts)
    else operand (t :: ts)

/-- Conjunctions. -/
def conjunctions (operand : Parser Term) : Parser Term :=
  binaryLevel (wordOf "and" .and) operand

/-- Disjunctions. -/
def disjunctions (operand : Parser Term) : Parser Term :=
  binaryLevel (wordOf "or" .or) operand

/-- A choice, or a single operand. -/
def choices (operand : Parser Term) : Parser Term := fun ts => do
  let (body, ts) ← operand ts
  match eatName? "if" ts with
  | none => return (body, ts)
  | some ts => do
    let (condition, ts) ← operand ts
    match eatName? "else" ts with
    | none => return (.choice condition body none, ts)
    | some ts => do
      let (otherwise, ts) ← operand ts
      return (.choice condition body (some otherwise), ts)

/-! ### Whole terms -/

/-- A whole term, given what its brackets hold. -/
def termOver (ending : Ending) (nested : Nested) : Parser Term :=
  choices <| disjunctions <| conjunctions <| negations <| memberships <| tests <| comparisons <|
    concatenations <| sums <| products <| powers <| signed ending nested

/-- What brackets hold, down to a given depth. -/
def nestedTo (ending : Ending) : (depth : Nat) → Nested
  | 0 =>
    { term := fun ts => .error (unexpected ending "an expression" ts)
      key := fun ts => .error (unexpected ending "an expression" ts) }
  | depth + 1 =>
    { term := termOver ending (nestedTo ending depth)
      key := primary ending (nestedTo ending depth) }

/-- The term at the front of a token list. -/
def parseTerm (ending : Ending) : Parser Term := fun ts =>
  termOver ending (nestedTo ending ts.length) ts

end Stencil.Nunjucks
