import Stencil.Expr

/-!
# Errors

Reading a template fails at a place of the source, at a construct that has no neutral form, or at a
part of the wrong kind. Writing a template fails at a construct that the target language lacks, or
at a template that breaks its own shape. Each failure is kept as its cause; the wording of all of
them is in the functions `message`.

## Main definitions

* `SyntaxFault`, `Unsupported`, `ReadError` : failures of reading.
* `Construct`, `Malformation`, `WriteError` : failures of writing.
* `ReadError.message`, `WriteError.message` : their wording.
-/

namespace Stencil

/-- A text between single quotes. -/
def quoted (text : String) : String :=
  "'" ++ text ++ "'"

/-! ### Reading -/

/-- What is wrong at a place of the source. -/
inductive SyntaxFault where
  /-- An output without its closing delimiter. -/
  | outputNotClosed
  /-- A tag without its closing delimiter. -/
  | delimiterNotClosed
  /-- A block without its closing tag. -/
  | blockNotClosed (name : String)
  /-- A tag with nothing that names it. -/
  | missingTagName
  /-- A closing or intermediate tag outside its block. -/
  | unexpectedTag (name : String)
  /-- A conditional tag without a condition. -/
  | missingCondition (tag : String)
  /-- A character that cannot stand in an expression. -/
  | unexpectedInExpression (c : Char)
  /-- An expression that stops too early. -/
  | endOfExpression
  /-- No expression where one is needed. -/
  | expectedExpression
  /-- An operator with nothing after it. -/
  | missingRightOperand (token : String)
  /-- A string without its closing quote. -/
  | unterminatedString
  /-- A subscript that is no 64-bit integer. -/
  | invalidIndex (text : String)
  /-- A capture that names nothing. -/
  | emptyCaptureTarget
  /-- An assignment without an equals sign. -/
  | missingAssignedValue
  /-- An assignment to nothing. -/
  | emptyAssignTarget
  /-- A filter without an argument that it needs. -/
  | missingFilterArgument (filter key : String)
  /-- A character that begins no token. -/
  | unexpectedCharacter (c : Char)
  /-- A token other than the expected one; no token stands for the end of the input. -/
  | expected (what : String) (got : Option String)
  /-- The end of the template inside a block that `closing` would end. -/
  | endOfTemplate (closing : String)
  /-- A comment without its closing delimiter. -/
  | unclosedComment
  /-- A statement that does not exist. -/
  | unknownBlockTag (name : String)
  /-- A verbatim block without its closing tag. -/
  | unclosedVerbatim (closing : String)
  /-- A fault that a custom reader words itself. -/
  | custom (text : String)
deriving DecidableEq, Repr

/-- The wording of a syntax fault. -/
def SyntaxFault.message : SyntaxFault → String
  | outputNotClosed => "output not closed"
  | delimiterNotClosed => "tag not closed"
  | blockNotClosed name => "tag " ++ quoted name ++ " not closed"
  | missingTagName => "missing tag name"
  | unexpectedTag name => "unexpected tag " ++ quoted name
  | missingCondition tag => quoted tag ++ " requires a condition"
  | unexpectedInExpression c => "unexpected " ++ quoted (String.singleton c)
  | endOfExpression => "unexpected end of expression"
  | expectedExpression => "expected an expression"
  | missingRightOperand token => "operator " ++ quoted token ++ " is missing its right operand"
  | unterminatedString => "unterminated string"
  | invalidIndex text => "invalid index " ++ quoted text
  | emptyCaptureTarget => "capture target is empty"
  | missingAssignedValue => "assign requires 'target = value'"
  | emptyAssignTarget => "assign target is empty"
  | missingFilterArgument filter key =>
      "filter " ++ quoted filter ++ " is missing its " ++ key ++ " argument"
  | unexpectedCharacter c => "unexpected character " ++ quoted (String.singleton c)
  | expected what (some got) => "expected " ++ what ++ ", got " ++ quoted got
  | expected what none => "expected " ++ what ++ ", got end of input"
  | endOfTemplate closing => "unexpected end of template, expected " ++ quoted closing
  | unclosedComment => "unclosed comment"
  | unknownBlockTag name => "unknown block tag: " ++ name
  | unclosedVerbatim closing => "expected " ++ quoted closing ++ " before end of template"
  | custom text => text

/-- A construct that has no neutral form. -/
inductive Unsupported where
  /-- A range of numbers. -/
  | rangeLiteral (offset : Nat)
  /-- A subscript that is itself an expression, by its place. -/
  | dynamicIndex (offset : Nat)
  /-- A negation where the language has none. -/
  | notOperator (offset : Nat)
  /-- A loop header without a variable and a collection. -/
  | loopHeader (args : String)
  /-- A modifier of a loop. -/
  | loopModifier (name : String)
  /-- A keyword argument of a filter that takes none. -/
  | keywordArgument (key filter : String)
  /-- A property of a value that went through a pipeline. -/
  | accessOnComputed
  /-- A subscript that is no 64-bit integer. -/
  | subscript (text : String)
  /-- A subscript that is itself an expression. -/
  | dynamicSubscript
  /-- More than one comparison in a row. -/
  | chainedComparison
  /-- A minus sign before anything but a number. -/
  | negation
  /-- A test of a value. -/
  | isTest
  /-- A call of a function. -/
  | functionCall
  /-- A choice inside an expression. -/
  | inlineIf
  /-- An array literal. -/
  | arrayLiteral
  /-- A dictionary literal. -/
  | dictLiteral
  /-- A flag of a filter that is neither true nor false. -/
  | flagArgument (key filter : String)
  /-- A construct that a custom reader words itself. -/
  | custom (text : String)
deriving DecidableEq, Repr

/-- The wording of a construct without neutral form. -/
def Unsupported.message : Unsupported → String
  | rangeLiteral offset => "range literal at byte " ++ toString offset
  | dynamicIndex offset => "dynamic index access at byte " ++ toString offset
  | notOperator offset => "'not' operator at byte " ++ toString offset
  | loopHeader args => "for-loop header " ++ quoted args
  | loopModifier name => "for-loop modifier " ++ quoted name
  | keywordArgument key filter =>
      "keyword argument " ++ quoted key ++ " on filter " ++ quoted filter
  | accessOnComputed => "property access on a filtered or computed value"
  | subscript text => "subscript " ++ quoted text
  | dynamicSubscript => "dynamic subscript"
  | chainedComparison => "chained comparison"
  | negation => "negation of a non-literal"
  | isTest => "'is' test"
  | functionCall => "function call"
  | inlineIf => "inline if expression"
  | arrayLiteral => "array literal"
  | dictLiteral => "dict literal"
  | flagArgument key filter => "non-literal " ++ quoted key ++ " argument to " ++ quoted filter
  | custom text => text

/-- A failure of reading. -/
inductive ReadError where
  /-- The source is wrong at a byte offset. -/
  | badSyntax (offset : Nat) (fault : SyntaxFault)
  /-- The source is well formed and has no neutral form. -/
  | unsupported (construct : Unsupported)
  /-- A part of one kind stands where another is needed. -/
  | unexpectedPart (expected got : String)
deriving DecidableEq, Repr

/-- The wording of a failure of reading. -/
def ReadError.message : ReadError → String
  | badSyntax offset fault => "syntax error at byte " ++ toString offset ++ ": " ++ fault.message
  | unsupported construct => "unsupported syntax: " ++ construct.message
  | unexpectedPart expected got => "expected " ++ expected ++ ", got " ++ got

/-! ### Writing -/

/-- A construct that the target language lacks. -/
inductive Construct where
  /-- Parentheses around a text. -/
  | grouping (text : String)
  /-- A filter argument that is more than an access chain. -/
  | compoundArgument (text : String)
  /-- An operator, as it is usually spelled. -/
  | operator (token : String)
  /-- A truncation inside words. -/
  | killWords
  /-- A replacement with a count. -/
  | replaceCount
  /-- A loop over several variables at once. -/
  | loopVariables (names : String)
  /-- A subtemplate that may be missing. -/
  | ignoreMissing
  /-- A statement. -/
  | statement (name : String)
  /-- A `when` clause with several values. -/
  | multiValueWhen
  /-- A construct that a custom writer words itself. -/
  | custom (text : String)
deriving DecidableEq, Repr

/-- The wording of a construct that the target language lacks. -/
def Construct.message : Construct → String
  | grouping text => "grouping parentheses around " ++ quoted text
  | compoundArgument text => "compound filter argument " ++ quoted text
  | operator token => "the " ++ quoted token ++ " operator"
  | killWords => "truncate with killwords"
  | replaceCount => "replace with a count or flags"
  | loopVariables names => "loops over multiple variables (" ++ quoted names ++ ")"
  | ignoreMissing => "'include … ignore missing'"
  | statement name => quoted name ++ " statements"
  | multiValueWhen => "multi-value 'when' clauses"
  | custom text => text

/-- What a part of an access chain is called in an error. -/
def Part.describe : Part → String
  | ident name => "Ident(\"" ++ name ++ "\")"
  | literal text => "Literal(\"" ++ text ++ "\")"
  | index value => "Index(" ++ toString value.toInt ++ ")"
  | null => "Null"
  | blank => "Blank"
  | loopVar => "LoopVar"

/-- A way in which a template breaks its own shape. -/
inductive Malformation where
  /-- An operator with no operand or with several. -/
  | operandCount (op : Operator)
  /-- A part where an access chain cannot have it. -/
  | misplacedPart (part : Part) (position : Nat)
  /-- An operator that no filter stands for. -/
  | noFilterSpelling (op : Operator)
  /-- An operator where only a filter can stand. -/
  | operatorAsFilter (op : Operator)
  /-- A conditional whose first branch has no condition. -/
  | noLeadingCondition (keyword : String)
  /-- A case distinction about nothing. -/
  | missingSubject
  /-- An assignment of nothing. -/
  | emptyAssignment (target : String)
  /-- A malformation that a custom writer words itself. -/
  | custom (text : String)
deriving DecidableEq, Repr

/-- The wording of a malformation. -/
def Malformation.message : Malformation → String
  | operandCount op => "operator " ++ quoted op.id ++ " expects exactly one operand"
  | misplacedPart part position =>
      part.describe ++ " at position " ++ toString position ++ " of an access chain"
  | noFilterSpelling op => "operator " ++ quoted op.id ++ " has no filter spelling"
  | operatorAsFilter op => "operator " ++ quoted op.id ++ " rendered as a filter"
  | noLeadingCondition keyword => keyword ++ " block without a leading condition"
  | missingSubject => "case block without a subject"
  | emptyAssignment target => "assignment to " ++ quoted target ++ " has neither value nor body"
  | custom text => text

/-- A failure of writing. -/
inductive WriteError where
  /-- The template is well formed and the language lacks a construct of it. -/
  | unsupported (language : String) (construct : Construct) (hint : Option String)
  /-- The template breaks its own shape. -/
  | malformed (cause : Malformation)
deriving DecidableEq, Repr

/-- A construct that a language lacks, without advice. -/
def WriteError.lacks (language : String) (construct : Construct) : WriteError :=
  unsupported language construct none

/-- The failure with other advice; a malformed template has none. -/
def WriteError.withHint (hint : String) : WriteError → WriteError
  | unsupported language construct _ => unsupported language construct (some hint)
  | malformed cause => malformed cause

/-- The wording of a failure of writing. -/
def WriteError.message : WriteError → String
  | unsupported language construct none => language ++ " does not support " ++ construct.message
  | unsupported language construct (some hint) =>
      language ++ " does not support " ++ construct.message ++ ". " ++ hint
  | malformed cause => "malformed IR: " ++ cause.message

/-! ### When a sequence of steps succeeds -/

/-- Two steps succeed exactly if the first one does and the second one does on its result. -/
theorem bind_eq_ok {ε α β : Type} {x : Except ε α} {f : α → Except ε β} {b : β} :
    (x >>= f) = .ok b ↔ ∃ a, x = .ok a ∧ f a = .ok b := by
  cases x <;> simp [bind, Except.bind]

/-- A result that is mapped comes from a result. -/
theorem bind_pure_eq_ok {ε α β : Type} {x : Except ε α} {f : α → β} {b : β} :
    (x >>= fun a => pure (f a)) = .ok b ↔ ∃ a, x = .ok a ∧ f a = b := by
  cases x <;> simp [bind, Except.bind, pure, Except.pure]

theorem map_eq_ok {ε α β : Type} {x : Except ε α} {f : α → β} {b : β} :
    x.map f = .ok b ↔ ∃ a, x = .ok a ∧ f a = b := by
  cases x <;> simp [Except.map]

theorem toOption_eq_some_iff {ε α : Type} {x : Except ε α} {a : α} :
    x.toOption = some a ↔ x = .ok a := by
  cases x <;> simp [Except.toOption]

instance decidableForallOk {ε α : Type} {P : α → Prop} [DecidablePred P] :
    (x : Except ε α) → Decidable (∀ a, x = .ok a → P a)
  | .ok a => decidable_of_iff (P a) ⟨fun h _ hx => Except.ok.inj hx ▸ h, fun h => h a rfl⟩
  | .error _ => isTrue fun _ h => by cases h

theorem exists_of_isOk {ε α : Type} {x : Except ε α} (h : x.isOk) : ∃ a, x = .ok a := by
  cases x with
  | ok a => exact ⟨a, rfl⟩
  | error e => cases h

@[simp] theorem ok_bind {ε α β : Type} (a : α) (f : α → Except ε β) : (Except.ok a >>= f) = f a :=
  rfl

@[simp] theorem bind_ok {ε α β : Type} (a : α) (f : α → Except ε β) : (Except.ok a).bind f = f a :=
  rfl

@[simp] theorem error_bind {ε α β : Type} (e : ε) (f : α → Except ε β) :
    (Except.error e >>= f) = Except.error e :=
  rfl

@[simp] theorem map_ok {ε α β : Type} (a : α) (f : α → β) :
    (Except.ok a : Except ε α).map f = .ok (f a) :=
  rfl

end Stencil
