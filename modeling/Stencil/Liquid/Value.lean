import Stencil.Liquid.Operand

/-!
# Liquid values

A Liquid value is a chain of operands joined by connectors, followed by filters. There are no
parentheses. Comparisons bind tighter than `and` and `or`, and connectors of equal strength group
from right to left; the postfix order of a chain makes that grouping explicit.

## Main definitions

* `Liquid.Connector`, `Liquid.Chain` : operands joined by connectors.
* `Liquid.Chain.postfixEntries` : the chain with every connector after its operands.
* `Liquid.Filter`, `Liquid.Value` : a chain with its filters.
* `Liquid.parseValue`, `Liquid.parseChain`, `Liquid.parseWhen` : the readings of a whole piece.
-/

namespace Stencil.Liquid

/-! ### Connectors and chains -/

/-- What joins two operands. -/
inductive Connector where
  | equal
  | notEqual
  | unequal
  | lessEqual
  | greaterEqual
  | less
  | greater
  | contains
  | and
  | or
deriving DecidableEq, Repr

namespace Connector

/-- The spelling of a connector. -/
def text : Connector → String
  | equal => "=="
  | notEqual => "!="
  | unequal => "<>"
  | lessEqual => "<="
  | greaterEqual => ">="
  | less => "<"
  | greater => ">"
  | contains => "contains"
  | and => "and"
  | or => "or"

/-- The operator that a connector stands for. -/
def operator : Connector → Operator
  | equal => .equal
  | notEqual | unequal => .notEqual
  | lessEqual => .lessEqual
  | greaterEqual => .greaterEqual
  | less => .less
  | greater => .greater
  | contains => .contains
  | and => .and
  | or => .or

/-- Logical connectors bind weaker than comparisons. -/
def precedence : Connector → Nat
  | and | or => 1
  | _ => 2

/-- The connectors spelled with signs; a longer spelling comes before its beginning. -/
def signs : List Connector :=
  [equal, notEqual, unequal, lessEqual, greaterEqual, less, greater]

/-- The connectors spelled as words. -/
def words : List Connector :=
  [contains, and, or]

/-- The connector with a given spelling. -/
def ofText? (text : String) : Option Connector :=
  (signs ++ words).find? fun c => c.text == text

end Connector

/-- A connector and the operand after it. -/
structure Link where
  /-- The connector. -/
  connector : Connector
  /-- Where the connector stands. -/
  span : Span
  /-- The operand. -/
  operand : Operand
deriving DecidableEq, Repr

/-- Operands joined by connectors. -/
structure Chain where
  /-- The first operand. -/
  first : Operand
  /-- The operands after it, each with its connector. -/
  links : List Link
deriving DecidableEq, Repr

/-- An operand or a connector of a chain. -/
inductive Entry where
  | operand (operand : Operand)
  | connector (connector : Connector) (span : Span)
deriving DecidableEq, Repr

/-- The operands and connectors of a chain, as written. -/
def Chain.entries (c : Chain) : List Entry :=
  .operand c.first :: c.links.flatMap fun l => [.connector l.connector l.span, .operand l.operand]

/-- The entries in postfix order, given the connectors that wait for their right operand, the last
one first. A connector sets free the waiting ones that bind strictly tighter. -/
def shunt (waiting : List (Connector × Span)) : List Entry → List Entry
  | [] => waiting.map fun (c, s) => .connector c s
  | .operand o :: es => .operand o :: shunt waiting es
  | .connector c s :: es =>
    let tighter := fun (w : Connector × Span) => decide (c.precedence < w.1.precedence)
    (waiting.takeWhile tighter).map (fun (w, t) => .connector w t) ++
      shunt ((c, s) :: waiting.dropWhile tighter) es

/-- The chain with every connector after its two operands. -/
def Chain.postfixEntries (c : Chain) : List Entry :=
  shunt [] c.entries

/-! ### Reading chains -/

/-- Nothing is left of an expression: the piece is at its end or at a filter bar. -/
def atEnd (p : Piece) : Bool :=
  p.text.isEmpty || p.text.head? == some '|'

/-- The connector at the start of a piece without leading blanks, and the source after it. -/
def readConnector (p : Piece) : Except ReadError (Connector × Piece) :=
  let sign := Connector.signs.findSome? fun c => (p.strip? c.text.toList).map (c, ·)
  let word := Connector.words.findSome? fun c => (eatWord? c.text.toList p).map (c, ·)
  match sign.or word with
  | some found => .ok found
  | none => .error (unexpected p)

theorem length_readConnector {p rest : Piece} {c : Connector}
    (h : readConnector p = .ok (c, rest)) : rest.text.length ≤ p.text.length := by
  unfold readConnector at h
  simp only at h
  split at h
  · rename_i found hf
    simp only [Except.ok.injEq] at h
    subst h
    rcases Option.or_eq_some_iff.mp hf with hs | ⟨-, hw⟩
    · obtain ⟨c', -, hc⟩ := List.exists_of_findSome?_eq_some hs
      obtain ⟨r, hr, he⟩ := Option.map_eq_some_iff.mp hc
      simp only [Prod.mk.injEq] at he
      have := Piece.length_of_strip? hr
      simp only [← he.2]
      omega
    · obtain ⟨c', -, hc⟩ := List.exists_of_findSome?_eq_some hw
      obtain ⟨r, hr, he⟩ := Option.map_eq_some_iff.mp hc
      simp only [Prod.mk.injEq] at he
      have := length_eatWord? hr
      simp only [← he.2]
      omega
  · simp at h

/-- One connector with its operand at the start of a piece, and the source after them. -/
def readLink (p : Piece) : Except ReadError (Link × Piece) := do
  let (connector, rest) ← readConnector p
  if atEnd rest.trimStart then
    throw (.badSyntax p.start (.missingRightOperand connector.text))
  let (operand, after) ← readOperand rest
  return (⟨connector, (upTo p rest).span, operand⟩, after)

theorem length_readLink {p rest : Piece} {l : Link} (h : readLink p = .ok (l, rest)) :
    rest.text.length < p.text.length := by
  obtain ⟨⟨c, r₁⟩, h₁, h⟩ := bind_eq_ok.mp h
  simp only at h
  split at h
  · simp [throw, throwThe, MonadExceptOf.throw, bind, Except.bind] at h
  · obtain ⟨-, -, h⟩ := bind_eq_ok.mp h
    obtain ⟨⟨o, r₂⟩, h₂, h⟩ := bind_eq_ok.mp h
    simp only [pure, Except.pure, Except.ok.injEq, Prod.mk.injEq] at h
    have := length_readConnector h₁
    have := length_readOperand h₂
    simp only [← h.2]
    omega

/-- The connectors and operands up to the end of an expression, and the source from there on. -/
def readLinks (p : Piece) : Except ReadError (List Link × Piece) :=
  if atEnd p.trimStart then .ok ([], p.trimStart)
  else
    match _h : readLink p.trimStart with
    | .error e => .error e
    | .ok (link, rest) =>
      match readLinks rest with
      | .error e => .error e
      | .ok (links, rest) => .ok (link :: links, rest)
termination_by p.text.length
decreasing_by
  exact Nat.lt_of_lt_of_le (length_readLink _h) (Piece.length_dropWhile_le Text.isBlank p)

/-- The chain at the start of a piece, and the source after it. -/
def readChain (p : Piece) : Except ReadError (Chain × Piece) := do
  let p := p.trimStart
  if atEnd p then throw (.badSyntax p.start .expectedExpression)
  let (first, rest) ← readOperand p
  let (links, rest) ← readLinks rest
  return (⟨first, links⟩, rest)

/-! ### Filters and values -/

/-- An argument of a filter. -/
inductive FilterArg where
  /-- An argument known by its place. -/
  | positional (value : Operand)
  /-- An argument known by its name. -/
  | keyword (key : String) (value : Operand)
deriving DecidableEq, Repr

/-- The operand of an argument. -/
def FilterArg.value : FilterArg → Operand
  | positional value | keyword _ value => value

/-- A filter with its arguments. -/
structure Filter where
  /-- The name. -/
  name : String
  /-- The arguments, as written. -/
  args : List FilterArg
  /-- The filter with the blanks after it. -/
  span : Span
deriving DecidableEq, Repr

/-- A chain and the filters applied to it. -/
structure Value where
  /-- The chain. -/
  initial : Chain
  /-- The filters, in the order in which they are applied. -/
  filters : List Filter
deriving DecidableEq, Repr

/-- The argument at the start of a piece without leading blanks, and the source after it. -/
def readFilterArg (p : Piece) : Except ReadError (FilterArg × Piece) :=
  let keyword := (readIdentifier p).toOption.bind fun (key, rest) =>
    (eat? [':'] rest).map fun rest => (key, rest)
  match keyword with
  | some (key, rest) => (readOperand rest).map fun (value, rest) => (.keyword key value, rest)
  | none => (readOperand p).map fun (value, rest) => (.positional value, rest)

theorem length_readFilterArg {p rest : Piece} {arg : FilterArg}
    (h : readFilterArg p = .ok (arg, rest)) : rest.text.length < p.text.length := by
  unfold readFilterArg at h
  simp only at h
  split at h
  · rename_i key r hk
    obtain ⟨⟨value, r'⟩, hr, he⟩ := map_eq_ok.mp h
    simp only [Prod.mk.injEq] at he
    obtain ⟨⟨key', r₁⟩, hi, hc⟩ := Option.bind_eq_some_iff.mp hk
    obtain ⟨r₂, h₂, hp⟩ := Option.map_eq_some_iff.mp hc
    simp only [Prod.mk.injEq] at hp
    have hi : readIdentifier p = .ok (key', r₁) := by
      cases hx : readIdentifier p <;> simp_all [Except.toOption]
    have := length_readIdentifier hi
    have := length_eat? h₂
    have := length_readOperand hr
    simp only [← he.2, ← hp.2] at *
    omega
  · obtain ⟨⟨value, r'⟩, hr, he⟩ := map_eq_ok.mp h
    simp only [Prod.mk.injEq] at he
    exact he.2 ▸ length_readOperand hr

/-- Arguments separated by commas, and the source after them and their blanks. -/
def readFilterArgs (p : Piece) : Except ReadError (List FilterArg × Piece) :=
  match _h : readFilterArg p.trimStart with
  | .error e => .error e
  | .ok (arg, rest) =>
    match _hc : eat? [','] rest with
    | none => .ok ([arg], rest.trimStart)
    | some rest =>
      match readFilterArgs rest with
      | .error e => .error e
      | .ok (args, rest) => .ok (arg :: args, rest)
termination_by p.text.length
decreasing_by
  have h₁ := length_readFilterArg _h
  have h₂ := length_eat? _hc
  have h₃ := Piece.length_dropWhile_le Text.isBlank p
  simp only [Piece.trimStart] at h₁
  omega

theorem length_readFilterArgs {p rest : Piece} {args : List FilterArg}
    (h : readFilterArgs p = .ok (args, rest)) : rest.text.length ≤ p.text.length := by
  fun_induction readFilterArgs p generalizing args rest with
  | case1 => simp at h
  | case2 p arg r hr hc =>
      simp only [Except.ok.injEq, Prod.mk.injEq] at h
      have h₁ := length_readFilterArg hr
      have h₂ := Piece.length_dropWhile_le Text.isBlank p
      have h₃ := Piece.length_dropWhile_le Text.isBlank r
      simp only [Piece.trimStart] at h₁
      simp only [← h.2, Piece.trimStart]
      omega
  | case3 => simp at h
  | case4 p arg r hr r' hc args' r'' hr' ih =>
      simp only [Except.ok.injEq, Prod.mk.injEq] at h
      have h₁ := length_readFilterArg hr
      have h₂ := Piece.length_dropWhile_le Text.isBlank p
      have h₃ := length_eat? hc
      have h₄ := ih hr'
      simp only [Piece.trimStart] at h₁
      simp only [← h.2]
      omega

/-- The arguments after the name of a filter, if a colon announces some, and the source after
them. -/
def readFilterTail (p : Piece) : Except ReadError (List FilterArg × Piece) :=
  match eat? [':'] p with
  | none => .ok ([], p.trimStart)
  | some rest => readFilterArgs rest

theorem length_readFilterTail {p rest : Piece} {args : List FilterArg}
    (h : readFilterTail p = .ok (args, rest)) : rest.text.length ≤ p.text.length := by
  unfold readFilterTail at h
  split at h
  · simp only [Except.ok.injEq, Prod.mk.injEq] at h
    exact h.2 ▸ Piece.length_dropWhile_le Text.isBlank p
  · rename_i r hr
    have h₁ := length_eat? hr
    have h₂ := length_readFilterArgs h
    omega

/-- The filter at the start of a piece, and the source after it and its blanks. -/
def readFilter (p : Piece) : Except ReadError (Filter × Piece) := do
  let p := p.trimStart
  let (name, rest) ← readIdentifier p
  let (args, rest) ← readFilterTail rest
  return (⟨name, args, ⟨p.start, rest.start⟩⟩, rest)

theorem length_readFilter {p rest : Piece} {f : Filter} (h : readFilter p = .ok (f, rest)) :
    rest.text.length < p.text.length := by
  obtain ⟨⟨name, r₁⟩, h₁, h⟩ := bind_eq_ok.mp h
  obtain ⟨⟨args, r₂⟩, h₂, h⟩ := bind_eq_ok.mp h
  simp only [pure, Except.pure, Except.ok.injEq, Prod.mk.injEq] at h
  have := length_readIdentifier h₁
  have := length_readFilterTail h₂
  have := Piece.length_dropWhile_le Text.isBlank p
  simp only [← h.2, Piece.trimStart] at *
  omega

/-- The filters up to the end of a value, and the source from there on. -/
def readFilters (p : Piece) : Except ReadError (List Filter × Piece) :=
  match _hb : eat? ['|'] p with
  | none => .ok ([], p.trimStart)
  | some rest =>
    match _h : readFilter rest with
    | .error e => .error e
    | .ok (filter, rest) =>
      match readFilters rest with
      | .error e => .error e
      | .ok (filters, rest) => .ok (filter :: filters, rest)
termination_by p.text.length
decreasing_by
  have h₁ := length_eat? _hb
  have h₂ := length_readFilter _h
  omega

/-- The value at the start of a piece, and the source after it. -/
def readValue (p : Piece) : Except ReadError (Value × Piece) := do
  let (initial, rest) ← readChain p
  let (filters, rest) ← readFilters rest
  return (⟨initial, filters⟩, rest)

/-- What was read, if nothing but blanks is left. -/
def complete {α : Type} (result : α × Piece) : Except ReadError α :=
  let rest := result.2.trimStart
  if rest.text.isEmpty then .ok result.1 else .error (unexpected rest)

/-- The value that a piece consists of. -/
def parseValue (p : Piece) : Except ReadError Value :=
  readValue p >>= complete

/-- The chain that a piece consists of. -/
def parseChain (p : Piece) : Except ReadError Chain :=
  readChain p >>= complete

/-! ### Lists of values -/

/-- The source after a comma or the word `or`, if either comes next. -/
def eatSeparator? (p : Piece) : Option Piece :=
  (eat? [','] p).or (eatWord? ['o', 'r'] p)

theorem length_eatSeparator? {p rest : Piece} (h : eatSeparator? p = some rest) :
    rest.text.length < p.text.length := by
  rcases Option.or_eq_some_iff.mp h with h | ⟨-, h⟩
  · have := length_eat? h
    simp only [List.length_singleton] at this
    omega
  · have := length_eatWord? h
    simp only [List.length_cons, List.length_nil] at this
    omega

/-- The values after the first one, up to the end of a piece. -/
def parseMoreValues (p : Piece) : Except ReadError (List Operand) :=
  if p.trimStart.text.isEmpty then .ok []
  else
    match _hs : eatSeparator? p with
    | none => .error (unexpected p.trimStart)
    | some rest =>
      match _h : readOperand rest with
      | .error e => .error e
      | .ok (value, rest) =>
        match parseMoreValues rest with
        | .error e => .error e
        | .ok values => .ok (value :: values)
termination_by p.text.length
decreasing_by
  have h₁ := length_eatSeparator? _hs
  have h₂ := length_readOperand _h
  omega

/-- The values of a `when` clause, separated by commas or the word `or`. -/
def parseWhen (p : Piece) : Except ReadError (List Operand) := do
  let (first, rest) ← readOperand p
  let more ← parseMoreValues rest
  return first :: more

end Stencil.Liquid
