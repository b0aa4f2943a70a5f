import Stencil.Proofs.Nunjucks.Statement

/-!
# Written expressions are read back

The writer of expressions puts parentheses where it believes that the reader would group
differently. What it keeps track of is the form of the text so far; here each form is tied to the
level of the term grammar that reads such a text, one step of a pipeline is shown to keep that tie,
and a whole pipeline follows by induction.

## Main results

* `Nunjucks.extend_sound` : one step keeps a written expression sound.
* `Nunjucks.Readable.written` : a readable expression is written, and its text is sound.
* `Nunjucks.read_text_of_plain` : the text of a plain expression is read as that expression.
-/

namespace Stencil.Nunjucks

/-! ### Forms and levels -/

/-- The binding strengths of operators. -/
def strengths : List Nat :=
  [10, 20, 25, 30, 35, 40, 50, 60]

/-- The level that reads the application of an operator of a given strength. -/
def levelOf : Nat → Nat
  | 10 => 11
  | 20 => 10
  | 25 => 9
  | 30 => 8
  | 35 => 5
  | 40 => 4
  | 50 => 3
  | _ => 2

/-- The loosest level of an operand that binds more tightly than a given strength. -/
def operandLevel : Nat → Nat
  | 10 => 10
  | 20 => 9
  | 25 => 8
  | 30 => 5
  | 35 => 4
  | 40 => 3
  | 50 => 2
  | _ => 1

/-- The expression is a negative number and nothing else. -/
def isOpposite (e : Expr) : Bool :=
  isNegative e.chain && e.steps.isEmpty

/-- What the lexemes of a text of a given form are read as. No filters can follow a negative
number. -/
def FormReads (ls : List Lexeme) (e : Expr) : Form → Prop
  | .atom => ReadsAt 1 ls (Means e) ∧ (isOpposite e = false → ExtendsAt 1 ls (Means e))
  | .pipe => ExtendsAt 1 ls (Means e)
  | .operator p => p ∈ strengths ∧ ReadsAt (levelOf p) ls (Means e) ∧
      (p ≠ 25 → ExtendsAt (levelOf p) ls (Means e))

/-- The form binds more tightly than a given strength. -/
def BindsTighter (prec : Nat) : Form → Prop
  | .operator p => prec < p
  | _ => True

variable {ls : List Lexeme} {e : Expr} {form : Form} {prec : Nat}

theorem levelOf_le : ∀ p ∈ strengths, 2 ≤ levelOf p ∧ levelOf p ≤ 11 := by
  decide

theorem levelOf_le_operandLevel :
    ∀ p ∈ strengths, ∀ q ∈ strengths, q < p → levelOf p ≤ operandLevel q := by
  decide

theorem operandLevel_lt : ∀ p ∈ strengths, 1 ≤ operandLevel p ∧ operandLevel p < levelOf p := by
  decide

theorem isGrouping_levelOf : ∀ p ∈ strengths, p ≠ 25 → isGrouping (levelOf p) := by
  decide

/-- A text that is read at the tightest level has the form of an atom. -/
theorem FormReads.atom (h : ExtendsAt 0 ls (Means e)) : FormReads ls e .atom := by
  have h₁ : ExtendsAt 1 ls (Means e) := h.readsAt.extendsAt_of_lt (by omega) rfl
  exact ⟨h₁.readsAt, fun _ => h₁⟩

/-- Every written text is read as a whole term. -/
theorem FormReads.readsAt (h : FormReads ls e form) : ReadsAt 12 ls (Means e) := by
  cases form with
  | atom => exact h.1.mono (by omega) (by omega)
  | pipe => exact (ExtendsAt.readsAt h).mono (by omega) (by omega)
  | operator p =>
    have := levelOf_le p h.1
    exact h.2.1.mono (by omega) (by omega)

/-- A text that binds more tightly is read at the level of operands. -/
theorem FormReads.tighter (h : FormReads ls e form) (hp : prec ∈ strengths)
    (ht : BindsTighter prec form) : ReadsAt (operandLevel prec) ls (Means e) := by
  have h₁ := operandLevel_lt prec hp
  have h₂ := levelOf_le prec hp
  cases form with
  | atom => exact h.1.mono (by omega) (by omega)
  | pipe => exact (ExtendsAt.readsAt h).mono (by omega) (by omega)
  | operator p => exact h.2.1.mono (levelOf_le_operandLevel p h.1 prec hp ht) (by omega)

/-- A text that binds no less tightly can be a left operand. -/
theorem FormReads.left (h : FormReads ls e form) (hp : prec ∈ strengths) (hne : prec ≠ 25)
    (ht : form = .operator prec ∨ BindsTighter prec form) :
    ExtendsAt (levelOf prec) ls (Means e) := by
  rcases ht with rfl | ht
  · exact h.2.2 hne
  · have := operandLevel_lt prec hp
    exact (h.tighter hp ht).extendsAt_of_lt (by omega) (isGrouping_levelOf prec hp hne)

/-! ### Written expressions -/

/-- A written expression whose text is read as the expression `e`. -/
def Sound (r : Rendered) (e : Expr) : Prop :=
  ∃ ls, Spells r.text.toList ls ∧ FormReads ls e r.form

theorem parens_spells {text : String} (h : Spells text.toList ls) (hr : ReadsAt 12 ls (Means e)) :
    ∃ ls', Spells (Grammar.parens text).toList ls' ∧ ExtendsAt 0 ls' (Means e) := by
  exact ⟨_, h.parens, hr.group fun x hx => by simpa [Means, Term.toExpr] using hx⟩

/-- What holds of a text as it stands if it is not grouped, and of every atom, holds of the text
after grouping. -/
theorem Sound.group {r : Rendered} (h : Sound r e) {needed : Bool} {T : List Lexeme → Prop}
    (hplain : needed = false → ∀ ls, FormReads ls e r.form → T ls)
    (hatom : ∀ ls, ExtendsAt 0 ls (Means e) → T ls) :
    ∃ text ls, grammar.group r.text needed = .ok text ∧ Spells text.toList ls ∧ T ls := by
  obtain ⟨ls, hs, hr⟩ := h
  cases needed with
  | false => exact ⟨r.text, ls, rfl, hs, hplain rfl ls hr⟩
  | true =>
    obtain ⟨ls', hs', hr'⟩ := parens_spells hs hr.readsAt
    exact ⟨_, ls', rfl, hs', hatom ls' hr'⟩

/-- A right operand, grouped as needed. -/
theorem Sound.right {r : Rendered} (h : Sound r e) (hp : prec ∈ strengths) :
    ∃ text ls, grammar.group r.text (grammar.needsRight prec r.form) = .ok text ∧
      Spells text.toList ls ∧ ReadsAt (operandLevel prec) ls (Means e) := by
  have := operandLevel_lt prec hp
  have := levelOf_le prec hp
  refine h.group (fun hn ls hr => hr.tighter hp ?_) fun ls hr =>
    hr.readsAt.mono (by omega) (by omega)
  cases hf : r.form with
  | atom => trivial
  | pipe => trivial
  | operator p =>
    simp [hf, Grammar.needsRight, grammar] at hn
    simp [BindsTighter]
    omega

/-- A left operand, grouped as needed. -/
theorem Sound.left {r : Rendered} (h : Sound r e) (hp : prec ∈ strengths) (hne : prec ≠ 25) :
    ∃ text ls, grammar.group r.text (grammar.needsLeft prec r.form) = .ok text ∧
      Spells text.toList ls ∧ ExtendsAt (levelOf prec) ls (Means e) := by
  have := levelOf_le prec hp
  refine h.group (fun hn ls hr => hr.left hp hne ?_) fun ls hr =>
    hr.readsAt.extendsAt_of_lt (by omega) (isGrouping_levelOf prec hp hne)
  cases hf : r.form with
  | atom => exact .inr trivial
  | pipe => exact .inr trivial
  | operator p =>
    simp [hf, Grammar.needsLeft, grammar] at hn
    rcases Nat.lt_or_eq_of_le hn with hlt | rfl
    · exact .inr hlt
    · exact .inl rfl

/-! ### Operators -/

/-- The signs that stand between operands. -/
def infixSigns : List String :=
  ["+", "-", "*", "/", "//", "%", "**", "~", "==", "!=", ">", ">=", "<", "<="]

/-- The words that stand between operands. -/
def infixWords : List String :=
  ["and", "or", "in"]

/-- The lexeme of what stands between operands. -/
def infixLexeme (token : String) : Lexeme :=
  if infixWords.contains token then .word token else .sign token

/-- Two operands and what stands between them. -/
theorem infix_spells {token : String} (ht : token ∈ infixSigns ++ infixWords) {s s' : List Char}
    {ls ls' : List Lexeme} (h : Spells s ls) (h' : Spells s' ls') :
    Spells (s ++ ' ' :: (token.toList ++ ' ' :: s')) (ls ++ infixLexeme token :: ls') := by
  refine h.append ?_ (.cons (by decide) _)
  rcases List.mem_append.mp ht with ht | ht
  · have hl : infixLexeme token = .sign token := by
      revert token
      decide
    have hq : '{' ∉ token.toList := by
      clear hl
      revert token
      decide
    rw [hl]
    exact ⟨.space (.operator ht h'.lexes), .cons (by decide) ((Text.Lacks.of_notMem hq).append
      h'.space.quiet), by simp⟩
  · have hl : infixLexeme token = .word token := by
      revert token
      decide
    have hn : Text.isIdentifier token.toList := by
      clear hl
      revert token
      decide
    rw [hl]
    exact .space ((Spells.name hn).append h'.space (.cons (by decide) _))

/-- How a binary operator is spelled, and the level that takes its spelling for its own. -/
theorem spelling_of_binary (b : Binary) (hb : b ≠ .member) :
    ∃ token n, operatorForm b.operator = .between token ∧ token ∈ infixSigns ++ infixWords ∧
      b.operator.precedence ∈ strengths ∧ b.operator.precedence ≠ 25 ∧
      levelOf b.operator.precedence = n + 2 ∧ operandLevel b.operator.precedence = n + 1 ∧
      ∀ t : Token, t.lexeme = infixLexeme token → operatorAt (n + 2) t = some b := by
  cases b
  case member => exact absurd rfl hb
  all_goals
    refine ⟨_, _, rfl, by decide, by decide, by decide, rfl, rfl, ?_⟩
    rintro ⟨kind, start, text⟩ ht
    obtain ⟨rfl, rfl⟩ := Lexeme.mk.inj ht
    rfl

theorem exists_binary {op : Operator} (hc : op.isComparison = false) (hn : op ≠ .not) :
    ∃ b : Binary, b ≠ .member ∧ b.operator = op ∧ op.isUnary = false := by
  cases op
  case not => exact absurd rfl hn
  case equal | notEqual | greater | greaterEqual | less | lessEqual | contains =>
    exact absurd hc (by decide)
  case add => exact ⟨.add, by decide⟩
  case subtract => exact ⟨.subtract, by decide⟩
  case multiply => exact ⟨.multiply, by decide⟩
  case divide => exact ⟨.divide, by decide⟩
  case floorDivide => exact ⟨.floorDivide, by decide⟩
  case modulo => exact ⟨.modulo, by decide⟩
  case power => exact ⟨.power, by decide⟩
  case concat => exact ⟨.concat, by decide⟩
  case and => exact ⟨.and, by decide⟩
  case or => exact ⟨.or, by decide⟩

theorem exists_comparison {op : Operator} (hc : op.isComparison) (hn : op ≠ .contains) :
    ∃ c : Comparison, c.operator = op ∧ operatorForm op = .between c.text ∧
      c.text ∈ infixSigns ++ infixWords ∧ infixLexeme c.text = .sign c.text ∧
      op.isUnary = false := by
  cases op
  case equal => exact ⟨.equal, by decide⟩
  case notEqual => exact ⟨.notEqual, by decide⟩
  case greater => exact ⟨.greater, by decide⟩
  case greaterEqual => exact ⟨.greaterEqual, by decide⟩
  case less => exact ⟨.less, by decide⟩
  case lessEqual => exact ⟨.lessEqual, by decide⟩
  all_goals simp_all [Operator.isComparison, Operator.precedence]

section Operators

variable {acc right : Rendered} {a : Expr} {op : Operator}

/-- The text after an operator between two operands, which may have changed places. -/
theorem extend_operator {token s s' : String} {first second : Rendered}
    (hform : operatorForm op = .between token ∧ first = acc ∧ second = right ∨
      operatorForm op = .swapped token ∧ first = right ∧ second = acc)
    (hr : grammar.render a = .ok right)
    (hs : grammar.group first.text (grammar.needsLeft op.precedence first.form) = .ok s)
    (hs' : grammar.group second.text (grammar.needsRight op.precedence second.form) = .ok s') :
    grammar.extend acc (.apply (.op op) [⟨a, grammar.render a⟩]) =
      .ok ⟨s ++ " " ++ token ++ " " ++ s', .operator op.precedence⟩ := by
  have hgo : grammar.operatorForm op = .ok (operatorForm op) := rfl
  have hprec : grammar.precedence op = op.precedence := rfl
  rcases hform with ⟨hform, rfl, rfl⟩ | ⟨hform, rfl, rfl⟩
  all_goals
    simp only [Grammar.extend, Step.operator?, Grammar.extendOperator, hgo, hform, hprec, ok_bind,
      Grammar.operand, hr, hs, hs']
    rfl

/-- An operator that groups from left to right. -/
theorem extend_binary (hacc : Sound acc e) (hr : grammar.render a = .ok right)
    (ha : Sound right a) (hc : op.isComparison = false) (hn : op ≠ .not) :
    ∃ r, grammar.extend acc (.apply (.op op) [⟨a, grammar.render a⟩]) = .ok r ∧
      Sound r (e.pipe (.apply (.op op) [a])) ∧ r.form = .operator op.precedence := by
  obtain ⟨b, hb, rfl, hu⟩ := exists_binary hc hn
  obtain ⟨token, n, hform, htoken, hp, hne, hlevel, hoperand, hop⟩ := spelling_of_binary b hb
  obtain ⟨s, ls, hgs, hs, hls⟩ := hacc.left hp hne
  obtain ⟨s', ls', hgs', hs', hls'⟩ := ha.right hp
  rw [hlevel] at hls
  rw [hoperand] at hls'
  have hread : ExtendsAt (n + 2) (ls ++ infixLexeme token :: ls')
      (Means (e.pipe (.apply (.op b.operator) [a]))) := by
    refine hls.binary hls' hop fun x y hx hy => ?_
    rw [Means] at hx hy
    simp [Means, Term.toExpr, hx, hy, binaryExpr, hb, Expr.apply, hu]
  refine ⟨_, extend_operator (.inl ⟨hform, rfl, rfl⟩) hr hgs hgs',
    ⟨_, ?_, hp, hlevel ▸ hread.readsAt, fun _ => hlevel ▸ hread⟩, rfl⟩
  simpa using infix_spells htoken hs hs'

/-- A comparison. Its left operand must not be a comparison itself, since the reader makes a chain
of the two. -/
theorem extend_comparison (hacc : Sound acc e) (hr : grammar.render a = .ok right)
    (ha : Sound right a) (hc : op.isComparison) (hn : op ≠ .contains)
    (hform : acc.form ≠ .operator 30) :
    ∃ r, grammar.extend acc (.apply (.op op) [⟨a, grammar.render a⟩]) = .ok r ∧
      Sound r (e.pipe (.apply (.op op) [a])) ∧ r.form = .operator op.precedence := by
  obtain ⟨c, rfl, hspell, htoken, hlexeme, hu⟩ := exists_comparison hc hn
  have hprec : c.operator.precedence = 30 := by cases c <;> rfl
  have hp : 30 ∈ strengths := by decide
  obtain ⟨s', ls', hgs', hs', hls'⟩ := ha.right hp
  obtain ⟨s, ls, hgs, hs, hls⟩ : ∃ text ls,
      grammar.group acc.text (grammar.needsLeft 30 acc.form) = .ok text ∧
        Spells text.toList ls ∧ ReadsAt 5 ls (Means e) := by
    refine hacc.group (fun hneed ls hr => hr.tighter hp ?_) fun ls hr =>
      hr.readsAt.mono (by omega) (by omega)
    cases hf : acc.form with
    | atom => trivial
    | pipe => trivial
    | operator p =>
      simp [hf, Grammar.needsLeft, grammar] at hneed
      have : p ≠ 30 := fun h => hform (by rw [hf, h])
      simp only [BindsTighter]
      omega
  have hread : ReadsAt 6 (ls ++ infixLexeme c.text :: ls')
      (Means (e.pipe (.apply (.op c.operator) [a]))) := by
    rw [hlexeme]
    refine hls.comparison hls' fun x y hx hy => ?_
    rw [Means] at hx hy
    simp [Means, Term.toExpr, hx, hy, Expr.apply, hu]
  have hext := hread.extendsAt_of_lt (n := 8) (by omega) (by decide)
  rw [← hprec] at hgs hgs'
  refine ⟨_, extend_operator (.inl ⟨hspell, rfl, rfl⟩) hr hgs hgs',
    ⟨ls ++ infixLexeme c.text :: ls', ?_, ?_⟩, rfl⟩
  · simpa using infix_spells htoken hs hs'
  · rw [hprec]
    exact ⟨hp, hext.readsAt, fun _ => hext⟩

/-- Membership, which the language spells with the container on the right. -/
theorem extend_contains (hacc : Sound acc e) (hr : grammar.render a = .ok right)
    (ha : Sound right a) :
    ∃ r, grammar.extend acc (.apply (.op .contains) [⟨a, grammar.render a⟩]) = .ok r ∧
      Sound r (e.pipe (.apply (.op .contains) [a])) ∧ r.form = .operator 30 := by
  have hp : 30 ∈ strengths := by decide
  obtain ⟨s, ls, hgs, hs, hls⟩ := ha.left hp (by decide)
  obtain ⟨s', ls', hgs', hs', hls'⟩ := hacc.right hp
  have hread : ExtendsAt 8 (ls ++ infixLexeme "in" :: ls')
      (Means (e.pipe (.apply (.op .contains) [a]))) := by
    have hop : ∀ t : Token, t.lexeme = infixLexeme "in" → operatorAt 8 t = some .member := by
      rintro ⟨kind, start, text⟩ ht
      obtain ⟨rfl, rfl⟩ := Lexeme.mk.inj ht
      rfl
    refine ExtendsAt.binary (n := 6) hls (hls'.mono (by decide) (by omega)) hop fun x y hx hy => ?_
    rw [Means] at hx hy
    simp [Means, Term.toExpr, hx, hy, binaryExpr, Expr.apply, Binary.operator, Operator.isUnary]
  refine ⟨_, extend_operator (.inr ⟨rfl, rfl, rfl⟩) hr hgs hgs',
    ⟨_, ?_, hp, hread.readsAt, fun _ => hread⟩, rfl⟩
  have htoken : "in" ∈ infixSigns ++ infixWords := by decide
  simpa using infix_spells htoken hs hs'

/-- A negation. -/
theorem extend_not (hacc : Sound acc e) :
    ∃ r, grammar.extend acc (.apply (.op .not) []) = .ok r ∧
      Sound r (e.pipe (.apply (.op .not) [])) ∧ r.form = .operator 25 := by
  have hp : 25 ∈ strengths := by decide
  obtain ⟨s, ls, hgs, hs, hls⟩ : ∃ text ls,
      grammar.group acc.text (grammar.needsLeading 25 acc.form) = .ok text ∧
        Spells text.toList ls ∧ ReadsAt 8 ls (Means e) := by
    refine hacc.group (fun hneed ls hr => hr.tighter hp ?_) fun ls hr =>
      hr.readsAt.mono (by omega) (by omega)
    cases hf : acc.form with
    | atom => trivial
    | pipe => trivial
    | operator p =>
      simp [hf, Grammar.needsLeading] at hneed
      exact hneed
  have hread : ReadsAt 9 (.word "not" :: ls) (Means (e.pipe (.apply (.op .not) []))) := by
    refine (hls.mono (by omega) (by omega)).negated fun x hx => ?_
    rw [Means] at hx
    simp [Means, Term.toExpr, hx, Expr.negate]
  refine ⟨⟨"not" ++ " " ++ s, .operator 25⟩, ?_, ⟨_, ?_, hp, hread, by simp⟩, rfl⟩
  · have hgo : grammar.operatorForm .not = .ok (.leading "not") := rfl
    have hprec : grammar.precedence .not = 25 := rfl
    simp only [Grammar.extend, Step.operator?, Grammar.extendOperator, hgo, hprec, ok_bind, hgs]
    rfl
  · rw [String.toList_append, String.toList_append, List.append_assoc]
    exact (Spells.name (by decide)).append hs.space (.cons (by decide) _)

end Operators

/-! ### Arguments of filters -/

/-- An argument of a call that means an expression, by its name if it has one. -/
def ArgMeans : Option String × Expr → CallArg → Prop
  | (none, e), a => ∃ x, a = .positional x ∧ Means e x
  | (some key, e), a => ∃ x, a = .keyword key x ∧ Means e x

/-- A text that is read as an argument of a call. -/
def ArgSound (text : String) (m : Option String × Expr) : Prop :=
  ∃ ls, Spells text.toList ls ∧ ReadsArg ls (ArgMeans m)

/-- The arguments known by their place. -/
def positionalOf (ms : List (Option String × Expr)) : List Expr :=
  ms.filterMap fun
    | (none, e) => some e
    | (some _, _) => none

/-- The arguments known by their name. -/
def keywordsOf (ms : List (Option String × Expr)) : List (String × Expr) :=
  ms.filterMap fun
    | (none, _) => none
    | (some key, e) => some (key, e)

theorem Sound.argument {r : Rendered} (h : Sound r e) : ArgSound r.text (none, e) := by
  obtain ⟨ls, hs, hr⟩ := h
  exact ⟨ls, hs, hr.readsAt.positional⟩

theorem Sound.keyword {r : Rendered} (h : Sound r e) {key text : String}
    (hk : Text.isIdentifier key.toList) (ht : text.toList = key.toList ++ '=' :: r.text.toList) :
    ArgSound text (some key, e) := by
  obtain ⟨ls, hs, hr⟩ := h
  refine ⟨_, ?_, hr.readsAt.keyword key⟩
  obtain ⟨l, more, rfl, -⟩ := hr.readsAt.begins
  rw [ht]
  cases hr : r.text.toList with
  | nil =>
    rw [hr] at hs
    exact absurd hs.lexes.eq_nil (by simp)
  | cons c cs =>
    rw [hr] at hs
    have hc : c ≠ '=' := by simpa using hs.starts
    have heq : Lexes ('=' :: c :: cs) (.sign "=" :: l :: more) := hs.lexes.equals hc
    have hk' := Spells.name hk
    refine ⟨hk'.lexes.append heq (.cons (by decide) _),
      hk'.quiet.append (hs.quiet.cons (by decide)), ?_⟩
    cases hkey : key.toList with
    | nil => exact absurd hk (by rw [hkey]; decide)
    | cons d ds =>
      have := hk'.starts
      rw [hkey] at this
      simpa using this

theorem toExprs_of_argMeans {ms : List (Option String × Expr)} {as : List CallArg}
    (h : List.Forall₂ ArgMeans ms as) :
    Term.toExprs {} (positionalArgs as) = .ok (positionalOf ms) := by
  induction h with
  | nil => rfl
  | @cons m a ms as ha _ ih =>
    obtain ⟨_ | key, e⟩ := m
    · obtain ⟨x, rfl, hx⟩ := ha
      rw [Means] at hx
      simp only [positionalArgs, positionalOf, List.filterMap_cons] at ih ⊢
      simp [Term.toExprs, hx, ih]
    · obtain ⟨x, rfl, -⟩ := ha
      exact ih

theorem toKeywords_of_argMeans {ms : List (Option String × Expr)} {as : List CallArg}
    (h : List.Forall₂ ArgMeans ms as) :
    Term.toKeywords {} (keywordArgs as) = .ok (keywordsOf ms) := by
  induction h with
  | nil => rfl
  | @cons m a ms as ha _ ih =>
    obtain ⟨_ | key, e⟩ := m
    · obtain ⟨x, rfl, -⟩ := ha
      exact ih
    · obtain ⟨x, rfl, hx⟩ := ha
      rw [Means] at hx
      simp only [keywordArgs, keywordsOf, List.filterMap_cons] at ih ⊢
      simp [Term.toKeywords, hx, ih]

/-! ### The text of a call -/

theorem dots_spells {more : List (List Char)} (h : ∀ name ∈ more, Text.isIdentifier name) :
    Spells (more.flatMap ('.' :: ·))
      (more.flatMap fun name => [.sign ".", ⟨.name, name⟩]) ∧ Parts (more.flatMap ('.' :: ·)) := by
  induction more with
  | nil => exact ⟨.nil, .nil⟩
  | cons name more ih =>
    rw [List.forall_mem_cons] at h
    obtain ⟨hs, hp⟩ := ih h.2
    refine ⟨.lone (by decide) ?_, .dot (List.forall_mem_nil _) h.1 _⟩
    exact (Spells.name h.1).append hs hp

theorem moreArgs_spells {texts : List String} {lss : List (List Lexeme)}
    (h : List.Forall₂ (fun text ls => Spells text.toList ls) texts lss) :
    Spells (texts.flatMap (fun text => ", ".toList ++ text.toList) ++ [')'])
      (moreArgs lss ++ [.sign ")"]) ∧
    Parts (texts.flatMap (fun text => ", ".toList ++ text.toList) ++ [')']) := by
  induction h with
  | nil => exact ⟨.lone (by decide) .nil, .cons (by decide) _⟩
  | @cons text ls texts lss ht _ ih =>
    refine ⟨?_, .cons (by decide) _⟩
    have hcomma : Spells (',' :: ' ' :: _) (.sign "," :: (ls ++ (moreArgs lss ++ [.sign ")"]))) :=
      .lone (by decide) (ht.append ih.1 ih.2).space
    simpa [moreArgs, List.append_assoc] using hcomma

/-- The names of filters, possibly with dots. -/
def isFilterName (name : String) : Bool :=
  (name.toList.splitOn '.').all Text.isIdentifier

theorem callText_spells {name : String} (hname : isFilterName name) {texts : List String}
    {lss : List (List Lexeme)}
    (h : List.Forall₂ (fun text ls => Spells text.toList ls) texts lss) :
    ∃ first more, String.ofList (first ++ more.flatMap ('.' :: ·)) = name ∧
      Spells (callText name texts).toList (dottedLexemes first more ++ argLexemes lss) := by
  rw [isFilterName, List.all_eq_true] at hname
  have hsplit : ['.'].intercalate (name.toList.splitOn '.') = name.toList :=
    List.intercalate_splitOn '.'
  cases hn : name.toList.splitOn '.' with
  | nil => exact absurd hn (List.splitOn_ne_nil _ _)
  | cons first more =>
    rw [hn, List.forall_mem_cons] at hname
    rw [hn, Text.intercalate_cons] at hsplit
    refine ⟨first, more, ?_, ?_⟩
    · rw [← String.toList_inj, ← hsplit]
      simp
    · obtain ⟨hdots, hparts⟩ := dots_spells hname.2
      have hspell : Spells name.toList (dottedLexemes first more) := by
        rw [← hsplit]
        exact (Spells.name hname.1).append hdots hparts
      cases h with
      | nil => simpa [callText, argLexemes] using hspell
      | @cons text ls texts lss ht hmore =>
        obtain ⟨hs, hp⟩ := moreArgs_spells hmore
        have hargs : Spells (name.toList ++ '(' :: _)
            (dottedLexemes first more ++ .sign "(" :: (ls ++ (moreArgs lss ++ [.sign ")"]))) :=
          hspell.append (.lone (by decide) (ht.append hs hp)) (.cons (by decide) _)
        simpa [callText, argLexemes, Text.intercalate_cons, List.flatMap_map] using hargs

/-! ### Filters -/

/-- The lexemes of texts that are read as arguments. -/
theorem exists_lexemes {texts : List String} {ms : List (Option String × Expr)}
    (h : List.Forall₂ ArgSound texts ms) :
    ∃ lss, List.Forall₂ (fun text ls => Spells text.toList ls) texts lss ∧
      List.Forall₂ ReadsArg lss (ms.map ArgMeans) := by
  induction h with
  | nil => exact ⟨[], .nil, .nil⟩
  | cons ht _ ih =>
    obtain ⟨ls, hs, hr⟩ := ht
    obtain ⟨lss, hss, hrs⟩ := ih
    exact ⟨ls :: lss, .cons hs hss, .cons hr hrs⟩

/-- A step that is written as a filter. -/
theorem extend_filter {acc : Rendered} {arg : Step Argument} {step : Step Expr} (name : String)
    (texts : List String) (ms : List (Option String × Expr)) (hacc : Sound acc e)
    (he : isOpposite e = false) (hname : isFilterName name) (hargs : List.Forall₂ ArgSound texts ms)
    (hop : arg.operator? = none) (htext : stepText arg = .ok (callText name texts))
    (hstep : filterStep ⟨name, positionalOf ms, keywordsOf ms⟩ = .ok step) :
    ∃ r, grammar.extend acc arg = .ok r ∧ Sound r (e.pipe step) ∧ r.form = .pipe := by
  obtain ⟨s, ls, hgs, hs, hls⟩ : ∃ text ls,
      grammar.group acc.text (Grammar.needsPipe acc.form) = .ok text ∧
        Spells text.toList ls ∧ ExtendsAt 1 ls (Means e) := by
    refine hacc.group (fun hneed ls hr => ?_) fun ls hr => hr.readsAt.extendsAt_of_lt (by omega) rfl
    cases hf : acc.form with
    | atom =>
      rw [hf] at hr
      exact hr.2 he
    | pipe =>
      rw [hf] at hr
      exact hr
    | operator p => simp [hf, Grammar.needsPipe] at hneed
  obtain ⟨lss, hss, hrs⟩ := exists_lexemes hargs
  obtain ⟨first, more, hjoin, hcall⟩ := callText_spells hname hss
  refine ⟨⟨s ++ " | " ++ callText name texts, .pipe⟩, ?_, ⟨_, ?_, hls.filter first more hrs ?_⟩,
    rfl⟩
  · have hgt : grammar.step arg = stepText arg := rfl
    simp only [Grammar.extend, hop, Grammar.extendFilter, hgt, htext, ok_bind, hgs]
    rfl
  · have hbar : Spells (s.toList ++ ' ' :: '|' :: ' ' :: _)
        (ls ++ .sign "|" :: (dottedLexemes first more ++ argLexemes lss)) :=
      hs.append (.space (.lone (by decide) hcall.space)) (.cons (by decide) _)
    simpa using hbar
  · intro x as hx has
    rw [List.forall₂_map_left_iff] at has
    rw [Means] at hx ⊢
    rw [hjoin]
    simp [Term.toExpr, hx, toExprs_of_argMeans has, toKeywords_of_argMeans has, hstep]

/-- An expression that is written as a sound text. -/
def Written (e : Expr) : Prop :=
  ∃ r, grammar.render e = .ok r ∧ Sound r e

/-- The argument that an expression is written as. -/
def argumentOf (e : Expr) : Argument :=
  ⟨e, grammar.render e⟩

theorem argTexts_sound {es : List Expr} (h : ∀ a ∈ es, Written a) :
    ∃ texts, argTexts (es.map argumentOf) = .ok texts ∧
      List.Forall₂ ArgSound texts (es.map (none, ·)) := by
  induction es with
  | nil => exact ⟨[], rfl, .nil⟩
  | cons a es ih =>
    rw [List.forall_mem_cons] at h
    obtain ⟨⟨r, hr, hs⟩, h⟩ := h
    obtain ⟨texts, ht, hts⟩ := ih h
    refine ⟨r.text :: texts, ?_, .cons hs.argument hts⟩
    simp only [List.map_cons, argTexts, ht, argumentOf, Argument.text, hr, map_ok, ok_bind]
    rfl

@[simp] theorem positionalOf_map (es : List Expr) : positionalOf (es.map (none, ·)) = es := by
  simp [positionalOf, List.filterMap_map]

@[simp] theorem keywordsOf_map (es : List Expr) : keywordsOf (es.map (none, ·)) = [] := by
  simp [keywordsOf, List.filterMap_map]

/-- The literals of truth values. -/
theorem sound_boolText (b : Bool) : Sound ⟨boolText b, .atom⟩ (.literal (boolText b)) := by
  have hroot : isPlainRoot (.literal (boolText b)) := by cases b <;> decide
  obtain ⟨text, ls, hw, hs, hr⟩ := writeRoot_spells (isReadRoot_of_isPlainRoot hroot)
  cases hw
  exact ⟨ls, hs, .atom hr⟩

/-- The filters whose arguments are not a plain list. -/
def specialFilters : List String :=
  ["truncate", "replace", "selectattr", "sort"]

theorem filterStep_of_notMem {name : String} (h : name ∉ specialFilters) (es : List Expr) :
    filterStep ⟨name, es, []⟩ = .ok (match Builtin.ofNunjucks? name with
      | some filter => .apply (.builtin filter) es
      | none => .apply (.custom name) es) := by
  simp only [specialFilters, List.mem_cons, List.not_mem_nil, or_false, not_or] at h
  unfold filterStep
  split
  all_goals simp_all [FilterArgs.positionalOnly]
  cases Builtin.ofNunjucks? name <;> rfl

/-! ### Plain expressions -/

/-- The steps that are read back: operators with as many operands as they take, and filters that
their name and arguments determine. -/
def isPlainStep : Step Expr → Bool
  | .apply (.op op) args => args.length == if op.isUnary then 0 else 1
  | .apply (.builtin _) _ => true
  | .apply (.custom name) _ => isFilterName name && !specialFilters.contains name &&
      (Builtin.ofNunjucks? name).isNone
  | .truncate _ ellipsis killWords => ellipsis.isSome || !killWords
  | .replace .. => true
  | .select _ value => value.bind Expr.literal? != some "true"
  | .sort .. => true

/-- The step applies a comparison or membership. -/
def bindsAsComparison (s : Step Expr) : Bool :=
  s.operator?.any Operator.isComparison

/-- The step applies a comparison. -/
def compares (s : Step Expr) : Bool :=
  s.operator?.any fun op => op.isComparison && op != .contains

/-- The expressions that are read back: those of plain chains and steps, at any depth, in which no
comparison comes right after a comparison or membership. -/
inductive Plain : Expr → Prop
  | intro {chain : List Part} {steps : List (Step Expr)} (hchain : isPlainChain chain)
      (hsteps : ∀ s ∈ steps, isPlainStep s) (hargs : ∀ s ∈ steps, ∀ a ∈ s.args, Plain a)
      (hcompare : steps.IsChain fun s t => ¬ (bindsAsComparison s ∧ compares t)) :
      Plain ⟨chain, steps⟩

/-- The expressions that are read back when names may also be words of the language, and numbers
negative ones. The first step after a negative number must be an operator. -/
inductive Readable : Expr → Prop
  | intro {chain : List Part} {steps : List (Step Expr)}
      (hchain : isReadChain chain || isNegative chain) (hsteps : ∀ s ∈ steps, isPlainStep s)
      (hargs : ∀ s ∈ steps, ∀ a ∈ s.args, Readable a)
      (hopposite : isNegative chain → ∀ s ∈ steps.head?, s.operator? ≠ none)
      (hcompare : steps.IsChain fun s t => ¬ (bindsAsComparison s ∧ compares t)) :
      Readable ⟨chain, steps⟩

theorem Plain.readable (h : Plain e) : Readable e := by
  induction h with
  | intro hchain hsteps _ hcompare ih =>
    have hread := isReadChain_of_isPlainChain hchain
    exact .intro (by simp [hread]) hsteps ih (by simp [isNegative_of_isReadChain hread]) hcompare

/-! ### One step -/

section Steps

variable {acc : Rendered}

theorem extend_operator_sound {op : Operator} {args : List Expr} (hacc : Sound acc e)
    (hs : isPlainStep (.apply (.op op) args)) (hargs : ∀ a ∈ args, Written a)
    (hc : compares (.apply (.op op) args) → acc.form ≠ .operator 30) :
    ∃ r, grammar.extend acc (.apply (.op op) (args.map argumentOf)) = .ok r ∧
      Sound r (e.pipe (.apply (.op op) args)) ∧ r.form = .operator op.precedence := by
  rw [isPlainStep, beq_iff_eq] at hs
  by_cases hn : op = .not
  · subst hn
    obtain rfl := List.eq_nil_of_length_eq_zero hs
    exact extend_not hacc
  · have hu : op.isUnary = false := by
      cases op <;> first | rfl | exact absurd rfl hn
    rw [hu] at hs
    obtain ⟨a, rfl⟩ := List.length_eq_one_iff.mp hs
    obtain ⟨right, hr, ha⟩ := hargs a List.mem_cons_self
    by_cases hcmp : op.isComparison
    · by_cases hcon : op = .contains
      · subst hcon
        exact extend_contains hacc hr ha
      · exact extend_comparison hacc hr ha hcmp hcon
          (hc (by simp [compares, Step.operator?, hcmp, hcon]))
    · exact extend_binary hacc hr ha (by simpa using hcmp) hn

theorem extend_apply_sound {name : StepName} {args : List Expr} {text : String}
    (hacc : Sound acc e) (he : isOpposite e = false) (hargs : ∀ a ∈ args, Written a)
    (hname : stepName name = .ok text)
    (hfilter : isFilterName text) (hstep : filterStep ⟨text, args, []⟩ = .ok (.apply name args)) :
    ∃ r, grammar.extend acc (.apply name (args.map argumentOf)) = .ok r ∧
      Sound r (e.pipe (.apply name args)) ∧ r.form = .pipe := by
  obtain ⟨texts, ht, hts⟩ := argTexts_sound hargs
  refine extend_filter text texts _ hacc he hfilter hts ?_ ?_ (by simpa using hstep)
  · cases name with
    | op => cases hname
    | builtin => rfl
    | custom => rfl
  · rw [stepText, hname, ok_bind, ht]
    rfl

theorem extend_truncate_sound {length : Expr} {ellipsis : Option Expr} {killWords : Bool}
    (hacc : Sound acc e) (he : isOpposite e = false)
    (hs : isPlainStep (.truncate length ellipsis killWords))
    (hargs : ∀ a ∈ (Step.truncate length ellipsis killWords).args, Written a) :
    ∃ r, grammar.extend acc (.truncate (argumentOf length) (ellipsis.map argumentOf) killWords) =
        .ok r ∧
      Sound r (e.pipe (.truncate length ellipsis killWords)) ∧ r.form = .pipe := by
  obtain ⟨rl, hl, hsl⟩ := hargs length (by simp [Step.args])
  cases ellipsis with
  | none =>
    have hk : killWords = false := by simpa [isPlainStep] using hs
    subst hk
    refine extend_filter "truncate" [rl.text] [(none, length)] hacc he (by decide)
      (.cons hsl.argument .nil) rfl ?_ rfl
    simp [stepText, argumentOf, Argument.text, hl, truncateArgs]
  | some ellipsis =>
    obtain ⟨re, hre, hse⟩ := hargs ellipsis (by simp [Step.args])
    refine extend_filter "truncate" [rl.text, boolText killWords, re.text]
      [(none, length), (none, .literal (boolText killWords)), (none, ellipsis)] hacc he (by decide)
      (.cons hsl.argument (.cons (sound_boolText killWords).argument (.cons hse.argument .nil)))
      rfl ?_ ?_
    · simp [stepText, argumentOf, Argument.text, hl, hre, truncateArgs]
    · cases killWords <;> rfl

theorem extend_replace_sound {old new : Expr} {count : Option Expr} (hacc : Sound acc e)
    (he : isOpposite e = false) (hargs : ∀ a ∈ (Step.replace old new count).args, Written a) :
    ∃ r, grammar.extend acc
        (.replace (argumentOf old) (argumentOf new) (count.map argumentOf)) = .ok r ∧
      Sound r (e.pipe (.replace old new count)) ∧ r.form = .pipe := by
  obtain ⟨texts, ht, hts⟩ := argTexts_sound hargs
  refine extend_filter "replace" texts _ hacc he (by decide) hts rfl ?_ ?_
  · rw [stepText]
    cases count <;> simp [Step.args] at ht ⊢ <;> rw [ht] <;> rfl
  · rw [positionalOf_map, keywordsOf_map]
    cases count <;> rfl

theorem extend_select_sound {key : Expr} {value : Option Expr} (hacc : Sound acc e)
    (he : isOpposite e = false) (hs : isPlainStep (.select key value))
    (hargs : ∀ a ∈ (Step.select key value).args, Written a) :
    ∃ r, grammar.extend acc (.select (argumentOf key) (value.map argumentOf)) = .ok r ∧
      Sound r (e.pipe (.select key value)) ∧ r.form = .pipe := by
  obtain ⟨texts, ht, hts⟩ := argTexts_sound hargs
  refine extend_filter "selectattr" texts _ hacc he (by decide) hts rfl ?_ ?_
  · rw [stepText]
    cases value with
    | none =>
      simp [Step.args] at ht
      simp [selectArgs, ht]
    | some value =>
      have hv : value.literal? ≠ some "true" := by simpa [isPlainStep] using hs
      simp [Step.args] at ht
      simp [selectArgs, argumentOf, hv] at ht ⊢
      rw [ht]
      rfl
  · rw [positionalOf_map, keywordsOf_map]
    cases value <;> rfl

theorem extend_sort_sound {key : Option Expr} {reverse : Bool} (hacc : Sound acc e)
    (he : isOpposite e = false) (hargs : ∀ a ∈ (Step.sort key reverse).args, Written a) :
    ∃ r, grammar.extend acc (.sort (key.map argumentOf) reverse) = .ok r ∧
      Sound r (e.pipe (.sort key reverse)) ∧ r.form = .pipe := by
  obtain ⟨texts, ht, hts⟩ : ∃ texts, sortKey (key.map argumentOf) = .ok texts ∧
      List.Forall₂ ArgSound texts (key.toList.map (some "attribute", ·)) := by
    cases key with
    | none => exact ⟨[], rfl, .nil⟩
    | some key =>
      obtain ⟨r, hr, hs⟩ := hargs key (by simp [Step.args])
      have hkey : ArgSound ("attribute=" ++ r.text) (some "attribute", key) :=
        hs.keyword (by decide) (by simp)
      refine ⟨["attribute=" ++ r.text], ?_, .cons hkey .nil⟩
      simp [sortKey, argumentOf, Argument.text, hr]
  have hrev : List.Forall₂ ArgSound (if reverse then ["reverse=true"] else [])
      (if reverse then [(some "reverse", .literal "true")] else []) := by
    cases reverse with
    | false => exact .nil
    | true => exact .cons ((sound_boolText true).keyword (by decide) (by decide)) .nil
  refine extend_filter "sort" (texts ++ if reverse then ["reverse=true"] else [])
    (key.toList.map (some "attribute", ·) ++
      if reverse then [(some "reverse", .literal "true")] else []) hacc he (by decide)
    (List.rel_append hts hrev) rfl ?_ ?_
  · rw [stepText, ht]
    rfl
  · cases key <;> cases reverse <;> rfl

/-- One step keeps a written expression sound, if it is no filter of a negative number. A text of
the form of a comparison comes from a step that is one or is membership. -/
theorem extend_sound {s : Step Expr} (hacc : Sound acc e) (hs : isPlainStep s)
    (hargs : ∀ a ∈ s.args, Written a) (he : s.operator? = none → isOpposite e = false)
    (hc : compares s → acc.form ≠ .operator 30) :
    ∃ r, grammar.extend acc (grammar.renderArgs s) = .ok r ∧ Sound r (e.pipe s) ∧
      (r.form = .operator 30 → bindsAsComparison s) := by
  rw [Grammar.renderArgs_eq_map]
  cases s with
  | apply name args =>
    cases name with
    | op op =>
      obtain ⟨r, hr, hsound, hform⟩ := extend_operator_sound hacc hs hargs hc
      refine ⟨r, hr, hsound, fun h30 => ?_⟩
      rw [hform, Form.operator.injEq] at h30
      simp [bindsAsComparison, Step.operator?, Operator.isComparison, h30]
    | builtin filter =>
      have hname : filter.nunjucksName ∉ specialFilters := by cases filter <;> decide
      have hstep := filterStep_of_notMem hname args
      rw [Builtin.ofNunjucks?_nunjucksName] at hstep
      obtain ⟨r, hr, hsound, hform⟩ := extend_apply_sound hacc (he rfl) hargs rfl
        (by cases filter <;> decide) hstep
      exact ⟨r, hr, hsound, by simp [hform]⟩
    | custom name =>
      simp only [isPlainStep, Bool.and_eq_true, Bool.not_eq_true', List.contains_eq_mem,
        decide_eq_false_iff_not, Option.isNone_iff_eq_none] at hs
      have hstep := filterStep_of_notMem hs.1.2 args
      rw [hs.2] at hstep
      obtain ⟨r, hr, hsound, hform⟩ := extend_apply_sound hacc (he rfl) hargs rfl hs.1.1 hstep
      exact ⟨r, hr, hsound, by simp [hform]⟩
  | truncate length ellipsis killWords =>
    obtain ⟨r, hr, hsound, hform⟩ := extend_truncate_sound hacc (he rfl) hs hargs
    exact ⟨r, hr, hsound, by simp [hform]⟩
  | replace old new count =>
    obtain ⟨r, hr, hsound, hform⟩ := extend_replace_sound hacc (he rfl) hargs
    exact ⟨r, hr, hsound, by simp [hform]⟩
  | select key value =>
    obtain ⟨r, hr, hsound, hform⟩ := extend_select_sound hacc (he rfl) hs hargs
    exact ⟨r, hr, hsound, by simp [hform]⟩
  | sort key reverse =>
    obtain ⟨r, hr, hsound, hform⟩ := extend_sort_sound hacc (he rfl) hargs
    exact ⟨r, hr, hsound, by simp [hform]⟩

end Steps

/-! ### Whole pipelines -/

/-- A pipeline keeps a written expression sound. Its first step must not be a comparison if the text
so far has the form of one, nor a filter if there is only a negative number so far. -/
theorem renderSteps_sound {chain : List Part} {done steps : List (Step Expr)} {acc : Rendered}
    (hacc : Sound acc ⟨chain, done⟩) (hsteps : ∀ s ∈ steps, isPlainStep s)
    (hargs : ∀ s ∈ steps, ∀ a ∈ s.args, Written a)
    (hopposite : ∀ s ∈ steps.head?, s.operator? = none → isOpposite ⟨chain, done⟩ = false)
    (hcompare : steps.IsChain fun s t => ¬ (bindsAsComparison s ∧ compares t))
    (hfirst : ∀ s ∈ steps.head?, compares s → acc.form ≠ .operator 30) :
    ∃ r, grammar.renderSteps steps acc = .ok r ∧ Sound r ⟨chain, done ++ steps⟩ := by
  induction steps generalizing acc done with
  | nil =>
    refine ⟨acc, rfl, ?_⟩
    rw [List.append_nil]
    exact hacc
  | cons s steps ih =>
    rw [List.forall_mem_cons] at hsteps hargs
    obtain ⟨r₁, hr₁, hs₁, hform⟩ :=
      extend_sound hacc hsteps.1 hargs.1 (hopposite s rfl) (hfirst s rfl)
    have hnext : ∀ t ∈ steps.head?, compares t → r₁.form ≠ .operator 30 := by
      intro t ht hct h30
      obtain ⟨steps, rfl⟩ := List.head?_eq_some_iff.mp ht
      exact (List.isChain_cons_cons.mp hcompare).1 ⟨hform h30, hct⟩
    have hpiped : isOpposite ⟨chain, done ++ [s]⟩ = false := by simp [isOpposite]
    obtain ⟨r, hr, hs⟩ := ih hs₁ hsteps.2 hargs.2 (fun _ _ _ => hpiped) hcompare.of_cons hnext
    refine ⟨r, ?_, by simpa using hs⟩
    rw [Grammar.renderSteps, hr₁, ok_bind, hr]

/-- A chain is written, and its text is sound. -/
theorem write_sound {chain : List Part} (h : isReadChain chain || isNegative chain) :
    ∃ text, chainWords.write chain = .ok text ∧ Sound ⟨text, .atom⟩ (.ofChain chain) := by
  rw [Bool.or_eq_true] at h
  rcases h with h | h
  · obtain ⟨text, ls, hw, hs, hr⟩ := write_spells h
    exact ⟨text, hw, ls, hs, .atom hr⟩
  · obtain ⟨text, ls, hw, hs, hr⟩ := write_negative h
    have hopposite : isOpposite (.ofChain chain) := by simp [isOpposite, Expr.ofChain, h]
    exact ⟨text, hw, ls, hs, hr, by simp [hopposite]⟩

/-- An expression that can be read is written, and its text is read as that expression. -/
theorem Readable.written (h : Readable e) : Written e := by
  induction h with
  | @intro chain steps hchain hsteps _ hopposite hcompare ih =>
    obtain ⟨text, hw, hroot⟩ := write_sound hchain
    have hfirst : ∀ s ∈ steps.head?, s.operator? = none → isOpposite (.ofChain chain) = false := by
      intro s hs hfilter
      have hne : isNegative chain = false := by
        by_contra hneg
        exact hopposite (by simpa using hneg) s hs hfilter
      simp [isOpposite, Expr.ofChain, hne]
    obtain ⟨r, hrs, hsound⟩ := renderSteps_sound hroot hsteps ih hfirst hcompare (by simp)
    have hgc : grammar.chain chain = .ok text := hw
    refine ⟨grammar.wrap ⟨chain, steps⟩ r, ?_, ?_⟩
    · rw [Grammar.render, hgc, ok_bind, hrs]
      rfl
    · rw [List.nil_append] at hsound
      rw [Grammar.wrap]
      split
      · obtain ⟨ls, hs, hr⟩ := hsound
        obtain ⟨ls', hs', hr'⟩ := parens_spells hs hr.readsAt
        exact ⟨ls', hs', .atom hr'⟩
      · exact hsound

/-- A plain expression is written, and its text is read as that expression. -/
theorem render_sound (h : Plain e) : Written e :=
  h.readable.written

/-! ### Outputs -/

/-- The text of a whole term, put into an output, is read as the output of that term. -/
theorem parse_output {s : List Char} {ls : List Lexeme} {P : Term → Prop} (hs : Lexes s ls)
    (h : ReadsAt 12 ls P) (trim : Trim) :
    ∃ pos x, P x ∧
      parse (opener '{' trim.left ++ (s ++ closer '}' trim.right)) = .ok [.output pos x] := by
  have htext : opener '{' trim.left ++ (s ++ closer '}' trim.right) =
      opener '{' trim.left ++ (s ++ closer '}' trim.right ++ []) := by simp
  obtain ⟨ts, hts, hlex⟩ := hs (0 + Text.byteLength (opener '{' trim.left))
    (closer '}' trim.right ++ []) (.cons (by decide) _)
  obtain ⟨closing, hclose⟩ := lex_closer (by decide : ('}', .outputEnd) ∈ closers) trim.right
    (0 + Text.byteLength (opener '{' trim.left) + Text.byteLength s) []
  rw [hclose, ← List.append_assoc] at hlex
  obtain ⟨x, hx, hterm⟩ := readOutputTerm_of_readsAt h hts closing
  refine ⟨Inside.start ⟨ts, ⟨.outputEnd, closing⟩⟩, x, hx, ?_⟩
  rw [parse, chunks, dif_neg (by simp [opener]), htext, readChunk_opener_output, hlex, chunks]
  simp only [dite_true, Inside.prepend, List.append_nil, Nesting.run, feed, hterm, map_ok]
  rfl

/-- A source that is one output once its comments are lifted out. -/
theorem read_output {source : String} {s : List Char} {cs : List Comment} {ls : List Lexeme}
    (hl : liftComments source.toList = ⟨'{' :: '{' :: ' ' :: (s ++ [' ', '}', '}']), cs⟩)
    (hs : Lexes s ls) (hr : ReadsAt 12 ls (Means e))
    (hc : ∀ x lifted, Means e x → Lifted.comments lifted = cs → lifted.termComment? x = none) :
    ∃ trim, read source = .ok [.output e trim] := by
  obtain ⟨pos, x, hx, hparse⟩ := parse_output hs hr .unset
  have htext : opener '{' false ++ (s ++ closer '}' false) =
      '{' :: '{' :: ' ' :: (s ++ [' ', '}', '}']) := by simp [opener, closer, Markup.marker]
  rw [Trim.unset, htext] at hparse
  refine ⟨Lifted.markers ⟨'{' :: '{' :: ' ' :: (s ++ [' ', '}', '}']), cs⟩ pos, ?_⟩
  have hcomment := hc x ⟨'{' :: '{' :: ' ' :: (s ++ [' ', '}', '}']), cs⟩ hx rfl
  rw [Means] at hx
  rw [read, hl]
  simp [hparse, Element.toNodes, Element.toNode, Lifted.outputNode, hcomment, hx]

/-- The template of a source that stands in a scope. Outside loops this is `read`. -/
def readIn (scope : Scope) (source : String) : Except ReadError (List Node) :=
  let lifted := liftComments source.toList
  (parse lifted.source).bind (Element.toNodes lifted scope)

/-- A text of a whole term without comments, put into an output, is read as the output of what the
term stands for. -/
theorem readIn_output_of_readsAt {text : String} {ls : List Lexeme} {P : Term → Prop}
    (hs : Spells text.toList ls) (hr : ReadsAt 12 ls P) (trim : Trim) (scope : Scope) :
    ∃ x trim', P x ∧
      readIn scope (Markup.output text trim) = (x.toExpr scope).map fun e => [.output e trim'] := by
  obtain ⟨pos, x, hx, hparse⟩ := parse_output hs.lexes hr trim
  have hquiet : Quiet (opener '{' trim.left ++ (text.toList ++ closer '}' trim.right)) := by
    obtain ⟨_ | _, _ | _⟩ := trim <;>
      exact .append ⟨by decide, by decide⟩ (hs.quiet.append ⟨by decide, by decide⟩)
  have hlift := (Lifts.quiet hquiet).liftComments
  refine ⟨x,
    Lifted.markers ⟨opener '{' trim.left ++ (text.toList ++ closer '}' trim.right), []⟩ pos, hx, ?_⟩
  have hcomment : ∀ source, Lifted.termComment? ⟨source, []⟩ x = none := by
    intro source
    cases x <;> simp [Lifted.termComment?, Lifted.comment?]
  rw [readIn, toList_output, hlift]
  simp only [hparse, bind_ok, Element.toNodes, Element.toNode, Lifted.outputNode, hcomment]
  cases x.toExpr scope <;> rfl

theorem read_output_of_readsAt {text : String} {ls : List Lexeme} {P : Term → Prop}
    (hs : Spells text.toList ls) (hr : ReadsAt 12 ls P) (trim : Trim) :
    ∃ x trim', P x ∧
      read (Markup.output text trim) = (x.toExpr {}).map fun e => [.output e trim'] :=
  readIn_output_of_readsAt hs hr trim {}

/-- An expression that can be read is written, and its output is read as the output of that
expression. -/
theorem Readable.read_output (h : Readable e) (trim : Trim) :
    ∃ text trim', grammar.text e = .ok text ∧
      read (Markup.output text trim) = .ok [.output e trim'] := by
  obtain ⟨r, hr, ls, hs, hform⟩ := h.written
  obtain ⟨x, trim', hx, hread⟩ := read_output_of_readsAt hs hform.readsAt trim
  rw [Means] at hx
  exact ⟨r.text, trim', by simp [Grammar.text, hr], by rw [hread, hx, map_ok]⟩

/-- The written text of a plain expression, put into an output, is read as the output of that
expression and nothing else. The markers are found by a search for delimiters, which also finds
those inside strings. -/
theorem read_text_of_plain (e : Expr) (h : Plain e) :
    ∃ text, grammar.text e = .ok text ∧
      ∃ trim, read ("\x7b\x7b " ++ text ++ " \x7d\x7d") = .ok [.output e trim] := by
  obtain ⟨r, hr, ls, hs, hform⟩ := render_sound h
  refine ⟨r.text, by simp [Grammar.text, hr], ?_⟩
  have hquiet : Quiet ('{' :: '{' :: ' ' :: (r.text.toList ++ [' ', '}', '}'])) :=
    Text.Lacks.append (s := ['{', '{', ' ']) ⟨by decide, by decide⟩
      (hs.quiet.append ⟨by decide, by decide⟩)
  have hlift := (Lifts.quiet hquiet).liftComments
  refine read_output (by simpa using hlift) hs.lexes hform.readsAt fun x lifted _ hl => ?_
  cases x <;> simp [Lifted.termComment?, Lifted.comment?, hl]

theorem plain_of_chain {chain : List Part} (h : isPlainChain chain) : Plain (.ofChain chain) :=
  .intro h (by simp) (by simp) .nil

/-- Three operators of different strength and a filter with an argument. -/
theorem read_text_of_plain_product :
    let e := ((((Expr.ident "price").apply .add (.literal "1")).apply .multiply
      (.ofChain [.ident "qty", .literal "'a b'", .index 0])).builtin .round [.literal "2"]).negate
    Plain e ∧ ∃ text, grammar.text e = .ok text ∧
      ∃ trim, read ("\x7b\x7b " ++ text ++ " \x7d\x7d") = .ok [.output e trim] := by
  intro e
  have h : Plain e := by
    refine .intro (by decide +kernel) (by decide +kernel) ?_ ?_
    · intro s hs a ha
      simp [Expr.builtin, Expr.apply, Expr.pipe, Expr.ident, Expr.ofChain, Operator.isUnary] at hs
      rcases hs with rfl | rfl | rfl | rfl
      all_goals simp [Step.args] at ha
      all_goals
        subst ha
        exact plain_of_chain (by decide +kernel)
    · simp [Expr.builtin, Expr.apply, Expr.pipe, Expr.ident, Expr.ofChain, compares,
        Operator.isComparison, Operator.precedence, Step.operator?]
  exact ⟨h, read_text_of_plain e h⟩

/-- A comment inside the string of a subscript is lifted out of it, so the chain is read as another
one. -/
theorem read_text_of_commented_subscript :
    let e : Expr := .ofChain [.ident "a", .literal "'\x7b# x #\x7d'"]
    Text.isString "'\x7b# x #\x7d'".toList ∧
      Text.isIdentifier (Text.unquoted "'\x7b# x #\x7d'") = false ∧
      ∃ text, grammar.text e = .ok text ∧
        ∀ trim, read ("\x7b\x7b " ++ text ++ " \x7d\x7d") ≠ .ok [.output e trim] := by
  intro e
  refine ⟨by decide, by decide, "a['\x7b# x #\x7d']", rfl, fun trim hread => ?_⟩
  have hchain : isPlainChain [.ident "a", .literal "'\x7b\x7b __COMMENT_0__ \x7d\x7d'"] := by
    decide +kernel
  have hwrite : chainWords.write [.ident "a", .literal "'\x7b\x7b __COMMENT_0__ \x7d\x7d'"] =
      .ok "a['\x7b\x7b __COMMENT_0__ \x7d\x7d']" := rfl
  obtain ⟨text, ls, hw, hs, hr⟩ := write_spells (isReadChain_of_isPlainChain hchain)
  rw [hwrite, Except.ok.injEq] at hw
  rw [← hw] at hs
  have hsource : "\x7b\x7b a['\x7b# x #\x7d'] \x7d\x7d".toList = "\x7b\x7b a['".toList ++
      ("\x7b#".toList ++ " x ".toList ++ "#\x7d".toList) ++ "'] \x7d\x7d".toList := by decide
  have hleft : "\x7b\x7b a['".toList ++ placeholder 0 ++ "'] \x7d\x7d".toList =
      '{' :: '{' :: ' ' :: ("a['\x7b\x7b __COMMENT_0__ \x7d\x7d']".toList ++ [' ', '}', '}']) := by
    decide
  have h₁ : Lifts "\x7b\x7b a['".toList _ := .quiet ⟨by decide +kernel, by decide⟩
  have h₂ : Lifts ("\x7b#".toList ++ " x ".toList ++ "#\x7d".toList) _ :=
    .comment (by decide +kernel)
  have h₃ : Lifts "'] \x7d\x7d".toList _ := .quiet ⟨by decide +kernel, by decide⟩
  have hlift : liftComments "\x7b\x7b a['\x7b# x #\x7d'] \x7d\x7d".toList =
      ⟨'{' :: '{' :: ' ' :: ("a['\x7b\x7b __COMMENT_0__ \x7d\x7d']".toList ++ [' ', '}', '}']),
        [.ofInner " x ".toList]⟩ := by
    rw [hsource, ((h₁.append h₂).append h₃).liftComments, ← hleft]
    rfl
  -- the term read is no symbol, so it does not stand for the comment
  obtain ⟨trim', hread'⟩ := read_output hlift hs.lexes (hr.readsAt.mono (by omega) (by omega)) (by
    intro x lifted hx _
    cases x with
    | symbol name => simp [Means, Term.toExpr, Expr.ident, Expr.ofChain] at hx
    | _ => rfl)
  have hsame := hread.symm.trans hread'
  simp [e, Expr.ofChain] at hsame

end Stencil.Nunjucks
