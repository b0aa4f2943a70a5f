import Mathlib.Data.List.Forall2
import Stencil.Nunjucks.Term.Parse
import Stencil.Proofs.Nunjucks.Lexing

/-!
# Levels of the term grammar

The term grammar has thirteen levels, from primary terms to choices. A list of lexemes that is read
at a level is read at every looser level as well, and the level at which a list is read decides
where it can stand as an operand.

`ReadsAt` says that a level reads exactly a given list of lexemes, whatever follows that the level
does not take for its own. `ExtendsAt` says that the level has read the list as a left operand and
goes on with what follows. Both leave open what the term is like: all that is known of it is a
property that each construct derives from the properties of its parts.
-/

namespace Stencil.Nunjucks

/-! ### The levels -/

/-- The operator that a token is at a level. -/
def operatorAt : Nat → Token → Option Binary
  | 2 => signOf [("**", .power)]
  | 3 => signOf [("*", .multiply), ("//", .floorDivide), ("/", .divide), ("%", .modulo)]
  | 4 => signOf [("+", .add), ("-", .subtract)]
  | 5 => signOf [("~", .concat)]
  | 8 => wordOf "in" .member
  | 10 => wordOf "and" .and
  | 11 => wordOf "or" .or
  | _ => fun _ => none

/-- A level over the one that binds more tightly. -/
def levelOver : Nat → Parser Term → Parser Term
  | 6 => comparisons
  | 7 => tests
  | 9 => negations
  | 12 => choices
  | n => binaryLevel (operatorAt n)

/-- The levels of the grammar, given what brackets hold. -/
def level (ending : Ending) (nested : Nested) : Nat → Parser Term
  | 0 => primary ending nested
  | 1 => signed ending nested
  | n + 2 => levelOver (n + 2) (level ending nested (n + 1))

/-- How a level goes on after a left operand. -/
def continuation (ending : Ending) (nested : Nested) : Nat → (fuel : Nat) → Term → Parser Term
  | 0 => accesses ending nested
  | 1 => filters ending nested
  | n + 2 => binaryRest (operatorAt (n + 2)) (level ending nested (n + 1))

/-- The lexemes that a level takes for its own, with the level. -/
def ranks : List (Lexeme × Nat) :=
  [(.sign ".", 0), (.sign "[", 0), (.sign "(", 0), (.sign "|", 1), (.sign "**", 2), (.sign "*", 3),
    (.sign "//", 3), (.sign "/", 3), (.sign "%", 3), (.sign "+", 4), (.sign "-", 4), (.sign "~", 5),
    (.sign "==", 6), (.sign "===", 6), (.sign "!=", 6), (.sign "!==", 6), (.sign "<", 6),
    (.sign ">", 6), (.sign "<=", 6), (.sign ">=", 6), (.word "is", 7), (.word "in", 8),
    (.word "and", 10), (.word "or", 11), (.word "if", 12)]

/-- The level that takes a lexeme for its own; others come after every level. -/
def rank (l : Lexeme) : Nat :=
  (ranks.lookup l).getD 13

/-- The tokens begin with nothing that a level before `n` takes for its own. -/
def Follow (n : Nat) (rest : List Token) : Prop :=
  ∀ t ∈ rest.head?, n ≤ rank t.lexeme

theorem Follow.zero (rest : List Token) : Follow 0 rest :=
  fun _ _ => Nat.zero_le _

theorem Follow.nil (n : Nat) : Follow n [] := by
  rintro t ⟨⟩

theorem Follow.cons {n : Nat} {t : Token} (h : n ≤ rank t.lexeme) (ts : List Token) :
    Follow n (t :: ts) := by
  rintro u ⟨⟩
  exact h

theorem Follow.mono {m n : Nat} {rest : List Token} (h : Follow n rest) (hmn : m ≤ n) :
    Follow m rest :=
  fun t ht => Nat.le_trans hmn (h t ht)

variable {t : Token} {ts rest : List Token}

/-! ### What ends a level -/

theorem eatSign?_cons {sign : String} (h : t.lexeme = .sign sign) (ts : List Token) :
    eatSign? sign (t :: ts) = some ts := by
  simp [eatSign?, h]

theorem eatSign?_eq_none {sign : String} (h : ∀ t ∈ rest.head?, t.lexeme ≠ .sign sign) :
    eatSign? sign rest = none := by
  cases rest with
  | nil => rfl
  | cons t ts =>
    have := h t rfl
    simp [eatSign?, this]

theorem eatName?_eq_none {name : String} (h : ∀ t ∈ rest.head?, t.lexeme ≠ .word name) :
    eatName? name rest = none := by
  cases rest with
  | nil => rfl
  | cons t ts =>
    have := h t rfl
    simp [eatName?, this]

/-- Tokens after which level `n` ends do not begin with a lexeme of that level. -/
theorem Follow.ne {n : Nat} (h : Follow (n + 1) rest) {l : Lexeme} (hl : rank l = n) :
    ∀ t ∈ rest.head?, t.lexeme ≠ l := by
  rintro t ht rfl
  have := h t ht
  omega

theorem lexeme_of_signOf {table : List (String × Binary)} {op : Binary}
    (h : signOf table t = some op) : ∃ entry ∈ table, t.lexeme = .sign entry.1 := by
  unfold signOf at h
  split at h
  · next hk =>
    obtain ⟨l₁, l₂, rfl, -⟩ := List.lookup_eq_some_iff.mp h
    refine ⟨_, List.mem_append_right _ List.mem_cons_self, ?_⟩
    simp [Token.lexeme, Lexeme.sign, hk, Piece.toString]
  · exact absurd h (by simp)

theorem lexeme_of_wordOf {word : String} {op op' : Binary} (h : wordOf word op t = some op') :
    t.lexeme = .word word := by
  unfold wordOf at h
  split at h
  · next hn => simpa using hn
  · exact absurd h (by simp)

/-- An operator belongs to the level that takes it for its own. -/
theorem rank_of_operatorAt {n : Nat} {op : Binary} (h : operatorAt n t = some op) :
    rank t.lexeme = n := by
  unfold operatorAt at h
  split at h
  case h_5 | h_6 | h_7 => rw [lexeme_of_wordOf h]; decide
  case h_8 => exact absurd h (by simp)
  all_goals
    obtain ⟨entry, he, ht⟩ := lexeme_of_signOf h
    rw [ht]
    clear ht
    revert entry
    decide

theorem lt_of_operatorAt {n : Nat} {op : Binary} (h : operatorAt n t = some op) : n < 12 := by
  unfold operatorAt at h
  split at h
  case h_8 => exact absurd h (by simp)
  all_goals decide

theorem operatorAt_eq_none {n : Nat} (h : rank t.lexeme ≠ n) : operatorAt n t = none := by
  rw [Option.eq_none_iff_forall_ne_some]
  exact fun op hop => h (rank_of_operatorAt hop)

/-- A level stops before what belongs to a looser one. -/
theorem continuation_stop {ending : Ending} {nested : Nested} {n : Nat} (h : Follow (n + 1) rest)
    (fuel : Nat) (x : Term) :
    continuation ending nested n fuel x rest = .ok (x, rest) := by
  cases fuel with
  | zero => rcases n with _ | _ | n <;> rfl
  | succ fuel =>
    rcases n with _ | _ | n
    · simp [continuation, accesses, eatSign?_eq_none (h.ne (show rank (.sign ".") = 0 by decide)),
        eatSign?_eq_none (h.ne (show rank (.sign "[") = 0 by decide)),
        eatSign?_eq_none (h.ne (show rank (.sign "(") = 0 by decide))]
    · simp [continuation, filters, eatSign?_eq_none (h.ne (show rank (.sign "|") = 1 by decide))]
    · cases rest with
      | nil => rfl
      | cons t ts =>
        have ht : rank t.lexeme ≠ n + 2 := by
          have := h t rfl
          omega
        simp [continuation, binaryRest, operatorAt_eq_none ht]

/-! ### What a level makes of a list of lexemes -/

/-- A list of lexemes begins like an operand. Below the levels that have signs and negations it does
not begin with one, and its second lexeme makes no keyword of the first. -/
def Begins (n : Nat) (ls : List Lexeme) : Prop :=
  ∃ l more, ls = l :: more ∧ l ∉ [.sign "=", .sign ")"] ∧ more.head? ≠ some (.sign "=") ∧
    (n = 0 → l ≠ .sign "-") ∧ (n < 9 → l ≠ .word "not")

theorem Begins.mono {m n : Nat} {ls : List Lexeme} (h : Begins m ls) (hmn : m ≤ n) :
    Begins n ls := by
  obtain ⟨l, more, rfl, hl, hm, hs, hn⟩ := h
  exact ⟨l, more, rfl, hl, hm, fun h => hs (by omega), fun h => hn (by omega)⟩

theorem Begins.append {n : Nat} {ls : List Lexeme} (h : Begins n ls) {l : Lexeme}
    (hl : l ≠ .sign "=") (more : List Lexeme) : Begins n (ls ++ l :: more) := by
  obtain ⟨l₀, more₀, rfl, h₁, h₂, h₃⟩ := h
  refine ⟨l₀, more₀ ++ l :: more, rfl, h₁, ?_, h₃⟩
  cases more₀ with
  | nil => simpa using hl
  | cons => simpa using h₂

/-- Level `n` reads the lexemes `ls` as a term with property `P`, whatever follows that belongs to
looser levels. -/
structure ReadsAt (n : Nat) (ls : List Lexeme) (P : Term → Prop) : Prop where
  begins : Begins n ls
  reads : ∀ ending depth ts rest, ts.map Token.lexeme = ls → ls.length ≤ depth →
    Follow (n + 1) rest →
      ∃ x, P x ∧ level ending (nestedTo ending depth) n (ts ++ rest) = .ok (x, rest)

/-- Level `n` takes the lexemes `ls` for a left operand with property `P`, and goes on with what
follows. -/
structure ExtendsAt (n : Nat) (ls : List Lexeme) (P : Term → Prop) : Prop where
  begins : Begins n ls
  reads : ∀ ending depth ts rest, ts.map Token.lexeme = ls → ls.length ≤ depth → Follow n rest →
    ∃ x fuel, P x ∧ rest.length ≤ fuel ∧ level ending (nestedTo ending depth) n (ts ++ rest) =
      continuation ending (nestedTo ending depth) n fuel x rest

/-- The levels that group their operands from left to right. -/
def isGrouping (n : Nat) : Bool :=
  n ∈ [1, 2, 3, 4, 5, 8, 10, 11]

variable {n : Nat} {ls ls' : List Lexeme} {P P' P'' : Term → Prop}

theorem ExtendsAt.readsAt (h : ExtendsAt n ls P) : ReadsAt n ls P := by
  refine ⟨h.begins, fun ending depth ts rest hts hd hr => ?_⟩
  obtain ⟨x, fuel, hx, -, he⟩ := h.reads ending depth ts rest hts hd (hr.mono (by omega))
  exact ⟨x, hx, he.trans (continuation_stop hr fuel x)⟩

theorem ReadsAt.imp (h : ReadsAt n ls P) (hP : ∀ x, P x → P' x) : ReadsAt n ls P' := by
  refine ⟨h.begins, fun ending depth ts rest hts hd hr => ?_⟩
  obtain ⟨x, hx, he⟩ := h.reads ending depth ts rest hts hd hr
  exact ⟨x, hP x hx, he⟩

theorem level_grouping {ending : Ending} {nested : Nested} (hn : isGrouping (n + 2)) :
    level ending nested (n + 2) =
      binaryLevel (operatorAt (n + 2)) (level ending nested (n + 1)) := by
  have hn : n = 0 ∨ n = 1 ∨ n = 2 ∨ n = 3 ∨ n = 6 ∨ n = 8 ∨ n = 9 := by
    simp [isGrouping] at hn
    omega
  rcases hn with rfl | rfl | rfl | rfl | rfl | rfl | rfl <;> rfl

theorem ReadsAt.extendsAt (h : ReadsAt n ls P) (hn : isGrouping (n + 1)) :
    ExtendsAt (n + 1) ls P := by
  refine ⟨h.begins.mono (by omega), fun ending depth ts rest hts hd hr => ?_⟩
  obtain ⟨x, hx, he⟩ := h.reads ending depth ts rest hts hd hr
  refine ⟨x, rest.length, hx, Nat.le_refl _, ?_⟩
  rcases n with _ | n
  · obtain ⟨l, more, rfl, -, -, hs, -⟩ := h.begins
    obtain ⟨t, ts, rfl, rfl, rfl⟩ := List.map_eq_cons_iff.mp hts
    have ht : t.lexeme ≠ .sign "-" := hs rfl
    simp only [level, List.cons_append] at he ⊢
    simp [signed, ht, he, continuation]
  · rw [level_grouping hn, binaryLevel, he]
    rfl

theorem comparison?_of_rank (h : rank t.lexeme ≠ 6) :
    (if t.kind = .sign then Comparison.ofText? t.text.toString else none) = none := by
  split
  · next hk =>
    rw [Comparison.ofText?, List.find?_eq_none]
    intro c _ hc
    refine h ?_
    have ht : t.lexeme = .sign c.text := by
      simp [Token.lexeme, Lexeme.sign, hk, beq_iff_eq.mp hc, Piece.toString]
    rw [ht]
    cases c <;> decide
  · rfl

theorem comparisonRest_stop {operand : Parser Term} (h : Follow 7 rest) (fuel : Nat) :
    comparisonRest operand fuel rest = .ok ([], rest) := by
  rcases fuel with _ | fuel
  · rfl
  · cases rest with
    | nil => rfl
    | cons t ts =>
      have ht : rank t.lexeme ≠ 6 := by
        have := h t rfl
        omega
      rw [comparisonRest, comparison?_of_rank ht]

/-- What a level reads is read at the next one. -/
theorem ReadsAt.succ (h : ReadsAt n ls P) (hn : n < 12) : ReadsAt (n + 1) ls P := by
  by_cases hg : isGrouping (n + 1)
  · exact (h.extendsAt hg).readsAt
  · refine ⟨h.begins.mono (by omega), fun ending depth ts rest hts hd hr => ?_⟩
    obtain ⟨x, hx, he⟩ := h.reads ending depth ts rest hts hd (hr.mono (by omega))
    refine ⟨x, hx, ?_⟩
    have hn : n = 5 ∨ n = 6 ∨ n = 8 ∨ n = 11 := by
      simp [isGrouping] at hg
      omega
    rcases hn with rfl | rfl | rfl | rfl
    · rw [level, levelOver, comparisons, he, ok_bind]
      simp [comparisonRest_stop hr]
    · rw [level, levelOver, tests, he, ok_bind]
      simp [eatName?_eq_none (hr.ne (show rank (.word "is") = 7 by decide))]
      rfl
    · obtain ⟨l, more, rfl, -, -, -, hl⟩ := h.begins
      obtain ⟨t, ts, rfl, rfl, rfl⟩ := List.map_eq_cons_iff.mp hts
      have ht : t.lexeme ≠ .word "not" := hl (by omega)
      rw [level, levelOver, List.cons_append, negations]
      simp [ht, ← he]
    · rw [level, levelOver, choices, he, ok_bind]
      simp [eatName?_eq_none (hr.ne (show rank (.word "if") = 12 by decide))]
      rfl

/-- What a level reads is read at every looser one. -/
theorem ReadsAt.mono {m : Nat} (h : ReadsAt m ls P) (hmn : m ≤ n) (hn : n ≤ 12) :
    ReadsAt n ls P := by
  induction hmn with
  | refl => exact h
  | step hmn ih => exact (ih (by omega)).succ (by omega)

/-- What a level reads can be a left operand at every looser level that has some. -/
theorem ReadsAt.extendsAt_of_lt {m : Nat} (h : ReadsAt m ls P) (hmn : m < n) (hn : isGrouping n) :
    ExtendsAt n ls P := by
  obtain ⟨n, rfl⟩ : ∃ k, n = k + 1 := ⟨n - 1, by omega⟩
  have : n + 1 ≤ 11 := by
    simp [isGrouping] at hn
    omega
  exact (h.mono (by omega) (by omega)).extendsAt hn

/-! ### Operators -/

/-- Two operands with an operator between them. -/
theorem ExtendsAt.binary {l : Lexeme} {op : Binary} (h : ExtendsAt (n + 2) ls P)
    (h' : ReadsAt (n + 1) ls' P') (hl : ∀ t : Token, t.lexeme = l → operatorAt (n + 2) t = some op)
    (hP : ∀ x y, P x → P' y → P'' (.binary op x y)) : ExtendsAt (n + 2) (ls ++ l :: ls') P'' := by
  have ht := hl ⟨l.kind, ⟨0, l.text⟩⟩ rfl
  have hrank : rank l = n + 2 := rank_of_operatorAt ht
  have hne : l ≠ .sign "=" := by
    rintro rfl
    have := lt_of_operatorAt ht
    have : rank (.sign "=") = 13 := by decide
    omega
  refine ⟨h.begins.append hne _, fun ending depth ts rest hts hd hr => ?_⟩
  obtain ⟨ts₁, ts₂, rfl, rfl, hts₂⟩ := List.map_eq_append_iff.mp hts
  obtain ⟨t, ts₂, rfl, rfl, rfl⟩ := List.map_eq_cons_iff.mp hts₂
  simp only [List.length_append, List.length_cons, List.length_map] at hd
  obtain ⟨x, fuel, hx, hf, he⟩ := h.reads ending depth ts₁ (t :: ts₂ ++ rest) rfl
    (by rw [List.length_map]; omega) (.cons (by omega) _)
  obtain ⟨y, hy, he'⟩ := h'.reads ending depth ts₂ rest rfl (by rw [List.length_map]; omega) hr
  obtain ⟨fuel, rfl⟩ : ∃ k, fuel = k + 1 := ⟨fuel - 1, by simp at hf; omega⟩
  refine ⟨.binary op x y, fuel, hP x y hx hy, by simp at hf; omega, ?_⟩
  rw [List.append_assoc, he, List.cons_append]
  simp [continuation, binaryRest, hl t rfl, he']

/-- Two operands with a comparison between them. -/
theorem ReadsAt.comparison {c : Comparison} (h : ReadsAt 5 ls P) (h' : ReadsAt 5 ls' P')
    (hP : ∀ x y, P x → P' y → P'' (.comparison x [(c, y)])) :
    ReadsAt 6 (ls ++ .sign c.text :: ls') P'' := by
  have hrank : rank (.sign c.text) = 6 := by cases c <;> decide
  have hne : Lexeme.sign c.text ≠ .sign "=" := by cases c <;> decide
  refine ⟨(h.begins.mono (by omega)).append hne _, fun ending depth ts rest hts hd hr => ?_⟩
  obtain ⟨ts₁, ts₂, rfl, rfl, hts₂⟩ := List.map_eq_append_iff.mp hts
  obtain ⟨t, ts₂, rfl, ht, rfl⟩ := List.map_eq_cons_iff.mp hts₂
  simp only [List.length_append, List.length_cons, List.length_map] at hd
  obtain ⟨x, hx, he⟩ := h.reads ending depth ts₁ (t :: ts₂ ++ rest) rfl
    (by rw [List.length_map]; omega) (.cons (by rw [ht, hrank]) _)
  obtain ⟨y, hy, he'⟩ := h'.reads ending depth ts₂ rest rfl (by rw [List.length_map]; omega)
    (hr.mono (by omega))
  refine ⟨.comparison x [(c, y)], hP x y hx hy, ?_⟩
  have hc : (if t.kind = .sign then Comparison.ofText? t.text.toString else none) = some c := by
    simp only [Token.lexeme, Lexeme.sign, Lexeme.mk.injEq] at ht
    simp [ht.1, Piece.toString, ht.2]
  rw [level, levelOver, comparisons, List.append_assoc, he, ok_bind]
  simp [comparisonRest, hc, he', comparisonRest_stop hr]

/-- A negated term. -/
theorem ReadsAt.negated (h : ReadsAt 9 ls P) (hP : ∀ x, P x → P' (.negated x)) :
    ReadsAt 9 (.word "not" :: ls) P' := by
  obtain ⟨l, more, rfl, hl, -, -⟩ := h.begins
  refine ⟨⟨.word "not", l :: more, rfl, by decide, ?_, by omega, by omega⟩,
    fun ending depth ts rest hts hd hr => ?_⟩
  · rintro ⟨⟩
    exact hl (by simp)
  · obtain ⟨t, ts, rfl, ht, hts⟩ := List.map_eq_cons_iff.mp hts
    obtain ⟨x, hx, he⟩ := h.reads ending depth ts rest hts (by simp at hd ⊢; omega) hr
    refine ⟨.negated x, hP x hx, ?_⟩
    rw [level, levelOver] at he ⊢
    rw [List.cons_append, negations]
    simp [ht, he]

/-! ### Primary terms -/

/-- The first token of a list with given lexemes. -/
theorem exists_token {l : Lexeme} (h : ts.map Token.lexeme = l :: ls) :
    ∃ start ts', ts = ⟨l.kind, ⟨start, l.text⟩⟩ :: ts' ∧ ts'.map Token.lexeme = ls := by
  obtain ⟨t, ts', rfl, rfl, hts⟩ := List.map_eq_cons_iff.mp h
  exact ⟨t.text.start, ts', rfl, hts⟩

/-- A single lexeme that is a term. -/
theorem ExtendsAt.single {l : Lexeme} (hl : l ∉ [.sign "=", .sign ")"]) (hs : l ≠ .sign "-")
    (hn : l ≠ .word "not") (hP : ∀ ending nested (t : Token) rest, t.lexeme = l →
      ∃ x, P x ∧ atom ending nested (t :: rest) = .ok (x, rest)) : ExtendsAt 0 [l] P := by
  refine ⟨⟨l, [], rfl, hl, by simp, fun _ => hs, fun _ => hn⟩,
    fun ending depth ts rest hts _ _ => ?_⟩
  obtain ⟨t, ts, rfl, ht, hts⟩ := List.map_eq_cons_iff.mp hts
  obtain rfl := List.map_eq_nil_iff.mp hts
  obtain ⟨x, hx, he⟩ := hP ending (nestedTo ending depth) t rest ht
  refine ⟨x, rest.length, hx, Nat.le_refl _, ?_⟩
  rw [level, primary, List.cons_append, List.nil_append, he]
  rfl

theorem ExtendsAt.name {name : List Char} (hn : name ≠ "not".toList)
    (hP : ∀ start, P (wordTerm ⟨start, name⟩)) : ExtendsAt 0 [⟨.name, name⟩] P := by
  refine ExtendsAt.single (by simp [Lexeme.sign]) (by simp [Lexeme.sign])
    (by simpa [Lexeme.word] using hn) ?_
  rintro ending nested ⟨kind, start, text⟩ rest ht
  obtain ⟨rfl, rfl⟩ := Lexeme.mk.inj ht
  exact ⟨_, hP start, rfl⟩

theorem ExtendsAt.string {text : List Char} (hP : ∀ start, P (.literal .string ⟨start, text⟩)) :
    ExtendsAt 0 [⟨.string, text⟩] P := by
  refine ExtendsAt.single (by simp [Lexeme.sign]) (by simp [Lexeme.sign]) (by simp [Lexeme.word]) ?_
  rintro ending nested ⟨kind, start, text⟩ rest ht
  obtain ⟨rfl, rfl⟩ := Lexeme.mk.inj ht
  exact ⟨_, hP start, rfl⟩

theorem ExtendsAt.number {text : List Char} (hP : ∀ start, P (.literal .number ⟨start, text⟩)) :
    ExtendsAt 0 [⟨.number, text⟩] P := by
  refine ExtendsAt.single (by simp [Lexeme.sign]) (by simp [Lexeme.sign]) (by simp [Lexeme.word]) ?_
  rintro ending nested ⟨kind, start, text⟩ rest ht
  obtain ⟨rfl, rfl⟩ := Lexeme.mk.inj ht
  exact ⟨_, hP start, rfl⟩

/-- A whole term inside brackets, before the sign that ends it. -/
theorem ReadsAt.nested (h : ReadsAt 12 ls P) (ending : Ending) {depth : Nat}
    (hd : ls.length < depth) (hts : ts.map Token.lexeme = ls) (ht : rank t.lexeme = 13)
    (rest : List Token) :
    ∃ x, P x ∧ (nestedTo ending depth).term (ts ++ t :: rest) = .ok (x, t :: rest) := by
  obtain ⟨depth, rfl⟩ : ∃ d, depth = d + 1 := ⟨depth - 1, by omega⟩
  exact h.reads ending depth ts (t :: rest) hts (by omega) (.cons (by omega) _)

theorem expectSign_cons {sign : String} (h : t.lexeme = .sign sign) (ending : Ending)
    (ts : List Token) : expectSign ending sign (t :: ts) = .ok ts := by
  rw [expectSign, eatSign?_cons h]

/-- A term in parentheses. -/
theorem ReadsAt.group (h : ReadsAt 12 ls P) (hP : ∀ x, P x → P' (.group x)) :
    ExtendsAt 0 (.sign "(" :: ls ++ [.sign ")"]) P' := by
  obtain ⟨l, more, hls, hl, -, -⟩ := h.begins
  refine ⟨⟨.sign "(", ls ++ [.sign ")"], rfl, by decide, ?_, by decide, by decide⟩,
    fun ending depth ts rest hts hd _ => ?_⟩
  · rw [hls]
    rintro ⟨⟩
    exact hl (by simp)
  · obtain ⟨ts₁, ts₂, rfl, hts₁, hts₂⟩ := List.map_eq_append_iff.mp hts
    obtain ⟨t, ts₁, rfl, ht, hts₁⟩ := List.map_eq_cons_iff.mp hts₁
    obtain ⟨t', ts₂, rfl, ht', hts₂⟩ := List.map_eq_cons_iff.mp hts₂
    obtain rfl := List.map_eq_nil_iff.mp hts₂
    have hd : ls.length < depth := by
      simp at hd
      omega
    obtain ⟨x, hx, he⟩ := h.nested ending hd hts₁ (t := t') (by rw [ht']; decide) rest
    refine ⟨.group x, rest.length, hP x hx, Nat.le_refl _, ?_⟩
    obtain ⟨kind, start, text⟩ := t
    obtain ⟨rfl, rfl⟩ := Lexeme.mk.inj ht
    rw [level, primary]
    simp [atom, he, expectSign_cons ht']
    rfl

/-- The opposite of a term. Filters that follow would belong to the term. -/
theorem ReadsAt.opposite (h : ReadsAt 1 ls P) (hP : ∀ x, P x → P' (.opposite x)) :
    ReadsAt 1 (.sign "-" :: ls) P' := by
  obtain ⟨l, more, rfl, hl, -, -⟩ := h.begins
  refine ⟨⟨.sign "-", l :: more, rfl, by decide, ?_, by omega, by decide⟩,
    fun ending depth ts rest hts hd hr => ?_⟩
  · rintro ⟨⟩
    exact hl (by simp)
  · obtain ⟨t, ts, rfl, ht, hts⟩ := List.map_eq_cons_iff.mp hts
    obtain ⟨x, hx, he⟩ := h.reads ending depth ts rest hts (by simp at hd ⊢; omega) hr
    refine ⟨.opposite x, hP x hx, ?_⟩
    rw [level] at he ⊢
    rw [List.cons_append, signed]
    simp only [Token.isSign_eq, ht, BEq.rfl, if_true, he, ok_bind]
    exact continuation_stop hr rest.length (.opposite x)

/-- A property after a dot. -/
theorem ExtendsAt.property {name : List Char} (h : ExtendsAt 0 ls P)
    (hP : ∀ x start, P x → P' (.lookup x (.literal .string ⟨start, name⟩))) :
    ExtendsAt 0 (ls ++ [.sign ".", ⟨.name, name⟩]) P' := by
  refine ⟨h.begins.append (by decide) _, fun ending depth ts rest hts hd hr => ?_⟩
  obtain ⟨ts₁, ts₂, rfl, rfl, hts₂⟩ := List.map_eq_append_iff.mp hts
  obtain ⟨t, ts₂, rfl, ht, hts₂⟩ := List.map_eq_cons_iff.mp hts₂
  obtain ⟨start, ts₃, rfl, hts₃⟩ := exists_token hts₂
  obtain rfl := List.map_eq_nil_iff.mp hts₃
  simp only [List.length_append, List.length_map] at hd
  obtain ⟨x, fuel, hx, hf, he⟩ := h.reads ending depth ts₁
    (t :: ⟨.name, start, name⟩ :: rest) rfl (by rw [List.length_map]; omega) (.zero _)
  obtain ⟨fuel, rfl⟩ : ∃ k, fuel = k + 1 := ⟨fuel - 1, by simp at hf; omega⟩
  refine ⟨_, fuel, hP x start hx, by simp at hf; omega, ?_⟩
  rw [List.append_assoc, List.cons_append, List.cons_append, List.nil_append, he, continuation,
    accesses, eatSign?_cons ht]
  rfl

/-- A subscript. -/
theorem ExtendsAt.subscript (h : ExtendsAt 0 ls P) (h' : ReadsAt 12 ls' P')
    (hP : ∀ x y, P x → P' y → P'' (.lookup x y)) :
    ExtendsAt 0 (ls ++ .sign "[" :: ls' ++ [.sign "]"]) P'' := by
  refine ⟨?_, fun ending depth ts rest hts hd hr => ?_⟩
  · rw [List.append_assoc]
    exact h.begins.append (by decide) _
  · obtain ⟨ts₁₂, ts₃, rfl, hts₁₂, hts₃⟩ := List.map_eq_append_iff.mp hts
    obtain ⟨ts₁, ts₂, rfl, hts₁, hts₂⟩ := List.map_eq_append_iff.mp hts₁₂
    obtain ⟨t, ts₂, rfl, ht, hts₂⟩ := List.map_eq_cons_iff.mp hts₂
    obtain ⟨t', ts₃, rfl, ht', hts₃⟩ := List.map_eq_cons_iff.mp hts₃
    obtain rfl := List.map_eq_nil_iff.mp hts₃
    simp only [List.length_append, List.length_cons] at hd
    obtain ⟨x, fuel, hx, hf, he⟩ := h.reads ending depth ts₁ (t :: (ts₂ ++ t' :: rest)) hts₁
      (by omega) (.zero _)
    have hd' : ls'.length < depth := by omega
    obtain ⟨y, hy, he'⟩ := h'.nested ending hd' hts₂ (t := t') (by rw [ht']; decide) rest
    obtain ⟨fuel, rfl⟩ : ∃ k, fuel = k + 1 := ⟨fuel - 1, by simp at hf; omega⟩
    refine ⟨_, fuel, hP x y hx hy, by simp at hf; omega, ?_⟩
    have hdot : eatSign? "." (t :: (ts₂ ++ t' :: rest)) = none :=
      eatSign?_eq_none (by rintro u ⟨⟩; rw [ht]; decide)
    simp only [List.append_assoc, List.cons_append, List.nil_append]
    rw [he, continuation, accesses, hdot, eatSign?_cons ht]
    simp [he', expectSign_cons ht']

/-! ### Arguments -/

/-- The lexemes `ls` are read as an argument of a call with property `R`. -/
structure ReadsArg (ls : List Lexeme) (R : CallArg → Prop) : Prop where
  begins : ∃ l ∈ ls.head?, l ≠ .sign ")"
  reads : ∀ ending depth ts t rest, ls.length < depth → ts.map Token.lexeme = ls →
    t.lexeme ∈ [.sign ",", .sign ")"] →
      ∃ a, R a ∧ callArg (nestedTo ending depth) (ts ++ t :: rest) = .ok (a, t :: rest)

theorem callArg_positional {nested : Nested} (h : ∀ u ∈ ts.tail.head?, u.lexeme ≠ .sign "=") :
    callArg nested ts = (do
      let (value, ts) ← nested.term ts
      return (.positional value, ts)) := by
  unfold callArg
  split
  · next key t ts =>
    have ht : t.lexeme ≠ .sign "=" := h t rfl
    simp [ht]
  · rfl

theorem ReadsAt.positional (h : ReadsAt 12 ls P) :
    ReadsArg ls fun a => ∃ x, a = .positional x ∧ P x := by
  obtain ⟨l, more, hls, hl, hm, -⟩ := h.begins
  refine ⟨⟨l, by simp [hls], fun hp => hl (by simp [hp])⟩,
    fun ending depth ts t rest hd hts ht => ?_⟩
  have hrank : rank t.lexeme = 13 := by
    generalize t.lexeme = l at ht
    revert l
    decide
  have hne : t.lexeme ≠ .sign "=" := by
    generalize t.lexeme = l at ht
    revert l
    decide
  obtain ⟨x, hx, he⟩ := h.nested ending hd hts hrank rest
  refine ⟨.positional x, ⟨x, rfl, hx⟩, ?_⟩
  rw [callArg_positional, he]
  · rfl
  · rw [hls] at hts
    obtain ⟨u, us, rfl, -, hus⟩ := List.map_eq_cons_iff.mp hts
    intro v hv
    cases us with
    | nil =>
      obtain rfl : t = v := by simpa using hv
      exact hne
    | cons w ws =>
      obtain rfl : w = v := by simpa using hv
      intro hw
      exact hm (by simp [← hus, hw])

theorem ReadsAt.keyword (h : ReadsAt 12 ls P) (key : String) :
    ReadsArg (.word key :: .sign "=" :: ls) fun a => ∃ x, a = .keyword key x ∧ P x := by
  refine ⟨⟨.word key, by simp, by simp [Lexeme.sign, Lexeme.word]⟩,
    fun ending depth ts t rest hd hts ht => ?_⟩
  have hrank : rank t.lexeme = 13 := by
    generalize t.lexeme = l at ht
    revert l
    decide
  obtain ⟨start, ts₁, rfl, hts₁⟩ := exists_token hts
  obtain ⟨t', ts₂, rfl, ht', hts₂⟩ := List.map_eq_cons_iff.mp hts₁
  have hd : ls.length < depth := by
    simp only [List.length_cons] at hd
    omega
  obtain ⟨x, hx, he⟩ := h.nested ending hd hts₂ hrank rest
  refine ⟨_, ⟨x, rfl, hx⟩, ?_⟩
  simp [callArg, Lexeme.word, ht', he, Piece.toString]

/-- The lexemes of arguments that follow another one. -/
def moreArgs (lss : List (List Lexeme)) : List Lexeme :=
  lss.flatMap (.sign "," :: ·)

/-- The lexemes of the arguments of a filter. -/
def argLexemes : List (List Lexeme) → List Lexeme
  | [] => []
  | ls :: lss => .sign "(" :: (ls ++ (moreArgs lss ++ [.sign ")"]))

/-- An argument is read up to the next comma or the closing parenthesis. -/
theorem ReadsArg.before_more {R : CallArg → Prop} (h : ReadsArg ls R) (ending : Ending)
    {depth : Nat} (hd : ls.length < depth) {ts more : List Token} (hts : ts.map Token.lexeme = ls)
    {lss : List (List Lexeme)} (hmore : more.map Token.lexeme = moreArgs lss) {t : Token}
    (ht : t.lexeme = .sign ")") (rest : List Token) :
    ∃ a, R a ∧ callArg (nestedTo ending depth) (ts ++ (more ++ t :: rest)) =
      .ok (a, more ++ t :: rest) := by
  cases lss with
  | nil =>
    obtain rfl := List.map_eq_nil_iff.mp hmore
    exact h.reads ending depth ts t rest hd hts (by simp [ht])
  | cons =>
    obtain ⟨u, us, rfl, hu, -⟩ := List.map_eq_cons_iff.mp hmore
    exact h.reads ending depth ts u (us ++ t :: rest) hd hts (by simp [hu])

theorem itemsUntil_moreArgs {lss : List (List Lexeme)} {Rs : List (CallArg → Prop)}
    (h : List.Forall₂ ReadsArg lss Rs) (ending : Ending) {depth fuel : Nat}
    (hd : (moreArgs lss).length < depth) (hf : lss.length < fuel) {ts : List Token}
    (hts : ts.map Token.lexeme = moreArgs lss) {t : Token} (ht : t.lexeme = .sign ")")
    (rest : List Token) :
    ∃ as, List.Forall₂ (fun R a => R a) Rs as ∧
      itemsUntil ending ")" (callArg (nestedTo ending depth)) fuel false (ts ++ t :: rest) =
        .ok (as, rest) := by
  induction h generalizing fuel ts with
  | nil =>
    obtain ⟨fuel, rfl⟩ : ∃ k, fuel = k + 1 := ⟨fuel - 1, by omega⟩
    obtain rfl := List.map_eq_nil_iff.mp hts
    exact ⟨[], .nil, by rw [itemsUntil, List.nil_append, eatSign?_cons ht]⟩
  | @cons ls R lss Rs hls _ ih =>
    obtain ⟨fuel, rfl⟩ : ∃ k, fuel = k + 1 := ⟨fuel - 1, by omega⟩
    rw [moreArgs, List.flatMap_cons] at hts hd
    obtain ⟨ts₁, ts₃, rfl, hts₁, hts₃⟩ := List.map_eq_append_iff.mp hts
    obtain ⟨c, ts₂, rfl, hc, hts₂⟩ := List.map_eq_cons_iff.mp hts₁
    simp only [List.length_append, List.length_cons] at hd hf
    have hclose : eatSign? ")" (c :: (ts₂ ++ (ts₃ ++ t :: rest))) = none :=
      eatSign?_eq_none (by rintro u ⟨⟩; rw [hc]; decide)
    have hd₂ : ls.length < depth := by omega
    obtain ⟨a, ha, hea⟩ := hls.before_more ending hd₂ hts₂ hts₃ ht rest
    obtain ⟨as, has, he⟩ := ih (by rw [moreArgs]; omega) (Nat.lt_of_succ_lt_succ hf) hts₃
    refine ⟨a :: as, .cons ha has, ?_⟩
    rw [List.append_assoc, List.cons_append, itemsUntil, hclose]
    simp [expectSign_cons hc, hea, he]

theorem length_le_length_moreArgs (lss : List (List Lexeme)) :
    lss.length ≤ (moreArgs lss).length := by
  induction lss with
  | nil => simp
  | cons ls lss ih =>
    rw [moreArgs, List.flatMap_cons, List.length_append, List.length_cons, List.length_cons]
    rw [moreArgs] at ih
    omega

/-- The arguments of a filter, in parentheses if there are any. -/
theorem filterArgs_argLexemes {lss : List (List Lexeme)} {Rs : List (CallArg → Prop)}
    (h : List.Forall₂ ReadsArg lss Rs) (ending : Ending) {depth : Nat}
    (hd : (argLexemes lss).length ≤ depth) (hts : ts.map Token.lexeme = argLexemes lss)
    (hr : Follow 1 rest) :
    ∃ as, List.Forall₂ (fun R a => R a) Rs as ∧
      filterArgs ending (nestedTo ending depth) (ts ++ rest) = .ok (as, rest) := by
  cases h with
  | nil =>
    obtain rfl := List.map_eq_nil_iff.mp hts
    refine ⟨[], .nil, ?_⟩
    rw [filterArgs, List.nil_append, eatSign?_eq_none (hr.ne (show rank (.sign "(") = 0 by decide))]
  | @cons ls R lss Rs hls hrest =>
    rw [argLexemes] at hts hd
    obtain ⟨o, ts₁, rfl, ho, hts₁⟩ := List.map_eq_cons_iff.mp hts
    obtain ⟨ts₂, ts₃, rfl, hts₂, hts₃⟩ := List.map_eq_append_iff.mp hts₁
    obtain ⟨ts₄, ts₅, rfl, hts₄, hts₅⟩ := List.map_eq_append_iff.mp hts₃
    obtain ⟨t, ts₆, rfl, ht, hts₆⟩ := List.map_eq_cons_iff.mp hts₅
    obtain rfl := List.map_eq_nil_iff.mp hts₆
    simp only [List.length_cons, List.length_append] at hd
    have hlen : lss.length ≤ ts₄.length := by
      have := length_le_length_moreArgs lss
      rwa [← hts₄, List.length_map] at this
    have hf : lss.length < (ts₂ ++ (ts₄ ++ t :: rest)).length := by
      simp only [List.length_append, List.length_cons]
      omega
    have hd₂ : ls.length < depth := by omega
    have hd₄ : (moreArgs lss).length < depth := by omega
    obtain ⟨a, ha, hea⟩ := hls.before_more ending hd₂ hts₂ hts₄ ht rest
    obtain ⟨as, has, he⟩ := itemsUntil_moreArgs hrest ending hd₄ hf hts₄ ht rest
    refine ⟨a :: as, .cons ha has, ?_⟩
    have hclose : eatSign? ")" (ts₂ ++ (ts₄ ++ t :: rest)) = none := by
      obtain ⟨l, hl, hne⟩ := hls.begins
      rw [← hts₂, List.head?_map] at hl
      obtain ⟨u, hu, rfl⟩ := Option.map_eq_some_iff.mp hl
      refine eatSign?_eq_none fun v hv => ?_
      rw [List.head?_append, hu] at hv
      cases hv
      exact hne
    simp only [List.append_assoc, List.cons_append, List.nil_append]
    rw [filterArgs, eatSign?_cons ho]
    simp only [callArgs, items]
    rw [itemsUntil, hclose]
    simp only [if_true, ok_bind, hea, he]
    rfl

/-- The lexemes of a name with dots. -/
def dottedLexemes (first : List Char) (more : List (List Char)) : List Lexeme :=
  ⟨.name, first⟩ :: more.flatMap fun name => [.sign ".", ⟨.name, name⟩]

theorem dottedName_eq (ending : Ending) {more : List (List Char)}
    (hts : ts.map Token.lexeme = more.flatMap fun name => [.sign ".", ⟨.name, name⟩])
    (hr : ∀ t ∈ rest.head?, t.lexeme ≠ .sign ".") (name : List Char) :
    dottedName ending (String.ofList name) (ts ++ rest) =
      .ok (String.ofList (name ++ more.flatMap ('.' :: ·)), rest) := by
  induction more generalizing ts name with
  | nil =>
    obtain rfl := List.map_eq_nil_iff.mp hts
    cases rest with
    | nil => simp [dottedName]
    | cons t rest =>
      have := hr t rfl
      unfold dottedName
      simp [this]
  | cons next more ih =>
    obtain ⟨t, ts₁, rfl, ht, hts₁⟩ := List.map_eq_cons_iff.mp hts
    obtain ⟨start, ts₂, rfl, hts₂⟩ := exists_token hts₁
    have hname : String.ofList name ++ "." ++ String.ofList next =
        String.ofList (name ++ '.' :: next) := by
      simp [String.ofList_append, String.append_assoc]
    have := ih hts₂ (name ++ '.' :: next)
    rw [List.cons_append, List.cons_append, dottedName]
    simp only [Token.isSign_eq, ht, BEq.rfl, if_true, Piece.toString, hname, this]
    simp

/-! ### Filters -/

/-- A filter after a bar. -/
theorem ExtendsAt.filter (h : ExtendsAt 1 ls P) (first : List Char) (more : List (List Char))
    {lss : List (List Lexeme)} {Rs : List (CallArg → Prop)} (hargs : List.Forall₂ ReadsArg lss Rs)
    (hP : ∀ x as, P x → List.Forall₂ (fun R a => R a) Rs as →
      P' (.filter (String.ofList (first ++ more.flatMap ('.' :: ·))) x (positionalArgs as)
        (keywordArgs as))) :
    ExtendsAt 1 (ls ++ .sign "|" :: (dottedLexemes first more ++ argLexemes lss)) P' := by
  refine ⟨h.begins.append (by decide) _, fun ending depth ts rest hts hd hr => ?_⟩
  obtain ⟨ts₁, ts₂, rfl, rfl, hts₂⟩ := List.map_eq_append_iff.mp hts
  obtain ⟨t, ts₃, rfl, ht, hts₃⟩ := List.map_eq_cons_iff.mp hts₂
  obtain ⟨ts₄, ts₅, rfl, hts₄, hts₅⟩ := List.map_eq_append_iff.mp hts₃
  obtain ⟨start, ts₆, rfl, hts₆⟩ := exists_token hts₄
  simp only [List.length_append, List.length_cons, List.length_map] at hd
  obtain ⟨x, fuel, hx, hf, he⟩ := h.reads ending depth ts₁
    (t :: (⟨.name, start, first⟩ :: (ts₆ ++ (ts₅ ++ rest)))) rfl (by rw [List.length_map]; omega)
    (.cons (by rw [ht]; decide) _)
  have hd₅ : (argLexemes lss).length ≤ depth := by omega
  obtain ⟨as, has, hargs⟩ := filterArgs_argLexemes hargs ending hd₅ hts₅ hr
  obtain ⟨fuel, rfl⟩ : ∃ k, fuel = k + 1 := ⟨fuel - 1, by simp at hf; omega⟩
  refine ⟨_, fuel, hP x as hx has, by simp at hf; omega, ?_⟩
  have hdot : ∀ u ∈ (ts₅ ++ rest).head?, u.lexeme ≠ .sign "." := by
    cases lss with
    | nil =>
      obtain rfl := List.map_eq_nil_iff.mp hts₅
      exact hr.ne (by decide)
    | cons =>
      obtain ⟨o, ts₇, rfl, ho, -⟩ := List.map_eq_cons_iff.mp hts₅
      rintro u ⟨⟩
      rw [ho]
      decide
  simp only [List.append_assoc, List.cons_append]
  rw [he, continuation, filters, eatSign?_cons ht]
  simp [expectName, Piece.toString, dottedName_eq ending hts₆ hdot, hargs]

end Stencil.Nunjucks
