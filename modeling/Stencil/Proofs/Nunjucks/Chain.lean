import Mathlib.Data.List.Infix
import Stencil.Nunjucks.Grammar
import Stencil.Nunjucks.Reader
import Stencil.Proofs.Nunjucks.Levels
import Stencil.Proofs.Nunjucks.Lifting
import Stencil.Proofs.Selector
import Stencil.Proofs.Text.Decimal

/-!
# Access chains are read back

The text of an access chain is read as that chain, at the tightest level of the term grammar. Names
must not stand for values, strings must be single tokens, and the bodies of strings in subscripts
must not be names, since those read as names. A negative number is read at the next level, which
takes the filters after a number for those of the number without its sign.

A text that holds an opening delimiter of a comment does not reach the term grammar as it is
written, so the texts here are quiet ones.
-/

namespace Stencil.Nunjucks

/-! ### Quiet literals -/

theorem Quiet.number {text : List Char} (h : Text.isNumber text) : Quiet text :=
  .of_notMem fun hb => absurd (Text.mem_number h hb) (by decide)

theorem Quiet.string {text : List Char} (h : Text.isString text) (hq : ¬ ['{', '#'] <:+: text) :
    Quiet text := by
  refine ⟨hq, fun hl => ?_⟩
  cases text with
  | nil => simp at hl
  | cons q cs =>
    rw [Text.isString_cons] at h
    rw [List.getLast?_cons, Text.getLast?_of_quotedRest h.2, Option.getD_some, Option.some.injEq]
      at hl
    rw [hl] at h
    exact absurd h.1 (by decide)

/-! ### Texts and their lexemes -/

/-- A quiet text and its lexemes. It can stand after an equals sign. -/
structure Spells (s : List Char) (ls : List Lexeme) : Prop where
  lexes : Lexes s ls
  quiet : Quiet s
  starts : s.head? ≠ some '='

namespace Spells

variable {s s₁ s₂ : List Char} {ls ls₁ ls₂ : List Lexeme}

theorem nil : Spells [] [] :=
  ⟨.nil, .nil, by simp⟩

theorem append (h₁ : Spells s₁ ls₁) (h₂ : Spells s₂ ls₂) (hs : Parts s₂) :
    Spells (s₁ ++ s₂) (ls₁ ++ ls₂) := by
  refine ⟨h₁.lexes.append h₂.lexes hs, h₁.quiet.append h₂.quiet, ?_⟩
  rw [List.head?_append, ne_eq, Option.or_eq_some_iff, not_or]
  exact ⟨h₁.starts, fun h => h₂.starts h.2⟩

theorem space (h : Spells s ls) : Spells (' ' :: s) ls :=
  ⟨h.lexes.space, h.quiet.cons (by decide), by simp⟩

theorem blanks {b : List Char} (hb : ∀ c ∈ b, Text.isBlank c) (h : Spells s ls) :
    Spells (b ++ s) ls := by
  have hne : ∀ c, Text.isBlank c = false → c ∉ b := fun c hc hmem => by simp [hb c hmem] at hc
  refine ⟨h.lexes.blanks hb, .append (.of_notMem (hne '{' (by decide))) h.quiet, ?_⟩
  rw [List.head?_append, ne_eq, Option.or_eq_some_iff, not_or]
  exact ⟨fun hc => hne '=' (by decide) (List.mem_of_head? hc), fun hc => h.starts hc.2⟩

theorem name {name : List Char} (h : Text.isIdentifier name) : Spells name [⟨.name, name⟩] := by
  refine ⟨.name h, .name h, fun he => ?_⟩
  exact absurd (Text.isNameChar_of_mem_identifier h (List.mem_of_head? he)) (by decide)

theorem number {text : List Char} (h : Text.isNumber text) : Spells text [⟨.number, text⟩] := by
  refine ⟨.number h, .number h, fun he => ?_⟩
  obtain ⟨cs, rfl⟩ := List.head?_eq_some_iff.mp he
  exact absurd h (by simp [Text.isNumber, show Text.isDigit '=' = false by decide])

theorem string {text : List Char} (h : Text.isString text) (hq : ¬ ['{', '#'] <:+: text) :
    Spells text [⟨.string, text⟩] := by
  refine ⟨.string h, .string h hq, fun he => ?_⟩
  obtain ⟨cs, rfl⟩ := List.head?_eq_some_iff.mp he
  exact absurd h (by simp [Text.isString, show Text.isQuote '=' = false by decide])

theorem minus {c : Char} (hc : Text.isNameChar c) (h : Spells (c :: s) ls) :
    Spells ('-' :: c :: s) (.sign "-" :: ls) :=
  ⟨h.lexes.minus hc, h.quiet.cons (by decide), by simp⟩

theorem lone {c : Char} (hc : c ∈ ['(', ')', '[', ']', ',', '|', '.']) (h : Spells s ls) :
    Spells (c :: s) (⟨.sign, [c]⟩ :: ls) := by
  refine ⟨h.lexes.lone hc, h.quiet.cons ?_, ?_⟩
  · rintro rfl
    exact absurd hc (by decide)
  · rintro ⟨⟩
    exact absurd hc (by decide)

theorem parens {text : String} (h : Spells text.toList ls) :
    Spells (Grammar.parens text).toList (.sign "(" :: ls ++ [.sign ")"]) := by
  have : (Grammar.parens text).toList = '(' :: (text.toList ++ [')']) := by simp [Grammar.parens]
  rw [this]
  exact .lone (by decide) (h.append (.lone (by decide) .nil) (.cons (by decide) _))

end Spells

/-! ### Plain chains -/

/-- A term whose expression outside loops is `e`. -/
def Means (e : Expr) (x : Term) : Prop :=
  x.toExpr {} = .ok e

/-- The words that the language has taken. -/
def keywords : List String :=
  ["not", "and", "or", "in", "is", "if", "else", "true", "false", "True", "False", "none", "null",
    "None"]

/-- The words that do not stand for a variable of that name. -/
def valueWords : List String :=
  ["not", "true", "false", "True", "False", "none", "null", "None"]

theorem keywords_of_mem_valueWords : ∀ word ∈ valueWords, word ∈ keywords := by
  decide

/-- A string that is a single token and has no comment in it. -/
def isQuietString (text : List Char) : Bool :=
  Text.isString text && decide (¬ ['{', '#'] <:+: text)

/-- The roots of chains: names that are not taken, literals and the null value. -/
def isPlainRoot : Part → Bool
  | .ident name => Text.isIdentifier name.toList && !keywords.contains name
  | .literal text => isQuietString text.toList || Text.isNumber text.toList ||
      ["true", "false", "True", "False"].contains text
  | .null => true
  | _ => false

/-- The further parts of chains: names, numbers and strings that are not names. -/
def isPlainAccess : Part → Bool
  | .ident name => Text.isIdentifier name.toList
  | .literal text => isQuietString text.toList && !Text.isIdentifier (Text.unquoted text)
  | .index value => decide (0 ≤ value.toInt)
  | _ => false

/-- The chains that are read back. -/
def isPlainChain : List Part → Bool
  | [] => false
  | root :: parts => isPlainRoot root && parts.all isPlainAccess

/-- The roots of chains whose names may also be words of the language that stand for variables. -/
def isReadRoot : Part → Bool
  | .ident name => Text.isIdentifier name.toList && !valueWords.contains name
  | part => isPlainRoot part

/-- The chains that are read back at the tightest level. -/
def isReadChain : List Part → Bool
  | [] => false
  | root :: parts => isReadRoot root && parts.all isPlainAccess

/-- A negative number, which is a chain of its own. -/
def isNegative : List Part → Bool
  | [.literal text] => text.toList.head? == some '-' && Text.isNumber text.toList.tail
  | _ => false

theorem isReadRoot_of_isPlainRoot {root : Part} (h : isPlainRoot root) : isReadRoot root := by
  cases root with
  | ident name =>
    simp only [isPlainRoot, isReadRoot, Bool.and_eq_true, Bool.not_eq_true', List.contains_eq_mem,
      decide_eq_false_iff_not] at h ⊢
    exact ⟨h.1, fun hv => h.2 (keywords_of_mem_valueWords name hv)⟩
  | literal | index | null | blank | loopVar => exact h

theorem isReadChain_of_isPlainChain {chain : List Part} (h : isPlainChain chain) :
    isReadChain chain := by
  cases chain with
  | nil => exact h
  | cons root parts =>
    rw [isPlainChain, Bool.and_eq_true] at h
    rw [isReadChain, Bool.and_eq_true]
    exact ⟨isReadRoot_of_isPlainRoot h.1, h.2⟩

theorem isNegative_of_isReadChain {chain : List Part} (h : isReadChain chain) :
    isNegative chain = false := by
  unfold isNegative
  split
  · next text =>
    rw [Bool.and_eq_false_imp, beq_iff_eq]
    intro hhead
    obtain ⟨cs, hcs⟩ := List.head?_eq_some_iff.mp hhead
    have hwords : ∀ word ∈ ["true", "false", "True", "False"],
        word.toList.head? ≠ some '-' := by decide
    simp only [isReadChain, isReadRoot, isPlainRoot, isQuietString, hcs, Bool.and_eq_true,
      Bool.or_eq_true, List.contains_eq_mem, decide_eq_true_eq] at h
    rcases h.1 with (h | h) | h
    · exact absurd h.1 (by simp [Text.isString, show Text.isQuote '-' = false by decide])
    · exact absurd h (by simp [Text.isNumber, show Text.isDigit '-' = false by decide])
    · exact absurd hhead (hwords text h)
  · rfl

theorem wordTerm_of_notMem_valueWords {name : List Char} (h : String.ofList name ∉ valueWords)
    (start : Nat) : wordTerm ⟨start, name⟩ = .symbol ⟨start, name⟩ := by
  simp only [valueWords, List.mem_cons, List.not_mem_nil, or_false, not_or] at h
  simp [wordTerm, Piece.toString, h]

theorem wordTerm_of_notMem {name : List Char} (h : String.ofList name ∉ keywords) (start : Nat) :
    wordTerm ⟨start, name⟩ = .symbol ⟨start, name⟩ :=
  wordTerm_of_notMem_valueWords (fun hv => h (keywords_of_mem_valueWords _ hv)) start

/-- The root of a chain is read as that root. -/
theorem writeRoot_spells {root : Part} (h : isReadRoot root) :
    ∃ text ls, chainWords.writeRoot root = .ok text ∧ Spells text.toList ls ∧
      ExtendsAt 0 ls (Means (.ofChain [root])) := by
  cases root with
  | ident name =>
    simp only [isReadRoot, Bool.and_eq_true, Bool.not_eq_true', List.contains_eq_mem,
      decide_eq_false_iff_not] at h
    refine ⟨name, _, rfl, .name h.1, .name ?_ fun start => ?_⟩
    · intro hn
      rw [String.toList_inj] at hn
      exact h.2 (by simp [hn, valueWords])
    · rw [wordTerm_of_notMem_valueWords (by simpa using h.2)]
      simp [Means, Term.toExpr, Piece.toString, Expr.ident]
  | literal text =>
    simp only [isReadRoot, isPlainRoot, Bool.or_eq_true, isQuietString, Bool.and_eq_true,
      decide_eq_true_eq] at h
    rcases h with (h | h) | h
    · refine ⟨text, _, rfl, .string h.1 h.2, .string fun start => ?_⟩
      simp [Means, Term.toExpr, Piece.toString, Expr.literal]
    · refine ⟨text, _, rfl, .number h, .number fun start => ?_⟩
      simp [Means, Term.toExpr, Piece.toString, Expr.literal]
    · simp only [List.contains_eq_mem, decide_eq_true_eq, List.mem_cons, List.not_mem_nil,
        or_false] at h
      rcases h with rfl | rfl | rfl | rfl
      all_goals
        refine ⟨_, _, rfl, .name (by decide), .name (by decide) fun start => ?_⟩
        rfl
  | null =>
    refine ⟨_, _, rfl, .name (by decide), .name (by decide) fun start => ?_⟩
    rfl
  | index => exact absurd h (by simp [isReadRoot, isPlainRoot])
  | blank => exact absurd h (by simp [isReadRoot, isPlainRoot])
  | loopVar => exact absurd h (by simp [isReadRoot, isPlainRoot])

theorem unquoted_of_isIdentifier {name : String} (h : Text.isIdentifier name.toList) :
    Text.unquoted name = name.toList := by
  have hq : Text.unquote? name.toList = none := by
    cases hn : name.toList with
    | nil => rfl
    | cons c cs =>
      have hc := Text.isNameChar_of_mem_identifier h (hn ▸ List.mem_cons_self)
      simp [Text.unquote?, Text.isQuote_eq_false_of_isNameChar hc]
  simp [Text.unquoted, hq]

/-- A property of a chain. -/
theorem toExpr_lookup {scope : Scope} {done : List Part} {part : Part} {x key : Term}
    (hx : x.toExpr scope = .ok (.ofChain done))
    (hk : subscriptPart (done == [.loopVar]) key = .ok part) :
    (Term.lookup x key).toExpr scope = .ok (.ofChain (done ++ [part])) := by
  simp [Term.toExpr, hx, lookupExpr, Expr.ofChain, hk]

/-- The keys of subscripts: quoted strings without comments, and integers. -/
def isKey (key : List Char) : Bool :=
  isQuietString key || Text.isNumber key && (Text.int64? key).isSome

/-- What becomes of a name after a chain. -/
def naming (done : List Part) : String → String :=
  if done = [.loopVar] then chainWords.neutralProperty else id

theorem keyPart_eq {done : List Part} {key : String} (h : Text.int64? key.toList = none)
    (start : Nat) : keyPart (done == [.loopVar]) ⟨start, key.toList⟩ =
      Selector.keyPart (naming done) key := by
  simp only [keyPart, Selector.keyPart, h, Piece.toString, String.ofList_toList, naming]
  by_cases hd : done = [.loopVar] <;> simp [hd]

/-- A key is read as a term for its part. -/
theorem isKey_spells {key : String} (h : isKey key.toList) (done : List Part) :
    ∃ kind, Spells key.toList [⟨kind, key.toList⟩] ∧ ExtendsAt 0 [⟨kind, key.toList⟩] fun x =>
      subscriptPart (done == [.loopVar]) x = .ok (Selector.keyPart (naming done) key) := by
  rw [isKey, isQuietString, Bool.or_eq_true, Bool.and_eq_true, Bool.and_eq_true,
    decide_eq_true_eq] at h
  rcases h with hstring | ⟨hnumber, hint⟩
  · refine ⟨.string, .string hstring.1 hstring.2, .string fun start => ?_⟩
    rw [subscriptPart, keyPart_eq (Selector.int64?_of_isString hstring.1)]
  · obtain ⟨i, hi⟩ := Option.isSome_iff_exists.mp hint
    refine ⟨.number, .number hnumber, .number fun start => ?_⟩
    simp [subscriptPart, Selector.keyPart, hi]

/-- A name after a dot adds a part to a chain, with blanks around the dot or without. -/
theorem property_spells {left right name : String} (hleft : ∀ c ∈ left.toList, Text.isBlank c)
    (hright : ∀ c ∈ right.toList, Text.isBlank c) (h : Text.isIdentifier name.toList)
    {scope : Scope} {s : List Char} {ls : List Lexeme} {done : List Part} (hs : Spells s ls)
    (he : ExtendsAt 0 ls fun x => x.toExpr scope = .ok (.ofChain done)) :
    ∃ ls', Spells (s ++ (left.toList ++ '.' :: (right.toList ++ name.toList))) ls' ∧
      ExtendsAt 0 ls' fun x =>
        x.toExpr scope = .ok (.ofChain (done ++ [.ident (naming done name)])) := by
  refine ⟨_, hs.append (.blanks hleft (.lone (by decide) (.blanks hright (.name h))))
    (.blanks hleft (by simpa using Parts.dot hright h [])),
    he.property fun x start hx => toExpr_lookup hx ?_⟩
  by_cases hd : done = [.loopVar] <;> simp [subscriptPart, keyPart, Piece.toString,
    unquoted_of_isIdentifier h, h, naming, hd]

/-- A key in brackets adds a part to a chain, with blanks before the bracket or without. -/
theorem subscript_spells {outer left key right : String}
    (houter : ∀ c ∈ outer.toList, Text.isBlank c) (hleft : ∀ c ∈ left.toList, Text.isBlank c)
    (hkey : isKey key.toList) (hright : ∀ c ∈ right.toList, Text.isBlank c) {scope : Scope}
    {s : List Char} {ls : List Lexeme} {done : List Part} (hs : Spells s ls)
    (he : ExtendsAt 0 ls fun x => x.toExpr scope = .ok (.ofChain done)) :
    ∃ ls', Spells (s ++ (outer.toList ++
        '[' :: (left.toList ++ (key.toList ++ (right.toList ++ [']']))))) ls' ∧
      ExtendsAt 0 ls' fun x =>
        x.toExpr scope = .ok (.ofChain (done ++ [Selector.keyPart (naming done) key])) := by
  obtain ⟨kind, hk, hr⟩ := isKey_spells hkey done
  have hclosed := hk.append (.blanks hright (.lone (c := ']') (by decide) .nil))
    (.blanks hright (.cons (by decide) []))
  refine ⟨_, ?_, he.subscript (hr.readsAt.mono (by omega) (by omega)) fun x y hx hy =>
    toExpr_lookup hx hy⟩
  rw [List.append_assoc]
  exact hs.append (.blanks houter (.lone (by decide) (.blanks hleft hclosed)))
    (.blanks houter (.cons (by decide) _))

/-- What a selector adds to the text of a chain is read as one more part of it. -/
theorem selector_spells {sel : Selector} (h : sel.isWritten Text.isIdentifier isKey) {scope : Scope}
    {s : List Char} {ls : List Lexeme} {done : List Part} (hs : Spells s ls)
    (he : ExtendsAt 0 ls fun x => x.toExpr scope = .ok (.ofChain done)) :
    ∃ ls', Spells (s ++ sel.text.toList) ls' ∧ ExtendsAt 0 ls' fun x =>
      x.toExpr scope = .ok (.ofChain (done ++ [sel.toPart (naming done) (naming done)])) := by
  have hnone : ∀ c ∈ "".toList, Text.isBlank c := by decide
  cases sel with
  | dot name =>
    simpa [Selector.toList_dot, Selector.toPart] using property_spells hnone hnone h hs he
  | bracket left key right =>
    simp only [Selector.isWritten, Bool.and_eq_true, List.all_eq_true] at h
    simpa [Selector.toList_bracket, Selector.toPart] using
      subscript_spells hnone h.1.1 h.1.2 h.2 hs he

/-- An access is written as a selector. -/
theorem exists_selector_of_isPlainAccess {part : Part} (h : isPlainAccess part) (position : Nat) :
    ∃ sel : Selector, chainWords.writeAccess false position part = .ok sel.text ∧
      sel.isWritten Text.isIdentifier isKey ∧ sel.toPart id id = part := by
  cases part with
  | ident name => exact ⟨.dot name, rfl, h, rfl⟩
  | literal text =>
    simp only [isPlainAccess, Bool.and_eq_true, Bool.not_eq_true'] at h
    have hstring := (Bool.and_eq_true _ _ |>.mp h.1).1
    refine ⟨.bracket "" text "", ?_, ?_, ?_⟩
    · simp [ChainWords.writeAccess, Selector.text]
    · simp [Selector.isWritten, isKey, h.1]
    · simp [Selector.toPart, Selector.keyPart, Selector.int64?_of_isString hstring, h.2]
  | index value =>
    have hn : Text.isNumber (toString value.toInt).toList := by
      rw [Text.toList_toString_of_nonneg (decide_eq_true_eq.mp h)]
      exact Text.isNumber_of_digits (Text.toDigits_ne_nil _) fun c hc =>
        Text.isDigit_of_mem_toDigits hc
    have hint := Text.int64?_toString value
    refine ⟨.bracket "" (toString value.toInt) "",
      by simp [ChainWords.writeAccess, Selector.text], ?_⟩
    generalize toString value.toInt = key at hn hint ⊢
    exact ⟨by simp [Selector.isWritten, isKey, hn, hint],
      by simp [Selector.toPart, Selector.keyPart, hint]⟩
  | null => exact absurd h (by simp [isPlainAccess])
  | blank => exact absurd h (by simp [isPlainAccess])
  | loopVar => exact absurd h (by simp [isPlainAccess])

/-- Selectors add their parts to a chain, if it is more than the loop object. -/
theorem texts_spells {ss : List Selector} (h : ∀ sel ∈ ss, sel.isWritten Text.isIdentifier isKey)
    {scope : Scope} {s : List Char} {ls : List Lexeme} {root : Part} {done : List Part}
    (hd : root :: done ≠ [.loopVar]) (hs : Spells s ls)
    (he : ExtendsAt 0 ls fun x => x.toExpr scope = .ok (.ofChain (root :: done))) :
    ∃ ls', Spells (s ++ (Selector.texts ss).toList) ls' ∧ ExtendsAt 0 ls' fun x =>
      x.toExpr scope = .ok (.ofChain (root :: done ++ ss.map (Selector.toPart id id))) := by
  induction ss generalizing s ls done with
  | nil => exact ⟨ls, by simpa [Selector.texts] using hs, by simpa using he⟩
  | cons sel ss ih =>
    rw [List.forall_mem_cons] at h
    obtain ⟨ls₁, hs₁, he₁⟩ := selector_spells h.1 hs he
    rw [naming, if_neg hd] at he₁
    obtain ⟨ls₂, hs₂, he₂⟩ := ih h.2 (by simp) hs₁ he₁
    exact ⟨ls₂, by simpa [Selector.texts] using hs₂, by simpa using he₂⟩

/-- A chain is written, and its text is read as that chain. -/
theorem write_spells {chain : List Part} (h : isReadChain chain) :
    ∃ text ls, chainWords.write chain = .ok text ∧ Spells text.toList ls ∧
      ExtendsAt 0 ls (Means (.ofChain chain)) := by
  cases chain with
  | nil => exact absurd h (by decide)
  | cons root parts =>
    rw [isReadChain, Bool.and_eq_true, List.all_eq_true] at h
    have hd : root ≠ .loopVar := by
      rintro rfl
      exact absurd h.1 (by decide)
    obtain ⟨first, ls₁, hw₁, hs₁, he₁⟩ := writeRoot_spells h.1
    obtain ⟨ss, hw₂, hss, rfl⟩ :=
      Selector.exists_of_writeAccesses (fun _ => exists_selector_of_isPlainAccess) h.2 1
    obtain ⟨ls₂, hs₂, he₂⟩ := texts_spells hss (by simpa using hd) hs₁ he₁
    refine ⟨first ++ Selector.texts ss, ls₂, ?_, by simpa using hs₂, he₂⟩
    rw [ChainWords.write, hw₁, ok_bind, beq_eq_false_iff_ne.mpr hd, hw₂]
    rfl

/-- A negative number is written, and its text is read as that number. -/
theorem write_negative {chain : List Part} (h : isNegative chain) :
    ∃ text ls, chainWords.write chain = .ok text ∧ Spells text.toList ls ∧
      ReadsAt 1 ls (Means (.ofChain chain)) := by
  unfold isNegative at h
  split at h
  · next text =>
    rw [Bool.and_eq_true, beq_iff_eq] at h
    obtain ⟨cs, hcs⟩ := List.head?_eq_some_iff.mp h.1
    rw [hcs, List.tail_cons] at h
    have hread : ReadsAt 0 [⟨.number, cs⟩] fun x => ∃ start, x = .literal .number ⟨start, cs⟩ :=
      (ExtendsAt.number fun start => ⟨start, rfl⟩).readsAt
    refine ⟨text, _, by simp [ChainWords.write, ChainWords.writeRoot, ChainWords.writeAccesses], ?_,
      (hread.mono (by omega) (by omega)).opposite ?_⟩
    · rw [hcs]
      have hspells := Spells.number h.2
      cases cs with
      | nil => exact absurd h.2 (by decide)
      | cons d ds => exact hspells.minus (Text.isNameChar_of_isDigit (Text.isNumber_cons.mp h.2).1)
    · rintro _ ⟨start, rfl⟩
      have htext : text = "-" ++ String.ofList cs := by
        rw [← String.toList_inj, hcs]
        simp
      simp [Means, Term.toExpr, Expr.literal, Piece.toString, htext]
  · cases h

end Stencil.Nunjucks
