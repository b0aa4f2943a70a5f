import Stencil.Nunjucks.Token
import Stencil.Proofs.Text.Literal
import Stencil.Proofs.Text.Word

/-!
# Tokens of a written text

The text of an expression falls into tokens at the seams where it was put together. Which tokens
those are does not depend on the place of the text, so a token without its place is a `Lexeme`, and
`Lexes` relates a text to its lexemes: the tokens of the text come before the tokens of whatever
follows it, as long as what follows does not grow together with its last token.
-/

namespace Stencil.Nunjucks

/-- A token without its place. -/
structure Lexeme where
  /-- Its kind. -/
  kind : TokenKind
  /-- Its text. -/
  text : List Char
deriving DecidableEq, Repr

/-- The token without its place. -/
def Token.lexeme (t : Token) : Lexeme :=
  ⟨t.kind, t.text.text⟩

/-- The inside with more tokens before the others. -/
def Inside.prepend (ts : List Token) (l : Inside) : Inside :=
  { l with tokens := ts ++ l.tokens }

variable {c : Char} {s cs rest : List Char} {kind : TokenKind} {ls : List Lexeme}

/-! ### One token -/

/-- Only what comes after the leading blanks has an effect on the tokens. -/
theorem lex_trimStart (p : Piece) : lex p.trimStart = lex p := by
  rw [lex, lex, Piece.trimStart_trimStart]

theorem lex_blanks (hs : ∀ c ∈ s, Text.isBlank c) (start : Nat) (rest : List Char) :
    lex ⟨start, s ++ rest⟩ = lex ⟨start + Text.byteLength s, rest⟩ := by
  rw [← lex_trimStart, Piece.trimStart_blanks hs, lex_trimStart]

@[simp] theorem lex_space (start : Nat) (cs : List Char) :
    lex ⟨start, ' ' :: cs⟩ = lex ⟨start + 1, cs⟩ := by
  rw [← lex_trimStart, Piece.trimStart_space, lex_trimStart]

theorem lex_closing {start : Nat} {ending : Ending} {rest : Piece}
    (hb : ∀ c ∈ cs.head?, Text.isBlank c = false)
    (hc : closing? ⟨start, cs⟩ = some (ending, rest)) :
    lex ⟨start, cs⟩ = (⟨[], ending⟩, rest) := by
  rw [lex, Piece.trimStart_eq_self hb]
  simp [hc]

theorem lex_token {start : Nat} {more : List Char} (hb : Text.isBlank c = false)
    (hc : closing? ⟨start, c :: (cs ++ more)⟩ = none)
    (ht : tokenAt c (cs ++ more) = .ok (kind, cs)) :
    lex ⟨start, c :: (cs ++ more)⟩ =
      ((lex ⟨start + Text.byteLength (c :: cs), more⟩).1.cons ⟨kind, ⟨start, c :: cs⟩⟩,
        (lex ⟨start + Text.byteLength (c :: cs), more⟩).2) := by
  rw [lex, Piece.trimStart_eq_self (by simpa using hb)]
  simp [hc, ht, Piece.drop]

/-- The characters that a closing delimiter can begin with. -/
def startsClosing (c : Char) : Bool :=
  c == '%' || c == '-' || c == '\x7d'

theorem closing?_eq_none (h : startsClosing c = false) (start : Nat) (cs : List Char) :
    closing? ⟨start, c :: cs⟩ = none := by
  simp only [startsClosing, Bool.or_eq_false_iff, beq_eq_false_iff_ne, ne_eq] at h
  obtain ⟨⟨h₁, h₂⟩, h₃⟩ := h
  simp [closing?, closings, Piece.strip?, Text.strip?, Ne.symm h₁, Ne.symm h₂, Ne.symm h₃]

/-! ### Words, numbers and strings -/

/-- What can stand right after a word, a number or a string and does not become part of it. -/
def Seam (rest : List Char) : Prop :=
  ∀ c ∈ rest.head?, Text.isNameChar c = false ∧ Text.isQuote c = false ∧
    (c = '.' → ∀ d ∈ rest.tail.head?, Text.isDigit d = false)

theorem Seam.isNameChar (h : Seam rest) : ∀ c ∈ rest.head?, Text.isNameChar c = false :=
  fun c hc => (h c hc).1

theorem Seam.isDigit (h : Seam rest) : ∀ c ∈ rest.head?, Text.isDigit c = false := by
  intro c hc
  rw [Bool.eq_false_iff]
  intro hd
  have := h.isNameChar c hc
  rw [Text.isNameChar_of_isDigit hd] at this
  exact absurd this (by decide)

theorem startsClosing_eq_false_of_isNameChar (h : Text.isNameChar c) : startsClosing c = false := by
  have h₁ := Text.ne_of_isNameChar h (show Text.isNameChar '%' = false by decide)
  have h₂ := Text.ne_of_isNameChar h (show Text.isNameChar '-' = false by decide)
  have h₃ := Text.ne_of_isNameChar h (show Text.isNameChar '\x7d' = false by decide)
  simp [startsClosing, h₁, h₂, h₃]

theorem tokenAt_name (h : Text.isIdentifier (c :: cs))
    (hr : ∀ d ∈ rest.head?, Text.isNameChar d = false) :
    tokenAt c (cs ++ rest) = .ok (.name, cs) := by
  obtain ⟨hc, hcs⟩ := Text.isIdentifier_cons.mp h
  have hq := Text.isQuote_eq_false_of_isNameChar (Text.isNameChar_of_isNameStart hc)
  have hd := Text.isDigit_eq_false_of_isNameStart hc
  simp [tokenAt, hq, hd, hc, Text.takeWhile_append_stop hcs hr]

/-- A word is the first token of a text that begins with it. -/
theorem lex_name {name : List Char} (h : Text.isIdentifier name)
    (hr : ∀ d ∈ rest.head?, Text.isNameChar d = false) (start : Nat) :
    lex ⟨start, name ++ rest⟩ =
      ((lex ⟨start + Text.byteLength name, rest⟩).1.cons ⟨.name, ⟨start, name⟩⟩,
        (lex ⟨start + Text.byteLength name, rest⟩).2) := by
  cases name with
  | nil => exact absurd h (by decide)
  | cons c cs =>
    have hc := Text.isNameChar_of_mem_identifier h List.mem_cons_self
    exact lex_token (Text.isBlank_eq_false_of_isNameChar hc)
      (closing?_eq_none (startsClosing_eq_false_of_isNameChar hc) _ _) (tokenAt_name h hr)

theorem Seam.endsNumber (h : Seam rest) : Text.EndsNumber rest :=
  fun c hc => ⟨h.isDigit c hc, (h c hc).2.2⟩

theorem tokenAt_number (h : Text.isNumber (c :: cs)) (hr : Seam rest) :
    tokenAt c (cs ++ rest) = .ok (.number, cs) := by
  obtain ⟨hc, hcs⟩ := Text.isNumber_cons.mp h
  have hq := Text.isQuote_eq_false_of_isNameChar (Text.isNameChar_of_isDigit hc)
  have htail := Text.numberTail_append hcs hr.endsNumber
  rw [Text.numberTail] at htail
  simp [tokenAt, hq, hc, htail]

theorem tokenAt_string {q : Char} (h : Text.isString (q :: cs)) (hr : Seam rest) :
    tokenAt q (cs ++ rest) = .ok (.string, cs) := by
  rw [Text.isString_cons] at h
  have hne : rest.head? ≠ some q := by
    intro hq
    have := (hr q hq).2.1
    rw [h.1] at this
    exact absurd this (by decide)
  simp [tokenAt, h.1, (Text.quotedBody_of_quotedRest h.2).1.quotedRest h.1 hne]

/-! ### Texts and their lexemes -/

/-- An operator or bracket. -/
def Lexeme.sign (text : String) : Lexeme :=
  ⟨.sign, text.toList⟩

/-- A word. -/
def Lexeme.word (text : String) : Lexeme :=
  ⟨.name, text.toList⟩

@[simp] theorem Token.isSign_eq (sign : String) (t : Token) :
    t.isSign sign = (t.lexeme == .sign sign) := by
  rw [Bool.eq_iff_iff]
  simp [Token.isSign, Token.lexeme, Lexeme.sign]

@[simp] theorem Token.isName_eq (name : String) (t : Token) :
    t.isName name = (t.lexeme == .word name) := by
  rw [Bool.eq_iff_iff]
  simp [Token.isName, Token.lexeme, Lexeme.word]

/-- The text has the lexemes `ls`, whatever stands after the seam at its end. -/
def Lexes (s : List Char) (ls : List Lexeme) : Prop :=
  ∀ start rest, Seam rest → ∃ ts : List Token, ts.map Token.lexeme = ls ∧
    lex ⟨start, s ++ rest⟩ = ((lex ⟨start + Text.byteLength s, rest⟩).1.prepend ts,
      (lex ⟨start + Text.byteLength s, rest⟩).2)

/-- The text begins with something that can stand right after a word, a number or a string. -/
def Parts (s : List Char) : Prop :=
  ∀ rest, Seam rest → Seam (s ++ rest)

/-- The characters that part a word, a number or a string from what follows. -/
def isParting (c : Char) : Bool :=
  !Text.isNameChar c && !Text.isQuote c && c != '.'

theorem Parts.nil : Parts [] :=
  fun _ h => h

theorem Seam.cons (h : isParting c) (s : List Char) : Seam (c :: s) := by
  intro d hd
  obtain rfl : c = d := by simpa using hd
  simp only [isParting, Bool.and_eq_true, Bool.not_eq_true', bne_iff_ne] at h
  exact ⟨h.1.1, h.1.2, fun hdot => absurd hdot h.2⟩

theorem Parts.cons (h : isParting c) (s : List Char) : Parts (c :: s) :=
  fun rest _ => Seam.cons h (s ++ rest)

theorem isParting_of_isBlank (h : Text.isBlank c) : isParting c := by
  simp [isParting, Text.isNameChar_eq_false_of_isBlank h, Text.isQuote_eq_false_of_isBlank h,
    Text.ne_of_isBlank h (d := '.') (by decide)]

/-- Blanks part, and do not keep what comes after them from doing so. -/
theorem Parts.blanks {b : List Char} (hb : ∀ c ∈ b, Text.isBlank c) (h : Parts s) :
    Parts (b ++ s) := by
  cases b with
  | nil => exact h
  | cons c b => exact .cons (isParting_of_isBlank (hb c List.mem_cons_self)) _

/-- A dot parts as well, before a name with blanks or without. -/
theorem Parts.dot {b name : List Char} (hb : ∀ c ∈ b, Text.isBlank c)
    (h : Text.isIdentifier name) (s : List Char) : Parts ('.' :: (b ++ (name ++ s))) := by
  intro rest _ d hd
  obtain rfl : '.' = d := by simpa using hd
  refine ⟨by decide, by decide, fun _ e he => ?_⟩
  cases b with
  | nil =>
    cases name with
    | nil => exact absurd h (by decide)
    | cons c cs =>
      obtain rfl : c = e := by simpa using he
      exact Text.isDigit_eq_false_of_isNameStart (Text.isIdentifier_cons.mp h).1
  | cons c b =>
    obtain rfl : c = e := by simpa using he
    exact Text.isDigit_eq_false_of_isBlank (hb c List.mem_cons_self)

namespace Lexes

theorem nil : Lexes [] [] := by
  intro start rest _
  exact ⟨[], rfl, by simp [Inside.prepend, Text.byteLength]⟩

/-- An empty text has no lexemes. -/
theorem eq_nil (h : Lexes [] ls) : ls = [] := by
  obtain ⟨ts, rfl, he⟩ := h 0 [] (by simp [Seam])
  have := congrArg (fun r => r.1.tokens.length) he
  simpa [Inside.prepend, Text.byteLength] using this

theorem space (h : Lexes s ls) : Lexes (' ' :: s) ls := by
  intro start rest hr
  obtain ⟨ts, hts, he⟩ := h (start + 1) rest hr
  refine ⟨ts, hts, ?_⟩
  have hsize : (' ').utf8Size = 1 := by decide
  rw [List.cons_append, lex_space, he, Text.byteLength, hsize, Nat.add_assoc]

theorem blanks {b : List Char} (hb : ∀ c ∈ b, Text.isBlank c) (h : Lexes s ls) :
    Lexes (b ++ s) ls := by
  intro start rest hr
  obtain ⟨ts, hts, he⟩ := h (start + Text.byteLength b) rest hr
  refine ⟨ts, hts, ?_⟩
  rw [List.append_assoc, lex_blanks hb, he, Text.byteLength_append, Nat.add_assoc]

/-- Lexemes of texts that are put together at a seam. -/
theorem append {s₁ s₂ : List Char} {ls₁ ls₂ : List Lexeme} (h₁ : Lexes s₁ ls₁) (h₂ : Lexes s₂ ls₂)
    (hs : Parts s₂) : Lexes (s₁ ++ s₂) (ls₁ ++ ls₂) := by
  intro start rest hr
  obtain ⟨ts₁, rfl, he₁⟩ := h₁ start (s₂ ++ rest) (hs rest hr)
  obtain ⟨ts₂, rfl, he₂⟩ := h₂ (start + Text.byteLength s₁) rest hr
  refine ⟨ts₁ ++ ts₂, List.map_append, ?_⟩
  rw [List.append_assoc, he₁, he₂]
  simp [Inside.prepend, Nat.add_assoc]

/-- A single token, read as such before whatever satisfies `stop`. -/
theorem of_tokenAt (hb : Text.isBlank c = false) (hc : startsClosing c = false)
    (ht : ∀ rest, Seam rest → tokenAt c (cs ++ rest) = .ok (kind, cs)) :
    Lexes (c :: cs) [⟨kind, c :: cs⟩] := by
  intro start rest hr
  refine ⟨[⟨kind, ⟨start, c :: cs⟩⟩], rfl, ?_⟩
  exact lex_token hb (closing?_eq_none hc _ _) (ht rest hr)

theorem name {name : List Char} (h : Text.isIdentifier name) : Lexes name [⟨.name, name⟩] := by
  intro start rest hr
  exact ⟨[⟨.name, ⟨start, name⟩⟩], rfl, lex_name h hr.isNameChar start⟩

theorem number {text : List Char} (h : Text.isNumber text) : Lexes text [⟨.number, text⟩] := by
  cases text with
  | nil => exact absurd h (by decide)
  | cons c cs =>
    have hd : Text.isDigit c := by
      rw [Text.isNumber_cons] at h
      exact h.1
    have hc := Text.isNameChar_of_isDigit hd
    exact of_tokenAt (Text.isBlank_eq_false_of_isNameChar hc)
      (startsClosing_eq_false_of_isNameChar hc) fun rest hr => tokenAt_number h hr

theorem string {text : List Char} (h : Text.isString text) : Lexes text [⟨.string, text⟩] := by
  cases text with
  | nil => exact absurd h (by decide)
  | cons q cs =>
    have hq : Text.isQuote q := by
      rw [Text.isString_cons] at h
      exact h.1
    have hc : startsClosing q = false := by
      rw [Text.isQuote, Bool.or_eq_true, beq_iff_eq, beq_iff_eq] at hq
      rcases hq with rfl | rfl <;> decide
    exact of_tokenAt (Text.isBlank_eq_false_of_isQuote hq) hc fun rest hr => tokenAt_string h hr

/-- A sign before a text that it does not grow together with. -/
theorem cons_sign (hb : Text.isBlank c = false)
    (hc : ∀ start rest, closing? ⟨start, c :: (cs ++ (s ++ rest))⟩ = none)
    (ht : ∀ rest, tokenAt c (cs ++ (s ++ rest)) = .ok (.sign, cs)) (h : Lexes s ls) :
    Lexes (c :: cs ++ s) (⟨.sign, c :: cs⟩ :: ls) := by
  intro start rest hr
  obtain ⟨ts, rfl, he⟩ := h (start + Text.byteLength (c :: cs)) rest hr
  refine ⟨⟨.sign, ⟨start, c :: cs⟩⟩ :: ts, rfl, ?_⟩
  rw [List.append_assoc, List.cons_append, lex_token hb (hc start rest) (ht rest), he,
    Text.byteLength_append, ← Nat.add_assoc]
  rfl

/-- The brackets and other signs that no other sign begins with. -/
theorem lone (hc : c ∈ ['(', ')', '[', ']', ',', '|', '.']) (h : Lexes s ls) :
    Lexes (c :: s) (⟨.sign, [c]⟩ :: ls) := by
  simp only [List.mem_cons, List.not_mem_nil, or_false] at hc
  rcases hc with rfl | rfl | rfl | rfl | rfl | rfl | rfl <;>
    exact cons_sign (by decide) (fun _ _ => rfl) (fun _ => rfl) h

/-- The signs that stand between operands, with a space after them. -/
theorem operator {sign : String}
    (hs : sign ∈ ["+", "-", "*", "/", "//", "%", "**", "~", "==", "!=", ">", ">=", "<", "<="])
    (h : Lexes s ls) :
    Lexes (sign.toList ++ ' ' :: s) (.sign sign :: ls) := by
  simp only [List.mem_cons, List.not_mem_nil, or_false] at hs
  rcases hs with
    rfl | rfl | rfl | rfl | rfl | rfl | rfl | rfl | rfl | rfl | rfl | rfl | rfl | rfl <;>
    exact cons_sign (by decide) (fun _ _ => rfl) (fun _ => rfl) h.space

/-- The sign of a negative number or of a difference, right before an operand. -/
theorem minus (hc : Text.isNameChar c) (h : Lexes (c :: s) ls) :
    Lexes ('-' :: c :: s) (.sign "-" :: ls) := by
  have hne : '%' ≠ c ∧ '}' ≠ c := by
    constructor <;>
    · rintro rfl
      exact absurd hc (by decide)
  refine cons_sign (by decide) (fun start rest => ?_) (fun _ => rfl) h
  simp [closing?, closings, Piece.strip?, Text.strip?, hne]

/-- The sign between a keyword and its value. -/
theorem equals (hc : c ≠ '=') (h : Lexes (c :: s) ls) :
    Lexes ('=' :: c :: s) (⟨.sign, ['=']⟩ :: ls) := by
  refine cons_sign (by decide) (fun _ _ => rfl) (fun rest => ?_) h
  have hs : (signs.find? fun sign => Text.startsWith sign.toList ('=' :: c :: (s ++ rest))) =
      some "=" := by
    simp [signs, Text.startsWith, Text.strip?, Ne.symm hc]
  rw [List.nil_append, List.cons_append, tokenAt, hs]
  rfl

end Lexes

/-! ### Whole texts -/

/-- The lexemes of a text that stands on its own. -/
def lexemes (s : List Char) : List Lexeme :=
  (lex ⟨0, s⟩).1.tokens.map Token.lexeme

/-- A text that is made of tokens up to its end: no string is left open, and no closing delimiter
stands between the tokens. -/
def isWhole (s : List Char) : Bool :=
  (lex ⟨0, s⟩).1.ending.kind == .sourceEnd

/-- The tokens, by their kinds. -/
theorem tokenAt_cases {r : List Char} (h : tokenAt c cs = .ok (kind, r)) :
    (kind = .string ∧ Text.isQuote c ∧ ∃ rest, Text.quotedRest c cs = some (r, rest)) ∨
      (kind = .number ∧ Text.isDigit c ∧ r = Text.numberTail cs) ∨
      (kind = .name ∧ Text.isNameStart c ∧ r = cs.takeWhile Text.isNameChar) ∨
      (kind = .sign ∧ (∃ sign ∈ signs, sign.toList = c :: r) ∧ r <+: cs) := by
  unfold tokenAt at h
  split at h
  · next hquote =>
    split at h
    · next rest hbody =>
      cases h
      exact .inl ⟨rfl, hquote, rest, hbody⟩
    · cases h
  split at h
  · next hdigit =>
    cases h
    exact .inr (.inl ⟨rfl, hdigit, rfl⟩)
  split at h
  · next hstart =>
    cases h
    exact .inr (.inr (.inl ⟨rfl, hstart, rfl⟩))
  · split at h
    · next sign hfind =>
      cases h
      have hstarts := List.find?_some hfind
      rw [Text.startsWith, Option.isSome_iff_exists] at hstarts
      obtain ⟨rest, hr⟩ := hstarts
      have hrest := Text.eq_append_of_strip? hr
      have hmem := List.mem_of_find?_eq_some hfind
      have hsigns : ∀ sign ∈ signs, sign.toList ≠ [] := by decide
      obtain ⟨d, ds, hd⟩ := List.exists_cons_of_ne_nil (hsigns sign hmem)
      rw [hd, List.cons_append] at hrest
      obtain ⟨rfl, rfl⟩ := List.cons.inj hrest
      refine .inr (.inr (.inr ⟨rfl, ⟨sign, hmem, ?_⟩, ?_⟩))
      · rw [hd, List.tail_cons]
      · rw [hd, List.tail_cons]
        exact List.prefix_append ds rest
    · cases h

theorem isPrefix_of_tokenAt {r : List Char} (h : tokenAt c cs = .ok (kind, r)) : r <+: cs := by
  rcases tokenAt_cases h with ⟨-, -, rest, hbody⟩ | ⟨-, -, rfl⟩ | ⟨-, -, rfl⟩ | ⟨-, -, hprefix⟩
  · exact ⟨rest, (Text.quotedRest_append hbody).symm⟩
  · exact Text.numberTail_isPrefix cs
  · exact List.takeWhile_prefix _
  · exact hprefix

/-- A token closes its quotes, and it does not end in the middle of a name. -/
theorem stops_of_tokenAt {r : List Char} (h : tokenAt c cs = .ok (kind, r)) (hcs : r ++ rest = cs) :
    Text.Closed (c :: r) ∧ Text.Apart (c :: r) rest := by
  rcases tokenAt_cases h with ⟨-, hquote, _, hbody⟩ | ⟨-, hdigit, rfl⟩ | ⟨-, hstart, rfl⟩ |
    ⟨-, ⟨sign, hsign, hc⟩, -⟩
  · have hready := Text.Ready.quoted hquote hbody
    exact ⟨hready.closed, hready.apart rest⟩
  · have hnumber : ∀ d ∈ c :: Text.numberTail cs, Text.isDigit d ∨ d ∈ ['-', '.'] :=
      List.forall_mem_cons.mpr ⟨.inl hdigit, fun d hd =>
        (Text.mem_numberTail hd).imp_right fun hdot => by simp [hdot]⟩
    have hready := Text.Ready.number hnumber
    exact ⟨hready.closed, hready.apart rest⟩
  · refine ⟨Text.closed_of_unquoted (List.forall_mem_cons.mpr ⟨?_, fun d hd => ?_⟩), .inr ?_⟩
    · exact Text.isQuote_eq_false_of_isNameChar (Text.isNameChar_of_isNameStart hstart)
    · exact Text.isQuote_eq_false_of_isNameChar (List.mem_takeWhile_imp hd)
    · obtain rfl : rest = cs.dropWhile Text.isNameChar :=
        List.append_cancel_left (hcs.trans List.takeWhile_append_dropWhile.symm)
      intro d hd
      have hstop := List.head?_dropWhile_not Text.isNameChar cs
      rw [hd] at hstop
      simpa using hstop
  · have hsigns : ∀ sign ∈ signs, ∀ d ∈ sign.toList,
        Text.isQuote d = false ∧ Text.isNameStart d = false := by decide
    have hready := Text.Ready.of_forall (hc ▸ hsigns sign hsign)
    exact ⟨hready.closed, .inl hready.stop⟩

/-- The names among the tokens are names of their own in the text. -/
theorem ne_of_mem_lex {w : List Char} (hw : Text.IsWord w) {p : Piece}
    (hp : Text.LacksWord w p.text) {t : Token} (h : t ∈ (lex p).1.tokens) (hk : t.kind = .name) :
    t.text.text ≠ w := by
  fun_induction lex p with
  | case1 => cases h
  | case2 => cases h
  | case3 => cases h
  | case4 p _ c cs htext kind r hr after ih =>
    have htrim : Text.LacksWord w p.trimStart.text := hp.trimStart hw
    rw [htext] at htrim
    rcases List.mem_cons.mp h with rfl | h
    · obtain rfl : kind = .name := hk
      obtain ⟨h, -⟩ | ⟨h, -⟩ | ⟨-, -, rfl⟩ | ⟨h, -⟩ := tokenAt_cases hr
      · cases h
      · cases h
      · rintro rfl
        exact htrim (.cons_takeWhile (fun _ h => h) c cs)
      · cases h
    · refine ih ?_ h
      obtain ⟨rest, hrest⟩ := isPrefix_of_tokenAt hr
      obtain ⟨hclosed, hstops⟩ := stops_of_tokenAt hr hrest
      rw [Piece.drop, htext, List.drop_succ_cons, ← hrest, List.drop_left]
      rw [← hrest, ← List.cons_append] at htrim
      exact htrim.of_append hw hclosed hstops

theorem notMem_lexemes {w : String} (hw : Text.IsWord w.toList) (hs : Text.LacksWord w.toList s) :
    .word w ∉ lexemes s := by
  intro h
  obtain ⟨t, ht, he⟩ := List.mem_map.mp h
  exact ne_of_mem_lex hw hs ht (congrArg Lexeme.kind he) (congrArg Lexeme.text he)

/-- What can stand right after a token of any kind and does not become part of it. -/
structure Apart (rest : List Char) : Prop where
  seam : Seam rest
  notMem_signs : ∀ c ∈ rest.head?, ∀ sign ∈ signs, c ∉ sign.toList.tail
  notMem_closings : ∀ c ∈ rest.head?, ∀ entry ∈ closings, c ∉ entry.1.toList

theorem Apart.space (rest : List Char) : Apart (' ' :: rest) := by
  refine ⟨.cons (by decide) rest, ?_, ?_⟩
  · rintro c ⟨⟩
    decide
  · rintro c ⟨⟩
    decide

/-- A sign is found at the start of a text, or it is not, without what comes after the text. -/
theorem startsWith_sign_append (hr : Apart rest) {sign : String} (hs : sign ∈ signs) (c : Char)
    (cs : List Char) :
    Text.startsWith sign.toList (c :: (cs ++ rest)) = Text.startsWith sign.toList (c :: cs) := by
  cases rest with
  | nil => rw [List.append_nil]
  | cons b z =>
    have hb := hr.notMem_signs b rfl sign hs
    cases hsign : sign.toList with
    | nil => rfl
    | cons d ds =>
      rw [hsign, List.tail_cons] at hb
      rw [Text.startsWith, Text.startsWith, Text.strip?, Text.strip?, Text.strip?_append_cons hb]
      split
      · rw [Option.isSome_map]
      · rfl

theorem find?_sign_append (hr : Apart rest) (c : Char) (cs : List Char) :
    (signs.find? fun sign => Text.startsWith sign.toList (c :: (cs ++ rest))) =
      signs.find? fun sign => Text.startsWith sign.toList (c :: cs) := by
  rw [← List.head?_filter, ← List.head?_filter]
  refine congrArg List.head? (List.filter_congr fun sign hs => ?_)
  exact startsWith_sign_append hr hs c cs

/-- A token ends where it would end on its own. -/
theorem tokenAt_append {r : List Char} (hr : Apart rest) (h : tokenAt c cs = .ok (kind, r)) :
    tokenAt c (cs ++ rest) = .ok (kind, r) := by
  unfold tokenAt at h ⊢
  split at h
  · next hc =>
    have hne : rest.head? ≠ some c := fun hh => by simp [(hr.seam c hh).2.1] at hc
    split at h
    · next hq =>
      rw [if_pos hc, Text.quotedRest_append_head hc hne hq]
      exact h
    · cases h
  next hc =>
  rw [if_neg hc]
  split at h
  · next hd =>
    have hnumber := Text.numberTail_append_ends hr.seam.endsNumber cs
    rw [Text.numberTail, Text.numberTail] at hnumber
    rw [if_pos hd, hnumber]
    exact h
  next hd =>
  rw [if_neg hd]
  split at h
  · next hn =>
    rw [if_pos hn, Text.takeWhile_append_head hr.seam.isNameChar]
    exact h
  next hn =>
  rw [if_neg hn, find?_sign_append hr]
  exact h

theorem closing?_append {start : Nat} (hr : Apart rest) (h : closing? ⟨start, s⟩ = none)
    (start' : Nat) : closing? ⟨start', s ++ rest⟩ = none := by
  rw [closing?, List.findSome?_eq_none_iff] at h ⊢
  intro entry he
  have hs := h entry he
  simp only [Option.map_eq_none_iff, Piece.strip?] at hs ⊢
  cases rest with
  | nil => rw [List.append_nil, hs]
  | cons b z =>
    rw [Text.strip?_append_cons (hr.notMem_closings b rfl entry he), hs, Option.map_none]

theorem ending_ne_of_closing? {p rest : Piece} {ending : Ending}
    (h : closing? p = some (ending, rest)) : ending.kind ≠ .sourceEnd := by
  have hclosings : ∀ entry ∈ closings, entry.2 ≠ .sourceEnd := by decide
  obtain ⟨entry, he, h⟩ := List.exists_of_findSome?_eq_some h
  obtain ⟨_, -, h⟩ := Option.map_eq_some_iff.mp h
  obtain ⟨rfl, -⟩ := Prod.mk.inj h
  exact hclosings entry he

/-- The tokens of a text on its own, wherever it stands, come before those of what follows it. -/
theorem lex_append {p : Piece} (h : (lex p).1.ending.kind = .sourceEnd) (hr : Apart rest)
    (start : Nat) :
    ∃ ts : List Token, ts.map Token.lexeme = (lex p).1.tokens.map Token.lexeme ∧
      lex ⟨start, p.text ++ rest⟩ =
        ((lex ⟨start + Text.byteLength p.text, rest⟩).1.prepend ts,
          (lex ⟨start + Text.byteLength p.text, rest⟩).2) := by
  have hblanks : ∀ p : Piece, ∃ blanks, (∀ c ∈ blanks, Text.isBlank c) ∧
      p.text = blanks ++ p.trimStart.text := fun p =>
    ⟨p.text.takeWhile Text.isBlank, fun _ hc => List.mem_takeWhile_imp hc,
      List.takeWhile_append_dropWhile.symm⟩
  fun_induction lex p generalizing start with
  | case1 p ending r hc => exact absurd h (ending_ne_of_closing? hc)
  | case2 p hc ht =>
    obtain ⟨blanks, hb, hp⟩ := hblanks p
    rw [ht, List.append_nil] at hp
    exact ⟨[], rfl, by rw [hp, lex_blanks hb]; simp [Inside.prepend]⟩
  | case3 => cases h
  | case4 p hc c cs ht kind r hk after ih =>
    obtain ⟨blanks, hb, hp⟩ := hblanks p
    obtain ⟨more, rfl⟩ := isPrefix_of_tokenAt hk
    have hdrop : (p.trimStart.drop (r.length + 1)).text = more := by
      simp [Piece.drop, ht]
    have hnext := ih h (start + Text.byteLength blanks + Text.byteLength (c :: r))
    rw [hdrop] at hnext
    obtain ⟨ts, hts, hlex⟩ := hnext
    refine ⟨⟨kind, ⟨start + Text.byteLength blanks, c :: r⟩⟩ :: ts, ?_, ?_⟩
    · rw [List.map_cons, hts]
      rfl
    have hstart : p.trimStart = ⟨p.trimStart.start, c :: (r ++ more)⟩ := by rw [← ht]
    have hhead : c ∈ (Text.trimStart p.text).head? := by
      rw [← Piece.text_trimStart, ht]
      rfl
    have hblank : Text.isBlank c = false := Text.head?_trimStart hhead
    rw [hstart] at hc
    have hclosing := closing?_append hr hc (start + Text.byteLength blanks)
    have htoken := tokenAt_append hr hk
    rw [List.cons_append, List.append_assoc] at hclosing
    rw [List.append_assoc] at htoken
    rw [hp, ht, List.append_assoc, lex_blanks hb, List.cons_append, List.append_assoc,
      lex_token hblank hclosing htoken, hlex]
    simp [Inside.prepend, Inside.cons, Text.byteLength, Nat.add_assoc]

end Stencil.Nunjucks
