import Stencil.Proofs.Liquid.Token

/-!
# Tokens of a text inside a source

The text of a part of a template is split into tokens in the same way whatever comes after it, as
long as that begins with a delimiter. Offsets in the source play no part in this, so the tokens of a
text are only known up to them.
-/

namespace Stencil.Liquid

/-! ### Texts without delimiters -/

/-- A text in which no delimiter begins, also not at its end. -/
def Passage (s : List Char) : Prop :=
  ∀ c ∈ ['{', '%'], Text.Lacks '{' c s

instance (s : List Char) : Decidable (Passage s) :=
  inferInstanceAs (Decidable (∀ c ∈ _, _))

/-- A text in which no tag begins, also not at its end. -/
def HoldsNoTag (content : String) : Prop :=
  ¬ ['{', '%'] <:+: content.toList ∧ content.toList.getLast? ≠ some '{'

/-- A text in which no tag begins can stand in every block. -/
theorem HoldsNoTag.isBody {content : String} (h : HoldsNoTag content) (name : List Char) :
    isBody name content.toList := by
  obtain ⟨hc, hl⟩ := h
  generalize content.toList = cs at hc hl
  fun_induction Liquid.isBody name cs with
  | case1 cs ih =>
    refine ih (fun h => hc (h.trans ⟨['{', '{'], [], by simp⟩)) ?_
    cases cs with
    | nil => exact absurd rfl hl
    | cons d ds => simpa using hl
  | case2 cs ih => exact absurd ⟨[], cs, rfl⟩ hc
  | case3 => exact absurd rfl hl
  | case4 c cs h₁ h₂ h₃ ih =>
    refine ih (fun h => hc (h.trans (List.suffix_cons c cs).isInfix)) ?_
    cases cs with
    | nil => simp
    | cons d ds => simpa using hl
  | case5 => rfl

/-! ### What is known about tokens -/

/-- A text with which a new token begins. -/
def Opens (rest : List Char) : Prop :=
  rest = [] ∨ isOpen rest

/-- Wherever a text stands before a rest of the kind `C`, its tokens do not depend on the rest and
satisfy `P`. -/
def Tokenizes (C : List Char → Prop) (text : List Char) (P : List Token → Prop) : Prop :=
  ∀ start rest, C rest → ∃ ts,
    tokenizePiece ⟨start, text ++ rest⟩ =
      (tokenizePiece ⟨start + Text.byteLength text, rest⟩).map (ts ++ ·) ∧ P ts

/-- Any rest. -/
def Anything (_ : List Char) : Prop :=
  True

variable {C C' : List Char → Prop} {s more : List Char} {P Q : List Token → Prop}

theorem opens_tag (body : String) (trim : Trim) (rest : List Char) :
    Opens ((Markup.tag body trim).toList ++ rest) := by
  rw [toList_tag]
  exact .inr rfl

theorem opens_output (body : String) (trim : Trim) (rest : List Char) :
    Opens ((Markup.output body trim).toList ++ rest) := by
  rw [toList_output]
  exact .inr rfl

namespace Tokenizes

theorem mono (h : Tokenizes C s Q) (hQ : ∀ ts, Q ts → P ts) : Tokenizes C s P := by
  intro start rest hr
  obtain ⟨ts, hts, hq⟩ := h start rest hr
  exact ⟨ts, hts, hQ ts hq⟩

theorem nil (h : P []) : Tokenizes C [] P := by
  intro start rest _
  refine ⟨[], ?_, h⟩
  simp only [List.nil_append, Text.byteLength, Nat.add_zero]
  cases tokenizePiece ⟨start, rest⟩ <;> rfl

theorem append (h : Tokenizes C s Q) (hC : ∀ rest, C' rest → C (more ++ rest))
    (hs : ∀ ts, Q ts → Tokenizes C' more fun us => P (ts ++ us)) : Tokenizes C' (s ++ more) P := by
  intro start rest hr
  obtain ⟨ts, hts, hq⟩ := h start (more ++ rest) (hC rest hr)
  obtain ⟨us, hus, hP⟩ := hs ts hq (start + Text.byteLength s) rest hr
  refine ⟨ts ++ us, ?_, hP⟩
  rw [List.append_assoc, hts, hus, Text.byteLength_append, Nat.add_assoc]
  cases tokenizePiece ⟨start + (Text.byteLength s + Text.byteLength more), rest⟩ with
  | error => rfl
  | ok => simp

theorem token {R : Token → Prop} (hne : s ≠ [])
    (h : ∀ start rest, C rest → ∃ t, readToken ⟨start, s ++ rest⟩ =
      .ok (t, ⟨start + Text.byteLength s, rest⟩) ∧ R t) :
    Tokenizes C s fun ts => ∃ t, ts = [t] ∧ R t := by
  intro start rest hr
  obtain ⟨t, ht, hR⟩ := h start rest hr
  refine ⟨[t], ?_, t, rfl, hR⟩
  rw [tokenizePiece_cons (by simp [hne]) ht]
  rfl

theorem html (hne : s ≠ []) (hs : Passage s) :
    Tokenizes Opens s fun ts => ∃ t, ts = [t] ∧ ∃ text : Piece, t = .html text ∧ text.text = s := by
  have hbrace := hs '{' (by simp)
  have htag := hs '%' (by simp)
  refine token hne fun start rest hr => ?_
  exact ⟨_, readToken_html hne hbrace.1 htag.1 htag.2 hr start, _, rfl, rfl⟩

theorem output {body : String} (h : isEnclosed '}' none body.toList) (trim : Trim) :
    Tokenizes Anything (Markup.output body trim).toList fun ts => ∃ t, ts = [t] ∧ ∃ inner span,
      t = .output inner span trim ∧ inner.text = ' ' :: body.toList ++ [' '] := by
  refine token (by simp [toList_output]) fun start rest _ => ?_
  obtain ⟨inner, span, ht, hi⟩ := readToken_output h trim start rest
  exact ⟨_, ht, inner, span, rfl, hi⟩

theorem verbatim {name content : String} (hv : isVerbatim name)
    (hc : isBody ("end" ++ name).toList content.toList) (trim endTrim : Trim) :
    Tokenizes Anything (Markup.block name content ("end" ++ name) trim endTrim).toList fun ts =>
      ∃ t, ts = [t] ∧ ∃ opening body closing, t = .verbatim opening body closing ∧
        IsTag opening name [] trim ∧ body.toString = content ∧
        IsTag closing ("end" ++ name) [] endTrim := by
  refine token (by simp [Markup.block, toList_tag]) fun start rest _ => ?_
  obtain ⟨opening, body, closing, ht, his⟩ := readToken_verbatim hv hc trim endTrim start rest
  exact ⟨_, ht, opening, body, closing, rfl, his⟩

/-- A written tag, before more. -/
theorem tag (word : String) {body : String} {args : List Char}
    (hbody : body.toList = word.toList ++ argsTail args) (hw : isTagName word.toList)
    (ha : isTagArgs args) (hv : isVerbatim word = false) (trim : Trim)
    (hs : ∀ t, IsTag t word args trim → Tokenizes C more fun ts => P (.tag t :: ts)) :
    Tokenizes C ((Markup.tag body trim).toList ++ more) P := by
  have htag : Tokenizes Anything (Markup.tag body trim).toList fun ts =>
      ∃ t, ts = [t] ∧ ∃ tag, t = .tag tag ∧ IsTag tag word args trim := by
    refine token (by simp [toList_tag]) fun start rest _ => ?_
    obtain ⟨t, ht, his⟩ := readToken_tag hbody hw ha (by rwa [String.ofList_toList]) trim start rest
    exact ⟨_, ht, t, rfl, by rwa [String.ofList_toList] at his⟩
  refine htag.append (fun _ _ => trivial) ?_
  rintro _ ⟨_, rfl, t, rfl, his⟩
  exact hs t his

/-- A written tag without arguments, at the end. -/
theorem closing (word : String) (hw : isTagName word.toList) (hv : isVerbatim word = false)
    (trim : Trim) (hP : ∀ t, IsTag t word [] trim → P [.tag t]) :
    Tokenizes C (Markup.tag word trim).toList P := by
  rw [← List.append_nil (Markup.tag word trim).toList]
  exact tag word (by simp) hw isTagArgs_nil hv trim fun t ht => .nil (hP t ht)

end Tokenizes

end Stencil.Liquid
