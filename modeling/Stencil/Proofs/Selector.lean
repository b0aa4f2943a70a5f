import Stencil.Expr.Chain
import Stencil.Proofs.Text.Literal
import Stencil.Text.Integer

/-!
# Selectors

A property of a value is selected by a name after a dot, or by a key in brackets: a quoted string or
a number, with blanks around it if need be. An access chain is written as a root with selectors
after it, and each of them stands for one part of the chain. A string in brackets that is a name
stands for that name, as if it were written after a dot.

Right after the loop object a name may stand for another one. Whether it does so after a dot and
whether it does so in brackets are two questions, which the languages answer differently.
-/

namespace Stencil

/-- A selector as it is written. -/
inductive Selector where
  /-- A name after a dot. -/
  | dot (name : String)
  /-- A key in brackets, between the blanks around it. -/
  | bracket (left key right : String)
deriving DecidableEq, Repr

namespace Selector

/-- The text of a selector. -/
def text : Selector → String
  | dot name => "." ++ name
  | bracket left key right => "[" ++ left ++ key ++ right ++ "]"

/-- The text of selectors that come one after the other. -/
def texts : List Selector → String
  | [] => ""
  | s :: ss => s.text ++ texts ss

/-- The names and keys of a selector are those of a language, and the rest is blank. -/
def isWritten (isName isKey : List Char → Bool) : Selector → Bool
  | dot name => isName name.toList
  | bracket left key right =>
    left.toList.all Text.isBlank && isKey key.toList && right.toList.all Text.isBlank

/-- The part of a chain that a key stands for, with what becomes of a name. -/
def keyPart (named : String → String) (key : String) : Part :=
  match Text.int64? key.toList with
  | some i => .index i
  | none =>
    if Text.isIdentifier (Text.unquoted key) then .ident (named (String.ofList (Text.unquoted key)))
    else .literal key

/-- The part of a chain that a selector stands for, with what becomes of a name after a dot and of
one in brackets. -/
def toPart (dotted bracketed : String → String) : Selector → Part
  | dot name => .ident (dotted name)
  | bracket _ key _ => keyPart bracketed key

/-- The parts of a chain that selectors after a root stand for. Names are changed right after the
loop object only. -/
def parts (dotted bracketed : String → String) (root : Part) : List Selector → List Part
  | [] => []
  | s :: ss =>
    (if root = .loopVar then s.toPart dotted bracketed else s.toPart id id) ::
      ss.map (toPart id id)

/-! ### Texts -/

theorem toList_dot (name : String) : (dot name).text.toList = '.' :: name.toList := by
  simp [text]

theorem toList_bracket (left key right : String) : (bracket left key right).text.toList =
    '[' :: (left.toList ++ key.toList ++ right.toList) ++ [']'] := by
  simp [text]

theorem text_ne_nil (s : Selector) : s.text.toList ≠ [] := by
  cases s <;> simp [text]

/-- A selector begins with a dot or a bracket. -/
theorem head?_texts {s : Selector} (ss : List Selector) {rest : List Char} {c : Char}
    (h : c ∈ ((texts (s :: ss)).toList ++ rest).head?) : c = '.' ∨ c = '[' := by
  rw [texts, String.toList_append] at h
  cases s with
  | dot name =>
    rw [toList_dot] at h
    exact .inl (by simpa using h.symm)
  | bracket left key right =>
    rw [toList_bracket] at h
    exact .inr (by simpa using h.symm)

/-- Accesses are written as selectors if each of them is. -/
theorem exists_of_writeAccesses {w : ChainWords} {isName isKey : List Char → Bool}
    {isAccess : Part → Bool} (hone : ∀ part, isAccess part → ∀ position, ∃ s : Selector,
      w.writeAccess false position part = .ok s.text ∧ s.isWritten isName isKey ∧
        s.toPart id id = part)
    {parts : List Part} (h : ∀ part ∈ parts, isAccess part) (position : Nat) :
    ∃ ss, w.writeAccesses false position parts = .ok (texts ss) ∧
      (∀ s ∈ ss, s.isWritten isName isKey) ∧ ss.map (toPart id id) = parts := by
  induction parts generalizing position with
  | nil => exact ⟨[], rfl, by simp, rfl⟩
  | cons part parts ih =>
    rw [List.forall_mem_cons] at h
    obtain ⟨s, hw₁, hs, hpart⟩ := hone part h.1 position
    obtain ⟨ss, hw₂, hss, hparts⟩ := ih h.2 (position + 1)
    refine ⟨s :: ss, ?_, List.forall_mem_cons.mpr ⟨hs, hss⟩, by rw [List.map_cons, hpart, hparts]⟩
    rw [ChainWords.writeAccesses, hw₁, ok_bind, hw₂]
    rfl

/-! ### Names after a dot and in brackets -/

theorem int64?_of_isString {key : List Char} (h : Text.isString key) : Text.int64? key = none := by
  cases key with
  | nil => rfl
  | cons q cs =>
    have hq : q = '\'' ∨ q = '"' := by simpa [Text.isQuote] using (Text.isString_cons.mp h).1
    rcases hq with rfl | rfl <;> rfl

theorem isWritten_bracket {isName isKey : List Char → Bool} {key : String} (h : isKey key.toList) :
    (bracket "" key "").isWritten isName isKey := by
  simp [isWritten, h]

/-- A name in quotes is a string. -/
theorem isString_of_quoted {name quote : String} (hname : Text.isIdentifier name.toList)
    (hquote : quote ∈ ["'", "\""]) : Text.isString (quote ++ name ++ quote).toList := by
  obtain ⟨q, hq, rfl⟩ := Text.exists_isQuote_of_mem hquote
  simpa using Text.isString_quoted hq hname

/-- A name in quotes stands for that name. -/
theorem keyPart_quoted {name quote : String} (hname : Text.isIdentifier name.toList)
    (hquote : quote ∈ ["'", "\""]) (named : String → String) :
    keyPart named (quote ++ name ++ quote) = .ident (named name) := by
  obtain ⟨q, hq, rfl⟩ := Text.exists_isQuote_of_mem hquote
  have htext : (String.singleton q ++ name ++ String.singleton q).toList =
      q :: (name.toList ++ [q]) := by simp
  have hunquoted : Text.unquoted (String.singleton q ++ name ++ String.singleton q) =
      name.toList := by
    rw [Text.unquoted, htext, Text.unquote?]
    simp [hq]
  rw [keyPart, htext, int64?_of_isString (Text.isString_quoted hq hname), hunquoted]
  simp [hname]

/-- A name after a dot and in brackets stand for the same part, wherever they stand among other
selectors, if names in these two places do. -/
theorem parts_dot_eq_parts_bracket {name quote : String} (hname : Text.isIdentifier name.toList)
    (hquote : quote ∈ ["'", "\""]) {dotted bracketed : String → String} {root : Part}
    {before : List Selector} (h : root = .loopVar → before = [] → dotted name = bracketed name)
    (after : List Selector) :
    parts dotted bracketed root (before ++ .dot name :: after) =
      parts dotted bracketed root (before ++ .bracket "" (quote ++ name ++ quote) "" :: after) := by
  have hkey := keyPart_quoted hname hquote
  cases before with
  | nil =>
    simp only [List.nil_append, parts, toPart, hkey]
    split
    · next hroot => rw [h hroot rfl]
    · rfl
  | cons s ss => simp only [List.cons_append, parts, List.map_append, List.map_cons, toPart, hkey]

end Selector

end Stencil
