import Mathlib.Tactic.ByContra
import Stencil.Text.Blank
import Stencil.Text.Literal

/-!
# Character classes

The classes of characters that readers tell apart: name characters, digits, blanks and quotes. Which
signs belong to which class is decided by evaluation; what is proved here is how the classes lie to
each other, for characters of any script. The tables are ordered, so the first range of a table
bounds all of its members from below.
-/

namespace Stencil.Text

/-! ### Deciding what holds of the characters of a text -/

-- Only the characters that occur are looked at: there is also an instance that tries them all.
instance (priority := 2000) decidableForallMem {p : Char → Prop} [DecidablePred p] (s : List Char) :
    Decidable (∀ c ∈ s, p c) :=
  List.decidableBAll p s

instance (priority := 2000) decidableForallMemOption {p : Char → Prop} [DecidablePred p]
    (o : Option Char) :
    Decidable (∀ c ∈ o, p c) :=
  Option.decidableForallMem o

/-! ### Tables -/

/-- The first range of an ordered list bounds its members from below. -/
theorem le_of_inRanges {n lo hi : Nat} {rest : List (Nat × Nat)}
    (h : inRanges n ((lo, hi) :: rest)) : lo ≤ n := by
  by_contra hlt
  rw [inRanges, if_pos (Nat.lt_of_not_le hlt)] at h
  exact absurd h (by decide)

/-- A member of the first range of an ordered list is a member of the list. -/
theorem inRanges_cons_of_mem {n lo hi : Nat} (rest : List (Nat × Nat)) (h₁ : lo ≤ n) (h₂ : n ≤ hi) :
    inRanges n ((lo, hi) :: rest) := by
  rw [inRanges, if_neg (Nat.not_lt.mpr h₁), decide_eq_true h₂, Bool.true_or]

/-! ### Letters, numerals and digits -/

variable {c d : Char}

theorem le_toNat_of_isLetter (h : isLetter c) : 0x41 ≤ c.toNat :=
  le_of_inRanges h

theorem isDigit_iff : isDigit c ↔ 0x30 ≤ c.toNat ∧ c.toNat ≤ 0x39 := by
  simp [isDigit, Char.le_def, UInt32.le_iff_toNat_le]

theorem isNumeral_of_isDigit (h : isDigit c) : isNumeral c := by
  obtain ⟨h₁, h₂⟩ := isDigit_iff.mp h
  exact inRanges_cons_of_mem _ h₁ h₂

theorem isNameChar_of_isDigit (h : isDigit c) : isNameChar c := by
  simp [isNameChar, isWordChar, isNumeral_of_isDigit h]

theorem isNameChar_of_isNameStart (h : isNameStart c) : isNameChar c := by
  rcases Bool.or_eq_true _ _ |>.mp h with h | h
  · simp [isNameChar, isWordChar, h]
  · simp [isNameChar, h]

theorem isDigit_eq_false_of_isNameStart (h : isNameStart c) : isDigit c = false := by
  rw [Bool.eq_false_iff]
  intro hd
  have hc := (isDigit_iff.mp hd).2
  rcases Bool.or_eq_true _ _ |>.mp h with h | h
  · have := le_toNat_of_isLetter h
    omega
  · rw [beq_iff_eq] at h
    subst h
    exact absurd hd (by decide)

/-! ### Blanks and quotes -/

/-- The code points of the blanks, one by one. -/
def blankPoints : List Nat :=
  blankRanges.flatMap fun (lo, hi) => List.range' lo (hi + 1 - lo)

theorem toNat_mem_blankPoints (h : isBlank c) : c.toNat ∈ blankPoints := by
  obtain ⟨r, hr, h₁, h₂⟩ := exists_range_of_inRanges h
  exact List.mem_flatMap.mpr ⟨r, hr, List.mem_range'_1.mpr ⟨h₁, by omega⟩⟩

theorem isBlank_eq_false_of_isNameChar (h : isNameChar c) : isBlank c = false := by
  rw [Bool.eq_false_iff]
  intro hb
  have hp : ∀ n ∈ blankPoints, isNameChar (Char.ofNat n) = false := by decide +kernel
  have := hp _ (toNat_mem_blankPoints hb)
  rw [Char.ofNat_toNat, h] at this
  exact absurd this (by decide)

theorem isNameChar_eq_false_of_isBlank (h : isBlank c) : isNameChar c = false := by
  rw [Bool.eq_false_iff]
  intro hn
  rw [isBlank_eq_false_of_isNameChar hn] at h
  cases h

theorem isNameStart_eq_false_of_isBlank (h : isBlank c) : isNameStart c = false := by
  rw [Bool.eq_false_iff]
  intro hs
  have hn := isNameChar_of_isNameStart hs
  rw [isNameChar_eq_false_of_isBlank h] at hn
  cases hn

theorem isDigit_eq_false_of_isBlank (h : isBlank c) : isDigit c = false := by
  rw [Bool.eq_false_iff]
  intro hd
  have hn := isNameChar_of_isDigit hd
  rw [isNameChar_eq_false_of_isBlank h] at hn
  cases hn

/-- A blank is none of the signs. -/
theorem ne_of_isBlank (h : isBlank c) (hd : isBlank d = false) : c ≠ d := by
  rintro rfl
  rw [hd] at h
  cases h

theorem isQuote_eq_false_of_isNameChar (h : isNameChar c) : isQuote c = false := by
  rw [Bool.eq_false_iff]
  intro hq
  rcases Bool.or_eq_true _ _ |>.mp hq with hq | hq <;>
    · rw [beq_iff_eq] at hq
      subst hq
      exact absurd h (by decide)

theorem isBlank_eq_false_of_isQuote (h : isQuote c) : isBlank c = false := by
  rcases Bool.or_eq_true _ _ |>.mp h with h | h <;>
    · rw [beq_iff_eq] at h
      subst h
      decide

theorem isQuote_eq_false_of_isBlank (h : isBlank c) : isQuote c = false := by
  rw [Bool.eq_false_iff]
  intro hq
  rw [isBlank_eq_false_of_isQuote hq] at h
  cases h

/-- A name character is none of the signs. -/
theorem ne_of_isNameChar (h : isNameChar c) (hd : isNameChar d = false) : c ≠ d := by
  rintro rfl
  rw [h] at hd
  exact absurd hd (by decide)

/-! ### Identifiers -/

theorem isIdentifier_cons {cs : List Char} :
    isIdentifier (c :: cs) ↔ isNameStart c ∧ ∀ d ∈ cs, isNameChar d := by
  simp [isIdentifier]

theorem ne_nil_of_isIdentifier {name : List Char} (h : isIdentifier name) : name ≠ [] := by
  rintro rfl
  exact absurd h (by decide)

theorem isNameChar_of_mem_identifier {name : List Char} (h : isIdentifier name) (hc : c ∈ name) :
    isNameChar c := by
  cases name with
  | nil => simp at hc
  | cons d ds =>
    obtain ⟨hd, hds⟩ := isIdentifier_cons.mp h
    rcases List.mem_cons.mp hc with rfl | hc
    · exact isNameChar_of_isNameStart hd
    · exact hds c hc

end Stencil.Text
