import Stencil.Proofs.Text.Character
import Stencil.Text.Integer

/-!
# Decimal integers read back

The decimal text of a number is read as that number. Subscripts are written by this text, so this is
what brings an index back.
-/

namespace Stencil.Text

/-- Digits are read one stretch after the other. -/
theorem naturalFrom_append (acc : Nat) (a b : List Char) :
    naturalFrom acc (a ++ b) = (naturalFrom acc a).bind fun n => naturalFrom n b := by
  induction a generalizing acc with
  | nil => rfl
  | cons c cs ih =>
    rw [List.cons_append, naturalFrom, naturalFrom]
    by_cases hc : isDigit c
    · rw [if_pos hc, if_pos hc, ih]
    · rw [if_neg hc, if_neg hc]
      rfl

theorem naturalFrom_digitChar (acc : Nat) {d : Nat} (hd : d < 10) :
    naturalFrom acc [d.digitChar] = some (10 * acc + d) := by
  have h : ∀ d < 10, isDigit d.digitChar ∧ d.digitChar.toNat - '0'.toNat = d := by decide
  rw [naturalFrom, if_pos (h d hd).1, (h d hd).2, naturalFrom]

theorem naturalFrom_toDigits (n : Nat) : naturalFrom 0 (Nat.toDigits 10 n) = some n := by
  induction n using Nat.strongRecOn with
  | ind n ih =>
    rw [Nat.toDigits_eq_if (by decide)]
    split
    · next h => rw [naturalFrom_digitChar 0 h, Nat.mul_zero, Nat.zero_add]
    · next h =>
      rw [naturalFrom_append, ih (n / 10) (Nat.div_lt_self (by omega) (by omega)), Option.bind_some,
        naturalFrom_digitChar _ (Nat.mod_lt n (by omega)), Nat.div_add_mod]

theorem isDigit_of_mem_toDigits {n : Nat} {c : Char} (h : c ∈ Nat.toDigits 10 n) : isDigit c := by
  have := Nat.isDigit_of_mem_toDigits (by decide) (by decide) h
  simpa [isDigit, Char.isDigit, Char.le_def] using this

theorem toDigits_ne_nil (n : Nat) : Nat.toDigits 10 n ≠ [] := by
  rw [Nat.toDigits_eq_if (by decide)]
  split <;> simp

theorem natural?_toDigits (n : Nat) : natural? (Nat.toDigits 10 n) = some n := by
  have hn := naturalFrom_toDigits n
  cases h : Nat.toDigits 10 n with
  | nil => exact absurd h (toDigits_ne_nil n)
  | cons c cs => rwa [h] at hn

/-- The digits of a number are read back as a position. -/
theorem position?_toDigits (n : Nat) : position? (Nat.toDigits 10 n) = some n := by
  have hd : ∀ c ∈ Nat.toDigits 10 n, isDigit c := fun c hc => isDigit_of_mem_toDigits hc
  unfold position?
  split
  · next h => exact absurd (hd '+' (by simp [h])) (by decide)
  · exact natural?_toDigits n

/-- A text of digits has no sign to be read. -/
theorem integer?_toDigits (n : Nat) : integer? (Nat.toDigits 10 n) = some (n : Int) := by
  have hd : ∀ c ∈ Nat.toDigits 10 n, isDigit c := fun c hc => isDigit_of_mem_toDigits hc
  unfold integer?
  split
  · next h => exact absurd (hd '-' (by simp [h])) (by decide)
  · next h => exact absurd (hd '+' (by simp [h])) (by decide)
  · rw [natural?_toDigits]
    rfl

theorem toList_toString_of_nonneg {i : Int} (h : 0 ≤ i) :
    (toString i).toList = Nat.toDigits 10 i.toNat := by
  obtain ⟨n, rfl⟩ := Int.eq_ofNat_of_zero_le h
  simp [toString, Int.repr]

theorem toList_toString_of_neg {i : Int} (h : i < 0) :
    (toString i).toList = '-' :: Nat.toDigits 10 i.natAbs := by
  obtain ⟨n, rfl⟩ := Int.eq_negSucc_of_lt_zero h
  simp [toString, Int.repr]

/-- The text of an integer is read as the integer. -/
theorem integer?_toString (i : Int) : integer? (toString i).toList = some i := by
  by_cases h : 0 ≤ i
  · rw [toList_toString_of_nonneg h, integer?_toDigits, Int.toNat_of_nonneg h]
  · have hi := Int.ofNat_natAbs_of_nonpos (Int.le_of_lt (Int.not_le.mp h))
    rw [toList_toString_of_neg (Int.not_le.mp h), integer?, natural?_toDigits]
    simp [hi]

/-- The text of a 64-bit integer is read as the integer. -/
theorem int64?_toString (i : Int64) : int64? (toString i.toInt).toList = some i := by
  rw [int64?, integer?_toString, Option.bind_some, toInt64?_toInt]

end Stencil.Text
