import Stencil.Text.Name

/-!
# Bounded decimal integers

Decimal integers as texts: an optional sign and at least one ASCII digit, leading zeros allowed,
and a value that fits a machine word.
-/

namespace Stencil.Text

/-- The value of ASCII digits read after a number `acc`. -/
def naturalFrom (acc : Nat) : List Char → Option Nat
  | [] => some acc
  | c :: cs => if isDigit c then naturalFrom (10 * acc + (c.toNat - '0'.toNat)) cs else none

/-- The number written by one or more ASCII digits. -/
def natural? : List Char → Option Nat
  | [] => none
  | c :: cs => naturalFrom 0 (c :: cs)

/-- The position in a list that a text writes. It has no bound of its own: what does not fit a
machine word is past the end of every list. -/
def position? : List Char → Option Nat
  | '+' :: cs => natural? cs
  | cs => natural? cs

/-- The number a text writes, its sign included. -/
def integer? : List Char → Option Int
  | '-' :: cs => (natural? cs).map fun n => -(n : Int)
  | '+' :: cs => (natural? cs).map Int.ofNat
  | cs => (natural? cs).map Int.ofNat

/-- The 64-bit word that holds an integer, if one does. -/
def toInt64? (n : Int) : Option Int64 :=
  if Int64.minValue.toInt ≤ n ∧ n ≤ Int64.maxValue.toInt then some (Int64.ofInt n) else none

/-- The signed 64-bit number that a text writes. -/
def int64? (cs : List Char) : Option Int64 :=
  (integer? cs).bind toInt64?

theorem toInt64?_toInt (n : Int64) : toInt64? n.toInt = some n := by
  have h : Int64.minValue.toInt ≤ n.toInt ∧ n.toInt ≤ Int64.maxValue.toInt :=
    ⟨n.minValue_le_toInt, n.toInt_le⟩
  rw [toInt64?, if_pos h, Int64.ofInt_toInt]

end Stencil.Text
