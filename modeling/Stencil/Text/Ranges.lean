/-!
# Ordered code-point ranges

A character class is kept as a list of inclusive ranges of code points in increasing order.
-/

namespace Stencil.Text

/-- Membership of a code point in an ordered list of inclusive ranges. The search ends at the first
range that begins above the code point. -/
def inRanges (n : Nat) : List (Nat × Nat) → Bool
  | [] => false
  | (lo, hi) :: rest => if n < lo then false else n ≤ hi || inRanges n rest

/-- A member of an ordered list of ranges lies in one of them. -/
theorem exists_range_of_inRanges {n : Nat} :
    {ranges : List (Nat × Nat)} → inRanges n ranges → ∃ r ∈ ranges, r.1 ≤ n ∧ n ≤ r.2
  | [], h => by simp [inRanges] at h
  | (lo, hi) :: rest, h => by
      unfold inRanges at h
      split at h
      · simp at h
      · rename_i hlo
        rcases Bool.or_eq_true _ _ |>.mp h with h | h
        · exact ⟨(lo, hi), List.mem_cons_self, Nat.le_of_not_lt hlo, of_decide_eq_true h⟩
        · obtain ⟨r, hr, hn⟩ := exists_range_of_inRanges h
          exact ⟨r, List.mem_cons_of_mem _ hr, hn⟩

end Stencil.Text
