import Mathlib.Algebra.Order.Ring.Int
import Mathlib.Tactic.Common

/-!
# Machine words

Natural numbers as words of 64 bits. A signed operation that overflows has no
result; the unsigned ones wrap around.
-/
namespace RemoteCache

/-- The result of a signed operation, if the word has room for it. -/
def signed (z : ℤ) : Option Int64 := if -2 ^ 63 ≤ z ∧ z < 2 ^ 63 then some (.ofInt z) else none

theorem signed_natCast {n : ℕ} (small : n < 2 ^ 63) : signed n = some (.ofNat n) := by
  rw [signed, if_pos (by omega), Int64.ofInt_eq_ofNat]

/-- A signed word that is not negative stands for a natural number. -/
theorem exists_ofNat {w : Int64} (positive : 0 ≤ w) : ∃ n < 2 ^ 63, w = .ofNat n := by
  refine ⟨w.toNatClampNeg, w.toNatClampNeg_lt, (Int64.ofNat_toNatClampNeg w positive).symm⟩

theorem toNat_ofNat {n : ℕ} (small : n < 2 ^ 64) : (UInt64.ofNat n).toNat = n :=
  UInt64.toNat_ofNat_of_lt' small

theorem ofNat_min {a b : ℕ} (first : a < 2 ^ 64) (second : b < 2 ^ 64) :
    min (UInt64.ofNat a) (UInt64.ofNat b) = UInt64.ofNat (min a b) := by
  have order : UInt64.ofNat a ≤ UInt64.ofNat b ↔ a ≤ b := UInt64.ofNat_le_iff_le first second
  by_cases le : a ≤ b
  · rw [Nat.min_eq_left le]
    exact if_pos (order.mpr le)
  · rw [Nat.min_eq_right (Nat.le_of_not_le le)]
    exact if_neg fun small => le (order.mp small)

end RemoteCache
