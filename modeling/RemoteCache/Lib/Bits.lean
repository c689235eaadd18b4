import Mathlib.Data.Nat.Bitwise
import Mathlib.Tactic.Common

/-!
# Bits in bytes

Bit `b` of a list of bytes is bit `b % 8` of byte `b / 8`; past the end of the
list every bit is clear. Setting one bit of one byte sets that bit and no other,
so a loop that sets bits one by one lays out a list of them.
-/
namespace RemoteCache

def bitAt (bytes : List UInt8) (b : ℕ) : Bool := (bytes.getD (b / 8) 0).toNat.testBit (b % 8)

/-- The bits of bytes, least significant bit of a byte first. -/
def bitsOf (bytes : List UInt8) : List Bool :=
  bytes.flatMap fun byte => (List.range 8).map byte.toNat.testBit

/-- The bytes with bit `i` set, if it is within them. -/
def orBit (bytes : List UInt8) (i : ℕ) : List UInt8 :=
  bytes.modify (i / 8) (· ||| (1 <<< (UInt8.ofNat (i % 8))))

theorem testBit_or_shift (byte : UInt8) {i : ℕ} (bit : i < 8) (j : ℕ) :
    (byte ||| (1 <<< (UInt8.ofNat i))).toNat.testBit j =
      (byte.toNat.testBit j || decide (i = j)) := by
  -- The shift does not leave the byte.
  have mask : (1 <<< (UInt8.ofNat i) : UInt8).toNat = 2 ^ i := by
    have small : 2 ^ i < 2 ^ 8 := Nat.pow_lt_pow_right (by decide) bit
    rw [UInt8.toNat_shiftLeft, UInt8.toNat_ofNat', Nat.mod_eq_of_lt (show i < 2 ^ 8 by omega),
      Nat.mod_eq_of_lt bit, UInt8.toNat_one, Nat.one_shiftLeft, Nat.mod_eq_of_lt small]
  rw [UInt8.toNat_or, Nat.testBit_or, mask, Nat.testBit_two_pow]

theorem bitAt_orBit {bytes : List UInt8} {i : ℕ} (inside : i / 8 < bytes.length) (b : ℕ) :
    bitAt (orBit bytes i) b = (bitAt bytes b || decide (i = b)) := by
  have split : i = b ↔ i / 8 = b / 8 ∧ i % 8 = b % 8 := by omega
  simp only [bitAt, orBit, List.getD_eq_getElem?_getD, List.getElem?_modify]
  by_cases same : i / 8 = b / 8
  · obtain ⟨byte, here⟩ : ∃ byte, bytes[b / 8]? = some byte :=
      ⟨_, List.getElem?_eq_getElem (same ▸ inside)⟩
    simp only [here, if_pos same, Option.map_eq_map, Option.map_some, Option.getD_some]
    rw [testBit_or_shift _ (Nat.mod_lt _ (by decide))]
    simp [split, same]
  · simp [split, same]

/-- Setting the bits of a list, from bit `start` on. -/
theorem bitAt_foldl (bits : List Bool) (bytes : List UInt8) (start : ℕ)
    (room : start + bits.length ≤ 8 * bytes.length) (b : ℕ) :
    bitAt ((bits.zipIdx start).foldl (fun bytes bit => if bit.1 then orBit bytes bit.2 else bytes)
        bytes) b =
      (bitAt bytes b || (decide (start ≤ b) && bits.getD (b - start) false)) := by
  induction bits generalizing start bytes with
  | nil => simp
  | cons bit bits ih =>
    rw [List.length_cons] at room
    have length : (if bit then orBit bytes start else bytes).length = bytes.length := by
      split <;> simp [orBit]
    rw [List.zipIdx_cons, List.foldl_cons, ih _ _ (by rw [length]; omega)]
    have head : bitAt (if bit then orBit bytes start else bytes) b =
        (bitAt bytes b || (bit && decide (start = b))) := by
      cases bit with
      | false => simp
      | true => simpa using bitAt_orBit (show start / 8 < bytes.length by omega) b
    rw [head, Bool.or_assoc]
    congr 1
    -- Bits before `start` are not touched, and later ones belong to the rest.
    rcases Nat.lt_trichotomy start b with before | rfl | after
    · obtain ⟨n, rfl⟩ := Nat.exists_eq_add_of_lt before
      have place : start + n + 1 - start = n + 1 ∧ start + n + 1 - (start + 1) = n := by omega
      simp only [place, List.getD_cons_succ]
      simp [show start ≠ start + n + 1 by omega, show start ≤ start + n + 1 by omega]
    · simp [show ¬start + 1 ≤ start by omega]
    · simp [show start ≠ b by omega, show ¬start ≤ b by omega, show ¬start + 1 ≤ b by omega]

theorem bitAt_zeros (n b : ℕ) : bitAt (List.replicate n 0) b = false := by
  have zero : (List.replicate n (0 : UInt8)).getD (b / 8) 0 = 0 := by
    rw [List.getD_eq_getElem?_getD, List.getElem?_replicate]
    split <;> rfl
  rw [bitAt, zero]
  exact Nat.zero_testBit _

/-! ### All bits of a list of bytes -/

theorem length_bitsOf (bytes : List UInt8) : (bitsOf bytes).length = 8 * bytes.length := by
  induction bytes with
  | nil => rfl
  | cons byte bytes ih =>
    rw [bitsOf, List.flatMap_cons, List.length_append, ← bitsOf, ih, List.length_map,
      List.length_range, List.length_cons]
    omega

theorem getD_bitsOf (bytes : List UInt8) (b : ℕ) : (bitsOf bytes).getD b false = bitAt bytes b := by
  induction bytes generalizing b with
  | nil =>
    rw [bitAt, List.getD_nil]
    exact (Nat.zero_testBit _).symm
  | cons byte bytes ih =>
    have first : ((List.range 8).map byte.toNat.testBit).length = 8 := by simp
    rw [bitsOf, List.flatMap_cons, ← bitsOf]
    by_cases own : b < 8
    · rw [List.getD_append _ _ _ _ (by omega), bitAt, Nat.div_eq_of_lt own, Nat.mod_eq_of_lt own,
        List.getD_cons_zero, List.getD_eq_getElem?_getD, List.getElem?_map,
        List.getElem?_range own]
      rfl
    · obtain ⟨c, rfl⟩ := Nat.exists_eq_add_of_le' (Nat.not_lt.mp own)
      rw [List.getD_append_right _ _ _ _ (by omega), first, Nat.add_sub_cancel, ih, bitAt, bitAt,
        Nat.add_div_right _ (by decide), Nat.add_mod_right, List.getD_cons_succ]

end RemoteCache
