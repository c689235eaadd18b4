import Mathlib.Tactic.IntervalCases
import Mathlib.Tactic.Common

/-!
# Numerals

Positional notation in any base up to sixteen can be read back, also after
padding with zeros on the left, so different numbers have different numerals.
-/
namespace RemoteCache

abbrev Str := List Char

def digitVal (c : Char) : ℕ := if c.toNat < 58 then c.toNat - 48 else c.toNat - 87

/-- The number a numeral denotes. -/
def numeralVal (base : ℕ) (s : Str) : ℕ := s.foldl (fun acc c => base * acc + digitVal c) 0

theorem digitVal_digitChar {d : ℕ} (small : d < 16) : digitVal d.digitChar = d := by
  interval_cases d <;> rfl

theorem numeralVal_concat (base : ℕ) (s : Str) (c : Char) :
    numeralVal base (s ++ [c]) = base * numeralVal base s + digitVal c := by
  simp [numeralVal]

theorem numeralVal_toDigits {base : ℕ} (large : 1 < base) (small : base ≤ 16) (n : ℕ) :
    numeralVal base (Nat.toDigits base n) = n := by
  induction n using Nat.strongRecOn with
  | ind n ih =>
    by_cases digit : n < base
    · rw [Nat.toDigits_of_lt_base digit]
      simp [numeralVal, digitVal_digitChar (show n < 16 by omega)]
    · have shorter : n / base < n := Nat.div_lt_self (by omega) large
      have last : n % base < 16 := Nat.lt_of_lt_of_le (Nat.mod_lt n (by omega)) small
      rw [Nat.toDigits_of_base_le large (by omega), numeralVal_concat, ih _ shorter,
        digitVal_digitChar last, Nat.div_add_mod]

theorem toDigits_injective {base : ℕ} (large : 1 < base) (small : base ≤ 16) :
    Function.Injective (Nat.toDigits base) := by
  intro n m same
  rw [← numeralVal_toDigits large small n, same, numeralVal_toDigits large small m]

theorem numeralVal_leftpad (base width : ℕ) (s : Str) :
    numeralVal base (s.leftpad width '0') = numeralVal base s := by
  have zeros (k : ℕ) :
      (List.replicate k '0').foldl (fun acc c => base * acc + digitVal c) 0 = 0 := by
    induction k with
    | zero => rfl
    | succ k ih => simpa [List.replicate_succ, digitVal] using ih
  simp [numeralVal, List.leftpad, zeros]

/-- A numeral of fixed width. -/
def padded (base width n : ℕ) : Str := (Nat.toDigits base n).leftpad width '0'

theorem padded_injective {base : ℕ} (width : ℕ) (large : 1 < base) (small : base ≤ 16) :
    Function.Injective (padded base width) := by
  intro n m same
  have value := congrArg (numeralVal base) same
  simpa only [padded, numeralVal_leftpad, numeralVal_toDigits large small] using value

theorem length_padded {base width n : ℕ} (large : 1 < base) (wide : 0 < width)
    (fits : n < base ^ width) : (padded base width n).length = width := by
  have bound := (Nat.length_toDigits_le_iff large wide).mpr fits
  simp [padded, Nat.sub_add_cancel bound]

theorem mem_toDigits {base : ℕ} (large : 1 < base) (n : ℕ) {c : Char}
    (member : c ∈ Nat.toDigits base n) : ∃ d < base, c = d.digitChar := by
  induction n using Nat.strongRecOn with
  | ind n ih =>
    by_cases digit : n < base
    · rw [Nat.toDigits_of_lt_base digit] at member
      exact ⟨n, digit, by simpa using member⟩
    · rw [Nat.toDigits_of_base_le large (by omega), List.mem_append] at member
      rcases member with front | last
      · exact ih _ (Nat.div_lt_self (by omega) large) front
      · exact ⟨n % base, Nat.mod_lt n (by omega), by simpa using last⟩

/-- The letters of a lower-case hexadecimal numeral. -/
def IsHexDigit (c : Char) : Prop := ∃ d < 16, c = Nat.digitChar d

theorem isHexDigit_of_mem_padded {width n : ℕ} {c : Char} (member : c ∈ padded 16 width n) :
    IsHexDigit c := by
  rcases List.mem_append.mp member with pad | digit
  · exact ⟨0, by omega, List.eq_of_mem_replicate pad⟩
  · exact mem_toDigits (by omega) n digit

theorem IsHexDigit.ne_slash {c : Char} (digit : IsHexDigit c) : c ≠ '/' := by
  obtain ⟨d, small, rfl⟩ := digit
  exact Nat.digitChar_ne _ (by decide)

theorem IsHexDigit.ne_dot {c : Char} (digit : IsHexDigit c) : c ≠ '.' := by
  obtain ⟨d, small, rfl⟩ := digit
  exact Nat.digitChar_ne _ (by decide)

end RemoteCache
