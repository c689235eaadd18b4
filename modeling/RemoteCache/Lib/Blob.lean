import Mathlib.Algebra.Notation.Defs
import Mathlib.Tactic.Common

/-!
# Sparse strings

A `Blob` is a finite string over an alphabet with a zero letter, given by its
size and its letters; every letter past the end is zero. Slicing is what a
positioned read returns and `write` is what a positioned write leaves behind,
the gap between the old end and the offset being zero-filled.
-/
namespace RemoteCache

@[ext] structure Blob (α : Type) [Zero α] where
  size : Nat
  get : Nat → α
  beyond : ∀ i, size ≤ i → get i = 0

namespace Blob

variable {α : Type} [Zero α]

attribute [simp] Blob.mk.injEq

def empty : Blob α := ⟨0, fun _ => 0, fun _ _ => rfl⟩

def ofFn (n : Nat) (f : Nat → α) : Blob α :=
  ⟨n, fun i => if i < n then f i else 0, fun _ h => if_neg (Nat.not_lt.mpr h)⟩

/-- The letters at `[off, off + len)`, cut at the end of the string. -/
def slice (b : Blob α) (off len : Nat) : Blob α :=
  ofFn (min len (b.size - off)) fun i => b.get (off + i)

/-- Letters `d` placed at `off`; an empty `d` does not extend the string. -/
def write (b d : Blob α) (off : Nat) : Blob α where
  size := if d.size = 0 then b.size else max b.size (off + d.size)
  get i := if off ≤ i ∧ i < off + d.size then d.get (i - off) else b.get i
  beyond i h := by
    have large : b.size ≤ i ∧ ¬(off ≤ i ∧ i < off + d.size) := by
      split at h <;> omega
    rw [if_neg large.2, b.beyond i large.1]

/-- The string grown to exactly `n` letters with zeros, or cut there. -/
def pad (b : Blob α) (n : Nat) : Blob α := ofFn n b.get

def append (b c : Blob α) : Blob α := b.write c b.size

/-- One string after the other. -/
def concat (bs : List (Blob α)) : Blob α := bs.foldl append empty

@[simp] theorem size_empty : (empty : Blob α).size = 0 := rfl
@[simp] theorem get_empty (i : Nat) : (empty : Blob α).get i = 0 := rfl
@[simp] theorem size_ofFn (n : Nat) (f : Nat → α) : (ofFn n f).size = n := (rfl)
@[simp] theorem size_slice (b : Blob α) (off len : Nat) :
    (b.slice off len).size = min len (b.size - off) := (rfl)
@[simp] theorem size_pad (b : Blob α) (n : Nat) : (b.pad n).size = n := (rfl)

theorem get_ofFn (n : Nat) (f : Nat → α) (i : Nat) :
    (ofFn n f).get i = if i < n then f i else 0 := rfl

theorem get_pad (b : Blob α) (n i : Nat) : (b.pad n).get i = if i < n then b.get i else 0 := rfl

theorem size_write (b d : Blob α) (off : Nat) :
    (b.write d off).size = if d.size = 0 then b.size else max b.size (off + d.size) := rfl

theorem get_write (b d : Blob α) (off i : Nat) :
    (b.write d off).get i = if off ≤ i ∧ i < off + d.size then d.get (i - off) else b.get i := rfl

/-- How far a string reaches after a write. -/
theorem lt_size_write (b d : Blob α) (off i : Nat) :
    i < (b.write d off).size ↔ i < b.size ∨ (0 < d.size ∧ i < off + d.size) := by
  rw [size_write]
  split <;> omega

/-- What is written at the start hides the beginning of the string. -/
theorem get_write_zero (b d : Blob α) {i : Nat} (small : i < d.size) :
    (b.write d 0).get i = d.get i := by
  rw [get_write, if_pos (by omega), Nat.sub_zero]

theorem get_slice (b : Blob α) (off len i : Nat) :
    (b.slice off len).get i = if i < len then b.get (off + i) else 0 := by
  simp only [slice, get_ofFn]
  by_cases inside : off + i < b.size
  · simp only [show i < min len (b.size - off) ↔ i < len by omega]
  · rw [b.beyond (off + i) (by omega), if_neg (by omega), ite_self]

theorem eq_of_get {b c : Blob α} (size : b.size = c.size)
    (get : ∀ i, i < b.size → b.get i = c.get i) : b = c := by
  refine Blob.ext size (funext fun i => ?_)
  by_cases inside : i < b.size
  · exact get i inside
  · rw [b.beyond i (by omega), c.beyond i (by omega)]

theorem eq_empty_of_size {b : Blob α} (none : b.size = 0) : b = empty :=
  eq_of_get none fun i inside => by omega

@[simp] theorem write_of_empty (b d : Blob α) (off : Nat) (none : d.size = 0) :
    b.write d off = b := by
  refine eq_of_get (by rw [size_write, if_pos none]) fun i _ => ?_
  rw [get_write, if_neg (by omega)]

theorem size_write_within (b d : Blob α) (off : Nat) (fits : off + d.size ≤ b.size) :
    (b.write d off).size = b.size := by
  rw [size_write]
  split <;> omega

/-- A whole string written over a shorter one replaces it. -/
theorem write_zero_eq (b d : Blob α) (covers : b.size ≤ d.size) : b.write d 0 = d := by
  refine eq_of_get ?_ fun i inside => ?_
  · rw [size_write]; split <;> omega
  · rw [size_write] at inside
    exact get_write_zero b d (by split at inside <;> omega)

/-- A write leaves nothing but its own letters only if it covers the string from the start. -/
theorem write_eq_iff (b d : Blob α) (off : Nat) :
    b.write d off = d ↔ (off = 0 ∨ d.size = 0) ∧ b.size ≤ d.size := by
  constructor
  · intro same
    have size := congrArg Blob.size same
    rw [size_write] at size
    split at size <;> omega
  · rintro ⟨rfl | none, covers⟩
    · exact write_zero_eq b d covers
    · rw [write_of_empty b d off none]
      exact (eq_empty_of_size (by omega)).trans (eq_empty_of_size none).symm

@[simp] theorem pad_self (b : Blob α) : b.pad b.size = b :=
  eq_of_get rfl fun _ inside => if_pos inside

@[simp] theorem slice_self (b : Blob α) : b.slice 0 b.size = b :=
  eq_of_get (by simp) fun i inside => by
    rw [get_slice, if_pos (by simpa using inside), Nat.zero_add]

theorem lt_size_slice (b : Blob α) {off len i : Nat} (short : i < len)
    (inside : off + i < b.size) : i < (b.slice off len).size := by
  rw [size_slice]
  omega

theorem size_slice_pos (b : Blob α) {off len : Nat} (some : 0 < len) (inside : off < b.size) :
    0 < (b.slice off len).size :=
  b.lt_size_slice some inside

/-- A slice that ends in the string is as long as asked for. -/
theorem size_slice_inside (b : Blob α) {off len : Nat} (inside : off + len ≤ b.size) :
    (b.slice off len).size = len := by
  rw [size_slice]
  omega

theorem slice_slice (b : Blob α) (off len off' len' : Nat) (inside : off' + len' ≤ len) :
    (b.slice off len).slice off' len' = b.slice (off + off') len' := by
  refine eq_of_get (by simp only [size_slice]; omega) fun i small => ?_
  simp only [size_slice] at small
  simp only [get_slice]
  rw [if_pos (by omega), if_pos (by omega), if_pos (by omega), Nat.add_assoc]

/-- A slice is as long as the string allows. -/
theorem slice_cut (b : Blob α) (off : Nat) {len len' : Nat}
    (same : min len (b.size - off) = min len' (b.size - off)) :
    b.slice off len = b.slice off len' :=
  eq_of_get same fun i inside => by
    simp only [size_slice] at inside
    rw [get_slice, get_slice, if_pos (by omega), if_pos (by omega)]

theorem slice_write_below (b d : Blob α) {off start : Nat} {len : Nat}
    (below : off + d.size ≤ start) : (b.write d off).slice start len = b.slice start len := by
  refine eq_of_get ?_ fun i _ => ?_
  · simp only [size_slice, size_write]
    split <;> omega
  · simp only [get_slice, get_write]
    rw [if_neg (show ¬(off ≤ start + i ∧ start + i < off + d.size) by omega)]

/-- What was written at the start can be read there. -/
theorem slice_written (b d : Blob α) : (b.write d 0).slice 0 d.size = d := by
  refine eq_of_get ?_ fun i inside => ?_
  · simp only [size_slice, size_write]
    split <;> omega
  · simp only [size_slice] at inside
    rw [get_slice, if_pos (by omega), Nat.zero_add, get_write_zero b d (by omega)]

/-! ### Concatenation -/

theorem size_append (b c : Blob α) : (b.append c).size = b.size + c.size := by
  rw [append, size_write]
  split <;> omega

theorem get_append (b c : Blob α) (i : Nat) :
    (b.append c).get i = if i < b.size then b.get i else c.get (i - b.size) := by
  rw [append, get_write]
  by_cases first : i < b.size
  · rw [if_neg (by omega), if_pos first]
  · rw [if_neg first]
    split
    · rfl
    · rw [b.beyond i (by omega), c.beyond (i - b.size) (by omega)]

theorem concat_concat (bs : List (Blob α)) (b : Blob α) :
    concat (bs ++ [b]) = (concat bs).append b := by
  rw [concat, List.foldl_append, List.foldl_cons, List.foldl_nil, concat]

@[simp] theorem concat_singleton (b : Blob α) : concat [b] = b :=
  eq_of_get (by simp [concat, size_append]) fun i _ => by simp [concat, get_append]

theorem write_zero_write (b d e : Blob α) : (b.write d 0).write e 0 = b.write (d.write e 0) 0 := by
  refine eq_of_get ?_ fun i _ => ?_
  · simp only [size_write]
    split_ifs <;> omega
  · simp only [get_write, lt_size_write, Nat.zero_le, true_and, Nat.zero_add, Nat.sub_zero]
    split_ifs <;> first | rfl | omega

/-- Two writes, the second one starting where the first ended. -/
theorem write_write (b d e : Blob α) (off : Nat) :
    (b.write d off).write e (off + d.size) = b.write (d.append e) off := by
  refine eq_of_get ?_ fun i _ => ?_
  · simp only [size_write, size_append]
    split_ifs <;> omega
  · simp only [get_write, size_append, get_append]
    by_cases second : off + d.size ≤ i ∧ i < off + d.size + e.size
    · rw [if_pos second, if_pos (by omega), if_neg (by omega)]
      congr 1; omega
    · rw [if_neg second]
      by_cases first : off ≤ i ∧ i < off + d.size
      · rw [if_pos first, if_pos (by omega), if_pos (by omega)]
      · rw [if_neg first, if_neg (by omega)]

/-- The start of two strings put together. -/
theorem slice_append (b c : Blob α) (n : Nat) :
    (b.append c).slice 0 n = (b.slice 0 n).append (c.slice 0 (n - b.size)) := by
  refine eq_of_get ?_ fun i inside => ?_
  · simp only [size_slice, size_append]
    omega
  · have small : i < n := by
      simp only [size_slice] at inside
      omega
    simp only [get_slice, get_append, size_slice, Nat.zero_add, Nat.sub_zero, if_pos small]
    by_cases first : i < b.size
    · rw [if_pos first, if_pos (by omega)]
    · rw [if_neg first, if_neg (by omega), if_pos (by omega)]
      congr 1; omega

end Blob

end RemoteCache
