import RemoteCache.Lib.Blob
import Mathlib.Data.List.Induction

/-!
# Address spaces cut into segments

Objects are written at offsets of a flat address space; what is stored are
segments of a fixed length, each grown as far as its highest write reaches. A
segment represents a history of writes when it exists as soon as a write has
hit it, ends where the highest write ended, and shows the latest letter at each
offset. A positioned write to the right segment keeps this.
-/
namespace RemoteCache

/-- A string placed at an offset of an object. -/
structure Placed (κ α : Type) [Zero α] where
  key : κ
  data : Blob α
  off : ℕ

variable {κ α : Type} [Zero α]

namespace Placed

def Covers (w : Placed κ α) (k : κ) (x : ℕ) : Prop :=
  w.key = k ∧ w.off ≤ x ∧ x < w.off + w.data.size

/-- The write starts in segment `s` of the object. -/
def Hits (length : ℕ) (w : Placed κ α) (k : κ) (s : ℕ) : Prop := w.key = k ∧ w.off / length = s

/-- The write has letters, and all of them lie in one piece of the given length. -/
def Within (length : ℕ) (w : Placed κ α) : Prop :=
  0 < w.data.size ∧ w.off % length + w.data.size ≤ length

instance [DecidableEq κ] (w : Placed κ α) (k : κ) (x : ℕ) : Decidable (w.Covers k x) :=
  inferInstanceAs (Decidable (_ ∧ _))

instance [DecidableEq κ] (length : ℕ) (w : Placed κ α) (k : κ) (s : ℕ) :
    Decidable (w.Hits length k s) :=
  inferInstanceAs (Decidable (_ ∧ _))

/-- A write within a piece stays within the larger pieces that are made of such. -/
theorem Within.mono {w : Placed κ α} {length : ℕ} (within : w.Within length) (count : ℕ)
    (some : 0 < count) : w.Within (length * count) := by
  refine ⟨within.1, ?_⟩
  have first : w.off % (length * count) =
      length * (w.off / length % count) + w.off % length := by
    rw [Nat.mod_mul, Nat.add_comm]
  -- The larger piece is cut at whole multiples of the smaller length.
  have room : length * (w.off / length % count) + length ≤ length * count := by
    rw [← Nat.mul_succ]
    exact Nat.mul_le_mul_left length (Nat.mod_lt _ some)
  have := within.2
  omega

/-- The letters of a write lie in the segment that it hits. -/
theorem Covers.hits {w : Placed κ α} {length : ℕ} (within : w.Within length) {k : κ} {s i : ℕ}
    (covers : w.Covers k (s * length + i)) (inside : i < length) : w.Hits length k s := by
  refine ⟨covers.1, ?_⟩
  have start := Nat.div_add_mod w.off length
  have room := within.2
  rw [Nat.div_eq_iff (by omega)]
  have first := covers.2.1
  have last := covers.2.2
  rcases Nat.lt_trichotomy (w.off / length) s with lower | same | higher
  -- A write into a lower segment ends at or before the start of this one.
  · have step : length * (w.off / length) + length ≤ s * length := by
      rw [← Nat.mul_succ, Nat.mul_comm s]
      exact Nat.mul_le_mul_left length lower
    omega
  · rw [same, Nat.mul_comm] at start
    omega
  -- A write into a higher segment starts after this one.
  · have step : s * length + length ≤ length * (w.off / length) := by
      rw [← Nat.succ_mul, Nat.mul_comm]
      exact Nat.mul_le_mul_left length higher
    omega

end Placed

variable [DecidableEq κ]

/-- The letter of the latest write that covers the offset. -/
def latest? (ws : List (Placed κ α)) (k : κ) (x : ℕ) : Option α :=
  ws.foldl (fun last w => if w.Covers k x then some (w.data.get (x - w.off)) else last) none

/-- Where the writes that hit a segment end in it, at most. -/
def highestEnd (length : ℕ) (ws : List (Placed κ α)) (k : κ) (s : ℕ) : ℕ :=
  ws.foldl (fun high w => if w.Hits length k s then max high (w.off % length + w.data.size)
    else high) 0

theorem latest?_concat (ws : List (Placed κ α)) (w : Placed κ α) (k : κ) (x : ℕ) :
    latest? (ws ++ [w]) k x =
      if w.Covers k x then some (w.data.get (x - w.off)) else latest? ws k x := by
  simp [latest?]

theorem highestEnd_concat (length : ℕ) (ws : List (Placed κ α)) (w : Placed κ α) (k : κ) (s : ℕ) :
    highestEnd length (ws ++ [w]) k s =
      if w.Hits length k s then max (highestEnd length ws k s) (w.off % length + w.data.size)
      else highestEnd length ws k s := by
  simp [highestEnd]

/-- What a segment, absent or present, says about the writes so far. -/
inductive Represents (length : ℕ) (ws : List (Placed κ α)) (k : κ) (s : ℕ) :
    Option (Blob α) → Prop
  | absent (unhit : ∀ w ∈ ws, ¬w.Hits length k s) : Represents length ws k s none
  | present (b : Blob α) (hit : ∃ w ∈ ws, w.Hits length k s)
      (size : b.size = highestEnd length ws k s)
      (letters : ∀ i < length, b.get i = (latest? ws k (s * length + i)).getD 0) :
      Represents length ws k s (some b)

namespace Represents

variable {length : ℕ} {ws : List (Placed κ α)} {w : Placed κ α} {k : κ} {s : ℕ}
  {seg : Option (Blob α)}

theorem highestEnd_unhit (unhit : ∀ w ∈ ws, ¬w.Hits length k s) :
    highestEnd length ws k s = 0 := by
  induction ws using List.reverseRecOn with
  | nil => rfl
  | append_singleton ws w ih =>
    rw [highestEnd_concat, if_neg (unhit w (by simp))]
    exact ih fun v member => unhit v (List.mem_append_left _ member)

theorem latest?_unhit (within : ∀ w ∈ ws, w.Within length)
    (unhit : ∀ w ∈ ws, ¬w.Hits length k s) {i : ℕ} (inside : i < length) :
    latest? ws k (s * length + i) = none := by
  induction ws using List.reverseRecOn with
  | nil => rfl
  | append_singleton ws w ih =>
    rw [latest?_concat, if_neg fun covers =>
      unhit w (by simp) (covers.hits (within w (by simp)) inside)]
    exact ih (fun v member => within v (List.mem_append_left _ member))
      fun v member => unhit v (List.mem_append_left _ member)

theorem empty (length : ℕ) (k : κ) (s : ℕ) :
    Represents length ([] : List (Placed κ α)) k s none := .absent (by simp)

/-- A segment says what it did before a write elsewhere. -/
theorem other (represents : Represents length ws k s seg) (within : w.Within length)
    (apart : ¬w.Hits length k s) : Represents length (ws ++ [w]) k s seg := by
  cases represents with
  | absent unhit =>
    refine .absent fun v member => ?_
    rcases List.mem_append.mp member with old | new
    · exact unhit v old
    · exact List.mem_singleton.mp new ▸ apart
  | present b hit size letters =>
    obtain ⟨v, member, hits⟩ := hit
    refine .present b ⟨v, List.mem_append_left _ member, hits⟩ ?_ fun i inside => ?_
    · rw [highestEnd_concat, if_neg apart, size]
    · rw [latest?_concat, if_neg fun covers => apart (covers.hits within inside), letters i inside]

/-- A positioned write to the segment that the write hits. -/
theorem write (represents : Represents length ws k s seg) (earlier : ∀ w ∈ ws, w.Within length)
    (within : w.Within length) (hits : w.Hits length k s) :
    Represents length (ws ++ [w]) k s
      (some ((seg.getD .empty).write w.data (w.off % length))) := by
  -- An absent segment counts as an empty one, with zeros as its letters.
  have size : (seg.getD .empty).size = highestEnd length ws k s := by
    cases represents with
    | absent unhit => exact (highestEnd_unhit unhit).symm
    | present b hit size letters => exact size
  have letters : ∀ i < length, (seg.getD .empty).get i =
      (latest? ws k (s * length + i)).getD 0 := by
    intro i inside
    cases represents with
    | absent unhit => rw [latest?_unhit earlier unhit inside]; rfl
    | present b hit size letters => exact letters i inside
  obtain ⟨rfl, rfl⟩ := hits
  refine .present _ ⟨w, by simp, rfl, rfl⟩ ?_ fun i inside => ?_
  · rw [highestEnd_concat, if_pos ⟨rfl, rfl⟩, Blob.size_write, if_neg (by have := within.1; omega),
      size]
  · have start := Nat.div_add_mod w.off length
    rw [Nat.mul_comm] at start
    rw [Blob.get_write, latest?_concat]
    -- The write is the latest where it covers the segment.
    by_cases fresh : w.off % length ≤ i ∧ i < w.off % length + w.data.size
    · rw [if_pos fresh, if_pos ⟨rfl, by omega, by omega⟩, Option.getD_some]
      congr 1; omega
    · rw [if_neg fresh, if_neg (by rintro ⟨_, above, below⟩; omega)]
      exact letters i inside

end Represents

end RemoteCache
