import RemoteCache.Lib.Blob
import Mathlib.Logic.Function.Basic

/-!
# Block tables kept in sparse segments

A block table gives every object a sequence of blocks of at most `B` letters.
When `N` consecutive blocks share one sparse segment, storing a block also
grows every earlier block of its segment to full size with zeros: the hole that
a positioned write leaves below itself. `put` is that operation and
`ofSegments_write` says that positioned writes to segments implement it.
-/
namespace RemoteCache

abbrev BlockMap (κ α : Type) [Zero α] := κ → Nat → Blob α

namespace BlockMap

variable {κ α : Type} [Zero α] [DecidableEq κ]

/-- Store `d` as block `b` of object `k`. -/
def put (B N : Nat) (m : BlockMap κ α) (k : κ) (b : Nat) (d : Blob α) : BlockMap κ α :=
  fun k' b' =>
    if k' = k ∧ b' / N = b / N then
      if b' = b then (m k b).write d 0
      else if b' < b then (m k b').pad B
      else m k b'
    else m k' b'

/-- Every block has at most `B` letters. -/
def Fits (B : Nat) (m : BlockMap κ α) : Prop := ∀ k b, (m k b).size ≤ B

/-- The block is present with all of its `B` letters. -/
def Full (B : Nat) (m : BlockMap κ α) (k : κ) (b : Nat) : Prop := (m k b).size = B

instance (B : Nat) (m : BlockMap κ α) (k : κ) (b : Nat) : Decidable (Full B m k b) :=
  inferInstanceAs (Decidable ((m k b).size = B))

section put

variable {B N : Nat} {m : BlockMap κ α} {k k' : κ} {b b' : Nat} {d : Blob α}

@[simp] theorem put_same : put B N m k b d k b = (m k b).write d 0 := by
  simp [put]

theorem put_key_ne (other : k' ≠ k) : put B N m k b d k' b' = m k' b' := by
  simp [put, other]

theorem put_segment_ne (other : b' / N ≠ b / N) : put B N m k b d k' b' = m k' b' := by
  simp [put, other]

theorem put_later (later : b < b') : put B N m k b d k' b' = m k' b' := by
  unfold put
  split
  next here =>
    rw [if_neg (by omega), if_neg (by omega), here.1]
  · rfl

theorem put_earlier (segment : b' / N = b / N) (earlier : b' < b) :
    put B N m k b d k b' = (m k b').pad B := by
  simp [put, segment, earlier, Nat.ne_of_lt earlier]

/-- What storing a block does to the blocks of its object. -/
theorem put_cases (B N : Nat) (m : BlockMap κ α) (k : κ) (b : Nat) (d : Blob α) (b' : Nat) :
    (b' = b ∧ put B N m k b d k b' = (m k b).write d 0) ∨
    ((b' < b ∧ b' / N = b / N) ∧ put B N m k b d k b' = (m k b').pad B) ∨
    ((b' ≠ b ∧ ¬(b' < b ∧ b' / N = b / N)) ∧ put B N m k b d k b' = m k b') := by
  by_cases same : b' = b
  · exact .inl ⟨same, by rw [same, put_same]⟩
  · by_cases hole : b' < b ∧ b' / N = b / N
    · exact .inr (.inl ⟨hole, put_earlier hole.2 hole.1⟩)
    · refine .inr (.inr ⟨⟨same, hole⟩, ?_⟩)
      by_cases segment : b' / N = b / N
      · exact put_later (by have := fun lower => hole ⟨lower, segment⟩; omega)
      · exact put_segment_ne segment

theorem put_fits (fits : Fits B m) (small : d.size ≤ B) : Fits B (put B N m k b d) := by
  intro k' b'
  unfold put
  split
  · split
    · rw [Blob.size_write]
      have old := fits k b
      split <;> omega
    · split
      · exact Nat.le_of_eq (Blob.size_pad _ _)
      · exact fits k b'
  · exact fits k' b'

/-- Storing a block changes no letter of another block: it can only fill it up with zeros. -/
theorem put_get_other (fits : Fits B m) (other : ¬(k' = k ∧ b' = b)) (i : Nat) :
    (put B N m k b d k' b').get i = (m k' b').get i := by
  unfold put
  split
  next here =>
    obtain ⟨rfl, _⟩ := here
    rw [if_neg (fun same => other ⟨rfl, same⟩)]
    split
    · rw [Blob.get_pad]
      split
      · rfl
      · rw [(m k' b').beyond i (by have := fits k' b'; omega)]
    · rfl
  · rfl

theorem put_size_mono (fits : Fits B m) :
    (m k' b').size ≤ (put B N m k b d k' b').size := by
  unfold put
  split
  next here =>
    obtain ⟨rfl, _⟩ := here
    split
    next same =>
      subst same
      rw [Blob.size_write]
      split <;> omega
    · split
      · rw [Blob.size_pad]; exact fits k' b'
      · exact Nat.le_refl _
  · exact Nat.le_refl _

theorem full_put (fits : Fits B m) (small : d.size ≤ B) (full : Full B m k' b') :
    Full B (put B N m k b d) k' b' := by
  have grown : (m k' b').size ≤ (put B N m k b d k' b').size := put_size_mono fits
  have bound := put_fits (N := N) (k := k) (b := b) fits small k' b'
  unfold Full at full ⊢
  omega

theorem full_put_same (small : (m k b).size ≤ B) (whole : d.size = B) :
    Full B (put B N m k b d) k b := by
  rw [Full, put_same, Blob.write_zero_eq _ _ (whole ▸ small), whole]

end put

/-- The table held by segment files of `N` blocks each. -/
def ofSegments (B N : Nat) (seg : κ → Nat → Blob α) : BlockMap κ α :=
  fun k b => (seg k (b / N)).slice (b % N * B) B

omit [DecidableEq κ] in
theorem ofSegments_fits (B N : Nat) (seg : κ → Nat → Blob α) : Fits B (ofSegments B N seg) :=
  fun _ _ => by simp only [ofSegments, Blob.size_slice]; omega

/-- What a positioned write of one block does to each block of the segment. -/
theorem slice_write_block (s d : Blob α) (B i j : Nat) (some : 0 < d.size) (small : d.size ≤ B) :
    (s.write d (i * B)).slice (j * B) B =
      if j = i then (s.slice (i * B) B).write d 0
      else if j < i then (s.slice (j * B) B).pad B
      else s.slice (j * B) B := by
  have positive : d.size ≠ 0 := by omega
  split_ifs with same earlier
  · subst same
    refine Blob.eq_of_get ?_ fun x inside => ?_
    · simp only [Blob.size_slice, Blob.size_write, if_neg positive]; omega
    · have letter : x < B := by simp only [Blob.size_slice] at inside; omega
      simp only [Blob.get_slice, Blob.get_write, if_pos letter, Nat.sub_zero]
      by_cases fresh : x < d.size
      · rw [if_pos (by omega), if_pos (by omega), Nat.add_sub_cancel_left]
      · rw [if_neg (by omega), if_neg (by omega)]
  · have room : j * B + B ≤ i * B := by
      calc j * B + B = (j + 1) * B := by rw [Nat.succ_mul]
        _ ≤ i * B := Nat.mul_le_mul_right B earlier
    refine Blob.eq_of_get ?_ fun x inside => ?_
    · simp only [Blob.size_slice, Blob.size_write, Blob.size_pad, if_neg positive]; omega
    · have letter : x < B := by simp only [Blob.size_slice] at inside; omega
      simp only [Blob.get_slice, Blob.get_write, Blob.get_pad, if_pos letter]
      rw [if_neg (by omega)]
  · have room : i * B + B ≤ j * B := by
      calc i * B + B = (i + 1) * B := by rw [Nat.succ_mul]
        _ ≤ j * B := Nat.mul_le_mul_right B (by omega)
    refine Blob.eq_of_get ?_ fun x inside => ?_
    · simp only [Blob.size_slice, Blob.size_write, if_neg positive]; omega
    · have letter : x < B := by simp only [Blob.size_slice] at inside; omega
      simp only [Blob.get_slice, Blob.get_write, if_pos letter]
      rw [if_neg (by omega)]

/-- Positioned writes to segment files implement `put`. -/
theorem ofSegments_write (B N : Nat) (seg seg' : κ → Nat → Blob α) (k : κ) (b : Nat) (d : Blob α)
    (some : 0 < d.size) (small : d.size ≤ B)
    (written : seg' k (b / N) = (seg k (b / N)).write d (b % N * B))
    (kept : ∀ k' p, ¬(k' = k ∧ p = b / N) → seg' k' p = seg k' p) :
    ofSegments B N seg' = put B N (ofSegments B N seg) k b d := by
  funext k' b'
  simp only [ofSegments, put]
  by_cases here : k' = k ∧ b' / N = b / N
  · obtain ⟨rfl, segment⟩ := here
    have order : b' = N * (b / N) + b' % N := by rw [← segment, Nat.div_add_mod]
    have order' : b = N * (b / N) + b % N := (Nat.div_add_mod b N).symm
    rw [segment, if_pos ⟨rfl, rfl⟩, written, slice_write_block _ _ _ _ _ some small]
    have same : b' % N = b % N ↔ b' = b := by omega
    have less : b' % N < b % N ↔ b' < b := by omega
    simp only [same, less]
  · rw [if_neg here, kept k' (b' / N) here]

end BlockMap

end RemoteCache
