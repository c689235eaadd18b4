import Mathlib.Algebra.GroupWithZero.Nat
import RemoteCache.Lib.Blob

/-!
# Strings assembled from pieces

A string that is cut into pieces is restored by writing each piece at its
position, in any order, over any string that is not longer.
-/
namespace RemoteCache

/-- Consecutive pieces of given sizes, each with its position. -/
def pieces (start : ℕ) : List ℕ → List (ℕ × ℕ)
  | [] => []
  | size :: sizes => (start, size) :: pieces (start + size) sizes

/-- A position in a piece. -/
def InPiece (piece : ℕ × ℕ) (i : ℕ) : Prop := piece.1 ≤ i ∧ i < piece.1 + piece.2

theorem pieces_shift (first start : ℕ) (sizes : List ℕ) :
    (pieces start sizes).map (fun piece => (first + piece.1, piece.2)) =
      pieces (first + start) sizes := by
  induction sizes generalizing start with
  | nil => rfl
  | cons size sizes ih => rw [pieces, pieces, List.map_cons, ih, Nat.add_assoc]

theorem pieces_inside {start : ℕ} {sizes : List ℕ} {piece : ℕ × ℕ}
    (member : piece ∈ pieces start sizes) : piece.1 + piece.2 ≤ start + sizes.sum := by
  induction sizes generalizing start with
  | nil => cases member
  | cons size sizes ih =>
    rw [List.sum_cons]
    rcases List.mem_cons.mp member with rfl | later
    · dsimp only
      omega
    · have inside := ih later
      omega

/-- No position is left out. -/
theorem pieces_cover {start : ℕ} {sizes : List ℕ} {i : ℕ} (first : start ≤ i)
    (last : i < start + sizes.sum) : ∃ piece ∈ pieces start sizes, InPiece piece i := by
  induction sizes generalizing start with
  | nil =>
    rw [List.sum_nil] at last
    omega
  | cons size sizes ih =>
    rw [List.sum_cons] at last
    by_cases here : i < start + size
    · exact ⟨(start, size), List.mem_cons_self, first, here⟩
    · obtain ⟨piece, later, inside⟩ := ih (Nat.le_of_not_lt here) (by omega)
      exact ⟨piece, List.mem_cons_of_mem _ later, inside⟩

namespace Blob

variable {α : Type} [Zero α] {D b : Blob α} {done : List (ℕ × ℕ)}

/-- A string that is not longer than `D` and agrees with it in the pieces that are done. -/
structure Assembling (D : Blob α) (done : List (ℕ × ℕ)) (b : Blob α) : Prop where
  size : b.size ≤ D.size
  get : ∀ piece ∈ done, ∀ i, InPiece piece i → i < b.size ∧ b.get i = D.get i

theorem Assembling.start (size : b.size ≤ D.size) : D.Assembling [] b :=
  ⟨size, fun _ member => by cases member⟩

/-- Another piece keeps those that are done, wherever they overlap. -/
theorem Assembling.write (assembling : D.Assembling done b) {piece : ℕ × ℕ}
    (inside : piece.1 + piece.2 ≤ D.size) :
    D.Assembling (piece :: done) (b.write (D.slice piece.1 piece.2) piece.1) := by
  have length : (D.slice piece.1 piece.2).size = piece.2 := D.size_slice_inside inside
  have size := assembling.size
  constructor
  · rw [size_write, length]
    split <;> omega
  · intro other member i within
    rw [lt_size_write, get_write, length]
    by_cases here : piece.1 ≤ i ∧ i < piece.1 + piece.2
    · obtain ⟨first, last⟩ := here
      rw [if_pos ⟨first, last⟩, get_slice, if_pos (by omega), Nat.add_sub_cancel' first]
      exact ⟨.inr ⟨by omega, last⟩, rfl⟩
    · rw [if_neg here]
      rcases List.mem_cons.mp member with rfl | earlier
      · exact absurd within here
      · obtain ⟨there, same⟩ := assembling.get other earlier i within
        exact ⟨.inl there, same⟩

/-- When the pieces cover it, the string is there. -/
theorem Assembling.whole (assembling : D.Assembling done b)
    (cover : ∀ i < D.size, ∃ piece ∈ done, InPiece piece i) : b = D := by
  have reached : ∀ i < D.size, i < b.size ∧ b.get i = D.get i := fun i inside => by
    obtain ⟨piece, member, within⟩ := cover i inside
    exact assembling.get piece member i within
  have size : b.size = D.size := by
    have short := assembling.size
    by_contra other
    have last := (reached (D.size - 1) (by omega)).1
    omega
  exact eq_of_get size fun i inside => (reached i (by omega)).2

end Blob

end RemoteCache
