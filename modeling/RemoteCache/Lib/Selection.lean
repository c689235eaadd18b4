import Mathlib.Data.List.MinMax
import Mathlib.Data.List.Sort

/-!
# Selecting the first maximum

Scanning a list with a strict comparison finds the first element of maximal
rank. Removing it and scanning again, until nothing is left, is the stable sort
by decreasing rank.
-/
namespace RemoteCache.Selection

variable {α β : Type} [LinearOrder β] (rank : α → β)

/-- One pass with a strict comparison, starting from the rank `floor`. -/
def scan (floor : β) (l : List α) : β × Option α :=
  l.foldl (fun best a => if best.1 < rank a then (rank a, some a) else best) (floor, none)

private theorem scan_go (l : List α) (best : α) :
    (l.foldl (fun best a => if best.1 < rank a then (rank a, some a) else best)
        (rank best, some best)).2 =
      l.foldl (List.argAux fun b c => rank c < rank b) (some best) := by
  induction l generalizing best with
  | nil => rfl
  | cons a l ih =>
    simp only [List.foldl_cons, List.argAux]
    split
    · exact ih a
    · exact ih best

/-- Above the floor, the scan finds the first element of maximal rank. -/
theorem scan_eq_argmax (floor : β) (l : List α) (above : ∀ a ∈ l, floor < rank a) :
    (scan rank floor l).2 = l.argmax rank := by
  cases l with
  | nil => rfl
  | cons a l =>
    simp only [scan, List.argmax, List.foldl_cons, if_pos (above a List.mem_cons_self), scan_go,
      List.argAux]

/-- The stable sort by decreasing rank. -/
def byRank (l : List α) : List α := l.insertionSort fun a b => rank b ≤ rank a

theorem byRank_perm (l : List α) : (byRank rank l).Perm l := List.perm_insertionSort _ l

/-- The stable sort starts with the first element of maximal rank. -/
theorem byRank_of_argmax [DecidableEq α] (l : List α) (m : α) (first : m ∈ l.argmax rank) :
    byRank rank l = m :: byRank rank (l.erase m) := by
  induction l generalizing m with
  | nil => simp at first
  | cons a l ih =>
    rw [List.argmax_cons] at first
    cases rest : l.argmax rank with
    | none =>
      have empty : l = [] := List.argmax_eq_none.mp rest
      rw [rest] at first
      have same : a = m := by simpa using first
      subst same empty
      simp [byRank]
    | some c =>
      have sorted := ih c rest
      simp only [byRank] at sorted ⊢
      rw [rest] at first
      rw [List.insertionSort_cons, sorted]
      by_cases lower : rank a < rank c
      · have same : c = m := by simpa [lower] using first
        subst same
        have other : a ≠ c := fun same => by simp [same] at lower
        rw [List.erase_cons_tail (by simpa using other)]
        rw [List.insertionSort_cons, List.orderedInsert, if_neg (not_le.mpr lower)]
      · have same : a = m := by simpa [lower] using first
        subst same
        rw [List.erase_cons_head, sorted, List.orderedInsert, if_pos (not_lt.mp lower)]

/-! ### Order and stability -/

private theorem falling_total : Std.Total fun a b : α => rank b ≤ rank a :=
  ⟨fun _ _ => le_total _ _⟩

private theorem falling_trans : IsTrans α fun a b => rank b ≤ rank a :=
  ⟨fun _ _ _ first second => second.trans first⟩

theorem byRank_pairwise (l : List α) : (byRank rank l).Pairwise fun a b => rank b ≤ rank a := by
  have total := falling_total rank
  have trans := falling_trans rank
  exact List.pairwise_insertionSort _ l

/-- Elements of equal rank keep their order. -/
theorem byRank_filter (l : List α) (level : β) :
    (byRank rank l).filter (fun a => rank a = level) = l.filter fun a => rank a = level := by
  have total := falling_total rank
  have trans := falling_trans rank
  have flat : (l.filter fun a => rank a = level).Pairwise fun a b => rank b ≤ rank a := by
    apply List.pairwise_of_forall_mem_list
    intro a first b second
    have own : rank a = level := by simpa using (List.mem_filter.mp first).2
    have other : rank b = level := by simpa using (List.mem_filter.mp second).2
    exact le_of_eq (other.trans own.symm)
  -- The level is a sublist of the sorted list, in which nothing else has that rank.
  have sub : (l.filter fun a => rank a = level).Sublist
      ((byRank rank l).filter fun a => rank a = level) := by
    have kept : (l.filter fun a => rank a = level).Sublist (byRank rank l) :=
      List.sublist_insertionSort flat List.filter_sublist
    simpa using kept.filter fun a => rank a = level
  have lengths := ((byRank_perm rank l).filter fun a => rank a = level).length_eq
  exact (sub.eq_of_length lengths.symm).symm

end RemoteCache.Selection
