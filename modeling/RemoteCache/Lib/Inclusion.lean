import RemoteCache.Lib.Selection
import Mathlib.Data.List.Nodup
import Mathlib.Data.List.Sublists

/-!
# Bounded lists that include each other

A list takes in elements at its front and, when it is full, gives up the first
element of maximal rank. Two such lists of different capacities that are handed
the same elements stay included in each other: what the larger one gives up is
the worst element of the smaller one as well, or is not in it.
-/
namespace RemoteCache.Inclusion

variable {α β : Type} [LinearOrder β] (rank : α → β)

section pop

variable [DecidableEq α]

/-- Gives up the first element of maximal rank. -/
def pop (l : List α) : List α :=
  match l.argmax rank with
  | none => l
  | some m => l.erase m

/-- Takes in an element, after giving one up if the capacity is reached. -/
def enter (capacity : ℕ) (l : List α) (a : α) : List α :=
  a :: if capacity ≤ l.length then pop rank l else l

theorem pop_sublist (l : List α) : (pop rank l).Sublist l := by
  unfold pop
  split
  · exact .refl l
  · exact List.erase_sublist

theorem length_pop (l : List α) : (pop rank l).length = l.length - 1 := by
  unfold pop
  split
  next none => rw [List.argmax_eq_none.mp none, List.length_nil]
  next m worst => exact List.length_erase_of_mem (List.argmax_mem worst)

end pop

/-- The first maximum of a list is that of each sublist that it is in. -/
theorem argmax_sublist {l l' : List α} (sub : l.Sublist l') (distinct : l'.Nodup) {m : α}
    (worst : l'.argmax rank = some m) (inside : m ∈ l) : l.argmax rank = some m := by
  induction sub generalizing m with
  | slnil => cases inside
  | @cons l l' a sub ih =>
    have absent : a ∉ l' := (List.nodup_cons.mp distinct).1
    rw [List.argmax_cons] at worst
    cases later : l'.argmax rank with
    | none =>
      rw [List.argmax_eq_none.mp later] at sub
      rw [List.sublist_nil.mp sub] at inside
      cases inside
    | some c =>
      have other : m ≠ a := fun same => absent (same ▸ sub.subset inside)
      by_cases lower : rank a < rank c
      · have same : c = m := by simpa [later, lower] using worst
        exact ih (List.nodup_cons.mp distinct).2 (same ▸ later) inside
      · have same : a = m := by simpa [later, lower] using worst
        exact absurd same.symm other
  | @cons_cons l l' a sub ih =>
    obtain ⟨absent, distinct⟩ := List.nodup_cons.mp distinct
    rw [List.argmax_cons] at worst ⊢
    cases later : l'.argmax rank with
    | none =>
      rw [List.argmax_eq_none.mp later] at sub
      have same : a = m := by simpa [later] using worst
      rw [List.sublist_nil.mp sub, same]
      rfl
    | some c =>
      by_cases lower : rank a < rank c
      · have same : c = m := by simpa [later, lower] using worst
        subst same
        have other : c ≠ a := fun same => by simp [same] at lower
        rw [ih distinct later (List.mem_of_ne_of_mem other inside)]
        simp [lower]
      · have same : a = m := by simpa [later, lower] using worst
        subst same
        cases first : l.argmax rank with
        | none => rfl
        | some b =>
          -- What is worst in the sublist is not worse than what is worst in the list.
          have most : rank b ≤ rank c :=
            List.le_of_mem_argmax (sub.subset (List.argmax_mem first)) later
          have least : ¬rank a < rank b := fun less => lower (less.trans_le most)
          simp [least]

theorem pop_mono [DecidableEq α] {l l' : List α} (sub : l.Sublist l') (distinct : l'.Nodup) :
    (pop rank l).Sublist (pop rank l') := by
  cases worst : l'.argmax rank with
  | none =>
    have empty := List.argmax_eq_none.mp worst
    rw [empty] at sub
    rw [List.sublist_nil.mp sub, empty]
  | some m =>
    have popped : pop rank l' = l'.erase m := by rw [pop, worst]
    by_cases inside : m ∈ l
    · rw [popped, pop, argmax_sublist rank sub distinct worst inside]
      exact sub.erase m
    · have kept : l.Sublist (l'.erase m) := by
        have erased := sub.erase m
        rwa [List.erase_of_not_mem inside] at erased
      rw [popped]
      exact (pop_sublist rank l).trans kept

/-! ### Two capacities -/

/-- A list is included in another one and falls behind it by no more than the capacities differ. -/
structure Within (c c' : ℕ) (l l' : List α) : Prop where
  sub : l.Sublist l'
  short : l'.length + c ≤ l.length + c'

variable {rank} {c c' : ℕ} {l l' : List α}

theorem Within.filter (within : Within c c' l l') (p : α → Bool) :
    Within c c' (l.filter p) (l'.filter p) := by
  refine ⟨within.sub.filter p, ?_⟩
  -- At least as many elements leave the larger list.
  have left := (within.sub.filter fun a => !p a).length_le
  have whole := List.length_eq_length_filter_add (l := l) p
  have whole' := List.length_eq_length_filter_add (l := l') p
  have short := within.short
  omega

variable [DecidableEq α]

theorem Within.pop (within : Within c c' l l') (le : c ≤ c') (distinct : l'.Nodup) :
    Within c c' (pop rank l) (pop rank l') := by
  refine ⟨pop_mono rank within.sub distinct, ?_⟩
  have short := within.short
  rw [length_pop, length_pop]
  omega

theorem Within.enter (within : Within c c' l l') (le : c ≤ c') (distinct : l'.Nodup) (a : α) :
    Within c c' (enter rank c l a) (enter rank c' l' a) := by
  have short := within.short
  have grown {k k' : List α} (within : Within c c' k k') : Within c c' (a :: k) (a :: k') := by
    refine ⟨within.sub.cons_cons a, ?_⟩
    have short := within.short
    rw [List.length_cons, List.length_cons]
    omega
  apply grown
  by_cases full : c ≤ l.length
  · rw [if_pos full]
    by_cases full' : c' ≤ l'.length
    · rw [if_pos full']
      exact within.pop le distinct
    · -- The larger list has room left, so it may fall behind less.
      rw [if_neg full']
      refine ⟨(pop_sublist rank l).trans within.sub, ?_⟩
      rw [length_pop]
      omega
  · rw [if_neg full, if_neg (by omega)]
    exact within

end RemoteCache.Inclusion
