import RemoteCache.Lib.Transition
import Mathlib.Algebra.BigOperators.Fin

/-!
# Runs that use up a potential

A run is bounded if every step uses up some of a potential. Where the potential
is a sum over the parties, a step of one party changes it by what this party
gains or loses.
-/
namespace RemoteCache

namespace Run

variable {S E O : Type} {step : S → E → O → S → Prop}

/-- If every step uses up some of a potential, and adds to it only what is paid for the step, then
a run is no longer than the potential at its start and all that is paid. -/
theorem length_le {s t : S} {trace : List (E × O)} (run : Run step s trace t) (Inv : S → Prop)
    (potential : S → ℕ) (paid : E × O → ℕ) (initial : Inv s)
    (keeps : ∀ {s e o t}, Inv s → step s e o t → Inv t)
    (uses : ∀ {s e o t}, Inv s → step s e o t → potential t + 1 ≤ potential s + paid (e, o)) :
    trace.length + potential t ≤ potential s + (trace.map paid).sum := by
  have both : Inv t ∧ trace.length + potential t ≤ potential s + (trace.map paid).sum := by
    induction run with
    | refl => exact ⟨initial, by simp⟩
    | next before taken ih =>
      obtain ⟨inv, bound⟩ := ih
      have used := uses inv taken
      refine ⟨keeps inv taken, ?_⟩
      rw [List.length_append, List.length_singleton, List.map_append, List.sum_append,
        List.map_singleton, List.sum_singleton]
      omega
  exact both.2

end Run

namespace Potential

variable {A : Type} (f : A → ℕ)

theorem sum_update {n : ℕ} (parties : Fin n → A) (w : Fin n) (a : A) :
    (∑ w', f (Function.update parties w a w')) + f (parties w) = (∑ w', f (parties w')) + f a := by
  have others : ∑ w' ∈ Finset.univ.erase w, f (Function.update parties w a w') =
      ∑ w' ∈ Finset.univ.erase w, f (parties w') := by
    refine Finset.sum_congr rfl fun w' member => ?_
    rw [Function.update_of_ne (Finset.ne_of_mem_erase member)]
  rw [← Finset.add_sum_erase _ _ (Finset.mem_univ w), others,
    ← Finset.add_sum_erase _ (fun w' => f (parties w')) (Finset.mem_univ w),
    Function.update_self]
  omega

theorem sum_set {parties : List A} {c : ℕ} {a : A} (found : parties[c]? = some a) (next : A) :
    ((parties.set c next).map f).sum + f a = (parties.map f).sum + f next := by
  induction parties generalizing c with
  | nil => simp at found
  | cons first parties ih =>
    cases c with
    | zero =>
      have same : first = a := by simpa using found
      rw [List.set_cons_zero, List.map_cons, List.map_cons, List.sum_cons, List.sum_cons, same]
      omega
    | succ c =>
      have rest := ih (c := c) (by simpa using found)
      rw [List.set_cons_succ, List.map_cons, List.map_cons, List.sum_cons, List.sum_cons]
      omega

end Potential

end RemoteCache
