import Mathlib.Tactic.Common

/-!
# Mutual exclusion

A mutex keeps out all parties but its owner when the parties inside the critical
section are exactly the owner. Taking a free mutex on entry and giving it back
on leaving keeps this, and so does every step that enters or leaves nothing.
-/
namespace RemoteCache

variable {P : Type} {owner : Option P} {holds holds' : P → Prop}

def Exclusive (owner : Option P) (holds : P → Prop) : Prop := ∀ p, holds p ↔ owner = some p

namespace Exclusive

/-- No two parties are inside. -/
theorem alone (exclusive : Exclusive owner holds) {p q : P} (first : holds p) (second : holds q) :
    p = q :=
  Option.some.inj (((exclusive p).mp first).symm.trans ((exclusive q).mp second))

theorem acquire (exclusive : Exclusive owner holds) (free : owner = none) {me : P}
    (inside : holds' me) (others : ∀ p, p ≠ me → (holds' p ↔ holds p)) :
    Exclusive (some me) holds' := by
  intro p
  by_cases same : p = me
  · subst same
    exact iff_of_true inside rfl
  -- Nobody else was inside, as the mutex was free.
  · rw [others p same, exclusive p, free]
    exact iff_of_false (by simp) fun taken => same (Option.some.inj taken).symm

theorem release (exclusive : Exclusive owner holds) {me : P} (inside : holds me)
    (outside : ¬holds' me) (others : ∀ p, p ≠ me → (holds' p ↔ holds p)) :
    Exclusive none holds' := by
  intro p
  refine iff_of_false (fun held => ?_) (by simp)
  by_cases same : p = me
  · exact outside (same ▸ held)
  -- Another party inside would have been inside together with the owner.
  · exact same (exclusive.alone ((others p same).mp held) inside)

theorem keep (exclusive : Exclusive owner holds) (same : ∀ p, holds' p ↔ holds p) :
    Exclusive owner holds' := fun p => (same p).trans (exclusive p)

/-- One party takes the mutex as it enters, or gives it back as it leaves, or does neither. -/
theorem turn {owner' : Option P} (exclusive : Exclusive owner holds) (me : P)
    (others : ∀ p, p ≠ me → (holds' p ↔ holds p))
    (mutex : (owner = none ∧ owner' = some me ∧ holds' me) ∨
      (holds me ∧ owner' = none ∧ ¬holds' me) ∨ (owner' = owner ∧ (holds' me ↔ holds me))) :
    Exclusive owner' holds' := by
  rcases mutex with ⟨free, taken, inside⟩ | ⟨inside, freed, outside⟩ | ⟨kept, same⟩
  · exact taken ▸ exclusive.acquire free inside others
  · exact freed ▸ exclusive.release inside outside others
  · rw [kept]
    refine exclusive.keep fun p => ?_
    by_cases own : p = me
    · rw [own, same]
    · exact others p own

end Exclusive

/-- Of the parties of a list, only the one that moves on may enter or leave. -/
theorem any_set {A : Type} {parties : List A} {c : ℕ} {a : A} (found : parties[c]? = some a)
    (next : A) (f : A → Bool) :
    (parties[c]?).any f = f a ∧ ((parties.set c next)[c]?).any f = f next ∧
      ∀ c', c' ≠ c → ((parties.set c next)[c']?).any f = (parties[c']?).any f := by
  obtain ⟨within, _⟩ := List.getElem?_eq_some_iff.mp found
  refine ⟨by rw [found]; rfl, by rw [List.getElem?_set_self within]; rfl, fun c' other => ?_⟩
  rw [List.getElem?_set_ne (Ne.symm other)]

end RemoteCache
