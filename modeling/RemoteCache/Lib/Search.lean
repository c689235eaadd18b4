import Mathlib.Data.List.Infix
import Mathlib.Tactic.Common

/-!
# Searching in texts

A position in a text is given by the rest of the text from there on. `find`
looks for the first position, at or after a given one, where a word stands.
-/
namespace RemoteCache

variable {α : Type} [DecidableEq α]

theorem prefix_append_cases {α : Type} {p s t : List α} (begins : p <+: s ++ t) :
    p <+: s ∨ ∃ q, p = s ++ q ∧ q <+: t := by
  rcases List.prefix_or_prefix_of_prefix begins (List.prefix_append s t) with short | long
  · exact .inl short
  · obtain ⟨q, rfl⟩ := long
    exact .inr ⟨q, rfl, (List.prefix_append_right_inj s).mp begins⟩

def find (word : List α) : List α → Option (List α)
  | [] => if word = [] then some [] else none
  | c :: s => if word <+: c :: s then some (c :: s) else find word s

variable {word s t front : List α} {q n c : α}

theorem find_here (stands : word <+: s) : find word s = some s := by
  cases s with
  | nil => rw [find, if_pos (List.prefix_nil.mp stands)]
  | cons c s => rw [find, if_pos stands]

/-- What is found is a later position where the word stands. -/
theorem find_sound (found : find word s = some t) : t <:+ s ∧ word <+: t := by
  induction s with
  | nil =>
    rw [find] at found
    split at found
    next empty =>
      cases found
      exact ⟨List.suffix_refl _, by rw [empty]⟩
    · cases found
  | cons c s ih =>
    rw [find] at found
    split at found
    next stands =>
      cases found
      exact ⟨List.suffix_refl _, stands⟩
    · obtain ⟨later, stands⟩ := ih found
      exact ⟨later.trans (List.suffix_cons _ _), stands⟩

/-- What is found is found in a longer text as well. -/
theorem find_append (found : find word s = some t) (u : List α) :
    find word (s ++ u) = some (t ++ u) := by
  induction s with
  | nil =>
    rw [find] at found
    split at found
    next empty =>
      cases found
      exact find_here (by rw [empty]; exact List.nil_prefix)
    · cases found
  | cons c s ih =>
    rw [find] at found
    split at found
    next stands =>
      cases found
      exact find_here (stands.trans (List.prefix_append _ _))
    next other =>
      by_cases longer : word <+: c :: (s ++ u)
      -- The word fits into the text, so it does not need what follows to stand here.
      · obtain ⟨later, stands⟩ := find_sound found
        have fits : word.length ≤ (c :: s).length :=
          stands.length_le.trans (later.length_le.trans (Nat.le_succ _))
        have here := List.prefix_of_prefix_length_le longer (List.prefix_append (c :: s) u) fits
        exact absurd here other
      · rw [List.cons_append, find, if_neg longer]
        exact ih found

theorem find_cons_ne {word : List α} (other : c ≠ q) :
    find (q :: word) (c :: s) = find (q :: word) s := by
  rw [find, if_neg fun stands => other (List.cons_prefix_cons.mp stands).1.symm]

/-- A place where the first letter is right and the second one is wrong. -/
theorem find_second_ne {word : List α} (other : c ≠ n) :
    find (q :: n :: word) (q :: c :: s) = find (q :: n :: word) (c :: s) := by
  rw [find, if_neg]
  intro stands
  exact other (List.cons_prefix_cons.mp (List.cons_prefix_cons.mp stands).2).1.symm

theorem find_append_ne {word : List α} (absent : q ∉ front) :
    find (q :: word) (front ++ s) = find (q :: word) s := by
  induction front with
  | nil => rfl
  | cons c front ih =>
    rw [List.mem_cons, not_or] at absent
    rw [List.cons_append, find_cons_ne (Ne.symm absent.1), ih absent.2]

/-- What is not in a text is not in its beginning. -/
theorem find_prefix (begins : front <+: s) (absent : find word s = none) :
    find word front = none := by
  obtain ⟨rest, rfl⟩ := begins
  cases found : find word front with
  | none => rfl
  | some t =>
    rw [find_append found] at absent
    cases absent

/-- The first occurrence of a letter. -/
theorem find_letter (absent : q ∉ front) : find [q] (front ++ q :: s) = some (q :: s) := by
  rw [find_append_ne absent]
  exact find_here (List.cons_prefix_cons.mpr ⟨rfl, List.nil_prefix⟩)

theorem find_letter_eq (found : find [q] s = some t) :
    ∃ front rest, t = q :: rest ∧ q ∉ front ∧ s = front ++ q :: rest := by
  induction s with
  | nil => cases found
  | cons c s ih =>
    rw [find] at found
    split at found
    next stands =>
      cases found
      obtain ⟨rfl, _⟩ := List.cons_prefix_cons.mp stands
      exact ⟨[], s, rfl, List.not_mem_nil, rfl⟩
    next other =>
      obtain ⟨front, rest, rfl, absent, rfl⟩ := ih found
      refine ⟨c :: front, rest, rfl, ?_, rfl⟩
      rw [List.mem_cons, not_or]
      constructor
      · intro same
        exact other (List.cons_prefix_cons.mpr ⟨same, List.nil_prefix⟩)
      · exact absent

theorem find_absent {word : List α} (absent : q ∉ s) : find (q :: word) s = none := by
  rw [← List.append_nil s, find_append_ne absent, find, if_neg (List.cons_ne_nil _ _)]

/-! ### Texts without a word -/

/-- A text in which a word does not begin, whatever follows. -/
def Quiet (word gap : List α) : Prop := ∀ s, find word (gap ++ s) = find word s

variable {gap : List α}

theorem Quiet.append {rest : List α} (first : Quiet word gap) (second : Quiet word rest) :
    Quiet word (gap ++ rest) := by
  intro s
  rw [List.append_assoc, first, second]

theorem quiet_of_absent (absent : q ∉ gap) : Quiet (q :: word) gap := by
  intro s
  exact find_append_ne absent

/-- The first letter of the word is harmless where another letter than the second one follows. -/
theorem quiet_second (other : c ≠ n) (absent : q ∉ c :: gap) :
    Quiet (q :: n :: word) (q :: c :: gap) := by
  intro s
  calc find (q :: n :: word) (q :: c :: (gap ++ s))
      = find (q :: n :: word) (c :: gap ++ s) := find_second_ne other
    _ = find (q :: n :: word) s := find_append_ne absent

end RemoteCache
