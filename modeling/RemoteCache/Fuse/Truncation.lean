import RemoteCache.Fuse.Listing

/-!
# Cut listings

## Main result

`truncated_scan`: on a text that is cut anywhere, `findJsonNames` inserts the names
that it inserts first on the whole text, and each of them is named in what is left.

## Proof strategy

A pass on the cut text is a pass on the whole one, with the rest of the text behind
it, unless the cut text ends before a value begins.
-/
namespace RemoteCache

open Json

namespace Fuse

theorem nameValue_append {json value : Str} (found : nameValue json = some value)
    (begun : value ≠ []) (t : Str) : nameValue (json ++ t) = some (value ++ t) := by
  unfold nameValue at found
  split at found
  · cases found
  next key atKey =>
    split at found
    · cases found
    next colon atColon =>
      cases found
      obtain ⟨_, rest, rfl, _, _⟩ := find_letter_eq atColon
      have more : (rest.dropWhile isSpace).isEmpty = false := List.isEmpty_eq_false_iff.mpr begun
      rw [nameValue, find_append atKey]
      simp only [find_append atColon, List.cons_append, List.drop_one, List.tail_cons,
        List.dropWhile_append, more, Bool.false_eq_true, if_false]

/-- A pass that goes on with some text left, or with a name, does the same on a longer text. -/
theorem namePass_append {json rest : Str} {name : Option Str}
    (pass : namePass json = some (name, rest)) (t : Str) :
    (name = none ∧ rest = []) ∨ namePass (json ++ t) = some (name, rest ++ t) := by
  unfold namePass at pass
  split at pass
  · cases pass
  · cases pass
    exact .inl ⟨rfl, rfl⟩
  next c start found =>
    right
    rw [namePass, nameValue_append found (List.cons_ne_nil _ _), List.cons_append]
    split at pass
    next other =>
      cases pass
      simp only [if_pos other, List.cons_append]
    next isQuote =>
      split at pass
      · cases pass
      next close atClose =>
        cases pass
        obtain ⟨front, rest, rfl, absent, rfl⟩ := find_letter_eq atClose
        rw [List.append_assoc, List.cons_append]
        simp only [if_neg isQuote, find_letter absent, List.length_append, Nat.add_sub_cancel,
          List.take_left, List.drop_one, List.tail_cons]

/-- The passes on a text are the first passes on a longer one. -/
theorem Scans.append {s : Str} {names : List Str} (scans : Scans s names) (t : Str) :
    ∃ more, Scans (s ++ t) (names ++ more) := by
  induction scans with
  | ends => exact exists_scans _
  | skips pass later ih =>
    rcases namePass_append pass t with ⟨_, rfl⟩ | longer
    -- Nothing is left, so no name is inserted.
    · cases later with
      | ends => exact exists_scans _
      | skips none => cases none
      | inserts none => cases none
    · obtain ⟨more, whole⟩ := ih
      exact ⟨more, .skips longer whole⟩
  | inserts pass _ ih =>
    rcases namePass_append pass t with ⟨absurd, _⟩ | longer
    · cases absurd
    · obtain ⟨more, whole⟩ := ih
      exact ⟨more, .inserts longer whole⟩

/-- What is listed of an answer is among the names of the whole answer. -/
theorem listedNames_subset (json : Str) : listedNames json ⊆ findJsonNames json ∅ := by
  obtain ⟨names, scans⟩ := exists_scans (json.take (64 * 1024))
  obtain ⟨more, whole⟩ := scans.append (json.drop (64 * 1024))
  rw [List.take_append_drop] at whole
  rw [listedNames, scans.inserted, whole.inserted, List.toFinset_append, ← Finset.union_assoc]
  exact Finset.subset_union_left

/-- `findJsonNames` ends on every text. What it inserts, it inserts in the same order first on
every longer text, and each of the names is named in the text itself. -/
theorem truncated_scan (s t : Str) :
    ∃ names more, Scans s names ∧ Scans (s ++ t) (names ++ more) ∧
      (∀ out, findJsonNames s out = out ∪ names.toFinset) ∧
      (∀ out, findJsonNames (s ++ t) out = out ∪ (names ++ more).toFinset) ∧
      ∀ name ∈ names, Named s name := by
  obtain ⟨names, scans⟩ := exists_scans s
  obtain ⟨more, whole⟩ := scans.append t
  exact ⟨names, more, scans, whole, scans.inserted, whole.inserted, scans.named⟩

end Fuse

end RemoteCache
