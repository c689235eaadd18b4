import RemoteCache.Lib.Search
import RemoteCache.Lib.Tree

/-!
# Walking along a path

An operating system follows a path component by component, and looks each one up
in a directory: a path leads nowhere if a component on its way is missing, even
if `..` comes back from there. Which parts of a path exist thus depends on the
tree, and where they lie does not.
-/
namespace RemoteCache

/-- The location of a path from the top, given by its components. -/
def location (cs : List Str) : Path := cs.foldl descend []

theorem location_append (front cs : List Str) :
    location (front ++ cs) = cs.foldl descend (location front) := List.foldl_append

/-- Empty components make no difference. -/
theorem location_replicate (cs : List Str) (k : ℕ) :
    location (cs ++ List.replicate k []) = location cs := by
  induction k with
  | zero => rw [List.replicate_zero, List.append_nil]
  | succ k ih =>
    rw [List.replicate_succ', ← List.append_assoc, location_append, ih]
    simp [descend]

theorem descend_cases (at_ : Path) (c : Str) :
    descend at_ c = at_ ∨ descend at_ c = at_.dropLast ∨ descend at_ c = at_ ++ [c] := by
  unfold descend
  split
  · exact .inl rfl
  · split
    · exact .inr (.inl rfl)
    · exact .inr (.inr rfl)

/-- What lies above the end of a path has been passed on the way. -/
theorem exists_part_above {cs : List Str} {p : Path} (above : p <+: location cs) :
    ∃ part, part <+: cs ∧ location part = p := by
  induction cs using List.reverseRecOn with
  | nil => exact ⟨[], List.nil_prefix, (List.prefix_nil.mp above).symm⟩
  | append_singleton cs c ih =>
    have earlier (higher : p <+: location cs) :
        ∃ part, part <+: cs ++ [c] ∧ location part = p := by
      obtain ⟨part, short, same⟩ := ih higher
      exact ⟨part, short.trans (List.prefix_append cs [c]), same⟩
    rw [location_append, List.foldl_cons, List.foldl_nil] at above
    rcases descend_cases (location cs) c with same | up | down
    · exact earlier (same ▸ above)
    · exact earlier (above.trans (up ▸ List.dropLast_prefix _))
    · rw [down] at above
      rcases List.prefix_concat_iff.mp above with here | higher
      · refine ⟨cs ++ [c], List.prefix_refl _, ?_⟩
        rw [location_append, List.foldl_cons, List.foldl_nil, down, here]
      · exact earlier higher

/-- Without `..` a path only goes down. -/
theorem location_mono {cs part : List Str} (down : ['.', '.'] ∉ cs) (short : part <+: cs) :
    location part <+: location cs := by
  induction cs using List.reverseRecOn with
  | nil => rw [List.prefix_nil.mp short]
  | append_singleton cs c ih =>
    rcases List.prefix_concat_iff.mp short with rfl | shorter
    · exact List.prefix_refl _
    · rw [List.mem_append, List.mem_singleton, not_or] at down
      apply (ih down.1 shorter).trans
      rw [location_append, List.foldl_cons, List.foldl_nil, descend]
      split
      · exact List.prefix_refl _
      · rw [if_neg fun up => down.2 up.symm]
        exact List.prefix_append _ _

/-! ### Normal forms -/

/-- One more component after some levels up and some names down. -/
def climbStep (n : ℕ × Path) (c : Str) : ℕ × Path :=
  if c = [] ∨ c = ['.'] then n
  else if c = ['.', '.'] then if n.2 = [] then (n.1 + 1, []) else (n.1, n.2.dropLast)
  else (n.1, n.2 ++ [c])

/-- How many levels components go up from where they start, and the names they go down then. -/
def climb (cs : List Str) : ℕ × Path := cs.foldl climbStep (0, [])

theorem foldl_descend_climb (at_ : Path) (cs : List Str) :
    cs.foldl descend at_ = at_.take (at_.length - (climb cs).1) ++ (climb cs).2 := by
  induction cs using List.reverseRecOn with
  | nil => simp [climb]
  | append_singleton cs c ih =>
    have step : climb (cs ++ [c]) = climbStep (climb cs) c := by simp [climb]
    rw [List.foldl_append, List.foldl_cons, List.foldl_nil, ih, step, descend, climbStep]
    split
    · rfl
    · split
      · split
        next none =>
          rw [none, List.append_nil, List.append_nil, List.dropLast_eq_take, List.length_take,
            List.take_take]
          congr 1
          omega
        next some => rw [List.dropLast_append_of_ne_nil some]
      · rw [List.append_assoc]

/-- Components come back to where they start, or go below, if the names down begin with those
that were gone up. -/
theorem prefix_foldl_descend_iff (at_ : Path) (cs : List Str) :
    at_ <+: cs.foldl descend at_ ↔ at_.drop (at_.length - (climb cs).1) <+: (climb cs).2 := by
  rw [foldl_descend_climb]
  nth_rewrite 1 [← List.take_append_drop (at_.length - (climb cs).1) at_]
  exact List.prefix_append_right_inj _

/-! ### Existence -/

namespace Tree

variable {α : Type}

/-- Whether components lead from a location to something. -/
def leads (t : Tree α) (at_ : Path) : List Str → Bool
  | [] => (t.node at_).isSome
  | c :: cs => t.node at_ = some .dir && leads t (descend at_ c) cs

/-- The parts of a path that do not exist. -/
def missing (t : Tree α) (cs : List Str) : List (List Str) :=
  cs.inits.filter fun part => !t.leads [] part

theorem leads_iff {t : Tree α} {at_ : Path} {cs : List Str} :
    t.leads at_ cs = true ↔ (t.node (cs.foldl descend at_)).isSome ∧
      ∀ part, part <+: cs → part ≠ cs → t.node (part.foldl descend at_) = some .dir := by
  induction cs generalizing at_ with
  | nil =>
    refine ⟨fun there => ⟨there, fun part short other => ?_⟩, fun there => there.1⟩
    exact absurd (List.prefix_nil.mp short) other
  | cons c cs ih =>
    rw [leads, Bool.and_eq_true, decide_eq_true_iff, ih, List.foldl_cons]
    constructor
    · rintro ⟨dir, there, dirs⟩
      refine ⟨there, fun part short other => ?_⟩
      rcases List.prefix_cons_iff.mp short with rfl | ⟨part, rfl, shorter⟩
      · exact dir
      · exact dirs part shorter fun same => other (by rw [same])
    · rintro ⟨there, dirs⟩
      refine ⟨dirs [] List.nil_prefix (by simp), there, fun part short other => ?_⟩
      exact dirs (c :: part) ((List.prefix_cons_inj c).mpr short) (by simpa using other)

/-- What is not at the end is on the way. -/
theorem leads_concat_iff {t : Tree α} {init : List Str} {last : Str} :
    t.leads [] (init ++ [last]) = true ↔ (t.node (location (init ++ [last]))).isSome ∧
      ∀ part, part <+: init → t.node (location part) = some .dir := by
  rw [leads_iff]
  apply and_congr_right
  intro _
  constructor
  · intro dirs part short
    apply dirs part (short.trans (List.prefix_append init [last]))
    rintro rfl
    have length := short.length_le
    rw [List.length_append, List.length_singleton] at length
    omega
  · intro dirs part short other
    exact dirs part ((List.prefix_concat_iff.mp short).resolve_left other)

/-- A path that exists has no missing parts. -/
theorem leads_part {t : Tree α} {cs part : List Str} (there : t.leads [] cs = true)
    (short : part <+: cs) : t.leads [] part = true := by
  obtain ⟨found, dirs⟩ := leads_iff.mp there
  apply leads_iff.mpr
  constructor
  · by_cases whole : part = cs
    · rw [whole]
      exact found
    · rw [dirs part short whole]
      rfl
  · intro before earlier other
    apply dirs before (earlier.trans short)
    rintro rfl
    exact other (earlier.eq_of_length_le short.length_le)

theorem mem_missing {t : Tree α} {cs part : List Str} :
    part ∈ t.missing cs ↔ part <+: cs ∧ t.leads [] part = false := by
  simp [missing]

/-! ### A tree in which a path exists -/

/-- The directories on the way along a path, and nothing else. -/
def along (cs : List Str) : Tree α where
  node p := if p ∈ cs.inits.map location then some .dir else none
  top := if_pos (List.mem_map.mpr ⟨[], (List.mem_inits _ _).mpr List.nil_prefix, rfl⟩)
  closed p _ there := by
    split at there
    next passed =>
      obtain ⟨part, short, same⟩ := List.mem_map.mp passed
      have higher : p.dropLast <+: location part := same ▸ List.dropLast_prefix p
      obtain ⟨before, shorter, above⟩ := exists_part_above higher
      have earlier : before <+: cs := shorter.trans ((List.mem_inits _ _).mp short)
      exact if_pos (List.mem_map.mpr ⟨before, (List.mem_inits _ _).mpr earlier, above⟩)
    · cases there

theorem along_dir {cs : List Str} {p : Path} :
    (along cs : Tree α).node p = some .dir ↔ ∃ part, part <+: cs ∧ location part = p := by
  have passed : p ∈ cs.inits.map location ↔ ∃ part, part <+: cs ∧ location part = p := by
    simp [List.mem_map, List.mem_inits]
  rw [← passed, along]
  simp

theorem along_isSome {cs : List Str} {p : Path} (there : ((along cs : Tree α).node p).isSome) :
    (along cs : Tree α).node p = some .dir := by
  unfold along at there ⊢
  dsimp only at there ⊢
  split at there
  next passed => exact if_pos passed
  · cases there

/-- A path exists in a tree with no directories but those on its way and with nothing else but
what it leads to. -/
theorem exists_leading (init : List Str) (last : Str) (b : α) :
    ∃ t : Tree α, t.leads [] (init ++ [last]) = true ∧
      (∀ p, t.node p = some .dir → ∃ part, part <+: init ∧ location part = p) ∧
      ∀ p, (t.node p).isSome → t.node p = some .dir ∨ p = location (init ++ [last]) := by
  have parent : (along init : Tree α).node (location init) = some .dir :=
    along_dir.mpr ⟨init, List.prefix_refl init, rfl⟩
  have dirs : ∀ part, part <+: init → (along init : Tree α).node (location part) = some .dir :=
    fun part short => along_dir.mpr ⟨part, short, rfl⟩
  by_cases dir : (along init : Tree α).node (location (init ++ [last])) = some .dir
  · refine ⟨along init, leads_concat_iff.mpr ⟨by rw [dir]; rfl, dirs⟩, fun p => along_dir.mp,
      fun p there => .inl (along_isSome there)⟩
  · have step : location (init ++ [last]) = descend (location init) last := by
      rw [location_append, List.foldl_cons, List.foldl_nil]
    have new : location (init ++ [last]) = location init ++ [last] := by
      rw [step] at dir ⊢
      rcases descend_cases (location init) last with same | up | down
      · rw [same] at dir
        exact absurd parent dir
      · rw [up] at dir
        exact absurd (along_dir.mpr (exists_part_above (List.dropLast_prefix _))) dir
      · exact down
    have below : location (init ++ [last]) ≠ [] := by
      rw [new]
      simp
    let t : Tree α := (along init).put (location (init ++ [last])) (.file b) below
      (by rw [new, List.dropLast_concat]; exact parent) dir
    have here : t.node (location (init ++ [last])) = some (.file b) := Function.update_self ..
    have others : ∀ p, p ≠ location (init ++ [last]) → t.node p = (along init).node p :=
      fun p other => Function.update_of_ne other _ _
    refine ⟨t, leads_concat_iff.mpr ⟨by rw [here]; rfl, fun part short => ?_⟩, fun p found => ?_,
      fun p there => ?_⟩
    · rw [others _ fun same => dir (same ▸ dirs part short)]
      exact dirs part short
    · have other : p ≠ location (init ++ [last]) := by
        rintro rfl
        rw [here] at found
        cases found
      rw [others p other] at found
      exact along_dir.mp found
    · by_cases other : p = location (init ++ [last])
      · exact .inr other
      · rw [others p other] at there ⊢
        exact .inl (along_isSome there)

/-- Each part of a path leads to a location with a property, or passes nothing but what is passed
on another path. -/
def Guarded (P : Path → Prop) (init cs : List Str) : Prop :=
  ∀ part, part <+: cs → P (location part) ∨ ∀ before, before <+: part →
    ∃ known, known <+: init ∧ location known = location before

/-- Whatever the tree in which a path exists, the missing parts of another path have a property
that the end of the first one has, if and only if each part has it or is sure to exist. -/
theorem missing_all_iff (b : α) (init : List Str) (last : Str) (cs : List Str)
    (P : Path → Prop) (ends : P (location (init ++ [last]))) :
    (∀ t : Tree α, t.leads [] (init ++ [last]) = true →
        ∀ part ∈ t.missing cs, P (location part)) ↔ Guarded P init cs := by
  constructor
  · intro all part short
    by_cases good : P (location part)
    · exact .inl good
    · right
      intro before earlier
      by_contra unknown
      obtain ⟨t, leads, dirs, rest⟩ := exists_leading init last b
      have absent : t.leads [] part = false := by
        rw [Bool.eq_false_iff]
        intro there
        obtain ⟨found, passed⟩ := leads_iff.mp there
        by_cases whole : before = part
        · rcases rest (location part) found with dir | same
          · exact unknown (whole ▸ dirs _ dir)
          · exact good (same ▸ ends)
        · exact unknown (dirs _ (passed before earlier whole))
      exact good (all t leads part (mem_missing.mpr ⟨short, absent⟩))
  · intro guarded t leads part missing
    obtain ⟨short, absent⟩ := mem_missing.mp missing
    rcases guarded part short with good | known
    · exact good
    · -- All that is passed is on the way along the first path, so the part exists.
      have dirs : ∀ before, before <+: part → t.node (location before) = some .dir :=
        fun before earlier => by
          obtain ⟨front, way, same⟩ := known before earlier
          rw [← same]
          exact (leads_concat_iff.mp leads).2 front way
      have there : t.leads [] part = true := leads_iff.mpr
        ⟨by rw [← location, dirs part (List.prefix_refl part)]; rfl,
          fun before earlier _ => dirs before earlier⟩
      rw [absent] at there
      cases there

theorem guarded_replicate {P : Path → Prop} {init cs : List Str} (k : ℕ) :
    Guarded P init (cs ++ List.replicate k []) ↔ Guarded P init cs := by
  induction k with
  | zero => rw [List.replicate_zero, List.append_nil]
  | succ k ih =>
    rw [← ih, List.replicate_succ', ← List.append_assoc]
    generalize cs ++ List.replicate k [] = cs
    have same : location (cs ++ [[]]) = location cs := location_replicate cs 1
    constructor
    · exact fun guarded part short => guarded part (short.trans (List.prefix_append cs [[]]))
    · intro guarded part short
      rcases List.prefix_concat_iff.mp short with rfl | shorter
      · rcases guarded cs (List.prefix_refl cs) with good | known
        · exact .inl (same ▸ good)
        · right
          intro before earlier
          rcases List.prefix_concat_iff.mp earlier with rfl | higher
          · rw [same]
            exact known cs (List.prefix_refl cs)
          · exact known before higher
      · exact guarded part shorter

end Tree

end RemoteCache
