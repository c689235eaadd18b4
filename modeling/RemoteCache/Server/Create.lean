import RemoteCache.Lib.Subtree
import RemoteCache.Server.Accesses
import RemoteCache.Server.UploadRemove

/-!
# Creating on the bundled server

## Main results

`create_answered_iff`: a request to create a file or a directory is answered with
201 exactly if no file is in the way. It leaves what is there alone, and the
directories on the way are made.
-/
namespace RemoteCache

namespace LocalServer

variable (rootDir : Str)

/-! ### Handlers -/

/-- `_handle_create_request` -/
def handleCreateRequest (t : Tree Bytes) (path : Str) (isDirectory : Bool) : Tree Bytes × ℕ :=
  let full := fullPath rootDir path
  if isDirectory then
    match t.makedirs [] (resolve [] full) with
    | none => (t, 500)
    | some t => (t, 201)
  else
    match ensureParent t full with
    | none => (t, 500)
    | some t =>
      -- Whatever is there already is left alone.
      if (stat t full).isSome then (t, 201)
      else
        match create t full .empty with
        | none => (t, 500)
        | some t => (t, 201)

/-! ### Paths of files -/

section

variable {rootDir : Str} {t mid : Tree Bytes} {path : Str}

/-- At the path of a file the handlers see what is at its location. -/
theorem stat_place (below : FilePath path) :
    stat t (fullPath rootDir path) = t.node (place rootDir path) := by
  obtain ⟨_, _, _, _, named⟩ := place_split rootDir below
  rw [stat, place]
  cases t.node (resolve [] (fullPath rootDir path)) with
  | none => rfl
  | some n =>
    cases n with
    | file b => exact if_pos named
    | dir => rfl

/-- Making sure of the parent adds directories above the location only. -/
theorem ensureParent_node (below : FilePath path)
    (made : ensureParent t (fullPath rootDir path) = some mid) (x : Path) :
    mid.node x = t.node x ∨
      (t.node x = none ∧ mid.node x = some .dir ∧ x <+: (place rootDir path).dropLast) := by
  rw [ensureParent, parent_place below] at made
  split at made
  · cases made
    exact .inl rfl
  · simpa using (Tree.makedirs_eq_some t.top made).2 x

/-- There is a directory for the file in the end if no file is in the way. -/
theorem ensureParent_dir (below : FilePath path) :
    (∃ mid, ensureParent t (fullPath rootDir path) = some mid ∧
        mid.node (place rootDir path).dropLast = some .dir) ↔
      ∀ x, x <+: (place rootDir path).dropLast → t.file x = none := by
  rcases ensureParent_cases rootDir t below with ⟨dir, made⟩ | ⟨file, made⟩ | ⟨absent, made⟩
  · refine iff_of_true ⟨t, made, dir⟩ fun x above => ?_
    by_cases same : x = (place rootDir path).dropLast
    · simp [Tree.file, same, dir]
    · simp [Tree.file, t.dir_above (by rw [dir]; rfl) above same]
  · refine iff_of_false ?_ fun clear => ?_
    · rintro ⟨mid, made', dir⟩
      rcases made with made | made <;> rw [made] at made' <;> cases made'
      simp [Tree.file, dir] at file
    · rw [clear _ (List.prefix_refl _)] at file
      cases file
  · have whole : (t.makedirs [] (place rootDir path).dropLast).isSome ↔
        ∀ q, q <+: (place rootDir path).dropLast → t.file q = none :=
      Tree.makedirs_isSome t.top
    rw [made, ← whole, Option.isSome_iff_exists]
    refine exists_congr fun mid => and_iff_left_of_imp fun made => ?_
    simpa using (Tree.makedirs_eq_some t.top made).1

end

/-! ### Creating -/

section

variable {rootDir : Str} {t mid : Tree Bytes} {path : Str}

/-- No file is above what is there. -/
theorem clear_of_there {p : Path} (there : (t.node p).isSome) (x : Path)
    (above : x <+: p.dropLast) : t.file x = none := by
  by_cases top : p = []
  · rw [top, List.dropLast_nil, List.prefix_nil] at above
    simp [Tree.file, above, t.top]
  · have dir := t.closed p top there
    by_cases same : x = p.dropLast
    · simp [Tree.file, same, dir]
    · simp [Tree.file, t.dir_above (by rw [dir]; rfl) above same]

/-- Where the parent is a directory there is nothing to be made. -/
theorem ensureParent_there (below : FilePath path)
    (dir : t.node (place rootDir path).dropLast = some .dir) :
    ensureParent t (fullPath rootDir path) = some t := by
  rcases ensureParent_cases rootDir t below with ⟨_, made⟩ | ⟨file, _⟩ | ⟨absent, _⟩
  · exact made
  · simp [Tree.file, dir] at file
  · rw [dir] at absent
    cases absent

/-- Where the parent is something else nothing is made. -/
theorem ensureParent_blocked (below : FilePath path)
    (made : ensureParent t (fullPath rootDir path) = some mid)
    (leaf : mid.node (place rootDir path).dropLast ≠ some .dir) : mid = t := by
  rw [ensureParent, parent_place below] at made
  split at made
  · cases made
    rfl
  · exact absurd (by simpa using (Tree.makedirs_eq_some t.top made).1) leaf

/-- What a request for a directory does. -/
theorem handleCreateRequest_directory (rootDir : Str) (t : Tree Bytes) (path : Str) :
    (∃ t', handleCreateRequest rootDir t path true = (t', 201) ∧
        (∀ x, x <+: place rootDir path → t.file x = none) ∧
        t'.node (place rootDir path) = some .dir ∧
        ∀ x, t'.node x = t.node x ∨
          (t.node x = none ∧ t'.node x = some .dir ∧ x <+: place rootDir path)) ∨
      (handleCreateRequest rootDir t path true = (t, 500) ∧
        ∃ x, x <+: place rootDir path ∧ (t.file x).isSome) := by
  have whole : (t.makedirs [] (place rootDir path)).isSome ↔
      ∀ q, q <+: place rootDir path → t.file q = none := Tree.makedirs_isSome t.top
  simp only [handleCreateRequest, if_true]
  rw [place] at whole ⊢
  cases made : t.makedirs [] (resolve [] (fullPath rootDir path)) with
  | none =>
    rw [made] at whole
    simpa [Option.isSome_iff_ne_none] using whole
  | some t' =>
    obtain ⟨ends, others⟩ := Tree.makedirs_eq_some t.top made
    exact .inl ⟨t', rfl, by simpa [made] using whole, ends, others⟩

/-- What a request for a file does. -/
theorem handleCreateRequest_file (rootDir : Str) (t : Tree Bytes) (below : FilePath path) :
    (∃ t', handleCreateRequest rootDir t path false = (t', 201) ∧
        (∀ x, x <+: (place rootDir path).dropLast → t.file x = none) ∧
        (t'.node (place rootDir path)).isSome ∧
        ∀ x, t'.node x = t.node x ∨ (t.node x = none ∧ x <+: place rootDir path ∧
          t'.node x = some (if x = place rootDir path then .file .empty else .dir))) ∨
      ((handleCreateRequest rootDir t path false).2 = 500 ∧
        (handleCreateRequest rootDir t path false).1 = t ∧
        ∃ x, x <+: (place rootDir path).dropLast ∧ (t.file x).isSome) := by
  by_cases clear : ∀ x, x <+: (place rootDir path).dropLast → t.file x = none
  · obtain ⟨mid, made, dir⟩ := (ensureParent_dir below).mpr clear
    have parents : ∀ x, mid.node x = t.node x ∨ (t.node x = none ∧ x <+: place rootDir path ∧
        mid.node x = some (if x = place rootDir path then .file .empty else .dir)) := fun x => by
      rcases ensureParent_node below made x with same | ⟨absent, new, above⟩
      · exact .inl same
      · have other : x ≠ place rootDir path := fun same =>
          Tree.not_under_parent (place_ne_nil below) (same ▸ above)
        exact .inr ⟨absent, above.trans (List.dropLast_prefix _), by rw [new, if_neg other]⟩
    simp only [handleCreateRequest, Bool.false_eq_true, if_false, made, stat_place below,
      create_place below]
    cases there : mid.node (place rootDir path) with
    | some n =>
      simp only [Option.isSome_some, if_true]
      exact .inl ⟨mid, rfl, clear, by rw [there]; rfl, parents⟩
    | none =>
      have room : (mid.put? (place rootDir path) (.file .empty)).isSome :=
        Tree.put?_isSome.mpr ⟨place_ne_nil below, dir, by simp [there]⟩
      obtain ⟨t', put⟩ := Option.isSome_iff_exists.mp room
      obtain ⟨node, _⟩ := Tree.put?_eq_some put
      simp only [Option.isSome_none, Bool.false_eq_true, if_false, put]
      refine .inl ⟨t', rfl, clear, by simp [node], fun x => ?_⟩
      by_cases here : x = place rootDir path
      · rw [here, node, Function.update_self, if_pos rfl]
        refine .inr ⟨?_, List.prefix_refl _, rfl⟩
        rcases parents (place rootDir path) with same | ⟨absent, _⟩
        · exact same.symm.trans there
        · exact absent
      · rw [node, Function.update_of_ne here]
        exact parents x
  · have absent : t.node (place rootDir path) = none := by
      by_contra there
      exact clear (clear_of_there (Option.isSome_iff_ne_none.mpr there))
    have file : ∃ x, x <+: (place rootDir path).dropLast ∧ (t.file x).isSome := by
      simpa [Option.isSome_iff_ne_none] using clear
    have parent := (ensureParent_dir below).not.mpr clear
    simp only [handleCreateRequest, Bool.false_eq_true, if_false]
    cases made : ensureParent t (fullPath rootDir path) with
    | none => exact .inr ⟨rfl, rfl, file⟩
    | some mid =>
      -- There is a file where the parent directory should be.
      have leaf : ¬mid.node (place rootDir path).dropLast = some .dir := fun dir =>
        parent ⟨mid, made, dir⟩
      have missing : mid.node (place rootDir path) = none := by
        by_contra there
        exact leaf (mid.closed _ (place_ne_nil below) (Option.isSome_iff_ne_none.mpr there))
      have refused : mid.put? (place rootDir path) (.file .empty) = none := by
        rw [← Option.not_isSome_iff_eq_none, Tree.put?_isSome]
        exact fun fine => leaf fine.2.1
      simp only [stat_place below, create_place below, missing, refused]
      exact .inr ⟨rfl, ensureParent_blocked below made leaf, file⟩

/-- A tree that only has more above what was there already is the same. -/
theorem same_of_there {t t' : Tree Bytes} {p : Path} (there : (t.node p).isSome)
    (others : ∀ x, t'.node x = t.node x ∨ (t.node x = none ∧ x <+: p)) : t' = t := by
  ext1
  funext x
  rcases others x with same | ⟨absent, above⟩
  · exact same
  · by_cases here : x = p
    · rw [← here, absent] at there
      cases there
    · rw [t.dir_above there above here] at absent
      cases absent

/-- A request to create something is answered with 201 if and only if no file is in the way. It
changes nothing that is there, and asking again changes nothing at all. -/
theorem create_answered_iff (rootDir : Str) (t : Tree Bytes) (path : Str) (below : FilePath path)
    (isDirectory : Bool) :
    let r := handleCreateRequest rootDir t path isDirectory
    let p := place rootDir path
    (r.2 = 201 ↔ ∀ x, x <+: (if isDirectory then p else p.dropLast) → t.file x = none) ∧
      (r.2 = 201 → (r.1.node p).isSome ∧ handleCreateRequest rootDir r.1 path isDirectory = r) ∧
      (r.2 ≠ 201 → r.1 = t) ∧
      ∀ x, r.1.node x = t.node x ∨ (t.node x = none ∧ x <+: p ∧
        r.1.node x = some (if x = p ∧ isDirectory = false then .file .empty else .dir)) := by
  intro r p
  have stuck : ∀ {q : Path}, (∃ x, x <+: q ∧ (t.file x).isSome) →
      ¬∀ x, x <+: q → t.file x = none := fun ⟨x, above, file⟩ clear => by
    rw [clear x above] at file
    cases file
  cases isDirectory with
  | true =>
    rcases handleCreateRequest_directory rootDir t path with
      ⟨t', done, clear, dir, others⟩ | ⟨refused, file⟩
    · have result : r = (t', 201) := done
      simp only [result, if_true, Bool.true_eq_false, and_false, if_false]
      have there : (t'.node p).isSome := by rw [show t'.node p = some .dir from dir]; rfl
      refine ⟨iff_of_true trivial clear, fun _ => ⟨there, ?_⟩, fun other => absurd rfl other,
        fun x => (others x).imp_right fun new => ⟨new.1, new.2.2, new.2.1⟩⟩
      rcases handleCreateRequest_directory rootDir t' path with
        ⟨t'', again, _, _, others'⟩ | ⟨_, x, above, file⟩
      · rw [again, same_of_there there fun x => (others' x).imp_right fun new => ⟨new.1, new.2.2⟩]
      · by_cases here : x = p
        · simp [Tree.file, here, p, dir] at file
        · simp [Tree.file, t'.dir_above there above here] at file
    · have result : r = (t, 500) := refused
      simp only [result, if_true]
      exact ⟨iff_of_false (by decide) (stuck file), fun other => absurd other (by decide),
        fun _ => trivial, fun x => .inl trivial⟩
  | false =>
    rcases handleCreateRequest_file rootDir t below with
      ⟨t', done, clear, there, others⟩ | ⟨refused, same, file⟩
    · have result : r = (t', 201) := done
      simp only [result, Bool.false_eq_true, if_false, and_true]
      refine ⟨iff_of_true trivial clear, fun _ => ⟨there, ?_⟩, fun other => absurd rfl other,
        others⟩
      rcases handleCreateRequest_file rootDir t' below with
        ⟨t'', again, _, _, others'⟩ | ⟨_, _, x, above, file⟩
      · rw [again, same_of_there there fun x => (others' x).imp_right fun new => ⟨new.1, new.2.1⟩]
      · rw [clear_of_there there x above] at file
        cases file
    · have status : r.2 = 500 := refused
      have tree : r.1 = t := same
      simp only [status, tree, Bool.false_eq_true, if_false]
      exact ⟨iff_of_false (by decide) (stuck file), fun other => absurd other (by decide),
        fun _ => trivial, fun x => .inl trivial⟩

theorem filePath_letter {l : Char} (plain : l ≠ '.' ∧ l ≠ '/') : FilePath [l] :=
  ⟨[], [l], rfl, .inl rfl, by simp [PlainName, plain, Ne.symm plain.2], by decide⟩

theorem create_answered_iff_file :
    let t : Tree Bytes := .empty
    let r := handleCreateRequest ['/'] t ['f'] false
    let p := place ['/'] ['f']
    (r.2 = 201 ↔ ∀ x, x <+: (if false then p else p.dropLast) → t.file x = none) ∧
      (r.2 = 201 → (r.1.node p).isSome ∧ handleCreateRequest ['/'] r.1 ['f'] false = r) ∧
      (r.2 ≠ 201 → r.1 = t) ∧
      ∀ x, r.1.node x = t.node x ∨ (t.node x = none ∧ x <+: p ∧
        r.1.node x = some (if x = p ∧ false = false then .file .empty else .dir)) :=
  create_answered_iff ['/'] .empty ['f'] (filePath_letter (by decide)) false

end

end LocalServer

end RemoteCache
