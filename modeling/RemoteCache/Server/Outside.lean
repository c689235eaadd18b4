import RemoteCache.Server.Confinement
import RemoteCache.Server.UploadRemove

/-!
# Outside the root

## Main results

`upload_outside`, `delete_outside`: a request whose paths stay in the root changes
nothing outside.

`stat_isSome_iff`: at the path of a file the handlers see what a walk along the
path leads to.

## Proof strategy

What an upload changes in the tree lies at locations that it touches: the file,
and the missing directories on the way to it.
-/
namespace RemoteCache

namespace LocalServer

/-! ### What changes -/

/-- A directory that is made was missing. -/
theorem made_touched {rootDir : Str} {t mid : Tree Bytes} {path : Str}
    (made : ensureParent t (fullPath rootDir path) = some mid) {p : Path}
    (changed : mid.node p ≠ t.node p) :
    ∃ cs ∈ uploadAccesses rootDir t path, location cs = p := by
  have parent : resolve [] (Python.dirname (fullPath rootDir path)) =
      location (parentNames rootDir path) := resolve_top _
  rw [ensureParent] at made
  split at made
  · cases made
    exact absurd rfl changed
  · rcases (Tree.makedirs_eq_some t.top made).2 p with same | ⟨absent, _, above⟩
    · exact absurd same changed
    · rw [List.nil_append, parent] at above
      obtain ⟨part, short, here⟩ := exists_part_above above
      have lost : t.leads [] part = false := by
        rw [Bool.eq_false_iff]
        intro there
        have found := (Tree.leads_iff.mp there).1
        rw [← location, here, absent] at found
        cases found
      have gone : ¬t.leads [] (parentNames rootDir path) = true := fun there => by
        rw [Tree.leads_part there short] at lost
        cases lost
      refine ⟨part, List.mem_append_left _ (List.mem_cons_of_mem _ ?_), here⟩
      rw [if_neg gone]
      exact List.mem_cons_of_mem _ (Tree.mem_missing.mpr ⟨short, lost⟩)

/-- An upload changes the tree at the locations that it touches only. -/
theorem handleDataUpload_touched (rootDir : Str) (t : Tree Bytes) (path : Str) (req : Request)
    {p : Path} (changed : (handleDataUpload rootDir t path req).1.node p ≠ t.node p) :
    ∃ cs ∈ uploadAccesses rootDir t path, location cs = p := by
  rcases handleDataUpload_cases rootDir t path req with same | ⟨mid, made, same | ⟨b, done⟩⟩
  · rw [same] at changed
    exact absurd rfl changed
  · rw [same] at changed
    exact made_touched made changed
  · unfold create at done
    split at done
    · by_cases here : p = location (fullNames rootDir path)
      · exact ⟨fullNames rootDir path, List.mem_append_right _ (List.mem_singleton_self _),
          here.symm⟩
      · have full : resolve [] (fullPath rootDir path) = location (fullNames rootDir path) :=
          resolve_top _
        rw [(Tree.put?_eq_some done).1, full, Function.update_of_ne here] at changed
        exact made_touched made changed
    · cases done

/-- An upload to a path that stays changes nothing outside the root. -/
theorem upload_outside {root : Root} {path : Str} (stays : WriteStays root.names [] path)
    {t : Tree Bytes} (dir : t.node root.names = some .dir) (req : Request) {p : Path}
    (outside : ¬root.names <+: p) :
    (handleDataUpload root.dir t path req).1.node p = t.node p := by
  by_contra changed
  obtain ⟨cs, touched, rfl⟩ := handleDataUpload_touched root.dir t path req changed
  exact outside ((upload_confined_iff root path).mpr stays t dir cs touched)

/-- A delete of a path that comes back to the root changes nothing outside. -/
theorem delete_outside {root : Root} {path : Str} (rejoins : Rejoins root.names (steps path))
    (t : Tree Bytes) (req : Request) {p : Path} (outside : ¬root.names <+: p) :
    (handleDeleteRequest root.dir t path req).1.node p = t.node p := by
  have inside : root.names <+: resolve [] (fullPath root.dir path) := by
    rw [resolve_top]
    have names := (rejoins_iff root (steps path)).mpr rejoins
    rwa [← components_full] at names
  have kept : (t.rmtree (resolve [] (fullPath root.dir path))).node p = t.node p :=
    if_neg fun under => outside (inside.trans under.1)
  simp only [handleDeleteRequest]
  split
  · rfl
  · split
    · exact kept
    · rfl
  · split
    · rfl
    · exact kept

/-! ### Paths of files -/

theorem steps_filePath {path : Str} (below : FilePath path) :
    ∃ init last, steps path = init ++ [last] ∧ PlainName last ∧ ['.', '.'] ∉ init := by
  obtain ⟨front, last, rfl, ends, named, straight⟩ := below
  induction front with
  | nil =>
    refine ⟨[], last, ?_, named, List.not_mem_nil⟩
    rw [List.nil_append, List.nil_append, steps, dropWhile_slash named.2.2.2,
      components_plain named]
  | cons l front ih =>
    by_cases slash : l = '/'
    · rw [slash, components_slash] at straight
      obtain ⟨init, name, split, rest⟩ :=
        ih ends.tail fun up => straight (List.mem_cons_of_mem _ up)
      refine ⟨init, name, ?_, rest⟩
      rw [← split, slash, List.cons_append, steps, List.dropWhile_cons_of_pos (by simp), steps]
    · refine ⟨(components (l :: front)).dropLast, last, ?_, named,
        fun up => straight (List.mem_of_mem_dropLast up)⟩
      rw [steps, List.cons_append, List.dropWhile_cons_of_neg (by simpa using slash),
        ← List.cons_append, Python.components_ends ends named.2.2.2]

/-- At the path of a file the handlers see what the path leads to. -/
theorem stat_isSome_iff (root : Root) (t : Tree Bytes) {path : Str} (below : FilePath path) :
    (stat t (fullPath root.dir path)).isSome ↔
      t.leads [] (fullNames root.dir path) = true := by
  obtain ⟨_, _, _, _, seen⟩ := place_split root.dir below
  obtain ⟨init, last, split, named, straight⟩ := steps_filePath below
  have full : fullNames root.dir path = [] :: (root.names ++ init) ++ [last] := by
    rw [components_full, split, List.cons_append, List.append_assoc]
  have seen : (stat t (fullPath root.dir path)).isSome =
      (t.node (location (fullNames root.dir path))).isSome := by
    have place : resolve [] (fullPath root.dir path) = location (fullNames root.dir path) :=
      resolve_top _
    rw [stat, place]
    cases t.node (location (fullNames root.dir path)) with
    | none => rfl
    | some n =>
      cases n with
      | file b => simp [seen]
      | dir => rfl
  have down : ['.', '.'] ∉ [] :: (root.names ++ init) := by
    rw [List.mem_cons, List.mem_append, not_or, not_or]
    exact ⟨by simp, fun up => (root.plain _ up).2.2.1 rfl, straight⟩
  have here : location ([] :: (root.names ++ init) ++ [last]) =
      location ([] :: (root.names ++ init)) ++ [last] := by
    rw [location_append, List.foldl_cons, List.foldl_nil, descend_plain _ named]
  rw [seen, full, Tree.leads_concat_iff]
  refine ⟨fun there => ⟨there, fun part short => ?_⟩, And.left⟩
  -- Without `..` all that is passed lies above.
  have above := location_mono down short
  rw [here] at there
  apply t.dir_above there (above.trans (List.prefix_append _ _))
  intro same
  have length := above.length_le
  rw [same, List.length_append, List.length_singleton] at length
  omega

end LocalServer

end RemoteCache
