import RemoteCache.Server.Outside
import RemoteCache.Server.Requests

/-!
# Runs stay in the root

## Main results

`run_outside`: a run of requests on paths of files keeps the root of the server a
directory, and changes nothing outside.

## Proof strategy

What a request changes is at the locations that it names or below, or is missing
and above one of them. The locations are below the root, and what is above the
root is there.
-/
namespace RemoteCache

namespace LocalServer

/-- The trees differ at some of the locations, below them, and where something was missing above
them. -/
def Near (t t' : Tree Bytes) (ps : List Path) : Prop :=
  ∀ x, t'.node x = t.node x ∨ ∃ p ∈ ps, p <+: x ∨ (t.node x = none ∧ x <+: p)

variable {rootDir : Str} {t t' mid : Tree Bytes} {path : Str}

theorem Near.refl (t : Tree Bytes) (ps : List Path) : Near t t ps := fun _ => .inl rfl

/-! ### Handlers -/

theorem ensureParent_near (below : FilePath path)
    (made : ensureParent t (fullPath rootDir path) = some mid) :
    Near t mid [place rootDir path] := fun x => by
  rcases ensureParent_node below made x with same | ⟨absent, _, above⟩
  · exact .inl same
  · exact .inr ⟨_, List.mem_singleton_self _, .inr ⟨absent, above.trans (List.dropLast_prefix _)⟩⟩

theorem handleDataUpload_near (below : FilePath path) (req : Request) :
    Near t (handleDataUpload rootDir t path req).1 [place rootDir path] := by
  rcases handleDataUpload_cases rootDir t path req with same | ⟨mid, made, same | ⟨b, done⟩⟩
  · rw [same]
    exact .refl t _
  · rw [same]
    exact ensureParent_near below made
  · rw [create_place below] at done
    intro x
    by_cases here : x = place rootDir path
    · exact .inr ⟨_, List.mem_singleton_self _, .inl (here ▸ List.prefix_refl _)⟩
    · rw [(Tree.put?_eq_some done).1, Function.update_of_ne here]
      exact ensureParent_near below made x

theorem rmtree_near (t : Tree Bytes) (p : Path) : Near t (t.rmtree p) [p] := fun x => by
  by_cases under : p <+: x
  · exact .inr ⟨p, List.mem_singleton_self _, .inl under⟩
  · exact .inl (if_neg fun inside => under inside.1)

theorem handleDeleteRequest_near (rootDir : Str) (t : Tree Bytes) (path : Str) (req : Request) :
    Near t (handleDeleteRequest rootDir t path req).1 [place rootDir path] := by
  simp only [handleDeleteRequest]
  split
  · exact .refl t _
  · split
    · exact rmtree_near t _
    · exact .refl t _
  · split
    · exact .refl t _
    · exact rmtree_near t _

theorem handleCreateRequest_near (below : FilePath path) (isDirectory : Bool) :
    Near t (handleCreateRequest rootDir t path isDirectory).1 [place rootDir path] := by
  cases isDirectory with
  | true =>
    rcases handleCreateRequest_directory rootDir t path with ⟨t', done, _, _, others⟩ | ⟨same, _⟩
    · rw [done]
      exact fun x => (others x).imp_right fun new =>
        ⟨_, List.mem_singleton_self _, .inr ⟨new.1, new.2.2⟩⟩
    · rw [same]
      exact .refl t _
  | false =>
    rcases handleCreateRequest_file rootDir t below with
      ⟨t', done, _, _, others⟩ | ⟨_, same, _⟩
    · rw [done]
      exact fun x => (others x).imp_right fun new =>
        ⟨_, List.mem_singleton_self _, .inr ⟨new.1, new.2.1⟩⟩
    · rw [same]
      exact .refl t _

section

variable {address : Str → Bool} {loads : Bytes → Loaded}
  [∀ (t : Tree Bytes) (q : Path), Decidable (t.Bare q)]

theorem handleRenameRequest_near {post : Post} {oldPath newPath : Str}
    (asks : Asks loads post oldPath newPath) (old : FilePath oldPath) (new : FilePath newPath) :
    Near t (handleRenameRequest rootDir loads t post.headers post.body).1
      [place rootDir oldPath, place rootDir newPath] := fun x => by
  have made_near : ∀ {mid}, ensureParent t (fullPath rootDir newPath) = some mid →
      mid.node x = t.node x ∨ ∃ p ∈ [place rootDir oldPath, place rootDir newPath],
        p <+: x ∨ (t.node x = none ∧ x <+: p) := fun made =>
    (ensureParent_near new made x).imp_right fun ⟨p, member, place⟩ =>
      ⟨p, List.mem_cons_of_mem _ member, place⟩
  rcases handleRenameRequest_cases rootDir t asks old new with
    ⟨_, _, mid, made, _, renamed⟩ | ⟨_, _, same | made⟩
  · rw [Tree.rename_node renamed x]
    split
    · exact made_near made
    · split
      next under => exact .inr ⟨_, List.mem_cons_self, .inl under⟩
      · split
        next under => exact .inr ⟨_, List.mem_cons_of_mem _ List.mem_cons_self, .inl under⟩
        · exact made_near made
  · exact .inl (by rw [same])
  · exact made_near made

theorem serve_near {r : Incoming} {status : Option ℕ} (fine : OnFiles address loads r)
    (served : Serves rootDir address loads t r status t') :
    Near t t' ((asked address loads r).paths.map (place rootDir)) := by
  rw [OnFiles] at fine
  cases served.handled with
  | nothing => exact .refl t _
  | upload path req asks =>
    rw [asks, Asked.paths, List.forall_mem_singleton] at fine
    rw [asks]
    exact handleDataUpload_near fine req
  | delete path req asks =>
    rw [asks]
    exact handleDeleteRequest_near rootDir t path req
  | create path isDirectory asks =>
    rw [asks, Asked.paths, List.forall_mem_singleton] at fine
    rw [asks]
    exact handleCreateRequest_near fine isDirectory
  | rename post oldPath newPath asks body =>
    rw [asks, Asked.paths, List.forall_mem_cons, List.forall_mem_singleton] at fine
    rw [asks]
    exact handleRenameRequest_near body fine.1 fine.2

/-! ### The root -/

omit [∀ (t : Tree Bytes) (q : Path), Decidable (t.Bare q)] in
/-- The location of a file is below the root. -/
theorem place_below_root (root : Root) (below : FilePath path) :
    ∃ rest, rest ≠ [] ∧ place root.dir path = root.names ++ rest := by
  obtain ⟨init, last, split, named, straight⟩ := steps_filePath below
  have full : fullNames root.dir path = [] :: (root.names ++ init) ++ [last] := by
    rw [components_full, split, List.cons_append, List.append_assoc]
  have down : ['.', '.'] ∉ [] :: (root.names ++ init) := by
    rw [List.mem_cons, List.mem_append, not_or, not_or]
    exact ⟨by simp, fun up => (root.plain _ up).2.2.1 rfl, straight⟩
  have walked : place root.dir path = location (fullNames root.dir path) := resolve_top _
  have here : place root.dir path = location ([] :: (root.names ++ init)) ++ [last] := by
    rw [walked, full, location_append, List.foldl_cons, List.foldl_nil, descend_plain _ named]
  have top : [] :: root.names <+: [] :: (root.names ++ init) := by simp
  obtain ⟨rest, above⟩ : root.names <+: location ([] :: (root.names ++ init)) := by
    have higher := location_mono down top
    rwa [location_top] at higher
  exact ⟨rest ++ [last], by simp, by rw [here, ← above, List.append_assoc]⟩

/-- A run of requests on paths of files keeps the root a directory, and changes nothing outside. -/
theorem run_outside (root : Root) (address : Str → Bool) (loads : Bytes → Loaded)
    {t t' : Tree Bytes} {log : List (Incoming × Option ℕ)}
    (run : Run (Serves root.dir address loads) t log t')
    (dir : t.node root.names = some .dir) (fine : ∀ entry ∈ log, OnFiles address loads entry.1) :
    t'.node root.names = some .dir ∧ ∀ x, ¬root.names <+: x → t'.node x = t.node x := by
  refine run.keeps (P := fun t' => t'.node root.names = some .dir ∧
    ∀ x, ¬root.names <+: x → t'.node x = t.node x) ⟨dir, fun _ _ => rfl⟩ ?_
  rintro mid r status t' member ⟨dir, same⟩ served
  have near := serve_near (fine _ member) served
  -- Neither the root nor what is outside of it is at or below a location of a file, and what is
  -- above one of them is there.
  have kept : ∀ x, x = root.names ∨ ¬root.names <+: x → t'.node x = mid.node x := by
    intro x outside
    refine (near x).resolve_right ?_
    rintro ⟨p, named, either⟩
    obtain ⟨path, asks, rfl⟩ := List.mem_map.mp named
    obtain ⟨rest, proper, split⟩ := place_below_root root (fine _ member path asks)
    rw [split] at either
    rcases either with under | ⟨absent, above⟩
    · rcases outside with rfl | outside
      · have length := under.length_le
        have positive := List.length_pos_iff.mpr proper
        rw [List.length_append] at length
        omega
      · exact outside ((List.prefix_append _ _).trans under)
    · have there : (mid.node x).isSome := by
        rcases outside with rfl | outside
        · rw [dir]
          rfl
        · have higher := (List.prefix_or_prefix_of_prefix above
            (List.prefix_append root.names rest)).resolve_right outside
          rw [mid.dir_above (by rw [dir]; rfl) higher fun same =>
            outside (same ▸ List.prefix_refl _)]
          rfl
      rw [absent] at there
      cases there
  refine ⟨?_, fun x outside => ?_⟩
  · rw [kept _ (.inl rfl), dir]
  · rw [kept x (.inr outside), same x outside]

end

def sampleRoot : Root := ⟨[['r']], by simp [PlainName]⟩

/-- A tree with the directory `r` alone. -/
def rootOnly : Tree Bytes := Tree.empty.put [['r']] .dir (by simp) rfl (by simp [Tree.empty])

theorem run_outside_put :
    let t' := (handle sampleRoot.dir rootOnly putRequest).1
    t'.node sampleRoot.names = some .dir ∧
      ∀ x, ¬sampleRoot.names <+: x → t'.node x = rootOnly.node x := by
  have : ∀ (t : Tree Bytes) (q : Path), Decidable (t.Bare q) := fun _ _ => Classical.propDecidable _
  have run : Run (Serves sampleRoot.dir takesAll loadsRenaming) rootOnly
      [(.request putRequest, some (handle sampleRoot.dir rootOnly putRequest).2)]
      (handle sampleRoot.dir rootOnly putRequest).1 :=
    .next (.refl _) (serves_request (by decide +kernel) rfl)
  refine run_outside sampleRoot takesAll loadsRenaming run rfl fun entry member => ?_
  rw [List.mem_singleton.mp member]
  simp [OnFiles, asked_putRequest, Asked.paths, filePath_slash]

end LocalServer

end RemoteCache
