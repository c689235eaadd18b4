import RemoteCache.Server.Accesses
import RemoteCache.Server.UrlPaths

/-!
# The root of the server

## Main results

`confined_iff`: all that a request touches lies in the root, whatever is in the
tree, exactly if its paths come back to the root whenever they go above it and,
where directories may be made on the way, pass nothing else outside.

## Proof strategy

The components of a full path are those of the root and those of the request.
The directories on the way to the root are there, so a path that passes only
them makes nothing; a path that leaves them may meet a tree where all the rest
of it is missing.
-/
namespace RemoteCache

namespace LocalServer

/-- What `os.path.abspath` returns: the names of a directory, each after a slash. -/
structure Root where
  names : Path
  plain : ∀ c ∈ names, PlainName c

def Root.dir (root : Root) : Str := if root.names = [] then ['/'] else slashed root.names

/-- The components of the path of a request, without leading slashes. -/
def steps (path : Str) : List Str := components (path.dropWhile (· = '/'))

/-- The names that the components go down begin with as many of the root as they go up. -/
def Rejoins (R : Path) (cs : List Str) : Prop := R.drop (R.length - (climb cs).1) <+: (climb cs).2

/-- Every part of the components comes back to the root, or has passed only the root, what is above
it and the directories on the way along `known`. -/
def Stays (R : Path) (known cs : List Str) : Prop :=
  ∀ part, part <+: cs → Rejoins R part ∨ ∀ before, before <+: part →
    before.foldl descend R <+: R ∨
      ∃ way, way <+: known ∧ way.foldl descend R = before.foldl descend R

/-- Where the path of a file may lead that is written, its parent being made. -/
def WriteStays (R : Path) (known : List Str) (path : Str) : Prop :=
  Rejoins R (steps path) ∧ Rejoins R (steps path).dropLast ∧ Stays R known (steps path).dropLast

def Call.Stays (R : Path) (loads : Bytes → Option (Str × Str)) : Call → Prop
  | .info path => Rejoins R (steps path)
  | .list path => Rejoins R (steps path)
  | .data path => Rejoins R (steps path)
  | .upload path => WriteStays R [] path
  | .create path true => Rejoins R (steps path) ∧ LocalServer.Stays R [] (steps path)
  | .create path false => WriteStays R [] path
  | .delete path _ => Rejoins R (steps path)
  | .rename body => ∀ oldPath newPath, loads body = some (oldPath, newPath) → oldPath ≠ [] →
      newPath ≠ [] → Rejoins R (steps oldPath) ∧
        WriteStays R (steps oldPath).dropLast newPath

/-- All that the handler of a request touches is the root directory or beneath it, in any tree
with the root directory. -/
def Confined (root : Root) (os : Listing) (loads : Bytes → Option (Str × Str)) (call : Call) :
    Prop :=
  ∀ t : Tree Bytes, t.node root.names = some .dir →
    ∀ cs ∈ accesses root.dir os loads t call, root.names <+: location cs

/-! ### Components -/

theorem components_dir {root : Root} (some : root.names ≠ []) :
    components root.dir = [] :: root.names := by
  rw [Root.dir, if_neg some, slashed_head some, components_slash,
    components_slashed some root.plain]

theorem components_full (root : Root) (path : Str) :
    fullNames root.dir path = [] :: (root.names ++ steps path) := by
  have relative : (path.dropWhile (· = '/')).head? ≠ some '/' := fun slash => by
    have other := List.head?_dropWhile_not (· = '/') path
    rw [slash] at other
    simp at other
  rw [fullNames, fullPath, joinPath, if_neg relative, steps]
  by_cases none : root.names = []
  · have dir : root.dir = ['/'] := by rw [Root.dir, if_pos none]
    rw [dir, none, if_pos (by simp)]
    exact components_slash _
  · -- The last letter of the root is that of a name.
    have ends : ¬(root.dir = [] ∨ root.dir.getLast? = some '/') := by
      have split := components_dir none
      rintro (empty | slash)
      · rw [empty] at split
        exact none (List.cons.inj split).2.symm
      · obtain ⟨front, same⟩ := List.getLast?_eq_some_iff.mp slash
        obtain ⟨names, last, ends⟩ := List.eq_nil_or_concat root.names |>.resolve_left none
        rw [same, components_append, ends, List.concat_eq_append, ← List.cons_append] at split
        have empty : [] = last := (List.cons.inj (List.append_inj' split rfl).2).1
        exact (root.plain last (by simp [ends])).1 empty.symm
    rw [if_neg ends, components_append, components_dir none, List.cons_append]

/-- The parent has the same components but the last one, up to empty ones. -/
theorem components_parent (root : Root) (path : Str) :
    ∃ k, parentNames root.dir path ++ List.replicate k [] =
      [] :: (root.names ++ (steps path).dropLast) ++ [[]] := by
  obtain ⟨k, same⟩ := Python.components_dirname (fullPath root.dir path)
  refine ⟨k, ?_⟩
  have some : steps path ≠ [] := List.splitOn_ne_nil '/' _
  have full : components (fullPath root.dir path) = _ := components_full root path
  rw [parentNames, same, full, ← List.cons_append, List.dropLast_append_of_ne_nil some,
    List.cons_append]

theorem location_top (root : Root) : location ([] :: root.names) = root.names := by
  rw [location, List.foldl_cons, foldl_descend_plain _ root.plain]
  rfl

theorem location_root (root : Root) (cs : List Str) :
    location ([] :: (root.names ++ cs)) = cs.foldl descend root.names := by
  rw [← List.cons_append, location_append, location_top]

theorem rejoins_iff (root : Root) (cs : List Str) :
    root.names <+: location ([] :: (root.names ++ cs)) ↔ Rejoins root.names cs := by
  rw [location_root, prefix_foldl_descend_iff]
  rfl

/-- On the way to the root there is nothing but what is above it. -/
theorem location_above {root : Root} {part : List Str} (short : part <+: [] :: root.names) :
    location part <+: root.names := by
  rcases List.prefix_cons_iff.mp short with rfl | ⟨names, rfl, above⟩
  · exact List.nil_prefix
  · have plain : ∀ c ∈ names, PlainName c := fun c member =>
      root.plain c (above.subset member)
    rw [location, List.foldl_cons, foldl_descend_plain _ plain]
    exact above

/-! ### Parts of a path -/

/-- A part of a path below the root is on the way to the root or goes on from there. -/
theorem part_cases {root : Root} {cs part : List Str} :
    part <+: [] :: (root.names ++ cs) ↔
      part <+: [] :: root.names ∨ ∃ rest, part = [] :: (root.names ++ rest) ∧ rest <+: cs := by
  constructor
  · intro short
    rw [← List.cons_append] at short
    exact prefix_append_cases short
  · rintro (above | ⟨rest, rfl, short⟩)
    · exact above.trans ((List.prefix_cons_inj []).mpr (List.prefix_append _ cs))
    · exact (List.prefix_cons_inj []).mpr ((List.prefix_append_right_inj _).mpr short)

theorem guarded_iff_stays (root : Root) (known cs : List Str) :
    Tree.Guarded (root.names <+: ·) ([] :: (root.names ++ known)) ([] :: (root.names ++ cs)) ↔
      Stays root.names known cs := by
  constructor
  · intro guarded part short
    rcases guarded _ (part_cases.mpr (.inr ⟨part, rfl, short⟩)) with inside | passed
    · exact .inl ((rejoins_iff root part).mp inside)
    · right
      intro before earlier
      obtain ⟨way, taken, same⟩ := passed _ (part_cases.mpr (.inr ⟨before, rfl, earlier⟩))
      rw [location_root] at same
      rcases part_cases.mp taken with above | ⟨rest, rfl, follows⟩
      · exact .inl (same ▸ location_above above)
      · rw [location_root] at same
        exact .inr ⟨rest, follows, same⟩
  · intro stays part short
    -- What is passed on the way to the root is passed on every way below it.
    have own : ∀ before, before <+: [] :: root.names →
        ∃ way, way <+: [] :: (root.names ++ known) ∧ location way = location before :=
      fun before above => ⟨before, part_cases.mpr (.inl above), rfl⟩
    rcases part_cases.mp short with above | ⟨rest, rfl, follows⟩
    · exact .inr fun before earlier => own before (earlier.trans above)
    · rcases stays rest follows with rejoins | passed
      · exact .inl ((rejoins_iff root rest).mpr rejoins)
      · right
        intro before earlier
        rcases part_cases.mp earlier with above | ⟨before, rfl, higher⟩
        · exact own before above
        · rw [location_root]
          rcases passed before higher with above | ⟨way, taken, same⟩
          · rw [← location_top root] at above
            obtain ⟨way, taken, same⟩ := exists_part_above above
            rw [location_top root] at same
            exact ⟨way, part_cases.mpr (.inl taken), same⟩
          · exact ⟨[] :: (root.names ++ way), part_cases.mpr (.inr ⟨way, rfl, taken⟩),
              (location_root root way).trans same⟩

/-! ### Handlers -/

theorem ensureDirectory_all {P : Path → Prop} {t : Tree Bytes} {directory : List Str} :
    (∀ cs ∈ ensureDirectory t directory, P (location cs)) ↔
      P (location directory) ∧ ∀ part ∈ t.missing directory, P (location part) := by
  unfold ensureDirectory
  split
  next there =>
    have none : ∀ part, part ∉ t.missing directory := fun part member => by
      obtain ⟨short, absent⟩ := Tree.mem_missing.mp member
      rw [Tree.leads_part there short] at absent
      cases absent
    simp [none]
  · simp [makedirs]

/-- A directory is made and something is put into it, in the trees with what `known` and `last`
lead to. -/
theorem write_confined_iff (root : Root) (known : List Str) (last path : Str)
    (ends : root.names <+: location ([] :: (root.names ++ known) ++ [last])) :
    (∀ t : Tree Bytes, t.leads [] ([] :: (root.names ++ known) ++ [last]) = true →
      ∀ cs ∈ ensureDirectory t (parentNames root.dir path) ++ [fullNames root.dir path],
        root.names <+: location cs) ↔ WriteStays root.names known path := by
  obtain ⟨k, parent⟩ := components_parent root path
  have guarded : Tree.Guarded (root.names <+: ·) ([] :: (root.names ++ known))
      (parentNames root.dir path) ↔ Stays root.names known (steps path).dropLast := by
    rw [← guarded_iff_stays, ← Tree.guarded_replicate k, parent]
    exact Tree.guarded_replicate 1
  have inside : root.names <+: location (parentNames root.dir path) ↔
      Rejoins root.names (steps path).dropLast := by
    have same := congrArg location parent
    rw [location_replicate] at same
    rw [same, ← rejoins_iff]
    exact Iff.of_eq (congrArg _ (location_replicate _ 1))
  have full : root.names <+: location (fullNames root.dir path) ↔
      Rejoins root.names (steps path) := by
    rw [components_full, rejoins_iff]
  have split : ∀ t : Tree Bytes,
      (∀ cs ∈ ensureDirectory t (parentNames root.dir path) ++ [fullNames root.dir path],
        root.names <+: location cs) ↔
      (Rejoins root.names (steps path).dropLast ∧
        ∀ part ∈ t.missing (parentNames root.dir path), root.names <+: location part) ∧
      Rejoins root.names (steps path) := fun t => by
    rw [← full, ← inside, ← ensureDirectory_all]
    simp [or_imp, forall_and]
  simp only [split]
  rw [WriteStays, ← guarded,
    ← Tree.missing_all_iff (Blob.empty : Bytes) _ _ _ (root.names <+: ·) ends]
  constructor
  · intro all
    obtain ⟨t, leads, _⟩ := Tree.exists_leading ([] :: (root.names ++ known)) last
      (Blob.empty : Bytes)
    exact ⟨(all t leads).2, (all t leads).1.1, fun t leads => (all t leads).1.2⟩
  · rintro ⟨whole, above, missing⟩ t leads
    exact ⟨⟨above, missing t leads⟩, whole⟩

/-- The root directory is there if and only if its path, with a slash, leads to something. -/
theorem leads_root_iff {root : Root} {t : Tree Bytes} :
    t.leads [] ([] :: (root.names ++ []) ++ [[]]) = true ↔ t.node root.names = some .dir := by
  rw [List.append_nil, Tree.leads_concat_iff]
  constructor
  · intro there
    rw [← location_top root]
    exact there.2 _ (List.prefix_refl _)
  · intro dir
    have dirs : ∀ part, part <+: [] :: root.names → t.node (location part) = some .dir :=
      fun part short => by
        by_cases whole : location part = root.names
        · rw [whole, dir]
        · exact t.dir_above (by rw [dir]; rfl) (location_above short) whole
    have same : location ([] :: root.names ++ [[]]) = root.names :=
      (location_replicate _ 1).trans (location_top root)
    exact ⟨by rw [same, dir]; rfl, dirs⟩

theorem exists_root (root : Root) : ∃ t : Tree Bytes, t.node root.names = some .dir := by
  obtain ⟨t, leads, _⟩ := Tree.exists_leading ([] :: (root.names ++ [])) [] (Blob.empty : Bytes)
  exact ⟨t, leads_root_iff.mp leads⟩

theorem ends_root (root : Root) :
    root.names <+: location ([] :: (root.names ++ []) ++ [[]]) := by
  have same : location ([] :: (root.names ++ []) ++ [[]]) = root.names := by
    rw [List.append_nil]
    exact (location_replicate _ 1).trans (location_top root)
  rw [same]

/-- A handler that looks at the full path, and perhaps at what is below. -/
theorem look_confined_iff (root : Root) (path : Str) (rest : Tree Bytes → List (List Str))
    (below : ∀ t, ∀ cs ∈ rest t, location (fullNames root.dir path) <+: location cs) :
    (∀ t : Tree Bytes, t.node root.names = some .dir →
      ∀ cs ∈ fullNames root.dir path :: rest t, root.names <+: location cs) ↔
      Rejoins root.names (steps path) := by
  rw [← rejoins_iff, ← components_full]
  constructor
  · intro all
    obtain ⟨t, dir⟩ := exists_root root
    exact all t dir _ List.mem_cons_self
  · intro inside t _ cs member
    rcases List.mem_cons.mp member with rfl | later
    · exact inside
    · exact inside.trans (below t cs later)

theorem location_fullNames (root : Root) (path : Str) :
    location (fullNames root.dir path) = (components path).foldl descend root.names := by
  rw [components_full, location_root, steps]
  -- Leading slashes are empty components.
  induction path with
  | nil => rfl
  | cons c path ih =>
    by_cases slash : c = '/'
    · rw [slash, List.dropWhile_cons_of_pos (by simp), ih, components_slash, List.foldl_cons]
      simp [descend]
    · rw [List.dropWhile_cons_of_neg (by simpa using slash)]

/-- An entry of a directory lies in it. -/
theorem location_entry (root : Root) (path : Str) {name : Str} (plain : PlainName name) :
    location (fullNames root.dir path) <+: location (fullNames root.dir (joinPath path name)) := by
  rw [location_fullNames, location_fullNames, foldl_joinPath _ path plain]
  exact List.prefix_append _ _

theorem list_below (root : Root) (os : Listing) (path : Str) (t : Tree Bytes) {cs : List Str}
    (member : cs ∈ if isDir t (fullNames root.dir path) then
      (os.names (location (fullNames root.dir path))).flatMap fun name =>
        infoAccesses root.dir (joinPath path name) else []) :
    location (fullNames root.dir path) <+: location cs := by
  split at member
  · obtain ⟨name, listed, entry⟩ := List.mem_flatMap.mp member
    rw [List.mem_singleton.mp entry]
    exact location_entry root path (os.plain _ name listed)
  · cases member

theorem delete_below (root : Root) (os : Listing) (path : Str) (isDirectory : Bool)
    (t : Tree Bytes) {cs : List Str}
    (member : cs ∈ if isDirectory && isDir t (fullNames root.dir path) then
      (os.below (location (fullNames root.dir path))).map (fullNames root.dir path ++ ·) else []) :
    location (fullNames root.dir path) <+: location cs := by
  split at member
  · obtain ⟨names, listed, rfl⟩ := List.mem_map.mp member
    rw [location_append, foldl_descend_plain _ (os.plainBelow _ names listed)]
    exact List.prefix_append _ _
  · cases member

theorem upload_confined_iff (root : Root) (path : Str) :
    (∀ t : Tree Bytes, t.node root.names = some .dir →
      ∀ cs ∈ ensureDirectory t (parentNames root.dir path) ++ [fullNames root.dir path],
        root.names <+: location cs) ↔ WriteStays root.names [] path := by
  rw [← write_confined_iff root [] [] path (ends_root root)]
  simp only [leads_root_iff]

theorem makedirs_confined_iff (root : Root) (path : Str) :
    (∀ t : Tree Bytes, t.node root.names = some .dir →
      ∀ cs ∈ makedirs t (fullNames root.dir path), root.names <+: location cs) ↔
      Rejoins root.names (steps path) ∧ Stays root.names [] (steps path) := by
  have missing := Tree.missing_all_iff (Blob.empty : Bytes) ([] :: (root.names ++ [])) []
    (fullNames root.dir path) (root.names <+: ·) (ends_root root)
  simp only [leads_root_iff] at missing
  rw [← guarded_iff_stays, ← components_full, ← missing, ← rejoins_iff, ← components_full]
  simp only [makedirs, List.forall_mem_cons]
  constructor
  · intro all
    obtain ⟨t, dir⟩ := exists_root root
    exact ⟨(all t dir).1, fun t dir => (all t dir).2⟩
  · exact fun both t dir => ⟨both.1, both.2 t dir⟩

theorem rename_confined_iff (root : Root) (oldPath newPath : Str) :
    (∀ t : Tree Bytes, t.node root.names = some .dir →
      ∀ cs ∈ fullNames root.dir oldPath :: (if t.leads [] (fullNames root.dir oldPath) then
          ensureDirectory t (parentNames root.dir newPath) ++
            [fullNames root.dir oldPath, fullNames root.dir newPath] else []),
        root.names <+: location cs) ↔
      Rejoins root.names (steps oldPath) ∧
        WriteStays root.names (steps oldPath).dropLast newPath := by
  have some : steps oldPath ≠ [] := List.splitOn_ne_nil '/' _
  have split : fullNames root.dir oldPath =
      [] :: (root.names ++ (steps oldPath).dropLast) ++ [(steps oldPath).getLast some] := by
    rw [components_full, List.cons_append, List.append_assoc, List.dropLast_append_getLast]
  have inside : root.names <+: location (fullNames root.dir oldPath) ↔
      Rejoins root.names (steps oldPath) := by
    rw [components_full, rejoins_iff]
  -- A path below the root exists only if the root does.
  have rooted : ∀ t : Tree Bytes, t.leads [] (fullNames root.dir oldPath) = true →
      t.node root.names = .some .dir := fun t leads => by
    rw [split, Tree.leads_concat_iff] at leads
    rw [← location_top root]
    exact leads.2 _ (part_cases.mpr (.inl (List.prefix_refl _)))
  constructor
  · intro all
    obtain ⟨t, dir⟩ := exists_root root
    have ends := all t dir _ List.mem_cons_self
    refine ⟨inside.mp ends, ?_⟩
    rw [← write_confined_iff root _ ((steps oldPath).getLast some) newPath (split ▸ ends), ← split]
    intro t leads cs member
    apply all t (rooted t leads) cs (List.mem_cons_of_mem _ _)
    rw [if_pos leads]
    rcases List.mem_append.mp member with earlier | last
    · exact List.mem_append_left _ earlier
    · exact List.mem_append_right _ (List.mem_cons_of_mem _ last)
  · rintro ⟨rejoins, writes⟩ t dir cs member
    have ends := inside.mpr rejoins
    rw [← write_confined_iff root _ ((steps oldPath).getLast some) newPath (split ▸ ends),
      ← split] at writes
    rcases List.mem_cons.mp member with rfl | later
    · exact ends
    · split at later
      next leads =>
        rcases List.mem_append.mp later with earlier | last
        · exact writes t leads cs (List.mem_append_left _ earlier)
        · rcases List.mem_cons.mp last with rfl | last
          · exact ends
          · exact writes t leads cs (List.mem_append_right _ last)
      · cases later

theorem call_confined_iff (root : Root) (os : Listing) (loads : Bytes → Option (Str × Str))
    (call : Call) : Confined root os loads call ↔ call.Stays root.names loads := by
  cases call with
  | info path => exact look_confined_iff root path (fun _ => []) (by simp)
  | list path => exact look_confined_iff root path _ fun t cs => list_below root os path t
  | data path => exact look_confined_iff root path (fun _ => []) (by simp)
  | upload path => exact upload_confined_iff root path
  | create path isDirectory =>
    cases isDirectory with
    | true => exact makedirs_confined_iff root path
    | false => exact upload_confined_iff root path
  | delete path isDirectory =>
    exact look_confined_iff root path _ fun t cs => delete_below root os path isDirectory t
  | rename body =>
    simp only [Confined, accesses, renameAccesses, Call.Stays]
    cases loads body with
    | none => simp
    | some paths =>
      obtain ⟨oldPath, newPath⟩ := paths
      by_cases empty : oldPath = [] ∨ newPath = []
      · simp only [if_pos empty]
        constructor
        · intro _ old new same someOld someNew
          cases same
          exact absurd empty (not_or.mpr ⟨someOld, someNew⟩)
        · intro _ t _ cs member
          cases member
      · simp only [if_neg empty]
        rw [rename_confined_iff]
        constructor
        · intro stays old new same _ _
          cases same
          exact stays
        · intro stays
          exact stays oldPath newPath rfl (not_or.mp empty).1 (not_or.mp empty).2

/-- All that a request touches lies in the root, in any tree, if and only if its paths come back to
the root and, where directories are made on the way, pass nothing outside that may be missing. -/
theorem confined_iff (root : Root) (os : Listing) (loads : Bytes → Option (Str × Str))
    (address : Str → Bool) (command : Command) (target : Str) (body : Bytes) :
    (∀ call, dispatch address command target body = some call → Confined root os loads call) ↔
      ∀ call, dispatch address command target body = some call → call.Stays root.names loads := by
  apply forall_congr'
  intro call
  apply imp_congr_right
  intro _
  exact call_confined_iff root os loads call

/-- A request for `/api/info/../s` looks at a sibling of the root. -/
theorem sibling_seen :
    ¬∀ (root : Root) (os : Listing) (loads : Bytes → Option (Str × Str)) (address : Str → Bool)
      (command : Command) (target : Str) (body : Bytes) (call : Call),
      dispatch address command target body = some call → Confined root os loads call := by
  intro all
  let root : Root := ⟨[['r']], by simp [PlainName]⟩
  let os : Listing := ⟨fun _ => [], fun _ => [], by simp, by simp⟩
  have routed : dispatch (fun _ => true) .GET (infoRoute ++ ['.', '.', '/', 's']) .empty =
      some (.info ['/', '.', '.', '/', 's']) := by rfl
  obtain ⟨t, dir⟩ := exists_root root
  have inside := all root os (fun _ => none) _ _ _ _ _ routed t dir
    (fullNames root.dir ['/', '.', '.', '/', 's']) List.mem_cons_self
  have sibling : location (fullNames root.dir ['/', '.', '.', '/', 's']) = [['s']] := by
    decide +kernel
  rw [sibling] at inside
  exact absurd inside (by decide)

end LocalServer

end RemoteCache
