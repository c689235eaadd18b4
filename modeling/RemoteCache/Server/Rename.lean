import RemoteCache.Server.Create
import RemoteCache.Server.RangeForms

/-!
# Renaming on the bundled server

## Main results

`rename_answered_iff`: a rename is answered with 204 exactly if the source exists,
no file is above the target and the one may take the place of the other; it moves
the whole subtree then, and else adds directories at most.

`rename_restores`: renaming back restores the tree.

The handler reads the body of the request itself. An exception outside the `try`
statement ends the connection, and there is no answer.
-/
namespace RemoteCache

namespace LocalServer

/-- What `decode` and `json.loads` make of a body: not UTF-8, not JSON, a value other than an
object with strings for the two paths, or the two paths. A path that is missing or counts as false
is the empty string. -/
inductive Loaded where
  | undecodable
  | invalid
  | unfit
  | paths (oldPath newPath : Str)
  deriving DecidableEq

variable (rootDir : Str)

/-- The last component of a path is a name, neither `.` nor `..`. -/
def endsInName (p : Str) : Bool :=
  match ((components p).filter (· ≠ [])).getLast? with
  | some c => c ≠ ['.'] && c ≠ ['.', '.']
  | none => false

/-! ### Handlers -/

section

variable [bare : ∀ (t : Tree Bytes) (q : Path), Decidable (t.Bare q)]

/-- `os.rename`. Slashes may follow the name of a directory only. -/
def rename (t : Tree Bytes) (old new : Str) : Option (Tree Bytes) :=
  if endsInName old && endsInName new then
    if (t.file (resolve [] old)).isSome ∧ ¬(namesFile old && namesFile new) then none
    else t.rename (resolve [] old) (resolve [] new)
  else none

/-- `_handle_rename_request`; there is no status where the connection ends without an answer. -/
def handleRenameRequest (loads : Bytes → Loaded) (t : Tree Bytes) (headers : List (Str × Str))
    (body : Bytes) : Tree Bytes × Option ℕ :=
  match readBody headers body with
  | none => (t, none)
  | some text =>
    match loads text with
    | .undecodable => (t, none)
    | .invalid => (t, some 400)
    | .unfit => (t, some 500)
    | .paths oldPath newPath =>
      if oldPath = [] ∨ newPath = [] then (t, some 400)
      else
        let oldFull := fullPath rootDir oldPath
        let newFull := fullPath rootDir newPath
        if (stat t oldFull).isNone then (t, some 404)
        else
          match ensureParent t newFull with
          | none => (t, some 500)
          | some t =>
            match rename t oldFull newFull with
            | none => (t, some 500)
            | some t => (t, some 204)

/-- A request by `POST` has the headers and the body that a handler reads. -/
structure Post where
  target : Str
  headers : List (Str × Str)
  body : Bytes

def doPOST (loads : Bytes → Loaded) (t : Tree Bytes) (post : Post) : Tree Bytes × Option ℕ :=
  let path := Python.urlPath post.target
  if createRoute <+: path then
    let r := handleCreateRequest rootDir t (path.drop 11) (forDirectory post.target)
    (r.1, some r.2)
  else if path = renameRoute then handleRenameRequest rootDir loads t post.headers post.body
  else (t, some 404)

end

/-! ### Requests that fit -/

/-- A file or a directory can be renamed: it is there, no file is above the target, and the target
is the source itself or may be replaced by it. -/
structure Fits (t : Tree Bytes) (p q : Path) : Prop where
  source : (t.node p).isSome
  clear : ∀ x, x <+: q.dropLast → t.file x = none
  target : p = q ∨ (Tree.Apart p q ∧ t.Replaces p q)

/-- The request is for renaming the one path to the other. -/
def Asks (loads : Bytes → Loaded) (post : Post) (oldPath newPath : Str) : Prop :=
  (readBody post.headers post.body).map loads = some (.paths oldPath newPath)

instance (loads : Bytes → Loaded) (post : Post) (oldPath newPath : Str) :
    Decidable (Asks loads post oldPath newPath) :=
  inferInstanceAs (Decidable (_ = _))

section

variable {rootDir : Str} {t mid : Tree Bytes} {path oldPath newPath : Str}
  [bare : ∀ (t : Tree Bytes) (q : Path), Decidable (t.Bare q)]

omit bare in
theorem endsInName_full (below : FilePath path) : endsInName (fullPath rootDir path) = true := by
  obtain ⟨front, last, same, ends, plain⟩ := fullPath_split rootDir below
  have kept : [last].filter (· ≠ []) = [last] := by simp [plain.1]
  rw [endsInName, same, Python.components_ends ends plain.2.2.2, List.filter_append, kept,
    List.getLast?_concat]
  simp [plain.2.1, plain.2.2.1]

theorem rename_place (old : FilePath oldPath) (new : FilePath newPath) :
    rename t (fullPath rootDir oldPath) (fullPath rootDir newPath) =
      t.rename (place rootDir oldPath) (place rootDir newPath) := by
  obtain ⟨_, _, _, _, named⟩ := place_split rootDir old
  obtain ⟨_, _, _, _, named'⟩ := place_split rootDir new
  rw [rename, endsInName_full old, endsInName_full new, named, named', if_pos (by decide),
    if_neg (by simp)]
  rfl

omit bare in
/-- The directories that are made on the way do not matter to what is renamed. -/
theorem replaces_mid (below : FilePath newPath)
    (made : ensureParent t (fullPath rootDir newPath) = some mid) {p : Path}
    (there : (t.node p).isSome) :
    mid.node p = t.node p ∧
      (mid.Replaces p (place rootDir newPath) ↔ t.Replaces p (place rootDir newPath)) := by
  have same : ∀ x, (t.node x).isSome ∨ ¬x <+: (place rootDir newPath).dropLast →
      mid.node x = t.node x := by
    intro x fine
    rcases ensureParent_node below made x with same | ⟨absent, _, above⟩
    · exact same
    · rcases fine with some | other
      · rw [absent] at some
        cases some
      · exact absurd above other
  have source := same p (.inl there)
  have target := same _ (.inr (Tree.not_under_parent (place_ne_nil below)))
  have inside : mid.Bare (place rootDir newPath) ↔ t.Bare (place rootDir newPath) := by
    refine forall_congr' fun name => ?_
    rw [same _ (.inr fun above => ?_)]
    exact Tree.not_under_parent (place_ne_nil below) ((List.prefix_append _ _).trans above)
  exact ⟨source, by simp only [Tree.Replaces, Tree.file, source, target, inside]⟩

omit bare in
theorem filePath_ne_nil {path : Str} (below : FilePath path) : path ≠ [] := by
  obtain ⟨front, last, rfl, _, plain, _⟩ := below
  simp [plain.1]

/-- What a rename does, in terms of the tree. -/
theorem handleRenameRequest_cases (rootDir : Str) (t : Tree Bytes) {loads : Bytes → Loaded}
    {post : Post} (asks : Asks loads post oldPath newPath) (old : FilePath oldPath)
    (new : FilePath newPath) :
    let r := handleRenameRequest rootDir loads t post.headers post.body
    let p := place rootDir oldPath
    let q := place rootDir newPath
    (Fits t p q ∧ r.2 = some 204 ∧ ∃ mid, ensureParent t (fullPath rootDir newPath) = some mid ∧
        mid.node q.dropLast = some .dir ∧ mid.rename p q = some r.1) ∨
      (¬Fits t p q ∧ (∃ code, r.2 = some code ∧ 400 ≤ code) ∧ (r.1 = t ∨
        ensureParent t (fullPath rootDir newPath) = some r.1)) := by
  obtain ⟨text, read, loaded⟩ := Option.map_eq_some_iff.mp asks
  have named : ¬(oldPath = [] ∨ newPath = []) :=
    not_or.mpr ⟨filePath_ne_nil old, filePath_ne_nil new⟩
  simp only [handleRenameRequest, read, loaded, if_neg named, stat_place old]
  by_cases there : (t.node (place rootDir oldPath)).isSome
  · have seen : ¬(t.node (place rootDir oldPath)).isNone = true := by
      simpa [Option.isSome_iff_ne_none] using there
    simp only [if_neg seen]
    by_cases clear : ∀ x, x <+: (place rootDir newPath).dropLast → t.file x = none
    · obtain ⟨mid, made, dir⟩ := (ensureParent_dir new).mpr clear
      obtain ⟨source, target⟩ := replaces_mid new made there
      simp only [made, rename_place old new]
      by_cases fits : Fits t (place rootDir oldPath) (place rootDir newPath)
      · have some := Tree.rename_isSome (t := mid).mpr ⟨source ▸ there,
          fits.target.imp_right fun either => ⟨either.1, dir, target.mpr either.2⟩⟩
        obtain ⟨t', done⟩ := Option.isSome_iff_exists.mp some
        exact .inl ⟨fits, by simp only [done], mid, rfl, dir, by simp only [done]⟩
      · have none : mid.rename (place rootDir oldPath) (place rootDir newPath) = none := by
          rw [← Option.not_isSome_iff_eq_none, Tree.rename_isSome]
          rintro ⟨_, either⟩
          exact fits ⟨there, clear, either.imp_right fun fine => ⟨fine.1, target.mp fine.2.2⟩⟩
        exact .inr ⟨fits, ⟨500, by simp only [none], by decide⟩, .inr (by simp only [none])⟩
    · have bad : ¬Fits t (place rootDir oldPath) (place rootDir newPath) := fun fits =>
        clear fits.clear
      cases made : ensureParent t (fullPath rootDir newPath) with
      | none => exact .inr ⟨bad, ⟨500, rfl, by decide⟩, .inl rfl⟩
      | some mid =>
        -- A file is where the parent directory should be.
        have none : mid.rename (place rootDir oldPath) (place rootDir newPath) = none := by
          rw [← Option.not_isSome_iff_eq_none, Tree.rename_isSome]
          rintro ⟨_, same | ⟨_, dir, _⟩⟩
          · exact clear (clear_of_there (same ▸ there))
          · exact clear ((ensureParent_dir new).mp ⟨mid, made, dir⟩)
        simp only [rename_place old new, none]
        exact .inr ⟨bad, ⟨500, rfl, by decide⟩, .inr trivial⟩
  · have absent : (t.node (place rootDir oldPath)).isNone = true := by
      simpa [Option.isSome_iff_ne_none] using there
    simp only [if_pos absent]
    exact .inr ⟨fun fits => there fits.source, ⟨404, rfl, by decide⟩, .inl trivial⟩

/-- A rename is answered with 204 if and only if what it names fits. Then the subtree is at the new
path, with the directories above it, and nothing is left at the old one; else no more than
directories above the new path are added. -/
theorem rename_answered_iff (rootDir : Str) (loads : Bytes → Loaded) (t : Tree Bytes) (post : Post)
    (oldPath newPath : Str) (asks : Asks loads post oldPath newPath) (old : FilePath oldPath)
    (new : FilePath newPath) :
    let r := handleRenameRequest rootDir loads t post.headers post.body
    let p := place rootDir oldPath
    let q := place rootDir newPath
    (r.2 = some 204 ↔ Fits t p q) ∧
      (r.2 = some 204 → ∀ x, r.1.node x = if p = q then t.node x
        else if p <+: x then none else if q <+: x then t.node (p ++ x.drop q.length)
        else if x <+: q then some .dir else t.node x) ∧
      (r.2 ≠ some 204 → ∀ x, r.1.node x = t.node x ∨
        (t.node x = none ∧ r.1.node x = some .dir ∧ x <+: q.dropLast)) := by
  intro r p q
  rcases handleRenameRequest_cases rootDir t asks old new with
    ⟨fits, done, mid, made, dir, renamed⟩ | ⟨bad, ⟨code, refused, high⟩, result⟩
  · refine ⟨iff_of_true done fits, fun _ x => ?_, fun other => absurd done other⟩
    have kept : ∀ x, ¬x <+: q.dropLast ∨ (t.node x).isSome → mid.node x = t.node x :=
      fun x fine => (ensureParent_node new made x).resolve_right fun added => fine.elim
        (fun other => other added.2.2) fun some => by simp [added.1] at some
    have node := Tree.rename_node renamed x
    by_cases same : p = q
    · rw [if_pos same] at node ⊢
      rw [show r.1.node x = mid.node x from node]
      apply kept
      by_cases above : x <+: q.dropLast
      · -- What is renamed to itself is there, and so is all that is above.
        have there : (t.node q).isSome := same ▸ fits.source
        have other : x ≠ q := fun whole =>
          Tree.not_under_parent (place_ne_nil new) (whole ▸ above)
        rw [t.dir_above there (above.trans (List.dropLast_prefix q)) other]
        exact .inr rfl
      · exact .inl above
    · obtain ⟨⟨first, second⟩, _⟩ := fits.target.resolve_left same
      rw [if_neg same] at node ⊢
      rw [show r.1.node x = _ from node]
      split
      · rfl
      · split
        · apply kept
          exact .inl fun above => first ((List.prefix_append _ _).trans
            (above.trans (List.dropLast_prefix q)))
        next under =>
          have other : x ≠ q := fun whole => under (whole ▸ List.prefix_refl x)
          split
          next above =>
            have higher : x <+: q.dropLast := Tree.above_dropLast above other
            by_cases parent : x = q.dropLast
            · rw [parent, dir]
            · exact mid.dir_above (by rw [dir]; rfl) higher parent
          next above =>
            exact kept x (.inl fun higher => above (higher.trans (List.dropLast_prefix q)))
  · have other : r.2 ≠ some 204 := by
      rw [show r.2 = some code from refused]
      simp only [ne_eq, Option.some.injEq]
      omega
    refine ⟨iff_of_false other bad, fun done => absurd done other, fun _ x => ?_⟩
    rcases result with same | made
    · exact .inl (by rw [show r.1 = t from same])
    · exact ensureParent_node new made x

end

/-- A request for a rename. -/
def renameRequest (oldPath newPath : Str) : Post :=
  let text := "\x7b\"old_path\":\"".toList ++ oldPath ++ "\",\"new_path\":\"".toList ++ newPath ++
    "\"\x7d".toList
  ⟨renameRoute, [("Content-Length".toList, Nat.toDigits 10 text.length)],
    .ofFn text.length fun i => .ofNat (text.getD i ' ').toNat⟩

/-- What `json.loads` makes of the requests for renaming `f` to `g`, and back. -/
def loadsRenaming (body : Bytes) : Loaded :=
  if body.get 13 = 102 then .paths ['f'] ['g'] else .paths ['g'] ['f']

def oneFile : Tree Bytes := single .empty

theorem asks_renameRequest : Asks loadsRenaming (renameRequest ['f'] ['g']) ['f'] ['g'] := by
  decide +kernel

open Classical in
theorem rename_answered_iff_missing :
    let r := handleRenameRequest ['/'] loadsRenaming oneFile
      (renameRequest ['f'] ['g']).headers (renameRequest ['f'] ['g']).body
    let p := place ['/'] ['f']
    let q := place ['/'] ['g']
    (r.2 = some 204 ↔ Fits oneFile p q) ∧
      (r.2 = some 204 → ∀ x, r.1.node x = if p = q then oneFile.node x
        else if p <+: x then none else if q <+: x then oneFile.node (p ++ x.drop q.length)
        else if x <+: q then some .dir else oneFile.node x) ∧
      (r.2 ≠ some 204 → ∀ x, r.1.node x = oneFile.node x ∨
        (oneFile.node x = none ∧ r.1.node x = some .dir ∧ x <+: q.dropLast)) :=
  rename_answered_iff ['/'] loadsRenaming oneFile (renameRequest ['f'] ['g']) ['f'] ['g']
    asks_renameRequest (filePath_letter (by decide)) (filePath_letter (by decide))

/-- After a rename to a path where nothing was, the rename back is answered with 204 and restores
the tree, up to the directories that were made above the path. -/
theorem rename_restores [∀ (t : Tree Bytes) (q : Path), Decidable (t.Bare q)] (rootDir : Str)
    (loads : Bytes → Loaded) (t : Tree Bytes) (post back : Post) (oldPath newPath : Str)
    (asks : Asks loads post oldPath newPath) (asksBack : Asks loads back newPath oldPath)
    (old : FilePath oldPath) (new : FilePath newPath)
    (absent : t.node (place rootDir newPath) = none)
    (done : (handleRenameRequest rootDir loads t post.headers post.body).2 = some 204) :
    let r := handleRenameRequest rootDir loads t post.headers post.body
    let r' := handleRenameRequest rootDir loads r.1 back.headers back.body
    let q := place rootDir newPath
    r'.2 = some 204 ∧
      (∀ x, r'.1.node x = t.node x ∨
        (t.node x = none ∧ r'.1.node x = some .dir ∧ x <+: q.dropLast)) ∧
      (t.node q.dropLast = some .dir → r'.1 = t) := by
  intro r r' q
  rcases handleRenameRequest_cases rootDir t asks old new with
    ⟨fits, _, mid, made, _, renamed⟩ | ⟨_, ⟨code, refused, high⟩, _⟩
  case inr =>
    rw [refused, Option.some.injEq] at done
    omega
  have absent' : mid.node (place rootDir newPath) = none := by
    rcases ensureParent_node new made (place rootDir newPath) with same | ⟨_, _, above⟩
    · rw [same, absent]
    · exact absurd above (Tree.not_under_parent (place_ne_nil new))
  have again := Tree.rename_back renamed absent'
  obtain ⟨there, either⟩ := Tree.rename_isSome.mp (Option.isSome_iff_exists.mpr ⟨mid, again⟩)
  have other : place rootDir newPath ≠ place rootDir oldPath := fun same => by
    have source := fits.source
    rw [← same, absent] at source
    cases source
  obtain ⟨apart, parent, replaces⟩ := either.resolve_left other
  have kept := ensureParent_there old parent
  have fitsBack : Fits r.1 (place rootDir newPath) (place rootDir oldPath) :=
    ⟨there, (ensureParent_dir old).mp ⟨r.1, kept, parent⟩, .inr ⟨apart, replaces⟩⟩
  rcases handleRenameRequest_cases rootDir r.1 asksBack new old with
    ⟨_, answered, mid', made', _, renamed'⟩ | ⟨bad, _⟩
  case inr => exact absurd fitsBack bad
  rw [kept, Option.some.injEq] at made'
  rw [← made', again, Option.some.injEq] at renamed'
  have result : r'.1 = mid := renamed'.symm
  refine ⟨answered, fun x => ?_, fun dir => ?_⟩
  · rw [result]
    exact ensureParent_node new made x
  · rw [ensureParent_there new dir, Option.some.injEq] at made
    rw [result, made]

theorem fits_oneFile : Fits oneFile (place ['/'] ['f']) (place ['/'] ['g']) := by
  have source : place ['/'] ['f'] = [['f']] := by decide +kernel
  have target : place ['/'] ['g'] = [['g']] := by decide +kernel
  rw [source, target]
  refine ⟨rfl, fun x above => ?_, .inr ⟨by decide, .inl ⟨rfl, by decide +kernel⟩⟩⟩
  rw [List.prefix_nil.mp above]
  rfl

open Classical in
theorem rename_restores_oneFile :
    let r := handleRenameRequest ['/'] loadsRenaming oneFile
      (renameRequest ['f'] ['g']).headers (renameRequest ['f'] ['g']).body
    let r' := handleRenameRequest ['/'] loadsRenaming r.1
      (renameRequest ['g'] ['f']).headers (renameRequest ['g'] ['f']).body
    let q := place ['/'] ['g']
    r'.2 = some 204 ∧
      (∀ x, r'.1.node x = oneFile.node x ∨
        (oneFile.node x = none ∧ r'.1.node x = some .dir ∧ x <+: q.dropLast)) ∧
      (oneFile.node q.dropLast = some .dir → r'.1 = oneFile) := by
  have old : FilePath ['f'] := filePath_letter (by decide)
  have new : FilePath ['g'] := filePath_letter (by decide)
  have asksBack : Asks loadsRenaming (renameRequest ['g'] ['f']) ['g'] ['f'] := by
    decide +kernel
  refine rename_restores ['/'] loadsRenaming oneFile (renameRequest ['f'] ['g'])
    (renameRequest ['g'] ['f']) ['f'] ['g'] asks_renameRequest asksBack old new
    (by decide +kernel) ?_
  rcases handleRenameRequest_cases ['/'] oneFile asks_renameRequest old new with
    ⟨_, done, _⟩ | ⟨bad, _⟩
  · exact done
  · exact absurd fits_oneFile bad

end LocalServer

end RemoteCache
