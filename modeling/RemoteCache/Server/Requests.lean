import RemoteCache.Lib.Transition
import RemoteCache.Server.PatchUploads
import RemoteCache.Server.Rename

/-!
# Runs of the bundled server

## Main results

`run_refines_store`: after any sequence of requests the files are those that the
acknowledged ones leave behind in a flat store.

`upload_served`: what an acknowledged upload has stored is what a later request
for the data is answered with, whatever comes between and does not name the file
or what is above it.

## Proof strategy

The store below knows of directories only where they are. Each handler either
refuses and leaves the files alone, or does to them what the store does.
-/
namespace RemoteCache

/-! ### The flat store -/

/-- What an acknowledged request is for. -/
inductive Change where
  | keep
  | put (at_ : Path) (b : Bytes)
  | touch (at_ : Path)
  | drop (at_ : Path)
  | move (old new : Path)

def Change.apply (fs : Files) : Change → Files
  | keep => fs
  | put at_ b => fs.set at_ b
  | touch at_ => if (fs at_).isSome then fs else fs.set at_ .empty
  | drop at_ => fun x => if at_ <+: x then none else fs x
  | move old new => fun x =>
    if old = new then fs x
    else if old <+: x then none
    else if new <+: x then fs (old ++ x.drop new.length)
    else fs x

/-- The files, and the locations of directories. -/
structure FlatStore where
  files : Files
  dirs : Path → Bool

/-- What the flat store knows of a tree. -/
def Tree.flat (t : Tree Bytes) : FlatStore := ⟨t.file, fun p => decide (t.node p = some .dir)⟩

namespace LocalServer

/-- A request as it comes in. -/
inductive Incoming where
  | request (req : Request)
  | post (post : Post)

section

variable (rootDir : Str) (address : Str → Bool) (loads : Bytes → Loaded)

/-- A request with a target that `urlparse` refuses is not answered. -/
def serve [∀ (t : Tree Bytes) (q : Path), Decidable (t.Bare q)] (t : Tree Bytes) :
    Incoming → Tree Bytes × Option ℕ
  | .request req =>
    if Python.urlRefused address req.target then (t, none)
    else
      let r := handle rootDir t req
      (r.1, some r.2)
  | .post post =>
    if Python.urlRefused address post.target then (t, none) else doPOST rootDir loads t post

/-- The answer to a `GET`, if there is one. -/
def answer (guessType : Str → Option Str) (t : Tree Bytes) (req : Request) : Option Response :=
  if Python.urlRefused address req.target then none else some (doGET rootDir guessType t req)

/-- What an upload leaves in the file: the body, or the old content with the body at the start of
the range of a `PATCH`. -/
def uploaded (old : Option Bytes) (req : Request) : Bytes :=
  let data := (readBody req.headers req.body).getD .empty
  match if req.method = .PATCH then req.header "Content-Range".toList else none with
  | some range => (old.getD .empty).write data ((rangeStart range).getD 0).toNat
  | none => data

/-- What a request asks for, with the paths that it names. -/
inductive Asked where
  | nothing
  | upload (path : Str) (req : Request)
  | delete (path : Str)
  | create (path : Str) (isDirectory : Bool)
  | rename (oldPath newPath : Str)

def asked : Incoming → Asked
  | .request req =>
    let path := Python.urlPath req.target
    if Python.urlRefused address req.target then .nothing
    else match req.method with
      | .GET => .nothing
      | .PUT => if dataRoute <+: path then .upload (path.drop 9) req else .nothing
      | .PATCH => if dataRoute <+: path then .upload (path.drop 9) req else .nothing
      | .DELETE => if deleteRoute <+: path then .delete (path.drop 11) else .nothing
  | .post post =>
    let path := Python.urlPath post.target
    if Python.urlRefused address post.target then .nothing
    else if createRoute <+: path then .create (path.drop 11) (forDirectory post.target)
    else if path = renameRoute then
      match (readBody post.headers post.body).map loads with
      | some (.paths oldPath newPath) =>
        if oldPath = [] ∨ newPath = [] then .nothing else .rename oldPath newPath
      | _ => .nothing
    else .nothing

def Asked.paths : Asked → List Str
  | nothing => []
  | upload path _ => [path]
  | delete path => [path]
  | create path _ => [path]
  | rename oldPath newPath => [oldPath, newPath]

/-- What becomes of the files where the request is carried out. Nothing is created where a directory
is. -/
def Asked.change (s : FlatStore) : Asked → Change
  | nothing => .keep
  | upload path req => .put (place rootDir path) (uploaded (s.files (place rootDir path)) req)
  | delete path => .drop (place rootDir path)
  | create path isDirectory =>
    if isDirectory || s.dirs (place rootDir path) then .keep else .touch (place rootDir path)
  | rename oldPath newPath => .move (place rootDir oldPath) (place rootDir newPath)

/-- Where the request may make directories. -/
def Asked.Makes (p : Path) : Asked → Prop
  | nothing => False
  | upload path _ => p <+: (place rootDir path).dropLast
  | delete _ => False
  | create path isDirectory =>
    p <+: if isDirectory then place rootDir path else (place rootDir path).dropLast
  | rename _ newPath => p <+: (place rootDir newPath).dropLast ∨ place rootDir newPath <+: p

/-- Where the request leaves nothing if it is carried out. -/
def Asked.Clears (p : Path) : Asked → Prop
  | delete path => place rootDir path <+: p
  | rename oldPath newPath =>
    place rootDir oldPath ≠ place rootDir newPath ∧ place rootDir oldPath <+: p
  | _ => False

/-- The request was carried out. -/
def Acknowledged (status : Option ℕ) : Prop := ∃ code, status = some code ∧ code < 300

instance (status : Option ℕ) : Decidable (Acknowledged status) :=
  decidable_of_iff (∃ code ∈ status, code < 300) Iff.rfl

/-- A `PATCH` with a start that no offset of a file can be. -/
def StartsTooFar (req : Request) : Prop :=
  req.method = .PATCH ∧
    ∃ range start, req.header "Content-Range".toList = some range ∧
      rangeStart range = some start ∧ 2 ^ 63 ≤ start

/-- What a step does to the files. A refused request changes none, but where nothing is, a file may
be opened before the start of a range is refused. -/
inductive FilesAfter (s : FlatStore) (r : Incoming) (status : Option ℕ) : Files → Prop where
  | refused : ¬Acknowledged status → FilesAfter s r status s.files
  | opened (path : Str) (req : Request) : ¬Acknowledged status →
      asked address loads r = .upload path req → StartsTooFar req →
      s.files (place rootDir path) = none →
      FilesAfter s r status (s.files.set (place rootDir path) .empty)
  | done : Acknowledged status →
      FilesAfter s r status (((asked address loads r).change rootDir s).apply s.files)

/-- A step of the flat store. -/
structure FileStep (s : FlatStore) (r : Incoming) (status : Option ℕ) (s' : FlatStore) :
    Prop where
  files : FilesAfter rootDir address loads s r status s'.files
  made : ∀ p, s'.dirs p = true → s.dirs p = true ∨ (asked address loads r).Makes rootDir p
  cleared : Acknowledged status → ∀ p, s'.dirs p = true → ¬(asked address loads r).Clears rootDir p

/-- A step of the server. -/
def Serves [∀ (t : Tree Bytes) (q : Path), Decidable (t.Bare q)] (t : Tree Bytes) (r : Incoming)
    (status : Option ℕ) (t' : Tree Bytes) : Prop :=
  serve rootDir address loads t r = (t', status)

/-- Every path that the request names is that of a file. -/
def OnFiles (r : Incoming) : Prop := ∀ path ∈ (asked address loads r).paths, FilePath path

end

/-! ### What the handlers do to files -/

section

variable {rootDir : Str} {t : Tree Bytes} {path : Str}

theorem rangeStart_nonneg {range : Str} {start : ℤ} (parsed : rangeStart range = some start) :
    0 ≤ start := by
  obtain ⟨part, _, digits⟩ := Option.bind_eq_some_iff.mp parsed
  refine Python.int_nonneg ?_ digits
  rw [Python.headD_splitOn]
  exact fun dash => absurd (List.mem_takeWhile_imp dash) (by decide)

/-- An upload replaces the file, or is refused; then it may leave an empty file. -/
theorem handleDataUpload_files (below : FilePath path) (req : Request) :
    let r := handleDataUpload rootDir t path req
    let at_ := place rootDir path
    (r.2 = 500 ∧ r.1.file = t.file) ∨
      (r.2 = 500 ∧ StartsTooFar req ∧ t.file at_ = none ∧
        r.1.file = Function.update t.file at_ (some .empty)) ∨
      (r.2 < 300 ∧ r.1.file = Function.update t.file at_ (some (uploaded (t.file at_) req))) := by
  simp only [handleDataUpload, uploaded]
  cases made : ensureParent t (fullPath rootDir path) with
  | none => exact .inl ⟨rfl, rfl⟩
  | some mid =>
    have kept := file_ensureParent made
    have spec : ∀ b, create mid (fullPath rootDir path) b = none ∨
        ∃ t', create mid (fullPath rootDir path) b = some t' ∧
          t'.file = Function.update t.file (place rootDir path) (some b) := fun b => by
      rcases upload_created rootDir t below b with
        ⟨_, bad | ⟨_, same, refused⟩⟩ | ⟨_, _, t', same, done, file⟩
      · rw [made] at bad
        cases bad
      · rw [made] at same
        cases same
        exact .inl refused
      · rw [made] at same
        cases same
        exact .inr ⟨t', done, file⟩
    cases readBody req.headers req.body with
    | none => exact .inl ⟨rfl, kept⟩
    | some data =>
      simp only [Option.getD_some]
      cases ranged : (if req.method = .PATCH then req.header "Content-Range".toList else none) with
      | none =>
        rcases spec data with refused | ⟨t', done, file⟩
        · simp only [refused]
          exact .inl ⟨trivial, kept⟩
        · simp only [done, file]
          exact .inr (.inr ⟨by split <;> decide, trivial⟩)
      | some range =>
        dsimp only
        cases parsed : rangeStart range with
        | none => exact .inl ⟨rfl, kept⟩
        | some start =>
          have old := contentAt_place rootDir mid below
          rw [kept] at old
          simp only [old, Option.getD_some]
          by_cases fits : 0 ≤ start ∧ start < 2 ^ 63
          · simp only [if_pos fits]
            rcases spec (((t.file (place rootDir path)).getD .empty).write data start.toNat) with
              refused | ⟨t', done, file⟩
            · simp only [refused]
              exact .inl ⟨trivial, kept⟩
            · simp only [done, file]
              exact .inr (.inr ⟨by decide, trivial⟩)
          · -- The file that was opened keeps its content, or is new and empty.
            simp only [if_neg fits]
            have far : StartsTooFar req := by
              have positive := rangeStart_nonneg parsed
              split at ranged
              next patch => exact ⟨patch, range, start, ranged, parsed, by omega⟩
              · cases ranged
            rcases spec ((t.file (place rootDir path)).getD .empty) with
              refused | ⟨t', done, file⟩
            · simp only [refused]
              exact .inl ⟨trivial, kept⟩
            · simp only [done, file]
              cases there : t.file (place rootDir path) with
              | none => exact .inr (.inl ⟨trivial, far, rfl, rfl⟩)
              | some b =>
                refine .inl ⟨trivial, ?_⟩
                rw [Option.getD_some, ← there, Function.update_eq_self]

/-- An upload makes directories above the file only. -/
theorem handleDataUpload_dirs (below : FilePath path) (req : Request) {p : Path}
    (dir : (handleDataUpload rootDir t path req).1.node p = some .dir) :
    t.node p = some .dir ∨ p <+: (place rootDir path).dropLast := by
  have parents : ∀ {mid}, ensureParent t (fullPath rootDir path) = some mid →
      mid.node p = some .dir → t.node p = some .dir ∨ p <+: (place rootDir path).dropLast :=
    fun made dir => (ensureParent_node below made p).imp (fun same => same.symm.trans dir)
      fun new => new.2.2
  rcases handleDataUpload_cases rootDir t path req with same | ⟨mid, made, same | ⟨b, done⟩⟩
  · exact .inl (same ▸ dir)
  · exact parents made (same ▸ dir)
  · rw [create_place below] at done
    by_cases here : p = place rootDir path
    · rw [(Tree.put?_eq_some done).1, here, Function.update_self] at dir
      cases dir
    · rw [(Tree.put?_eq_some done).1, Function.update_of_ne here] at dir
      exact parents made dir

theorem rmtree_file (rootDir : Str) (t : Tree Bytes) (path : Str) :
    (t.rmtree (place rootDir path)).file = (Change.drop (place rootDir path)).apply t.file :=
  funext fun x => t.file_rmtree (place rootDir path) x

/-- A delete removes what is at the location and below, or is refused. -/
theorem handleDeleteRequest_cases (below : FilePath path) (req : Request) :
    let r := handleDeleteRequest rootDir t path req
    (400 ≤ r.2 ∧ r.1 = t) ∨ (r.2 = 204 ∧ r.1 = t.rmtree (place rootDir path)) := by
  have inside : resolve [] (fullPath rootDir path) ≠ [] := place_ne_nil below
  simp only [handleDeleteRequest, if_neg inside]
  split
  · exact .inl ⟨by simp, rfl⟩
  · split
    · exact .inr ⟨rfl, rfl⟩
    · exact .inl ⟨by simp, rfl⟩
  · split
    · exact .inl ⟨by simp, rfl⟩
    · exact .inr ⟨rfl, rfl⟩

theorem rmtree_dirs {p q : Path} (inside : q ≠ []) (dir : (t.rmtree q).node p = some .dir) :
    t.node p = some .dir ∧ ¬q <+: p := by
  have outside : ¬q <+: p := fun under => by
    have below : p ≠ [] := fun top => inside (List.prefix_nil.mp (top ▸ under))
    have gone : (t.rmtree q).node p = none := if_pos ⟨under, below⟩
    rw [gone] at dir
    cases dir
  have kept : (t.rmtree q).node p = t.node p := if_neg fun under => outside under.1
  exact ⟨kept.symm.trans dir, outside⟩

/-- A request to create something adds an empty file where nothing is, or no file. -/
theorem handleCreateRequest_files (below : FilePath path) (isDirectory : Bool) :
    let r := handleCreateRequest rootDir t path isDirectory
    (r.2 = 500 ∧ r.1.file = t.file) ∨
      (r.2 = 201 ∧
        r.1.file = ((Asked.create path isDirectory).change rootDir t.flat).apply t.file) := by
  simp only [Asked.change, Tree.flat]
  cases isDirectory with
  | true =>
    rcases handleCreateRequest_directory rootDir t path with ⟨t', done, _, _, others⟩ | ⟨refused, _⟩
    · simp only [done, Bool.true_or, if_true, Change.apply]
      refine .inr ⟨trivial, funext fun x => ?_⟩
      rcases others x with same | ⟨absent, dir, _⟩
      · exact Tree.file_congr same
      · simp only [Tree.file, absent, dir]
    · exact .inl ⟨by rw [refused], by rw [refused]⟩
  | false =>
    rcases handleCreateRequest_file rootDir t below with
      ⟨t', done, _, there, others⟩ | ⟨refused, same, _⟩
    · have away : ∀ x, x ≠ place rootDir path → t'.file x = t.file x := fun x other => by
        rcases others x with same | ⟨absent, _, dir⟩
        · exact Tree.file_congr same
        · rw [if_neg other] at dir
          simp only [Tree.file, absent, dir]
      simp only [done, Bool.false_or, decide_eq_true_eq]
      refine .inr ⟨trivial, ?_⟩
      rcases others (place rootDir path) with same | ⟨absent, _, new⟩
      · have kept : t'.file = t.file := funext fun x => by
          by_cases here : x = place rootDir path
          · rw [here]
            exact Tree.file_congr same
          · exact away x here
        rw [kept]
        rw [same] at there
        cases found : t.node (place rootDir path) with
        | none =>
          rw [found] at there
          cases there
        | some n =>
          cases n with
          | dir => rfl
          | file b => simp [Change.apply, Tree.file, found]
      · rw [if_pos rfl] at new
        have content : t.file (place rootDir path) = none := by rw [Tree.file, absent]
        have empty : t'.file (place rootDir path) = some .empty := by rw [Tree.file, new]
        rw [absent, if_neg (by simp)]
        funext x
        by_cases here : x = place rootDir path
        · simp [here, Change.apply, content, Files.set, empty]
        · simp [away x here, Change.apply, content, Files.set, Function.update_of_ne here]
    · exact .inl ⟨refused, by rw [same]⟩

/-- A request to create something makes directories at the location or above it only. -/
theorem handleCreateRequest_dirs (below : FilePath path) (isDirectory : Bool) {p : Path}
    (dir : (handleCreateRequest rootDir t path isDirectory).1.node p = some .dir) :
    t.node p = some .dir ∨
      p <+: if isDirectory then place rootDir path else (place rootDir path).dropLast := by
  cases isDirectory with
  | true =>
    rcases handleCreateRequest_directory rootDir t path with ⟨t', done, _, _, others⟩ | ⟨refused, _⟩
    · rw [done] at dir
      exact (others p).imp (fun same => same.symm.trans dir) fun new => new.2.2
    · rw [refused] at dir
      exact .inl dir
  | false =>
    rcases handleCreateRequest_file rootDir t below with
      ⟨t', done, _, _, others⟩ | ⟨_, same, _⟩
    · rw [done] at dir
      rcases others p with same | ⟨_, above, new⟩
      · exact .inl (same.symm.trans dir)
      · have other : p ≠ place rootDir path := by
          rintro rfl
          rw [dir, if_pos rfl] at new
          cases new
        exact .inr (Tree.above_dropLast above other)
    · exact .inl (same ▸ dir)

variable {address : Str → Bool} {loads : Bytes → Loaded}
  [bare : ∀ (t : Tree Bytes) (q : Path), Decidable (t.Bare q)]

/-- A rename moves what is at the location and below, or is refused. -/
theorem handleRenameRequest_files {post : Post} {oldPath newPath : Str}
    (asks : Asks loads post oldPath newPath) (old : FilePath oldPath) (new : FilePath newPath) :
    let r := handleRenameRequest rootDir loads t post.headers post.body
    ((∃ code, r.2 = some code ∧ 400 ≤ code) ∧ r.1.file = t.file) ∨
      (r.2 = some 204 ∧ r.1.file =
        (Change.move (place rootDir oldPath) (place rootDir newPath)).apply t.file) := by
  rcases handleRenameRequest_cases rootDir t asks old new with
    ⟨_, done, mid, made, _, renamed⟩ | ⟨_, refused, same | made⟩
  · refine .inr ⟨done, funext fun x => ?_⟩
    rw [Tree.rename_file renamed x, file_ensureParent made]
    rfl
  · exact .inl ⟨refused, by rw [same]⟩
  · exact .inl ⟨refused, file_ensureParent made⟩

/-- A rename makes directories above the new path, and moves those below the old one. -/
theorem handleRenameRequest_dirs {post : Post} {oldPath newPath : Str}
    (asks : Asks loads post oldPath newPath) (old : FilePath oldPath) (new : FilePath newPath)
    {p : Path}
    (dir : (handleRenameRequest rootDir loads t post.headers post.body).1.node p = some .dir) :
    (t.node p = some .dir ∨ p <+: (place rootDir newPath).dropLast ∨
        place rootDir newPath <+: p) ∧
      ((handleRenameRequest rootDir loads t post.headers post.body).2 = some 204 →
        ¬(place rootDir oldPath ≠ place rootDir newPath ∧ place rootDir oldPath <+: p)) := by
  have parents : ∀ {mid}, ensureParent t (fullPath rootDir newPath) = some mid →
      mid.node p = some .dir →
        t.node p = some .dir ∨ p <+: (place rootDir newPath).dropLast ∨
          place rootDir newPath <+: p := fun made dir =>
    (ensureParent_node new made p).imp (fun same => same.symm.trans dir) fun new => .inl new.2.2
  rcases handleRenameRequest_cases rootDir t asks old new with
    ⟨_, _, mid, made, _, renamed⟩ | ⟨_, ⟨code, refused, high⟩, result⟩
  · rw [Tree.rename_node renamed p] at dir
    split at dir
    next same => exact ⟨parents made dir, fun _ moved => moved.1 same⟩
    · split at dir
      · cases dir
      next outside =>
        refine ⟨?_, fun _ moved => outside moved.2⟩
        split at dir
        next under => exact .inr (.inr under)
        · exact parents made dir
  · refine ⟨?_, fun done => ?_⟩
    · rcases result with same | made
      · exact .inl (same ▸ dir)
      · exact parents made dir
    · rw [refused, Option.some.injEq] at done
      omega

omit bare in
theorem FilesAfter.unchanged {s : FlatStore} {files : Files} {r : Incoming} {status : Option ℕ}
    (refused : ¬Acknowledged status) (same : files = s.files) :
    FilesAfter rootDir address loads s r status files := by
  rw [same]
  exact .refused refused

omit bare in
/-- A step that is carried out, by what the request asks for. -/
theorem FilesAfter.acknowledged {s : FlatStore} {files : Files} {r : Incoming} {code : ℕ}
    (low : code < 300) {what : Asked} (asks : asked address loads r = what)
    (result : files = (what.change rootDir s).apply s.files) :
    FilesAfter rootDir address loads s r (some code) files := by
  rw [result, ← asks]
  exact .done ⟨code, rfl, low⟩

omit bare in
theorem not_acknowledged {code : ℕ} (high : 400 ≤ code) : ¬Acknowledged (some code) := by
  rintro ⟨_, same, low⟩
  cases same
  omega

/-- A body that does not give two paths changes nothing. -/
theorem handleRenameRequest_nothing {post : Post}
    (none : ∀ oldPath newPath, Asks loads post oldPath newPath → oldPath = [] ∨ newPath = []) :
    (handleRenameRequest rootDir loads t post.headers post.body).1 = t := by
  unfold handleRenameRequest
  cases read : readBody post.headers post.body with
  | none => rfl
  | some text =>
    simp only
    cases loaded : loads text with
    | paths oldPath newPath =>
      have unnamed := none oldPath newPath (by rw [Asks, read, Option.map_some, loaded])
      simp only [if_pos unnamed]
    | _ => rfl

/-- A request is handled by what it asks for. -/
inductive Handled (rootDir : Str) (address : Str → Bool) (loads : Bytes → Loaded)
    [∀ (t : Tree Bytes) (q : Path), Decidable (t.Bare q)] (t : Tree Bytes) (r : Incoming) :
    Option ℕ → Tree Bytes → Prop where
  | nothing (status : Option ℕ) : asked address loads r = .nothing →
      Handled rootDir address loads t r status t
  | upload (path : Str) (req : Request) : asked address loads r = .upload path req →
      Handled rootDir address loads t r (some (handleDataUpload rootDir t path req).2)
        (handleDataUpload rootDir t path req).1
  | delete (path : Str) (req : Request) : asked address loads r = .delete path →
      Handled rootDir address loads t r (some (handleDeleteRequest rootDir t path req).2)
        (handleDeleteRequest rootDir t path req).1
  | create (path : Str) (isDirectory : Bool) : asked address loads r = .create path isDirectory →
      Handled rootDir address loads t r (some (handleCreateRequest rootDir t path isDirectory).2)
        (handleCreateRequest rootDir t path isDirectory).1
  | rename (post : Post) (oldPath newPath : Str) : asked address loads r = .rename oldPath newPath →
      Asks loads post oldPath newPath → Handled rootDir address loads t r
        (handleRenameRequest rootDir loads t post.headers post.body).2
        (handleRenameRequest rootDir loads t post.headers post.body).1

theorem Serves.handled {r : Incoming} {status : Option ℕ} {t' : Tree Bytes}
    (served : Serves rootDir address loads t r status t') :
    Handled rootDir address loads t r status t' := by
  obtain ⟨rfl, rfl⟩ := Prod.ext_iff.mp served
  cases r with
  | request req =>
    simp only [serve]
    by_cases refused : Python.urlRefused address req.target = true
    · rw [if_pos refused]
      exact .nothing _ (by simp only [asked, if_pos refused])
    rw [if_neg refused]
    simp only [handle]
    cases method : req.method with
    | GET => exact .nothing _ (by simp only [asked, if_neg refused, method])
    | PUT =>
      simp only [doPUT]
      split
      next route =>
        exact .upload _ req (by simp only [asked, if_neg refused, method, if_pos route])
      next other =>
        exact .nothing _ (by simp only [asked, if_neg refused, method, if_neg other])
    | PATCH =>
      simp only [doPATCH]
      split
      next route =>
        exact .upload _ req (by simp only [asked, if_neg refused, method, if_pos route])
      next other =>
        exact .nothing _ (by simp only [asked, if_neg refused, method, if_neg other])
    | DELETE =>
      simp only [doDELETE]
      split
      next route =>
        exact .delete _ req (by simp only [asked, if_neg refused, method, if_pos route])
      next other =>
        exact .nothing _ (by simp only [asked, if_neg refused, method, if_neg other])
  | post post =>
    simp only [serve]
    by_cases refused : Python.urlRefused address post.target = true
    · rw [if_pos refused]
      exact .nothing _ (by simp only [asked, if_pos refused])
    rw [if_neg refused]
    simp only [doPOST]
    split
    next route =>
      exact .create _ (forDirectory post.target)
        (by simp only [asked, if_neg refused, if_pos route])
    next other =>
      split
      next route =>
        by_cases both : ∃ oldPath newPath, Asks loads post oldPath newPath ∧
            ¬(oldPath = [] ∨ newPath = [])
        · obtain ⟨oldPath, newPath, asks, full⟩ := both
          refine .rename post oldPath newPath ?_ asks
          rw [Asks] at asks
          simp only [asked, if_neg refused, if_neg other, if_pos route, asks, if_neg full]
        · have none : ∀ oldPath newPath, Asks loads post oldPath newPath →
              oldPath = [] ∨ newPath = [] := fun oldPath newPath asks => by
            by_contra full
            exact both ⟨oldPath, newPath, asks, full⟩
          rw [handleRenameRequest_nothing none]
          refine .nothing _ ?_
          simp only [asked, if_neg refused, if_neg other, if_pos route]
          split
          next asks => exact if_pos (none _ _ asks)
          next => rfl
      next other' =>
        exact .nothing _ (by simp only [asked, if_neg refused, if_neg other, if_neg other'])

omit bare in
/-- What asks for nothing changes nothing, however it is answered. -/
theorem FileStep.nothing {s : FlatStore} {r : Incoming} (status : Option ℕ)
    (none : asked address loads r = .nothing) : FileStep rootDir address loads s r status s where
  files := by
    by_cases acknowledged : Acknowledged status
    · have step : FilesAfter rootDir address loads s r status
          (((asked address loads r).change rootDir s).apply s.files) := .done acknowledged
      rwa [none] at step
    · exact .refused acknowledged
  made _ there := .inl there
  cleared _ p _ := by simp [none, Asked.Clears]

/-- A request on paths of files is a step of the flat store. -/
theorem serve_files {r : Incoming} {status : Option ℕ} {t' : Tree Bytes}
    (fine : OnFiles address loads r)
    (served : Serves rootDir address loads t r status t') :
    FileStep rootDir address loads t.flat r status t'.flat := by
  rw [OnFiles] at fine
  cases served.handled with
  | nothing status asks => exact .nothing status asks
  | upload path req asks =>
    rw [asks, Asked.paths, List.forall_mem_singleton] at fine
    refine ⟨?_, fun p dir => ?_, fun _ p _ => by simp [asks, Asked.Clears]⟩
    · rcases handleDataUpload_files fine req with
        ⟨refused, kept⟩ | ⟨refused, far, absent, file⟩ | ⟨low, file⟩
      · exact .unchanged (not_acknowledged (by rw [refused]; decide)) kept
      · have opened : FilesAfter rootDir address loads t.flat r
            (some (handleDataUpload rootDir t path req).2)
            (Function.update t.file (place rootDir path) (some .empty)) :=
          .opened path req (not_acknowledged (by rw [refused]; decide)) asks far absent
        rwa [← file] at opened
      · exact .acknowledged low asks file
    · rw [asks]
      exact (handleDataUpload_dirs fine req (of_decide_eq_true dir)).imp_left decide_eq_true
  | delete path req asks =>
    rw [asks, Asked.paths, List.forall_mem_singleton] at fine
    rcases handleDeleteRequest_cases fine req with ⟨refused, kept⟩ | ⟨done, removed⟩
    · rw [kept]
      exact ⟨.refused (not_acknowledged refused), fun _ there => .inl there,
        fun acknowledged => absurd acknowledged (not_acknowledged refused)⟩
    · rw [done, removed]
      have dirs : ∀ p, (t.rmtree (place rootDir path)).flat.dirs p = true →
          t.flat.dirs p = true ∧ ¬place rootDir path <+: p := fun p dir =>
        (rmtree_dirs (place_ne_nil fine) (of_decide_eq_true dir)).imp_left decide_eq_true
      refine ⟨.acknowledged (by decide) asks (rmtree_file rootDir t path), fun p dir =>
        .inl (dirs p dir).1, fun _ p dir => ?_⟩
      rw [asks]
      exact (dirs p dir).2
  | create path isDirectory asks =>
    rw [asks, Asked.paths, List.forall_mem_singleton] at fine
    refine ⟨?_, fun p dir => ?_, fun _ p _ => by simp [asks, Asked.Clears]⟩
    · rcases handleCreateRequest_files fine isDirectory with ⟨refused, kept⟩ | ⟨done, file⟩
      · exact .unchanged (not_acknowledged (by rw [refused]; decide)) kept
      · exact .acknowledged (by rw [done]; decide) asks file
    · rw [asks]
      exact (handleCreateRequest_dirs fine isDirectory (of_decide_eq_true dir)).imp_left
        decide_eq_true
  | rename post oldPath newPath asks body =>
    rw [asks, Asked.paths, List.forall_mem_cons, List.forall_mem_singleton] at fine
    refine ⟨?_, fun p dir => ?_, fun acknowledged p dir => ?_⟩
    · rcases handleRenameRequest_files body fine.1 fine.2 with
        ⟨⟨code, refused, high⟩, kept⟩ | ⟨done, file⟩
      · rw [refused]
        exact .unchanged (not_acknowledged high) kept
      · rw [done]
        exact .acknowledged (by decide) asks file
    · rw [asks]
      exact (handleRenameRequest_dirs body fine.1 fine.2 (of_decide_eq_true dir)).1.imp_left
        decide_eq_true
    · rw [asks]
      refine (handleRenameRequest_dirs body fine.1 fine.2 (of_decide_eq_true dir)).2 ?_
      rcases handleRenameRequest_files body fine.1 fine.2 with
        ⟨⟨code, refused, high⟩, _⟩ | ⟨done, _⟩
      · rw [refused] at acknowledged
        exact absurd acknowledged (not_acknowledged high)
      · exact done

omit bare in
/-- A file stays as it is where the request names neither its location nor one above. -/
theorem FileStep.elsewhere {s s' : FlatStore} {r : Incoming} {status : Option ℕ}
    (step : FileStep rootDir address loads s r status s') {x : Path}
    (apart : ∀ other ∈ (asked address loads r).paths, ¬place rootDir other <+: x) :
    s'.files x = s.files x := by
  have away : ∀ other ∈ (asked address loads r).paths, x ≠ place rootDir other :=
    fun other member same => apart other member (same ▸ List.prefix_refl _)
  have files := step.files
  generalize s'.files = after at files ⊢
  cases files with
  | refused => rfl
  | opened path req _ asks =>
    rw [asks] at away
    exact Function.update_of_ne (away path (List.mem_singleton_self _)) _ _
  | done =>
    generalize asked address loads r = what at apart away ⊢
    cases what with
    | nothing => rfl
    | upload path req => exact Function.update_of_ne (away path (List.mem_singleton_self _)) _ _
    | delete path => exact if_neg (apart path (List.mem_singleton_self _))
    | create path isDirectory =>
      simp only [Asked.change]
      split
      · rfl
      · simp only [Change.apply]
        split
        · rfl
        · exact Function.update_of_ne (away path (List.mem_singleton_self _)) _ _
    | rename oldPath newPath =>
      simp only [Asked.change, Change.apply]
      rw [if_neg (apart oldPath (by simp [Asked.paths])),
        if_neg (apart newPath (by simp [Asked.paths])), ite_self]

omit bare in
/-- Without a range the whole file is sent. -/
theorem doGET_whole (guessType : Str → Option Str) {get : Request} {b : Bytes}
    (route : dataRoute <+: Python.urlPath get.target)
    (named : (Python.urlPath get.target).drop 9 = path) (below : FilePath path)
    (whole : get.header "Range".toList = none) (content : t.file (place rootDir path) = some b) :
    (doGET rootDir guessType t get).status = 200 ∧
      (doGET rootDir guessType t get).body = some b := by
  -- The routes differ from each other in their first letters.
  have other : ∀ prior : Str, prior.take 7 ≠ dataRoute.take 7 → 7 ≤ prior.length →
      ¬prior <+: Python.urlPath get.target := by
    rintro prior apart long ⟨tail, same⟩
    obtain ⟨rest, same'⟩ := route
    have front := congrArg (List.take 7) (same.trans same'.symm)
    rw [List.take_append_of_le_length long, List.take_append_of_le_length (by decide)] at front
    exact apart front
  have plain : ¬bytesUnit <+: Python.lower (Python.strip ((none : Option Str).getD [])) := by decide
  simp only [doGET, if_neg (other infoRoute (by decide) (by decide)),
    if_neg (other listRoute (by decide) (by decide)), if_pos route, named, handleDataRequest,
    sentDataRequest, stat_file below content, whole, if_neg plain]
  exact ⟨rfl, rfl⟩

end

/-! ### Runs -/

section

variable [∀ (t : Tree Bytes) (q : Path), Decidable (t.Bare q)]

/-- A run of the server is a run of the flat store, with the same requests and answers. -/
theorem run_refines_store (rootDir : Str) (address : Str → Bool) (loads : Bytes → Loaded)
    {t t' : Tree Bytes} {log : List (Incoming × Option ℕ)}
    (run : Run (Serves rootDir address loads) t log t')
    (fine : ∀ entry ∈ log, OnFiles address loads entry.1) :
    Run (FileStep rootDir address loads) t.flat log t'.flat :=
  run.map Tree.flat fun member served => serve_files (fine _ member) served

/-- What an acknowledged `PUT` has stored is what a later `GET` is answered with, whatever other
requests come between, if they name neither the file nor what is above it. -/
theorem upload_served (rootDir : Str) (address : Str → Bool) (loads : Bytes → Loaded)
    (guessType : Str → Option Str) {t t' : Tree Bytes}
    (before after : List (Incoming × Option ℕ)) {put get : Request} {status : Option ℕ} {path : Str}
    (run : Run (Serves rootDir address loads) t (before ++ (.request put, status) :: after) t')
    (method : put.method = .PUT) (asks : asked address loads (.request put) = .upload path put)
    (below : FilePath path) (acknowledged : Acknowledged status)
    (fine : ∀ entry ∈ after, OnFiles address loads entry.1)
    (apart : ∀ entry ∈ after, ∀ other ∈ (asked address loads entry.1).paths,
      ¬place rootDir other <+: place rootDir path)
    (taken : Python.urlRefused address get.target = false)
    (route : dataRoute <+: Python.urlPath get.target)
    (named : (Python.urlPath get.target).drop 9 = path)
    (whole : get.header "Range".toList = none) :
    ∃ resp, answer rootDir address guessType t' get = some resp ∧ resp.status = 200 ∧
      resp.body = some ((readBody put.headers put.body).getD .empty) := by
  obtain ⟨t₁, t₂, _, served, rest⟩ := run.step_at
  have stored : t₂.file (place rootDir path) =
      some ((readBody put.headers put.body).getD .empty) := by
    have on : OnFiles address loads (.request put) := fun other member => by
      rw [asks] at member
      rwa [List.mem_singleton.mp member]
    have step := (serve_files on served).files
    generalize t₁.flat = s at step
    simp only [Tree.flat] at step
    generalize t₂.file = fs at step ⊢
    cases step with
    | refused refused => exact absurd acknowledged refused
    | opened _ _ refused => exact absurd acknowledged refused
    | done =>
      have unranged : ¬put.method = .PATCH := by rw [method]; decide
      rw [asks]
      simp only [Asked.change, Change.apply, Files.set, Function.update_self, uploaded,
        if_neg unranged]
  have kept : t'.file (place rootDir path) =
      some ((readBody put.headers put.body).getD .empty) := by
    refine rest.keeps (P := fun t => t.file (place rootDir path) =
      some ((readBody put.headers put.body).getD .empty)) stored fun member before served => ?_
    rw [← before]
    exact (serve_files (fine _ member) served).elsewhere (apart _ member)
  exact ⟨_, if_neg (by simp [taken]), doGET_whole guessType route named below whole kept⟩

end

/-- Requests for storing a byte in a file, for the file and for deleting another one. -/
def putRequest : Request :=
  ⟨.PUT, apiData ++ ['/', 'f'], [("Content-Length".toList, ['1'])], .ofFn 1 fun _ => 7⟩

def getRequest : Request := ⟨.GET, apiData ++ ['/', 'f'], [], .empty⟩

def deleteRequest : Request := ⟨.DELETE, deleteRoute ++ ['g'], [], .empty⟩

/-- Every host in brackets counts as an address. -/
def takesAll (_ : Str) : Bool := true

theorem asked_putRequest :
    asked takesAll loadsRenaming (.request putRequest) = .upload ['/', 'f'] putRequest := by
  have route : dataRoute <+: Python.urlPath putRequest.target := by decide +kernel
  have path : (Python.urlPath putRequest.target).drop 9 = ['/', 'f'] := by decide +kernel
  have taken : ¬Python.urlRefused takesAll putRequest.target = true := by decide +kernel
  have method : putRequest.method = .PUT := rfl
  simp only [asked, if_neg taken, method, if_pos route, path]

theorem asked_deleteRequest :
    asked takesAll loadsRenaming (.request deleteRequest) = .delete ['/', 'g'] := by
  have route : deleteRoute <+: Python.urlPath deleteRequest.target := by decide +kernel
  have path : (Python.urlPath deleteRequest.target).drop 11 = ['/', 'g'] := by decide +kernel
  have taken : ¬Python.urlRefused takesAll deleteRequest.target = true := by decide +kernel
  have method : deleteRequest.method = .DELETE := rfl
  simp only [asked, if_neg taken, method, if_pos route, path]

theorem filePath_slash {l : Char} (plain : l ≠ '.' ∧ l ≠ '/') : FilePath ['/', l] :=
  ⟨['/'], [l], rfl, .inr ⟨[], rfl⟩, by simp [PlainName, plain, Ne.symm plain.2], by decide⟩

section

noncomputable local instance bareDecidable (t : Tree Bytes) (q : Path) : Decidable (t.Bare q) :=
  Classical.propDecidable _

theorem serves_request {rootDir : Str} {t : Tree Bytes} {req : Request} {code : ℕ}
    (taken : Python.urlRefused takesAll req.target = false)
    (answered : (handle rootDir t req).2 = code) :
    Serves rootDir takesAll loadsRenaming t (.request req) (some code)
      (handle rootDir t req).1 := by
  subst answered
  exact if_neg (by simp [taken])

/-- One request after the other. -/
theorem run_sample : Run (Serves ['/'] takesAll loadsRenaming) .empty
    [(.request putRequest, some 201), (.request deleteRequest, some 404)]
    (handle ['/'] (handle ['/'] .empty putRequest).1 deleteRequest).1 := by
  have first : (handle ['/'] .empty putRequest).2 = 201 := by decide +kernel
  have second : (handle ['/'] (handle ['/'] .empty putRequest).1 deleteRequest).2 = 404 := by
    decide +kernel
  have start : Run (Serves ['/'] takesAll loadsRenaming) .empty [(.request putRequest, some 201)]
      (handle ['/'] .empty putRequest).1 :=
    .next (.refl _) (serves_request (by decide +kernel) first)
  exact .next start (serves_request (by decide +kernel) second)

theorem run_refines_store_sample : Run (FileStep ['/'] takesAll loadsRenaming) Tree.empty.flat
    [(.request putRequest, some 201), (.request deleteRequest, some 404)]
    (handle ['/'] (handle ['/'] .empty putRequest).1 deleteRequest).1.flat := by
  refine run_refines_store ['/'] takesAll loadsRenaming run_sample fun entry member => ?_
  simp only [List.mem_cons, List.not_mem_nil, or_false] at member
  rcases member with rfl | rfl
  · simp [OnFiles, asked_putRequest, Asked.paths, filePath_slash]
  · simp [OnFiles, asked_deleteRequest, Asked.paths, filePath_slash]

theorem upload_served_sample :
    let t' := (handle ['/'] (handle ['/'] .empty putRequest).1 deleteRequest).1
    ∃ resp, answer ['/'] takesAll (fun _ => none) t' getRequest = some resp ∧ resp.status = 200 ∧
      resp.body = some ((readBody putRequest.headers putRequest.body).getD .empty) := by
  refine upload_served ['/'] takesAll loadsRenaming (fun _ => none) [] _ run_sample rfl
    asked_putRequest (filePath_slash (by decide)) (by decide) ?_ ?_ (by decide +kernel) (by decide)
    (by decide +kernel) rfl
  · intro entry member
    rw [List.mem_singleton.mp member]
    simp [OnFiles, asked_deleteRequest, Asked.paths, filePath_slash]
  · intro entry member
    rw [List.mem_singleton.mp member]
    simp only [asked_deleteRequest, Asked.paths, List.mem_singleton, forall_eq]
    decide +kernel

end

end LocalServer

end RemoteCache
