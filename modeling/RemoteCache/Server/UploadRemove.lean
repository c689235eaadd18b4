import RemoteCache.Server.UrlPaths

/-!
# Uploads and removes on the bundled server

## Main result

`uploads_and_removes_iff`: a sequence of uploads and removes acts on the files
of the server as positioned writes and deletions exactly if every upload that
goes through covers the old content from the start, or changes nothing where
urlparse leads it elsewhere, and no file is removed.

## Proof strategy

An upload is a `PUT`, for which the server replaces the whole file and ignores
the range; a remove is a `DELETE` under `/api/data/`, where the server has
nothing to delete. One lemma says what each request does.
-/
namespace RemoteCache

namespace LocalServer

variable (rootDir : Str)

/-- The parent directory is there already, or there is a file in its place, or it is to be made. -/
theorem ensureParent_cases (t : Tree Bytes) {path : Str} (below : FilePath path) :
    let parent := (place rootDir path).dropLast
    let made := ensureParent t (fullPath rootDir path)
    (t.node parent = some .dir ∧ made = some t) ∨
      ((t.file parent).isSome ∧ (made = some t ∨ made = none)) ∨
      (t.node parent = none ∧ made = t.makedirs [] parent) := by
  simp only [ensureParent, stat, parent_place below]
  cases there : t.node (place rootDir path).dropLast with
  | none => exact .inr (.inr ⟨rfl, rfl⟩)
  | some n =>
    cases n with
    | dir => exact .inl ⟨rfl, rfl⟩
    | file b =>
      have file : t.file (place rootDir path).dropLast = some b := by rw [Tree.file, there]
      refine .inr (.inl ⟨by rw [file]; rfl, ?_⟩)
      by_cases named : namesFile (Python.dirname (fullPath rootDir path)) = true
      · exact .inl (by simp [named])
      · -- A path that ends in a dot leads to the file, but is not there.
        have refused : t.makedirs [] (place rootDir path).dropLast = none := by
          rw [← Option.not_isSome_iff_eq_none, Tree.makedirs_isSome t.top]
          intro free
          have clear := free _ (List.prefix_refl _)
          rw [List.nil_append, file] at clear
          cases clear
        exact .inr (by simp [named, refused])

/-- Making sure of a directory changes no file. -/
theorem file_ensureParent {t mid : Tree Bytes} {full : Str}
    (made : ensureParent t full = some mid) :
    mid.file = t.file := by
  rw [ensureParent] at made
  split at made
  · cases made
    rfl
  · exact Tree.file_makedirs made

theorem create_place {rootDir path : Str} {t : Tree Bytes} (below : FilePath path) (b : Bytes) :
    create t (fullPath rootDir path) b = t.put? (place rootDir path) (.file b) := by
  obtain ⟨_, _, _, _, named⟩ := place_split rootDir below
  rw [create, if_pos named, place]

/-- The server makes the parent directory first, as `create` of a tree does, and keeps it if `open`
fails. -/
theorem upload_created (t : Tree Bytes) {path : Str} (below : FilePath path) (b : Bytes) :
    let full := fullPath rootDir path
    (t.Blocked (place rootDir path) ∧ (ensureParent t full = none ∨
        ∃ mid, ensureParent t full = some mid ∧ create mid full b = none)) ∨
      (¬t.Blocked (place rootDir path) ∧ ∃ mid t', ensureParent t full = some mid ∧
        create mid full b = some t' ∧
        t'.file = Function.update t.file (place rootDir path) (some b)) := by
  have inside : place rootDir path ≠ [] := place_ne_nil below
  have spec := t.create_spec inside b
  simp only [Tree.create] at spec
  simp only [create_place below]
  rcases ensureParent_cases rootDir t below with
    ⟨dir, made⟩ | ⟨file, made⟩ | ⟨absent, made⟩
  · rw [dir, Option.isSome_some, if_pos rfl, Option.bind_some] at spec
    rcases spec with ⟨blocked, refused⟩ | ⟨free, t', done, file⟩
    · exact .inl ⟨blocked, .inr ⟨t, made, refused⟩⟩
    · exact .inr ⟨free, t, t', made, done, file⟩
  · have parent : t.node (place rootDir path).dropLast ≠ some .dir := fun dir => by
      simp [Tree.file, dir] at file
    have refused : t.put? (place rootDir path) (.file b) = none :=
      Option.not_isSome_iff_eq_none.mp fun some => parent (Tree.put?_isSome.mp some).2.1
    refine .inl ⟨.inl ⟨_, List.prefix_refl _, file⟩, ?_⟩
    exact made.elim (fun made => .inr ⟨t, made, refused⟩) .inl
  · rw [absent, Option.isSome_none, if_neg (by decide), ← made] at spec
    cases found : ensureParent t (fullPath rootDir path) with
    | none =>
      rw [found, Option.bind_none] at spec
      rcases spec with ⟨blocked, _⟩ | ⟨_, t', absurd, _⟩
      · exact .inl ⟨blocked, .inl rfl⟩
      · cases absurd
    | some mid =>
      rw [found, Option.bind_some] at spec
      rcases spec with ⟨blocked, refused⟩ | ⟨free, t', done, file⟩
      · exact .inl ⟨blocked, .inr ⟨mid, rfl, refused⟩⟩
      · exact .inr ⟨free, mid, t', rfl, done, file⟩

/-- A body of the length that is announced is read as it is, if the length fits. -/
theorem readBody_length {req : Request} {n : ℕ}
    (length : req.header "Content-Length".toList = some (Nat.toDigits 10 n)) :
    readBody req.headers req.body = if n < 2 ^ 63 then some (req.body.slice 0 n) else none := by
  rw [Request.header] at length
  simp only [readBody, length, Option.getD_some, Python.int_toDigits]
  by_cases small : n < 2 ^ 63
  · rw [if_pos (by omega), if_pos small, Int.toNat_natCast]
  · rw [if_neg (by omega), if_neg (by omega), if_neg small]

/-- The tree after an upload: as before, with the parent directory, or with the file as well. -/
theorem handleDataUpload_cases (rootDir : Str) (t : Tree Bytes) (path : Str) (req : Request) :
    let full := fullPath rootDir path
    let t' := (handleDataUpload rootDir t path req).1
    t' = t ∨ ∃ mid, ensureParent t full = some mid ∧
      (t' = mid ∨ ∃ b, create mid full b = some t') := by
  simp only [handleDataUpload]
  split
  · exact .inl rfl
  next mid made =>
    refine .inr ⟨mid, made, ?_⟩
    split
    · exact .inl rfl
    · split
      · split
        · exact .inl rfl
        · split
          · exact .inl rfl
          next done => exact .inr ⟨_, done⟩
      · split
        · exact .inl rfl
        next done => exact .inr ⟨_, done⟩

/-- An upload that cannot be opened or read is answered with 500. -/
theorem handleDataUpload_refused (t : Tree Bytes) {path : Str} (req : Request)
    (refused : namesFile (fullPath rootDir path) = false ∨
      readBody req.headers req.body = none) :
    let r := handleDataUpload rootDir t path req
    r.2 = 500 ∧ r.1.file = t.file := by
  simp only [handleDataUpload]
  cases made : ensureParent t (fullPath rootDir path) with
  | none => exact ⟨rfl, rfl⟩
  | some mid =>
    have kept := file_ensureParent made
    cases read : readBody req.headers req.body with
    | none => exact ⟨rfl, kept⟩
    | some data =>
      have unnamed : ¬namesFile (fullPath rootDir path) = true := by simpa [read] using refused
      simp only [create, if_neg unnamed]
      split
      · split <;> exact ⟨rfl, kept⟩
      · exact ⟨rfl, kept⟩

/-- A `PUT` of a file replaces it by the body, unless the file cannot be written. -/
theorem handleDataUpload_put (t : Tree Bytes) {path : Str} (below : FilePath path) (req : Request)
    (put : req.method = .PUT)
    (length : req.header "Content-Length".toList = some (Nat.toDigits 10 req.body.size)) :
    let r := handleDataUpload rootDir t path req
    let refused := t.Blocked (place rootDir path) ∨ 2 ^ 63 ≤ req.body.size
    (refused ∧ r.2 = 500 ∧ r.1.file = t.file) ∨ (¬refused ∧ r.2 = 201 ∧
      r.1.file = Function.update t.file (place rootDir path) (some req.body)) := by
  have read := readBody_length length
  rw [Blob.slice_self] at read
  by_cases small : req.body.size < 2 ^ 63
  · rw [if_pos small] at read
    simp only [handleDataUpload, read, put, reduceCtorEq, if_false, Nat.not_le.mpr small, or_false]
    rcases upload_created rootDir t below req.body with
      ⟨blocked, none | ⟨mid, made, none⟩⟩ | ⟨free, mid, t', made, done, file⟩
    · exact .inl ⟨blocked, by simp only [none], by simp only [none]⟩
    · exact .inl ⟨blocked, by simp only [made, none],
        by simp only [made, none, file_ensureParent made]⟩
    · exact .inr ⟨free, by simp only [made, done, if_pos], by simp only [made, done, file]⟩
  · rw [if_neg small] at read
    exact .inl ⟨.inr (Nat.not_lt.mp small), handleDataUpload_refused rootDir t req (.inr read)⟩

/-- The path at which the server takes an upload. -/
def uploadPath (target : Str) : Option Str :=
  let path := Python.urlPath target
  if dataRoute <+: path then some (path.drop 9) else none

/-- The location from which the server removes all that is there. -/
def removedAt (t : Tree Bytes) (target : Str) : Option Path :=
  let path := Python.urlPath target
  if deleteRoute <+: path then
    let full := fullPath rootDir (path.drop 11)
    match stat t full with
    | some .dir => if forDirectory target then some (resolve [] full) else none
    | some (.file _) => if forDirectory target then none else some (resolve [] full)
    | none => none
  else none

theorem doPUT_cases (t : Tree Bytes) (req : Request) :
    (uploadPath req.target = none ∧ doPUT rootDir t req = (t, 404)) ∨
      ∃ path, uploadPath req.target = some path ∧
        doPUT rootDir t req = handleDataUpload rootDir t path req := by
  simp only [uploadPath, doPUT]
  split
  · exact .inr ⟨_, rfl, rfl⟩
  · exact .inl ⟨rfl, rfl⟩

theorem doDELETE_cases (t : Tree Bytes) (req : Request) :
    (removedAt rootDir t req.target = none ∧
        ∃ code, 400 ≤ code ∧ doDELETE rootDir t req = (t, code)) ∨
      ∃ p, removedAt rootDir t req.target = some p ∧
        doDELETE rootDir t req = (t.rmtree p, if p = [] then 500 else 204) := by
  simp only [removedAt, doDELETE]
  split
  · simp only [handleDeleteRequest, stat]
    cases there : t.node (resolve [] (fullPath rootDir ((Python.urlPath req.target).drop 11))) with
    | none => exact .inl ⟨rfl, 404, by decide, rfl⟩
    | some n =>
      cases n with
      | dir =>
        dsimp only
        split
        · exact .inr ⟨_, rfl, rfl⟩
        · exact .inl ⟨rfl, 400, by decide, rfl⟩
      | file b =>
        have below : resolve [] (fullPath rootDir ((Python.urlPath req.target).drop 11)) ≠ [] :=
          fun top => by
            rw [top, t.top] at there
            cases there
        by_cases named : namesFile (fullPath rootDir ((Python.urlPath req.target).drop 11)) = true
        · simp only [if_pos named]
          split
          · exact .inl ⟨rfl, 400, by decide, rfl⟩
          · exact .inr ⟨_, rfl, by rw [if_neg below]⟩
        · simp only [if_neg named]
          exact .inl ⟨trivial, 404, by decide, rfl⟩
  · exact .inl ⟨rfl, 404, by decide, rfl⟩

end LocalServer

inductive RemoteCall where
  | upload (path : Str) (data : Bytes) (off : ℕ)
  | remove (path : Str)

def RemoteCall.path : RemoteCall → Str
  | .upload path _ _ => path
  | .remove path => path

/-- One call with the trees before and after and what it returned. -/
structure Performed where
  before : Tree Bytes
  call : RemoteCall
  result : ℤ
  after : Tree Bytes

namespace HttpBackend

variable (rootDir : Str) (curl : Str → Str) (b : HttpBackend)

def call (t : Tree Bytes) : RemoteCall → Tree Bytes × ℤ
  | .upload path data off => b.upload (LocalServer.handle rootDir) curl t path data off
  | .remove path => b.remove (LocalServer.handle rootDir) curl t path

/-- The calls of a sequence, one after the other. -/
def perform : Tree Bytes → List RemoteCall → List Performed
  | _, [] => []
  | t, c :: calls =>
    let r := call rootDir curl b t c
    ⟨t, c, r.2, r.1⟩ :: perform r.1 calls

/-- A reported success did the operation on the file, a remove of an existing file succeeds, and
no other file changes. -/
def ActsOnFile (rootDir : Str) (d : Performed) : Prop :=
  let at_ := LocalServer.place rootDir d.call.path
  (∀ q, q ≠ at_ → d.after.file q = d.before.file q) ∧
  match d.call with
  | .upload _ data off =>
    0 ≤ d.result → d.after.file at_ = some (((d.before.file at_).getD .empty).write data off)
  | .remove _ =>
    (0 ≤ d.result → d.after.file at_ = none) ∧ ((d.before.file at_).isSome → 0 ≤ d.result)

/-- An upload is refused, or replaces all there is, or puts elsewhere what was there before and is
not needed. A remove finds no file, unless its target lies among those of deletions. -/
def Covers (rootDir : Str) (curl : Str → Str) (b : HttpBackend) (t : Tree Bytes)
    (c : RemoteCall) : Prop :=
  let at_ := LocalServer.place rootDir c.path
  let target := curl (b.baseUrl ++ c.path)
  match c with
  | .upload _ data off => ∀ path, LocalServer.uploadPath target = some path → FilePath path →
    let p := LocalServer.place rootDir path
    let old := (t.file at_).getD .empty
    (t.Blocked p ∨ 2 ^ 63 ≤ data.size) ∨
      (p = at_ ∧ (off = 0 ∨ data.size = 0) ∧ old.size ≤ data.size) ∨
      (p ≠ at_ ∧ t.file p = some data ∧ t.file at_ = some (old.write data off))
  | .remove _ =>
    match LocalServer.removedAt rootDir t target with
    | none => t.file at_ = none
    | some p => (∀ q, p <+: q → q ≠ at_ → t.file q = none) ∧
      (t.file at_ = none ∨ (p ≠ [] ∧ p <+: at_))

/-- What the server gets for a URL: nothing if libcurl refuses it, or a path from the top with one
slash at its front and without dot segments. -/
structure Direct (target : Str) : Prop where
  origin : target = [] ∨ ∃ rest, target = '/' :: rest ∧ rest.head? ≠ some '/'
  down : ['.', '.'] ∉ (components (Python.urlPath target)).dropLast

/-! ### Requests -/

section

variable {rootDir : Str} {curl : Str → Str} {b : HttpBackend}

/-- Without dot segments an upload arrives at the path of a file, or at one that names no file. -/
theorem Direct.filePath {target path : Str} (direct : Direct target)
    (arrives : LocalServer.uploadPath target = some path)
    (named : LocalServer.namesFile (LocalServer.fullPath rootDir path) = true) :
    FilePath path := by
  simp only [LocalServer.uploadPath] at arrives
  split at arrives
  next route =>
    obtain ⟨rest, whole⟩ := route
    have down := direct.down
    cases arrives
    rw [← whole] at named down ⊢
    have cut : (LocalServer.dataRoute ++ rest).drop 9 = '/' :: rest := rfl
    have split : components (LocalServer.dataRoute ++ rest) =
        [[], ['a', 'p', 'i'], ['d', 'a', 't', 'a']] ++ components rest :=
      components_append apiData rest
    have some : components rest ≠ [] := List.splitOn_ne_nil '/' rest
    rw [split, List.dropLast_append_of_ne_nil some] at down
    rw [cut] at named ⊢
    refine LocalServer.filePath_of_namesFile named ?_
    rw [components_slash, ← List.singleton_append, List.dropLast_append_of_ne_nil some]
    simpa using fun up => down (List.mem_append_right _ up)
  · cases arrives

/-- The path of a file is requested as it stands, and arrives. -/
theorem direct_urlPath {path : Str} (url : UrlPath path) :
    Direct (apiData ++ path) ∧ LocalServer.uploadPath (apiData ++ path) = some path := by
  obtain ⟨rest, slash⟩ := url.slash
  have route : LocalServer.dataRoute <+: apiData ++ path := ⟨rest, by rw [slash]; rfl⟩
  have cut : (apiData ++ path).drop 9 = path := List.drop_left' rfl
  refine ⟨⟨.inr ⟨_, rfl, by simp⟩, ?_⟩, ?_⟩
  · obtain ⟨front, last, same, ends, plain, down⟩ := url.filePath
    have split : components (apiData ++ path) = components apiData ++ components rest := by
      rw [slash]
      exact components_append apiData rest
    have parts := Python.components_ends ends plain.2.2.2
    rw [← same, slash, components_slash] at parts
    have some : components rest ≠ [] := List.splitOn_ne_nil '/' rest
    rw [urlPath_data url, split, List.dropLast_append_of_ne_nil some, List.mem_append, not_or]
    refine ⟨by decide, fun up => down ((List.dropLast_subset _) ?_)⟩
    have inside := congrArg List.dropLast parts
    rw [List.dropLast_concat, List.dropLast_cons_of_ne_nil some] at inside
    rw [← inside]
    exact List.mem_cons_of_mem _ up
  · rw [LocalServer.uploadPath, urlPath_data url, if_pos route, cut]

/-- An upload replaces the file at the path where it arrives, whatever the offset, or is refused. -/
theorem upload_cases (rootDir : Str) {path : Str}
    (direct : Direct (curl (b.baseUrl ++ path))) (t : Tree Bytes) (data : Bytes) (off : ℕ) :
    let r := b.upload (LocalServer.handle rootDir) curl t path data off
    let refused (path : Str) :=
      t.Blocked (LocalServer.place rootDir path) ∨ 2 ^ 63 ≤ data.size
    ((∀ path', LocalServer.uploadPath (curl (b.baseUrl ++ path)) = some path' →
        FilePath path' → refused path') ∧ r.2 = -1 ∧ r.1.file = t.file) ∨
      ∃ path', LocalServer.uploadPath (curl (b.baseUrl ++ path)) = some path' ∧
        FilePath path' ∧ ¬refused path' ∧ r.2 = data.size ∧
        r.1.file = Function.update t.file (LocalServer.place rootDir path') (some data) := by
  have length : (b.uploadRequest curl path data off).header "Content-Length".toList =
      some (Nat.toDigits 10 data.size) := by
    rw [Request.header, uploadRequest, List.find?_cons_of_pos (by simp), Option.map_some]
  have handled : LocalServer.handle rootDir t (b.uploadRequest curl path data off) =
      LocalServer.doPUT rootDir t (b.uploadRequest curl path data off) := rfl
  simp only [upload, handled]
  rcases LocalServer.doPUT_cases rootDir t (b.uploadRequest curl path data off) with
    ⟨astray, result⟩ | ⟨path', arrives, result⟩
  · have astray : LocalServer.uploadPath (curl (b.baseUrl ++ path)) = none := astray
    rw [result, astray]
    exact .inl ⟨nofun, rfl, rfl⟩
  · have arrives : LocalServer.uploadPath (curl (b.baseUrl ++ path)) = some path' := arrives
    rw [result, arrives]
    by_cases named : LocalServer.namesFile (LocalServer.fullPath rootDir path') = true
    · have below := direct.filePath arrives named
      rcases LocalServer.handleDataUpload_put rootDir t below
        (b.uploadRequest curl path data off) rfl length with
        ⟨refused, status, file⟩ | ⟨free, status, file⟩
      · refine .inl ⟨?_, by rw [status]; rfl, file⟩
        rintro _ ⟨⟩ _
        exact refused
      · exact .inr ⟨path', rfl, below, free, by rw [status]; rfl, file⟩
    · obtain ⟨status, file⟩ := LocalServer.handleDataUpload_refused rootDir t
        (b.uploadRequest curl path data off) (.inl (by simpa using named))
      refine .inl ⟨?_, by rw [status]; rfl, file⟩
      rintro _ ⟨⟩ below
      obtain ⟨_, _, _, _, named'⟩ := LocalServer.place_split rootDir below
      exact absurd named' named

/-- An upload to the path of a file replaces the file, unless it is refused. -/
theorem upload_spec (rootDir : Str) {path : Str} (url : UrlPath path)
    (carried : curl (b.baseUrl ++ path) = apiData ++ path) (t : Tree Bytes) (data : Bytes)
    (off : ℕ) :
    let r := b.upload (LocalServer.handle rootDir) curl t path data off
    let at_ := LocalServer.place rootDir path
    let refused := t.Blocked at_ ∨ 2 ^ 63 ≤ data.size
    (refused ∧ r.2 = -1 ∧ r.1.file = t.file) ∨
      (¬refused ∧ r.2 = data.size ∧ r.1.file = Function.update t.file at_ (some data)) := by
  obtain ⟨direct, arrives⟩ := direct_urlPath url
  rw [← carried] at direct arrives
  rcases upload_cases rootDir direct t data off with
    ⟨refused, failed, file⟩ | ⟨path', arrives', _, free, success, file⟩
  · exact .inl ⟨refused path arrives url.filePath, failed, file⟩
  · rw [arrives, Option.some.injEq] at arrives'
    subst arrives'
    exact .inr ⟨free, success, file⟩

/-- A remove takes away what a deletion of its target does. -/
theorem remove_cases (rootDir : Str) (curl : Str → Str) (b : HttpBackend) (path : Str)
    (t : Tree Bytes) :
    let r := b.remove (LocalServer.handle rootDir) curl t path
    let target := curl (b.baseUrl ++ path)
    (LocalServer.removedAt rootDir t target = none ∧ r = (t, -1)) ∨
      ∃ p, LocalServer.removedAt rootDir t target = some p ∧
        r = (t.rmtree p, if p = [] then -1 else 0) := by
  have handled : LocalServer.handle rootDir t (b.removeRequest curl path) =
      LocalServer.doDELETE rootDir t (b.removeRequest curl path) := rfl
  simp only [remove, handled]
  rcases LocalServer.doDELETE_cases rootDir t (b.removeRequest curl path) with
    ⟨none, code, high, result⟩ | ⟨p, some, result⟩
  · have failed : ¬succeeded code = true := by
      simp only [succeeded, Bool.and_eq_true, decide_eq_true_eq]
      omega
    rw [result, if_neg failed]
    exact .inl ⟨none, rfl⟩
  · rw [result]
    refine .inr ⟨p, some, ?_⟩
    by_cases top : p = []
    · rw [if_pos top, if_pos top]
      rfl
    · have success : succeeded 204 = true := by decide
      rw [if_neg top, if_neg top]
      simp only [if_pos success]

/-- One call acts on the file exactly if it is covered. -/
theorem acts_iff_covers {t : Tree Bytes} {c : RemoteCall}
    (direct : Direct (curl (b.baseUrl ++ c.path))) :
    ActsOnFile rootDir ⟨t, c, (call rootDir curl b t c).2, (call rootDir curl b t c).1⟩ ↔
      Covers rootDir curl b t c := by
  cases c with
  | upload path data off =>
    dsimp only [RemoteCall.path] at direct
    rcases upload_cases rootDir direct t data off with
      ⟨refused, failed, file⟩ | ⟨path', arrives, below, free, success, file⟩
    · refine iff_of_true ?_ fun path' arrives below => .inl (refused path' arrives below)
      simp [ActsOnFile, call, RemoteCall.path, file, failed]
    · simp only [ActsOnFile, Covers, call, RemoteCall.path, file, success, arrives,
        Option.some.injEq, forall_eq', below, forall_const, free, false_or, Int.natCast_nonneg]
      by_cases same : LocalServer.place rootDir path' = LocalServer.place rootDir path
      · -- The file is the data alone: a positioned write of it exactly if nothing else remains.
        have kept : ∀ q, q ≠ LocalServer.place rootDir path →
            Function.update t.file (LocalServer.place rootDir path) (some data) q = t.file q :=
          fun q other => Function.update_of_ne other _ _
        rw [same]
        simp only [Function.update_self, Option.some.injEq, ne_eq, not_true_eq_false, false_and,
          or_false, true_and]
        rw [and_iff_right kept, eq_comm, Blob.write_eq_iff]
      · simp only [same, false_and, false_or, ne_eq, not_false_eq_true, true_and]
        rw [Function.update_of_ne (Ne.symm same)]
        refine and_congr_left' ⟨fun kept => ?_, fun there q _ => ?_⟩
        · rw [← kept _ same, Function.update_self]
        · rw [← there, Function.update_eq_self]
  | remove path =>
    simp only [ActsOnFile, Covers, call, RemoteCall.path]
    rcases remove_cases rootDir curl b path t with
      ⟨none, result⟩ | ⟨p, some, result⟩
    · rw [result, none]
      simp
    · rw [result, some]
      simp only [Tree.file_rmtree]
      refine and_congr ⟨fun kept q under other => ?_, fun empty q other => ?_⟩ ?_
      · rw [← kept q other, if_pos under]
      · split
        next under => exact (empty q under other).symm
        · rfl
      · by_cases top : p = []
        · simp [top]
        · by_cases under : p <+: LocalServer.place rootDir path
          · simp [top, under]
          · simp [top, under]

end

/-- Every call of a sequence acts on the server's file as a positioned write or a deletion if and
only if each is covered. libcurl requests a URL below `/api/data` without its dot segments. -/
theorem uploads_and_removes_iff (rootDir : Str) (curl : Str → Str) (b : HttpBackend) (origin : Str)
    (base : b.baseUrl = origin ++ apiData) (t : Tree Bytes) (calls : List RemoteCall)
    (carried : ∀ c ∈ calls, Direct (curl (origin ++ apiData ++ c.path))) :
    (∀ d ∈ perform rootDir curl b t calls, ActsOnFile rootDir d) ↔
      ∀ d ∈ perform rootDir curl b t calls, Covers rootDir curl b d.before d.call := by
  rw [← base] at carried
  induction calls generalizing t with
  | nil => simp [perform]
  | cons c calls ih =>
    simp only [perform, List.forall_mem_cons]
    rw [acts_iff_covers (carried c List.mem_cons_self),
      ih _ fun c member => carried c (List.mem_cons_of_mem _ member)]

theorem direct_sample (path : Str) (url : UrlPath path) :
    Direct (afterHost (host ++ apiData ++ path)) := by
  rw [afterHost_carries]
  exact (direct_urlPath url).1

theorem uploads_and_removes_iff_sample :
    let calls : List RemoteCall := [.upload ['/', 'f'] (.ofFn 2 fun _ => 7) 0, .remove ['/', 'f']]
    (∀ d ∈ perform ['/', 'r'] afterHost sample .empty calls, ActsOnFile ['/', 'r'] d) ↔
      ∀ d ∈ perform ['/', 'r'] afterHost sample .empty calls,
        Covers ['/', 'r'] afterHost sample d.before d.call := by
  refine uploads_and_removes_iff ['/', 'r'] afterHost sample host rfl .empty _ fun c member => ?_
  simp only [List.mem_cons, List.not_mem_nil, or_false] at member
  rcases member with rfl | rfl <;> exact direct_sample _ urlPath_sample

/-- Two chunks of one file, one after the other: the second replaces the first. -/
def twoChunks : List RemoteCall :=
  [.upload ['/', 'f'] (.ofFn 2 fun _ => 7) 0, .upload ['/', 'f'] (.ofFn 1 fun _ => 8) 2]

private theorem second_chunk :
    let first := call ['/', 'r'] afterHost sample .empty (.upload ['/', 'f'] (.ofFn 2 fun _ => 7) 0)
    let second := call ['/', 'r'] afterHost sample first.1
      (.upload ['/', 'f'] (.ofFn 1 fun _ => 8) 2)
    second.2 = 1 ∧
      (second.1.file (LocalServer.place ['/', 'r'] ['/', 'f'])).map Blob.size = some 1 := by
  decide +kernel

/-- Both chunks are reported as uploaded, and the file ends up with the second alone. -/
theorem upload_loses_chunk :
    ¬∀ (t : Tree Bytes) (calls : List RemoteCall), (∀ c ∈ calls, UrlPath c.path) →
      ∀ d ∈ perform ['/', 'r'] afterHost sample t calls, ActsOnFile ['/', 'r'] d := by
  intro all
  have urls : ∀ c ∈ twoChunks, UrlPath c.path := by
    intro c member
    simp only [twoChunks, List.mem_cons, List.not_mem_nil, or_false] at member
    rcases member with rfl | rfl <;> exact urlPath_sample
  have acts := all .empty twoChunks urls ⟨_, _, _, _⟩ (List.mem_cons_of_mem _ List.mem_cons_self)
  have placed := congrArg (Option.map Blob.size) (acts.2 (by rw [second_chunk.1]; decide))
  rw [RemoteCall.path, second_chunk.2, Option.map_some, Blob.size_write] at placed
  simp at placed
  omega

end HttpBackend

end RemoteCache
