import RemoteCache.Lib.Pieces
import RemoteCache.Server.UploadRemove

/-!
# Uploads in pieces

## Main result

`patches_reassemble`: the pieces of a content that are sent as `PATCH` requests,
in any order, leave the content in the file, if the path is one of a file and
nothing stands in the way.

## Proof strategy

A `PATCH` writes its body at the start of its range, into the file that is there
or into a new one. What is done so far agrees with the content; the order of the
pieces plays no role for which positions they cover.
-/
namespace RemoteCache

/-- A request that carries a piece of `D`, with the header `Content-Range: bytes start-end/*`. -/
structure Carries (D : Bytes) (piece : ℕ × ℕ) (req : Request) : Prop where
  method : req.method = .PATCH
  body : req.body = D.slice piece.1 piece.2
  contentLength : req.header "Content-Length".toList = some (Nat.toDigits 10 piece.2)
  contentRange : req.header "Content-Range".toList = some (['b', 'y', 't', 'e', 's'] ++ ' ' ::
    (Nat.toDigits 10 piece.1 ++ '-' :: (Nat.toDigits 10 (piece.1 + piece.2 - 1) ++ ['/', '*'])))

/-- The requests carry the pieces of a cut of `D`, in some order. -/
def Chunked (D : Bytes) (reqs : List Request) : Prop :=
  ∃ sizes order, (∀ size ∈ sizes, 1 ≤ size) ∧ sizes.sum = D.size ∧
    order.Perm (pieces 0 sizes) ∧ List.Forall₂ (Carries D) order reqs

namespace LocalServer

variable (rootDir : Str)

/-- The requests to one path, one after the other. -/
def uploads (path : Str) (t : Tree Bytes) (reqs : List Request) : Tree Bytes :=
  reqs.foldl (fun t req => (handleDataUpload rootDir t path req).1) t

theorem rangeStart_bytes {start : ℕ} {rest : Str} (spaceless : ' ' ∉ rest) :
    rangeStart (['b', 'y', 't', 'e', 's'] ++ ' ' :: (Nat.toDigits 10 start ++ '-' :: rest)) =
      some (start : ℤ) := by
  have unspaced : ' ' ∉ Nat.toDigits 10 start ++ '-' :: rest := by
    rw [List.mem_append, List.mem_cons, not_or, not_or]
    exact ⟨Python.not_mem_toDigits start (by decide), by decide, spaceless⟩
  have undashed : '-' ∉ Nat.toDigits 10 start := Python.not_mem_toDigits start (by decide)
  rw [rangeStart, List.splitOn_append_cons_self, List.splitOn_eq_singleton (by decide),
    List.splitOn_eq_singleton unspaced]
  simp only [List.singleton_append, List.getElem?_cons_succ, List.getElem?_cons_zero,
    Option.bind_some]
  rw [List.splitOn_append_cons_self, List.splitOn_eq_singleton undashed, List.singleton_append,
    List.headD_cons, Python.int_toDigits]

/-- Once there is a directory, a `PATCH` writes its piece into the file that is there or into a new
one. -/
theorem handleDataUpload_made {t mid : Tree Bytes} {path : Str} (below : FilePath path)
    {D : Bytes} {piece : ℕ × ℕ} (small : piece.1 + piece.2 < 2 ^ 63) {req : Request}
    (carries : Carries D piece req)
    (made : ensureParent t (fullPath rootDir path) = some mid) :
    handleDataUpload rootDir t path req =
      (create mid (fullPath rootDir path) (((mid.file (place rootDir path)).getD .empty).write
        (D.slice piece.1 piece.2) piece.1)).elim (mid, 500) (·, 204) := by
  obtain ⟨patch, body, length, range⟩ := carries
  have whole : (D.slice piece.1 piece.2).slice 0 piece.2 = D.slice piece.1 piece.2 := by
    rw [Blob.slice_slice _ _ _ _ _ (by omega), Nat.add_zero]
  have read : readBody req.headers req.body = some (D.slice piece.1 piece.2) := by
    rw [readBody_length length, if_pos (by omega), body, whole]
  have spaceless : ' ' ∉ Nat.toDigits 10 (piece.1 + piece.2 - 1) ++ ['/', '*'] := by
    rw [List.mem_append, not_or]
    exact ⟨Python.not_mem_toDigits _ (by decide), by decide⟩
  -- The start fits into an offset.
  have fits : (0 : ℤ) ≤ piece.1 ∧ (piece.1 : ℤ) < 2 ^ 63 := by omega
  simp only [handleDataUpload, made, read, range, patch, if_pos, Int.toNat_natCast,
    rangeStart_bytes spaceless, fits, and_self, contentAt_place rootDir mid below]
  generalize create mid (fullPath rootDir path) _ = result
  cases result <;> rfl

/-- A `PATCH` writes its piece into the file if nothing stands in the way. -/
theorem handleDataUpload_patch (t : Tree Bytes) {path : Str} (below : FilePath path)
    (free : ¬t.Blocked (place rootDir path)) {D : Bytes} {piece : ℕ × ℕ}
    (small : piece.1 + piece.2 < 2 ^ 63) {req : Request} (carries : Carries D piece req) :
    let at_ := place rootDir path
    (handleDataUpload rootDir t path req).1.file = Function.update t.file at_
      (some (((t.file at_).getD .empty).write (D.slice piece.1 piece.2) piece.1)) := by
  rcases upload_created rootDir t below (((t.file (place rootDir path)).getD .empty).write
    (D.slice piece.1 piece.2) piece.1) with ⟨blocked, _⟩ | ⟨_, mid, t', made, done, file⟩
  · exact absurd blocked free
  · rw [handleDataUpload_made rootDir below small carries made, file_ensureParent made, done]
    exact file

/-! ### Runs -/

/-- How far the requests have come: the pieces that are done are in the file, which is there after
the first of them, and the other files are as before. -/
structure Progress (path : Str) (D : Bytes) (t : Tree Bytes) (done : List (ℕ × ℕ))
    (t' : Tree Bytes) : Prop where
  free : ¬t'.Blocked (place rootDir path)
  content : D.Assembling done ((t'.file (place rootDir path)).getD .empty)
  there : done ≠ [] → (t'.file (place rootDir path)).isSome
  others : ∀ q, q ≠ place rootDir path → t'.file q = t.file q

variable {rootDir : Str} {path : Str} {D : Bytes} {t t' : Tree Bytes} {done : List (ℕ × ℕ)}

theorem Progress.step (progress : Progress rootDir path D t done t') (below : FilePath path)
    (small : D.size < 2 ^ 63) {piece : ℕ × ℕ} (inside : piece.1 + piece.2 ≤ D.size)
    {req : Request} (carries : Carries D piece req) :
    Progress rootDir path D t (piece :: done) (handleDataUpload rootDir t' path req).1 := by
  have file := handleDataUpload_patch rootDir t' below progress.free (by omega) carries
  have here : ((handleDataUpload rootDir t' path req).1.file (place rootDir path)).isSome := by
    rw [file, Function.update_self]
    rfl
  constructor
  · exact Tree.not_blocked_of_file here
  · rw [file, Function.update_self, Option.getD_some]
    exact progress.content.write inside
  · exact fun _ => here
  · intro q other
    rw [file, Function.update_of_ne other]
    exact progress.others q other

theorem Progress.run {order : List (ℕ × ℕ)} {reqs : List Request}
    (sent : List.Forall₂ (Carries D) order reqs) (below : FilePath path)
    (small : D.size < 2 ^ 63) (inside : ∀ piece ∈ order, piece.1 + piece.2 ≤ D.size)
    (progress : Progress rootDir path D t done t') :
    Progress rootDir path D t (order.reverse ++ done) (uploads rootDir path t' reqs) := by
  induction sent generalizing t' done with
  | nil => exact progress
  | cons carries _ ih =>
    rw [List.reverse_cons, List.append_assoc, List.singleton_append]
    exact ih (fun piece later => inside piece (List.mem_cons_of_mem _ later))
      (progress.step below small (inside _ List.mem_cons_self) carries)

/-- A file that is not longer than `n`, or nothing, and then no file above either. -/
def Room (t : Tree Bytes) (p : Path) (n : ℕ) : Prop :=
  (∃ b, t.file p = some b ∧ b.size ≤ n) ∨
    (t.node p = none ∧ ∀ q, q <+: p.dropLast → t.file q = none)

theorem Progress.start (room : Room t (place rootDir path) D.size) :
    Progress rootDir path D t [] t where
  free := by
    rcases room with ⟨b, there, _⟩ | ⟨absent, clear⟩
    · exact Tree.not_blocked_of_file (by rw [there]; rfl)
    · rintro (⟨q, above, file⟩ | dir)
      · rw [clear q above] at file
        cases file
      · rw [absent] at dir
        cases dir
  content := by
    apply Blob.Assembling.start
    rcases room with ⟨b, there, short⟩ | ⟨absent, _⟩
    · rwa [there]
    · simp [Tree.file, absent]
  there none := absurd rfl none
  others _ _ := rfl

/-- The pieces of a content leave the content in the file and all other files as they are, in
whatever order they are sent. No content has `2 ^ 63` bytes. -/
theorem patches_reassemble (rootDir : Str) (t : Tree Bytes) (path : Str) (below : FilePath path)
    (D : Bytes) (nonempty : 1 ≤ D.size) (small : D.size < 2 ^ 63)
    (room : Room t (place rootDir path) D.size) (reqs : List Request) (chunked : Chunked D reqs) :
    let t' := uploads rootDir path t reqs
    t'.file (place rootDir path) = some D ∧
      ∀ q, q ≠ place rootDir path → t'.file q = t.file q := by
  obtain ⟨sizes, order, _, whole, perm, sent⟩ := chunked
  have inside : ∀ piece ∈ order, piece.1 + piece.2 ≤ D.size := fun piece member => by
    have fits := pieces_inside (perm.mem_iff.mp member)
    omega
  have cover : ∀ i < D.size, ∃ piece ∈ order.reverse ++ [], InPiece piece i := fun i small => by
    obtain ⟨piece, member, within⟩ := pieces_cover (Nat.zero_le i) (show i < 0 + sizes.sum by omega)
    exact ⟨piece, by simpa using perm.mem_iff.mpr member, within⟩
  have progress := (Progress.start room).run sent below small inside
  obtain ⟨piece, first, _⟩ := cover 0 nonempty
  obtain ⟨b, there⟩ := Option.isSome_iff_exists.mp (progress.there (List.ne_nil_of_mem first))
  have content := progress.content
  rw [there, Option.getD_some] at content
  exact ⟨by rw [there, content.whole cover], progress.others⟩

/-- The request for a piece. -/
def patchRequest (D : Bytes) (piece : ℕ × ℕ) : Request :=
  ⟨.PATCH, [], [("Content-Length".toList, Nat.toDigits 10 piece.2),
    ("Content-Range".toList, ['b', 'y', 't', 'e', 's'] ++ ' ' :: (Nat.toDigits 10 piece.1 ++
      '-' :: (Nat.toDigits 10 (piece.1 + piece.2 - 1) ++ ['/', '*'])))],
    D.slice piece.1 piece.2⟩

theorem carries_patchRequest (D : Bytes) (piece : ℕ × ℕ) : Carries D piece (patchRequest D piece) :=
  ⟨rfl, rfl, rfl, rfl⟩

theorem patches_reassemble_swapped :
    let D : Bytes := .ofFn 3 fun i => .ofNat i
    let t' := uploads ['/'] ['/', 'f'] .empty [patchRequest D (1, 2), patchRequest D (0, 1)]
    t'.file (place ['/'] ['/', 'f']) = some D ∧
      ∀ q, q ≠ place ['/'] ['/', 'f'] → t'.file q = Tree.empty.file q := by
  intro D
  have at_ : place ['/'] ['/', 'f'] = [['f']] := by decide +kernel
  have room : Room .empty (place ['/'] ['/', 'f']) D.size := by
    rw [at_]
    exact .inr ⟨rfl, fun q above => by simp [List.prefix_nil.mp above, Tree.file, Tree.empty]⟩
  have chunked : Chunked D [patchRequest D (1, 2), patchRequest D (0, 1)] :=
    ⟨[1, 2], [(1, 2), (0, 1)], by decide, rfl, .swap (0, 1) (1, 2) [],
      .cons (carries_patchRequest D (1, 2)) (.cons (carries_patchRequest D (0, 1)) .nil)⟩
  exact patches_reassemble ['/'] .empty ['/', 'f'] HttpBackend.urlPath_sample.filePath D
    (by decide) (by decide) room _ chunked

/-- A path is absent also below a file, where the server cannot make a directory, or if it ends in
a slash, where the server makes a directory of the name and cannot open it. -/
theorem absent_not_writable :
    (¬∀ (rootDir : Str) (t : Tree Bytes) (path : Str) (D : Bytes) (reqs : List Request),
      FilePath path → 1 ≤ D.size → t.node (place rootDir path) = none → Chunked D reqs →
      (uploads rootDir path t reqs).file (place rootDir path) = some D) ∧
    ¬∀ (rootDir : Str) (t : Tree Bytes) (path : Str) (D : Bytes) (reqs : List Request),
      1 ≤ D.size → Room t (place rootDir path) D.size → Chunked D reqs →
      (uploads rootDir path t reqs).file (place rootDir path) = some D := by
  let D : Bytes := .ofFn 1 fun _ => 7
  have chunked : Chunked D [patchRequest D (0, 1)] :=
    ⟨[1], [(0, 1)], by decide, rfl, .refl _, .cons (carries_patchRequest D (0, 1)) .nil⟩
  constructor
  · intro all
    let t : Tree Bytes := Tree.empty.put [['f']] (.file D) (by simp) rfl (by simp [Tree.empty])
    have at_ : place ['/'] ['/', 'f', '/', 'g'] = [['f'], ['g']] := by decide +kernel
    have absent : t.node (place ['/'] ['/', 'f', '/', 'g']) = none := by
      rw [at_]
      rfl
    have below : FilePath ['/', 'f', '/', 'g'] :=
      ⟨['/', 'f', '/'], ['g'], rfl, .inr ⟨['/', 'f'], rfl⟩, by simp [PlainName], by decide⟩
    have done := all ['/'] t ['/', 'f', '/', 'g'] D _ below (by decide) absent chunked
    have none : ((uploads ['/'] ['/', 'f', '/', 'g'] t [patchRequest D (0, 1)]).file
        (place ['/'] ['/', 'f', '/', 'g'])).isSome = false := by decide +kernel
    rw [done] at none
    cases none
  · intro all
    have at_ : place ['/'] ['/', 'f', '/'] = [['f']] := by decide +kernel
    have room : Room .empty (place ['/'] ['/', 'f', '/']) D.size := by
      rw [at_]
      exact .inr ⟨rfl, fun q above => by simp [List.prefix_nil.mp above, Tree.file, Tree.empty]⟩
    have done := all ['/'] .empty ['/', 'f', '/'] D _ (by decide) room chunked
    have none : ((uploads ['/'] ['/', 'f', '/'] .empty [patchRequest D (0, 1)]).file
        (place ['/'] ['/', 'f', '/'])).isSome = false := by decide +kernel
    rw [done] at none
    cases none

end LocalServer

end RemoteCache
