import RemoteCache.Cache.SequentialRead
import RemoteCache.Server.Download
import RemoteCache.Server.Requests
import RemoteCache.Server.Transfers

/-!
# Reading from the server through the cache

## Main result

`cached_reads_exact`: a client that reads a file of the server through the cache,
and never skips a block, gets the bytes of the file, whatever its prefetch jobs
and the requests of others do in the meantime.

## Proof strategy

Reads and prefetch jobs ask the backend for whole blocks of the one file. As long
as the file stays as it is, a download of a block gives the block, and fails past
the end of the file. So the cache takes its steps as over a backend that has the
file, and its run is one of the machine over such a backend.
-/
namespace RemoteCache

namespace HttpBackend

/-- libcurl refuses an answer that announces a negative length. -/
structure Transfers (resp : Response) (transfer : Transfer) : Prop extends
    Delivers resp transfer where
  refused : ∀ n : ℤ, n < 0 → resp.header "Content-Length".toList = some (Python.str n) →
    transfer.ok = false

/-- `backend_read_range`: what `download` returns, and has put in the buffer. -/
def readRange (transfer : Transfer) (buffer : Bytes) (len : ℕ) : Except ℕ Bytes :=
  let r := download transfer buffer len
  if r.2 < 0 then .error r.2.natAbs else .ok (r.1.slice 0 r.2.toNat)

theorem size_readRange {transfer : Transfer} {buffer got : Bytes} {len : ℕ}
    (returned : readRange transfer buffer len = .ok got) : got.size ≤ len := by
  rw [readRange, download_eq] at returned
  by_cases success : (transfer.ok && ok2xx transfer.code) = true
  · simp only [if_pos success, if_neg (Int.not_lt.mpr (Int.natCast_nonneg _)), Int.toNat_natCast,
      Except.ok.injEq] at returned
    rw [← returned, Blob.size_slice]
    omega
  · simp only [if_neg success, if_pos (show (-1 : ℤ) < 0 by decide), reduceCtorEq] at returned

section

variable (rootDir : Str) (guessType : Str → Option Str) (curl : Str → Str) (b : HttpBackend)
  (t : Tree Bytes)

/-- Each call of the backend is a download from the server as it is. -/
def Over (backend : Backend) : Prop :=
  ∀ path len off, ∃ transfer buffer, Transfers (LocalServer.doGET rootDir guessType t
      (b.downloadRequest curl path len off)) transfer ∧
    backend.readRange path len off = readRange transfer buffer len

end

variable {rootDir : Str} {guessType : Str → Option Str} {curl : Str → Str} {b : HttpBackend}
  {t : Tree Bytes} {path : Str} {C : Bytes} {off len : ℕ} {transfer : Transfer} {buffer : Bytes}

/-- Past its end the server announces a negative length. -/
theorem download_past (url : UrlPath path) (carried : curl (b.baseUrl ++ path) = apiData ++ path)
    (content : t.file (LocalServer.place rootDir path) = some C) (past : C.size < off)
    (positive : 1 ≤ len)
    (taken : Transfers (LocalServer.doGET rootDir guessType t
      (b.downloadRequest curl path len off)) transfer) : transfer.ok = false := by
  obtain ⟨contentType, answer⟩ := doGET_range url carried content positive
  rw [answer] at taken
  refine taken.refused (LocalServer.contentLength C off
    (some (((off + len + 2 ^ 64 - 1) % 2 ^ 64 : ℕ) : ℤ))) ?_ ?_
  · rw [LocalServer.contentLength]
    omega
  · have other : Python.lower "Content-Range".toList ≠ Python.lower "Content-Length".toList := by
      decide
    simp only [LocalServer.sendRange]
    rw [Response.header_cons, if_neg other, Response.header_cons]
    exact if_pos rfl

/-- A download gives the range of the file, and nothing past its end. -/
theorem received_readRange (url : UrlPath path)
    (carried : curl (b.baseUrl ++ path) = apiData ++ path)
    (content : t.file (LocalServer.place rootDir path) = some C) (positive : 1 ≤ len)
    (fits : C.size + len ≤ 2 ^ 64)
    (taken : Transfers (LocalServer.doGET rootDir guessType t
      (b.downloadRequest curl path len off)) transfer) :
    received (readRange transfer buffer len) = received (.ok (C.slice off len)) := by
  by_cases inside : off ≤ C.size
  · have result := download_content url carried content inside positive (by omega)
      taken.toDelivers buffer
    have shown := Blob.slice_written buffer (C.slice off len)
    rw [Blob.size_slice] at shown
    rw [readRange, result]
    simp only [Int.toNat_natCast, shown]
    rw [if_neg (by omega)]
  · have failed := download_past url carried content (by omega) positive taken
    have result : (download transfer buffer len).2 = -1 := by
      rw [download_eq, failed]
      rfl
    have nothing : (C.slice off len).size = 0 := by
      rw [Blob.size_slice]
      omega
    rw [readRange, result, if_pos (by decide), received, received, if_neg (by omega)]

/-- The transfer that hands the body over in one piece, unless the length is negative. -/
def delivered (resp : Response) : Transfer :=
  ⟨!(resp.header "Content-Length".toList).any (·.head? = some '-'), resp.status, resp.body.toList⟩

theorem transfers_delivered (resp : Response) : Transfers resp (delivered resp) where
  code := rfl
  body got body announced _ := by
    have digit : (Python.str got.size).head? ≠ some '-' := fun dash => by
      have member := List.mem_of_mem_head? dash
      rw [Python.str, if_neg (by omega)] at member
      exact absurd (Python.digit_of_mem member) (by decide)
    refine ⟨by rw [delivered, announced]; simp [digit], ?_⟩
    rw [delivered, body]
    exact Blob.concat_singleton got
  refused n negative announced := by
    have dash : (Python.str n).head? = some '-' := by rw [Python.str, if_pos negative]; rfl
    rw [delivered, announced]
    simp [dash]

/-- A backend whose downloads from the server go through. -/
def bundled (rootDir : Str) (guessType : Str → Option Str) (curl : Str → Str) (b : HttpBackend)
    (t : Tree Bytes) : Backend where
  readRange path len off :=
    readRange (delivered (LocalServer.doGET rootDir guessType t
      (b.downloadRequest curl path len off))) .empty len
  fits _ _ _ _ := size_readRange

theorem over_bundled (rootDir : Str) (guessType : Str → Option Str) (curl : Str → Str)
    (b : HttpBackend) (t : Tree Bytes) :
    Over rootDir guessType curl b t (bundled rootDir guessType curl b t) :=
  fun _ _ _ => ⟨_, .empty, transfers_delivered _, rfl⟩

end HttpBackend

/-! ### The cache over a backend that has the file -/

/-- The backend for blocks of the path, and a fixed content for all else. -/
def Backend.within (backend : Backend) (path : Str) (C : Bytes) : Backend where
  readRange p len off :=
    if p = path ∧ len = kBlockSize then backend.readRange p len off else .ok (C.slice off len)
  fits p len off got returned := by
    split at returned
    · exact backend.fits p len off got returned
    · cases returned
      simp

namespace Label

def backend? : Label → Option Backend
  | read env _ _ _ => some env.backend
  | demand env => some env.backend
  | job _ backend => some backend
  | _ => none

def within (path : Str) (C : Bytes) : Label → Label
  | demand env => demand { env with backend := env.backend.within path C }
  | job j backend => job j (backend.within path C)
  | l => l

/-- Demand reads within one file, in steps, and steps of prefetch jobs. -/
def OfFile (path : Str) (C : Bytes) : Label → Prop
  | read _ _ _ _ => False
  | write _ _ _ => False
  | call p len off => p = path ∧ off + len ≤ C.size
  | _ => True

end Label

namespace Machine

variable {cfg : Config} {path : Str} {C : Bytes} {s : Machine}

/-- The cache asks for blocks of the path alone. -/
theorem step_within (reading : ∀ r, s.reader = some r → r.path = path)
    (flying : ∀ f ∈ s.flights, f.job.ce.path = path) (l : Label) :
    s.step cfg (l.within path C) = s.step cfg l := by
  cases l with
  | read env p len off => rfl
  | write p data off => rfl
  | call p len off => rfl
  | start i => rfl
  | demand env =>
    cases found : s.reader with
    | none => simp only [Label.within, step, found, Option.map_none]
    | some r =>
      have same : fetch cfg (env.backend.within path C) s.mgr.files r.path =
          fetch cfg env.backend s.mgr.files r.path := by
        funext blk
        simp only [fetch, Backend.within, reading r found, and_self, if_true]
      simp only [Label.within, step, found, Option.map_some, demandStep, same]
  | job j backend =>
    cases found : s.flights[j]? with
    | none => simp only [Label.within, step, found, Option.map_none]
    | some f =>
      have file := flying f (List.mem_of_getElem? found)
      have same : jobStep cfg (backend.within path C) s.mgr f = jobStep cfg backend s.mgr f := by
        simp only [jobStep, Backend.within, file, and_self, if_true]
      simp only [Label.within, step, found, Option.map_some, same]

/-- The record of a run over the backends that have the file. -/
def within (path : Str) (C : Bytes) (history : List (Label × Reply)) : List (Label × Reply) :=
  history.map fun entry => (entry.1.within path C, entry.2)

theorem demanded_within (history : List (Label × Reply)) :
    demanded (within path C history) = demanded history := by
  rw [demanded, within, List.foldl_map, demanded]
  congr
  funext most entry
  obtain ⟨l, o⟩ := entry
  cases l <;> rfl

theorem NoSkip.front {first second : List (Label × Reply)} (dense : NoSkip (first ++ second)) :
    NoSkip first := fun before p len off o after split =>
  dense before p len off o (after ++ second) (by simp [split])

theorem NoSkip.within {history : List (Label × Reply)} (dense : NoSkip history) :
    NoSkip (within path C history) := by
  intro before p len off o after split positive
  obtain ⟨front, back, rfl, rfl, tail⟩ := List.map_eq_append_iff.mp split
  obtain ⟨⟨l, o'⟩, rest, rfl, same, _⟩ := List.map_eq_cons_iff.mp tail
  have called : l = .call p len off := by
    cases l <;> simp_all [Label.within]
  change _ ≤ demanded (Machine.within path C front)
  rw [demanded_within]
  exact dense front p len off o' rest (by rw [called]) positive

end Machine

/-! ### The cache and the server -/

structure Deployment where
  cache : Machine
  server : Tree Bytes

namespace Deployment

open HttpBackend LocalServer

/-- What happens in the cache, and the requests that others send to the server. -/
inductive Event where
  | cache (l : Label)
  | request (r : Incoming)

inductive Outcome where
  | cache (o : Reply)
  | server (status : Option ℕ)

/-- What has happened in the cache. -/
def cacheHistory (log : List (Event × Outcome)) : List (Label × Reply) :=
  log.filterMap fun entry =>
    match entry with
    | (.cache l, .cache o) => some (l, o)
    | _ => none

section

variable (cfg : Config) (rootDir : Str) (address : Str → Bool) (loads : Bytes → Loaded)
  (guessType : Str → Option Str)
  (curl : Str → Str) (b : HttpBackend) [∀ (t : Tree Bytes) (q : Path), Decidable (t.Bare q)]

inductive Steps (d : Deployment) : Event → Outcome → Deployment → Prop where
  | cache (l : Label) (o : Reply) (m : Machine) :
      (∀ backend, l.backend? = some backend → Over rootDir guessType curl b d.server backend) →
      Machine.Steps cfg d.cache l o m → Steps d (.cache l) (.cache o) { d with cache := m }
  | request (r : Incoming) (status : Option ℕ) (t : Tree Bytes) :
      Serves rootDir address loads d.server r status t →
      Steps d (.request r) (.server status) { d with server := t }

end

/-- The request is about files, and neither about this one nor about what is above it. -/
def Elsewhere (rootDir : Str) (address : Str → Bool) (loads : Bytes → Loaded) (path : Str)
    (r : Incoming) : Prop :=
  OnFiles address loads r ∧
    ∀ other ∈ (asked address loads r).paths, ¬place rootDir other <+: place rootDir path

theorem cacheHistory_append (first second : List (Event × Outcome)) :
    cacheHistory (first ++ second) = cacheHistory first ++ cacheHistory second :=
  List.filterMap_append

variable {cfg : Config} {rootDir : Str} {loads : Bytes → Loaded} {guessType : Str → Option Str}
  {curl : Str → Str} {b : HttpBackend} {path : Str} {C : Bytes} {t : Tree Bytes}

/-- Within blocks of the path, the backend has the file of the server. -/
theorem serves_within (url : UrlPath path) (carried : curl (b.baseUrl ++ path) = apiData ++ path)
    (content : t.file (place rootDir path) = some C) (small : C.size < 2 ^ 63)
    {backend : Backend} (served : Over rootDir guessType curl b t backend) :
    (backend.within path C).Serves fun _ => C := by
  intro p len off
  simp only [Backend.within]
  split
  next block =>
    obtain ⟨rfl, rfl⟩ := block
    obtain ⟨transfer, buffer, taken, result⟩ := served p kBlockSize off
    rw [result]
    refine received_readRange url carried content (by decide) ?_ taken
    simp only [kBlockSize]
    omega
  · rfl

/-- The cache has run as over a backend that has the file, and the file is still there. -/
structure Undisturbed (cfg : Config) (rootDir path : Str) (C : Bytes) (files : Files)
    (log : List (Event × Outcome)) (d : Deployment) : Prop where
  ran : Run (Machine.Steps cfg) (.new files) (Machine.within path C (cacheHistory log)) d.cache
  reads : ∀ entry ∈ Machine.within path C (cacheHistory log),
    Machine.ReadsFile (fun _ => C) path entry.1
  content : d.server.file (place rootDir path) = some C

theorem Undisturbed.cache {files : Files} (empty : ∀ d k, files (cfg.dataPart d k) = none)
    {log : List (Event × Outcome)} {d : Deployment}
    (before : Undisturbed cfg rootDir path C files log d) (url : UrlPath path)
    (carried : curl (b.baseUrl ++ path) = apiData ++ path) (small : C.size < 2 ^ 63)
    (dense : Machine.NoSkip (cacheHistory log)) {l : Label} {o : Reply} {m : Machine}
    (served : ∀ backend, l.backend? = some backend → Over rootDir guessType curl b d.server backend)
    (taken : Machine.Steps cfg d.cache l o m) (file : l.OfFile path C) :
    Undisturbed cfg rootDir path C files (log ++ [(.cache l, .cache o)]) { d with cache := m } := by
  have split : Machine.within path C (cacheHistory (log ++ [(.cache l, .cache o)])) =
      Machine.within path C (cacheHistory log) ++ [(l.within path C, o)] := by
    rw [cacheHistory_append, Machine.within, List.map_append]
    rfl
  obtain ⟨_, seq⟩ := (Machine.run_sequential empty before.ran before.reads dense.within).1
  have same : d.cache.step cfg (l.within path C) = d.cache.step cfg l := by
    refine Machine.step_within (fun r found => (seq.each.reading r found).1) (fun f member => ?_) l
    obtain ⟨p, named, live⟩ := seq.each.flying f member
    exact live.1.trans named
  refine ⟨?_, ?_, before.content⟩
  · rw [split]
    exact .next before.ran (same.trans taken)
  · rw [split]
    refine List.forall_mem_append.mpr ⟨before.reads, List.forall_mem_singleton.mpr ?_⟩
    cases l with
    | read env p len off => exact file
    | write p data off => exact file
    | call p len off => exact file
    | start i => trivial
    | demand env => exact serves_within url carried before.content small (served _ rfl)
    | job j backend => exact serves_within url carried before.content small (served _ rfl)

section

variable [∀ (t : Tree Bytes) (q : Path), Decidable (t.Bare q)]

theorem run_undisturbed {files : Files} (empty : ∀ d k, files (cfg.dataPart d k) = none)
    {log : List (Event × Outcome)} {d : Deployment}
    (run : Run (Steps cfg rootDir address loads guessType curl b) ⟨.new files, t⟩ log d)
    (url : UrlPath path) (carried : curl (b.baseUrl ++ path) = apiData ++ path)
    (content : t.file (place rootDir path) = some C) (small : C.size < 2 ^ 63)
    (client : ∀ entry ∈ cacheHistory log, entry.1.OfFile path C)
    (dense : Machine.NoSkip (cacheHistory log))
    (others : ∀ entry ∈ log, ∀ r, entry.1 = .request r → Elsewhere rootDir address loads path r) :
    Undisturbed cfg rootDir path C files log d := by
  induction run with
  | refl => exact ⟨.refl _, by simp [Machine.within, cacheHistory], content⟩
  | @next d d' log e o before taken ih =>
    rw [cacheHistory_append] at client dense
    have earlier := ih (fun entry member => client entry (List.mem_append_left _ member))
      (dense.front) fun entry member => others entry (List.mem_append_left _ member)
    cases taken with
    | cache l o m served taken =>
      exact earlier.cache empty url carried small dense.front served taken
        (client (l, o) (List.mem_append_right _ (List.mem_singleton_self _)))
    | request r status t' served =>
      obtain ⟨fine, apart⟩ := others _ (List.mem_append_right _ (List.mem_singleton_self _)) r rfl
      have same : cacheHistory (log ++ [(.request r, .server status)]) = cacheHistory log := by
        rw [cacheHistory_append]
        exact List.append_nil _
      refine ⟨by rw [same]; exact earlier.ran, by rw [same]; exact earlier.reads, ?_⟩
      rw [← earlier.content]
      exact (serve_files fine served).elsewhere apart

/-- Under any interleaving of a client's reads, of its prefetch jobs and of requests of others to
the server, every read of a client that never skips a block returns exactly the range of the
server's file that it asked for. -/
theorem cached_reads_exact (cfg : Config) (rootDir : Str) (address : Str → Bool)
    (loads : Bytes → Loaded) (guessType : Str → Option Str) (curl : Str → Str) (b : HttpBackend)
    (files : Files)
    (empty : ∀ d k, files (cfg.dataPart d k) = none) (t : Tree Bytes)
    (log : List (Event × Outcome)) (d : Deployment)
    (run : Run (Steps cfg rootDir address loads guessType curl b) ⟨.new files, t⟩ log d)
    (path : Str) (url : UrlPath path) (carried : curl (b.baseUrl ++ path) = apiData ++ path)
    (C : Bytes) (content : t.file (place rootDir path) = some C) (small : C.size < 2 ^ 63)
    (client : ∀ entry ∈ cacheHistory log, entry.1.OfFile path C)
    (dense : Machine.NoSkip (cacheHistory log))
    (others : ∀ entry ∈ log, ∀ r, entry.1 = .request r → Elsewhere rootDir address loads path r) :
    ∀ l p (len off : ℕ) (r : ReadResult), (l, .returned p len off r) ∈ cacheHistory log →
      r.count = len ∧ r.buf = C.slice off len := by
  intro l p len off r member
  have after := run_undisturbed empty run url carried content small client dense others
  have exact := (Machine.run_sequential empty after.ran after.reads dense.within).2
  exact exact (l.within path C, _) (List.mem_map.mpr ⟨_, member, rfl⟩) p len off r rfl

end

/-- Five bytes at the server. -/
def served : Bytes := .ofFn 5 fun i => .ofNat i

def servedTree : Tree Bytes := single served

def servedEnv : Env :=
  ⟨bundled ['/'] (fun _ => none) afterHost .sample servedTree, fun _ _ => 0⟩

/-- A read of three bytes, in steps. -/
def servedLabels : List Label := .call ['/', 'f'] 3 1 :: List.replicate 4 (.demand servedEnv)

/-- The cache alone, while nothing is asked of the server. -/
theorem run_cache {m m' : Machine} {history : List (Label × Reply)}
    [∀ (t : Tree Bytes) (q : Path), Decidable (t.Bare q)]
    (run : Run (Machine.Steps cfg) m history m')
    (served : ∀ entry ∈ history, ∀ backend, entry.1.backend? = some backend →
      Over rootDir guessType curl b t backend) :
    Run (Steps cfg rootDir address loads guessType curl b) ⟨m, t⟩
      (history.map fun entry => (.cache entry.1, .cache entry.2)) ⟨m', t⟩ := by
  induction run with
  | refl => exact .refl _
  | @next m m' history l o before taken ih =>
    rw [List.map_append]
    exact .next (ih fun entry member => served entry (List.mem_append_left _ member))
      (.cache l o m' (served (l, o) (List.mem_append_right _ (List.mem_singleton_self _))) taken)

theorem cacheHistory_run (history : List (Label × Reply)) (r : Incoming) (status : Option ℕ) :
    cacheHistory (history.map (fun entry => (.cache entry.1, .cache entry.2)) ++
      [(.request r, .server status)]) = history := by
  rw [cacheHistory_append, cacheHistory, List.filterMap_map]
  simp [cacheHistory]

/-- Another client asks the server to delete another file in the end. -/
theorem cached_reads_exact_other : ∃ (m : Machine) (history : List (Label × Reply)),
    exec (Machine.step .sample) (.new fun _ => none) servedLabels = some (m, history) ∧
      ∀ l p (len off : ℕ) (r : ReadResult), (l, .returned p len off r) ∈
        cacheHistory (history.map (fun entry => (.cache entry.1, .cache entry.2)) ++
          [(.request (.request deleteRequest), .server (some 404))]) →
        r.count = len ∧ r.buf = served.slice off len := by
  have : ∀ (t : Tree Bytes) (q : Path), Decidable (t.Bare q) :=
    fun _ _ => Classical.propDecidable _
  have ends : (exec (Machine.step .sample) (.new fun _ => none) servedLabels).isSome = true := by
    decide +kernel
  obtain ⟨⟨m, history⟩, done⟩ := Option.isSome_iff_exists.mp ends
  have labels := Run.exec_events done
  have label : ∀ entry ∈ history, entry.1 = .call ['/', 'f'] 3 1 ∨ entry.1 = .demand servedEnv := by
    intro entry member
    have listed : entry.1 ∈ servedLabels := labels ▸ List.mem_map_of_mem member
    simpa [servedLabels] using listed
  have ran : Run (Steps .sample ['/'] takesAll loadsRenaming (fun _ => none) afterHost .sample)
      ⟨.new fun _ => none, servedTree⟩ (history.map fun entry => (.cache entry.1, .cache entry.2))
      ⟨m, servedTree⟩ := by
    refine run_cache (Run.of_exec done) fun entry member backend named => ?_
    rcases label entry member with same | same
    · rw [same] at named
      cases named
    · rw [same] at named
      exact Option.some.inj named ▸ over_bundled ['/'] (fun _ => none) afterHost .sample servedTree
  have refused : (handle ['/'] servedTree deleteRequest).2 = 404 := by decide +kernel
  have answered : Serves ['/'] takesAll loadsRenaming servedTree (.request deleteRequest) (some 404)
      (handle ['/'] servedTree deleteRequest).1 := serves_request (by decide +kernel) refused
  refine ⟨m, history, done, cached_reads_exact .sample ['/'] takesAll loadsRenaming
    (fun _ => none) afterHost .sample (fun _ => none) (fun _ _ => rfl) servedTree _ _
    (.next ran (.request _ _ _ answered))
    ['/', 'f'] urlPath_sample (afterHost_carries _) served ?_ (by decide) ?_ ?_ ?_⟩
  · have place : place ['/'] ['/', 'f'] = [['f']] := by decide +kernel
    rw [place]
    simp [servedTree, single, Tree.file, Tree.put]
  · rw [cacheHistory_run]
    intro entry member
    rcases label entry member with same | same <;> rw [same]
    · exact ⟨rfl, by decide⟩
    · trivial
  · rw [cacheHistory_run]
    rintro before p len off o after rfl _
    -- The only call is for an offset in the first block.
    rcases label (.call p len off, o) (by simp) with same | same <;> cases same
    exact Nat.zero_le _
  · intro entry member r same
    rcases List.mem_append.mp member with cached | last
    · obtain ⟨_, _, rfl⟩ := List.mem_map.mp cached
      cases same
    · rw [List.mem_singleton.mp last] at same
      cases same
      refine ⟨by simp [OnFiles, asked_deleteRequest, Asked.paths, filePath_slash], ?_⟩
      simp only [asked_deleteRequest, Asked.paths, List.mem_singleton, forall_eq]
      decide +kernel

end Deployment

end RemoteCache
