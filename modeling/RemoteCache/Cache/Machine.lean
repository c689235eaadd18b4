import RemoteCache.Cache.System

/-!
# Interleaved demand reads and prefetch jobs

Prefetch jobs take no lock: a worker probes the store, asks the backend and
stores what it got in separate steps, and anything may happen in between. A call
of `read` or `write` holds the manager's mutex; it is taken here either as one
step or, for reads, pass by pass in the same separate steps.
-/
namespace RemoteCache

/-- Where a prefetch job stands in its pass. -/
inductive JobPhase where
  | probe
  | fetch
  | store (got : Bytes)

/-- A prefetch job that a worker has taken from the queue, in its pass `i`. -/
structure Flight where
  job : Job
  i : ℕ
  phase : JobPhase

/-- Where a demand read stands in its pass, with its block buffer. -/
inductive ReadPhase where
  | probe
  | fetch (block : Bytes)
  | store (block got : Bytes)

/-- A demand read under way, which holds the mutex. -/
structure Reader where
  path : Str
  len : ℕ
  off : ℕ
  ce : CacheEntry
  done : ℕ
  buf : Bytes
  phase : ReadPhase

structure Machine where
  mgr : CacheManager
  flights : List Flight
  reader : Option Reader

inductive Label where
  | read (env : Env) (path : Str) (len off : ℕ)
  | write (path : Str) (data : Bytes) (off : ℕ)
  | call (path : Str) (len off : ℕ)
  | demand (env : Env)
  | start (i : ℕ)
  | job (j : ℕ) (backend : Backend)

inductive Reply where
  | silent
  | read (result : ReadResult)
  | wrote (count : ℤ)
  | returned (path : Str) (len off : ℕ) (result : ReadResult)

def Flight.blk (f : Flight) : ℕ := f.job.firstBlk + f.i

/-- The job with its next pass before it, if there is one. -/
def Flight.next (f : Flight) : List Flight :=
  if f.i + 1 < PREFETCH_WINDOW then [⟨f.job, f.i + 1, .probe⟩] else []

/-- The read at the start of its next pass. -/
def Reader.after (r : Reader) (s : CacheManager.ReadState) : Reader :=
  { r with ce := s.ce, done := s.done, buf := s.buf, phase := .probe }

namespace Machine

variable (cfg : Config)

def new (files : Files) : Machine := ⟨.new files, [], none⟩

/-- One step of a prefetch job. -/
def jobStep (backend : Backend) (m : CacheManager) (f : Flight) : CacheManager × List Flight :=
  match f.phase with
  -- `store_.read`, which may find the block by now.
  | .probe =>
    if (probe cfg m.files f.job.ce.hashHex f.blk .empty).2 then (m, f.next)
    else (m, [{ f with phase := .fetch }])
  | .fetch =>
    match received (backend.readRange f.job.ce.path kBlockSize (f.blk * kBlockSize)) with
    | none => (m, f.next)
    | some got => (m, [{ f with phase := .store got }])
  -- The entry is the captured one, so no flag is looked at.
  | .store got =>
    ((m.store cfg f.job.ce.hashHex f.blk got).touch (.task f.job.id) f.blk .quarter, f.next)

/-- The end of a pass of a demand read. -/
def finishPass (m : CacheManager) (r : Reader) (p : Piece) (block : Bytes) :
    CacheManager × Except ReadResult Reader :=
  let s := CacheManager.finish r.path p block ⟨m, r.ce, r.done, r.buf⟩
  -- The loop test comes with the next step.
  (s.mgr, .ok (r.after s))

/-- One step of a demand read, which may return. -/
def demandStep (env : Env) (m : CacheManager) (r : Reader) :
    CacheManager × Except ReadResult Reader :=
  if r.done < r.len then
    let p := pieceAt r.off r.len r.done
    match r.phase with
    | .probe =>
      let (block, cached) := probe cfg m.files r.ce.hashHex p.blk
        (.ofFn kBlockSize (env.stack p.blk))
      if cached then finishPass m r p block else (m, .ok { r with phase := .fetch block })
    | .fetch block =>
      match fetch cfg env.backend m.files r.path p.blk with
      | none => (m, .error ⟨if r.done = 0 then -1 else r.done, r.buf⟩)
      | some got => (m, .ok { r with phase := .store (block.write got 0) got })
    | .store block got => finishPass (m.store cfg r.ce.hashHex p.blk got) r p block
  else (m, .error ⟨r.done, r.buf⟩)

def step (s : Machine) : Label → Option (Machine × Reply)
  | .read env path len off =>
    match s.reader with
    | some _ => none
    | none =>
      let called := s.mgr.read cfg env path len off
      some ({ s with mgr := called.1 }, .read called.2)
  | .write path data off =>
    match s.reader with
    | some _ => none
    | none =>
      let called := s.mgr.write cfg CacheManager.succeed path data off
      some ({ s with mgr := called.1 }, .wrote called.2)
  | .call path len off =>
    match s.reader with
    | some _ => none
    | none =>
      -- The mutex is held until the read returns: no other call is taken meanwhile.
      let (mgr, ce) := s.mgr.entry cfg path
      if ce.evicted then
        some ({ s with mgr }, .returned path len off ⟨-ENOENT, .empty⟩)
      else some ({ s with mgr, reader := some ⟨path, len, off, ce, 0, .empty, .probe⟩ }, .silent)
  | .demand env =>
    s.reader.map fun r =>
      match demandStep cfg env s.mgr r with
      | (mgr, .ok r) => ({ s with mgr, reader := some r }, .silent)
      | (mgr, .error result) =>
        ({ s with mgr, reader := none }, .returned r.path r.len r.off result)
  | .start i =>
    s.mgr.tasks[i]?.map fun job =>
      ({ s with mgr := { s.mgr with tasks := s.mgr.tasks.eraseIdx i },
                flights := s.flights ++ [⟨job, 0, .probe⟩] }, .silent)
  | .job j backend =>
    s.flights[j]?.map fun f =>
      -- The job stays at its place, goes on to its next pass, or is done.
      let moved := jobStep cfg backend s.mgr f
      ({ s with mgr := moved.1,
                flights := s.flights.take j ++ moved.2 ++ s.flights.drop (j + 1) }, .silent)

def Steps (s : Machine) (l : Label) (o : Reply) (s' : Machine) : Prop :=
  s.step cfg l = some (s', o)

/-- A property of every entry: in the table, in the queue, in a running job and in the reader. -/
structure EachEntry (P : Str → CacheEntry → Prop) (s : Machine) : Prop where
  kept : CacheManager.EachEntry P s.mgr
  flying : ∀ f ∈ s.flights, ∃ path, P path f.job.ce
  reading : ∀ r, s.reader = some r → P r.path r.ce

/-- What is running after one of its members has moved. -/
theorem mem_moved {α : Type} {running moved : List α} {j : ℕ} {a : α}
    (member : a ∈ running.take j ++ moved ++ running.drop (j + 1)) : a ∈ running ∨ a ∈ moved := by
  rcases List.mem_append.mp member with front | back
  · rcases List.mem_append.mp front with old | new
    · exact .inl (List.mem_of_mem_take old)
    · exact .inr new
  · exact .inl (List.mem_of_mem_drop back)

theorem mem_next {f g : Flight} (member : g ∈ f.next) :
    g = ⟨f.job, f.i + 1, .probe⟩ ∧ f.i + 1 < PREFETCH_WINDOW := by
  unfold Flight.next at member
  split at member
  next more => exact ⟨by simpa using member, more⟩
  · simp at member

/-- What a step of a job does: only storing changes the manager. -/
theorem jobStep_cases (backend : Backend) (m : CacheManager) (f : Flight) :
    (f.phase = .probe ∧ (m.blocks cfg).Full kBlockSize f.job.ce.hashHex f.blk ∧
      jobStep cfg backend m f = (m, f.next)) ∨
    (f.phase = .probe ∧ ¬(m.blocks cfg).Full kBlockSize f.job.ce.hashHex f.blk ∧
      jobStep cfg backend m f = (m, [{ f with phase := .fetch }])) ∨
    (f.phase = .fetch ∧
      received (backend.readRange f.job.ce.path kBlockSize (f.blk * kBlockSize)) = none ∧
      jobStep cfg backend m f = (m, f.next)) ∨
    (∃ got, f.phase = .fetch ∧
      received (backend.readRange f.job.ce.path kBlockSize (f.blk * kBlockSize)) = some got ∧
      jobStep cfg backend m f = (m, [{ f with phase := .store got }])) ∨
    (∃ got, f.phase = .store got ∧ jobStep cfg backend m f =
      ((m.store cfg f.job.ce.hashHex f.blk got).touch (.task f.job.id) f.blk .quarter,
        f.next)) := by
  unfold jobStep
  cases phase : f.phase with
  | probe =>
    simp only [CacheManager.probe_blocks]
    by_cases full : (m.blocks cfg).Full kBlockSize f.job.ce.hashHex f.blk
    · exact .inl ⟨trivial, full, if_pos (by simpa using full)⟩
    · exact .inr (.inl ⟨trivial, full, if_neg (by simpa using full)⟩)
  | fetch =>
    refine .inr (.inr ?_)
    cases reply : received (backend.readRange f.job.ce.path kBlockSize (f.blk * kBlockSize)) with
    | none => exact .inl ⟨rfl, rfl, rfl⟩
    | some got => exact .inr (.inl ⟨got, rfl, rfl, rfl⟩)
  | store got => exact .inr (.inr (.inr (.inr ⟨got, rfl, rfl⟩)))

theorem jobStep_same (backend : Backend) (m : CacheManager) (f : Flight) :
    (jobStep cfg backend m f).1.entries = m.entries ∧
      (jobStep cfg backend m f).1.tasks = m.tasks ∧
      ∀ g ∈ (jobStep cfg backend m f).2, g.job = f.job := by
  rcases jobStep_cases cfg backend m f with ⟨_, _, eq⟩ | ⟨_, _, eq⟩ | ⟨_, _, eq⟩ | ⟨got, _, _, eq⟩ |
    ⟨got, _, eq⟩ <;> rw [eq] <;> refine ⟨rfl, rfl, fun g member => ?_⟩
  · rw [(mem_next member).1]
  · rw [List.mem_singleton.mp member]
  · rw [(mem_next member).1]
  · rw [List.mem_singleton.mp member]
  · rw [(mem_next member).1]

variable {cfg : Config} {s : Machine}

theorem EachEntry.job {P : Str → CacheEntry → Prop} (each : EachEntry P s) {j : ℕ}
    {backend : Backend} {f : Flight} (found : s.flights[j]? = some f) :
    EachEntry P { s with
      mgr := (jobStep cfg backend s.mgr f).1
      flights := s.flights.take j ++ (jobStep cfg backend s.mgr f).2 ++
        s.flights.drop (j + 1) } := by
  obtain ⟨entries, tasks, same⟩ := jobStep_same cfg backend s.mgr f
  refine ⟨each.kept.of_same entries tasks, fun g member => ?_, each.reading⟩
  rcases mem_moved member with old | new
  · exact each.flying g old
  · rw [same g new]
    exact each.flying f (List.mem_of_getElem? found)

theorem EachEntry.start {P : Str → CacheEntry → Prop} (each : EachEntry P s) {i : ℕ}
    {job : Job} (found : s.mgr.tasks[i]? = some job) :
    EachEntry P { s with
      mgr := { s.mgr with tasks := s.mgr.tasks.eraseIdx i }
      flights := s.flights ++ [⟨job, 0, .probe⟩] } := by
  refine ⟨⟨each.kept.table, fun job member =>
    each.kept.captured job (List.mem_of_mem_eraseIdx member)⟩, fun f member => ?_, each.reading⟩
  rcases List.mem_append.mp member with old | new
  · exact each.flying f old
  · rw [List.mem_singleton.mp new]
    exact each.kept.captured job (List.mem_of_getElem? found)

theorem demandStep_each {P : Str → CacheEntry → Prop} {m : CacheManager} {r : Reader}
    (each : CacheManager.EachEntry P m) (settled : CacheManager.Settled cfg P r.path)
    (own : P r.path r.ce) (env : Env) :
    CacheManager.EachEntry P (demandStep cfg env m r).1 ∧
      ∀ r', (demandStep cfg env m r).2 = .ok r' → P r'.path r'.ce := by
  have finished : ∀ (m' : CacheManager) (p : Piece) (block : Bytes), m'.entries = m.entries →
      m'.tasks = m.tasks → CacheManager.EachEntry P (finishPass m' r p block).1 ∧
        ∀ r', (finishPass m' r p block).2 = .ok r' → P r'.path r'.ce := by
    intro m' p block entries tasks
    have ends := (each.of_same entries tasks).finish cfg p block
      (s := ⟨m', r.ce, r.done, r.buf⟩) settled own
    refine ⟨ends.1, ?_⟩
    rintro _ ⟨⟩
    exact ends.2
  have paused : ∀ phase, CacheManager.EachEntry P m ∧
      ∀ r', (.ok { r with phase } : Except ReadResult Reader) = .ok r' → P r'.path r'.ce := by
    intro phase
    refine ⟨each, ?_⟩
    rintro _ ⟨⟩
    exact own
  have returned : ∀ result, CacheManager.EachEntry P m ∧
      ∀ r', (.error result : Except ReadResult Reader) = .ok r' → P r'.path r'.ce :=
    fun result => ⟨each, by rintro _ ⟨⟩⟩
  -- Each branch ends a pass, pauses within it or returns.
  unfold demandStep
  split
  · cases r.phase with
    | probe =>
      simp only [CacheManager.probe_blocks]
      split
      · exact finished m _ _ rfl rfl
      · exact paused _
    | fetch block =>
      simp only
      split
      · exact returned _
      · exact paused _
    | store block got => exact finished _ _ _ rfl rfl
  · exact returned _

end Machine

end RemoteCache
