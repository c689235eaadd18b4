import RemoteCache.Cache.Contents
import RemoteCache.Cache.Machine

/-!
# The machine without interleaving

## Main result

`run_in_steps`: every run of the manager without evictions is a run of the
machine that returns the same results.

## Proof strategy

A demand read whose steps follow each other does what `read` does, and a job
whose steps follow each other does what `prefetch` does. Both go pass by pass:
the steps of one pass, put together, are the pass.
-/
namespace RemoteCache

namespace Machine

/-- Steps without a reply lead from one state to the other. -/
def Silently (cfg : Config) (s s' : Machine) : Prop :=
  ∃ history, Run (Steps cfg) s history s' ∧ ∀ entry ∈ history, entry.2 = .silent

variable {cfg : Config}

namespace Silently

variable {s t u : Machine}

theorem refl (s : Machine) : Silently cfg s s := ⟨[], .refl s, by simp⟩

theorem next (before : Silently cfg s t) {l : Label} (taken : Steps cfg t l .silent u) :
    Silently cfg s u := by
  obtain ⟨history, run, silent⟩ := before
  refine ⟨history ++ [(l, .silent)], .next run taken, fun entry member => ?_⟩
  rcases List.mem_append.mp member with old | new
  · exact silent entry old
  · rw [List.mem_singleton.mp new]

end Silently

/-! ### Prefetch jobs -/

variable (cfg) in
/-- A step of the job that was started last. -/
theorem steps_last (m : CacheManager) (flights : List Flight) (reader : Option Reader) (f : Flight)
    (backend : Backend) :
    Steps cfg ⟨m, flights ++ [f], reader⟩ (.job flights.length backend) .silent
      ⟨(jobStep cfg backend m f).1, flights ++ (jobStep cfg backend m f).2, reader⟩ := by
  simp [Steps, step]

/-- The steps of one pass of a job, put together. -/
theorem pass_in_steps {start : Machine} {flights : List Flight} {reader : Option Reader}
    (backend : Backend) (job : Job) (i : ℕ) (s : CacheManager × List ℕ)
    (before : Silently cfg start ⟨s.1, flights ++ [⟨job, i, .probe⟩], reader⟩) :
    Silently cfg start ⟨(CacheManager.prefetchPass cfg backend job s i).1,
      flights ++ Flight.next ⟨job, i, .probe⟩, reader⟩ := by
  have probed := before.next (steps_last cfg s.1 flights reader ⟨job, i, .probe⟩ backend)
  have fetched := steps_last cfg s.1 flights reader ⟨job, i, .fetch⟩ backend
  simp only [jobStep, CacheManager.probe_blocks, Flight.blk] at probed fetched
  rcases CacheManager.prefetchPass_cases cfg backend job s i with ⟨full | none, eq⟩ |
    ⟨got, miss, reply, eq⟩
  · rw [if_pos (by simpa using full)] at probed
    rw [eq]
    exact probed
  -- The backend has nothing; the probe may have ended the pass before it was asked.
  · by_cases full : (s.1.blocks cfg).Full kBlockSize job.ce.hashHex (job.firstBlk + i)
    · rw [if_pos (by simpa using full)] at probed
      rw [eq]
      exact probed
    · rw [if_neg (by simpa using full)] at probed
      rw [none] at fetched
      rw [eq]
      exact probed.next fetched
  · rw [if_neg (by simpa using miss)] at probed
    rw [reply] at fetched
    rw [eq]
    have stored := steps_last cfg s.1 flights reader ⟨job, i, .store got⟩ backend
    exact (probed.next fetched).next stored

variable (cfg) in
/-- A job whose steps follow each other runs as `prefetch` does. -/
theorem prefetch_in_steps (s : Machine) (backend : Backend) {i : ℕ} {job : Job}
    (queued : s.mgr.tasks[i]? = some job) :
    Silently cfg s { s with mgr := (s.mgr.prefetch cfg backend i job).1 } := by
  have started : Steps cfg s (.start i) .silent
      ⟨{ s.mgr with tasks := s.mgr.tasks.eraseIdx i }, s.flights ++ [⟨job, 0, .probe⟩],
        s.reader⟩ := by
    simp [Steps, step, queued]
  -- After `n` passes the job is in pass `n`, and after the last one it is gone.
  have ran := CacheManager.runJob_rule cfg
    (fun n reached => Silently cfg s ⟨reached.1,
      s.flights ++ (if n < PREFETCH_WINDOW then [⟨job, n, .probe⟩] else []), s.reader⟩)
    backend job ((Silently.refl s).next started) fun n reached more before => by
      rw [if_pos more] at before
      exact pass_in_steps backend job n reached before
  simpa only [CacheManager.prefetch, Nat.lt_irrefl, if_false, List.append_nil] using ran

/-! ### Demand reads -/

/-- The demand read at the start of a pass. -/
def beginPass (path : Str) (len off : ℕ) (s : CacheManager.ReadState) : Reader :=
  ⟨path, len, off, s.ce, s.done, s.buf, .probe⟩

/-- The first step of a pass whose block is not whole in the store. -/
theorem steps_missed {flights : List Flight} (env : Env) {path : Str} {len off : ℕ}
    {s : CacheManager.ReadState} {p : Piece} (more : s.done < len)
    (piece : pieceAt off len s.done = p)
    (miss : ¬(s.mgr.blocks cfg).Full kBlockSize s.ce.hashHex p.blk) :
    Steps cfg ⟨s.mgr, flights, some (beginPass path len off s)⟩ (.demand env) .silent
      ⟨s.mgr, flights, some { beginPass path len off s with
        phase := .fetch ((Blob.ofFn kBlockSize (env.stack p.blk)).write
          (s.mgr.blocks cfg s.ce.hashHex p.blk) 0) }⟩ := by
  simp only [Steps, step, Option.map_some, demandStep, beginPass, if_pos more, piece,
    CacheManager.probe_blocks]
  rw [if_neg (by simpa using miss)]

/-- A step of the read that goes on. -/
theorem steps_on {m m' : CacheManager} {flights : List Flight} (env : Env) {r r' : Reader}
    (eq : demandStep cfg env m r = (m', .ok r')) :
    Steps cfg ⟨m, flights, some r⟩ (.demand env) .silent ⟨m', flights, some r'⟩ := by
  simp only [Steps, step, Option.map_some, eq]

/-- A step of the read that returns. -/
theorem steps_returned {m m' : CacheManager} {flights : List Flight} {env : Env} {r : Reader}
    {result : ReadResult} (eq : demandStep cfg env m r = (m', .error result)) :
    Steps cfg ⟨m, flights, some r⟩ (.demand env) (.returned r.path r.len r.off result)
      ⟨m', flights, none⟩ := by
  simp only [Steps, step, Option.map_some, eq]

/-- The steps of one pass of a read, put together. -/
theorem ready_in_steps {start : Machine} {flights : List Flight} {env : Env} {path : Str}
    {len off : ℕ} {s : CacheManager.ReadState} {p : Piece} {block : Bytes} {mgr : CacheManager}
    (more : s.done < len) (piece : pieceAt off len s.done = p)
    (ready : CacheManager.Ready cfg env path p s block mgr)
    (before : Silently cfg start ⟨s.mgr, flights, some (beginPass path len off s)⟩) :
    let s' := CacheManager.finish path p block { s with mgr }
    Silently cfg start ⟨s'.mgr, flights, some (beginPass path len off s')⟩ := by
  cases ready with
  | hit full =>
    refine before.next (steps_on env ?_)
    simp only [demandStep, beginPass, if_pos more, piece, CacheManager.probe_blocks]
    rw [if_pos (by simpa using full), write_full (Blob.size_ofFn _ _) full]
    rfl
  | fill miss got fetched =>
    subst piece
    let block := (Blob.ofFn kBlockSize (env.stack (pieceAt off len s.done).blk)).write
      (s.mgr.blocks cfg s.ce.hashHex (pieceAt off len s.done).blk) 0
    have probed := before.next (steps_missed env more rfl miss)
    have asked : demandStep cfg env s.mgr { beginPass path len off s with phase := .fetch block } =
        (s.mgr, .ok { beginPass path len off s with phase := .store (block.write got 0) got }) := by
      simp only [demandStep, beginPass, if_pos more, fetched]
    have found := probed.next (steps_on env asked)
    exact found.next (steps_on env (if_pos more))

variable (cfg) in
/-- A read whose steps follow each other runs and returns as `read` does. -/
theorem read_in_steps (s : Machine) (idle : s.reader = none) (env : Env) (path : Str)
    (len off : ℕ) :
    let r := s.mgr.read cfg env path len off
    ∃ t l, Silently cfg s t ∧ Steps cfg t l (.returned path len off r.2) { s with mgr := r.1 } := by
  by_cases gone : (s.mgr.entry cfg path).2.evicted = true
  · refine ⟨s, .call path len off, .refl s, ?_⟩
    simp [Steps, step, idle, gone, CacheManager.read_evicted cfg gone]
  -- One step enters the path; then the read is at the start of its first pass.
  · have called : Steps cfg s (.call path len off) .silent ⟨(s.mgr.entry cfg path).1, s.flights,
        some (beginPass path len off
          ⟨(s.mgr.entry cfg path).1, (s.mgr.entry cfg path).2, 0, .empty⟩)⟩ := by
      simp [Steps, step, idle, gone, beginPass]
    rw [idle]
    refine CacheManager.read_rule cfg
      (fun reached =>
        Silently cfg s ⟨reached.mgr, s.flights, some (beginPass path len off reached)⟩)
      (fun m result => ∃ t l, Silently cfg s t ∧
        Steps cfg t l (.returned path len off result) ⟨m, s.flights, none⟩)
      (by simpa using gone) ((Silently.refl s).next called) ?_ ?_ ?_
    · exact fun reached p block mgr before more piece ready =>
        ready_in_steps more piece ready before
    · intro reached p before more piece miss none
      refine ⟨_, .demand env, before.next (steps_missed env more piece miss),
        steps_returned ?_⟩
      simp only [demandStep, beginPass, if_pos more, piece, none]
      rfl
    · intro reached before all
      -- Nothing is left to read: the next step returns.
      exact ⟨_, .demand env, before, steps_returned (if_neg (Nat.not_lt.mpr all))⟩

/-! ### Runs -/

/-- The results of the reads that have returned, in order. -/
def returned (history : List (Label × Reply)) : List (Str × ℕ × ℕ × ReadResult) :=
  history.filterMap fun entry =>
    match entry.2 with
    | .returned path len off r => some (path, len, off, r)
    | _ => none

/-- The reads of a run of the manager with their results, in order. -/
def readsOf (trace : Trace) : List (Str × ℕ × ℕ × ReadResult) :=
  trace.filterMap fun entry =>
    match entry with
    | (.read _ path len off, .read r) => some (path, len, off, r)
    | _ => none

theorem returned_append (first second : List (Label × Reply)) :
    returned (first ++ second) = returned first ++ returned second := List.filterMap_append

theorem returned_silent {history : List (Label × Reply)}
    (silent : ∀ entry ∈ history, entry.2 = .silent) : returned history = [] := by
  rw [returned, List.filterMap_eq_nil_iff]
  intro entry member
  rw [silent entry member]

/-- Every run of the manager without evictions is one of the machine, with the same results. -/
theorem run_in_steps {files : Files} {trace : Trace} {m : CacheManager}
    (run : Run (CacheManager.Steps cfg) (.new files) trace m)
    (stays : ∀ entry ∈ trace, entry.1.isEvict = false) :
    ∃ history, Run (Steps cfg) (new files) history ⟨m, [], none⟩ ∧
      returned history = readsOf trace := by
  induction run with
  | refl => exact ⟨[], .refl _, rfl⟩
  | @next m m' trace e o before taken ih =>
    obtain ⟨history, reached, same⟩ := ih fun entry member =>
      stays entry (List.mem_append_left _ member)
    have split : readsOf (trace ++ [(e, o)]) = readsOf trace ++ readsOf [(e, o)] :=
      List.filterMap_append
    rw [split, ← same]
    cases e with
    | read env path len off =>
      cases taken
      obtain ⟨t, l, ⟨quiet, ran, silent⟩, last⟩ := read_in_steps cfg ⟨m, [], none⟩ rfl env path
        len off
      refine ⟨history ++ (quiet ++ [(l, _)]), reached.append (.next ran last), ?_⟩
      rw [returned_append, returned_append, returned_silent silent]
      rfl
    | write path data off =>
      cases taken
      have wrote : Steps cfg ⟨m, [], none⟩ (.write path data off) (.wrote _) ⟨_, [], none⟩ := rfl
      refine ⟨history ++ [(.write path data off, .wrote _)], .next reached wrote, ?_⟩
      rw [returned_append]
      rfl
    | prefetch backend i =>
      obtain ⟨job, queued, done⟩ := Option.map_eq_some_iff.mp taken
      cases done
      obtain ⟨quiet, ran, silent⟩ := prefetch_in_steps cfg ⟨m, [], none⟩ backend queued
      refine ⟨history ++ quiet, reached.append ran, ?_⟩
      rw [returned_append, returned_silent silent]
      rfl
    -- The machine has no evictions.
    | evict used freeGb =>
      exact absurd (stays _ (List.mem_append_right _ List.mem_cons_self)) (by simp [Event.isEvict])

theorem run_in_steps_two :
    let first := (CacheManager.new fun _ => none).read .sample (.serving threeBlocks) ['/', 'f'] 1 0
    let second := first.1.write .sample CacheManager.succeed ['/', 'f'] (.ofFn 2 fun _ => 7) 0
    ∃ history, Run (Steps .sample) (new fun _ => none) history ⟨second.1, [], none⟩ ∧
      returned history = [(['/', 'f'], 1, 0, first.2)] := by
  intro first second
  obtain ⟨history, ran, same⟩ := run_in_steps
    (.next (.next (.refl _) (CacheManager.steps_read .sample (.new fun _ => none)
      (.serving threeBlocks) ['/', 'f'] 1 0))
      (CacheManager.steps_write .sample first.1 ['/', 'f'] (.ofFn 2 fun _ => 7) 0))
    (by simp [Event.isEvict])
  exact ⟨history, ran, same⟩

end Machine

end RemoteCache
