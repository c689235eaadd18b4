import RemoteCache.Cache.Passes
import RemoteCache.Lib.Transition

/-!
# Runs of the cache manager

An event is a call of `read` or `write`, one queued prefetch job run to its end,
or a call of `evict_until_gb`; a run is any sequence of events from a new
manager. Entries and the copies that tasks captured keep what the events agree
on, apart from the last block read.
-/
namespace RemoteCache

inductive Event where
  | read (env : Env) (path : Str) (len off : ℕ)
  | write (path : Str) (data : Bytes) (off : ℕ)
  | prefetch (backend : Backend) (i : ℕ)
  | evict (used : ℕ → ℚ) (freeGb : ℚ)

inductive Output where
  | read (result : ReadResult)
  | wrote (count : ℤ)
  | prefetched (job : Job) (blks : List ℕ)
  | evicted

abbrev Trace := List (Event × Output)

namespace CacheManager

variable (cfg : Config)

/-- The queued job `i` leaves the queue and runs. -/
def prefetch (backend : Backend) (m : CacheManager) (i : ℕ) (job : Job) :
    CacheManager × List ℕ :=
  runJob cfg backend { m with tasks := m.tasks.eraseIdx i } job

def step (m : CacheManager) : Event → Option (CacheManager × Output)
  | .read env path len off =>
    let r := m.read cfg env path len off
    some (r.1, .read r.2)
  | .write path data off =>
    let r := m.write cfg succeed path data off
    some (r.1, .wrote r.2)
  | .prefetch backend i =>
    m.tasks[i]?.map fun job =>
      let r := m.prefetch cfg backend i job
      (r.1, .prefetched job r.2)
  | .evict used freeGb => (m.evictUntilGb cfg used freeGb).map (·, .evicted)

def Steps (m : CacheManager) (e : Event) (o : Output) (m' : CacheManager) : Prop :=
  m.step cfg e = some (m', o)

theorem steps_read (m : CacheManager) (env : Env) (path : Str) (len off : ℕ) :
    Steps cfg m (.read env path len off) (.read (m.read cfg env path len off).2)
      (m.read cfg env path len off).1 := rfl

theorem steps_write (m : CacheManager) (path : Str) (data : Bytes) (off : ℕ) :
    Steps cfg m (.write path data off) (.wrote (m.write cfg succeed path data off).2)
      (m.write cfg succeed path data off).1 := rfl

end CacheManager

def Event.isEvict : Event → Bool
  | .read _ _ _ _ => false
  | .write _ _ _ => false
  | .prefetch _ _ => false
  | .evict _ _ => true

namespace CacheManager

variable (cfg : Config)

/-! ### Entries -/

/-- A property of every entry, in the table or captured by a task. -/
structure EachEntry (P : Str → CacheEntry → Prop) (m : CacheManager) : Prop where
  table : ∀ path ce, m.entries.lookup path = some ce → P path ce
  captured : ∀ job ∈ m.tasks, ∃ path, P path job.ce

/-- A property that new entries of a path have and that does not depend on the last block. -/
structure Settled (P : Str → CacheEntry → Prop) (path : Str) : Prop where
  fresh : P path { path, hashHex := cfg.hashHex path }
  moved : ∀ ce last, P path ce → P path { ce with lastBlock := last }

variable {P : Str → CacheEntry → Prop} {m : CacheManager} {path : Str}

theorem EachEntry.entry (each : EachEntry P m) (settled : Settled cfg P path) :
    EachEntry P (m.entry cfg path).1 ∧ P path (m.entry cfg path).2 := by
  have own : P path (m.entry cfg path).2 := by
    rw [entry_snd]
    cases found : m.entries.lookup path with
    | none => exact settled.fresh
    | some ce => exact each.table path ce found
  have captured : ∀ job ∈ (m.entry cfg path).1.tasks, ∃ path, P path job.ce := by
    rw [entry_tasks]
    exact each.captured
  refine ⟨⟨fun other ce found => ?_, captured⟩, own⟩
  -- Only the entry of the path itself may be new.
  by_cases same : other = path
  · subst same
    rw [entry_lookup] at found
    cases found
    exact own
  · exact each.table other ce (by rwa [entry_lookup_other cfg m same] at found)

/-- Files do not matter to entries. -/
theorem EachEntry.of_same {m' : CacheManager} (each : EachEntry P m)
    (entries : m'.entries = m.entries) (tasks : m'.tasks = m.tasks) : EachEntry P m' :=
  ⟨entries ▸ each.table, tasks ▸ each.captured⟩

theorem EachEntry.finish (p : Piece) (block : Bytes) {s : ReadState}
    (each : EachEntry P s.mgr) (settled : Settled cfg P path) (own : P path s.ce) :
    EachEntry P (finish path p block s).mgr ∧ P path (finish path p block s).ce := by
  have own' := settled.moved s.ce (some p.blk) own
  refine ⟨⟨fun other ce found => ?_, fun job member => ?_⟩, own'⟩
  · rw [finish_entries] at found
    by_cases same : other = path
    · subst same
      rw [AList.lookup_insert] at found
      cases found
      exact own'
    · rw [AList.lookup_insert_ne same] at found
      exact each.table other ce found
  -- A prefetch that the pass has queued captured the updated entry.
  · rcases finish_tasks path p block s member with old | ⟨new, _⟩
    · exact each.captured job old
    · exact ⟨path, new ▸ own'⟩

theorem Ready.same {env : Env} {p : Piece} {s : ReadState} {block : Bytes} {mgr : CacheManager}
    (ready : Ready cfg env path p s block mgr) :
    mgr.entries = s.mgr.entries ∧ mgr.tasks = s.mgr.tasks ∧ mgr.lru = s.mgr.lru := by
  cases ready <;> exact ⟨rfl, rfl, rfl⟩

theorem EachEntry.read (each : EachEntry P m) (settled : Settled cfg P path) (env : Env)
    (len off : ℕ) : EachEntry P (m.read cfg env path len off).1 := by
  have entered := each.entry cfg settled
  by_cases gone : (m.entry cfg path).2.evicted = true
  · rw [read_evicted cfg gone]
    exact entered.1
  · refine read_rule cfg (fun s => EachEntry P s.mgr ∧ P path s.ce) (fun m' _ => EachEntry P m')
      (by simpa using gone) entered ?_ ?_ ?_
    · rintro s p block mgr ⟨each, own⟩ _ _ ready
      obtain ⟨entries, tasks, _⟩ := ready.same
      exact (each.of_same entries tasks).finish cfg p block (s := { s with mgr }) settled own
    · exact fun s p inv _ _ _ _ => inv.1
    · exact fun s inv _ => inv.1

theorem EachEntry.write (each : EachEntry P m) (settled : Settled cfg P path) (data : Bytes)
    (off : ℕ) : EachEntry P (m.write cfg succeed path data off).1 := by
  have entered := each.entry cfg settled
  by_cases gone : (m.entry cfg path).2.evicted = true
  · rw [write_evicted cfg gone]
    exact entered.1
  · exact (write_rule cfg (fun s => EachEntry P s.mgr) (by simpa using gone) entered.1
      fun s p each _ _ => each.of_same rfl rfl).1

/-- An entry of the path, with the path's hash, that has not been evicted. -/
def Live (cfg : Config) (path : Str) (ce : CacheEntry) : Prop :=
  ce.path = path ∧ ce.hashHex = cfg.hashHex path ∧ ce.evicted = false

theorem settled_live (path : Str) : Settled cfg (Live cfg) path :=
  ⟨⟨rfl, rfl, rfl⟩, fun _ _ live => live⟩

theorem each_new (P : Str → CacheEntry → Prop) (files : Files) : EachEntry P (new files) :=
  ⟨by simp [new], by simp [new]⟩

/-! ### Prefetch jobs -/

/-- What every pass of a job carries forward, the job achieves. -/
theorem runJob_rule (Inv : ℕ → CacheManager × List ℕ → Prop) (backend : Backend) (job : Job)
    (start : Inv 0 (m, []))
    (pass : ∀ i s, i < PREFETCH_WINDOW → Inv i s →
      Inv (i + 1) (prefetchPass cfg backend job s i)) :
    Inv PREFETCH_WINDOW (runJob cfg backend m job) := by
  -- Induction on the number of passes made.
  have upto : ∀ n ≤ PREFETCH_WINDOW,
      Inv n ((List.range n).foldl (prefetchPass cfg backend job) (m, [])) := by
    intro n bound
    induction n with
    | zero => exact start
    | succ n ih =>
      rw [List.range_succ, List.foldl_append]
      exact pass n _ bound (ih (Nat.le_of_succ_le bound))
  exact upto _ (Nat.le_refl _)

/-- A pass of a job finds its block whole, or gets nothing, or stores what it gets. -/
theorem prefetchPass_cases (backend : Backend) (job : Job) (s : CacheManager × List ℕ) (i : ℕ) :
    (((s.1.blocks cfg).Full kBlockSize job.ce.hashHex (job.firstBlk + i) ∨
        received (backend.readRange job.ce.path kBlockSize ((job.firstBlk + i) * kBlockSize)) =
          none) ∧
      prefetchPass cfg backend job s i = s) ∨
    ∃ got, ¬(s.1.blocks cfg).Full kBlockSize job.ce.hashHex (job.firstBlk + i) ∧
      received (backend.readRange job.ce.path kBlockSize ((job.firstBlk + i) * kBlockSize)) =
        some got ∧
      prefetchPass cfg backend job s i =
        ((s.1.store cfg job.ce.hashHex (job.firstBlk + i) got).touch (.task job.id)
          (job.firstBlk + i) .quarter, s.2 ++ [job.firstBlk + i]) := by
  simp only [prefetchPass, probe_blocks]
  by_cases full : (s.1.blocks cfg).Full kBlockSize job.ce.hashHex (job.firstBlk + i)
  · exact .inl ⟨.inl full, if_pos (by simpa using full)⟩
  · rw [if_neg (by simpa using full)]
    cases reply : received
        (backend.readRange job.ce.path kBlockSize ((job.firstBlk + i) * kBlockSize)) with
    | none => exact .inl ⟨.inr rfl, rfl⟩
    | some got => exact .inr ⟨got, full, rfl, rfl⟩

theorem EachEntry.prefetch (each : EachEntry P m) (backend : Backend) (i : ℕ) (job : Job) :
    EachEntry P (m.prefetch cfg backend i job).1 := by
  have erased : EachEntry P { m with tasks := m.tasks.eraseIdx i } :=
    ⟨each.table, fun job member => each.captured job (List.mem_of_mem_eraseIdx member)⟩
  refine runJob_rule cfg (fun _ s => EachEntry P s.1) backend job erased fun i s _ each => ?_
  rcases prefetchPass_cases cfg backend job s i with ⟨_, eq⟩ | ⟨got, _, _, eq⟩
  · rw [eq]; exact each
  · rw [eq]; exact each.of_same rfl rfl

/-- Without evictions every entry stays live. -/
theorem run_live {files : Files} {trace : Trace} (run : Run (Steps cfg) (new files) trace m)
    (stays : ∀ entry ∈ trace, entry.1.isEvict = false) : EachEntry (Live cfg) m := by
  induction run with
  | refl => exact each_new _ files
  | @next m m' trace e o before taken ih =>
    have each := ih fun entry member => stays entry (List.mem_append_left _ member)
    cases e with
    | read env path len off =>
      cases taken
      exact each.read cfg (settled_live cfg path) env len off
    | write path data off =>
      cases taken
      exact each.write cfg (settled_live cfg path) data off
    | prefetch backend i =>
      obtain ⟨job, _, same⟩ := Option.map_eq_some_iff.mp taken
      cases same
      exact each.prefetch cfg backend i job
    -- The only event that marks an entry is excluded.
    | evict used freeGb =>
      exact absurd (stays _ (List.mem_append_right _ List.mem_cons_self)) (by simp [Event.isEvict])

end CacheManager

end RemoteCache
