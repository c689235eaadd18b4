import RemoteCache.Cache.CallFrame
import RemoteCache.Cache.Contents
import RemoteCache.Cache.Eviction
import RemoteCache.Cache.Machine

/-!
# Evictions against reads and prefetch jobs

## Main result

`eviction_final`: in every interleaving in which no read and no prefetch job
stores a block of an object that an eviction has deleted, evicted entries have no
data parts. The first such store breaks this.

## Proof strategy

An eviction takes no lock, so its steps may fall between those of a read or of a
job. The invariant covers the entries that are marked and those that an eviction
has deleted but not marked yet. Deleting an object clears its data parts, and
only the store step of a read or of a job puts one back.
-/
namespace RemoteCache

/-- Where a call of `evict_until_gb` stands in its pass: before it measures the usage and pops a
key, before it tests the flag of the key's entry, before it deletes, flushes and marks it. -/
inductive Evictor where
  | pop
  | check (path : Str)
  | delete (path : Str)
  | flush (path : Str)
  | mark (path : Str)
  deriving DecidableEq

/-- The path of the entry that the pass is about. -/
def Evictor.path? : Evictor → Option Str
  | .pop => none
  | .check path => some path
  | .delete path => some path
  | .flush path => some path
  | .mark path => some path

structure Race where
  machine : Machine
  evictors : List Evictor

/-- A step of a read, of a prefetch job or of an eviction, which is told whether the usage that it
measures is above its target. -/
inductive Move where
  | call (path : Str) (len off : ℕ)
  | demand (env : Env)
  | start (i : ℕ)
  | job (j : ℕ) (backend : Backend)
  | evict
  | evictor (j : ℕ) (above : Bool)

/-- A read works on the entry in the table and not on a copy of it. -/
def Machine.refresh (s : Machine) : Machine :=
  { s with
    reader := s.reader.map fun r =>
      { r with ce := (s.mgr.entries.lookup r.path).getD r.ce } }

namespace Race

variable (cfg : Config)

def new (files : Files) : Race := ⟨.new files, []⟩

/-- One step of an eviction, after which it is where the list says or has returned. -/
def evictorStep (m : CacheManager) (above : Bool) : Evictor → Option (CacheManager × List Evictor)
  -- `used_gb() > free_gb`, then `lru_.evict()`: the list has its lock, the manager not.
  | .pop =>
    if above then
      match m.lru.evict with
      -- `break`: no keys are left.
      | (lru, none) => some ({ m with lru }, [])
      | (lru, some key) =>
        match key.addr with
        | .task _ => none
        | .entry path =>
          (m.entries.lookup path).map fun _ => ({ m with lru }, [.check path])
    else some (m, [])
  -- `ce->evicted` is read without the lock; a read may just be under way.
  | .check path =>
    (m.entries.lookup path).map fun ce => (m, [if ce.evicted then .pop else .delete path])
  | .delete path =>
    (m.entries.lookup path).map fun ce =>
      ({ m with files := BlockStore.deleteObject cfg m.files ce.hashHex }, [.flush path])
  | .flush path =>
    (m.entries.lookup path).map fun ce =>
      ({ m with files := MetadataStore.flushBitmaps cfg m.files m.bitmap ce.hashHex }, [.mark path])
  | .mark path =>
    (m.entries.lookup path).map fun ce =>
      ({ m with entries := m.entries.insert path { ce with evicted := true } }, [.pop])

def step (s : Race) : Move → Option (Race × Reply)
  | .call path len off =>
    (s.machine.step cfg (.call path len off)).map fun r => ({ s with machine := r.1 }, r.2)
  -- `ce` is a reference into the table, so a mark shows at once.
  | .demand env =>
    (s.machine.refresh.step cfg (.demand env)).map fun r => ({ s with machine := r.1 }, r.2)
  | .start i => (s.machine.step cfg (.start i)).map fun r => ({ s with machine := r.1 }, r.2)
  | .job j backend =>
    (s.machine.step cfg (.job j backend)).map fun r => ({ s with machine := r.1 }, r.2)
  -- Any number of evictions may run at a time.
  | .evict => some ({ s with evictors := s.evictors ++ [.pop] }, .silent)
  | .evictor j above =>
    s.evictors[j]?.bind fun e =>
      (evictorStep cfg s.machine.mgr above e).map fun moved =>
        ({ machine := { s.machine with mgr := moved.1 },
           evictors := s.evictors.take j ++ moved.2 ++ s.evictors.drop (j + 1) }, .silent)

def Steps (s : Race) (l : Move) (o : Reply) (s' : Race) : Prop := s.step cfg l = some (s', o)

/-- The entry is marked as evicted, or an eviction has deleted its object and not marked it yet. -/
def Deleted (s : Race) (path : Str) : Prop :=
  s.machine.mgr.gone path = true ∨ ∃ e ∈ s.evictors, e = .flush path ∨ e = .mark path

/-- Deleted objects have no data parts. -/
def Final (s : Race) : Prop :=
  ∀ path ce, s.machine.mgr.entries.lookup path = some ce → s.Deleted path →
    ∀ k, s.machine.mgr.files (cfg.dataPart ce.hashHex k) = none

/-- The object of which the next step of a read or of a job is about to store a block. -/
def storing (s : Race) : Move → Option Digest
  | .demand _ =>
    s.machine.refresh.reader.bind fun r =>
      if r.done < r.len then
        match r.phase with
        | .store _ _ => some r.ce.hashHex
        | _ => none
      else none
  | .job j _ =>
    s.machine.flights[j]?.bind fun f =>
      match f.phase with
      | .store _ => some f.job.ce.hashHex
      | _ => none
  | _ => none

/-- The step stores no block of a deleted object. -/
def Timely (s : Race) (l : Move) : Prop :=
  ∀ d, s.storing l = some d → ∀ path ce, s.machine.mgr.entries.lookup path = some ce →
    ce.hashHex = d → ¬s.Deleted path

variable {cfg} {s s' : Race} {m m' : CacheManager}

instance (s : Race) (path : Str) : Decidable (s.Deleted path) :=
  inferInstanceAs (Decidable (_ ∨ ∃ e ∈ s.evictors, e = .flush path ∨ e = .mark path))

/-- It is enough to look at the entries of the table. -/
theorem timely_iff (s : Race) (l : Move) :
    Timely s l ↔ ∀ entry ∈ s.machine.mgr.entries.entries,
      s.storing l = some entry.2.hashHex → ¬s.Deleted entry.1 := by
  constructor
  · intro timely entry member storing
    exact timely _ storing entry.1 entry.2 (AList.mem_lookup_iff.mpr member) rfl
  · rintro all _ storing path ce found rfl
    exact all ⟨path, ce⟩ (AList.mem_lookup_iff.mp found) storing

instance (s : Race) (l : Move) : Decidable (Timely s l) := decidable_of_iff' _ (timely_iff s l)

/-! ### Steps of reads and jobs -/

/-- The table keeps its entries under their hashes and marks none of them. -/
structure Retains (m m' : CacheManager) : Prop where
  gone : ∀ q, m'.gone q = m.gone q
  hash : ∀ q ce, m.entries.lookup q = some ce →
    ∃ ce', m'.entries.lookup q = some ce' ∧ ce'.hashHex = ce.hashHex

theorem Retains.of_same (entries : m'.entries = m.entries) : Retains m m' :=
  ⟨CacheManager.gone_congr entries, fun _ ce found => ⟨ce, entries ▸ found, rfl⟩⟩

theorem Retains.there (retains : Retains m m') {q : Str} (there : (m.entries.lookup q).isSome) :
    (m'.entries.lookup q).isSome := by
  obtain ⟨ce, found⟩ := Option.isSome_iff_exists.mp there
  obtain ⟨ce', found', _⟩ := retains.hash q ce found
  rw [found', Option.isSome_some]

variable (cfg) in
theorem retains_entry (m : CacheManager) (path : Str) : Retains m (m.entry cfg path).1 := by
  have leaves : CacheManager.Leaves (fun _ => False) m (m.entry cfg path).1 :=
    CacheManager.leaves_entry m path
  refine ⟨leaves.gone, fun q ce found => ?_⟩
  by_cases same : q = path
  · subst same
    refine ⟨ce, ?_, rfl⟩
    rw [CacheManager.entry_lookup, CacheManager.entry_snd, found, Option.getD_some]
  · exact ⟨ce, by rw [CacheManager.entry_lookup_other cfg m same, found], rfl⟩

/-- The end of a pass of a read retains the entries if it works on the one in the table. -/
theorem retains_finish {r : Reader} (own : m.entries.lookup r.path = some r.ce)
    (entries : m'.entries = m.entries) (p : Piece) (block : Bytes) :
    Retains m (Machine.finishPass m' r p block).1 := by
  have finished : (Machine.finishPass m' r p block).1.entries =
      m.entries.insert r.path { r.ce with lastBlock := some p.blk } := by
    rw [Machine.finishPass, CacheManager.finish_entries, entries]
  refine ⟨fun q => ?_, fun q ce found => ?_⟩
  -- The pass sets the last block only, whatever the flag is by now.
  · rw [CacheManager.gone, CacheManager.gone, finished]
    by_cases same : q = r.path
    · rw [same, AList.lookup_insert, own]
      rfl
    · rw [AList.lookup_insert_ne same]
  · rw [finished]
    by_cases same : q = r.path
    · rw [same, own] at found
      cases found
      exact ⟨{ r.ce with lastBlock := some p.blk }, by rw [same, AList.lookup_insert], rfl⟩
    · exact ⟨ce, by rw [AList.lookup_insert_ne same, found], rfl⟩

variable (cfg) in
/-- A step of a read leaves the manager alone, or ends a pass, before which it may store the
block that it has fetched. -/
theorem demandStep_cases (env : Env) (m : CacheManager) (r : Reader) :
    (∃ o, Machine.demandStep cfg env m r = (m, o) ∧ (∀ r', o = .ok r' → r'.path = r.path) ∧
      ∀ block got, r.done < r.len → r.phase ≠ .store block got) ∨
    (∃ p block, Machine.demandStep cfg env m r = Machine.finishPass m r p block ∧
      ∀ block got, r.phase ≠ .store block got) ∨
    ∃ p block got, r.done < r.len ∧ r.phase = .store block got ∧
      Machine.demandStep cfg env m r =
        Machine.finishPass (m.store cfg r.ce.hashHex p.blk got) r p block := by
  unfold Machine.demandStep
  by_cases more : r.done < r.len
  · rw [if_pos more]
    cases phase : r.phase with
    | probe =>
      simp only
      split
      · exact .inr (.inl ⟨_, _, rfl, by simp⟩)
      · refine .inl ⟨_, rfl, ?_, by simp⟩
        rintro _ ⟨⟩
        rfl
    | fetch block =>
      simp only
      split
      · exact .inl ⟨_, rfl, by simp, by simp⟩
      · refine .inl ⟨_, rfl, ?_, by simp⟩
        rintro _ ⟨⟩
        rfl
    | store block got => exact .inr (.inr ⟨_, block, got, more, rfl, rfl⟩)
  · rw [if_neg more]
    exact .inl ⟨_, rfl, by simp, fun _ _ more' => absurd more' more⟩

/-! ### The invariant -/

/-- Deleted objects have no data parts, and the paths that a read or an eviction is about have
entries. -/
structure Consistent (cfg : Config) (s : Race) : Prop where
  final : Final cfg s
  reading : ∀ r, s.machine.reader = some r → (s.machine.mgr.entries.lookup r.path).isSome
  popped : ∀ e ∈ s.evictors, ∀ path, e.path? = some path →
    (s.machine.mgr.entries.lookup path).isSome

theorem Deleted.path? {path : Str} (deleted : s.Deleted path) :
    s.machine.mgr.gone path = true ∨ ∃ e ∈ s.evictors, e.path? = some path := by
  rcases deleted with gone | ⟨e, member, rfl | rfl⟩
  · exact .inl gone
  · exact .inr ⟨_, member, rfl⟩
  · exact .inr ⟨_, member, rfl⟩

theorem Consistent.entered (consistent : Consistent cfg s) {path : Str}
    (deleted : s.Deleted path) : ∃ ce, s.machine.mgr.entries.lookup path = some ce := by
  rcases deleted.path? with gone | ⟨e, member, about⟩
  · obtain ⟨ce, found, _⟩ := CacheManager.gone_eq_true.mp gone
    exact ⟨ce, found⟩
  · exact Option.isSome_iff_exists.mp (consistent.popped e member path about)

theorem deleted_congr (gone : ∀ q, s'.machine.mgr.gone q = s.machine.mgr.gone q)
    (evictors : s'.evictors = s.evictors) (path : Str) : s'.Deleted path ↔ s.Deleted path := by
  rw [Deleted, Deleted, gone, evictors]

/-- An object that is deleted after a step that keeps the entries was so before. -/
theorem Consistent.deleted_before (consistent : Consistent cfg s)
    (retains : Retains s.machine.mgr s'.machine.mgr) (evictors : s'.evictors = s.evictors)
    {path : Str} {ce' : CacheEntry} (found' : s'.machine.mgr.entries.lookup path = some ce')
    (deleted' : s'.Deleted path) :
    ∃ ce, s.machine.mgr.entries.lookup path = some ce ∧ ce'.hashHex = ce.hashHex ∧
      s.Deleted path := by
  have deleted := (deleted_congr retains.gone evictors path).mp deleted'
  obtain ⟨ce, found⟩ := consistent.entered deleted
  obtain ⟨_, same, hash⟩ := retains.hash path ce found
  cases found'.symm.trans same
  exact ⟨ce, found, hash, deleted⟩

/-- A step that keeps the entries and the data parts keeps deleted objects without parts. -/
theorem Consistent.same_parts (consistent : Consistent cfg s)
    (retains : Retains s.machine.mgr s'.machine.mgr) (evictors : s'.evictors = s.evictors)
    (parts : ∀ d k, s'.machine.mgr.files (cfg.dataPart d k) =
      s.machine.mgr.files (cfg.dataPart d k)) : Final cfg s' := by
  intro path ce' found' deleted' k
  obtain ⟨ce, found, hash, deleted⟩ := consistent.deleted_before retains evictors found' deleted'
  rw [parts, hash]
  exact consistent.final path ce found deleted k

/-- Storing a block keeps them so if and only if its object has not been deleted. -/
theorem Consistent.store_iff (consistent : Consistent cfg s)
    (retains : Retains s.machine.mgr s'.machine.mgr) (evictors : s'.evictors = s.evictors)
    {d : Digest} {blk : ℕ} {got : Bytes}
    (files : s'.machine.mgr.files = (s.machine.mgr.store cfg d blk got).files) :
    Final cfg s' ↔ ∀ path ce, s.machine.mgr.entries.lookup path = some ce → ce.hashHex = d →
      ¬s.Deleted path := by
  constructor
  -- The part that the block goes to exists afterwards.
  · rintro final path ce found rfl deleted
    obtain ⟨ce', found', hash⟩ := retains.hash path ce found
    have none := final path ce' found' ((deleted_congr retains.gone evictors path).mpr deleted)
      (blk * kBlockSize / FsLayout.kMaxPartSize)
    rw [hash, files] at none
    exact Option.some_ne_none _ ((Files.set_same _ _ _).symm.trans none)
  · intro timely path ce' found' deleted' k
    obtain ⟨ce, found, hash, deleted⟩ :=
      consistent.deleted_before retains evictors found' deleted'
    -- Parts of other objects are other files.
    have other : ce.hashHex ≠ d := fun same => timely path ce found same deleted
    rw [files, hash, CacheManager.store_other]
    · exact consistent.final path ce found deleted k
    · rintro ⟨k', part⟩
      exact other (cfg.dataPart_inj part).1

/-! ### Steps -/

theorem Consistent.call {path : Str} {len off : ℕ} {o : Reply} (consistent : Consistent cfg s)
    (taken : Steps cfg s (.call path len off) o s') : Consistent cfg s' := by
  obtain ⟨⟨machine, _⟩, stepped, same⟩ := Option.map_eq_some_iff.mp taken
  cases same
  have retains := retains_entry cfg s.machine.mgr path
  have entered : ((s.machine.mgr.entry cfg path).1.entries.lookup path).isSome := by
    rw [CacheManager.entry_lookup, Option.isSome_some]
  simp only [Machine.step] at stepped
  split at stepped
  · cases stepped
  next idle =>
    -- Entering the path adds no part; a fresh entry is not marked.
    have final : ∀ reader, Final cfg { s with
        machine := { s.machine with mgr := (s.machine.mgr.entry cfg path).1, reader } } :=
      fun reader => consistent.same_parts retains rfl fun d k => by
        simp only [CacheManager.entry_files]
    have popped : ∀ e ∈ s.evictors, ∀ q, e.path? = some q →
        ((s.machine.mgr.entry cfg path).1.entries.lookup q).isSome :=
      fun e member q about => retains.there (consistent.popped e member q about)
    split at stepped
    · cases stepped
      refine ⟨final _, fun r reading => ?_, popped⟩
      rw [idle] at reading
      cases reading
    · cases stepped
      refine ⟨final _, fun r reading => ?_, popped⟩
      cases reading
      exact entered

theorem Consistent.start {i : ℕ} {o : Reply} (consistent : Consistent cfg s)
    (taken : Steps cfg s (.start i) o s') : Consistent cfg s' := by
  obtain ⟨⟨machine, _⟩, stepped, same⟩ := Option.map_eq_some_iff.mp taken
  cases same
  obtain ⟨job, _, same⟩ := Option.map_eq_some_iff.mp stepped
  cases same
  exact ⟨consistent.same_parts (.of_same rfl) rfl fun _ _ => rfl, consistent.reading,
    consistent.popped⟩

theorem storing_job {j : ℕ} {backend : Backend} {f : Flight} {d : Digest}
    (flying : s.machine.flights[j]? = some f) :
    s.storing (.job j backend) = some d ↔ ∃ got, f.phase = .store got ∧ f.job.ce.hashHex = d := by
  cases phase : f.phase <;> simp [storing, flying, phase]

theorem storing_demand {env : Env} {r : Reader} {d : Digest}
    (reading : s.machine.refresh.reader = some r) :
    s.storing (.demand env) = some d ↔
      r.done < r.len ∧ ∃ block got, r.phase = .store block got ∧ r.ce.hashHex = d := by
  by_cases more : r.done < r.len <;> cases phase : r.phase <;>
    simp [storing, reading, more, phase]

theorem timely_of_idle {l : Move} (idle : ∀ d, s.storing l ≠ some d) : Timely s l :=
  fun d storing => absurd storing (idle d)

theorem steps_job {j : ℕ} {backend : Backend} {o : Reply}
    (taken : Steps cfg s (.job j backend) o s') :
    ∃ f, s.machine.flights[j]? = some f ∧
      s'.machine.mgr = (Machine.jobStep cfg backend s.machine.mgr f).1 ∧
      s'.machine.reader = s.machine.reader ∧ s'.evictors = s.evictors := by
  obtain ⟨⟨machine, _⟩, stepped, same⟩ := Option.map_eq_some_iff.mp taken
  cases same
  obtain ⟨f, flying, same⟩ := Option.map_eq_some_iff.mp stepped
  cases same
  exact ⟨f, flying, rfl, rfl, rfl⟩

theorem steps_demand {env : Env} {o : Reply} (taken : Steps cfg s (.demand env) o s') :
    ∃ r, s.machine.refresh.reader = some r ∧
      s'.machine.mgr = (Machine.demandStep cfg env s.machine.mgr r).1 ∧
      s'.evictors = s.evictors ∧ ∀ r', s'.machine.reader = some r' →
        (Machine.demandStep cfg env s.machine.mgr r).2 = .ok r' := by
  obtain ⟨⟨machine, _⟩, stepped, same⟩ := Option.map_eq_some_iff.mp taken
  cases same
  obtain ⟨r, reading, same⟩ := Option.map_eq_some_iff.mp stepped
  refine ⟨r, reading, ?_⟩
  cases ends : Machine.demandStep cfg env s.machine.mgr r with | mk mgr left =>
  have here : Machine.demandStep cfg env s.machine.refresh.mgr r = (mgr, left) := ends
  rw [here] at same
  cases left with
  | error result =>
    cases same
    exact ⟨rfl, rfl, fun r' none => by cases none⟩
  | ok r' =>
    cases same
    exact ⟨rfl, rfl, fun r'' same => by cases same; rfl⟩

/-- The reader's entry is the one in the table. -/
theorem Consistent.own (consistent : Consistent cfg s) {r : Reader}
    (reading : s.machine.refresh.reader = some r) :
    s.machine.mgr.entries.lookup r.path = some r.ce := by
  obtain ⟨r₀, before, rfl⟩ := Option.map_eq_some_iff.mp reading
  obtain ⟨ce, found⟩ := Option.isSome_iff_exists.mp (consistent.reading r₀ before)
  simp only [found, Option.getD_some]

theorem Consistent.job {j : ℕ} {backend : Backend} {o : Reply} (consistent : Consistent cfg s)
    (taken : Steps cfg s (.job j backend) o s') :
    (Final cfg s' ↔ Timely s (.job j backend)) ∧
      (Timely s (.job j backend) → Consistent cfg s') := by
  obtain ⟨f, flying, mgr, reader, evictors⟩ := steps_job taken
  have retains : Retains s.machine.mgr s'.machine.mgr :=
    .of_same (by rw [mgr]; exact (Machine.jobStep_same cfg backend s.machine.mgr f).1)
  -- Probing and fetching change nothing, and are no stores.
  have quiet : (∀ got, f.phase ≠ .store got) → s'.machine.mgr = s.machine.mgr →
      (Final cfg s' ↔ Timely s (.job j backend)) := by
    intro other same
    refine iff_of_true (consistent.same_parts retains evictors fun d k => by rw [same])
      (timely_of_idle fun d storing => ?_)
    obtain ⟨got, phase, _⟩ := (storing_job flying).mp storing
    exact other got phase
  have iff : Final cfg s' ↔ Timely s (.job j backend) := by
    rcases Machine.jobStep_cases cfg backend s.machine.mgr f with ⟨phase, _, eq⟩ | ⟨phase, _, eq⟩ |
      ⟨phase, _, eq⟩ | ⟨got, phase, _, eq⟩ | ⟨got, phase, eq⟩ <;> rw [eq] at mgr
    · exact quiet (by simp [phase]) mgr
    · exact quiet (by simp [phase]) mgr
    · exact quiet (by simp [phase]) mgr
    · exact quiet (by simp [phase]) mgr
    · -- The job stores under the hash of its own copy of the entry.
      rw [consistent.store_iff retains evictors (d := f.job.ce.hashHex) (congrArg (·.files) mgr)]
      simp only [Timely, storing_job flying, phase, JobPhase.store.injEq, exists_eq_left',
        forall_eq']
  refine ⟨iff, fun timely => ⟨iff.mpr timely, fun r reading => ?_, fun e member path about => ?_⟩⟩
  · exact retains.there (consistent.reading r (reader ▸ reading))
  · exact retains.there (consistent.popped e (evictors ▸ member) path about)

theorem Consistent.demand {env : Env} {o : Reply} (consistent : Consistent cfg s)
    (taken : Steps cfg s (.demand env) o s') :
    (Final cfg s' ↔ Timely s (.demand env)) ∧
      (Timely s (.demand env) → Consistent cfg s') := by
  obtain ⟨r, reading, mgr, evictors, reader⟩ := steps_demand taken
  have own := consistent.own reading
  -- What holds of each kind of step: it retains the entries, its path, and the parts.
  have both : Retains s.machine.mgr s'.machine.mgr ∧
      (∀ r', (Machine.demandStep cfg env s.machine.mgr r).2 = .ok r' → r'.path = r.path) ∧
      (Final cfg s' ↔ Timely s (.demand env)) := by
    rcases demandStep_cases cfg env s.machine.mgr r with ⟨left, eq, path, phase⟩ |
      ⟨p, block, eq, phase⟩ | ⟨p, block, got, more, phase, eq⟩ <;> rw [eq] at mgr ⊢
    · have retains : Retains s.machine.mgr s'.machine.mgr := .of_same (by rw [mgr])
      refine ⟨retains, path, iff_of_true
        (consistent.same_parts retains evictors fun d k => by rw [mgr])
        (timely_of_idle fun d storing => ?_)⟩
      obtain ⟨more, block, got, stores, _⟩ := (storing_demand reading).mp storing
      exact phase block got more stores
    · have retains : Retains s.machine.mgr s'.machine.mgr := by
        rw [mgr]
        exact retains_finish own rfl p block
      refine ⟨retains, ?_, iff_of_true
        (consistent.same_parts retains evictors fun d k => ?_)
        (timely_of_idle fun d storing => ?_)⟩
      · rintro _ ⟨⟩
        rfl
      · rw [mgr, Machine.finishPass, CacheManager.finish_files]
      · obtain ⟨_, block, got, stores, _⟩ := (storing_demand reading).mp storing
        exact phase block got stores
    · have entries : (s.machine.mgr.store cfg r.ce.hashHex p.blk got).entries =
          s.machine.mgr.entries := rfl
      have retains : Retains s.machine.mgr s'.machine.mgr := by
        rw [mgr]
        exact retains_finish own entries p block
      refine ⟨retains, ?_, ?_⟩
      · rintro _ ⟨⟩
        rfl
      · have files : s'.machine.mgr.files =
            (s.machine.mgr.store cfg r.ce.hashHex p.blk got).files := by
          rw [mgr, Machine.finishPass, CacheManager.finish_files]
        rw [consistent.store_iff retains evictors files]
        simp only [Timely, storing_demand reading, more, true_and, phase, ReadPhase.store.injEq,
          exists_and_left, exists_eq_left', and_assoc, forall_eq']
  obtain ⟨retains, path, iff⟩ := both
  refine ⟨iff, fun timely => ⟨iff.mpr timely, fun r' reading' => ?_, fun e member q about => ?_⟩⟩
  · rw [path r' (reader r' reading'), retains.there (by rw [own, Option.isSome_some])]
  · exact retains.there (consistent.popped e (evictors ▸ member) q about)

/-! ### Steps of evictions -/

/-- What a step of an eviction does. -/
theorem evictorStep_cases {m : CacheManager} {above : Bool} {e : Evictor}
    {moved : CacheManager × List Evictor} (taken : evictorStep cfg m above e = some moved) :
    (∃ lru, moved.1 = { m with lru } ∧ (∀ path, e ≠ .flush path ∧ e ≠ .mark path) ∧
      ∀ e' ∈ moved.2, (∀ path, e' ≠ .flush path ∧ e' ≠ .mark path) ∧
        ∀ path, e'.path? = some path → (m.entries.lookup path).isSome) ∨
    ∃ path ce, m.entries.lookup path = some ce ∧
      ((e = .delete path ∧ moved =
        ({ m with files := BlockStore.deleteObject cfg m.files ce.hashHex }, [.flush path])) ∨
      (e = .flush path ∧
        moved = ({ m with files :=
          MetadataStore.flushBitmaps cfg m.files m.bitmap ce.hashHex }, [.mark path])) ∨
      (e = .mark path ∧ moved =
        ({ m with entries := m.entries.insert path { ce with evicted := true } }, [.pop]))) := by
  cases e with
  | pop =>
    refine .inl ?_
    cases above with
    | false =>
      cases taken
      exact ⟨m.lru, rfl, by simp, by simp⟩
    | true =>
      simp only [evictorStep, if_true] at taken
      split at taken
      next lru _ =>
        cases taken
        exact ⟨lru, rfl, by simp, by simp⟩
      next lru key _ =>
        split at taken
        · cases taken
        next path _ =>
          obtain ⟨ce, found, same⟩ := Option.map_eq_some_iff.mp taken
          cases same
          exact ⟨lru, rfl, by simp, by simp [Evictor.path?, found]⟩
  | check path =>
    obtain ⟨ce, found, same⟩ := Option.map_eq_some_iff.mp taken
    cases same
    refine .inl ⟨m.lru, rfl, by simp, ?_⟩
    cases ce.evicted <;> simp [Evictor.path?, found]
  | delete path =>
    obtain ⟨ce, found, same⟩ := Option.map_eq_some_iff.mp taken
    exact .inr ⟨path, ce, found, .inl ⟨rfl, same.symm⟩⟩
  | flush path =>
    obtain ⟨ce, found, same⟩ := Option.map_eq_some_iff.mp taken
    exact .inr ⟨path, ce, found, .inr (.inl ⟨rfl, same.symm⟩)⟩
  | mark path =>
    obtain ⟨ce, found, same⟩ := Option.map_eq_some_iff.mp taken
    exact .inr ⟨path, ce, found, .inr (.inr ⟨rfl, same.symm⟩)⟩

/-- Not interrupted, the steps of a pass do what `evictKey` does. -/
theorem evictor_pass {lru : LruPolicy Key} {key : Key} (result : m.lru.evict = (lru, some key))
    (evicted : CacheManager.evictKey cfg { m with lru } key = some m') :
    Relation.ReflTransGen (fun a b => evictorStep cfg a.1 true a.2 = some (b.1, [b.2]))
      (m, .pop) (m', .pop) := by
  obtain ⟨path, ce, addr, found, effect⟩ := CacheManager.evictKey_cases evicted
  have found : m.entries.lookup path = some ce := found
  have popped : evictorStep cfg m true .pop = some ({ m with lru }, [.check path]) := by
    simp only [evictorStep, if_true, result, addr, found, Option.map_some]
  have step : ∀ m₁ m₂ e e', evictorStep cfg m₁ true e = some (m₂, [e']) →
      Relation.ReflTransGen (fun a b => evictorStep cfg a.1 true a.2 = some (b.1, [b.2]))
        (m₁, e) (m₂, e') := fun _ _ _ _ taken => .single taken
  apply (step _ _ _ _ popped).trans
  rcases effect with ⟨gone, rfl⟩ | ⟨live, rfl⟩
  · exact step _ _ _ _ (by simp [evictorStep, found, gone])
  · let files := BlockStore.deleteObject cfg m.files ce.hashHex
    let flushed := MetadataStore.flushBitmaps cfg files m.bitmap ce.hashHex
    have check := step { m with lru } { m with lru } (.check path) (.delete path)
      (by simp [evictorStep, found, live])
    have delete := step { m with lru } { m with lru, files } (.delete path) (.flush path)
      (by simp [evictorStep, found, files])
    have flush := step { m with lru, files } { m with lru, files := flushed } (.flush path)
      (.mark path) (by simp [evictorStep, found, flushed])
    exact ((check.trans delete).trans flush).trans
      (step _ _ _ _ (by simp [evictorStep, found, flushed, files]))

/-- An eviction may move on if the objects that it turns into deleted ones have no data parts. -/
theorem Consistent.moved (consistent : Consistent cfg s) (j : ℕ) {m' : CacheManager}
    {rest : List Evictor}
    (entries : ∀ q, (m'.entries.lookup q).map (·.hashHex) =
      (s.machine.mgr.entries.lookup q).map (·.hashHex))
    (parts : ∀ d k, s.machine.mgr.files (cfg.dataPart d k) = none →
      m'.files (cfg.dataPart d k) = none)
    (deletes : ∀ q ce, s.machine.mgr.entries.lookup q = some ce →
      (m'.gone q = true ∨ ∃ e ∈ rest, e = .flush q ∨ e = .mark q) →
        s.Deleted q ∨ ∀ k, m'.files (cfg.dataPart ce.hashHex k) = none)
    (popped : ∀ e ∈ rest, ∀ q, e.path? = some q → (s.machine.mgr.entries.lookup q).isSome) :
    Consistent cfg ⟨{ s.machine with mgr := m' },
      s.evictors.take j ++ rest ++ s.evictors.drop (j + 1)⟩ := by
  have there : ∀ q, (s.machine.mgr.entries.lookup q).isSome → (m'.entries.lookup q).isSome := by
    intro q there
    rw [← Option.isSome_map, entries, Option.isSome_map]
    exact there
  refine ⟨fun path ce' found' deleted' k => ?_,
    fun r reading => there _ (consistent.reading r reading), fun e member q about => there q ?_⟩
  · have same := entries path
    rw [found', Option.map_some] at same
    obtain ⟨ce, found, hash⟩ := Option.map_eq_some_iff.mp same.symm
    -- An eviction that was past its deletion stays so; this one is covered by `deletes`.
    have before : s.Deleted path ∨ ∀ k, m'.files (cfg.dataPart ce.hashHex k) = none := by
      rcases deleted' with gone | ⟨e, member, past⟩
      · exact deletes path ce found (.inl gone)
      · rcases Machine.mem_moved member with old | new
        · exact .inl (.inr ⟨e, old, past⟩)
        · exact deletes path ce found (.inr ⟨e, new, past⟩)
    rw [← hash]
    exact before.elim (fun deleted => parts _ _ (consistent.final path ce found deleted k)) (· k)
  · rcases Machine.mem_moved member with old | new
    · exact consistent.popped e old q about
    · exact popped e new q about

theorem Consistent.evictor {j : ℕ} {above : Bool} {o : Reply} (consistent : Consistent cfg s)
    (taken : Steps cfg s (.evictor j above) o s') : Consistent cfg s' := by
  obtain ⟨e, here, taken⟩ := Option.bind_eq_some_iff.mp taken
  obtain ⟨⟨m', rest⟩, moves, same⟩ := Option.map_eq_some_iff.mp taken
  cases same
  have running := List.mem_of_getElem? here
  rcases evictorStep_cases moves with ⟨lru, rfl, _, idle⟩ | ⟨path, ce, found, moved⟩
  -- Popping and testing delete nothing.
  · refine consistent.moved j (fun _ => rfl) (fun _ _ => id) (fun q ce _ deleted => .inl ?_)
      fun e member => (idle e member).2
    rcases deleted with gone | ⟨e, member, past | past⟩
    · exact .inl gone
    · exact absurd past ((idle e member).1 q).1
    · exact absurd past ((idle e member).1 q).2
  · have about : ∀ e' ∈ rest, ∀ q, e'.path? = some q → q = path := by
      rcases moved with ⟨_, eq⟩ | ⟨_, eq⟩ | ⟨_, eq⟩ <;> cases eq <;>
        simp [Evictor.path?, eq_comm]
    have popped : ∀ e' ∈ rest, ∀ q, e'.path? = some q →
        (s.machine.mgr.entries.lookup q).isSome := by
      intro e' member q same
      rw [about e' member q same, found, Option.isSome_some]
    -- The deletion clears the parts; flushing and marking find them cleared.
    rcases moved with ⟨rfl, eq⟩ | ⟨rfl, eq⟩ | ⟨rfl, eq⟩ <;> cases eq
    · refine consistent.moved j (fun _ => rfl) (fun d k none => ?_) (fun q ce' found' deleted => ?_)
        popped
      · simp only [BlockStore.deleteObject, none, ite_self]
      · rcases deleted with gone | ⟨e, member, past⟩
        · exact .inl (.inl gone)
        · have same : q = path := by
            rcases past with rfl | rfl <;> exact about _ member q rfl
          subst same
          cases found.symm.trans found'
          exact .inr fun k => CacheManager.deleteObject_dataPart _ _ k
    · refine consistent.moved j (fun _ => rfl) (fun d k none => ?_) (fun q ce' found' deleted => ?_)
        popped
      · exact (MetadataStore.flushBitmaps_other cfg _ _ _ fun i same =>
          cfg.bitmap_ne_dataPart _ _ _ _ same.symm).trans none
      · rcases deleted with gone | ⟨e, member, past⟩
        · exact .inl (.inl gone)
        · have same : q = path := by
            rcases past with rfl | rfl <;> exact about _ member q rfl
          exact .inl (.inr ⟨_, running, .inl (same ▸ rfl)⟩)
    · refine consistent.moved j (fun q => ?_) (fun _ _ => id) (fun q ce' found' deleted => .inl ?_)
        popped
      · by_cases same : q = path
        · rw [same, AList.lookup_insert, found]
          rfl
        · rw [AList.lookup_insert_ne same]
      · by_cases same : q = path
        · exact .inr ⟨_, running, .inr (same ▸ rfl)⟩
        · rcases deleted with gone | ⟨e, member, past⟩
          · rw [CacheManager.gone, AList.lookup_insert_ne same] at gone
            exact .inl gone
          · rcases past with rfl | rfl <;> exact absurd (about _ member q rfl) same

/-! ### Runs -/

theorem Consistent.step {l : Move} {o : Reply} (consistent : Consistent cfg s)
    (taken : Steps cfg s l o s') :
    (Final cfg s' ↔ Timely s l) ∧ (Timely s l → Consistent cfg s') := by
  have quiet : Consistent cfg s' → Timely s l →
      (Final cfg s' ↔ Timely s l) ∧ (Timely s l → Consistent cfg s') :=
    fun after timely => ⟨iff_of_true after.final timely, fun _ => after⟩
  cases l with
  | call => exact quiet (consistent.call taken) (timely_of_idle (by simp [storing]))
  | demand => exact consistent.demand taken
  | start => exact quiet (consistent.start taken) (timely_of_idle (by simp [storing]))
  | job => exact consistent.job taken
  | evict =>
    refine quiet ?_ (timely_of_idle (by simp [storing]))
    cases taken
    refine ⟨fun path ce found deleted => consistent.final path ce found ?_, consistent.reading,
      fun e member => ?_⟩
    · rcases deleted with gone | ⟨e, member, past⟩
      · exact .inl gone
      · rcases List.mem_append.mp member with old | new
        · exact .inr ⟨e, old, past⟩
        · rw [List.mem_singleton.mp new] at past
          rcases past with absurd | absurd <;> cases absurd
    · rcases List.mem_append.mp member with old | new
      · exact consistent.popped e old
      · rw [List.mem_singleton.mp new]
        rintro q ⟨⟩
  | evictor => exact quiet (consistent.evictor taken) (timely_of_idle (by simp [storing]))

/-- In every interleaving of reads, prefetch jobs and evictions none of whose steps stores a block
of a deleted object, an entry that is marked as evicted has no data part; the first step that does
store one gives a deleted object a data part. -/
theorem eviction_final (cfg : Config) (files : Files) (history : List (Move × Reply)) (s : Race)
    (run : Run (fun s l o s' => Steps cfg s l o s' ∧ Timely s l) (new files) history s) :
    (∀ path ce, s.machine.mgr.entries.lookup path = some ce → ce.evicted = true →
      ∀ k, s.machine.mgr.files (cfg.dataPart ce.hashHex k) = none) ∧
    ∀ l o s', Steps cfg s l o s' → (Final cfg s' ↔ Timely s l) := by
  have consistent : Consistent cfg s := by
    induction run with
    | refl =>
      refine ⟨fun path ce found => ?_, fun r reading => ?_, fun e member => ?_⟩
      · cases found
      · cases reading
      · cases member
    | next before taken consistent => exact (consistent.step taken.1).2 taken.2
  exact ⟨fun path ce found evicted => consistent.final path ce found
    (.inl (CacheManager.gone_eq_true.mpr ⟨ce, found, evicted⟩)),
    fun l o s' taken => (consistent.step taken).1⟩

/-- A read of the first block of a file, step by step. -/
private def readFirst : List Move :=
  [.call ['/', 'f'] 1 0, .demand (.serving threeBlocks), .demand (.serving threeBlocks),
    .demand (.serving threeBlocks), .demand (.serving threeBlocks)]

/-- An eviction of one entry. -/
private def evictOne : List Move :=
  [.evict, .evictor 0 true, .evictor 0 true, .evictor 0 true, .evictor 0 true, .evictor 0 true,
    .evictor 0 false]

theorem eviction_final_read :
    ∃ s history, exec (fun s l => if Timely s l then step .sample s l else none)
        (new fun _ => none) (readFirst ++ evictOne) = some (s, history) ∧
      (∀ path ce, s.machine.mgr.entries.lookup path = some ce → ce.evicted = true →
        ∀ k, s.machine.mgr.files (Config.sample.dataPart ce.hashHex k) = none) ∧
      ∀ l o s', Steps .sample s l o s' → (Final .sample s' ↔ Timely s l) := by
  have ends : (exec (fun s l => if Timely s l then step .sample s l else none)
      (new fun _ => none) (readFirst ++ evictOne)).isSome = true := by
    decide +kernel
  obtain ⟨⟨s, history⟩, done⟩ := Option.isSome_iff_exists.mp ends
  refine ⟨s, history, done, eviction_final .sample (fun _ => none) history s
    ((Run.of_exec done).mono fun s l o s' taken => ?_)⟩
  obtain ⟨timely, taken⟩ := Option.ite_none_right_eq_some.mp taken
  exact ⟨taken, timely⟩

private theorem part_returns :
    ((exec (step .sample) (new fun _ => none)
        (readFirst ++ [.call ['/', 'f'] 1 kBlockSize, .demand (.serving threeBlocks),
          .demand (.serving threeBlocks)] ++ evictOne ++
          [.demand (.serving threeBlocks), .demand (.serving threeBlocks)])).map fun reached =>
      (reached.1.machine.reader.isNone && reached.1.machine.flights.isEmpty &&
          reached.1.evictors.isEmpty,
        (reached.1.machine.mgr.entries.lookup ['/', 'f']).map fun ce => (ce.evicted, ce.hashHex),
        (reached.1.machine.mgr.files
          (Config.sample.dataPart (Config.sample.hashHex ['/', 'f']) 0)).isSome)) =
      some (true, some (true, Config.sample.hashHex ['/', 'f']), true) := by
  decide +kernel

/-- A read has fetched a block when an eviction takes its entry, and stores it afterwards. -/
theorem part_after_eviction :
    ¬∀ (history : List (Move × Reply)) (s : Race),
      Run (Steps .sample) (new fun _ => none) history s →
      s.machine.reader.isNone = true → s.machine.flights = [] → s.evictors = [] →
      ∀ path ce, s.machine.mgr.entries.lookup path = some ce → ce.evicted = true →
        ∀ k, s.machine.mgr.files (Config.sample.dataPart ce.hashHex k) = none := by
  intro all
  obtain ⟨⟨s, history⟩, done, ends⟩ := Option.map_eq_some_iff.mp part_returns
  simp only [Prod.mk.injEq, Bool.and_eq_true, List.isEmpty_iff] at ends
  obtain ⟨⟨⟨idle, landed⟩, returned⟩, marked, there⟩ := ends
  obtain ⟨ce, found, same⟩ := Option.map_eq_some_iff.mp marked
  obtain ⟨gone, hash⟩ := Prod.mk.inj same
  have none := all history s (Run.of_exec done) idle landed returned ['/', 'f'] ce found gone 0
  rw [hash] at none
  rw [none] at there
  cases there

end Race

end RemoteCache
