import RemoteCache.Cache.Contents
import RemoteCache.Cache.Eviction

/-!
# The keys in the policy

Reads and writes touch the keys of the blocks they visit, under the address of
the entry in the table. A prefetch job touches the blocks it stores under the
address of the copy it has captured, which dies with the task. So the keys name
entries, each with the hotness of its latest access, exactly as long as the jobs
that run store nothing.
-/
namespace RemoteCache

/-- The hotness that an event gives to a block of a path. -/
def accessed (event : Event × Output) (path : Str) (blk : ℕ) : Option Hotness :=
  match event with
  | (.read _ name _ off, .read r) =>
    if name = path ∧ blk ∈ blocksOf off r.count.toNat then some .one else none
  | (.write name _ off, .wrote count) =>
    if name = path ∧ blk ∈ blocksOf off count.toNat then some .one else none
  | (.prefetch _ _, .prefetched job blks) =>
    if job.ce.path = path ∧ blk ∈ blks then some .quarter else none
  | _ => none

/-- The hotness that the latest access in a run gave to a block. -/
def latestAccess (trace : Trace) (path : Str) (blk : ℕ) : Option Hotness :=
  trace.foldl (fun last event => (accessed event path blk).or last) none

theorem latestAccess_concat (trace : Trace) (event : Event × Output) (path : Str) (blk : ℕ) :
    latestAccess (trace ++ [event]) path blk =
      (accessed event path blk).or (latestAccess trace path blk) := by
  simp [latestAccess]

theorem RecencyList.mem_note {κ : Type} [DecidableEq κ] {capacity : ℕ} {l : List (Node κ)}
    {n a : Node κ} (member : a ∈ note capacity l n) : a = n ∨ a ∈ l := by
  rcases List.mem_cons.mp member with new | old
  · exact .inl new
  · split at old
    · exact .inr (List.mem_of_mem_filter ((popWorst_sublist _).subset old))
    · exact .inr (List.mem_of_mem_filter old)

namespace CacheManager

variable {cfg : Config} {m m' : CacheManager} {path : Str} {blks : List ℕ}

/-! ### Calls -/

/-- What a call does to the policy and the table when it visits some blocks of a path. -/
structure Visits (path : Str) (blks : List ℕ) (m m' : CacheManager) : Prop where
  linked : m'.lru.Linked
  nodes : ∀ n ∈ m'.lru.nodes,
    n ∈ m.lru.nodes ∨ ∃ blk ∈ blks, n = ⟨⟨.entry path, blk⟩, kBlockSize, .one⟩
  entered : ∀ q, (m.entries.lookup q).isSome ∨ q = path → (m'.entries.lookup q).isSome

theorem Visits.entry (linked : m.lru.Linked) (path : Str) :
    Visits path blks m (m.entry cfg path).1 := by
  refine ⟨by rwa [entry_lru], fun n member => .inl (by rwa [entry_lru] at member),
    fun q there => ?_⟩
  by_cases same : q = path
  · rw [same, entry_lookup, Option.isSome_some]
  · rw [entry_lookup_other cfg m same]
    exact there.resolve_right same

theorem Visits.mono {blks' : List ℕ} (visits : Visits path blks m m') (more : blks ⊆ blks') :
    Visits path blks' m m' :=
  ⟨visits.linked, fun n member => (visits.nodes n member).imp_right
    fun ⟨blk, visited, same⟩ => ⟨blk, more visited, same⟩, visits.entered⟩

theorem Visits.touch {m'' : CacheManager} (visits : Visits path blks m m') {blk : ℕ}
    (visited : blk ∈ blks) (lru : m''.lru = m'.lru.touch ⟨.entry path, blk⟩ kBlockSize .one)
    (entries : ∀ q, (m'.entries.lookup q).isSome → (m''.entries.lookup q).isSome) :
    Visits path blks m m'' := by
  refine ⟨lru ▸ visits.linked.touch _ _ _, fun n member => ?_,
    fun q there => entries q (visits.entered q there)⟩
  rw [lru, visits.linked.nodes_touch] at member
  rcases RecencyList.mem_note member with new | old
  · exact .inr ⟨blk, visited, new⟩
  · exact visits.nodes n old

private theorem piece_visited {off len done : ℕ} (more : done < len) {p : Piece}
    (piece : pieceAt off len done = p) :
    blocksOf off done ⊆ blocksOf off (done + p.want) ∧ p.blk ∈ blocksOf off (done + p.want) := by
  obtain ⟨place, forward, fits, _⟩ := pieceAt_spec off more piece
  refine ⟨fun c member => ?_, ?_⟩
  · rw [mem_blocksOf] at member ⊢
    unfold kBlockSize at *
    omega
  · rw [mem_blocksOf]
    unfold kBlockSize at *
    omega

theorem read_visits (linked : m.lru.Linked) (env : Env) (path : Str) (len off : ℕ) :
    Visits path (blocksOf off (m.read cfg env path len off).2.count.toNat) m
      (m.read cfg env path len off).1 := by
  by_cases gone : (m.entry cfg path).2.evicted = true
  · rw [read_evicted cfg gone]
    exact .entry linked path
  · refine read_rule cfg (fun s => Visits path (blocksOf off s.done) m s.mgr)
      (fun m' r => Visits path (blocksOf off r.count.toNat) m m') (by simpa using gone)
      (.entry linked path) ?_ ?_ ?_
    · intro s p block mgr visits more piece ready
      obtain ⟨entries, _, lru⟩ := ready.same
      obtain ⟨grows, visited⟩ := piece_visited more piece
      refine (visits.mono grows).touch visited (by rw [finish_lru, lru]) fun q there => ?_
      rw [finish_entries]
      by_cases same : q = path
      · rw [same, AList.lookup_insert, Option.isSome_some]
      · rwa [AList.lookup_insert_ne same, entries]
    · intro s p visits _ _ _ _
      by_cases first : s.done = 0
      · simpa [first] using visits
      · simpa [first] using visits
    · intro s visits _
      exact visits

theorem write_visits (linked : m.lru.Linked) (path : Str) (data : Bytes) (off : ℕ) :
    Visits path (blocksOf off (m.write cfg succeed path data off).2.toNat) m
      (m.write cfg succeed path data off).1 := by
  by_cases gone : (m.entry cfg path).2.evicted = true
  · rw [write_evicted cfg gone]
    exact .entry linked path
  · have ends : Visits path (blocksOf off data.size) m (m.write cfg succeed path data off).1 ∧
        (m.write cfg succeed path data off).2 = data.size :=
      write_rule cfg (fun s => Visits path (blocksOf off s.done) m s.mgr)
        (by simpa using gone) (.entry linked path) fun s p visits more piece => by
          obtain ⟨grows, visited⟩ := piece_visited more piece
          exact (visits.mono grows).touch visited rfl fun _ => id
    rw [ends.2]
    exact ends.1

/-! ### Prefetch jobs -/

/-- A job that finds each of its blocks whole in the store or gets nothing from the backend. -/
def Idle (cfg : Config) (backend : Backend) (job : Job) (m : CacheManager) : Prop :=
  ∀ i < PREFETCH_WINDOW, (m.blocks cfg).Full kBlockSize job.ce.hashHex (job.firstBlk + i) ∨
    received (backend.readRange job.ce.path kBlockSize ((job.firstBlk + i) * kBlockSize)) = none

theorem runJob_idle {backend : Backend} {job : Job} (idle : Idle cfg backend job m) :
    runJob cfg backend m job = (m, []) := by
  refine runJob_rule cfg (fun _ s => s = (m, [])) backend job rfl fun i s small same => ?_
  rcases prefetchPass_cases cfg backend job s i with ⟨_, eq⟩ | ⟨got, miss, reply, _⟩
  · rw [eq, same]
  · rw [same] at miss
    rcases idle i small with full | silent
    · exact absurd full miss
    · rw [silent] at reply
      cases reply

theorem runJob_linked (linked : m.lru.Linked) (backend : Backend) (job : Job) :
    (runJob cfg backend m job).1.lru.Linked := by
  refine runJob_rule cfg (fun _ s => s.1.lru.Linked) backend job linked fun i s _ linked => ?_
  rcases prefetchPass_cases cfg backend job s i with ⟨_, eq⟩ | ⟨got, _, _, eq⟩
  · rwa [eq]
  · rw [eq]
    exact linked.touch _ _ _

/-- A job that stores a block leaves a key with the address of its captured copy. -/
theorem runJob_busy (linked : m.lru.Linked) {backend : Backend} {job : Job}
    (busy : ¬Idle cfg backend job m) :
    ∃ n ∈ (runJob cfg backend m job).1.lru.nodes, n.id.addr = .task job.id := by
  -- Up to the first block it stores the job has found only what `Idle` allows.
  have ends := runJob_rule cfg
    (fun i s => s.1.lru.Linked ∧ ((s.1 = m ∧ ∀ j < i,
        (m.blocks cfg).Full kBlockSize job.ce.hashHex (job.firstBlk + j) ∨
        received (backend.readRange job.ce.path kBlockSize ((job.firstBlk + j) * kBlockSize)) =
          none) ∨
      ∃ n ∈ s.1.lru.nodes, n.id.addr = .task job.id))
    backend job ⟨linked, .inl ⟨rfl, by simp⟩⟩ ?_
  · rcases ends.2 with ⟨_, idle⟩ | left
    · exact absurd idle busy
    · exact left
  · rintro i s _ ⟨linked, state⟩
    rcases prefetchPass_cases cfg backend job s i with ⟨why, eq⟩ | ⟨got, _, _, eq⟩
    · rw [eq]
      refine ⟨linked, state.imp_left ?_⟩
      rintro ⟨rfl, idle⟩
      refine ⟨rfl, fun j small => ?_⟩
      rcases Nat.lt_succ_iff_lt_or_eq.mp small with earlier | rfl
      · exact idle j earlier
      · exact why
    · rw [eq]
      refine ⟨linked.touch _ _ _,
        .inr ⟨⟨⟨.task job.id, job.firstBlk + i⟩, kBlockSize, .quarter⟩, ?_, rfl⟩⟩
      have nodes := linked.nodes_touch ⟨.task job.id, job.firstBlk + i⟩ kBlockSize .quarter
      simp only [touch, store]
      rw [nodes]
      exact List.mem_cons_self

/-! ### Runs -/

theorem run_linked {files : Files} {trace : Trace} (run : Run (Steps cfg) (new files) trace m) :
    m.lru.Linked := by
  induction run with
  | refl => exact LruPolicy.linked_new _
  | @next m m' trace e o before taken linked =>
    cases e with
    | read env path len off =>
      cases taken
      exact (read_visits linked env path len off).linked
    | write path data off =>
      cases taken
      exact (write_visits linked path data off).linked
    | prefetch backend i =>
      obtain ⟨job, _, same⟩ := Option.map_eq_some_iff.mp taken
      cases same
      exact runJob_linked (m := { m with tasks := m.tasks.eraseIdx i }) linked backend job
    | evict used freeGb =>
      obtain ⟨m', returned, same⟩ := Option.map_eq_some_iff.mp taken
      cases same
      exact (evictUntilGb_evicts linked returned).2.1

/-! ### Keys and entries -/

/-- Every key names an entry of the table, there is at most one node for a block, and its
hotness is that of the latest access. -/
structure WellKeyed (trace : Trace) (m : CacheManager) : Prop where
  named : ∀ n ∈ m.lru.nodes, ∃ path, n.id.addr = .entry path ∧ (m.entries.lookup path).isSome
  once : ∀ path blk, (m.lru.nodes.filter (·.id = ⟨.entry path, blk⟩)).length ≤ 1
  hotness : ∀ n ∈ m.lru.nodes, ∀ path, n.id.addr = .entry path →
    latestAccess trace path n.id.blk = some n.hotness

/-- The event is not a prefetch job that stores something. -/
def Harmless (cfg : Config) (m : CacheManager) : Event → Prop
  | .prefetch backend i => ∀ job, m.tasks[i]? = some job → Idle cfg backend job m
  | _ => True

/-- All nodes come from demand accesses, the latest ones to their blocks. -/
structure Demanded (trace : Trace) (m : CacheManager) : Prop where
  linked : m.lru.Linked
  nodes : ∀ n ∈ m.lru.nodes, ∃ path blk, n = ⟨⟨.entry path, blk⟩, kBlockSize, .one⟩ ∧
    (m.entries.lookup path).isSome ∧ latestAccess trace path blk = some .one

private theorem node_once {l : List (Node Key)} (ids : (l.map (·.id)).Nodup) (key : Key) :
    (l.filter (·.id = key)).length ≤ 1 := by
  have count := List.nodup_iff_count_le_one.mp ids key
  rwa [List.count, List.countP_map, List.countP_eq_length_filter] at count

theorem Demanded.wellKeyed {trace : Trace} (demanded : Demanded trace m) : WellKeyed trace m := by
  refine ⟨fun n member => ?_, fun path blk => node_once ?_ _, fun n member path addr => ?_⟩
  · obtain ⟨path, blk, rfl, there, _⟩ := demanded.nodes n member
    exact ⟨path, rfl, there⟩
  · exact demanded.linked.distinct
  · obtain ⟨path, blk, rfl, _, latest⟩ := demanded.nodes n member
    cases addr
    exact latest

/-- A demand access leaves nodes of demand accesses. -/
theorem Demanded.visits {trace : Trace} (demanded : Demanded trace m) {event : Event × Output}
    (visits : Visits path blks m m') (access : ∀ q blk, accessed event q blk =
      if path = q ∧ blk ∈ blks then some .one else none) : Demanded (trace ++ [event]) m' := by
  refine ⟨visits.linked, fun n member => ?_⟩
  rcases visits.nodes n member with old | ⟨blk, visited, new⟩
  · obtain ⟨q, blk, rfl, there, latest⟩ := demanded.nodes n old
    refine ⟨q, blk, rfl, visits.entered q (.inl there), ?_⟩
    -- An older node keeps its hotness: a visit gives the same one again.
    rw [latestAccess_concat, access, latest]
    split <;> rfl
  · refine ⟨path, blk, new, visits.entered path (.inr rfl), ?_⟩
    rw [latestAccess_concat, access, if_pos ⟨rfl, visited⟩, Option.some_or]

/-- Losing nodes and marking entries keeps what is left. -/
theorem Demanded.fewer {trace : Trace} (demanded : Demanded trace m) {event : Event × Output}
    (linked : m'.lru.Linked) (nodes : m'.lru.nodes ⊆ m.lru.nodes)
    (entered : ∀ q, (m.entries.lookup q).isSome → (m'.entries.lookup q).isSome)
    (access : ∀ q blk, accessed event q blk = none) : Demanded (trace ++ [event]) m' := by
  refine ⟨linked, fun n member => ?_⟩
  obtain ⟨q, blk, same, there, latest⟩ := demanded.nodes n (nodes member)
  exact ⟨q, blk, same, entered q there, by rw [latestAccess_concat, access, latest, Option.none_or]⟩

theorem Demanded.step {trace : Trace} (demanded : Demanded trace m) {e : Event} {o : Output}
    (taken : Steps cfg m e o m') (harmless : Harmless cfg m e) :
    Demanded (trace ++ [(e, o)]) m' := by
  cases e with
  | read env path len off =>
    cases taken
    exact demanded.visits (read_visits demanded.linked env path len off) fun _ _ => rfl
  | write path data off =>
    cases taken
    exact demanded.visits (write_visits demanded.linked path data off) fun _ _ => rfl
  | prefetch backend i =>
    obtain ⟨job, queued, same⟩ := Option.map_eq_some_iff.mp taken
    -- A harmless job has stored nothing, so it reports no blocks.
    have idle : runJob cfg backend { m with tasks := m.tasks.eraseIdx i } job = (_, []) :=
      runJob_idle (harmless job queued)
    simp only [prefetch, idle] at same
    cases same
    exact demanded.fewer demanded.linked (List.Subset.refl _) (fun _ => id) fun q blk => by
      simp [accessed]
  | evict used freeGb =>
    obtain ⟨m', returned, same⟩ := Option.map_eq_some_iff.mp taken
    cases same
    obtain ⟨evicts, linked, sub⟩ := evictUntilGb_evicts demanded.linked returned
    refine demanded.fewer linked sub.subset (fun q there => ?_) fun _ _ => rfl
    rwa [evicts.entries, Option.isSome_map]

/-- As long as no prefetch job stores anything, every key names a live entry once, with the
hotness of the latest access; the first job that does breaks this. -/
theorem keys_name_entries (cfg : Config) (files : Files) (trace : Trace) (m : CacheManager)
    (run : Run (fun m e o m' => Steps cfg m e o m' ∧ Harmless cfg m e) (new files) trace m) :
    WellKeyed trace m ∧
      ∀ e o m', Steps cfg m e o m' → (WellKeyed (trace ++ [(e, o)]) m' ↔ Harmless cfg m e) := by
  have demanded : Demanded trace m :=
    run.invariant ⟨LruPolicy.linked_new _, by simp [new, LruPolicy.new, LruPolicy.nodes]⟩
      fun _ demanded taken => demanded.step taken.1 taken.2
  refine ⟨demanded.wellKeyed, fun e o m' taken =>
    ⟨fun keyed => ?_, fun harmless => (demanded.step taken harmless).wellKeyed⟩⟩
  cases e with
  | prefetch backend i =>
    intro job queued
    by_contra busy
    simp only [Steps, CacheManager.step, queued, Option.map_some, Option.some.injEq,
      Prod.mk.injEq] at taken
    obtain ⟨rfl, rfl⟩ := taken
    -- The key it leaves behind has the address of its own copy, which is no entry.
    obtain ⟨n, member, addr⟩ :=
      runJob_busy (m := { m with tasks := m.tasks.eraseIdx i }) demanded.linked busy
    obtain ⟨path, named, _⟩ := keyed.named n member
    rw [addr] at named
    cases named
  | _ => trivial

theorem keys_name_entries_two :
    let first := (new fun _ => none).read .sample (.serving threeBlocks) ['/', 'f'] 1 0
    let second := first.1.read .sample (.serving threeBlocks) ['/', 'f'] 1 kBlockSize
    let trace : Trace := [(.read (.serving threeBlocks) ['/', 'f'] 1 0, .read first.2),
      (.read (.serving threeBlocks) ['/', 'f'] 1 kBlockSize, .read second.2)]
    WellKeyed trace second.1 ∧ ∀ e o m', Steps .sample second.1 e o m' →
      (WellKeyed (trace ++ [(e, o)]) m' ↔ Harmless .sample second.1 e) :=
  keys_name_entries .sample (fun _ => none) _ _
    (.next (.next (.refl _) ⟨steps_read .sample _ (.serving threeBlocks) ['/', 'f'] 1 0, trivial⟩)
      ⟨steps_read .sample _ (.serving threeBlocks) ['/', 'f'] 1 kBlockSize, trivial⟩)

private theorem dead_key :
    ((exec (step .sample) (new fun _ => none)
      [.read (.serving threeBlocks) ['/', 'f'] 1 0,
        .read (.serving threeBlocks) ['/', 'f'] 1 kBlockSize,
        .prefetch (.serving threeBlocks) 0]).map fun reached =>
      (reached.1.lru.nodes.map (·.id.addr)).head?) = some (some (.task 0)) := by
  decide +kernel

/-- Two sequential reads queue a job, which fetches the third block of the file. -/
theorem key_of_dead_copy :
    ¬∀ (trace : Trace) (m : CacheManager),
      Run (Steps .sample) (new fun _ => none) trace m → WellKeyed trace m := by
  intro all
  obtain ⟨⟨m, trace⟩, done, dead⟩ := Option.map_eq_some_iff.mp dead_key
  obtain ⟨n, member, addr⟩ := List.mem_map.mp (List.mem_of_mem_head? dead)
  obtain ⟨path, named, _⟩ := (all trace m (Run.of_exec done)).named n member
  rw [addr] at named
  cases named

end CacheManager

end RemoteCache
