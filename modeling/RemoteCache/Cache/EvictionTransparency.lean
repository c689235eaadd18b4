import RemoteCache.Cache.LruKeys
import RemoteCache.Cache.Shown

/-!
# Reads before and after an eviction

What a read returns depends on the entry and on what a pass shows of each block:
the stored block, if it is whole, else what the backend or the copy gives. An
eviction leaves both alone, except for the entries whose keys it pops and for
entries with the same hash as one of these; and an entry that has been evicted
is refused from then on.
-/
namespace RemoteCache

namespace CacheManager

variable (cfg : Config) (env : Env)

/-- A block of a path as the backend or the copy gives it, in an otherwise bare buffer. -/
def refetched (m : CacheManager) (path : Str) (blk : ℕ) : Option Bytes :=
  (fetch cfg env.backend m.files path blk).map fun got =>
    (Blob.ofFn kBlockSize (env.stack blk)).write got 0

variable {cfg env} {m m' : CacheManager} {path : Str} {d : Digest} {len off blk : ℕ}

/-- A write is refused exactly if the entry has been evicted. -/
theorem write_accepted (answers : ℕ → Answer × Answer) (data : Bytes) (off : ℕ) :
    0 ≤ (m.write cfg answers path data off).2 ↔ (m.entry cfg path).2.evicted = false := by
  by_cases gone : (m.entry cfg path).2.evicted = true
  · simp [write_evicted cfg gone, gone, ENOENT]
  · simp only [write, gone, Bool.false_eq_true, if_false, iff_true]
    split
    exact Int.natCast_nonneg _

/-! ### Evictions -/

/-- The entry belongs to the path, under its hash. -/
def Keyed (cfg : Config) (path : Str) (ce : CacheEntry) : Prop :=
  ce.path = path ∧ ce.hashHex = cfg.hashHex path

theorem settled_keyed (path : Str) : Settled cfg (Keyed cfg) path :=
  ⟨⟨rfl, rfl⟩, fun _ _ keyed => keyed⟩

theorem EachEntry.evict {P : Str → CacheEntry → Prop} {keys : List Key} (each : EachEntry P m)
    (marked : ∀ path ce gone, P path ce → P path { ce with evicted := gone })
    (evicts : Evicts cfg keys m m') : EachEntry P m' := by
  refine ⟨fun path ce' found => ?_, evicts.tasks ▸ each.captured⟩
  obtain ⟨ce, earlier, rfl⟩ := evicts.lookup found
  exact marked path ce _ (each.table path ce earlier)

theorem run_keyed {files : Files} {trace : Trace} (run : Run (Steps cfg) (new files) trace m) :
    EachEntry (Keyed cfg) m := by
  induction run with
  | refl => exact each_new _ files
  | @next m m' trace e o before taken each =>
    cases e with
    | read env path len off =>
      cases taken
      exact each.read cfg (settled_keyed path) env len off
    | write path data off =>
      cases taken
      exact each.write cfg (settled_keyed path) data off
    | prefetch backend i =>
      obtain ⟨job, _, same⟩ := Option.map_eq_some_iff.mp taken
      cases same
      exact each.prefetch cfg backend i job
    | evict used freeGb =>
      obtain ⟨m', returned, same⟩ := Option.map_eq_some_iff.mp taken
      cases same
      exact each.evict (fun _ _ _ keyed => keyed)
        (evictUntilGb_evicts (run_linked before) returned).1

section evicts

variable {keys : List Key} (evicts : Evicts cfg keys m m')

include evicts

theorem Evicts.entry_gone (gone : (m.entry cfg path).2.evicted = true) :
    (m'.entry cfg path).2.evicted = true := by
  rw [entry_snd] at gone ⊢
  cases found : m.entries.lookup path with
  | none => simp [found] at gone
  | some ce =>
    rw [found, Option.getD_some] at gone
    simp [evicts.entries, found, gone]

theorem Evicts.entry_named (named : Names keys path) : (m'.entry cfg path).2.evicted = true := by
  obtain ⟨key, member, addr⟩ := named
  obtain ⟨path', ce, addr', found⟩ := evicts.entered key member
  rw [addr] at addr'
  cases addr'
  rw [entry_snd, evicts.entries, found]
  simp [show Names keys path from ⟨key, member, addr⟩]

theorem Evicts.entry_other (other : ¬Names keys path) :
    (m'.entry cfg path).2 = (m.entry cfg path).2 := by
  rw [entry_snd, entry_snd, evicts.entries]
  simp [other]

/-- Eviction empties the store of an object. -/
theorem Evicts.shows_evicted (outside : ¬cfg.InShard (cfg.copy path)) {q : Str} {ce : CacheEntry}
    (evicting : m.Evicting keys q ce) :
    m'.shows cfg env path ce.hashHex blk = m.refetched cfg env path blk := by
  have empty : m'.blocks cfg ce.hashHex blk = .empty := by
    apply Blob.eq_empty_of_size
    simp [blocks, BlockStore.blocks, BlockMap.ofSegments, Files.content,
      evicts.deleted q ce evicting]
  have copy := evicts.files (cfg.copy path) fun _ ce _ => cfg.spares_outside outside ce.hashHex
  rw [shows, if_neg, refetched, fetch_congr cfg env.backend copy]
  · simp only [empty, Blob.write_of_empty _ _ _ Blob.size_empty]
  · simp [BlockMap.Full, empty, kBlockSize]

/-- Objects with other hashes than the evicted ones are shown as before. -/
theorem Evicts.shows_other (outside : ¬cfg.InShard (cfg.copy path))
    (other : ∀ q ce, m.Evicting keys q ce → ce.hashHex ≠ d) :
    m'.shows cfg env path d blk = m.shows cfg env path d blk := by
  have copy := evicts.files (cfg.copy path) fun _ ce _ => cfg.spares_outside outside ce.hashHex
  refine shows_congr ?_ (fetch_congr cfg env.backend copy blk)
  have parts : ∀ k, m'.files (cfg.dataPart d k) = m.files (cfg.dataPart d k) := fun k =>
    evicts.files _ fun q ce evicting => cfg.spares_dataPart (other q ce evicting) k
  simp only [blocks, BlockStore.blocks, BlockMap.ofSegments, Files.content, parts]

end evicts

/-- An eviction changes nothing that clients of a path see if and only if the path was evicted
before, or its key is not popped and, where an entry with its hash is evicted, its blocks can be
had again. -/
theorem eviction_transparent_iff (cfg : Config) (files : Files) (trace : Trace)
    (m m' : CacheManager) (run : Run (Steps cfg) (new files) trace m) (used : ℕ → ℚ) (freeGb : ℚ)
    (returned : m.evictUntilGb cfg used freeGb = some m') (env : Env) (path : Str)
    (outside : ¬cfg.InShard (cfg.copy path)) :
    ((∀ len off, (m'.read cfg env path len off).2 = (m.read cfg env path len off).2) ∧
      (∀ answers data off, 0 ≤ (m'.write cfg answers path data off).2 ↔
        0 ≤ (m.write cfg answers path data off).2)) ↔
    (m.entry cfg path).2.evicted = true ∨
      (¬Names (m.popped used freeGb) path ∧
        ∀ q ce, m.Evicting (m.popped used freeGb) q ce → ce.hashHex = cfg.hashHex path →
          ∀ blk, m.refetched cfg env path blk = m.shows cfg env path (cfg.hashHex path) blk) := by
  have evicts := (evictUntilGb_evicts (run_linked run) returned).1
  have keyed := ((run_keyed run).entry cfg (settled_keyed path)).2.2
  simp only [write_accepted]
  constructor
  · rintro ⟨reads, _⟩
    refine or_iff_not_imp_left.mpr fun live => ?_
    have live : (m.entry cfg path).2.evicted = false := by simpa using live
    -- An entry that is marked now refuses the read of block 0, which was shown something or
    -- failed with -1 before: never with -ENOENT.
    have kept : (m'.entry cfg path).2.evicted = false := by
      by_contra gone
      have refused := congrArg ReadResult.count (reads kBlockSize 0)
      rw [read_evicted cfg (by simpa using gone), ← Nat.zero_mul kBlockSize,
        read_block live] at refused
      generalize m.shows cfg env path (m.entry cfg path).2.hashHex 0 = shown at refused
      cases shown <;> simp [oneBlock, ENOENT] at refused
    have unnamed : ¬Names (m.popped used freeGb) path := fun named => by
      rw [evicts.entry_named named] at kept
      cases kept
    refine ⟨unnamed, fun q ce evicting same blk => ?_⟩
    -- The path keeps its entry, so a read of one block shows what became of that block.
    have alike := reads kBlockSize (blk * kBlockSize)
    rw [read_block kept, read_block live, evicts.entry_other unnamed, keyed, ← same,
      evicts.shows_evicted outside evicting] at alike
    exact same ▸ oneBlock_injective alike
  · rintro (gone | ⟨unnamed, again⟩)
    · refine ⟨fun len off => ?_, fun _ _ _ => by rw [gone, evicts.entry_gone gone]⟩
      rw [read_evicted cfg gone, read_evicted cfg (evicts.entry_gone gone)]
    · have entry : (m'.entry cfg path).2 = (m.entry cfg path).2 := evicts.entry_other unnamed
      refine ⟨fun len off => read_same entry (fun blk => ?_) len off,
        fun _ _ _ => by rw [entry]⟩
      rw [keyed]
      -- Another path with the same hash may have been popped: its blocks are ours too.
      by_cases shared : ∃ q ce, m.Evicting (m.popped used freeGb) q ce ∧
          ce.hashHex = cfg.hashHex path
      · obtain ⟨q, ce, evicting, same⟩ := shared
        rw [← again q ce evicting same, ← same, evicts.shows_evicted outside evicting]
      · exact evicts.shows_other outside fun q ce evicting same => shared ⟨q, ce, evicting, same⟩

/-- What is in use while one block is in the store and after it has been deleted. -/
def oneBlockUsed (n : ℕ) : ℚ := if n = 0 then 1 / 16384 else 0

theorem eviction_transparent_iff_other :
    ∃ m trace m', exec (step .sample) (new fun _ => none)
        [.read (.serving threeBlocks) ['/', 'g', 'g'] 1 0,
          .read (.serving threeBlocks) ['/', 'f'] 1 0] = some (m, trace) ∧
      m.evictUntilGb .sample oneBlockUsed 0 = some m' ∧
      (((∀ len off, (m'.read .sample (.serving threeBlocks) ['/', 'f'] len off).2 =
          (m.read .sample (.serving threeBlocks) ['/', 'f'] len off).2) ∧
        (∀ answers data off, 0 ≤ (m'.write .sample answers ['/', 'f'] data off).2 ↔
          0 ≤ (m.write .sample answers ['/', 'f'] data off).2)) ↔
      (m.entry .sample ['/', 'f']).2.evicted = true ∨
        (¬Names (m.popped oneBlockUsed 0) ['/', 'f'] ∧
          ∀ q ce, m.Evicting (m.popped oneBlockUsed 0) q ce →
            ce.hashHex = Config.sample.hashHex ['/', 'f'] →
            ∀ blk, m.refetched .sample (.serving threeBlocks) ['/', 'f'] blk =
              m.shows .sample (.serving threeBlocks) ['/', 'f']
                (Config.sample.hashHex ['/', 'f']) blk)) := by
  have ends : ((exec (step .sample) (new fun _ => none)
        [.read (.serving threeBlocks) ['/', 'g', 'g'] 1 0,
          .read (.serving threeBlocks) ['/', 'f'] 1 0]).bind fun reached =>
      (reached.1.evictUntilGb .sample oneBlockUsed 0).map fun m' =>
        (reached, m')).isSome = true := by
    decide +kernel
  obtain ⟨_, done⟩ := Option.isSome_iff_exists.mp ends
  obtain ⟨⟨m, trace⟩, done, returned⟩ := Option.bind_eq_some_iff.mp done
  obtain ⟨m', returned, _⟩ := Option.map_eq_some_iff.mp returned
  exact ⟨m, trace, m', done, returned, eviction_transparent_iff .sample (fun _ => none) trace m m'
    (Run.of_exec done) oneBlockUsed 0 returned (.serving threeBlocks) ['/', 'f']
    (clean_sample.outside _ rfl)⟩

private theorem evicted_counts :
    ((exec (step .sample) (new fun _ => none)
        [.read (.serving threeBlocks) ['/', 'f'] 1 0]).bind fun reached =>
      (reached.1.evictUntilGb .sample oneBlockUsed 0).map fun m' =>
        ((m'.read .sample (.serving threeBlocks) ['/', 'f'] 1 0).2.count,
          (reached.1.read .sample (.serving threeBlocks) ['/', 'f'] 1 0).2.count)) =
      some (-2, 1) := by
  decide +kernel

/-- The backend still serves the file, but a read of it is refused. -/
theorem read_refused_after_eviction :
    ¬∀ (C : Str → Bytes) (trace : Trace) (m m' : CacheManager),
      Run (Steps .sample) (new fun _ => none) trace m →
      ∀ (used : ℕ → ℚ) (freeGb : ℚ), m.evictUntilGb .sample used freeGb = some m' →
      ∀ (path : Str) (len off : ℕ), off + len ≤ (C path).size →
        (m'.read .sample (.serving C) path len off).2 =
          (m.read .sample (.serving C) path len off).2 := by
  intro all
  obtain ⟨⟨m, trace⟩, done, evicted⟩ := Option.bind_eq_some_iff.mp evicted_counts
  obtain ⟨m', returned, counts⟩ := Option.map_eq_some_iff.mp evicted
  have same := all threeBlocks trace m m' (Run.of_exec done) oneBlockUsed 0 returned ['/', 'f'] 1 0
    (by decide)
  obtain ⟨after, before⟩ := Prod.mk.inj counts
  rw [same] at after
  exact absurd (after.symm.trans before) (by decide)

end CacheManager

end RemoteCache
