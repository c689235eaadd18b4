import RemoteCache.Cache.DirtyBits
import RemoteCache.Cache.ReadYourWrites

/-!
# Writes across restarts

## Main result

`reads_survive_restarts`: a read returns the bytes of the latest writes of all
sessions, and is not cut short in blocks that any of them has written to.

## Proof strategy

A restart loses the entries, the keys, the bits and the queued jobs, and keeps
the files. Whether written blocks are whole and hold the latest bytes is a matter
of the files alone, and a new manager has no entry that is evicted.
-/
namespace RemoteCache

namespace CacheManager

/-- What happens to the cache of one root: a call, `cache_flush_all`, or the end of the process,
after `cache_cleanup` or not, and `cache_init` in a new one. -/
inductive Life where
  | call (e : Event)
  | flush
  | restart

variable (cfg : Config)

inductive Lives (m : CacheManager) : Life → Option Output → CacheManager → Prop where
  | call {e : Event} {o : Output} {m' : CacheManager} : Steps cfg m e o m' →
      Lives m (.call e) (some o) m'
  | flush : Lives m .flush none (m.flushAll cfg)
  | restart : Lives m .restart none (new m.files)

/-- The writes of all sessions, in order. -/
def writesOfLife (trace : List (Life × Option Output)) : List WriteCall :=
  trace.filterMap fun entry =>
    match entry.1 with
    | .call (.write path data off) => some ⟨path, data, off⟩
    | _ => none

/-- No session evicts. -/
def NeverEvicts (trace : List (Life × Option Output)) : Prop :=
  ∀ entry ∈ trace, ∀ e, entry.1 = .call e → e.isEvict = false

variable {cfg} {m m' : CacheManager} {writes : List WriteCall}

/-- The bitmap files are no data parts. -/
theorem flushAll_blocks (m : CacheManager) : (m.flushAll cfg).blocks cfg = m.blocks cfg := by
  refine BlockStore.blocks_congr cfg fun d k => ?_
  rw [flushAll_files]
  exact MetadataStore.flushEach_other cfg m.bitmap m.files m.hashes fun d' k' same =>
    cfg.bitmap_ne_dataPart d' d k' k same.symm

/-- One step of a life keeps what was written. -/
theorem Lives.kept {names : Str → Prop} (clean : cfg.Clean names) (kept : Kept cfg writes m)
    (each : EachEntry (Live cfg) m) (before : ∀ w ∈ writes, names w.path) {l : Life}
    {o : Option Output} (step : Lives cfg m l o m')
    (stays : ∀ e, l = .call e → e.isEvict = false)
    (named : ∀ w ∈ writesOfLife [(l, o)], names w.path) :
    Kept cfg (writes ++ writesOfLife [(l, o)]) m' ∧ EachEntry (Live cfg) m' := by
  cases step with
  | flush =>
    have blocks : (m.flushAll cfg).blocks cfg = m.blocks cfg := flushAll_blocks m
    refine ⟨?_, each.of_same rfl rfl⟩
    rw [show writesOfLife [(Life.flush, none)] = [] from rfl, List.append_nil]
    refine ⟨by rw [blocks]; exact kept.whole, ?_⟩
    simp only [stored, blocks]
    exact kept.latest
  | restart =>
    rw [show writesOfLife [(Life.restart, none)] = [] from rfl, List.append_nil]
    exact ⟨kept.of_files rfl, each_new _ m.files⟩
  | @call e o _ taken =>
    have live := fun path => (each.entry cfg (settled_live cfg path)).2
    cases e with
    | read env path len off =>
      cases taken
      rw [show writesOfLife [(Life.call (.read env path len off), _)] = [] from rfl,
        List.append_nil]
      exact ⟨(read_kept kept (live path) env len off).1,
        each.read cfg (settled_live cfg path) env len off⟩
    | write path data off =>
      cases taken
      have name := named ⟨path, data, off⟩ (by simp [writesOfLife])
      refine ⟨?_, each.write cfg (settled_live cfg path) data off⟩
      exact kept.write (live path).2.2 (live path).2.1
        (fun w member same => clean.hashHex (before w member) name same) (clean.apart name)
    | prefetch backend i =>
      obtain ⟨job, _, same⟩ := Option.map_eq_some_iff.mp taken
      cases same
      rw [show writesOfLife [(Life.call (.prefetch backend i), _)] = [] from rfl, List.append_nil]
      exact ⟨prefetch_kept kept backend i job, each.prefetch cfg backend i job⟩
    | evict used freeGb => exact absurd (stays _ rfl) (by simp [Event.isEvict])

/-- In a life without evictions written blocks stay as they were written. -/
theorem lives_kept {files : Files} {names : Str → Prop} (clean : cfg.Clean names)
    {trace : List (Life × Option Output)} (run : Run (Lives cfg) (new files) trace m)
    (named : ∀ w ∈ writesOfLife trace, names w.path) (stays : NeverEvicts trace) :
    Kept cfg (writesOfLife trace) m ∧ EachEntry (Live cfg) m := by
  induction run with
  | refl =>
    refine ⟨⟨?_, by simp [writesOfLife, latestByte]⟩, each_new _ files⟩
    rintro path blk ⟨w, absurd, _⟩
    simp [writesOfLife] at absurd
  | @next m m' trace l o before step ih =>
    have split : writesOfLife (trace ++ [(l, o)]) =
        writesOfLife trace ++ writesOfLife [(l, o)] := by simp [writesOfLife]
    rw [split] at named ⊢
    have earlier := fun w member => named w (List.mem_append_left _ member)
    obtain ⟨kept, each⟩ := ih earlier
      fun entry member => stays entry (List.mem_append_left _ member)
    exact step.kept clean kept each earlier
      (stays (l, o) (List.mem_append_right _ (List.mem_singleton_self _)))
      fun w member => named w (List.mem_append_right _ member)

/-- In every life of a cache without evictions, however often it is restarted, a read returns at
each offset the byte of the latest write there, and a read of blocks that writes have touched is
not cut short. -/
theorem reads_survive_restarts (cfg : Config) (files : Files)
    (trace : List (Life × Option Output)) (m : CacheManager)
    (run : Run (Lives cfg) (new files) trace m)
    (clean : cfg.Clean fun path => ∃ w ∈ writesOfLife trace, w.path = path)
    (stays : NeverEvicts trace) (env : Env) (path : Str) (len off : ℕ) :
    let r := (m.read cfg env path len off).2
    (∀ (i : ℕ) v, i < r.count → latestByte (writesOfLife trace) path (off + i) = some v →
      r.buf.get i = v) ∧
    ((∀ x, off ≤ x → x < off + len → TouchedBlock (writesOfLife trace) path (x / kBlockSize)) →
      r.count = len) := by
  obtain ⟨kept, each⟩ := lives_kept clean run (fun w member => ⟨w, member, rfl⟩) stays
  have live := (each.entry cfg (settled_live cfg path)).2
  exact (read_kept kept live env len off).2

theorem reads_survive_restarts_once :
    let data : Bytes := .ofFn 5 fun i => .ofNat i
    let first := (new fun _ => none).write .sample succeed ['/', 'f'] data 0
    let writes : List WriteCall := [⟨['/', 'f'], data, 0⟩]
    let r := ((new (first.1.flushAll .sample).files).read .sample (.serving fun _ => .empty)
      ['/', 'f'] 4 1).2
    (∀ (i : ℕ) v, i < r.count → latestByte writes ['/', 'f'] (1 + i) = some v →
      r.buf.get i = v) ∧
    ((∀ x, 1 ≤ x → x < 1 + 4 → TouchedBlock writes ['/', 'f'] (x / kBlockSize)) →
      r.count = (4 : ℕ)) :=
  reads_survive_restarts .sample (fun _ => none) _ _
    (.next (.next (.next (.refl _)
      (.call (steps_write _ _ ['/', 'f'] (.ofFn 5 fun i => .ofNat i) 0))) .flush) .restart)
    (clean_sample.mono (by simp [writesOfLife])) (by simp [NeverEvicts, Event.isEvict])
    (.serving fun _ => .empty) ['/', 'f'] 4 1

end CacheManager

end RemoteCache
