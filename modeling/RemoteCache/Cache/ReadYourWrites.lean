import RemoteCache.Cache.WriteHistory

/-!
# Reads see the latest writes

Runs of reads, writes and prefetch jobs without evictions keep every entry live
and every written block whole, so a read returns what was last written.
-/
namespace RemoteCache

/-- The calls of `write` in a run, in order. -/
def writesOf (trace : Trace) : List WriteCall :=
  trace.filterMap fun entry =>
    match entry.1 with
    | .write path data off => some ⟨path, data, off⟩
    | _ => none

namespace CacheManager

variable {cfg : Config} {m m' : CacheManager}

/-- A read keeps what was written and returns it. -/
theorem read_kept {writes : List WriteCall} (kept : Kept cfg writes m) {path : Str}
    (live : Live cfg path (m.entry cfg path).2) (env : Env) (len off : ℕ) :
    let r := m.read cfg env path len off
    Kept cfg writes r.1 ∧
      (∀ (i : ℕ) v, i < r.2.count → latestByte writes path (off + i) = some v →
        r.2.buf.get i = v) ∧
      ((∀ x, off ≤ x → x < off + len → TouchedBlock writes path (x / kBlockSize)) →
        r.2.count = len) := by
  refine read_rule cfg
    (fun s => Kept cfg writes s.mgr ∧ s.ce.hashHex = cfg.hashHex path ∧ s.done ≤ len ∧
      ∀ i < s.done, ∀ v, latestByte writes path (off + i) = some v → s.buf.get i = v)
    (fun m' r => Kept cfg writes m' ∧
      (∀ (i : ℕ) v, i < r.count → latestByte writes path (off + i) = some v → r.buf.get i = v) ∧
      ((∀ x, off ≤ x → x < off + len → TouchedBlock writes path (x / kBlockSize)) →
        r.count = len))
    live.2.2 ⟨kept.of_files (entry_files cfg m path), live.2.1, Nat.zero_le _, by simp⟩ ?_ ?_ ?_
  · rintro s p block mgr ⟨kept, keyed, _, shown⟩ more piece ready
    obtain ⟨_, _, fits, inside⟩ := pieceAt_spec off more piece
    refine ⟨(kept.ready rfl ready).of_files (finish_files _ _ _ _), keyed, inside,
      fun i fresh v written => ?_⟩
    rw [finish_get ready.size fits]
    split
    next here =>
      obtain ⟨blk, place⟩ := pieceAt_byte off more piece here.1 here.2
      have full := kept.whole path _ (latestByte_touched written)
      rw [blk, ← keyed] at full
      -- A written block is whole, so the pass finds it in the store.
      cases ready with
      | hit =>
        rw [← kept.latest path _ v written, stored, blk, place, keyed]
      | fill miss => exact absurd full miss
    next old => exact shown i (by simp only [finish_done] at fresh old; omega) v written
  -- A pass that fails missed its block, so no write has touched it.
  · rintro s p ⟨kept, keyed, _, shown⟩ more piece miss _
    refine ⟨kept, fun i v early written => shown i ?_ v written, fun touched => ?_⟩
    · simp only at early
      split at early <;> omega
    · have blk := touched (off + s.done) (by omega) (by omega)
      rw [← pieceAt_blk off len, piece] at blk
      exact absurd (keyed ▸ kept.whole path _ blk) miss
  · rintro s ⟨kept, _, small, shown⟩ all
    refine ⟨kept, fun i v early written => shown i (by simpa using early) v written, fun _ => ?_⟩
    simp only [Nat.le_antisymm small all]

/-- A prefetch job stores only blocks that no write has touched. -/
theorem prefetch_kept {writes : List WriteCall} (kept : Kept cfg writes m) (backend : Backend)
    (i : ℕ) (job : Job) : Kept cfg writes (m.prefetch cfg backend i job).1 := by
  refine runJob_rule cfg (fun _ s => Kept cfg writes s.1) backend job (kept.of_files rfl)
    fun i s _ kept => ?_
  rcases prefetchPass_cases cfg backend job s i with ⟨_, eq⟩ | ⟨got, miss, reply, eq⟩
  · rw [eq]; exact kept
  · rw [eq]
    obtain ⟨some, small⟩ := received_small reply
    exact (kept.store some small (kept.untouched_of_miss miss)).of_files rfl

/-- In a run without evictions written blocks stay as they were written. -/
theorem run_kept {files : Files} {names : Str → Prop} (clean : cfg.Clean names) {trace : Trace}
    (run : Run (Steps cfg) (new files) trace m)
    (named : ∀ w ∈ writesOf trace, names w.path)
    (stays : ∀ entry ∈ trace, entry.1.isEvict = false) : Kept cfg (writesOf trace) m := by
  induction run with
  | refl =>
    refine ⟨?_, by simp [writesOf, latestByte]⟩
    rintro path blk ⟨w, absurd, _⟩
    simp [writesOf] at absurd
  | @next m m' trace e o before taken ih =>
    have split : writesOf (trace ++ [(e, o)]) = writesOf trace ++ writesOf [(e, o)] := by
      simp [writesOf]
    rw [split] at named ⊢
    have stayed : ∀ entry ∈ trace, entry.1.isEvict = false :=
      fun entry member => stays entry (List.mem_append_left _ member)
    have kept := ih (fun w member => named w (List.mem_append_left _ member)) stayed
    have live := fun path => ((run_live cfg before stayed).entry cfg (settled_live cfg path)).2
    cases e with
    | read env path len off =>
      cases taken
      simpa [writesOf] using (read_kept kept (live path) env len off).1
    | write path data off =>
      cases taken
      have name := named ⟨path, data, off⟩ (by simp [writesOf])
      refine kept.write (live path).2.2 (live path).2.1 (fun w member same => ?_) (clean.apart name)
      exact clean.hashHex (named w (List.mem_append_left _ member)) name same
    | prefetch backend i =>
      obtain ⟨job, _, same⟩ := Option.map_eq_some_iff.mp taken
      cases same
      simpa [writesOf] using prefetch_kept kept backend i job
    | evict used freeGb =>
      exact absurd (stays _ (List.mem_append_right _ List.mem_cons_self)) (by simp [Event.isEvict])

/-- In every run of reads, writes and prefetch jobs, a read returns at each offset the byte of
the latest write there, and a read of blocks that writes have touched is not cut short. -/
theorem read_your_writes (cfg : Config) (files : Files) (trace : Trace) (m : CacheManager)
    (run : Run (Steps cfg) (new files) trace m)
    (clean : cfg.Clean fun path => ∃ w ∈ writesOf trace, w.path = path)
    (stays : ∀ entry ∈ trace, entry.1.isEvict = false) (env : Env) (path : Str) (len off : ℕ) :
    let r := (m.read cfg env path len off).2
    (∀ (i : ℕ) v, i < r.count → latestByte (writesOf trace) path (off + i) = some v →
      r.buf.get i = v) ∧
    ((∀ x, off ≤ x → x < off + len → TouchedBlock (writesOf trace) path (x / kBlockSize)) →
      r.count = len) := by
  have kept := run_kept clean run (fun w member => ⟨w, member, rfl⟩) stays
  have live := ((run_live cfg run stays).entry cfg (settled_live cfg path)).2
  exact (read_kept kept live env len off).2

theorem read_your_writes_overlap :
    let data : Bytes := .ofFn 5 fun i => .ofNat i
    let first := (new fun _ => none).write .sample succeed ['/', 'f'] data 0
    let second := first.1.write .sample succeed ['/', 'f'] data 2
    let writes : List WriteCall := [⟨['/', 'f'], data, 0⟩, ⟨['/', 'f'], data, 2⟩]
    let r := (second.1.read .sample (.serving fun _ => .empty) ['/', 'f'] 4 1).2
    (∀ (i : ℕ) v, i < r.count → latestByte writes ['/', 'f'] (1 + i) = some v →
      r.buf.get i = v) ∧
    ((∀ x, 1 ≤ x → x < 1 + 4 → TouchedBlock writes ['/', 'f'] (x / kBlockSize)) →
      r.count = (4 : ℕ)) :=
  read_your_writes .sample (fun _ => none) _ _
    (.next (.next (.refl _) (steps_write _ _ ['/', 'f'] (.ofFn 5 fun i => .ofNat i) 0))
      (steps_write _ _ ['/', 'f'] (.ofFn 5 fun i => .ofNat i) 2))
    (clean_sample.mono (by simp [writesOf]))
    (by simp [Event.isEvict]) (.serving fun _ => .empty) ['/', 'f'] 4 1

end CacheManager

end RemoteCache
