import RemoteCache.Cache.Contents
import RemoteCache.Cache.System

/-!
# Calls that fail

## Main result

`failing_call_iff`: a call that returns a negative value leaves the cache as it
was if and only if its path already had an entry.

## Proof strategy

A read fails in its first pass, before it has stored or touched anything, and a
write fails only where the entry has been evicted. All that has happened by then
is the lookup of the entry, which makes one for a path that has none.
-/
namespace RemoteCache

namespace CacheManager

/-- What clients can tell the two managers apart by is the same. -/
structure Unchanged (m m' : CacheManager) : Prop where
  valid : ∀ path, m'.hasValidEntry path = m.hasValidEntry path
  files : m'.files = m.files
  lru : m'.lru = m.lru
  bitmap : m'.bitmap = m.bitmap

variable {cfg : Config} {m : CacheManager} {path : Str}

theorem Unchanged.refl (m : CacheManager) : Unchanged m m := ⟨fun _ => rfl, rfl, rfl, rfl⟩

theorem entry_of_some {ce : CacheEntry} (found : m.entries.lookup path = some ce) :
    m.entry cfg path = (m, ce) := by
  simp only [entry, found]

/-- Looking up the entry of a path is noticed unless there is one. -/
theorem unchanged_entry_iff :
    Unchanged m (m.entry cfg path).1 ↔ (m.entries.lookup path).isSome := by
  cases found : m.entries.lookup path with
  | some ce =>
    rw [entry_of_some found]
    exact iff_of_true (.refl m) rfl
  | none =>
    apply iff_of_false
    · intro unchanged
      have valid := unchanged.valid path
      rw [hasValidEntry, entry_lookup, entry_snd, hasValidEntry, found] at valid
      cases valid
    · simp

/-- A read that fails has done nothing but look up the entry. -/
theorem read_failed {env : Env} {len off : ℕ}
    (failed : (m.read cfg env path len off).2.count < 0) :
    (m.read cfg env path len off).1 = (m.entry cfg path).1 := by
  revert failed
  by_cases gone : (m.entry cfg path).2.evicted = true
  · rw [read_evicted cfg gone]
    exact fun _ => rfl
  · refine read_rule cfg (fun s => s.done = 0 → s.mgr = (m.entry cfg path).1)
      (fun m' r => r.count < 0 → m' = (m.entry cfg path).1) (by simpa using gone)
      (fun _ => rfl) ?_ ?_ ?_
    -- After a pass the read has something to return.
    · intro s p block mgr _ more piece _ nothing
      have forward := (pieceAt_spec off more piece).2.1
      rw [finish_done] at nothing
      omega
    · intro s p started _ _ _ _ negative
      apply started
      by_contra some
      rw [if_neg some] at negative
      exact absurd negative (Int.not_lt.mpr (Int.natCast_nonneg _))
    · intro s _ _ negative
      exact absurd negative (Int.not_lt.mpr (Int.natCast_nonneg _))

theorem write_failed {answers : ℕ → Answer × Answer} {data : Bytes} {off : ℕ}
    (failed : (m.write cfg answers path data off).2 < 0) :
    (m.write cfg answers path data off).1 = (m.entry cfg path).1 := by
  by_cases gone : (m.entry cfg path).2.evicted = true
  · rw [write_evicted cfg gone]
  · have live : (m.entry cfg path).2.evicted = false := by simpa using gone
    rw [(write_rule_any cfg (fun _ => True) answers live trivial fun _ _ _ _ _ => trivial).2]
      at failed
    exact absurd failed (Int.not_lt.mpr (Int.natCast_nonneg _))

/-- After a read or write that returns a negative value, in any state, the valid entries, the
files, the recency list and the dirty bits are as before if and only if the path had an entry. -/
theorem failing_call_iff (cfg : Config) (m : CacheManager) (path : Str) :
    (∀ env len off, (m.read cfg env path len off).2.count < 0 →
      (Unchanged m (m.read cfg env path len off).1 ↔ (m.entries.lookup path).isSome)) ∧
    ∀ answers data off, (m.write cfg answers path data off).2 < 0 →
      (Unchanged m (m.write cfg answers path data off).1 ↔ (m.entries.lookup path).isSome) := by
  constructor
  · intro env len off failed
    rw [read_failed failed]
    exact unchanged_entry_iff
  · intro answers data off failed
    rw [write_failed failed]
    exact unchanged_entry_iff

/-- A new manager, except that the entry of `/f` has been evicted. -/
def evictedOne : CacheManager :=
  { new fun _ => none with
    entries := (∅ : AList fun _ : Str => CacheEntry).insert ['/', 'f']
      ⟨['/', 'f'], Config.sample.hashHex ['/', 'f'], none, true⟩ }

theorem failing_call_evicted :
    (Unchanged evictedOne (evictedOne.read .sample (.serving threeBlocks) ['/', 'f'] 1 0).1 ↔
      (evictedOne.entries.lookup ['/', 'f']).isSome) ∧
    (Unchanged evictedOne (evictedOne.write .sample succeed ['/', 'f'] (.ofFn 1 fun _ => 7) 0).1 ↔
      (evictedOne.entries.lookup ['/', 'f']).isSome) :=
  ⟨(failing_call_iff .sample evictedOne ['/', 'f']).1 (.serving threeBlocks) 1 0
      (by decide +kernel),
    (failing_call_iff .sample evictedOne ['/', 'f']).2 succeed (.ofFn 1 fun _ => 7) 0
      (by decide +kernel)⟩

/-- A read of a file that does not exist leaves a valid entry behind. -/
theorem failing_read_noticed :
    ¬∀ (files : Files) (trace : Trace) (m : CacheManager),
      Run (Steps .sample) (new files) trace m → ∀ path : Str,
      (∀ env len off, (m.read .sample env path len off).2.count < 0 →
        Unchanged m (m.read .sample env path len off).1) ∧
      ∀ answers data off, (m.write .sample answers path data off).2 < 0 →
        Unchanged m (m.write .sample answers path data off).1 := by
  intro all
  have unchanged := (all (fun _ => none) [] _ (.refl _) ['/', 'f']).1 (.serving fun _ => .empty) 1 0
    (by decide +kernel)
  have valid := unchanged.valid ['/', 'f']
  revert valid
  decide +kernel

end CacheManager

end RemoteCache
