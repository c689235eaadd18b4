import RemoteCache.Cache.CallFrame
import RemoteCache.Cache.Eviction

/-!
# Eviction touches only its victims

## Main result

`eviction_frame`: from any state whose keys resolve, `evict_until_gb` comes to
its end; it changes no file of an entry that it does not mark, leaves no data
part of an entry that it marks, and marks only entries whose keys it has popped.

## Proof strategy

`evictLoop_rule` follows the loop pass by pass: as long as the measured usage is
above the target and keys are left, a pass pops the worst node. What the popped
keys do to the files is known from `Evicts`; the names of the files of different
objects do not start with each other's hashes.
-/
namespace RemoteCache

open FsLayout

/-! ### Files of other objects -/

/-- Evicting an object leaves the bitmaps of the others alone. -/
theorem Config.spares_bitmap {cfg : Config} {d d' : Digest} (other : d' ≠ d) (k : ℕ) :
    cfg.Spares d' (cfg.bitmap d k) := by
  refine ⟨?_, fun i same => other (cfg.bitmap_inj same).1.symm⟩
  rintro ⟨_, start⟩
  rw [cfg.bitmap_eq] at start
  have start : d'.text <+: d.text ++ '.' :: (Nat.toDigits 10 k ++ ['.', 'd', 'm', 'a', 'p']) := by
    simpa [partName] using start
  obtain ⟨rest, same⟩ := start
  exact other (Digest.ext (List.append_inj same (d'.length.trans d.length.symm)).1)

namespace CacheManager

variable {cfg : Config} {m m' : CacheManager} {used : ℕ → ℚ} {freeGb : ℚ}

/-! ### The loop -/

/-- What every pass carries forward, the loop achieves. It ends because the usage is not above
the target or because no keys are left. -/
theorem evictLoop_rule (cfg : Config) (used : ℕ → ℚ) (freeGb : ℚ) (Inv : ℕ → CacheManager → Prop)
    (pass : ∀ n m lru key, Inv n m → m.lru.Linked → freeGb < used n →
      m.lru.evict = (lru, some key) →
        ∃ m', evictKey cfg { m with lru } key = some m' ∧ Inv (n + 1) m')
    (fuel n : ℕ) (linked : m.lru.Linked) (enough : m.lru.nodes.length < fuel) (initial : Inv n m) :
    ∃ n' m', m.evictLoop cfg used freeGb fuel n = some m' ∧ Inv n' m' ∧ m'.lru.Linked ∧
      (freeGb < used n' → m'.lru.nodes = []) := by
  induction fuel generalizing n m with
  | zero => omega
  | succ fuel ih =>
    unfold evictLoop
    by_cases above : freeGb < used n
    · rw [if_pos above]
      have remains := linked.evict
      rcases linked.pops.2 with ⟨empty, _⟩ | ⟨worst, popped, _, shorter⟩
      · -- No keys are left: `evict` returns without a change.
        have unchanged : m.lru.evict = (m.lru, none) := by
          have order : m.lru.order = [] := List.map_eq_nil_iff.mp empty
          simp [LruPolicy.evict, order]
        rw [unchanged]
        exact ⟨n, m, rfl, initial, linked, fun _ => empty⟩
      · cases result : m.lru.evict with | mk lru victim =>
        rw [result] at remains popped shorter
        cases popped
        obtain ⟨mid, evicted, inv⟩ := pass n m lru worst.id initial linked above result
        have same : mid.lru = lru := evictKey_lru evicted
        simp only [evicted, Option.bind_some]
        exact ih (n + 1) (same ▸ remains) (by rw [same]; simp only at shorter; omega) inv
    · rw [if_neg above]
      exact ⟨n, m, rfl, initial, linked, fun above' => absurd above' above⟩

/-- The key belongs to an entry of the table. -/
def Resolves (m : CacheManager) (key : Key) : Prop :=
  ∃ path, key.addr = .entry path ∧ (m.entries.lookup path).isSome

/-- All keys in the policy belong to entries. -/
def Resolved (m : CacheManager) : Prop := ∀ n ∈ m.lru.nodes, m.Resolves n.id

variable (cfg) in
theorem Resolves.evictKey {key : Key} (resolves : m.Resolves key) :
    ∃ m', evictKey cfg m key = some m' := by
  obtain ⟨path, addr, there⟩ := resolves
  obtain ⟨ce, found⟩ := Option.isSome_iff_exists.mp there
  simp only [CacheManager.evictKey, addr, found]
  -- An entry that was evicted before is passed over; no case is without a result.
  split
  · exact ⟨m, rfl⟩
  · exact ⟨_, rfl⟩

/-- Popping nodes that resolve evicts the entries they belong to. -/
structure Popping (cfg : Config) (nodes : List (Node Key)) (m m' : CacheManager) : Prop where
  evicts : Evicts cfg (nodes.map (·.id)) m m'
  sorted : Selection.byRank Node.score m.lru.nodes =
    nodes ++ Selection.byRank Node.score m'.lru.nodes
  capacity : m'.lru.capacity = m.lru.capacity
  resolved : m'.Resolved

theorem Popping.pass {start : CacheManager} {nodes : List (Node Key)}
    (popping : Popping cfg nodes start m) (linked : m.lru.Linked) {lru : LruPolicy Key} {key : Key}
    (result : m.lru.evict = (lru, some key)) :
    ∃ worst m', evictKey cfg { m with lru } key = some m' ∧
      Popping cfg (nodes ++ [worst]) start m' := by
  obtain ⟨sub, pops⟩ := linked.pops
  rw [result] at sub pops
  obtain ⟨worst, same, sorted, _⟩ := pops.resolve_left fun empty => by simp at empty
  cases same
  -- The victim is one of the nodes, so its key resolves.
  have here : worst ∈ m.lru.nodes := by
    rw [← (Selection.byRank_perm Node.score m.lru.nodes).mem_iff, sorted]
    exact List.mem_cons_self
  have resolves : Resolves { m with lru } worst.id := popping.resolved worst here
  obtain ⟨m', evicted⟩ := resolves.evictKey cfg
  have kept : m'.lru = lru := evictKey_lru evicted
  have evicts : Evicts cfg [worst.id] m m' := (evictKey_evicts evicted).of_lru
  have capacity : lru.capacity = m.lru.capacity := by
    simpa only [result] using m.lru.capacity_evict
  -- The table keeps its paths, so the keys that are left resolve as well.
  refine ⟨worst, m', evicted, ?_, ?_, ?_, fun n member => ?_⟩
  · rw [List.map_append]
    exact popping.evicts.trans evicts
  · rw [popping.sorted, sorted, kept, List.append_assoc]
    rfl
  · rw [kept, capacity, popping.capacity]
  · rw [kept] at member
    obtain ⟨path, addr, there⟩ := popping.resolved n (sub.subset member)
    exact ⟨path, addr, by rwa [evicts.entries, Option.isSome_map]⟩

/-- From a state whose keys resolve an eviction comes to its end, after some number of passes. -/
theorem evictUntilGb_popping (cfg : Config) (linked : m.lru.Linked) (resolved : m.Resolved)
    (used : ℕ → ℚ) (freeGb : ℚ) :
    ∃ n nodes m', m.evictUntilGb cfg used freeGb = some m' ∧
      m.evictLoop cfg used freeGb n 0 = some m' ∧ Popping cfg nodes m m' ∧
      m'.lru.Linked ∧ (freeGb < used n → m'.lru.nodes = []) := by
  have length := m.lru.length_nodes
  obtain ⟨n, m', returned, ⟨⟨nodes, popping⟩, reached⟩, ends⟩ := evictLoop_rule cfg used freeGb
    -- The invariant also says that the loop gets here after `n` passes, whatever its fuel.
    (fun n mid => (∃ nodes, Popping cfg nodes m mid) ∧ ∀ fuel,
      m.evictLoop cfg used freeGb (n + fuel) 0 = mid.evictLoop cfg used freeGb fuel n)
    (fun n mid lru key ⟨⟨nodes, popping⟩, reached⟩ linked above result => by
      obtain ⟨worst, m', evicted, more⟩ := popping.pass linked result
      refine ⟨m', evicted, ⟨_, more⟩, fun fuel => ?_⟩
      rw [Nat.add_assoc, Nat.add_comm 1 fuel, reached, evictLoop, if_pos above, result]
      simp only [evicted, Option.bind_some])
    (m.lru.order.length + 1) 0 linked (by omega)
    ⟨⟨[], .refl m, rfl, rfl, resolved⟩, fun fuel => by rw [Nat.zero_add]⟩
  exact ⟨n, nodes, m', returned, by simpa [evictLoop] using reached 0, popping, ends⟩

theorem Popping.names_iff {nodes : List (Node Key)} (popping : Popping cfg nodes m m')
    (linked : m.lru.Linked) {path : Str} :
    Names (nodes.map (·.id)) path ↔
      ∃ n ∈ m.lru.nodes, n ∉ m'.lru.nodes ∧ n.id.addr = .entry path := by
  have distinct : m.lru.nodes.Nodup :=
    .of_map (·.id) linked.distinct
  have split := (Selection.byRank_perm Node.score m.lru.nodes).nodup_iff.mpr distinct
  rw [popping.sorted] at split
  have apart := List.disjoint_of_nodup_append split
  -- The nodes of before are those popped and those left, and no node is both.
  have before : ∀ n, n ∈ m.lru.nodes ↔ n ∈ nodes ∨ n ∈ m'.lru.nodes := fun n => by
    rw [← (Selection.byRank_perm Node.score m.lru.nodes).mem_iff, popping.sorted,
      List.mem_append, (Selection.byRank_perm Node.score m'.lru.nodes).mem_iff]
  simp only [Names, List.mem_map, exists_exists_and_eq_and]
  apply exists_congr
  intro n
  constructor
  · rintro ⟨member, addr⟩
    refine ⟨(before n).mpr (.inl member), fun kept => ?_, addr⟩
    exact apart member ((Selection.byRank_perm Node.score m'.lru.nodes).mem_iff.mpr kept)
  · rintro ⟨there, left, addr⟩
    exact ⟨((before n).mp there).resolve_right left, addr⟩

/-! ### The frame -/

/-- The entries of the table have pairwise different hashes. -/
def Apart (m : CacheManager) : Prop :=
  ∀ p q ce ce', m.entries.lookup p = some ce → m.entries.lookup q = some ce' →
    ce.hashHex = ce'.hashHex → p = q

/-- The eviction marks the entry of the path, which was not marked before. -/
def Victim (m m' : CacheManager) (path : Str) : Prop := m.gone path = false ∧ m'.gone path = true

theorem Evicts.victim_iff {keys : List Key} (evicts : Evicts cfg keys m m') {path : Str}
    {ce : CacheEntry} (found : m.entries.lookup path = some ce) :
    m.Victim m' path ↔ m.Evicting keys path ce := by
  simp only [Victim, gone, evicts.entries, found, Option.map_some, Option.any_some, Evicting,
    true_and]
  cases ce.evicted <;> simp

/-- `evict_until_gb` returns; it changes no data part and no bitmap of an entry that it does not
mark, leaves no data part of an entry that it marks, and marks only entries of popped keys. -/
theorem eviction_frame (cfg : Config) (m : CacheManager) (linked : m.lru.Linked)
    (resolved : m.Resolved) (apart : m.Apart) (used : ℕ → ℚ) (freeGb : ℚ) :
    ∃ m', m.evictUntilGb cfg used freeGb = some m' ∧
      ∀ path ce, m.entries.lookup path = some ce →
        (¬m.Victim m' path → ∀ k,
          m'.files (cfg.dataPart ce.hashHex k) = m.files (cfg.dataPart ce.hashHex k) ∧
          m'.files (cfg.bitmap ce.hashHex k) = m.files (cfg.bitmap ce.hashHex k)) ∧
        (m.Victim m' path →
          (∀ k, m'.files (cfg.dataPart ce.hashHex k) = none) ∧
          ∃ n ∈ m.lru.nodes, n ∉ m'.lru.nodes ∧ n.id.addr = .entry path) := by
  obtain ⟨_, nodes, m', returned, _, popping, _⟩ :=
    evictUntilGb_popping cfg linked resolved used freeGb
  refine ⟨m', returned, fun path ce found => ⟨fun spared k => ?_, fun marked => ?_⟩⟩
  · have other : ∀ q ce', m.Evicting (nodes.map (·.id)) q ce' → ce'.hashHex ≠ ce.hashHex := by
      intro q ce' evicting same
      -- A victim with the hash of this entry would be this entry.
      cases apart q path ce' ce evicting.1 found same
      cases evicting.unique found
      exact spared ((popping.evicts.victim_iff found).mpr evicting)
    exact ⟨popping.evicts.files _ fun q ce' evicting =>
        cfg.spares_dataPart (other q ce' evicting) k,
      popping.evicts.files _ fun q ce' evicting => cfg.spares_bitmap (other q ce' evicting) k⟩
  · have evicting := (popping.evicts.victim_iff found).mp marked
    exact ⟨popping.evicts.deleted path ce evicting, (popping.names_iff linked).mp evicting.2.2⟩

/-- Two objects of one block each, which share a shard directory. -/
private def sharedShard : CacheManager :=
  let f : CacheEntry := { path := ['/', 'f'], hashHex := Config.sample.hashHex ['/', 'f'] }
  let g : CacheEntry :=
    { path := ['/', 'g', 'g'], hashHex := Config.sample.hashHex ['/', 'g', 'g'] }
  let stored := ((new fun _ => none).store .sample f.hashHex 0 (.ofFn 1 fun _ => 7)).store .sample
    g.hashHex 0 (.ofFn 1 fun _ => 8)
  let touched := (stored.touch (.entry f.path) 0 .one).touch (.entry g.path) 0 .one
  { touched with entries := (AList.insert f.path f ∅).insert g.path g }

private theorem sharedShard_linked : sharedShard.lru.Linked :=
  ((LruPolicy.linked_new _).touch _ _ _).touch _ _ _

private theorem sharedShard_nodes : sharedShard.lru.nodes =
    [⟨⟨.entry ['/', 'g', 'g'], 0⟩, kBlockSize, .one⟩,
      ⟨⟨.entry ['/', 'f'], 0⟩, kBlockSize, .one⟩] := by
  decide +kernel

theorem eviction_frame_shared :
    ∃ m', sharedShard.evictUntilGb .sample (fun n => if n = 0 then 1 else 0) 0 = some m' ∧
      ∀ path ce, sharedShard.entries.lookup path = some ce →
        (¬sharedShard.Victim m' path → ∀ k,
          m'.files (Config.sample.dataPart ce.hashHex k) =
            sharedShard.files (Config.sample.dataPart ce.hashHex k) ∧
          m'.files (Config.sample.bitmap ce.hashHex k) =
            sharedShard.files (Config.sample.bitmap ce.hashHex k)) ∧
        (sharedShard.Victim m' path →
          (∀ k, m'.files (Config.sample.dataPart ce.hashHex k) = none) ∧
          ∃ n ∈ sharedShard.lru.nodes, n ∉ m'.lru.nodes ∧ n.id.addr = .entry path) := by
  have resolved : sharedShard.Resolved := by
    intro n member
    rw [sharedShard_nodes, List.mem_pair] at member
    rcases member with rfl | rfl
    · exact ⟨['/', 'g', 'g'], rfl, rfl⟩
    · exact ⟨['/', 'f'], rfl, rfl⟩
  have entries : ∀ path ce, sharedShard.entries.lookup path = some ce →
      (path = ['/', 'g', 'g'] ∨ path = ['/', 'f']) ∧ ce.hashHex = Config.sample.hashHex path := by
    intro path ce found
    simp only [sharedShard] at found
    by_cases g : path = ['/', 'g', 'g']
    · subst g
      rw [AList.lookup_insert] at found
      cases found
      exact ⟨.inl rfl, rfl⟩
    · rw [AList.lookup_insert_ne g] at found
      by_cases f : path = ['/', 'f']
      · subst f
        rw [AList.lookup_insert] at found
        cases found
        exact ⟨.inr rfl, rfl⟩
      · rw [AList.lookup_insert_ne f] at found
        cases found
  have apart : sharedShard.Apart := by
    intro p q ce ce' first second same
    obtain ⟨name, hash⟩ := entries p ce first
    obtain ⟨name', hash'⟩ := entries q ce' second
    have lengths := Digest.ofHash_injective (hash.symm.trans (same.trans hash'))
    rcases name with rfl | rfl <;> rcases name' with rfl | rfl
    · rfl
    · exact absurd lengths (by decide)
    · exact absurd lengths (by decide)
    · rfl
  exact eviction_frame .sample sharedShard sharedShard_linked resolved apart
    (fun n => if n = 0 then 1 else 0) 0

end CacheManager

end RemoteCache
