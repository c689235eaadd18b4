import RemoteCache.Cache.System
import RemoteCache.Policy.LruRecency

/-!
# What an eviction does

`evict_until_gb` pops the nodes of the policy in the order of the stable sort by
decreasing score, as long as the measured usage exceeds the target. The entries
that the popped keys name end up evicted, and the files of those that were not
evicted before are the only ones that change. This holds in every reachable
state, since the policy stays linked in all of them.
-/
namespace RemoteCache

open FsLayout

/-! ### The keys popped -/

/-- The elements of a list that are taken while the usage exceeds the target. -/
def takenWhile {α : Type} (used : ℕ → ℚ) (freeGb : ℚ) (n : ℕ) (l : List α) : List α :=
  ((l.zipIdx n).takeWhile fun a => freeGb < used a.2).map (·.1)

theorem takenWhile_cons {α : Type} (used : ℕ → ℚ) (freeGb : ℚ) (n : ℕ) (a : α) (l : List α) :
    takenWhile used freeGb n (a :: l) =
      if freeGb < used n then a :: takenWhile used freeGb (n + 1) l else [] := by
  by_cases above : freeGb < used n <;> simp [takenWhile, above]

theorem takenWhile_below {α : Type} {used : ℕ → ℚ} {freeGb : ℚ} {n : ℕ}
    (below : ¬freeGb < used n) (l : List α) : takenWhile used freeGb n l = [] := by
  cases l with
  | nil => rfl
  | cons a l => rw [takenWhile_cons, if_neg below]

/-- The location is none of the files that evicting an object deletes or writes. -/
structure Config.Spares (cfg : Config) (d : Digest) (at_ : Path) : Prop where
  kept : ¬(at_.dropLast = cfg.shard d ∧ d.text <+: at_.getLastD [])
  unwritten : ∀ k, at_ ≠ cfg.bitmap d k

/-- Evicting an object leaves the files outside the shard directories alone. -/
theorem Config.spares_outside {cfg : Config} {at_ : Path} (outside : ¬cfg.InShard at_)
    (d : Digest) : cfg.Spares d at_ := by
  refine ⟨?_, fun k same => outside (same ▸ cfg.bitmap_inShard d k)⟩
  rintro ⟨front, start⟩
  -- A location whose last name starts with the hash is not the root.
  have some : at_ ≠ [] := by
    rintro rfl
    have long := start.length_le
    rw [d.length] at long
    simp at long
  refine outside (cfg.inShard_of_eq d [at_.getLast some] ?_)
  rw [cfg.shard_eq] at front
  calc at_ = at_.dropLast ++ [at_.getLast some] := (List.dropLast_append_getLast some).symm
    _ = _ := by rw [front]; simp

/-- Evicting an object leaves the data parts of the others alone. -/
theorem Config.spares_dataPart {cfg : Config} {d d' : Digest} (other : d' ≠ d) (k : ℕ) :
    cfg.Spares d' (cfg.dataPart d k) := by
  refine ⟨?_, fun i same => cfg.bitmap_ne_dataPart _ _ _ _ same.symm⟩
  rintro ⟨_, start⟩
  rw [cfg.dataPart_eq] at start
  have start : d'.text <+: d.text ++ '.' :: (Nat.toDigits 10 k ++ ['.', 'b', 'l', 'k']) := by
    simpa [partName] using start
  refine other (Digest.ext ?_)
  -- Hashes are equally long, so a name starts with one of them only.
  obtain ⟨rest, same⟩ := start
  exact (List.append_inj same (d'.length.trans d.length.symm)).1

namespace CacheManager

variable (cfg : Config)

/-- The keys that an eviction pops. -/
def popped (used : ℕ → ℚ) (freeGb : ℚ) (m : CacheManager) : List Key :=
  (takenWhile used freeGb 0 (Selection.byRank Node.score m.lru.nodes)).map (·.id)

/-- Some key in the list names the entry of the path. -/
def Names (keys : List Key) (path : Str) : Prop := ∃ key ∈ keys, key.addr = .entry path

instance (keys : List Key) (path : Str) : Decidable (Names keys path) :=
  inferInstanceAs (Decidable (∃ key ∈ keys, key.addr = .entry path))

/-- The entry of the path is in the table and an eviction that pops the keys evicts it. -/
def Evicting (m : CacheManager) (keys : List Key) (path : Str) (ce : CacheEntry) : Prop :=
  m.entries.lookup path = some ce ∧ ce.evicted = false ∧ Names keys path

/-- What popping the keys makes of the manager, but for the policy. -/
structure Evicts (keys : List Key) (m m' : CacheManager) : Prop where
  entries : ∀ path, m'.entries.lookup path =
    (m.entries.lookup path).map fun ce => { ce with evicted := ce.evicted || Names keys path }
  files : ∀ at_, (∀ path ce, m.Evicting keys path ce → cfg.Spares ce.hashHex at_) →
    m'.files at_ = m.files at_
  deleted : ∀ path ce, m.Evicting keys path ce → ∀ k, m'.files (cfg.dataPart ce.hashHex k) = none
  absent : ∀ d k, m.files (cfg.dataPart d k) = none → m'.files (cfg.dataPart d k) = none
  tasks : m'.tasks = m.tasks
  entered : ∀ key ∈ keys, ∃ path ce, key.addr = .entry path ∧ m.entries.lookup path = some ce

/-! ### One key -/

variable {cfg} {m m' m'' : CacheManager} {keys keys' : List Key}

theorem Evicting.unique {path : Str} {ce ce' : CacheEntry} (first : m.Evicting keys path ce)
    (second : m.entries.lookup path = some ce') : ce' = ce :=
  Option.some.inj (second.symm.trans first.1)

/-- A key without effect names an evicted entry; every other key evicts the entry it names. -/
theorem evictKey_cases {key : Key} (evicted : m.evictKey cfg key = some m') :
    ∃ path ce, key.addr = .entry path ∧ m.entries.lookup path = some ce ∧
      ((ce.evicted = true ∧ m' = m) ∨
        (ce.evicted = false ∧ m' =
          { m with
            files := MetadataStore.flushBitmaps cfg
              (BlockStore.deleteObject cfg m.files ce.hashHex) m.bitmap ce.hashHex
            entries := m.entries.insert path { ce with evicted := true } })) := by
  unfold evictKey at evicted
  split at evicted
  · cases evicted
  next path addr =>
    split at evicted
    · cases evicted
    next ce found =>
      refine ⟨path, ce, addr, found, ?_⟩
      split at evicted
      next gone => exact .inl ⟨gone, (Option.some.inj evicted).symm⟩
      next live => exact .inr ⟨by simpa using live, (Option.some.inj evicted).symm⟩

theorem deleteObject_other (files : Files) (d : Digest) {at_ : Path} (spares : cfg.Spares d at_) :
    BlockStore.deleteObject cfg files d at_ = files at_ :=
  if_neg spares.kept

theorem deleteObject_dataPart (files : Files) (d : Digest) (k : ℕ) :
    BlockStore.deleteObject cfg files d (cfg.dataPart d k) = none := by
  refine if_pos ?_
  rw [cfg.dataPart_eq, cfg.shard_eq]
  simp [partName]

theorem names_single {key : Key} {path : Str} : Names [key] path ↔ key.addr = .entry path := by
  simp [Names]

theorem evictKey_evicts {key : Key} (evicted : m.evictKey cfg key = some m') :
    Evicts cfg [key] m m' := by
  obtain ⟨path, ce, addr, found, effect⟩ := evictKey_cases evicted
  have only : ∀ other, Names [key] other ↔ other = path := fun other => by
    rw [names_single, addr, Addr.entry.injEq, eq_comm]
  have entered : ∀ k ∈ [key], ∃ path ce,
      k.addr = .entry path ∧ m.entries.lookup path = some ce := by
    simpa using ⟨path, addr, ce, found⟩
  rcases effect with ⟨gone, rfl⟩ | ⟨live, rfl⟩
  -- The entry has been evicted before: nothing changes.
  · refine ⟨fun other => ?_, fun _ _ => rfl, ?_, fun _ _ => id, rfl, entered⟩
    · by_cases same : other = path
      · subst same
        simp only [found, Option.map_some, gone, Bool.true_or]
        rw [← gone]
      · simp [only, same]
    · rintro other ce' ⟨found', live, named⟩
      cases (only other).mp named
      rw [found] at found'
      cases found'
      rw [gone] at live
      cases live
  -- The entry is evicted now: its files go, and its bitmaps may come back.
  · have evicting : m.Evicting [key] path ce := ⟨found, live, (only path).mpr rfl⟩
    refine ⟨fun other => ?_, fun at_ spares => ?_, ?_, ?_, rfl, entered⟩
    · by_cases same : other = path
      · subst same
        simp [found, only]
      · simp [only, same]
    · have spared := spares path ce evicting
      simp only
      rw [MetadataStore.flushBitmaps_other cfg _ _ _ spared.unwritten,
        deleteObject_other _ _ spared]
    · rintro other ce' evicting' k
      cases (only other).mp evicting'.2.2
      cases evicting.unique evicting'.1
      simp only
      rw [MetadataStore.flushBitmaps_other cfg _ _ _ fun i same =>
        cfg.bitmap_ne_dataPart _ _ _ _ same.symm, deleteObject_dataPart]
    · intro d k none
      simp only
      rw [MetadataStore.flushBitmaps_other cfg _ _ _ fun i same =>
        cfg.bitmap_ne_dataPart _ _ _ _ same.symm, BlockStore.deleteObject, none, ite_self]

/-! ### The loop -/

theorem names_append {path : Str} :
    Names (keys ++ keys') path ↔ Names keys path ∨ Names keys' path := by
  simp only [Names, List.mem_append, or_and_right, exists_or]

theorem Evicts.refl (m : CacheManager) : Evicts cfg [] m m :=
  ⟨fun path => by simp [Names], fun _ _ => rfl,
    fun _ _ evicting => by simp [Evicting, Names] at evicting, fun _ _ => id, rfl, by simp⟩

/-- An entry in the table after an eviction was there before. -/
theorem Evicts.lookup (evicts : Evicts cfg keys m m') {path : Str} {ce' : CacheEntry}
    (found : m'.entries.lookup path = some ce') :
    ∃ ce, m.entries.lookup path = some ce ∧
      ce' = { ce with evicted := ce.evicted || Names keys path } := by
  rw [evicts.entries] at found
  obtain ⟨ce, found, same⟩ := Option.map_eq_some_iff.mp found
  exact ⟨ce, found, same.symm⟩

theorem Evicts.trans (first : Evicts cfg keys m m') (second : Evicts cfg keys' m' m'') :
    Evicts cfg (keys ++ keys') m m'' := by
  -- What the later keys evict was in the table, live, when the first were popped.
  have later : ∀ path ce', m'.Evicting keys' path ce' →
      ∃ ce, m.Evicting (keys ++ keys') path ce ∧ ce.hashHex = ce'.hashHex := by
    rintro path ce' ⟨found, live, named⟩
    obtain ⟨ce, earlier, rfl⟩ := first.lookup found
    exact ⟨ce, ⟨earlier, (Bool.or_eq_false_iff.mp live).1, names_append.mpr (.inr named)⟩, rfl⟩
  refine ⟨fun path => ?_, fun at_ spares => ?_, fun path ce evicting k => ?_,
    fun d k none => second.absent d k (first.absent d k none), second.tasks.trans first.tasks,
    fun key member => ?_⟩
  · rw [second.entries, first.entries, Option.map_map]
    congr 1
    funext ce
    simp only [Function.comp_apply, names_append, Bool.decide_or, Bool.or_assoc]
  · rw [second.files, first.files]
    · exact fun path ce evicting =>
        spares path ce ⟨evicting.1, evicting.2.1, names_append.mpr (.inl evicting.2.2)⟩
    · intro path ce' evicting
      obtain ⟨ce, evicting, same⟩ := later path ce' evicting
      exact same ▸ spares path ce evicting
  · obtain ⟨found, live, named⟩ := evicting
    -- Parts deleted early are not written again, and others are deleted later.
    by_cases early : Names keys path
    · exact second.absent _ _ (first.deleted path ce ⟨found, live, early⟩ k)
    · have kept : m'.entries.lookup path = some { ce with evicted := false } := by
        simp [first.entries, found, live, early]
      have late := (names_append.mp named).resolve_left early
      exact second.deleted path _ ⟨kept, rfl, late⟩ k
  · rcases List.mem_append.mp member with early | late
    · exact first.entered key early
    · obtain ⟨path, ce', addr, found⟩ := second.entered key late
      obtain ⟨ce, found, _⟩ := first.lookup found
      exact ⟨path, ce, addr, found⟩

/-- The policy does not matter to what is evicted. -/
theorem Evicts.of_lru {lru : LruPolicy Key} (evicts : Evicts cfg keys { m with lru } m') :
    Evicts cfg keys m m' :=
  ⟨evicts.entries, evicts.files, evicts.deleted, evicts.absent, evicts.tasks, evicts.entered⟩

theorem evictKey_lru {key : Key} (evicted : m.evictKey cfg key = some m') : m'.lru = m.lru := by
  obtain ⟨_, _, _, _, ⟨_, rfl⟩ | ⟨_, rfl⟩⟩ := evictKey_cases evicted <;> rfl

/-- What a call of the loop does that has a pass left: it returns, with nothing more to take, or
it pops the worst node and goes on. -/
theorem evictLoop_cases {used : ℕ → ℚ} {freeGb : ℚ} {fuel n : ℕ} (linked : m.lru.Linked)
    (returned : m.evictLoop cfg used freeGb (fuel + 1) n = some m') :
    (takenWhile used freeGb n (Selection.byRank Node.score m.lru.nodes) = [] ∧
      ∃ lru : LruPolicy Key, m' = { m with lru } ∧ lru.Linked ∧
        lru.nodes.Sublist m.lru.nodes) ∨
    ∃ worst mid, takenWhile used freeGb n (Selection.byRank Node.score m.lru.nodes) =
        worst :: takenWhile used freeGb (n + 1) (Selection.byRank Node.score mid.lru.nodes) ∧
      evictKey cfg { m with lru := mid.lru } worst.id = some mid ∧ mid.lru.Linked ∧
      mid.lru.nodes.Sublist m.lru.nodes ∧ mid.lru.nodes.length < m.lru.nodes.length ∧
      mid.evictLoop cfg used freeGb fuel (n + 1) = some m' := by
  obtain ⟨sub, pops⟩ := linked.pops
  have remains := linked.evict
  unfold evictLoop at returned
  by_cases above : freeGb < used n
  · rw [if_pos above] at returned
    cases result : m.lru.evict with | mk lru victim =>
    rw [result] at pops remains sub
    simp only [result] at returned
    rcases pops with ⟨empty, rfl⟩ | ⟨worst, rfl, sorted, shorter⟩
    · cases returned
      rw [empty] at sub ⊢
      exact .inl ⟨rfl, lru, rfl, remains, sub⟩
    · obtain ⟨mid, evicted, rest⟩ := Option.bind_eq_some_iff.mp returned
      have same : mid.lru = lru := evictKey_lru evicted
      refine .inr ⟨worst, mid, ?_, by rwa [same], same ▸ remains, same ▸ sub, same ▸ shorter, rest⟩
      rw [sorted, takenWhile_cons, if_pos above, same]
  · rw [if_neg above] at returned
    cases returned
    exact .inl ⟨takenWhile_below above _, m.lru, rfl, linked, .refl _⟩

theorem evictLoop_evicts {used : ℕ → ℚ} {freeGb : ℚ} (fuel n : ℕ) (linked : m.lru.Linked)
    (enough : m.lru.nodes.length < fuel) (returned : m.evictLoop cfg used freeGb fuel n = some m') :
    Evicts cfg ((takenWhile used freeGb n (Selection.byRank Node.score m.lru.nodes)).map (·.id))
        m m' ∧
      m'.lru.Linked ∧ m'.lru.nodes.Sublist m.lru.nodes := by
  induction fuel generalizing n m with
  | zero => omega
  | succ fuel ih =>
    rcases evictLoop_cases linked returned with ⟨taken, lru, rfl, remains, sub⟩ |
      ⟨worst, mid, taken, evicted, remains, sub, shorter, rest⟩
    · rw [taken]
      exact ⟨(Evicts.refl _).of_lru, remains, sub⟩
    · obtain ⟨evicts, linked', sub'⟩ := ih (n + 1) remains (by omega) rest
      rw [taken]
      exact ⟨(evictKey_evicts evicted).of_lru.trans evicts, linked', sub'.trans sub⟩

theorem evictUntilGb_evicts {used : ℕ → ℚ} {freeGb : ℚ} (linked : m.lru.Linked)
    (returned : m.evictUntilGb cfg used freeGb = some m') :
    Evicts cfg (m.popped used freeGb) m m' ∧ m'.lru.Linked ∧ m'.lru.nodes.Sublist m.lru.nodes :=
  evictLoop_evicts _ 0 linked (by rw [LruPolicy.length_nodes]; exact Nat.lt_succ_self _) returned

/-- An eviction leaves the files outside the shard directories alone. -/
theorem evictLoop_outside {used : ℕ → ℚ} {freeGb : ℚ} {fuel n : ℕ} {at_ : Path}
    (outside : ¬cfg.InShard at_) (returned : m.evictLoop cfg used freeGb fuel n = some m') :
    m'.files at_ = m.files at_ := by
  induction fuel generalizing n m with
  | zero =>
    cases returned
    rfl
  | succ fuel ih =>
    unfold evictLoop at returned
    split at returned
    · split at returned
      · cases returned
        rfl
      next lru key _ =>
        obtain ⟨mid, evicted, rest⟩ := Option.bind_eq_some_iff.mp returned
        rw [ih rest]
        obtain ⟨_, ce, _, _, ⟨_, rfl⟩ | ⟨_, rfl⟩⟩ := evictKey_cases evicted
        · rfl
        · have spares := Config.spares_outside outside ce.hashHex
          calc MetadataStore.flushBitmaps cfg (BlockStore.deleteObject cfg m.files ce.hashHex)
                m.bitmap ce.hashHex at_
              = BlockStore.deleteObject cfg m.files ce.hashHex at_ :=
                MetadataStore.flushBitmaps_other _ _ _ _ spares.unwritten
            _ = m.files at_ := deleteObject_other _ _ spares
    · cases returned
      rfl

end CacheManager

end RemoteCache
