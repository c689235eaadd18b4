import RemoteCache.Cache.DirtyBits
import RemoteCache.Cache.EvictionFrame
import RemoteCache.Cache.EvictionTransparency

/-!
# What an eviction leaves behind

## Main result

`eviction_reclaims`: as long as evictions take only objects without dirty bits and
no write-through copy is put among the files of an evicted object, an evicted
object has no files and no dirty bits. The first step that does otherwise breaks
this.

## Proof strategy

Deleting an object removes its files; flushing it afterwards puts back a bitmap
for each of its bit vectors, and nothing ever clears a bit. Calls on an evicted
path are refused, calls on other paths store and mark under other hashes, and a
flush writes no bitmap of an object without bit vectors. `evictLoop_keys` reduces
an eviction to its popped keys, one after the other.
-/
namespace RemoteCache

open FsLayout

/-- The location is that of a file in the shard directory of the object whose name starts with
the object's hash. -/
def Config.Belongs (cfg : Config) (d : Digest) (at_ : Path) : Prop :=
  at_.dropLast = cfg.shard d ∧ d.text <+: at_.getLastD []

theorem Config.belongs_dataPart {cfg : Config} {d d' : Digest} {k : ℕ}
    (belongs : cfg.Belongs d' (cfg.dataPart d k)) : d' = d := by
  by_contra other
  exact (cfg.spares_dataPart other k).kept belongs

theorem Config.belongs_bitmap {cfg : Config} {d d' : Digest} {k : ℕ}
    (belongs : cfg.Belongs d' (cfg.bitmap d k)) : d' = d := by
  by_contra other
  exact (cfg.spares_bitmap other k).kept belongs

theorem Config.bitmap_belongs (cfg : Config) (d : Digest) (k : ℕ) :
    cfg.Belongs d (cfg.bitmap d k) := by
  rw [Belongs, cfg.bitmap_eq, cfg.shard_eq]
  simp [partName]

/-- A call, or a call of `flush_all`. -/
inductive Command where
  | call (e : Event)
  | flushAll

namespace CacheManager

open MetadataStore

variable (cfg : Config)

def command (m : CacheManager) : Command → Option (CacheManager × Option Output)
  | .call e => (m.step cfg e).map fun stepped => (stepped.1, some stepped.2)
  | .flushAll => some (m.flushAll cfg, none)

def Commands (m : CacheManager) (c : Command) (o : Option Output) (m' : CacheManager) : Prop :=
  m.command cfg c = some (m', o)

/-- The object has no files and no dirty bits. -/
structure Vacant (m : CacheManager) (d : Digest) : Prop where
  files : ∀ at_, cfg.Belongs d at_ → m.files at_ = none
  clean : ∀ k b, dirty m.bitmap d k b = false

/-- Every evicted object is vacant. -/
def Reclaimed (m : CacheManager) : Prop :=
  ∀ path ce, m.entries.lookup path = some ce → ce.evicted = true → Vacant cfg m ce.hashHex

/-- An eviction takes only objects without dirty bits, and a write does not put its copy among
the files of an evicted object. -/
def Tidy (m : CacheManager) : Command → Prop
  | .call (.evict used freeGb) => ∀ path ce, m.Evicting (m.popped used freeGb) path ce →
      ∀ k b, dirty m.bitmap ce.hashHex k b = false
  | .call (.write path data _) => m.gone path = false → 0 < data.size →
      ∀ q ce, m.entries.lookup q = some ce → ce.evicted = true →
        ¬cfg.Belongs ce.hashHex (cfg.copy path)
  | .call (.read _ _ _ _) => True
  | .call (.prefetch _ _) => True
  | .flushAll => True

/-- Everything but prefetch jobs, on named paths. -/
def Sequential (names : Str → Prop) : Command → Prop
  | .call (.read _ path _ _) => names path
  | .call (.write path _ _) => names path
  | .call (.prefetch _ _) => False
  | .call (.evict _ _) => True
  | .flushAll => True

variable {cfg} {m m' : CacheManager} {path : Str} {names : Str → Prop}

/-! ### Bit vectors -/

/-- A bit vector is kept only for an object with a dirty bit. -/
def Recorded (bitmap : Bitmaps) : Prop :=
  ∀ d, bitmap.lookup d ≠ none → ∃ k b, dirty bitmap d k b = true

theorem dirty_congr {bitmap bitmap' : Bitmaps} {d : Digest}
    (same : bitmap'.lookup d = bitmap.lookup d) (k b : ℕ) :
    dirty bitmap' d k b = dirty bitmap d k b := by
  rw [dirty, dirty, vecOf, vecOf, same]

theorem Recorded.lookup {bitmap : Bitmaps} (recorded : Recorded bitmap) {d : Digest}
    (clean : ∀ k b, dirty bitmap d k b = false) : bitmap.lookup d = none := by
  by_contra there
  obtain ⟨k, b, marked⟩ := recorded d there
  rw [clean] at marked
  cases marked

theorem markDirtyBlock_other (bitmap : Bitmaps) {d d' : Digest} (k blk : ℕ) (other : d' ≠ d) :
    (markDirtyBlock bitmap d k blk).lookup d' = bitmap.lookup d' := by
  simp [markDirtyBlock, other]

theorem Recorded.mark {bitmap : Bitmaps} (recorded : Recorded bitmap) (d : Digest) (k blk : ℕ) :
    Recorded (markDirtyBlock bitmap d k blk) := by
  intro d' there
  by_cases same : d' = d
  · subst same
    exact ⟨k, blk, (dirty_markDirtyBlock bitmap d' d' k k blk blk).mpr (.inr ⟨rfl, rfl, rfl⟩)⟩
  · have kept := markDirtyBlock_other bitmap k blk same
    rw [kept] at there
    obtain ⟨k', b, marked⟩ := recorded d' there
    exact ⟨k', b, (dirty_congr kept k' b).trans marked⟩

variable (cfg) in
/-- A write marks blocks of its own object only. -/
theorem write_bitmap (m : CacheManager) (recorded : Recorded m.bitmap) (path : Str) (data : Bytes)
    (off : ℕ) :
    Recorded (m.write cfg succeed path data off).1.bitmap ∧
      ∀ d, d ≠ (m.entry cfg path).2.hashHex →
        (m.write cfg succeed path data off).1.bitmap.lookup d = m.bitmap.lookup d := by
  have start : Recorded (m.entry cfg path).1.bitmap ∧ ∀ d, d ≠ (m.entry cfg path).2.hashHex →
      (m.entry cfg path).1.bitmap.lookup d = m.bitmap.lookup d := by
    rw [entry_bitmap]
    exact ⟨recorded, fun _ _ => rfl⟩
  by_cases refused : (m.entry cfg path).2.evicted = true
  · rw [write_evicted cfg refused]
    exact start
  · exact (write_rule cfg (fun s => Recorded s.mgr.bitmap ∧
      ∀ d, d ≠ (m.entry cfg path).2.hashHex → s.mgr.bitmap.lookup d = m.bitmap.lookup d)
      (by simpa using refused) start fun s p ⟨recorded, others⟩ _ _ =>
        ⟨recorded.mark _ _ _, fun d other =>
          (markDirtyBlock_other _ _ _ other).trans (others d other)⟩).1

/-! ### Popped keys -/

/-- Evicts the entries of some keys, one after the other. -/
def evictKeys (cfg : Config) : CacheManager → List Key → Option CacheManager
  | m, [] => some m
  | m, key :: keys => (m.evictKey cfg key).bind fun m' => evictKeys cfg m' keys

theorem evictKey_with {lru lru' : LruPolicy Key} {key : Key}
    (evicted : evictKey cfg { m with lru } key = some m') :
    evictKey cfg { m with lru := lru' } key = some { m' with lru := lru' } := by
  obtain ⟨path, ce, addr, found, ⟨gone, rfl⟩ | ⟨live, rfl⟩⟩ := evictKey_cases evicted
  · have found : m.entries.lookup path = some ce := found
    simp only [evictKey, addr, found, gone, if_true]
  · have found : m.entries.lookup path = some ce := found
    simp only [evictKey, addr, found, live, Bool.false_eq_true, if_false]

/-- But for the policy, the loop does what its popped keys do. -/
theorem evictLoop_keys {used : ℕ → ℚ} {freeGb : ℚ} (fuel n : ℕ) (linked : m.lru.Linked)
    (enough : m.lru.nodes.length < fuel) (returned : m.evictLoop cfg used freeGb fuel n = some m') :
    evictKeys cfg { m with lru := m'.lru }
      ((takenWhile used freeGb n (Selection.byRank Node.score m.lru.nodes)).map (·.id)) =
        some m' := by
  induction fuel generalizing n m with
  | zero => omega
  | succ fuel ih =>
    rcases evictLoop_cases linked returned with ⟨taken, lru, rfl, _, _⟩ |
      ⟨worst, mid, taken, evicted, remains, _, shorter, rest⟩
    · rw [taken]
      rfl
    · rw [taken, List.map_cons, evictKeys, evictKey_with evicted]
      exact ih (n + 1) remains (by omega) rest

theorem evictUntilGb_keys {used : ℕ → ℚ} {freeGb : ℚ} (linked : m.lru.Linked)
    (returned : m.evictUntilGb cfg used freeGb = some m') :
    evictKeys cfg { m with lru := m'.lru } (m.popped used freeGb) = some m' := by
  have length := m.lru.length_nodes
  exact evictLoop_keys _ 0 linked (by omega) returned

/-- Evicting the entry of one key leaves its object vacant if it has no dirty bits. -/
theorem evictKey_reclaimed {key : Key} (evicted : m.evictKey cfg key = some m')
    (recorded : Recorded m.bitmap) (reclaimed : Reclaimed cfg m)
    (clean : ∀ path ce, m.Evicting [key] path ce → ∀ k b, dirty m.bitmap ce.hashHex k b = false) :
    m'.bitmap = m.bitmap ∧ Reclaimed cfg m' := by
  obtain ⟨path, ce, addr, found, ⟨gone, rfl⟩ | ⟨live, rfl⟩⟩ := evictKey_cases evicted
  · exact ⟨rfl, reclaimed⟩
  · have bits := clean path ce ⟨found, live, names_single.mpr addr⟩
    -- Without a vector for the object the flush writes nothing.
    have flushed : flushBitmaps cfg (BlockStore.deleteObject cfg m.files ce.hashHex) m.bitmap
        ce.hashHex = BlockStore.deleteObject cfg m.files ce.hashHex := by
      simp only [flushBitmaps, recorded.lookup bits]
    refine ⟨rfl, fun q ce' found' gone => ?_⟩
    simp only [flushed] at found' ⊢
    by_cases same : q = path
    · subst same
      rw [AList.lookup_insert] at found'
      cases found'
      exact ⟨fun at_ belongs => if_pos belongs, bits⟩
    · rw [AList.lookup_insert_ne same] at found'
      -- Other evicted objects have no files that the deletion could miss.
      obtain ⟨files, clean'⟩ := reclaimed q ce' found' gone
      refine ⟨fun at_ belongs => ?_, clean'⟩
      simp only [BlockStore.deleteObject, files at_ belongs, ite_self]

theorem evictKeys_reclaimed {keys : List Key} (evicted : evictKeys cfg m keys = some m')
    (recorded : Recorded m.bitmap) (reclaimed : Reclaimed cfg m)
    (clean : ∀ path ce, m.Evicting keys path ce → ∀ k b, dirty m.bitmap ce.hashHex k b = false) :
    Reclaimed cfg m' := by
  induction keys generalizing m with
  | nil =>
    cases evicted
    exact reclaimed
  | cons key keys ih =>
    obtain ⟨mid, first, rest⟩ := Option.bind_eq_some_iff.mp evicted
    obtain ⟨bitmap, reclaimed'⟩ := evictKey_reclaimed first recorded reclaimed
      fun path ce ⟨found, live, key', member, addr⟩ =>
        clean path ce ⟨found, live, key', by simpa using .inl (List.mem_singleton.mp member), addr⟩
    have evicts := evictKey_evicts first
    -- Keys that take a clean object later take one that is clean now.
    refine ih rest (bitmap ▸ recorded) reclaimed' fun path ce' ⟨found', live, named⟩ => ?_
    obtain ⟨ce, found, rfl⟩ := evicts.lookup found'
    have before : m.Evicting (key :: keys) path ce := by
      obtain ⟨key', member, addr⟩ := named
      exact ⟨found, (Bool.or_eq_false_iff.mp live).1, key', List.mem_cons_of_mem key member, addr⟩
    rw [bitmap]
    exact clean path ce before

theorem evictKeys_bitmap {keys : List Key} (evicted : evictKeys cfg m keys = some m') :
    m'.bitmap = m.bitmap := by
  induction keys generalizing m with
  | nil =>
    cases evicted
    rfl
  | cons key keys ih =>
    obtain ⟨mid, first, rest⟩ := Option.bind_eq_some_iff.mp evicted
    have same : mid.bitmap = m.bitmap := by
      obtain ⟨_, _, _, _, ⟨_, rfl⟩ | ⟨_, rfl⟩⟩ := evictKey_cases first <;> rfl
    rw [ih rest, same]

/-! ### Steps -/

/-- An entry of a named path, under its hash. -/
def NamedKeyed (cfg : Config) (names : Str → Prop) (path : Str) (ce : CacheEntry) : Prop :=
  names path ∧ Keyed cfg path ce

theorem settled_namedKeyed (name : names path) : Settled cfg (NamedKeyed cfg names) path :=
  ⟨⟨name, rfl, rfl⟩, fun _ _ keyed => keyed⟩

/-- The invariant of runs in which every step is tidy. -/
structure Swept (cfg : Config) (names : Str → Prop) (m : CacheManager) : Prop where
  each : EachEntry (NamedKeyed cfg names) m
  linked : m.lru.Linked
  recorded : Recorded m.bitmap
  reclaimed : Reclaimed cfg m

/-- The path has been evicted, and its object has no files and no dirty bits. -/
theorem Swept.vacant (swept : Swept cfg names m) (gone : m.gone path = true) :
    names path ∧ Vacant cfg m (cfg.hashHex path) := by
  obtain ⟨ce, found, evicted⟩ := gone_eq_true.mp gone
  obtain ⟨name, _, hash⟩ := swept.each.table path ce found
  exact ⟨name, hash ▸ swept.reclaimed path ce found evicted⟩

theorem reclaimed_of_vacant (each : EachEntry (NamedKeyed cfg names) m)
    (vacant : ∀ q, m.gone q = true → Vacant cfg m (cfg.hashHex q)) : Reclaimed cfg m := by
  intro path ce found evicted
  rw [(each.table path ce found).2.2]
  exact vacant path (gone_eq_true.mpr ⟨ce, found, evicted⟩)

theorem entry_gone (gone : m.gone path = true) : (m.entry cfg path).1 = m := by
  obtain ⟨ce, found, _⟩ := gone_eq_true.mp gone
  rw [entry, found]

/-- A call on a path that has not been evicted keeps the objects of evicted paths vacant if it
leaves their files alone. -/
theorem Swept.leaves (swept : Swept cfg names m) (each : EachEntry (NamedKeyed cfg names) m')
    {own : Path → Prop} (leaves : Leaves own m m')
    (apart : ∀ q, m.gone q = true → ∀ at_, cfg.Belongs (cfg.hashHex q) at_ → ¬own at_)
    (bits : ∀ q, m.gone q = true →
      m'.bitmap.lookup (cfg.hashHex q) = m.bitmap.lookup (cfg.hashHex q)) :
    Reclaimed cfg m' := by
  refine reclaimed_of_vacant each fun q gone => ?_
  have gone : m.gone q = true := (leaves.gone q).symm.trans gone
  obtain ⟨_, files, clean⟩ := swept.vacant gone
  refine ⟨fun at_ belongs => ?_, fun k b => ?_⟩
  · rw [leaves.files at_ (apart q gone at_ belongs), files at_ belongs]
  · rw [dirty_congr (bits q gone), clean]

/-- The hash of an evicted path is not the hash of a path that has not been evicted. -/
theorem Swept.other (swept : Swept cfg names m)
    (distinct : ∀ p q, names p → names q → cfg.hash p = cfg.hash q → p = q) (name : names path)
    (live : m.gone path = false) {q : Str} (gone : m.gone q = true) :
    cfg.hashHex q ≠ (m.entry cfg path).2.hashHex := by
  intro same
  have keyed := (swept.each.entry cfg (settled_namedKeyed name)).2.2.2
  rw [keyed] at same
  rw [distinct q path (swept.vacant gone).1 name (Digest.ofHash_injective same), live] at gone
  cases gone

theorem Swept.read (swept : Swept cfg names m)
    (distinct : ∀ p q, names p → names q → cfg.hash p = cfg.hash q → p = q) (name : names path)
    (env : Env) (len off : ℕ) : Swept cfg names (m.read cfg env path len off).1 := by
  have each := swept.each.read cfg (settled_namedKeyed name) env len off
  refine ⟨each, (read_visits swept.linked env path len off).linked, ?_, ?_⟩
  · rw [read_bitmap]
    exact swept.recorded
  · cases gone : m.gone path with
    | true =>
      rw [read_evicted cfg ((entry_evicted cfg m path).trans gone), entry_gone gone]
      exact swept.reclaimed
    | false =>
      refine swept.leaves each (read_leaves m env path len off) ?_ fun q _ => by rw [read_bitmap]
      rintro q gone' _ belongs ⟨k, rfl⟩
      exact swept.other distinct name gone gone' (Config.belongs_dataPart belongs)

theorem Swept.write (swept : Swept cfg names m)
    (distinct : ∀ p q, names p → names q → cfg.hash p = cfg.hash q → p = q) (name : names path)
    (data : Bytes) (off : ℕ) :
    (Reclaimed cfg (m.write cfg succeed path data off).1 ↔
      Tidy cfg m (.call (.write path data off))) ∧
    (Tidy cfg m (.call (.write path data off)) →
      Swept cfg names (m.write cfg succeed path data off).1) := by
  have each := swept.each.write cfg (settled_namedKeyed name) data off
  have leaves := write_leaves cfg m path data off
  obtain ⟨recorded, bitmap⟩ := write_bitmap cfg m swept.recorded path data off
  have kept : Tidy cfg m (.call (.write path data off)) →
      Reclaimed cfg (m.write cfg succeed path data off).1 := by
    intro tidy
    cases gone : m.gone path with
    | true =>
      rw [write_evicted cfg ((entry_evicted cfg m path).trans gone), entry_gone gone]
      exact swept.reclaimed
    | false =>
      by_cases some : 0 < data.size
      · refine swept.leaves each leaves ?_ fun q gone' =>
          bitmap _ (swept.other distinct name gone gone')
        rintro q gone' at_ belongs (⟨k, rfl⟩ | rfl)
        · exact swept.other distinct name gone gone' (Config.belongs_dataPart belongs)
        · obtain ⟨ce, found, evicted⟩ := gone_eq_true.mp gone'
          have hash := (swept.each.table q ce found).2.2
          exact tidy gone some q ce found evicted (hash ▸ belongs)
      · -- Nothing is written.
        have none : (m.write cfg succeed path data off).1.files = m.files := by
          have empty : data.size = 0 := by omega
          have live := (entry_evicted cfg m path).trans gone
          simp [CacheManager.write, live, empty, loop, entry_files]
        have same : Leaves (fun _ => False) m (m.write cfg succeed path data off).1 :=
          ⟨leaves.gone, fun _ _ => by rw [none]⟩
        exact swept.leaves each same (fun _ _ _ _ => id) fun q gone' =>
          bitmap _ (swept.other distinct name gone gone')
  refine ⟨⟨fun reclaimed live some q ce found evicted belongs => ?_, kept⟩, fun tidy =>
    ⟨each, (write_visits swept.linked path data off).linked, recorded, kept tidy⟩⟩
  -- A copy among the files of an evicted object is such a file afterwards.
  have gone : (m.write cfg succeed path data off).1.gone q = true :=
    (leaves.gone q).trans (gone_eq_true.mpr ⟨ce, found, evicted⟩)
  obtain ⟨ce', found', evicted'⟩ := gone_eq_true.mp gone
  have hash : ce'.hashHex = ce.hashHex :=
    (each.table q ce' found').2.2.trans (swept.each.table q ce found).2.2.symm
  exact write_copied m path data off live some
    ((reclaimed q ce' found' evicted').files _ (hash ▸ belongs))

theorem Swept.flushAll (swept : Swept cfg names m) : Swept cfg names (m.flushAll cfg) := by
  refine ⟨swept.each.of_same rfl rfl, swept.linked, swept.recorded, fun path ce found gone => ?_⟩
  obtain ⟨files, clean⟩ := swept.reclaimed path ce found gone
  refine ⟨fun at_ belongs => ?_, clean⟩
  rw [flushAll_files]
  by_cases place : ∃ d k, at_ = cfg.bitmap d k
  · obtain ⟨d, k, rfl⟩ := place
    have same := Config.belongs_bitmap belongs
    -- No vector of the object is left to write.
    have vec : vecOf m.bitmap d k = [] := by
      rw [vecOf, ← same, swept.recorded.lookup clean]
      rfl
    rw [flushEach_same, files _ belongs, vec, bitmapFile, if_pos rfl]
    exact ite_self none
  · simp only [not_exists] at place
    rw [flushEach_other cfg m.bitmap m.files m.hashes place, files at_ belongs]

theorem Swept.evict (swept : Swept cfg names m) {used : ℕ → ℚ} {freeGb : ℚ}
    (returned : m.evictUntilGb cfg used freeGb = some m') :
    (Reclaimed cfg m' ↔ Tidy cfg m (.call (.evict used freeGb))) ∧
    (Tidy cfg m (.call (.evict used freeGb)) → Swept cfg names m') := by
  obtain ⟨evicts, linked, _⟩ := evictUntilGb_evicts swept.linked returned
  have keys := evictUntilGb_keys swept.linked returned
  have bitmap := evictKeys_bitmap keys
  simp only at bitmap
  have iff : Reclaimed cfg m' ↔ Tidy cfg m (.call (.evict used freeGb)) := by
    constructor
    -- Dirty bits outlive the eviction, so a dirty victim is not vacant.
    · rintro reclaimed path ce ⟨found, live, named⟩ k b
      have marked : m'.entries.lookup path = some { ce with evicted := true } := by
        rw [evicts.entries, found, Option.map_some]
        simp [named]
      rw [← bitmap]
      exact (reclaimed path _ marked rfl).clean k b
    · intro tidy
      have before : Reclaimed cfg { m with lru := m'.lru } := fun path ce found gone =>
        ⟨(swept.reclaimed path ce found gone).files, (swept.reclaimed path ce found gone).clean⟩
      exact evictKeys_reclaimed keys swept.recorded before tidy
  refine ⟨iff, fun tidy => ⟨swept.each.evict (fun _ _ _ keyed => keyed) evicts, linked, ?_,
    iff.mpr tidy⟩⟩
  rw [bitmap]
  exact swept.recorded

theorem Swept.step {c : Command} {o : Option Output} (swept : Swept cfg names m)
    (distinct : ∀ p q, names p → names q → cfg.hash p = cfg.hash q → p = q)
    (taken : Commands cfg m c o m') (call : Sequential names c) :
    (Reclaimed cfg m' ↔ Tidy cfg m c) ∧ (Tidy cfg m c → Swept cfg names m') := by
  cases c with
  | flushAll =>
    cases taken
    exact ⟨iff_of_true swept.flushAll.reclaimed trivial, fun _ => swept.flushAll⟩
  | call e =>
    obtain ⟨⟨_, _⟩, stepped, same⟩ := Option.map_eq_some_iff.mp taken
    cases same
    cases e with
    | read env path len off =>
      cases stepped
      have after := swept.read distinct call env len off
      exact ⟨iff_of_true after.reclaimed trivial, fun _ => after⟩
    | write path data off =>
      cases stepped
      exact swept.write distinct call data off
    | prefetch => exact call.elim
    | evict used freeGb =>
      obtain ⟨_, returned, same⟩ := Option.map_eq_some_iff.mp stepped
      cases same
      exact swept.evict returned

/-- In every run of calls, flushes and evictions whose steps are all tidy, an evicted object has
no files and no dirty bits; the first step that is not tidy breaks this. -/
theorem eviction_reclaims (cfg : Config) (names : Str → Prop)
    (distinct : ∀ p q, names p → names q → cfg.hash p = cfg.hash q → p = q) (files : Files)
    (trace : List (Command × Option Output)) (m : CacheManager)
    (run : Run (fun m c o m' => Commands cfg m c o m' ∧ Sequential names c ∧ Tidy cfg m c)
      (new files) trace m) :
    Reclaimed cfg m ∧
      ∀ c o m', Commands cfg m c o m' → Sequential names c → (Reclaimed cfg m' ↔ Tidy cfg m c) := by
  have swept : Swept cfg names m := by
    induction run with
    | refl =>
      refine ⟨each_new _ files, LruPolicy.linked_new _, fun d there => ?_, fun path ce found => ?_⟩
      · exact absurd rfl there
      · cases found
    | next before taken swept => exact (swept.step distinct taken.1 taken.2.1).2 taken.2.2
  exact ⟨swept.reclaimed, fun c o m' taken call => (swept.step distinct taken call).1⟩

theorem eviction_reclaims_flushed :
    ∃ m, (((new fun _ => none).read .sample (.serving threeBlocks) ['/', 'f'] 1 0).1.evictUntilGb
        .sample oneBlockUsed 0) = some m ∧
      Reclaimed .sample (m.flushAll .sample) ∧
      ∀ c o m', Commands .sample (m.flushAll .sample) c o m' → Sequential (· = ['/', 'f']) c →
        (Reclaimed .sample m' ↔ Tidy .sample (m.flushAll .sample) c) := by
  have ends : (((new fun _ => none).read .sample (.serving threeBlocks)
      ['/', 'f'] 1 0).1.evictUntilGb .sample oneBlockUsed 0).isSome = true := by
    decide +kernel
  obtain ⟨m, returned⟩ := Option.isSome_iff_exists.mp ends
  have clean : Tidy .sample ((new fun _ => none).read .sample (.serving threeBlocks)
      ['/', 'f'] 1 0).1 (.call (.evict oneBlockUsed 0)) := by
    intro path ce _ k b
    rw [read_bitmap]
    rfl
  refine ⟨m, returned, eviction_reclaims .sample (· = ['/', 'f'])
    (fun p q first second _ => first.trans second.symm) (fun _ => none)
    [(.call (.read (.serving threeBlocks) ['/', 'f'] 1 0), some (.read _)),
      (.call (.evict oneBlockUsed 0), some .evicted), (.flushAll, none)] _
    (.next (.next (.next (.refl _) ⟨rfl, rfl, trivial⟩) ⟨?_, trivial, clean⟩)
      ⟨rfl, trivial, trivial⟩)⟩
  simp only [Commands, command, step, returned, Option.map_some]

private theorem bitmap_left :
    ((exec (command .sample) (new fun _ => none)
        [.call (.write ['/', 'f'] (.ofFn 1 fun _ => 7) 0), .call (.evict oneBlockUsed 0)]).map
      fun reached => ((reached.1.entries.lookup ['/', 'f']).map fun ce => (ce.evicted, ce.hashHex),
        (reached.1.files (Config.sample.bitmap (Config.sample.hashHex ['/', 'f']) 0)).isSome)) =
      some (some (true, Config.sample.hashHex ['/', 'f']), true) := by
  decide +kernel

/-- Evicting a file that has been written leaves a bitmap of it. -/
theorem bitmap_after_eviction :
    ¬∀ (trace : List (Command × Option Output)) (m : CacheManager),
      Run (Commands .sample) (new fun _ => none) trace m →
      (∀ entry ∈ trace, Sequential (· = ['/', 'f']) entry.1) → Reclaimed .sample m := by
  intro all
  obtain ⟨⟨m, trace⟩, done, left⟩ := Option.map_eq_some_iff.mp bitmap_left
  obtain ⟨marked, there⟩ := Prod.mk.inj left
  obtain ⟨ce, found, same⟩ := Option.map_eq_some_iff.mp marked
  obtain ⟨gone, hash⟩ := Prod.mk.inj same
  have labels := Run.exec_events done
  have calls : ∀ entry ∈ trace, Sequential (· = ['/', 'f']) entry.1 := by
    intro entry member
    have label := List.mem_map_of_mem (f := (·.1)) member
    rw [labels, List.mem_pair] at label
    rcases label with same | same <;> rw [same]
    · exact rfl
    · trivial
  have vacant := all trace m (Run.of_exec done) calls ['/', 'f'] ce found gone
  rw [hash] at vacant
  rw [vacant.files _ (Config.bitmap_belongs _ _ 0)] at there
  cases there

end CacheManager

end RemoteCache
