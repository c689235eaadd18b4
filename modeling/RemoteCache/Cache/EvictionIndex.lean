import RemoteCache.Cache.EvictionFrame
import RemoteCache.Cache.LruKeys
import RemoteCache.Policy.LruLevel

/-!
# Stored objects and the policy

## Main result

`index_complete`: as long as no call pushes the last key of another object out of
a full policy, every object that has a data part has a live entry and a key, so
that an eviction with the target zero deletes all data parts. The first call that
does push it out breaks this.

## Proof strategy

All keys are equally hot, so only the first touch of a call can push out a key of
another object: after it the call's own key is at the front. `Underway` says
this of a call after any number of passes. An eviction deletes the parts of the
objects whose keys it pops, and keeps the keys of all others.
-/
namespace RemoteCache

/-- The event runs a prefetch job. -/
def Event.isPrefetch : Event → Bool
  | .prefetch _ _ => true
  | _ => false

/-- The write-through copy is a data part of the object. -/
def Event.CopiesInto (cfg : Config) (d : Digest) : Event → Prop
  | .write path _ _ => ∃ k, cfg.copy path = cfg.dataPart d k
  | _ => False

namespace CacheManager

variable (cfg : Config)

/-- The object has a data part. -/
def OnDisk (files : Files) (d : Digest) : Prop := ∃ k, files (cfg.dataPart d k) ≠ none

/-- The node is under the key of a live entry with the hash. -/
def Indexes (m : CacheManager) (d : Digest) (n : Node Key) : Prop :=
  ∃ path ce, n.id.addr = .entry path ∧ m.entries.lookup path = some ce ∧ ce.evicted = false ∧
    ce.hashHex = d

/-- Every object that has a data part has a live entry with a key in the policy. -/
def Indexed (m : CacheManager) : Prop :=
  ∀ d, OnDisk cfg m.files d → ∃ n ∈ m.lru.nodes, m.Indexes d n

/-- The call is not refused and gets as far as touching its first block. -/
def Touches (m : CacheManager) (path : Str) (blk : ℕ) : Event → Prop
  | .read env name len off => name = path ∧ blk = off / kBlockSize ∧ m.gone path = false ∧ 0 < len ∧
      ((m.blocks cfg).Full kBlockSize (m.entry cfg path).2.hashHex blk ∨
        (fetch cfg env.backend m.files path blk).isSome)
  | .write name data off =>
      name = path ∧ blk = off / kBlockSize ∧ m.gone path = false ∧ 0 < data.size
  | .prefetch _ _ => False
  | .evict _ _ => False

/-- No prefetch job runs, and every other object that has a data part, or gets one from a
write-through copy, has a key that the first touch of the call does not push out. -/
def Keeps (m : CacheManager) (e : Event) : Prop :=
  e.isPrefetch = false ∧ ∀ path blk, m.Touches cfg path blk e →
    ∀ d, d ≠ (m.entry cfg path).2.hashHex → OnDisk cfg m.files d ∨ e.CopiesInto cfg d →
      ∃ n ∈ m.lru.nodes, m.Indexes d n ∧ ¬m.lru.PushesOut ⟨.entry path, blk⟩ n

/-- The usage is measured as positive while some file under the root has something in it. -/
def Measures (m : CacheManager) (used : ℕ → ℚ) : Prop :=
  ∀ n mid, m.evictLoop cfg used 0 n 0 = some mid →
    (∃ at_ b, cfg.base <+: at_ ∧ mid.files at_ = some b ∧ 0 < b.size) → 0 < used n

variable {cfg} {m m' m'' : CacheManager} {path : Str} {blk : ℕ} {e : Event}

/-! ### Data parts -/

/-- No data part is empty. -/
def Solid (cfg : Config) (files : Files) : Prop :=
  ∀ d k b, files (cfg.dataPart d k) = some b → 0 < b.size

theorem Solid.set {files : Files} (solid : Solid cfg files) (at_ : Path) {b : Bytes}
    (some : 0 < b.size) : Solid cfg (files.set at_ b) := by
  intro d k b' found
  by_cases here : cfg.dataPart d k = at_
  · rw [here, Files.set_same] at found
    cases found
    exact some
  · rw [Files.set_other _ _ here] at found
    exact solid d k b' found

theorem write_positive (b data : Bytes) (off : ℕ) (some : 0 < data.size) :
    0 < (b.write data off).size := by
  rw [Blob.size_write, if_neg (by omega)]
  omega

theorem Solid.store (solid : Solid cfg m.files) (d : Digest) (blk : ℕ) {data : Bytes}
    (some : 0 < data.size) : Solid cfg (m.store cfg d blk data).files :=
  solid.set _ (write_positive _ _ _ some)

/-! ### Entries -/

/-- A call enters its path into the table and keeps what matters of all entries. -/
structure Enters (cfg : Config) (path : Str) (m m' : CacheManager) : Prop where
  own : ∃ ce, m'.entries.lookup path = some ce ∧ ce.hashHex = (m.entry cfg path).2.hashHex ∧
    ce.evicted = m.gone path
  others : ∀ q, q ≠ path → m'.entries.lookup q = m.entries.lookup q

theorem enters_entry (m : CacheManager) (path : Str) : Enters cfg path m (m.entry cfg path).1 :=
  ⟨⟨_, entry_lookup cfg m path, rfl, entry_evicted cfg m path⟩,
    fun _ other => entry_lookup_other cfg m other⟩

theorem Enters.of_same (enters : Enters cfg path m m') (entries : m''.entries = m'.entries) :
    Enters cfg path m m'' :=
  ⟨entries ▸ enters.own, entries ▸ enters.others⟩

theorem Indexes.own_hash {d : Digest} {n : Node Key} (indexes : m.Indexes d n)
    (own : n.id.addr = .entry path) : d = (m.entry cfg path).2.hashHex := by
  obtain ⟨q, ce, addr, found, _, rfl⟩ := indexes
  cases own.symm.trans addr
  rw [entry_snd, found, Option.getD_some]

theorem Enters.indexes (enters : Enters cfg path m m') {d : Digest} {n : Node Key}
    (indexes : m.Indexes d n) : m'.Indexes d n := by
  obtain ⟨q, ce, addr, found, live, rfl⟩ := indexes
  by_cases same : q = path
  · subst same
    obtain ⟨ce', found', hash, evicted⟩ := enters.own
    rw [entry_snd, found, Option.getD_some] at hash
    rw [gone, found, Option.any_some, live] at evicted
    exact ⟨q, ce', addr, found', evicted, hash⟩
  -- The entries of other paths are the same ones.
  · exact ⟨q, ce, addr, by rw [enters.others q same, found], live, rfl⟩

/-- Other objects are indexed by the same nodes before and after a call. -/
theorem Enters.indexes_iff (enters : Enters cfg path m m') {d : Digest}
    (other : d ≠ (m.entry cfg path).2.hashHex) (n : Node Key) :
    m'.Indexes d n ↔ m.Indexes d n := by
  refine ⟨?_, enters.indexes⟩
  rintro ⟨q, ce, addr, found, live, rfl⟩
  by_cases same : q = path
  · subst same
    obtain ⟨ce', found', hash, _⟩ := enters.own
    rw [found] at found'
    cases found'
    exact absurd hash other
  · exact ⟨q, ce, addr, enters.others q same ▸ found, live, rfl⟩

theorem Enters.indexes_own (enters : Enters cfg path m m') (live : m.gone path = false)
    {n : Node Key} (own : n.id.addr = .entry path) :
    m'.Indexes (m.entry cfg path).2.hashHex n := by
  obtain ⟨ce, found, hash, evicted⟩ := enters.own
  exact ⟨path, ce, own, found, evicted.trans live, hash⟩

/-! ### Calls -/

/-- What a call has done to the policy once it has touched its first block. -/
structure Touched (path : Str) (blk : ℕ) (m m' : CacheManager) : Prop where
  others : ∀ n : Node Key, n.id.addr ≠ .entry path →
    (n ∈ m'.lru.nodes ↔ n ∈ m.lru.nodes ∧ ¬m.lru.PushesOut ⟨.entry path, blk⟩ n)
  front : ∃ n, m'.lru.nodes.head? = some n ∧ n.id.addr = .entry path

theorem Touched.first (level : m.lru.Level)
    (lru : m'.lru = m.lru.touch ⟨.entry path, blk⟩ kBlockSize .one) : Touched path blk m m' := by
  refine ⟨fun n other => ?_, _, by rw [lru, level.head_touch], rfl⟩
  rw [lru, level.mem_touch kBlockSize fun same => other (by rw [same])]

/-- Whatever a later touch pushes out is a key of the call itself. -/
theorem Touched.again (touched : Touched path blk m m') (level : m'.lru.Level) {blk' : ℕ}
    (lru : m''.lru = m'.lru.touch ⟨.entry path, blk'⟩ kBlockSize .one) :
    Touched path blk m m'' := by
  obtain ⟨own, head, addr⟩ := touched.front
  refine ⟨fun n other => ?_, _, by rw [lru, level.head_touch], rfl⟩
  -- A full list loses its front, which is under a key of the call.
  have stays : ¬m'.lru.PushesOut ⟨.entry path, blk'⟩ n := by
    rintro ⟨_, _, front⟩
    rw [head] at front
    cases front
    exact other addr
  rw [lru, level.mem_touch kBlockSize fun same => other (by rw [same]), touched.others n other]
  simp only [stays, not_false_eq_true, and_true]

/-- How far a call has got: it has touched nothing and stored nothing, or it has touched its
first block. -/
structure Underway (cfg : Config) (path : Str) (e : Event) (m mgr : CacheManager) (done : ℕ) :
    Prop where
  enters : Enters cfg path m mgr
  level : mgr.lru.Level
  solid : Solid cfg mgr.files
  progress : (done = 0 ∧ mgr.lru = m.lru ∧ mgr.files = m.files) ∨
    ∃ blk, m.Touches cfg path blk e ∧ Touched path blk m mgr

theorem Underway.start (level : m.lru.Level) (solid : Solid cfg m.files) (path : Str) (e : Event) :
    Underway cfg path e m (m.entry cfg path).1 0 :=
  ⟨enters_entry m path, by rwa [entry_lru], by rwa [entry_files],
    .inl ⟨rfl, entry_lru cfg m path, entry_files cfg m path⟩⟩

theorem Underway.next {done done' : ℕ} (underway : Underway cfg path e m m' done) (blk : ℕ)
    (begins : done = 0 → m'.files = m.files → m.Touches cfg path blk e)
    (enters : Enters cfg path m m'') (solid : Solid cfg m''.files)
    (lru : m''.lru = m'.lru.touch ⟨.entry path, blk⟩ kBlockSize .one) :
    Underway cfg path e m m'' done' := by
  refine ⟨enters, lru ▸ underway.level.touch _ _, solid, .inr ?_⟩
  -- The first pass touches into the list of before, later ones into the call's own.
  rcases underway.progress with ⟨start, same, files⟩ | ⟨first, touches, touched⟩
  · rw [same] at lru
    exact ⟨blk, begins start files, .first (same ▸ underway.level) lru⟩
  · exact ⟨first, touches, touched.again underway.level lru⟩

/-- What a call does to the index. -/
structure Called (cfg : Config) (path : Str) (e : Event) (m m' : CacheManager) : Prop where
  enters : Enters cfg path m m'
  level : m'.lru.Level
  solid : Solid cfg m'.files
  progress : ((∀ q blk, ¬m.Touches cfg q blk e) ∧ m'.lru = m.lru ∧ m'.files = m.files) ∨
    ∃ blk, (∀ q blk', m.Touches cfg q blk' e ↔ q = path ∧ blk' = blk) ∧ m.gone path = false ∧
      Touched path blk m m' ∧ ∀ d, d ≠ (m.entry cfg path).2.hashHex →
        (OnDisk cfg m'.files d ↔ OnDisk cfg m.files d ∨ e.CopiesInto cfg d)

theorem Touches.unique (touches : m.Touches cfg path blk e) :
    (∀ q blk', m.Touches cfg q blk' e ↔ q = path ∧ blk' = blk) ∧ m.gone path = false := by
  cases e with
  | read env name len off =>
    obtain ⟨rfl, rfl, live, some, shown⟩ := touches
    refine ⟨fun q blk' => ⟨fun other => ⟨other.1.symm, other.2.1⟩, ?_⟩, live⟩
    rintro ⟨rfl, rfl⟩
    exact ⟨rfl, rfl, live, some, shown⟩
  | write name data off =>
    obtain ⟨rfl, rfl, live, some⟩ := touches
    refine ⟨fun q blk' => ⟨fun other => ⟨other.1.symm, other.2.1⟩, ?_⟩, live⟩
    rintro ⟨rfl, rfl⟩
    exact ⟨rfl, rfl, live, some⟩
  | prefetch => exact touches.elim
  | evict => exact touches.elim

theorem Underway.called {done : ℕ} (underway : Underway cfg path e m m' done)
    (quiet : done = 0 → m'.files = m.files → ∀ q blk, ¬m.Touches cfg q blk e)
    (disk : ∀ blk, m.Touches cfg path blk e → ∀ d, d ≠ (m.entry cfg path).2.hashHex →
      (OnDisk cfg m'.files d ↔ OnDisk cfg m.files d ∨ e.CopiesInto cfg d)) :
    Called cfg path e m m' := by
  refine ⟨underway.enters, underway.level, underway.solid, ?_⟩
  rcases underway.progress with ⟨start, lru, files⟩ | ⟨blk, touches, touched⟩
  · exact .inl ⟨quiet start files, lru, files⟩
  · obtain ⟨only, live⟩ := touches.unique
    exact .inr ⟨blk, only, live, touched, disk blk touches⟩

theorem refused_called (level : m.lru.Level) (solid : Solid cfg m.files)
    (none : ∀ q blk, ¬m.Touches cfg q blk e) : Called cfg path e m (m.entry cfg path).1 :=
  (Underway.start level solid path e).called (fun _ _ => none) fun _ touches =>
    absurd touches (none _ _)

/-- A call on an evicted path touches nothing. -/
theorem evicted_called (level : m.lru.Level) (solid : Solid cfg m.files)
    (gone : (m.entry cfg path).2.evicted = true)
    (own : ∀ q blk, m.Touches cfg q blk e → q = path) :
    Called cfg path e m (m.entry cfg path).1 := by
  apply refused_called level solid
  intro q blk touches
  have live := touches.unique.2
  rw [own q blk touches, ← entry_evicted cfg m path, gone] at live
  cases live

theorem not_partOf {d d' : Digest} (other : d ≠ d') (k : ℕ) : ¬PartOf cfg d' (cfg.dataPart d k) :=
  fun ⟨_, same⟩ => other (cfg.dataPart_inj same).1

theorem read_called (level : m.lru.Level) (solid : Solid cfg m.files) (env : Env) (path : Str)
    (len off : ℕ) :
    Called cfg path (.read env path len off) m (m.read cfg env path len off).1 := by
  -- A read stores into parts of its own object.
  have disk : ∀ d, d ≠ (m.entry cfg path).2.hashHex →
      (OnDisk cfg (m.read cfg env path len off).1.files d ↔
        OnDisk cfg m.files d ∨ Event.CopiesInto cfg d (.read env path len off)) := by
    intro d other
    simp only [OnDisk, Event.CopiesInto, or_false,
      (read_leaves m env path len off).files _ (not_partOf other _)]
  by_cases gone : (m.entry cfg path).2.evicted = true
  · rw [read_evicted cfg gone]
    exact evicted_called level solid gone fun _ _ touches => touches.1.symm
  · have live : (m.entry cfg path).2.evicted = false := by simpa using gone
    have there : m.gone path = false := (entry_evicted cfg m path).symm.trans live
    refine read_rule cfg
      (fun s => s.ce.hashHex = (m.entry cfg path).2.hashHex ∧ s.ce.evicted = false ∧
        Underway cfg path (.read env path len off) m s.mgr s.done)
      (fun m' _ => (∀ d, d ≠ (m.entry cfg path).2.hashHex → (OnDisk cfg m'.files d ↔
        OnDisk cfg m.files d ∨ Event.CopiesInto cfg d (.read env path len off))) →
          Called cfg path (.read env path len off) m m') live
      ⟨rfl, live, .start level solid path _⟩ ?_ ?_ ?_ disk
    · rintro s p block mgr ⟨hash, live', underway⟩ more piece ready
      obtain ⟨entries, _, lru⟩ := ready.same
      have stored : Solid cfg mgr.files := by
        cases ready with
        | hit => exact underway.solid
        | fill miss got fetched => exact underway.solid.store _ _ (fetch_small cfg fetched).1
      refine ⟨hash, live', underway.next p.blk (fun start files => ?_)
        ⟨?_, fun q other => ?_⟩ (by rwa [finish_files]) (by rw [finish_lru, lru])⟩
      -- The first pass works on the first block of the range, with nothing stored yet.
      · have place : p.blk = off / kBlockSize := by
          rw [← piece, pieceAt_blk, start, Nat.add_zero]
        refine ⟨rfl, place, there, by omega, ?_⟩
        have same : s.mgr.blocks cfg = m.blocks cfg := by rw [blocks, files, blocks]
        cases ready with
        | hit full => exact .inl (same ▸ hash ▸ full)
        | fill miss got fetched => exact .inr (by rw [← files, fetched]; rfl)
      · exact ⟨{ s.ce with lastBlock := some p.blk },
          by rw [finish_entries, AList.lookup_insert], hash, live'.trans there.symm⟩
      · rw [finish_entries, AList.lookup_insert_ne other, entries, underway.enters.others q other]
    -- A pass that fails is no touch; if it is the first one, there has been none.
    · rintro s p ⟨hash, _, underway⟩ more piece miss fetched disk
      refine underway.called (fun start files q blk touches => ?_) fun _ _ => disk
      obtain ⟨rfl, place, _, _, shown⟩ := touches
      have here : p.blk = blk := by rw [← piece, pieceAt_blk, start, Nat.add_zero, place]
      have same : s.mgr.blocks cfg = m.blocks cfg := by rw [blocks, files, blocks]
      rw [same, hash, here] at miss
      rw [files, here] at fetched
      rw [fetched] at shown
      exact shown.elim miss (by simp)
    · rintro s ⟨_, _, underway⟩ all disk
      refine underway.called (fun start files q blk touches => ?_) fun _ _ => disk
      obtain ⟨_, _, _, some, _⟩ := touches
      omega

theorem Underway.wrote {data : Bytes} {off done : ℕ} {p : Piece} (d : Digest)
    (underway : Underway cfg path (.write path data off) m m' done) (live : m.gone path = false)
    (more : done < data.size) (piece : pieceAt off data.size done = p) (done' : ℕ) :
    Underway cfg path (.write path data off) m
      (m'.wrote cfg path d p (data.slice done p.want)) done' := by
  have chunk : 0 < (data.slice done p.want).size := by
    obtain ⟨_, forward, _, inside⟩ := pieceAt_spec off more piece
    rwa [data.size_slice_inside inside]
  refine underway.next p.blk (fun start _ => ?_) (underway.enters.of_same rfl) ?_ rfl
  · have place : p.blk = off / kBlockSize := by rw [← piece, pieceAt_blk, start, Nat.add_zero]
    exact ⟨rfl, place, live, by omega⟩
  · exact (underway.solid.store _ _ (write_positive _ _ _ chunk)).set _
      (write_positive _ _ _ chunk)

theorem write_called (level : m.lru.Level) (solid : Solid cfg m.files) (path : Str) (data : Bytes)
    (off : ℕ) :
    Called cfg path (.write path data off) m (m.write cfg succeed path data off).1 := by
  by_cases gone : (m.entry cfg path).2.evicted = true
  · rw [write_evicted cfg gone]
    exact evicted_called level solid gone fun _ _ touches => touches.1.symm
  · have live : (m.entry cfg path).2.evicted = false := by simpa using gone
    have there : m.gone path = false := (entry_evicted cfg m path).symm.trans live
    have leaves := write_leaves cfg m path data off
    have underway := (write_rule cfg
      (fun s => Underway cfg path (.write path data off) m s.mgr s.done) live
      (.start level solid path _) fun s p underway more piece =>
        underway.wrote _ there more piece _).1
    refine underway.called (fun none files q blk touches => ?_) fun blk touches d other => ?_
    · exact absurd none (Nat.ne_of_gt touches.2.2.2)
    · have written : (m.write cfg succeed path data off).1.files (cfg.copy path) ≠ none :=
        write_copied m path data off there touches.2.2.2
      have same : ∀ k, cfg.dataPart d k ≠ cfg.copy path →
          (m.write cfg succeed path data off).1.files (cfg.dataPart d k) =
            m.files (cfg.dataPart d k) :=
        fun k apart => leaves.files _ (not_or.mpr ⟨not_partOf other k, apart⟩)
      constructor
      · rintro ⟨k, there⟩
        -- The copy may be a part of another object, which the write then puts on disk.
        by_cases copy : cfg.dataPart d k = cfg.copy path
        · exact .inr ⟨k, copy.symm⟩
        · exact .inl ⟨k, by rwa [← same k copy]⟩
      · rintro (⟨k, there⟩ | ⟨k, copy⟩)
        · refine ⟨k, ?_⟩
          by_cases copy : cfg.dataPart d k = cfg.copy path
          · rwa [copy]
          · rwa [same k copy]
        · exact ⟨k, by rwa [← copy]⟩

/-- A call keeps the index if and only if it leaves every other object a key. -/
theorem Called.indexed_iff (called : Called cfg path e m m') (indexed : Indexed cfg m)
    (call : e.isPrefetch = false) : Indexed cfg m' ↔ Keeps cfg m e := by
  rcases called.progress with ⟨quiet, lru, files⟩ | ⟨blk, only, live, touched, disk⟩
  · refine iff_of_true (fun d there => ?_) ⟨call, fun q blk touches => absurd touches (quiet q blk)⟩
    rw [files] at there
    obtain ⟨n, member, indexes⟩ := indexed d there
    exact ⟨n, by rwa [lru], called.enters.indexes indexes⟩
  · constructor
    -- What is indexed afterwards was indexed before by a key that has stayed.
    · refine fun after => ⟨call, fun q blk' touches d other there => ?_⟩
      obtain ⟨rfl, rfl⟩ := (only q blk').mp touches
      obtain ⟨n, member, indexes⟩ := after d ((disk d other).mpr there)
      have before := (called.enters.indexes_iff other n).mp indexes
      have apart : n.id.addr ≠ .entry q := fun own => other (before.own_hash own)
      obtain ⟨member, stays⟩ := (touched.others n apart).mp member
      exact ⟨n, member, before, stays⟩
    · intro keeps d there
      -- The object of the call has the key at the front.
      by_cases own : d = (m.entry cfg path).2.hashHex
      · subst own
        obtain ⟨n, front, addr⟩ := touched.front
        exact ⟨n, List.mem_of_mem_head? front, called.enters.indexes_own live addr⟩
      · obtain ⟨n, member, indexes, stays⟩ :=
          keeps.2 path blk ((only path blk).mpr ⟨rfl, rfl⟩) d own ((disk d own).mp there)
        have apart : n.id.addr ≠ .entry path := fun same => own (indexes.own_hash same)
        exact ⟨n, (touched.others n apart).mpr ⟨member, stays⟩, called.enters.indexes indexes⟩

/-! ### Evictions -/

variable {nodes : List (Node Key)}

theorem Popping.solid (popping : Popping cfg nodes m m') (solid : Solid cfg m.files) :
    Solid cfg m'.files := by
  intro d k b found
  by_cases victim : ∃ q ce, m.Evicting (nodes.map (·.id)) q ce ∧ ce.hashHex = d
  · obtain ⟨q, ce, evicting, rfl⟩ := victim
    rw [popping.evicts.deleted q ce evicting] at found
    cases found
  · simp only [not_exists, not_and] at victim
    rw [popping.evicts.files _ fun q ce evicting =>
      cfg.spares_dataPart (victim q ce evicting) k] at found
    exact solid d k b found

/-- Objects whose data parts survive an eviction keep their entries and keys. -/
theorem Popping.indexed (popping : Popping cfg nodes m m') (linked : m.lru.Linked)
    (indexed : Indexed cfg m) : Indexed cfg m' := by
  rintro d ⟨k, there⟩
  have before : OnDisk cfg m.files d := ⟨k, fun none => there (popping.evicts.absent d k none)⟩
  obtain ⟨n, member, q, ce, addr, found, live, rfl⟩ := indexed d before
  -- A key that named the entry would have taken the part with it.
  have spared : ¬Names (nodes.map (·.id)) q := fun named =>
    there (popping.evicts.deleted q ce ⟨found, live, named⟩ k)
  refine ⟨n, ?_, q, ce, addr, ?_, live, rfl⟩
  · by_contra left
    exact spared ((popping.names_iff linked).mpr ⟨n, member, left, addr⟩)
  · rw [popping.evicts.entries, found, Option.map_some]
    simp [spared]

/-! ### Runs -/

/-- The invariant of runs in which every step keeps the index. -/
structure Sound (cfg : Config) (m : CacheManager) : Prop where
  level : m.lru.Level
  solid : Solid cfg m.files
  resolved : m.Resolved
  indexed : Indexed cfg m

theorem Visits.resolved {blks : List ℕ} (visits : Visits path blks m m') (resolved : m.Resolved) :
    m'.Resolved := by
  intro n member
  rcases visits.nodes n member with old | ⟨blk, _, rfl⟩
  · obtain ⟨q, addr, there⟩ := resolved n old
    exact ⟨q, addr, visits.entered q (.inl there)⟩
  · exact ⟨path, rfl, visits.entered path (.inr rfl)⟩

theorem sound_new {capacity : ℕ} (positive : 1 ≤ capacity) {files : Files}
    (empty : ∀ d k, files (cfg.dataPart d k) = none) :
    Sound cfg { new files with lru := .new capacity } := by
  refine ⟨LruPolicy.level_new positive, fun d k b found => ?_, fun n member => ?_, ?_⟩
  · exact absurd (found.symm.trans (empty d k)) (Option.some_ne_none b)
  · cases member
  · rintro d ⟨k, there⟩
    exact absurd (empty d k) there

/-- What one step makes of the invariant. -/
theorem Sound.step {o : Output} (sound : Sound cfg m) (taken : Steps cfg m e o m')
    (call : e.isPrefetch = false) :
    (Indexed cfg m' ↔ Keeps cfg m e) ∧ (Keeps cfg m e → Sound cfg m') := by
  have linked := sound.level.linked
  cases e with
  | read env path len off =>
    cases taken
    have called := read_called sound.level sound.solid env path len off
    have iff := called.indexed_iff sound.indexed call
    exact ⟨iff, fun keeps => ⟨called.level, called.solid,
      (read_visits linked env path len off).resolved sound.resolved, iff.mpr keeps⟩⟩
  | write path data off =>
    cases taken
    have called := write_called sound.level sound.solid path data off
    have iff := called.indexed_iff sound.indexed call
    exact ⟨iff, fun keeps => ⟨called.level, called.solid,
      (write_visits linked path data off).resolved sound.resolved, iff.mpr keeps⟩⟩
  | prefetch => cases call
  | evict used freeGb =>
    obtain ⟨m₁, returned, same⟩ := Option.map_eq_some_iff.mp taken
    cases same
    obtain ⟨_, nodes, m₂, returned', _, popping, linked', _⟩ :=
      evictUntilGb_popping cfg linked sound.resolved used freeGb
    cases returned.symm.trans returned'
    have indexed := popping.indexed linked sound.indexed
    have sub := (evictUntilGb_evicts linked returned).2.2
    refine ⟨iff_of_true indexed ⟨call, fun _ _ touches => touches.elim⟩, fun _ => ?_⟩
    exact ⟨sound.level.fewer linked' popping.capacity sub, popping.solid sound.solid,
      popping.resolved, indexed⟩

/-- A call keeps the index as long as the policy has room for a key. -/
theorem keeps_of_room (indexed : Indexed cfg m) (call : e.isPrefetch = false)
    (room : m.lru.nodes.length < m.lru.capacity) (outside : ∀ d, ¬e.CopiesInto cfg d) :
    Keeps cfg m e := by
  refine ⟨call, fun path blk _ d _ there => ?_⟩
  obtain ⟨n, member, indexes⟩ := indexed d (there.resolve_right (outside d))
  exact ⟨n, member, indexes, fun pushed => Nat.not_lt.mpr pushed.1 room⟩

/-- An eviction with the target zero deletes every data part. -/
theorem Sound.reclaims (sound : Sound cfg m) {used : ℕ → ℚ} (measures : Measures cfg m used) :
    ∃ m', m.evictUntilGb cfg used 0 = some m' ∧ ∀ d k, m'.files (cfg.dataPart d k) = none := by
  obtain ⟨n, nodes, m', returned, reached, popping, _, ends⟩ :=
    evictUntilGb_popping cfg sound.level.linked sound.resolved used 0
  refine ⟨m', returned, fun d k => ?_⟩
  by_contra there
  -- A part that is left is measured, so the loop has not stopped before the keys were used up.
  obtain ⟨b, found⟩ := Option.ne_none_iff_exists'.mp there
  have above : 0 < used n := by
    refine measures n m' reached ⟨_, b, ?_, found, popping.solid sound.solid d k b found⟩
    rw [cfg.dataPart_eq]
    exact List.prefix_append _ _
  obtain ⟨a, member, _⟩ := popping.indexed sound.level.linked sound.indexed d ⟨k, there⟩
  rw [ends above] at member
  cases member

/-- In every run of calls and evictions that each keep the index, every object with a data part
has a live entry and a key, and an eviction with the target zero deletes all data parts; the first
step that does not keep the index breaks this. -/
theorem index_complete (cfg : Config) (capacity : ℕ) (positive : 1 ≤ capacity) (files : Files)
    (empty : ∀ d k, files (cfg.dataPart d k) = none) (trace : Trace) (m : CacheManager)
    (run : Run (fun m e o m' => Steps cfg m e o m' ∧ Keeps cfg m e)
      { new files with lru := .new capacity } trace m) :
    Indexed cfg m ∧
      (∀ used, Measures cfg m used → ∃ m', m.evictUntilGb cfg used 0 = some m' ∧
        ∀ d k, m'.files (cfg.dataPart d k) = none) ∧
      ∀ e o m', Steps cfg m e o m' → e.isPrefetch = false →
        (Indexed cfg m' ↔ Keeps cfg m e) := by
  have sound : Sound cfg m := by
    induction run with
    | refl => exact sound_new positive empty
    | next before taken sound => exact (sound.step taken.1 taken.2.1).2 taken.2
  exact ⟨sound.indexed, fun used => sound.reclaims, fun e o m' taken call =>
    (sound.step taken call).1⟩

/-- A new manager with a policy of two keys. -/
private def twoKeys : CacheManager := { new fun _ => none with lru := .new 2 }

theorem index_complete_full :
    let first := twoKeys.read .sample (.serving threeBlocks) ['/', 'f'] 1 0
    let second := first.1.read .sample (.serving threeBlocks) ['/', 'g', 'g'] 1 0
    Indexed .sample second.1 ∧
      (∀ used, Measures .sample second.1 used →
        ∃ m', second.1.evictUntilGb .sample used 0 = some m' ∧
          ∀ d k, m'.files (Config.sample.dataPart d k) = none) ∧
      ∀ e o m', Steps .sample second.1 e o m' → e.isPrefetch = false →
        (Indexed .sample m' ↔ Keeps .sample second.1 e) := by
  have taken := steps_read .sample twoKeys (.serving threeBlocks) ['/', 'f'] 1 0
  have sound : Sound .sample twoKeys := sound_new (by decide) fun _ _ => rfl
  have keeps := keeps_of_room sound.indexed (e := .read (.serving threeBlocks) ['/', 'f'] 1 0) rfl
    (by decide) fun _ => id
  have taken' := steps_read .sample (twoKeys.read .sample (.serving threeBlocks) ['/', 'f'] 1 0).1
    (.serving threeBlocks) ['/', 'g', 'g'] 1 0
  have keeps' := keeps_of_room ((sound.step taken rfl).2 keeps).indexed
    (e := .read (.serving threeBlocks) ['/', 'g', 'g'] 1 0) rfl (by decide +kernel) fun _ => id
  exact index_complete .sample 2 (by decide) (fun _ => none) (fun _ _ => rfl) _ _
    (.next (.next (.refl _) ⟨taken, keeps⟩) ⟨taken', keeps'⟩)

private theorem only_newer_key :
    ((exec (step .sample) { new fun _ => none with lru := .new 1 }
        [.read (.serving threeBlocks) ['/', 'f'] 1 0,
          .read (.serving threeBlocks) ['/', 'g', 'g'] 1 0]).map fun reached =>
      ((reached.1.files (Config.sample.dataPart (Config.sample.hashHex ['/', 'f']) 0)).isSome,
        reached.1.lru.nodes.map (·.id.addr),
        (reached.1.entries.lookup ['/', 'g', 'g']).map (·.hashHex.text.getLast?))) =
      some (true, [.entry ['/', 'g', 'g']], some (some '3')) := by
  decide +kernel

/-- With room for one key, reading a second file leaves the block of the first one on disk without
a key. -/
theorem stored_without_key :
    ¬∀ (capacity : ℕ) (trace : Trace) (m : CacheManager), 1 ≤ capacity →
      Run (Steps .sample) { new fun _ => none with lru := .new capacity } trace m →
      (∀ entry ∈ trace, entry.1.isPrefetch = false) → Indexed .sample m := by
  intro all
  obtain ⟨⟨m, trace⟩, done, ends⟩ := Option.map_eq_some_iff.mp only_newer_key
  simp only [Prod.mk.injEq] at ends
  obtain ⟨stored, keys, hash⟩ := ends
  have labels := Run.exec_events done
  have calls : ∀ entry ∈ trace, entry.1.isPrefetch = false := by
    intro entry member
    have label := List.mem_map_of_mem (f := (·.1)) member
    rw [labels, List.mem_pair] at label
    rcases label with same | same <;> rw [same] <;> rfl
  have part := Option.isSome_iff_ne_none.mp stored
  obtain ⟨n, member, path, ce, addr, found, _, same⟩ :=
    all 1 trace m (Nat.le_refl 1) (Run.of_exec done) calls _ ⟨0, part⟩
  have only : n.id.addr = .entry ['/', 'g', 'g'] := by
    have key := List.mem_map_of_mem (f := (·.id.addr)) member
    rwa [keys, List.mem_singleton] at key
  cases addr.symm.trans only
  rw [found, Option.map_some, same] at hash
  exact absurd hash (by decide)

end CacheManager

end RemoteCache
