import RemoteCache.Cache.CallFrame
import RemoteCache.Cache.EvictionTransparency
import RemoteCache.Cache.ReadYourWrites

/-!
# The two copies of what was written

## Main result

`write_through`: whatever is read, written and evicted, the write-through copy
of a path holds the latest accepted write at each offset, and so does the block
store as long as the path has not been evicted.

## Proof strategy

The block store keeps the writes to the paths that have not been evicted: an
eviction drops exactly the histories of the paths it marks and leaves the parts
of the others alone. The copies of different paths are different files outside
the shard directories, so only the writes to a path change its copy.
-/
namespace RemoteCache

/-- The writes of a run that were not refused, in order. -/
def acceptedWrites (trace : Trace) : List WriteCall :=
  trace.filterMap fun entry =>
    match entry with
    | (.write path data off, .wrote n) => if 0 ≤ n then some ⟨path, data, off⟩ else none
    | _ => none

/-- The paths that clients read and write are among the names. -/
def Event.Among (names : Str → Prop) : Event → Prop
  | .read _ path _ _ => names path
  | .write path _ _ => names path
  | _ => True

theorem acceptedWrites_concat (trace : Trace) (entry : Event × Output) :
    acceptedWrites (trace ++ [entry]) = acceptedWrites trace ++ acceptedWrites [entry] :=
  List.filterMap_append

theorem acceptedWrites_write (path : Str) (data : Bytes) (off : ℕ) (n : ℤ) :
    acceptedWrites [(.write path data off, .wrote n)] =
      if 0 ≤ n then [⟨path, data, off⟩] else [] := by
  by_cases accepted : 0 ≤ n <;> simp [acceptedWrites, accepted]

/-! ### Where the copies are -/

/-- The copies of normal paths lie below one directory, which is what `/` names. -/
theorem Config.copy_normal (cfg : Config) :
    ∀ names : Path, names ≠ [] → (∀ c ∈ names, PlainName c) →
      cfg.copy (slashed names) = cfg.copy ['/'] ++ names := by
  obtain ⟨top, joins⟩ := resolve_joinPath cfg.cwd cfg.root
  have root : cfg.copy ['/'] = top := by
    rw [Config.copy, if_pos (by simp), List.tail_cons, joins _ (by simp)]
    rfl
  rw [root]
  intro names some plain
  obtain ⟨c, rest, rfl⟩ := List.exists_cons_of_ne_nil some
  obtain ⟨letter, word, rfl⟩ := List.exists_cons_of_ne_nil (plain c List.mem_cons_self).1
  -- A plain name does not start with a slash, so the join stays below the root.
  have relative : (slashed ((letter :: word) :: rest)).tail.head? ≠ .some '/' := by
    intro slash
    have same : letter = '/' := by simpa [slashed] using slash
    exact (plain _ List.mem_cons_self).2.2.2 (by simp [same])
  rw [Config.copy, if_pos (by simp [slashed]), joins _ relative, components_slashed some plain,
    foldl_descend_plain top plain]

theorem Config.copy_injective (cfg : Config) {p q : Str} (first : NormalPath p)
    (second : NormalPath q) (same : cfg.copy p = cfg.copy q) : p = q := by
  obtain ⟨names, some, plain, rfl⟩ := first
  obtain ⟨names', some', plain', rfl⟩ := second
  rw [cfg.copy_normal names some plain, cfg.copy_normal names' some' plain'] at same
  rw [List.append_cancel_left same]

/-! ### Parts of a history -/

section history

variable {writes : List WriteCall} {keep : Str → Bool} {path : Str}

variable (keep) in
theorem latestByte_filter (x : ℕ) :
    latestByte (writes.filter fun w => keep w.path) path x =
      if keep path then latestByte writes path x else none := by
  induction writes using List.reverseRecOn with
  | nil => simp [latestByte]
  | append_singleton writes w ih =>
    rw [List.filter_append, latestByte_concat]
    by_cases kept : keep w.path = true
    · rw [List.filter_cons_of_pos (by exact kept), List.filter_nil, latestByte_concat, ih]
      by_cases covers : w.Covers path x
      · rw [if_pos covers, if_pos covers, if_pos (covers.1 ▸ kept)]
      · rw [if_neg covers, if_neg covers]
    -- A write that is dropped covers no offset of a path that is kept.
    · rw [List.filter_cons_of_neg (by exact kept), List.filter_nil, List.append_nil, ih]
      by_cases own : keep path = true
      · rw [if_pos own, if_pos own, if_neg fun covers : w.Covers path x => kept (covers.1 ▸ own)]
      · rw [if_neg own, if_neg own]

theorem touchedBlock_filter {blk : ℕ}
    (touched : TouchedBlock (writes.filter fun w => keep w.path) path blk) :
    TouchedBlock writes path blk := by
  obtain ⟨w, member, covers⟩ := touched
  exact ⟨w, List.mem_of_mem_filter member, covers⟩

end history

namespace Kept

variable {cfg : Config} {writes : List WriteCall} {m m' : CacheManager}

/-- The writes to some of the paths are kept as well. -/
theorem some_paths (kept : Kept cfg writes m) (keep : Str → Bool) :
    Kept cfg (writes.filter fun w => keep w.path) m := by
  refine ⟨fun path blk touched => kept.whole path blk (touchedBlock_filter touched),
    fun path x v written => kept.latest path x v ?_⟩
  rw [latestByte_filter] at written
  split at written
  · exact written
  · cases written

/-- Only the parts of paths that were written matter. -/
theorem of_parts (kept : Kept cfg writes m)
    (same : ∀ w ∈ writes, ∀ k, m'.files (cfg.dataPart (cfg.hashHex w.path) k) =
      m.files (cfg.dataPart (cfg.hashHex w.path) k)) : Kept cfg writes m' := by
  -- The part files of a written path decide all of its blocks.
  have blocks : ∀ path blk b, TouchedBlock writes path blk →
      m'.blocks cfg (cfg.hashHex path) b = m.blocks cfg (cfg.hashHex path) b := by
    intro path blk b touched
    obtain ⟨w, member, rfl⟩ := touched.path_mem
    simp only [CacheManager.blocks, BlockStore.blocks, BlockMap.ofSegments, Files.content,
      same w member]
  refine ⟨fun path blk touched => ?_, fun path x v written => ?_⟩
  · rw [BlockMap.Full, blocks path blk blk touched]
    exact kept.whole path blk touched
  · rw [CacheManager.stored, blocks path _ _ (latestByte_touched written)]
    exact kept.latest path x v written

end Kept

namespace CacheManager

variable {cfg : Config} {writes : List WriteCall} {m m' : CacheManager}

/-- The copy of every path holds the latest writes. -/
def Copied (cfg : Config) (writes : List WriteCall) (m : CacheManager) : Prop :=
  ∀ path x v, latestByte writes path x = some v →
    ∃ b, m.files (cfg.copy path) = some b ∧ x < b.size ∧ b.get x = v

theorem Copied.of_files (copied : Copied cfg writes m)
    (same : ∀ w ∈ writes, m'.files (cfg.copy w.path) = m.files (cfg.copy w.path)) :
    Copied cfg writes m' := by
  intro path x v written
  obtain ⟨w, member, rfl⟩ := (latestByte_touched written).path_mem
  rw [same w member]
  exact copied _ x v written

/-- One pass of a write puts its piece into the copy. -/
theorem Copied.pass {path : Str} {data : Bytes} {off done : ℕ} {p : Piece} {d : Digest}
    (copied : Copied cfg (writes ++ [⟨path, data.slice 0 done, off⟩]) m)
    (outside : ∀ w ∈ writes, ¬cfg.InShard (cfg.copy w.path))
    (alone : ∀ w ∈ writes, cfg.copy w.path = cfg.copy path → w.path = path)
    (own : ¬cfg.InShard (cfg.copy path)) (more : done < data.size)
    (piece : pieceAt off data.size done = p) :
    Copied cfg (writes ++ [⟨path, data.slice 0 (done + p.want), off⟩])
      (m.wrote cfg path d p (data.slice done p.want)) := by
  obtain ⟨place, forward, fits, inside⟩ := pieceAt_spec off more piece
  have length : (data.slice done p.want).size = p.want := data.size_slice_inside inside
  -- The store writes into shard directories, where no copy lies.
  have unstored : ∀ at_, ¬cfg.InShard at_ →
      (m.store cfg d p.blk (m.merged cfg d p (data.slice done p.want))).files at_ =
        m.files at_ :=
    fun at_ outside => store_other _ _ _ fun ⟨k, same⟩ => outside (same ▸ cfg.dataPart_inShard d k)
  intro q x v written
  rw [latestByte_grown inside] at written
  by_cases same : path = q
  · subst same
    simp only [wrote, Files.set_same, Option.some.injEq, exists_eq_left', Blob.size_write,
      Blob.get_write, length, place, Files.content, unstored _ own]
    -- The copy of the path itself: the piece, and around it what was there.
    rw [if_neg (show p.want ≠ 0 by omega)]
    split at written
    next fresh =>
      refine ⟨by omega, ?_⟩
      rw [if_pos fresh.2, Blob.get_slice, if_pos (by omega), ← Option.some.inj written]
      congr 1; omega
    next stale =>
      obtain ⟨b, found, inside, byte⟩ := copied path x v written
      rw [found, Option.getD_some, if_neg fun fresh => stale ⟨rfl, fresh⟩]
      exact ⟨by omega, byte⟩
  -- The copy of another path is another file.
  · rw [if_neg fun fresh => same fresh.1] at written
    obtain ⟨b, found, holds⟩ := copied q x v written
    obtain ⟨w, member, rfl⟩ := (latestByte_touched written).path_mem
    have member : w ∈ writes := (List.mem_append.mp member).resolve_right fun new =>
      same (by rw [List.mem_singleton.mp new])
    refine ⟨b, ?_, holds⟩
    rw [← found, ← unstored _ (outside w member)]
    exact Files.set_other _ _ fun eq => same (alone w member eq).symm

theorem Copied.write (copied : Copied cfg writes m) {path : Str} {data : Bytes} {off : ℕ}
    (live : (m.entry cfg path).2.evicted = false)
    (outside : ∀ w ∈ writes, ¬cfg.InShard (cfg.copy w.path))
    (alone : ∀ w ∈ writes, cfg.copy w.path = cfg.copy path → w.path = path)
    (own : ¬cfg.InShard (cfg.copy path)) :
    Copied cfg (writes ++ [⟨path, data, off⟩]) (m.write cfg succeed path data off).1 := by
  have start : Copied cfg (writes ++ [⟨path, data.slice 0 0, off⟩]) (m.entry cfg path).1 := by
    intro q x v written
    rw [latestByte_started] at written
    rw [entry_files]
    exact copied q x v written
  have all := (write_rule cfg
    (fun s => Copied cfg (writes ++ [⟨path, data.slice 0 s.done, off⟩]) s.mgr) live start
    fun s p copied more piece => copied.pass outside alone own more piece).1
  simpa only [Blob.slice_self] using all

/-! ### Evictions -/

theorem Evicts.gone {keys : List Key} (evicts : Evicts cfg keys m m') (q : Str) :
    m'.gone q = true ↔ m.gone q = true ∨ Names keys q := by
  simp only [gone_eq_true]
  constructor
  · rintro ⟨ce', found, gone⟩
    obtain ⟨ce, earlier, rfl⟩ := evicts.lookup found
    rcases Bool.or_eq_true_iff.mp gone with old | new
    · exact .inl ⟨ce, earlier, old⟩
    · exact .inr (by simpa using new)
  · rintro (⟨ce, found, gone⟩ | named)
    · exact ⟨_, by rw [evicts.entries, found, Option.map_some], by simp [gone]⟩
    -- A named path has an entry, which is marked.
    · obtain ⟨key, member, addr⟩ := id named
      obtain ⟨path, ce, addr', found⟩ := evicts.entered key member
      rw [addr] at addr'
      cases addr'
      exact ⟨_, by rw [evicts.entries, found, Option.map_some], by simp [named]⟩

/-! ### Runs -/

/-- What was written is kept by the store, apart from the evicted paths, and by the copies. -/
structure Durable (cfg : Config) (names : Str → Prop) (writes : List WriteCall)
    (m : CacheManager) : Prop where
  each : EachEntry (fun q ce => names q ∧ Keyed cfg q ce) m
  named : ∀ w ∈ writes, names w.path
  kept : Kept cfg (writes.filter fun w => !m.gone w.path) m
  copied : Copied cfg writes m

namespace Durable

variable {names : Str → Prop} {path : Str}

theorem settled (name : names path) :
    Settled cfg (fun q ce => names q ∧ Keyed cfg q ce) path :=
  ⟨⟨name, rfl, rfl⟩, fun _ _ keyed => keyed⟩

/-- A step that leaves the copies alone and keeps the store. -/
theorem of_leaves (durable : Durable cfg names writes m) {own : Path → Prop}
    (leaves : Leaves own m m') (each : EachEntry (fun q ce => names q ∧ Keyed cfg q ce) m')
    (others : ∀ w ∈ writes, ¬own (cfg.copy w.path))
    (kept : Kept cfg (writes.filter fun w => !m.gone w.path) m') :
    Durable cfg names writes m' := by
  refine ⟨each, durable.named, ?_, durable.copied.of_files fun w member =>
    leaves.files _ (others w member)⟩
  simpa only [leaves.gone] using kept

theorem not_part (clean : cfg.Clean names) (durable : Durable cfg names writes m) (d : Digest) :
    ∀ w ∈ writes, ¬PartOf cfg d (cfg.copy w.path) :=
  fun w member ⟨k, same⟩ => clean.apart (durable.named w member) d k same.symm

theorem read (clean : cfg.Clean names) (durable : Durable cfg names writes m) (name : names path)
    (env : Env) (len off : ℕ) : Durable cfg names writes (m.read cfg env path len off).1 := by
  refine durable.of_leaves (read_leaves m env path len off)
    (durable.each.read cfg (settled name) env len off) (durable.not_part clean _) ?_
  by_cases refused : (m.entry cfg path).2.evicted = true
  · rw [read_evicted cfg refused]
    exact durable.kept.of_files (entry_files cfg m path)
  · obtain ⟨_, own, keyed⟩ := (durable.each.entry cfg (settled name)).2
    exact (read_kept durable.kept ⟨own, keyed, by simpa using refused⟩ env len off).1

theorem write (clean : cfg.Clean names) (normal : ∀ p, names p → NormalPath p)
    (durable : Durable cfg names writes m) (name : names path) (data : Bytes) (off : ℕ) :
    Durable cfg names
      (writes ++ if 0 ≤ (m.write cfg succeed path data off).2 then [⟨path, data, off⟩] else [])
      (m.write cfg succeed path data off).1 := by
  have leaves := write_leaves cfg m path data off
  have each := durable.each.write cfg (settled name) data off
  rw [write_refused]
  by_cases refused : m.gone path = true
  · rw [if_pos refused, if_neg (by simp [ENOENT]), List.append_nil]
    rw [← entry_evicted cfg] at refused
    rw [write_evicted cfg refused]
    have leaves : Leaves (fun _ => False) m (m.entry cfg path).1 := leaves_entry m path
    exact durable.of_leaves leaves
      (durable.each.entry cfg (settled name)).1 (fun _ _ => id)
      (durable.kept.of_files (entry_files cfg m path))
  · rw [if_neg refused, if_pos (Int.natCast_nonneg _)]
    have live : (m.entry cfg path).2.evicted = false := by
      rw [entry_evicted]
      simpa using refused
    have keyed := (durable.each.entry cfg (settled name)).2.2.2
    refine ⟨each, fun w member => ?_, ?_, durable.copied.write live
      (fun w member => clean.outside _ (durable.named w member))
      (fun w member same => cfg.copy_injective (normal _ (durable.named w member))
        (normal _ name) same) (clean.outside _ name)⟩
    · rcases List.mem_append.mp member with old | new
      · exact durable.named w old
      · exact List.mem_singleton.mp new ▸ name
    -- The new write is to a live path, so it joins the histories that are kept.
    · rw [List.filter_append, List.filter_cons_of_pos (by simp [leaves.gone, refused]),
        List.filter_nil]
      simp only [leaves.gone]
      refine durable.kept.write live keyed (fun w member same => ?_) (clean.apart name)
      exact clean.hashHex (durable.named w (List.mem_of_mem_filter member)) name same

theorem prefetch (clean : cfg.Clean names) (durable : Durable cfg names writes m)
    (backend : Backend) (i : ℕ) (job : Job) :
    Durable cfg names writes (m.prefetch cfg backend i job).1 :=
  durable.of_leaves (prefetch_leaves m backend i job) (durable.each.prefetch cfg backend i job)
    (durable.not_part clean _) (prefetch_kept durable.kept backend i job)

theorem evict (clean : cfg.Clean names) {keys : List Key} (evicts : Evicts cfg keys m m')
    (durable : Durable cfg names writes m) : Durable cfg names writes m' := by
  refine ⟨durable.each.evict (fun _ _ _ keyed => keyed) evicts, durable.named, ?_,
    durable.copied.of_files fun w member => evicts.files _ fun _ ce _ =>
      cfg.spares_outside (clean.outside _ (durable.named w member)) ce.hashHex⟩
  -- The paths that are still live were live before, and other hashes are evicted.
  have fewer : (writes.filter fun w => !m'.gone w.path) =
      (writes.filter fun w => !m.gone w.path).filter fun w => !m'.gone w.path := by
    rw [List.filter_filter]
    refine List.filter_congr fun w _ => ?_
    by_cases before : m.gone w.path = true
    · simp [before, (evicts.gone w.path).mpr (.inl before)]
    · simp [before]
  rw [fewer]
  refine (durable.kept.some_paths fun q => !m'.gone q).of_parts fun w member k => ?_
  obtain ⟨member, live⟩ := List.mem_filter.mp member
  refine evicts.files _ fun q ce evicting => cfg.spares_dataPart (fun same => ?_) k
  -- An evicted object with the same hash would be the path itself.
  obtain ⟨name, _, keyed⟩ := durable.each.table q ce evicting.1
  have here := clean.hashHex name (durable.named w (List.mem_of_mem_filter member))
    (keyed.symm.trans same)
  rw [← here, (evicts.gone q).mpr (.inr evicting.2.2)] at live
  cases live

end Durable

/-- After every run of calls, evictions and prefetch jobs, the copy of a path holds the latest
accepted write at each offset that one has covered; as long as the path is not evicted, so does
the block store. -/
theorem write_through (cfg : Config) (names : Str → Prop) (clean : cfg.Clean names)
    (normal : ∀ p, names p → NormalPath p) (files : Files) (trace : Trace) (m : CacheManager)
    (run : Run (Steps cfg) (new files) trace m) (among : ∀ entry ∈ trace, entry.1.Among names)
    (path : Str) (x : ℕ) (v : UInt8) (written : latestByte (acceptedWrites trace) path x = some v) :
    (∃ b, m.files (cfg.copy path) = some b ∧ x < b.size ∧ b.get x = v) ∧
    (m.gone path = false →
      (m.blocks cfg).Full kBlockSize (cfg.hashHex path) (x / kBlockSize) ∧
        m.stored cfg (cfg.hashHex path) x = v) := by
  have durable : Durable cfg names (acceptedWrites trace) m := by
    clear written
    induction run with
    | refl =>
      refine ⟨each_new _ files, by simp [acceptedWrites],
        ⟨?_, by simp [acceptedWrites, latestByte]⟩,
        fun _ _ _ written => by simp [acceptedWrites, latestByte] at written⟩
      rintro path blk ⟨w, absurd, _⟩
      simp [acceptedWrites] at absurd
    | @next m m' trace e o before taken ih =>
      have durable := ih fun entry member => among entry (List.mem_append_left _ member)
      have own := among (e, o) (List.mem_append_right _ List.mem_cons_self)
      rw [acceptedWrites_concat]
      cases e with
      | read env path len off =>
        cases taken
        simpa [acceptedWrites] using durable.read clean own env len off
      | write path data off =>
        cases taken
        rw [acceptedWrites_write]
        exact durable.write clean normal own data off
      | prefetch backend i =>
        obtain ⟨job, _, same⟩ := Option.map_eq_some_iff.mp taken
        cases same
        simpa [acceptedWrites] using durable.prefetch clean backend i job
      | evict used freeGb =>
        obtain ⟨m', returned, same⟩ := Option.map_eq_some_iff.mp taken
        cases same
        have evicts := (evictUntilGb_evicts (run_linked before) returned).1
        simpa [acceptedWrites] using durable.evict clean evicts
  refine ⟨durable.copied path x v written, fun live => ?_⟩
  -- The path is live, so its writes are among those that the store keeps.
  have still : latestByte ((acceptedWrites trace).filter fun w => !m.gone w.path) path x =
      some v := by
    rw [latestByte_filter fun q => !m.gone q, if_pos (by simp [live]), written]
  exact ⟨durable.kept.whole path _ (latestByte_touched still), durable.kept.latest path x v still⟩

theorem normal_sample : ∀ p : Str, p = ['/', 'f'] → NormalPath p := by
  rintro _ rfl
  exact ⟨[['f']], by simp, by simp [PlainName], rfl⟩

theorem write_through_evicted :
    ∃ m trace, exec (step .sample) (new fun _ => none)
        [.write ['/', 'f'] (.ofFn 2 fun _ => 7) 0, .evict oneBlockUsed 0] = some (m, trace) ∧
      (∃ b, m.files (Config.sample.copy ['/', 'f']) = some b ∧ 1 < b.size ∧ b.get 1 = 7) ∧
      (m.gone ['/', 'f'] = false →
        (m.blocks .sample).Full kBlockSize (Config.sample.hashHex ['/', 'f']) (1 / kBlockSize) ∧
          m.stored .sample (Config.sample.hashHex ['/', 'f']) 1 = 7) := by
  have ends : ((exec (step .sample) (new fun _ => none)
        [.write ['/', 'f'] (.ofFn 2 fun _ => 7) 0, .evict oneBlockUsed 0]).map fun reached =>
      latestByte (acceptedWrites reached.2) ['/', 'f'] 1) = some (some 7) := by
    decide +kernel
  obtain ⟨⟨m, trace⟩, done, written⟩ := Option.map_eq_some_iff.mp ends
  have events := Run.exec_events done
  refine ⟨m, trace, done, write_through .sample (· = ['/', 'f']) clean_sample normal_sample
    (fun _ => none) trace m (Run.of_exec done) (fun entry member => ?_) ['/', 'f'] 1 7 written⟩
  have event : entry.1 ∈ [_, _] := events ▸ List.mem_map_of_mem member
  simp only [List.mem_cons, List.not_mem_nil, or_false] at event
  rcases event with same | same <;> rw [same]
  · exact rfl
  · trivial

end CacheManager

end RemoteCache
