import RemoteCache.Cache.CallFrame
import RemoteCache.Cache.LruKeys
import RemoteCache.Cache.ReadYourWrites
import RemoteCache.Lib.Bits

/-!
# Dirty bits on disk

## Main result

`dirty_bits_exact`: after a flush the bitmap files of a path have the bits of
exactly the blocks that writes to the path have touched, each in the file of the
block's part; a second flush changes nothing.

## Proof strategy

In memory, marking a block sets its bit and no other, and a write marks the
blocks of its pieces. Flushing puts a fixed content at the place of every
non-empty bit vector of a known object and leaves every other file alone, so
the order of flushing does not matter and flushing again finds its own files.
-/
namespace RemoteCache

open FsLayout

/-- Bit `b` of a file, least significant bit of a byte first, clear past the end. -/
def fileBit (file : Bytes) (b : ℕ) : Bool := (file.get (b / 8)).toNat.testBit (b % 8)

namespace MetadataStore

/-! ### In memory -/

/-- `bitmap_[hash_hex][part_idx]`, empty if absent. -/
def vecOf (bitmap : Bitmaps) (d : Digest) (k : ℕ) : List Bool :=
  (((bitmap.lookup d).getD ∅).lookup k).getD []

def dirty (bitmap : Bitmaps) (d : Digest) (k b : ℕ) : Bool := (vecOf bitmap d k).getD b false

theorem setBit_getD (vec : List Bool) (i b : ℕ) :
    (setBit vec i).getD b false = (vec.getD b false || decide (b = i)) := by
  have wide : ∀ vec : List Bool, i < vec.length →
      (vec.set i true).getD b false = (vec.getD b false || decide (b = i)) := by
    intro vec inside
    simp only [List.getD_eq_getElem?_getD, List.getElem?_set]
    by_cases same : b = i
    · simp [same, inside]
    · simp [same, Ne.symm same]
  unfold setBit
  split
  next short =>
    have grown : ((vec.rightpad (i + 1) false).getD b false) = vec.getD b false := by
      simp only [List.rightpad, List.getD_eq_getElem?_getD, List.getElem?_append,
        List.getElem?_replicate]
      split
      · rfl
      next past =>
        rw [List.getElem?_eq_none (Nat.not_lt.mp past)]
        split <;> rfl
    rw [wide _ (by simp [List.rightpad]; omega), grown]
  next long => exact wide vec (Nat.not_le.mp long)

theorem vecOf_markDirtyBlock (bitmap : Bitmaps) (d d' : Digest) (k k' blk : ℕ) :
    vecOf (markDirtyBlock bitmap d k blk) d' k' =
      if d' = d ∧ k' = k then setBit (vecOf bitmap d k) blk else vecOf bitmap d' k' := by
  by_cases object : d' = d
  · subst object
    by_cases part : k' = k
    · subst part
      simp [vecOf, markDirtyBlock]
    · simp [vecOf, markDirtyBlock, part]
  · simp [vecOf, markDirtyBlock, object]

/-- Marking a block sets its bit and no other. -/
theorem dirty_markDirtyBlock (bitmap : Bitmaps) (d d' : Digest) (k k' blk b : ℕ) :
    dirty (markDirtyBlock bitmap d k blk) d' k' b = true ↔
      dirty bitmap d' k' b = true ∨ (d' = d ∧ k' = k ∧ b = blk) := by
  rw [dirty, vecOf_markDirtyBlock, dirty]
  split
  next here =>
    obtain ⟨rfl, rfl⟩ := here
    rw [setBit_getD, Bool.or_eq_true, decide_eq_true_eq]
    simp only [true_and]
  next other =>
    exact (or_iff_left fun here => other ⟨here.1, here.2.1⟩).symm

/-! ### On disk -/

/-- What `persistBitmap` writes, if it writes. -/
def bitmapFile (bits : List Bool) : Option Bytes :=
  if bits = [] then none
  else some (.ofFn (packBits bits).length fun i => (packBits bits).getD i 0)

theorem bitAt_packBits (bits : List Bool) (b : ℕ) :
    bitAt (packBits bits) b = bits.getD b false := by
  have laid := bitAt_foldl bits (List.replicate ((bits.length + 7) / 8) 0) 0
    (by rw [List.length_replicate]; omega) b
  rw [bitAt_zeros, Bool.false_or, Nat.sub_zero, decide_eq_true (Nat.zero_le b),
    Bool.true_and] at laid
  exact laid

theorem fileBit_bitmapFile (bits : List Bool) (b : ℕ) :
    fileBit ((bitmapFile bits).getD .empty) b = bits.getD b false := by
  unfold bitmapFile
  split
  next empty => simp [empty, fileBit]
  · rw [← bitAt_packBits, Option.getD_some, fileBit, Blob.get_ofFn, bitAt]
    split
    · rfl
    next past => rw [List.getD_eq_default _ _ (Nat.not_lt.mp past)]

variable (cfg : Config) (bitmap : Bitmaps)

theorem persistBitmap_same (fs : Files) (d : Digest) (k : ℕ) (bits : List Bool) :
    persistBitmap cfg fs d k bits (cfg.bitmap d k) =
      (bitmapFile bits).or (fs (cfg.bitmap d k)) := by
  unfold persistBitmap bitmapFile
  split
  · rfl
  · exact Files.set_same _ _ _

/-- Flushing an object leaves its bit vectors in its bitmap files. -/
theorem flushBitmaps_same (fs : Files) (d : Digest) (k : ℕ) :
    flushBitmaps cfg fs bitmap d (cfg.bitmap d k) =
      (bitmapFile (vecOf bitmap d k)).or (fs (cfg.bitmap d k)) := by
  cases found : bitmap.lookup d with
  | none => simp [flushBitmaps, found, vecOf, bitmapFile]
  | some parts =>
    have keys := parts.nodupKeys
    have looked : parts.lookup k = List.dlookup k parts.entries := rfl
    simp only [flushBitmaps, found, vecOf, Option.getD_some, looked]
    generalize parts.entries = entries at keys
    clear looked
    induction entries generalizing fs with
    | nil => rfl
    | cons part entries ih =>
      obtain ⟨i, bits⟩ := part
      -- Each part has one vector, so later files do not overwrite it.
      rw [List.nodupKeys_cons] at keys
      rw [List.foldl_cons, ih _ keys.2]
      by_cases same : k = i
      · subst same
        rw [List.dlookup_eq_none.mpr keys.1, List.dlookup_cons_eq, persistBitmap_same]
        rfl
      · rw [List.dlookup_cons_ne _ _ same, persistBitmap_other]
        exact fun eq => same (cfg.bitmap_inj eq).2

/-- Flushing some objects, one after the other. -/
def flushEach (fs : Files) (ds : List Digest) : Files :=
  ds.foldl (fun fs d => flushBitmaps cfg fs bitmap d) fs

theorem flushEach_same (fs : Files) (ds : List Digest) (d : Digest) (k : ℕ) :
    flushEach cfg bitmap fs ds (cfg.bitmap d k) =
      if d ∈ ds then (bitmapFile (vecOf bitmap d k)).or (fs (cfg.bitmap d k))
      else fs (cfg.bitmap d k) := by
  induction ds generalizing fs with
  | nil => rfl
  | cons first ds ih =>
    rw [flushEach, List.foldl_cons, ← flushEach, ih]
    by_cases same : d = first
    · subst same
      rw [flushBitmaps_same, if_pos List.mem_cons_self]
      -- Flushing an object twice puts the same content in place twice.
      split
      · cases bitmapFile (vecOf bitmap d k) <;> rfl
      · rfl
    · have other : flushBitmaps cfg fs bitmap first (cfg.bitmap d k) = fs (cfg.bitmap d k) :=
        flushBitmaps_other cfg fs bitmap first fun i eq => same (cfg.bitmap_inj eq).1
      simp only [other, List.mem_cons, same, false_or]

theorem flushEach_other (fs : Files) (ds : List Digest) {at_ : Path}
    (apart : ∀ d k, at_ ≠ cfg.bitmap d k) : flushEach cfg bitmap fs ds at_ = fs at_ := by
  induction ds generalizing fs with
  | nil => rfl
  | cons first ds ih =>
    rw [flushEach, List.foldl_cons, ← flushEach, ih]
    exact flushBitmaps_other cfg fs bitmap first (apart first)

/-- The order in which objects are flushed makes no difference. -/
theorem flushEach_order (fs : Files) {ds ds' : List Digest} (same : ∀ d, d ∈ ds ↔ d ∈ ds') :
    flushEach cfg bitmap fs ds = flushEach cfg bitmap fs ds' := by
  funext at_
  -- A bitmap file depends on whether its object is in the list, not where.
  by_cases place : ∃ d k, at_ = cfg.bitmap d k
  · obtain ⟨d, k, rfl⟩ := place
    simp only [flushEach_same, same]
  · simp only [not_exists] at place
    rw [flushEach_other cfg bitmap fs ds place, flushEach_other cfg bitmap fs ds' place]

/-- Flushing again finds its own files. -/
theorem flushEach_again (fs : Files) (ds : List Digest) :
    flushEach cfg bitmap (flushEach cfg bitmap fs ds) ds = flushEach cfg bitmap fs ds := by
  funext at_
  by_cases place : ∃ d k, at_ = cfg.bitmap d k
  · obtain ⟨d, k, rfl⟩ := place
    rw [flushEach_same, flushEach_same]
    split
    · cases bitmapFile (vecOf bitmap d k) <;> rfl
    · rfl
  · simp only [not_exists] at place
    rw [flushEach_other cfg bitmap _ ds place]

end MetadataStore

namespace CacheManager

open MetadataStore

variable {cfg : Config} {writes : List WriteCall} {m : CacheManager}

/-! ### Runs -/

/-- The bits of exactly the blocks that writes have touched, each in the vector of its part. -/
def Marks (cfg : Config) (writes : List WriteCall) (bitmap : Bitmaps) : Prop :=
  ∀ d k b, dirty bitmap d k b = true ↔
    ∃ path, cfg.hashHex path = d ∧ TouchedBlock writes path b ∧ b * kBlockSize / kMaxPartSize = k

theorem Marks.pass {path : Str} {data : Bytes} {off done : ℕ} {p : Piece}
    (marks : Marks cfg (writes ++ [⟨path, data.slice 0 done, off⟩]) m.bitmap)
    (more : done < data.size) (piece : pieceAt off data.size done = p) :
    Marks cfg (writes ++ [⟨path, data.slice 0 (done + p.want), off⟩])
      (m.wrote cfg path (cfg.hashHex path) p (data.slice done p.want)).bitmap := by
  intro d k b
  rw [wrote, dirty_markDirtyBlock, marks]
  simp only [touchedBlock_grown more piece]
  constructor
  · rintro (⟨q, hash, touched, part⟩ | ⟨rfl, rfl, rfl⟩)
    · exact ⟨q, hash, .inl touched, part⟩
    · exact ⟨path, rfl, .inr ⟨rfl, rfl⟩, rfl⟩
  · rintro ⟨q, rfl, old | ⟨rfl, rfl⟩, rfl⟩
    · exact .inl ⟨q, rfl, old, rfl⟩
    · exact .inr ⟨rfl, rfl, rfl⟩

theorem Marks.write (marks : Marks cfg writes m.bitmap) {path : Str} (data : Bytes) (off : ℕ)
    (live : (m.entry cfg path).2.evicted = false)
    (keyed : (m.entry cfg path).2.hashHex = cfg.hashHex path) :
    Marks cfg (writes ++ [⟨path, data, off⟩]) (m.write cfg succeed path data off).1.bitmap := by
  have start : Marks cfg (writes ++ [⟨path, data.slice 0 0, off⟩]) (m.entry cfg path).1.bitmap := by
    intro d k b
    simp only [entry_bitmap, touchedBlock_started]
    exact marks d k b
  have all := (write_rule cfg
    (fun s => Marks cfg (writes ++ [⟨path, data.slice 0 s.done, off⟩]) s.mgr.bitmap) live start
    fun s p marks more piece => keyed ▸ marks.pass more piece).1
  simpa only [Blob.slice_self] using all

/-- The dirty bits of the writes so far, in memory and not yet on disk. -/
structure Tracked (cfg : Config) (writes : List WriteCall) (m : CacheManager) : Prop where
  marks : Marks cfg writes m.bitmap
  known : ∀ w ∈ writes, (m.entries.lookup w.path).isSome
  absent : ∀ d k, m.files (cfg.bitmap d k) = none

theorem bitmap_not_part (d d' : Digest) (k : ℕ) : ¬PartOf cfg d' (cfg.bitmap d k) :=
  fun ⟨_, same⟩ => cfg.bitmap_ne_dataPart _ _ _ _ same

theorem run_tracked {files : Files} (fresh : ∀ d k, files (cfg.bitmap d k) = none) {trace : Trace}
    (run : Run (Steps cfg) (new files) trace m) (stays : ∀ entry ∈ trace, entry.1.isEvict = false)
    (outside : ∀ w ∈ writesOf trace, ¬cfg.InShard (cfg.copy w.path)) :
    Tracked cfg (writesOf trace) m := by
  induction run with
  | refl =>
    refine ⟨fun d k b => iff_of_false ?_ ?_, by simp [writesOf], fresh⟩
    · simp [new, dirty, vecOf]
    · rintro ⟨path, _, ⟨w, absurd, _⟩, _⟩
      simp [writesOf] at absurd
  | @next m m' trace e o before taken ih =>
    have split : writesOf (trace ++ [(e, o)]) = writesOf trace ++ writesOf [(e, o)] := by
      simp [writesOf]
    rw [split] at outside ⊢
    have stayed : ∀ entry ∈ trace, entry.1.isEvict = false :=
      fun entry member => stays entry (List.mem_append_left _ member)
    have tracked := ih stayed fun w member => outside w (List.mem_append_left _ member)
    have linked := run_linked before
    cases e with
    | read env path len off =>
      cases taken
      rw [show writesOf [(Event.read env path len off, _)] = [] from rfl, List.append_nil]
      -- A read marks nothing and creates no bitmap file.
      refine ⟨by rw [read_bitmap]; exact tracked.marks, fun w member => ?_, fun d k => ?_⟩
      · exact (read_visits linked env path len off).entered _ (.inl (tracked.known w member))
      · rw [(read_leaves m env path len off).files _ (bitmap_not_part d _ k), tracked.absent]
    | write path data off =>
      cases taken
      have own := outside ⟨path, data, off⟩ (by simp [writesOf])
      obtain ⟨_, keyed, live⟩ := ((run_live cfg before stayed).entry cfg (settled_live cfg path)).2
      refine ⟨tracked.marks.write data off live keyed, fun w member => ?_, fun d k => ?_⟩
      · apply (write_visits linked path data off).entered _
        rcases List.mem_append.mp member with old | last
        · exact .inl (tracked.known w old)
        · exact .inr (by rw [List.mem_singleton.mp last])
      -- The copy of the path lies outside the shards, where the bitmaps are.
      · rw [(write_leaves cfg m path data off).files, tracked.absent]
        rintro (part | copy)
        · exact bitmap_not_part d _ k part
        · exact own (copy ▸ cfg.bitmap_inShard d k)
    | prefetch backend i =>
      obtain ⟨job, _, same⟩ := Option.map_eq_some_iff.mp taken
      cases same
      obtain ⟨bitmap, entries⟩ := prefetch_same cfg m backend i job
      rw [show writesOf [(Event.prefetch backend i, _)] = [] from rfl, List.append_nil]
      refine ⟨by rw [bitmap]; exact tracked.marks, by rw [entries]; exact tracked.known,
        fun d k => ?_⟩
      rw [(prefetch_leaves m backend i job).files _ (bitmap_not_part d _ k), tracked.absent]
    | evict used freeGb =>
      exact absurd (stays _ (List.mem_append_right _ List.mem_cons_self)) (by simp [Event.isEvict])

/-! ### Flushing -/

/-- The hashes of the entries. -/
def hashes (m : CacheManager) : List Digest := m.entries.entries.map fun entry => entry.2.hashHex

theorem flushAll_files (m : CacheManager) :
    (m.flushAll cfg).files = flushEach cfg m.bitmap m.files m.hashes := by
  rw [flushAll, flushEach, hashes, List.foldl_map]

theorem mem_hashes {path : Str} {ce : CacheEntry} (found : m.entries.lookup path = some ce) :
    ce.hashHex ∈ m.hashes :=
  List.mem_map.mpr ⟨⟨path, ce⟩, AList.mem_lookup_iff.mp found, rfl⟩

/-- Flushing once is flushing any number of times. -/
theorem flushAll_again (cfg : Config) (m : CacheManager) :
    (m.flushAll cfg).flushAll cfg = m.flushAll cfg := by
  have files : ((m.flushAll cfg).flushAll cfg).files = (m.flushAll cfg).files := by
    rw [flushAll_files, flushAll_files]
    exact flushEach_again cfg m.bitmap m.files m.hashes
  calc (m.flushAll cfg).flushAll cfg
      = { m.flushAll cfg with files := ((m.flushAll cfg).flushAll cfg).files } := rfl
    _ = m.flushAll cfg := by rw [files]

/-- After a run without evictions and a flush, the bit of a block in a bitmap file of a path is
set if and only if a write to the path covered a byte of the block and the file is that of the
block's part; flushing again changes nothing. -/
theorem dirty_bits_exact (cfg : Config) (files : Files)
    (fresh : ∀ d k, files (cfg.bitmap d k) = none) (trace : Trace) (m : CacheManager)
    (run : Run (Steps cfg) (new files) trace m) (stays : ∀ entry ∈ trace, entry.1.isEvict = false)
    (outside : ∀ w ∈ writesOf trace, ¬cfg.InShard (cfg.copy w.path)) (path : Str)
    (lone : ∀ w ∈ writesOf trace, cfg.hash w.path = cfg.hash path → w.path = path) :
    (∀ k b, fileBit ((m.flushAll cfg).files.content (cfg.bitmap (cfg.hashHex path) k)) b = true ↔
      TouchedBlock (writesOf trace) path b ∧ b * kBlockSize / kMaxPartSize = k) ∧
    (m.flushAll cfg).flushAll cfg = m.flushAll cfg := by
  refine ⟨fun k b => ?_, flushAll_again cfg m⟩
  have tracked := run_tracked fresh run stays outside
  have bits : dirty m.bitmap (cfg.hashHex path) k b = true ↔
      TouchedBlock (writesOf trace) path b ∧ b * kBlockSize / kMaxPartSize = k := by
    rw [tracked.marks]
    constructor
    -- Two paths with one hash are the same path.
    · rintro ⟨q, hash, touched, part⟩
      obtain ⟨w, member, rfl⟩ := touched.path_mem
      rw [← lone w member (Digest.ofHash_injective hash)]
      exact ⟨touched, part⟩
    · exact fun ⟨touched, part⟩ => ⟨path, rfl, touched, part⟩
  rw [← bits, flushAll_files, Files.content, flushEach_same, tracked.absent, Option.or_none]
  by_cases known : cfg.hashHex path ∈ m.hashes
  · rw [if_pos known, fileBit_bitmapFile, dirty]
  · -- An object without an entry has never been written.
    rw [if_neg known, bits]
    apply iff_of_false (by simp [fileBit])
    rintro ⟨touched, _⟩
    obtain ⟨w, member, rfl⟩ := touched.path_mem
    obtain ⟨ce, found⟩ := Option.isSome_iff_exists.mp (tracked.known w member)
    have keyed := ((run_live cfg run stays).table _ ce found).2.1
    exact known (keyed ▸ mem_hashes found)

theorem dirty_bits_exact_two :
    let first := (new fun _ => none).write .sample succeed ['/', 'f'] (.ofFn 2 fun _ => 7) 65535
    let writes : List WriteCall := [⟨['/', 'f'], .ofFn 2 fun _ => 7, 65535⟩]
    (∀ k b, fileBit ((first.1.flushAll .sample).files.content
        (Config.sample.bitmap (Config.sample.hashHex ['/', 'f']) k)) b = true ↔
      TouchedBlock writes ['/', 'f'] b ∧ b * kBlockSize / kMaxPartSize = k) ∧
    (first.1.flushAll .sample).flushAll .sample = first.1.flushAll .sample :=
  dirty_bits_exact .sample (fun _ => none) (fun _ _ => rfl) _ _
    (.next (.refl _) (steps_write _ _ ['/', 'f'] (.ofFn 2 fun _ => 7) 65535))
    (by simp [Event.isEvict])
    (by simpa [writesOf] using clean_sample.outside _ rfl) ['/', 'f'] (by simp [writesOf])

end CacheManager

end RemoteCache
