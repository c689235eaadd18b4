import RemoteCache.Cache.Contents
import RemoteCache.Cache.System

/-!
# Bytes a write does not cover

## Main result

`write_frame_iff`: what a later read shows at an offset outside the write.

## Proof strategy

Only one file decides: the part that holds the offset's block. A write can grow
it to the end of that block, which turns a missing block into a cached one, but
it changes no byte of it outside the range, unless the write-through copy is
that very file.
-/
namespace RemoteCache

open FsLayout

namespace CacheManager

variable (cfg : Config)

/-- The part file of the object that the offset falls in. -/
def partOf (d : Digest) (q : ℕ) : Path := cfg.dataPart d (q / kMaxPartSize)

/-- Where the block of the offset ends in its part. -/
def blockEnd (q : ℕ) : ℕ := (q % kMaxPartSize / kBlockSize + 1) * kBlockSize

theorem full_iff_content (m : CacheManager) (d : Digest) (q : ℕ) :
    (m.blocks cfg).Full kBlockSize d (q / kBlockSize) ↔
      blockEnd q ≤ (m.files.content (partOf cfg d q)).size := by
  have part : q / kBlockSize / kPartBlocks = q / kMaxPartSize := by
    simp only [kPartBlocks, kBlockSize, kMaxPartSize]
    omega
  simp only [BlockMap.Full, blocks, BlockStore.blocks, BlockMap.ofSegments, Blob.size_slice, part,
    partOf, blockEnd]
  simp only [kPartBlocks, kBlockSize, kMaxPartSize]
  omega

theorem stored_eq_content (m : CacheManager) (d : Digest) (q : ℕ) :
    m.stored cfg d q = (m.files.content (partOf cfg d q)).get (q % kMaxPartSize) := by
  have part : q / kBlockSize / kPartBlocks = q / kMaxPartSize := by
    simp only [kPartBlocks, kBlockSize, kMaxPartSize]
    omega
  have place : q / kBlockSize % kPartBlocks * kBlockSize + q % kBlockSize = q % kMaxPartSize := by
    simp only [kPartBlocks, kBlockSize, kMaxPartSize]
    omega
  have inside : q % kBlockSize < kBlockSize := Nat.mod_lt _ (by decide)
  simp only [stored, blocks, BlockStore.blocks, BlockMap.ofSegments, part, partOf,
    Blob.get_slice, if_pos inside, place]

/-! ### What a write does to that file -/

/-- The part file after the store's write of one pass. -/
theorem content_store (m : CacheManager) (d : Digest) (blk k : ℕ) (data : Bytes) :
    (m.store cfg d blk data).files.content (cfg.dataPart d k) =
      if blk / kPartBlocks = k then
        (m.files.content (cfg.dataPart d k)).write data (blk % kPartBlocks * kBlockSize)
      else m.files.content (cfg.dataPart d k) := by
  have place := BlockStore.block_place blk
  simp only [store, BlockStore.write, Files.pwrite, place.1, place.2]
  split
  next here => rw [here, Files.content_set_same]
  next apart =>
    exact Files.content_set_other _ _ fun same => apart (cfg.dataPart_inj same).2.symm

/-- The write covers bytes of the offset's part, in the offset's block or in a later one. -/
def Reaches (off len q : ℕ) : Prop :=
  ∃ x, off ≤ x ∧ x < off + len ∧ x / kMaxPartSize = q / kMaxPartSize ∧
    q / kBlockSize ≤ x / kBlockSize

/-- The write-through copy is the part file of the offset. -/
def Aliased (path : Str) (q : ℕ) : Prop :=
  cfg.copy path = partOf cfg (cfg.hashHex path) q

instance (path : Str) (q : ℕ) : Decidable (Aliased cfg path q) :=
  inferInstanceAs (Decidable (_ = _))

/-- What the passes of a write up to `done` have made of the part file. -/
private structure Grown (path : Str) (data : Bytes) (off q done : ℕ) (old new : Bytes) : Prop where
  size : blockEnd q ≤ new.size ↔ blockEnd q ≤ old.size ∨ Reaches off done q ∨
    (Aliased cfg path q ∧ 0 < done ∧ blockEnd q ≤ off + done)
  byte : new.get (q % kMaxPartSize) =
    if Aliased cfg path q ∧ off ≤ q % kMaxPartSize ∧ q % kMaxPartSize < off + done then
      data.get (q % kMaxPartSize - off)
    else old.get (q % kMaxPartSize)

private theorem reaches_more {off done q : ℕ} {p : Piece}
    (place : p.blk * kBlockSize + p.inBlock = off + done) (forward : 0 < p.want)
    (fits : p.inBlock + p.want ≤ kBlockSize) :
    Reaches off (done + p.want) q ↔ Reaches off done q ∨
      (p.blk / kPartBlocks = q / kMaxPartSize ∧ q / kBlockSize ≤ p.blk) := by
  constructor
  · rintro ⟨x, above, below, part, block⟩
    by_cases early : x < off + done
    · exact .inl ⟨x, above, early, part, block⟩
    · refine .inr ?_
      simp only [kPartBlocks, kBlockSize, kMaxPartSize] at *
      omega
  · rintro (⟨x, above, below, part, block⟩ | ⟨part, block⟩)
    · exact ⟨x, above, by omega, part, block⟩
    · refine ⟨off + done, by omega, by omega, ?_⟩
      simp only [kPartBlocks, kBlockSize, kMaxPartSize] at *
      omega

variable {p : Piece} {q : ℕ}

private theorem store_size (m : CacheManager) (d : Digest) {chunk : Bytes}
    (fits : p.inBlock + chunk.size ≤ kBlockSize) :
    blockEnd q ≤ ((m.store cfg d p.blk (m.merged cfg d p chunk)).files.content
        (partOf cfg d q)).size ↔
      blockEnd q ≤ (m.files.content (partOf cfg d q)).size ∨
        (p.blk / kPartBlocks = q / kMaxPartSize ∧ q / kBlockSize ≤ p.blk) := by
  have size := merged_size cfg (m := m) (d := d) fits
  -- `pwrite` of no bytes does not extend a file, but a merged block is never empty.
  have positive : (m.merged cfg d p chunk).size ≠ 0 := by rw [size]; decide
  rw [partOf, content_store]
  split
  next here =>
    rw [Blob.size_write, if_neg positive, size]
    simp only [blockEnd, kPartBlocks, kBlockSize, kMaxPartSize] at *
    omega
  next apart => simp only [apart, false_and, or_false]

private theorem store_byte (m : CacheManager) (d : Digest) {chunk : Bytes}
    (fits : p.inBlock + chunk.size ≤ kBlockSize)
    (outside : ¬(p.blk * kBlockSize + p.inBlock ≤ q ∧
      q < p.blk * kBlockSize + p.inBlock + chunk.size)) :
    ((m.store cfg d p.blk (m.merged cfg d p chunk)).files.content (partOf cfg d q)).get
        (q % kMaxPartSize) =
      (m.files.content (partOf cfg d q)).get (q % kMaxPartSize) := by
  have size := merged_size cfg (m := m) (d := d) fits
  rw [← stored_eq_content, ← stored_eq_content,
    stored_store cfg (by rw [size]; decide) (Nat.le_of_eq size)]
  split
  next here =>
    -- In the block of the pass the byte comes from the padded old block.
    obtain ⟨_, block, inside⟩ := here
    have place := Nat.div_add_mod q kBlockSize
    rw [block, Nat.mul_comm] at place
    rw [merged, Blob.get_write, if_neg (by omega), Blob.get_pad, if_pos (size ▸ inside),
      stored, block]
  · rfl

private theorem Grown.pass {m : CacheManager} {path : Str} {data old : Bytes} {off done : ℕ}
    (grown : Grown cfg path data off q done old (m.files.content (partOf cfg (cfg.hashHex path) q)))
    (outside : ¬(off ≤ q ∧ q < off + data.size)) (more : done < data.size)
    (piece : pieceAt off data.size done = p) :
    Grown cfg path data off q (done + p.want) old
      ((m.wrote cfg path (cfg.hashHex path) p (data.slice done p.want)).files.content
        (partOf cfg (cfg.hashHex path) q)) := by
  obtain ⟨place, forward, fits, inside⟩ := pieceAt_spec off more piece
  have length : (data.slice done p.want).size = p.want := data.size_slice_inside inside
  have size := store_size cfg (q := q) m (cfg.hashHex path) (length ▸ fits)
  have byte := store_byte cfg (q := q) m (cfg.hashHex path) (length ▸ fits) (by rw [length]; omega)
  generalize stored : (m.store cfg (cfg.hashHex path) p.blk
    (m.merged cfg (cfg.hashHex path) p (data.slice done p.want))).files = files at size byte
  simp only [wrote, stored]
  -- The pass ends with the copy, which may be the part file itself.
  by_cases aliased : Aliased cfg path q
  · rw [← aliased, Files.content_set_same]
    rw [← aliased] at size byte grown
    constructor
    · have before := grown.size
      simp only [aliased, true_and] at before ⊢
      have last : (0 < done ∧ blockEnd q ≤ off + done) ∨ blockEnd q ≤ off + done + p.want ↔
          0 < done + p.want ∧ blockEnd q ≤ off + (done + p.want) := by omega
      rw [Blob.size_write, length, if_neg (by omega), le_max_iff, place, size, before,
        reaches_more place forward fits, ← last]
      simp only [or_assoc, or_left_comm]
    · rw [Blob.get_write, length, place, byte, grown.byte]
      simp only [aliased, true_and]
      split_ifs
      · rw [Blob.get_slice, if_pos (by omega)]
        congr 1; omega
      all_goals first | rfl | omega
  · rw [Files.content_set_other _ _ fun same => aliased same.symm]
    constructor
    · rw [size, grown.size, reaches_more place forward fits]
      simp only [aliased, false_and, or_false]
      exact or_assoc
    · rw [byte, grown.byte]
      simp only [aliased, false_and, if_false]

/-- A whole write, seen at the part file of an offset it does not cover. -/
private theorem write_grown {m : CacheManager} {path : Str} {data : Bytes} {off : ℕ}
    (live : Live cfg path (m.entry cfg path).2) (outside : ¬(off ≤ q ∧ q < off + data.size)) :
    Grown cfg path data off q data.size (m.files.content (partOf cfg (cfg.hashHex path) q))
      ((m.write cfg succeed path data off).1.files.content (partOf cfg (cfg.hashHex path) q)) := by
  have start : Grown cfg path data off q 0 (m.files.content (partOf cfg (cfg.hashHex path) q))
      ((m.entry cfg path).1.files.content (partOf cfg (cfg.hashHex path) q)) := by
    rw [entry_files]
    refine ⟨⟨.inl, ?_⟩, (if_neg (by omega)).symm⟩
    rintro (old | ⟨x, above, below, _⟩ | ⟨_, none, _⟩)
    · exact old
    · omega
    · exact absurd none (Nat.lt_irrefl 0)
  exact (write_rule cfg (fun s => Grown cfg path data off q s.done
    (m.files.content (partOf cfg (cfg.hashHex path) q))
    (s.mgr.files.content (partOf cfg (cfg.hashHex path) q))) live.2.2 start
    fun s p grown more piece => live.2.1 ▸ grown.pass cfg outside more piece).1

/-! ### What a read shows -/

/-- The byte a read shows: the stored one if its block counts as cached, else the content's. -/
def shown (m : CacheManager) (C : Str → Bytes) (path : Str) (q : ℕ) : UInt8 :=
  if (m.blocks cfg).Full kBlockSize (cfg.hashHex path) (q / kBlockSize) then
    m.stored cfg (cfg.hashHex path) q
  else (C path).get q

/-- A read of one byte inside the content. -/
theorem read_one {m : CacheManager} {C : Str → Bytes} {env : Env} (serves : env.backend.Serves C)
    {path : Str} (live : Live cfg path (m.entry cfg path).2) (inside : q < (C path).size) :
    (m.read cfg env path 1 q).2 = ⟨1, .ofFn 1 fun _ => m.shown cfg C path q⟩ := by
  refine read_rule cfg
    (fun s => (s.done = 0 ∧ s.buf = .empty ∧ s.mgr.files = m.files ∧
        s.ce.hashHex = cfg.hashHex path) ∨
      (s.done = 1 ∧ s.buf = .ofFn 1 fun _ => m.shown cfg C path q))
    (fun _ r => r = ⟨1, .ofFn 1 fun _ => m.shown cfg C path q⟩)
    live.2.2 (.inl ⟨rfl, rfl, entry_files cfg m path, live.2.1⟩) ?_ ?_ ?_
  · rintro s p block mgr (⟨first, none, files, keyed⟩ | ⟨done, _⟩) more piece ready
    · obtain ⟨place, forward, fits, within⟩ := pieceAt_spec q more piece
      have want : p.want = 1 := by omega
      -- The byte handed out is the cached one or what the backend delivers in its place.
      have letter : block.get p.inBlock = m.shown cfg C path q := by
        have blk : p.blk = q / kBlockSize ∧ p.inBlock = q % kBlockSize := by
          unfold kBlockSize at *
          omega
        have same : s.mgr.blocks cfg = m.blocks cfg := by simp only [blocks, files]
        cases ready with
        | hit full =>
          rw [same, keyed, blk.1] at full ⊢
          rw [shown, if_pos full, stored, blk.2]
        | fill miss got fetched =>
          rw [same, keyed, blk.1] at miss
          rw [serves.fetch cfg s.mgr.files (by omega)] at fetched
          cases fetched
          rw [shown, if_neg miss,
            Blob.get_write_zero _ _ (Blob.lt_size_slice _ (by omega) (by omega)), Blob.get_slice,
            if_pos (by omega)]
          congr 1; omega
      have size := finish_size path (s := { s with mgr }) ready.size fits
        (by simp only [none, first, Blob.size_empty])
      have done : s.done + p.want = 1 := by omega
      refine .inr ⟨done, Blob.eq_of_get (size.trans done) fun i small => ?_⟩
      have zero : i = 0 := by
        rw [size.trans done] at small
        omega
      rw [finish_get ready.size fits, zero, Blob.get_ofFn, if_pos Nat.one_pos]
      simp only [first, Nat.sub_zero, Nat.add_zero, letter]
      rw [if_pos (by omega)]
    · omega
  · rintro s p (⟨first, _⟩ | ⟨done, _⟩) more piece _ none
    · have := (pieceAt_spec q more piece).1
      rw [serves.fetch cfg s.mgr.files (by omega)] at none
      cases none
    · omega
  · rintro s (⟨first, _⟩ | ⟨done, buf⟩) all
    · omega
    · rw [done, buf]
      rfl

/-! ### The frame of a write -/

/-- What the part file ends up holding at the offset, if the offset's block counts as cached
after the write, is what a read showed there before. -/
def Undisturbed (m : CacheManager) (C : Str → Bytes) (path : Str) (data : Bytes) (off q : ℕ) :
    Prop :=
  (m.blocks cfg).Full kBlockSize (cfg.hashHex path) (q / kBlockSize) ∨ Reaches off data.size q ∨
      (Aliased cfg path q ∧ 0 < data.size ∧ blockEnd q ≤ off + data.size) →
    (if Aliased cfg path q ∧ off ≤ q % kMaxPartSize ∧ q % kMaxPartSize < off + data.size then
        data.get (q % kMaxPartSize - off)
      else m.stored cfg (cfg.hashHex path) q) = m.shown cfg C path q

/-- Where the write-through copy is not the part file, only a missing block that the write
reaches past can change, and it changes to the stored byte. -/
theorem undisturbed_iff {m : CacheManager} {C : Str → Bytes} {path : Str} {data : Bytes} {off : ℕ}
    (apart : ¬Aliased cfg path q) :
    Undisturbed cfg m C path data off q ↔
      (m.blocks cfg).Full kBlockSize (cfg.hashHex path) (q / kBlockSize) ∨
        ¬Reaches off data.size q ∨ m.stored cfg (cfg.hashHex path) q = (C path).get q := by
  simp only [Undisturbed, apart, false_and, or_false, if_false, shown]
  by_cases full : (m.blocks cfg).Full kBlockSize (cfg.hashHex path) (q / kBlockSize)
  · simp [full]
  · simp only [full, false_or, if_false]
    exact imp_iff_not_or

/-- In every state reached without evictions, a write leaves the byte that a read shows at an
offset it does not cover exactly as it was, if and only if it leaves it undisturbed. -/
theorem write_frame_iff (cfg : Config) (files : Files) (trace : Trace) (m : CacheManager)
    (run : Run (Steps cfg) (new files) trace m) (stays : ∀ entry ∈ trace, entry.1.isEvict = false)
    (C : Str → Bytes) (env : Env) (serves : env.backend.Serves C) (path : Str) (data : Bytes)
    (off q : ℕ) (inside : q < (C path).size) (outside : ¬(off ≤ q ∧ q < off + data.size)) :
    ((m.write cfg succeed path data off).1.read cfg env path 1 q).2 =
        (m.read cfg env path 1 q).2 ↔
      Undisturbed cfg m C path data off q := by
  have each := run_live cfg run stays
  have live := (each.entry cfg (settled_live cfg path)).2
  have live' := ((each.write cfg (settled_live cfg path) data off).entry cfg
    (settled_live cfg path)).2
  have grown := write_grown cfg live outside
  rw [read_one cfg serves live inside, read_one cfg serves live' inside]
  have byte : (⟨1, .ofFn 1 fun _ => (m.write cfg succeed path data off).1.shown cfg C path q⟩ :
      ReadResult) = ⟨1, .ofFn 1 fun _ => m.shown cfg C path q⟩ ↔
      (m.write cfg succeed path data off).1.shown cfg C path q = m.shown cfg C path q := by
    refine ⟨fun same => ?_, fun same => by rw [same]⟩
    have same := congrArg (fun r : ReadResult => r.buf.get 0) same
    simpa [Blob.get_ofFn] using same
  have size := grown.size
  have value := grown.byte
  simp only [← full_iff_content, ← stored_eq_content] at size value
  rw [byte, Undisturbed, ← size, ← value]
  -- After the write the block counts as cached, or it did not before either.
  by_cases full : ((m.write cfg succeed path data off).1.blocks cfg).Full kBlockSize
      (cfg.hashHex path) (q / kBlockSize)
  · simp only [full, true_imp_iff, shown, if_true]
  · have miss : ¬(m.blocks cfg).Full kBlockSize (cfg.hashHex path) (q / kBlockSize) :=
      fun old => full (size.mpr (.inl old))
    simp only [full, false_imp_iff, shown, if_false, miss]

theorem write_frame_iff_fresh :
    (((new fun _ => none).write .sample succeed ['/', 'f'] (.ofFn 1 fun _ => 7) kBlockSize).1.read
        .sample (.serving threeBlocks) ['/', 'f'] 1 5).2 =
        ((new fun _ => none).read .sample (.serving threeBlocks) ['/', 'f'] 1 5).2 ↔
      Undisturbed .sample (new fun _ => none) threeBlocks ['/', 'f'] (.ofFn 1 fun _ => 7)
        kBlockSize 5 :=
  write_frame_iff .sample (fun _ => none) [] _ (.refl _) (by simp) threeBlocks
    (.serving threeBlocks) (fun _ _ _ => rfl) ['/', 'f'] _ kBlockSize 5 (by decide) (by decide)

private theorem read_after_write_hole :
    (((new fun _ => none).write .sample succeed ['/', 'f'] (.ofFn 1 fun _ => 7) 0).1.read .sample
      (.serving threeBlocks) ['/', 'f'] 1 1).2.buf.get 0 = 0 := by
  decide +kernel

private theorem read_before_write :
    ((new fun _ => none).read .sample (.serving threeBlocks) ['/', 'f'] 1 1).2.buf.get 0 = 1 := by
  decide +kernel

/-- One byte written to an uncached block: its other bytes read as zeros from then on. -/
theorem write_not_confined :
    ¬∀ (trace : Trace) (m : CacheManager), Run (Steps .sample) (new fun _ => none) trace m →
      (∀ entry ∈ trace, entry.1.isEvict = false) →
      ∀ (path : Str) (data : Bytes) (off q : ℕ), q < (threeBlocks path).size →
        ¬(off ≤ q ∧ q < off + data.size) →
        ((m.write .sample succeed path data off).1.read .sample (.serving threeBlocks) path 1 q).2 =
          (m.read .sample (.serving threeBlocks) path 1 q).2 := by
  intro all
  have same := all [] _ (.refl _) (by simp) ['/', 'f'] (.ofFn 1 fun _ => 7) 0 1 (by decide)
    (by decide)
  have hole := read_after_write_hole
  rw [same, read_before_write] at hole
  exact absurd hole (by decide)

end CacheManager

end RemoteCache
