import RemoteCache.Cache.EvictionTransparency

/-!
# Writes that fail underneath

## Main result

`failure_reported_iff`: when the count that a write returns can be trusted.

## Proof strategy

A write ignores what the kernel answers and always gets to its end. Each pass
puts a prefix of a block into a data part and a prefix of its piece into the
copy, as far as the answers let it, so the last pass that gets as far as a
place decides which byte is there.
-/
namespace RemoteCache

open FsLayout

/-- A byte of a file. -/
abbrev Place := Path × ℕ

/-- The byte is in the file and has the value. -/
def Held (fs : Files) (place : Place) (v : UInt8) : Prop :=
  place.2 < (fs.content place.1).size ∧ (fs.content place.1).get place.2 = v

/-- The last number below `n` with the property. -/
def lastBelow (P : ℕ → Prop) [DecidablePred P] : ℕ → Option ℕ
  | 0 => none
  | n + 1 => if P n then some n else lastBelow P n

section lastBelow

variable {P : ℕ → Prop} [DecidablePred P] {n : ℕ}

theorem lastBelow_none (k : ℕ) (none : ∀ j, n ≤ j → j < n + k → ¬P j) :
    lastBelow P (n + k) = lastBelow P n := by
  induction k with
  | zero => rfl
  | succ k ih =>
    rw [← Nat.add_assoc, lastBelow, if_neg (none _ (Nat.le_add_right n k) (Nat.lt_succ_self _))]
    exact ih fun j above below => none j above (by omega)

theorem lastBelow_some (k : ℕ) {j : ℕ} (above : n ≤ j) (below : j < n + k) (here : P j)
    (only : ∀ j', n ≤ j' → j' < n + k → P j' → j' = j) : lastBelow P (n + k) = some j := by
  induction k with
  | zero => omega
  | succ k ih =>
    rw [← Nat.add_assoc, lastBelow]
    by_cases last : P (n + k)
    · rw [if_pos last, only _ (Nat.le_add_right n k) (Nat.lt_succ_self _) last]
    · have early : j < n + k := by
        have : j ≠ n + k := fun same => last (same ▸ here)
        omega
      rw [if_neg last]
      exact ih early fun j' above' below' => only j' above' (by omega)

end lastBelow

namespace CacheManager

variable (cfg : Config) (answers : ℕ → Answer × Answer) (path : Str) (off : ℕ)

/-- Where the store keeps the byte at an offset. -/
def storePlace (x : ℕ) : Place :=
  (cfg.dataPart (cfg.hashHex path) (x / kMaxPartSize), x % kMaxPartSize)

/-- Where the write-through copy has it. -/
def copyPlace (x : ℕ) : Place := (cfg.copy path, x)

/-- The store and the copy hold the bytes. -/
def Stored (m : CacheManager) (data : Bytes) : Prop :=
  ∀ i < data.size, ∀ place ∈ [storePlace cfg path (off + i), copyPlace cfg path (off + i)],
    Held m.files place (data.get i)

/-- The bytes that the call counts are stored, and if not all are, the call says so. -/
def Reports (m : CacheManager) (data : Bytes) : Prop :=
  let r := m.write cfg answers path data off
  (0 ≤ r.2 → Stored cfg path off r.1 (data.slice 0 r.2.toNat)) ∧
  (¬Stored cfg path off r.1 data →
    r.2 < data.size ∧ (cacheStoreFile cfg answers (some m) path data off).2 < 0)

/-! ### What the passes put where -/

/-- The byte at offset `x` gets to the place: it lies before the end that the answer sets to the
block that is stored, or to the piece that is written through. -/
def Puts (place : Place) (x : ℕ) : Prop :=
  (place = storePlace cfg path x ∧
    x % kBlockSize < (answers (x / kBlockSize)).1.count kBlockSize) ∨
  (place = copyPlace cfg path x ∧
    min (x - off) (x % kBlockSize) < (answers (x / kBlockSize)).2.count kBlockSize)

/-- The pass for the byte at offset `x` makes a file reach beyond the place. -/
def Extends (place : Place) (x : ℕ) : Prop :=
  (place.1 = (storePlace cfg path x).1 ∧
    0 < (answers (x / kBlockSize)).1.count kBlockSize ∧
    place.2 < x % kMaxPartSize / kBlockSize * kBlockSize +
      (answers (x / kBlockSize)).1.count kBlockSize) ∨
  (place.1 = (copyPlace cfg path x).1 ∧
    min (x - off) (x % kBlockSize) < (answers (x / kBlockSize)).2.count kBlockSize ∧ place.2 ≤ x)

instance (place : Place) (x : ℕ) : Decidable (Puts cfg answers path off place x) :=
  inferInstanceAs (Decidable (_ ∨ _))

instance (place : Place) (x : ℕ) : Decidable (Extends cfg answers path off place x) :=
  inferInstanceAs (Decidable (_ ∨ _))

/-- At both places of each byte, the last byte that gets there is this one, or none does and the
file held it before. A zero is also held where the call makes the file reach beyond its end. -/
def GetsThrough (m : CacheManager) (data : Bytes) : Prop :=
  ∀ i < data.size, ∀ place ∈ [storePlace cfg path (off + i), copyPlace cfg path (off + i)],
    (place.2 < (m.files.content place.1).size ∨
      ∃ j < data.size, Extends cfg answers path off place (off + j)) ∧
    (lastBelow (fun j => Puts cfg answers path off place (off + j)) data.size).elim
      ((m.files.content place.1).get place.2) data.get = data.get i

variable {cfg answers path off} {m : CacheManager} {data : Bytes} {p : Piece} {d : Digest}
  {chunk : Bytes}

theorem merged_get {z : ℕ} (inside : z < kBlockSize) :
    (m.merged cfg d p chunk).get z =
      if p.inBlock ≤ z ∧ z < p.inBlock + chunk.size then chunk.get (z - p.inBlock)
      else (m.files.content (cfg.dataPart d (p.blk / kPartBlocks))).get
        (p.blk % kPartBlocks * kBlockSize + z) := by
  simp only [merged, Blob.get_write, Blob.get_pad, if_pos inside, blocks, BlockStore.blocks,
    BlockMap.ofSegments, Blob.get_slice]

/-- The files after a pass: a part of the block in the store, then a part of the piece. -/
theorem passed_content (fits : p.inBlock + chunk.size ≤ kBlockSize) (answer : Answer × Answer)
    (at_ : Path) :
    let stored := if at_ = cfg.dataPart d (p.blk / kPartBlocks) then
        (m.files.content at_).write
          ((m.merged cfg d p chunk).slice 0 (answer.1.count kBlockSize))
          (p.blk % kPartBlocks * kBlockSize)
      else m.files.content at_
    (m.passed cfg path d p chunk answer).files.content at_ =
      if at_ = cfg.copy path then
        stored.write (chunk.slice 0 (answer.2.count chunk.size)) (p.blk * kBlockSize + p.inBlock)
      else stored := by
  have place := BlockStore.block_place p.blk
  have size : (m.merged cfg d p chunk).size = kBlockSize := by
    rw [merged, Blob.size_write_within _ _ _ (by simpa using fits), Blob.size_pad]
  simp only [passed, Files.content_pwrite, BlockStore.write, place.1, place.2, size]
  split
  next same =>
    subst same
    split
    next same => rw [same]
    · rfl
  · split
    next same => rw [same]
    · rfl

theorem passed_byte (fits : p.inBlock + chunk.size ≤ kBlockSize) (answer : Answer × Answer)
    (at_ : Path) (y : ℕ) :
    ((m.passed cfg path d p chunk answer).files.content at_).get y =
      if at_ = cfg.copy path ∧ p.blk * kBlockSize + p.inBlock ≤ y ∧
          y < p.blk * kBlockSize + p.inBlock + answer.2.count chunk.size then
        chunk.get (y - (p.blk * kBlockSize + p.inBlock))
      else if at_ = cfg.dataPart d (p.blk / kPartBlocks) ∧
          p.blk % kPartBlocks * kBlockSize + p.inBlock ≤ y ∧
          y < p.blk % kPartBlocks * kBlockSize + p.inBlock + chunk.size ∧
          y < p.blk % kPartBlocks * kBlockSize + answer.1.count kBlockSize then
        chunk.get (y - (p.blk % kPartBlocks * kBlockSize + p.inBlock))
      else (m.files.content at_).get y := by
  have few := answer.2.count_le chunk.size
  have small := answer.1.count_le kBlockSize
  have size : (m.merged cfg d p chunk).size = kBlockSize := by
    rw [merged, Blob.size_write_within _ _ _ (by simpa using fits), Blob.size_pad]
  -- The block that is stored repeats what was there, except for the bytes of the piece.
  have stored : (if at_ = cfg.dataPart d (p.blk / kPartBlocks) then
        (m.files.content at_).write
          ((m.merged cfg d p chunk).slice 0 (answer.1.count kBlockSize))
          (p.blk % kPartBlocks * kBlockSize)
      else m.files.content at_).get y =
      if at_ = cfg.dataPart d (p.blk / kPartBlocks) ∧
          p.blk % kPartBlocks * kBlockSize + p.inBlock ≤ y ∧
          y < p.blk % kPartBlocks * kBlockSize + p.inBlock + chunk.size ∧
          y < p.blk % kPartBlocks * kBlockSize + answer.1.count kBlockSize then
        chunk.get (y - (p.blk % kPartBlocks * kBlockSize + p.inBlock))
      else (m.files.content at_).get y := by
    by_cases part : at_ = cfg.dataPart d (p.blk / kPartBlocks)
    · rw [if_pos part, Blob.get_write, Blob.size_slice, size]
      by_cases inside : p.blk % kPartBlocks * kBlockSize ≤ y ∧
          y < p.blk % kPartBlocks * kBlockSize + answer.1.count kBlockSize
      · rw [if_pos (by omega), Blob.get_slice, if_pos (by omega), Nat.zero_add,
          merged_get (by omega)]
        by_cases fresh : p.blk % kPartBlocks * kBlockSize + p.inBlock ≤ y ∧
            y < p.blk % kPartBlocks * kBlockSize + p.inBlock + chunk.size
        · rw [if_pos (by omega), if_pos ⟨part, fresh.1, fresh.2, inside.2⟩, Nat.sub_sub]
        · rw [if_neg (by omega), if_neg fun both => fresh ⟨both.2.1, both.2.2.1⟩, part]
          congr 1; omega
      · rw [if_neg (by omega), if_neg fun both => inside ⟨by omega, both.2.2.2⟩]
    · rw [if_neg part, if_neg fun both => part both.1]
  rw [passed_content fits]
  by_cases fresh : at_ = cfg.copy path ∧ p.blk * kBlockSize + p.inBlock ≤ y ∧
      y < p.blk * kBlockSize + p.inBlock + answer.2.count chunk.size
  · rw [if_pos fresh, if_pos fresh.1, Blob.get_write, Blob.size_slice, Nat.sub_zero,
      Nat.min_eq_left few, if_pos fresh.2, Blob.get_slice, if_pos (by omega), Nat.zero_add]
  · rw [if_neg fresh, ← stored]
    by_cases copied : at_ = cfg.copy path
    · rw [if_pos copied, Blob.get_write, Blob.size_slice, Nat.sub_zero, Nat.min_eq_left few,
        if_neg fun inside => fresh ⟨copied, inside⟩]
    · rw [if_neg copied]

theorem passed_reach (fits : p.inBlock + chunk.size ≤ kBlockSize) (answer : Answer × Answer)
    (at_ : Path) (y : ℕ) :
    y < ((m.passed cfg path d p chunk answer).files.content at_).size ↔
      y < (m.files.content at_).size ∨
      (at_ = cfg.dataPart d (p.blk / kPartBlocks) ∧ 0 < answer.1.count kBlockSize ∧
        y < p.blk % kPartBlocks * kBlockSize + answer.1.count kBlockSize) ∨
      (at_ = cfg.copy path ∧ 0 < answer.2.count chunk.size ∧
        y < p.blk * kBlockSize + p.inBlock + answer.2.count chunk.size) := by
  have few := answer.2.count_le chunk.size
  have small := answer.1.count_le kBlockSize
  have size : (m.merged cfg d p chunk).size = kBlockSize := by
    rw [merged, Blob.size_write_within _ _ _ (by simpa using fits), Blob.size_pad]
  have stored : y < (if at_ = cfg.dataPart d (p.blk / kPartBlocks) then
        (m.files.content at_).write
          ((m.merged cfg d p chunk).slice 0 (answer.1.count kBlockSize))
          (p.blk % kPartBlocks * kBlockSize)
      else m.files.content at_).size ↔
      y < (m.files.content at_).size ∨
      (at_ = cfg.dataPart d (p.blk / kPartBlocks) ∧ 0 < answer.1.count kBlockSize ∧
        y < p.blk % kPartBlocks * kBlockSize + answer.1.count kBlockSize) := by
    by_cases part : at_ = cfg.dataPart d (p.blk / kPartBlocks)
    · rw [if_pos part, Blob.lt_size_write, Blob.size_slice, size, Nat.sub_zero,
        Nat.min_eq_left small, and_iff_right part]
    · rw [if_neg part, or_iff_left fun both => part both.1]
  rw [passed_content fits, ← or_assoc, ← stored]
  by_cases copied : at_ = cfg.copy path
  · rw [if_pos copied, Blob.lt_size_write, Blob.size_slice, Nat.sub_zero, Nat.min_eq_left few,
      and_iff_right copied]
  · rw [if_neg copied]
    exact (or_iff_left fun both => copied both.1).symm

/-! ### The whole call -/

section piece

variable {done j : ℕ} {place : Place}

/-- A byte of a piece as an offset into a part, and how many bytes of its chunk are before it. -/
theorem piece_place (more : done < data.size) (piece : pieceAt off data.size done = p)
    (aligned : done = 0 ∨ (off + done) % kBlockSize = 0) (above : done ≤ j)
    (below : j < done + p.want) :
    (off + j) / kMaxPartSize = p.blk / kPartBlocks ∧
      (off + j) % kMaxPartSize = p.blk % kPartBlocks * kBlockSize + p.inBlock + (j - done) ∧
      min (off + j - off) (p.inBlock + (j - done)) = j - done := by
  obtain ⟨start, _, fits, _⟩ := pieceAt_spec off more piece
  obtain ⟨blk, rest⟩ := pieceAt_byte off more piece above below
  simp only [kPartBlocks, kBlockSize, kMaxPartSize] at *
  omega

/-- Where the bytes of a piece are put. -/
theorem puts_piece (more : done < data.size) (piece : pieceAt off data.size done = p)
    (aligned : done = 0 ∨ (off + done) % kBlockSize = 0) (above : done ≤ j)
    (below : j < done + p.want) :
    Puts cfg answers path off place (off + j) ↔
      ((place.1 = cfg.dataPart (cfg.hashHex path) (p.blk / kPartBlocks) ∧
        place.2 = p.blk % kPartBlocks * kBlockSize + p.inBlock + (j - done)) ∧
        p.inBlock + (j - done) < (answers p.blk).1.count kBlockSize) ∨
      ((place.1 = cfg.copy path ∧ place.2 = p.blk * kBlockSize + p.inBlock + (j - done)) ∧
        j - done < (answers p.blk).2.count p.want) := by
  obtain ⟨start, _, fits, _⟩ := pieceAt_spec off more piece
  obtain ⟨blk, rest⟩ := pieceAt_byte off more piece above below
  obtain ⟨part, inPart, before⟩ := piece_place more piece aligned above below
  have here : off + j = p.blk * kBlockSize + p.inBlock + (j - done) := by omega
  rw [Puts, storePlace, copyPlace, blk, rest, part, inPart, before,
    (answers p.blk).2.lt_count (show j - done < kBlockSize by omega)
      (show j - done < p.want by omega),
    Prod.ext_iff, Prod.ext_iff, here]

/-- No two bytes of a piece go to one place. -/
theorem puts_unique {j' : ℕ} (more : done < data.size) (piece : pieceAt off data.size done = p)
    (aligned : done = 0 ∨ (off + done) % kBlockSize = 0) (above : done ≤ j)
    (below : j < done + p.want) (above' : done ≤ j') (below' : j' < done + p.want)
    (first : Puts cfg answers path off place (off + j))
    (second : Puts cfg answers path off place (off + j')) : j' = j := by
  obtain ⟨start, _, fits, _⟩ := pieceAt_spec off more piece
  rw [puts_piece more piece aligned above below] at first
  rw [puts_piece more piece aligned above' below'] at second
  -- Where the copy is a part of the object itself, both hold the block at the same place.
  rcases first with ⟨⟨_, here⟩, _⟩ | ⟨⟨_, here⟩, _⟩ <;>
    rcases second with ⟨⟨_, there⟩, _⟩ | ⟨⟨_, there⟩, _⟩ <;>
    simp only [kPartBlocks, kBlockSize, kMaxPartSize] at * <;> omega

theorem extends_piece (more : done < data.size) (piece : pieceAt off data.size done = p)
    (aligned : done = 0 ∨ (off + done) % kBlockSize = 0) (above : done ≤ j)
    (below : j < done + p.want) :
    Extends cfg answers path off place (off + j) ↔
      (place.1 = cfg.dataPart (cfg.hashHex path) (p.blk / kPartBlocks) ∧
        0 < (answers p.blk).1.count kBlockSize ∧
        place.2 < p.blk % kPartBlocks * kBlockSize + (answers p.blk).1.count kBlockSize) ∨
      (place.1 = cfg.copy path ∧ j - done < (answers p.blk).2.count p.want ∧
        place.2 ≤ p.blk * kBlockSize + p.inBlock + (j - done)) := by
  obtain ⟨start, _, fits, _⟩ := pieceAt_spec off more piece
  obtain ⟨blk, rest⟩ := pieceAt_byte off more piece above below
  obtain ⟨part, inPart, before⟩ := piece_place more piece aligned above below
  have block : (off + j) % kMaxPartSize / kBlockSize = p.blk % kPartBlocks := by
    rw [inPart]
    simp only [kBlockSize] at *
    omega
  have here : off + j = p.blk * kBlockSize + p.inBlock + (j - done) := by omega
  rw [Extends, storePlace, copyPlace, blk, rest, part, block, before,
    (answers p.blk).2.lt_count (show j - done < kBlockSize by omega)
      (show j - done < p.want by omega),
    here]

end piece

/-- The files after the passes for the first `n` bytes. -/
structure Written (cfg : Config) (answers : ℕ → Answer × Answer) (path : Str) (off : ℕ)
    (data : Bytes) (old : Files) (n : ℕ) (new : Files) : Prop where
  byte : ∀ place : Place, (new.content place.1).get place.2 =
    (lastBelow (fun j => Puts cfg answers path off place (off + j)) n).elim
      ((old.content place.1).get place.2) data.get
  reach : ∀ place : Place, place.2 < (new.content place.1).size ↔
    place.2 < (old.content place.1).size ∨
      ∃ j < n, Extends cfg answers path off place (off + j)

theorem Written.pass {old : Files} {done : ℕ}
    (written : Written cfg answers path off data old done m.files) (more : done < data.size)
    (piece : pieceAt off data.size done = p)
    (aligned : done = 0 ∨ (off + done) % kBlockSize = 0) :
    Written cfg answers path off data old (done + p.want)
      (m.passed cfg path (cfg.hashHex path) p (data.slice done p.want) (answers p.blk)).files := by
  obtain ⟨start, forward, fits, inside⟩ := pieceAt_spec off more piece
  have length : (data.slice done p.want).size = p.want := data.size_slice_inside inside
  have few := (answers p.blk).2.count_le p.want
  have letter : ∀ z < p.want, (data.slice done p.want).get z = data.get (done + z) := by
    intro z small
    rw [Blob.get_slice, if_pos small]
  constructor
  · rintro ⟨at_, y⟩
    have last : ∀ j, done ≤ j → j < done + p.want → Puts cfg answers path off (at_, y) (off + j) →
        lastBelow (fun j => Puts cfg answers path off (at_, y) (off + j)) (done + p.want) =
          some j := fun j above below here =>
      lastBelow_some p.want above below here fun j' above' below' there =>
        puts_unique more piece aligned above below above' below' here there
    simp only
    rw [passed_byte (by rwa [length]), length]
    split
    next copied =>
      rw [letter _ (by omega), last (done + (y - (p.blk * kBlockSize + p.inBlock)))
        (Nat.le_add_right _ _) (by omega), Option.elim_some]
      rw [puts_piece more piece aligned (Nat.le_add_right _ _) (by omega)]
      exact .inr ⟨⟨copied.1, by simp only; omega⟩, by omega⟩
    next uncopied =>
      split
      next stored =>
        rw [letter _ (by omega),
          last (done + (y - (p.blk % kPartBlocks * kBlockSize + p.inBlock)))
            (Nat.le_add_right _ _) (by omega), Option.elim_some]
        rw [puts_piece more piece aligned (Nat.le_add_right _ _) (by omega)]
        exact .inl ⟨⟨stored.1, by simp only; omega⟩, by omega⟩
      next unstored =>
        rw [lastBelow_none p.want]
        · exact written.byte ⟨at_, y⟩
        · intro j above below here
          rw [puts_piece more piece aligned above below] at here
          simp only at here
          rcases here with ⟨⟨same, here⟩, early⟩ | ⟨⟨same, here⟩, early⟩
          · exact unstored ⟨same, by omega⟩
          · exact uncopied ⟨same, by omega⟩
  · intro place
    rw [passed_reach (by rwa [length]), length, written.reach, or_assoc]
    apply or_congr_right
    constructor
    · rintro (⟨j, early, old⟩ | ⟨part, some, before⟩ | ⟨copied, some, before⟩)
      · exact ⟨j, by omega, old⟩
      · refine ⟨done, by omega, ?_⟩
        rw [extends_piece more piece aligned (Nat.le_refl _) (by omega)]
        exact .inl ⟨part, some, before⟩
      -- The last byte of the piece that gets through.
      · refine ⟨done + ((answers p.blk).2.count p.want - 1), by omega, ?_⟩
        rw [extends_piece more piece aligned (Nat.le_add_right _ _) (by omega)]
        exact .inr ⟨copied, by omega, by omega⟩
    · rintro ⟨j, below, reaches⟩
      by_cases early : j < done
      · exact .inl ⟨j, early, reaches⟩
      · right
        rw [extends_piece more piece aligned (Nat.le_of_not_lt early) below] at reaches
        rcases reaches with ⟨part, some, before⟩ | ⟨copied, some, before⟩
        · exact .inl ⟨part, some, before⟩
        · exact .inr ⟨copied, by omega, by omega⟩

/-- What a write that is not refused leaves behind, whatever the answers. -/
theorem write_written (live : (m.entry cfg path).2.evicted = false)
    (keyed : (m.entry cfg path).2.hashHex = cfg.hashHex path) :
    Written cfg answers path off data m.files data.size
      (m.write cfg answers path data off).1.files := by
  have start : Written cfg answers path off data m.files 0 (m.entry cfg path).1.files := by
    rw [entry_files]
    exact ⟨fun _ => rfl, fun _ => by simp⟩
  refine (write_rule_any cfg
    (fun s => Written cfg answers path off data m.files s.done s.mgr.files ∧
      (s.done = 0 ∨ (off + s.done) % kBlockSize = 0 ∨ s.done = data.size)) answers live
    ⟨start, .inl rfl⟩ fun s p ⟨written, aligned⟩ more piece => ?_).1.1
  have aligned : s.done = 0 ∨ (off + s.done) % kBlockSize = 0 := by omega
  rw [keyed]
  refine ⟨written.pass more piece aligned, ?_⟩
  exact .inr (pieceAt_aligned off more piece)

theorem reports_iff (live : (m.entry cfg path).2.evicted = false)
    (keyed : (m.entry cfg path).2.hashHex = cfg.hashHex path) :
    Reports cfg answers path off m data ↔ GetsThrough cfg answers path off m data := by
  have written : Written cfg answers path off data m.files data.size _ :=
    write_written live keyed
  have count : (m.write cfg answers path data off).2 = data.size :=
    (write_rule_any cfg (fun _ => True) answers live trivial fun _ _ _ _ _ => trivial).2
  have stored : Stored cfg path off (m.write cfg answers path data off).1 data ↔
      GetsThrough cfg answers path off m data := by
    simp only [Stored, GetsThrough, Held, written.byte, written.reach]
  rw [← stored, Reports, count]
  simp only [Int.toNat_natCast, Blob.slice_self, Int.natCast_nonneg, true_imp_iff, lt_irrefl,
    false_and, imp_false, not_not, and_self]

/-- After every run, a write to a path that is not evicted reports what the kernel has left out,
whatever the kernel answers, if and only if all bytes get through or were there before. -/
theorem failure_reported_iff (cfg : Config) (files : Files) (trace : Trace) (m : CacheManager)
    (run : Run (Steps cfg) (new files) trace m) (path : Str)
    (live : (m.entry cfg path).2.evicted = false) (answers : ℕ → Answer × Answer) (data : Bytes)
    (off : ℕ) :
    Reports cfg answers path off m data ↔ GetsThrough cfg answers path off m data :=
  reports_iff live ((run_keyed run).entry cfg (settled_keyed path)).2.2

/-- The disk is full when the copy is written. -/
def copyFails : ℕ → Answer × Answer := fun _ => (.done, .writeFails 28)

theorem failure_reported_full :
    Reports .sample copyFails ['/', 'f'] 0 (new fun _ => none) (.ofFn 2 fun _ => 7) ↔
      GetsThrough .sample copyFails ['/', 'f'] 0 (new fun _ => none) (.ofFn 2 fun _ => 7) :=
  failure_reported_iff .sample (fun _ => none) [] _ (.refl _) ['/', 'f'] rfl copyFails _ 0

/-- The write returns 2, and the copy is empty. -/
theorem failure_unreported :
    ¬∀ (files : Files) (trace : Trace) (m : CacheManager),
      Run (Steps .sample) (new files) trace m → ∀ path : Str,
      (m.entry .sample path).2.evicted = false → ∀ answers data off,
        Reports .sample answers path off m data := by
  intro all
  have reports := all (fun _ => none) [] _ (.refl _) ['/', 'f'] rfl copyFails (.ofFn 2 fun _ => 7) 0
  rw [reports_iff rfl rfl] at reports
  have copied := (reports 0 (by decide) (copyPlace .sample ['/', 'f'] 0) (by simp)).1
  revert copied
  decide +kernel

end CacheManager

end RemoteCache
