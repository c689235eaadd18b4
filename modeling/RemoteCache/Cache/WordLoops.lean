import RemoteCache.Cache.RangeCuts
import RemoteCache.Lib.Words

/-!
# The loops of `read` and `write` on machine words

The offset and the `done` of `read` are signed, lengths and the `done` of `write`
are not, and the two loops compute their pieces with different types.

## Main results

`readWords_eq`, `writeWords_eq`: as long as the range ends below 2⁶³, the calls on
machine words do what `read` and `write` do on natural numbers.

`cuts_exact`: the two loops cut a range into the same pieces, without gap or overlap.
-/
namespace RemoteCache

namespace CacheManager

/-- `kBlockSize` as a `std::size_t` -/
def blockWord : UInt64 := .ofNat kBlockSize

/-- The local variables of a pass: where it is in the caller's buffer, and its piece. -/
structure Cut where
  done : UInt64
  blk : UInt64
  inBlock : UInt64
  want : UInt64
  deriving DecidableEq

/-- The piece of a pass of `read`, where `off + done` and the difference are signed. -/
def readCut (off : Int64) (len : UInt64) (done : Int64) : Option Cut := do
  let pos ← signed (off.toInt + done.toInt)
  -- The division by a `std::size_t` is unsigned, and so is the product.
  let blk := pos.toUInt64 / blockWord
  let blkOff := (blk * blockWord).toInt64
  let inBlock ← signed (pos.toInt - blkOff.toInt)
  let inBlock := inBlock.toUInt64
  some ⟨done.toUInt64, blk, inBlock, min (blockWord - inBlock) (len - done.toUInt64)⟩

/-- The piece of a pass of `write`, where `done` and with it every operation is unsigned. -/
def writeCut (off : Int64) (len done : UInt64) : Cut :=
  let pos := off.toUInt64 + done
  let blk := pos / blockWord
  let boff := (blk * blockWord).toInt64
  let inBlock := pos - boff.toUInt64
  ⟨done, blk, inBlock, min (blockWord - inBlock) (len - done)⟩

/-- The words for a piece. -/
def Cut.of (done : ℕ) (p : Piece) : Cut :=
  ⟨.ofNat done, .ofNat p.blk, .ofNat p.inBlock, .ofNat p.want⟩

def Cut.piece (c : Cut) : Piece := ⟨c.blk.toNat, c.inBlock.toNat, c.want.toNat⟩

/-- A range that ends below 2⁶³, in natural numbers. -/
theorem exists_range {off : Int64} {len : UInt64} (start : 0 ≤ off)
    (fits : off.toInt + len.toNat < 2 ^ 63) :
    ∃ o l, off = .ofNat o ∧ len = .ofNat l ∧ o + l < 2 ^ 63 ∧ off.toInt.toNat = o ∧
      len.toNat = l := by
  obtain ⟨o, small, rfl⟩ := exists_ofNat start
  rw [Int64.toInt_ofNat_of_lt small] at *
  exact ⟨o, len.toNat, rfl, UInt64.ofNat_toNat.symm, by omega, Int.toNat_natCast o, rfl⟩

/-! ### Pieces -/

section

variable {off len done : ℕ}

theorem mul_block (n : ℕ) : UInt64.ofNat n * blockWord = .ofNat (n * kBlockSize) :=
  (UInt64.ofNat_mul n kBlockSize).symm

theorem block_eq (fits : off + len < 2 ^ 63) (more : done < len) :
    UInt64.ofNat (off + done) / blockWord = .ofNat (pieceAt off len done).blk := by
  rw [blockWord, pieceAt_blk, UInt64.ofNat_div (by omega) (by decide)]

/-- What is left of the block or of the range. -/
theorem want_eq (fits : off + len < 2 ^ 63) (more : done < len) :
    min (blockWord - .ofNat (pieceAt off len done).inBlock) (.ofNat len - .ofNat done) =
      UInt64.ofNat (pieceAt off len done).want := by
  obtain ⟨_, _, inside, _⟩ := pieceAt_spec off more rfl
  rw [blockWord, ← UInt64.ofNat_sub (by omega), ← UInt64.ofNat_sub more.le,
    ofNat_min (by unfold kBlockSize; omega) (by omega)]
  rfl

theorem readCut_eq (fits : off + len < 2 ^ 63) (more : done < len) :
    readCut (.ofNat off) (.ofNat len) (.ofNat done) = some (.of done (pieceAt off len done)) := by
  obtain ⟨place, _, _, _⟩ := pieceAt_spec off more rfl
  have pos : signed ((Int64.ofNat off).toInt + (Int64.ofNat done).toInt) =
      some (.ofNat (off + done)) := by
    rw [Int64.toInt_ofNat_of_lt (by omega), Int64.toInt_ofNat_of_lt (by omega), ← Int.natCast_add,
      signed_natCast (by omega)]
  have rest : signed ((Int64.ofNat (off + done)).toInt -
      (Int64.ofNat ((pieceAt off len done).blk * kBlockSize)).toInt) =
      some (.ofNat (pieceAt off len done).inBlock) := by
    rw [Int64.toInt_ofNat_of_lt (by omega), Int64.toInt_ofNat_of_lt (by omega), ← place,
      Int.natCast_add, add_sub_cancel_left, signed_natCast (by omega)]
  simp only [readCut, pos, Option.bind_eq_bind, Option.bind_some, Int64.toUInt64_ofNat',
    block_eq fits more, mul_block, UInt64.toInt64_ofNat', rest, want_eq fits more]
  rfl

/-- The first sum that overflows. -/
example : readCut .maxValue 2 1 = none := by decide

theorem writeCut_eq (fits : off + len < 2 ^ 63) (more : done < len) :
    writeCut (.ofNat off) (.ofNat len) (.ofNat done) = .of done (pieceAt off len done) := by
  obtain ⟨place, _, _, _⟩ := pieceAt_spec off more rfl
  have rest : UInt64.ofNat (off + done) - UInt64.ofNat ((pieceAt off len done).blk * kBlockSize) =
      .ofNat (pieceAt off len done).inBlock := by
    rw [← UInt64.ofNat_sub (by omega), ← place, Nat.add_sub_cancel_left]
  have pos : UInt64.ofNat off + UInt64.ofNat done = .ofNat (off + done) :=
    (UInt64.ofNat_add off done).symm
  simp only [writeCut, Int64.toUInt64_ofNat', pos, block_eq fits more, mul_block,
    UInt64.toUInt64_toInt64, rest, want_eq fits more]
  rfl

/-- The words are wide enough for the piece. -/
theorem piece_of (fits : off + len < 2 ^ 63) (more : done < len) :
    (Cut.of done (pieceAt off len done)).piece = pieceAt off len done := by
  obtain ⟨place, _, inside, _⟩ := pieceAt_spec off more rfl
  unfold kBlockSize at place inside
  simp only [Cut.of, Cut.piece]
  rw [toNat_ofNat (by omega), toNat_ofNat (by omega), toNat_ofNat (by omega)]

end

/-! ### The loops -/

/-- A pass of `read`, given its piece. -/
def readBlock (cfg : Config) (env : Env) (path : Str) (p : Piece) (s : ReadState) :
    Except (CacheManager × ReadResult) ReadState :=
  let (block, cached) :=
    probe cfg s.mgr.files s.ce.hashHex p.blk (.ofFn kBlockSize (env.stack p.blk))
  if cached then .ok (finish path p block s)
  else
    match fetch cfg env.backend s.mgr.files path p.blk with
    | none => .error (s.mgr, ⟨if s.done = 0 then -1 else s.done, s.buf⟩)
    | some got =>
      .ok (finish path p (block.write got 0)
        { s with mgr := s.mgr.store cfg s.ce.hashHex p.blk got })

theorem readPass_eq (cfg : Config) (env : Env) (path : Str) (len off : ℕ) (s : ReadState) :
    readPass cfg env path len off s = readBlock cfg env path (pieceAt off len s.done) s := rfl

structure WordRead where
  mgr : CacheManager
  ce : CacheEntry
  done : Int64
  buf : Bytes

/-- One pass of the loop of `read`. It has no result where a signed operation overflows. -/
def readPassWords (cfg : Config) (env : Env) (path : Str) (len : UInt64) (off : Int64)
    (s : WordRead) : Except (Option (CacheManager × ReadResult)) WordRead :=
  match readCut off len s.done with
  | none => .error none
  | some c =>
    match readBlock cfg env path c.piece ⟨s.mgr, s.ce, c.done.toNat, s.buf⟩ with
    | .error left => .error (some left)
    -- `done += want` adds as unsigned words do.
    | .ok t => .ok ⟨t.mgr, t.ce, (c.done + c.want).toInt64, t.buf⟩

def readLoopWords (cfg : Config) (env : Env) (path : Str) (len : UInt64) (off : Int64)
    (s : WordRead) : Except (Option (CacheManager × ReadResult)) WordRead :=
  loop (fun s => s.done < len.toInt64) (readPassWords cfg env path len off) len.toNat s

/-- The pieces of the passes of `read`. -/
def readCuts (cfg : Config) (env : Env) (path : Str) (len : UInt64) (off : Int64) (s : WordRead) :
    List (Option Cut) :=
  (passes (fun s => s.done < len.toInt64) (readPassWords cfg env path len off) len.toNat s).map
    fun s => readCut off len s.done

/-- `read`, or nothing if a signed operation overflows. -/
def readWords (cfg : Config) (env : Env) (m : CacheManager) (path : Str) (len : UInt64)
    (off : Int64) : Option (CacheManager × ReadResult) :=
  let (m, ce) := m.entry cfg path
  if ce.evicted then some (m, ⟨-ENOENT, .empty⟩)
  else
    match readLoopWords cfg env path len off ⟨m, ce, 0, .empty⟩ with
    | .error left => left
    | .ok s => some (s.mgr, ⟨s.done.toInt, s.buf⟩)

/-- A pass of `write`, given its piece and the place in the copy. -/
def writeBlock (cfg : Config) (answers : ℕ → Answer × Answer) (path : Str) (ce : CacheEntry)
    (data : Bytes) (p : Piece) (pos : ℕ) (s : WriteState) : WriteState :=
  let chunk := data.slice s.done p.want
  let block := (probe cfg s.mgr.files ce.hashHex p.blk (.ofFn kBlockSize fun _ => 0)).1
  let block := block.write chunk p.inBlock
  let blkOff := p.blk * kBlockSize
  let files := (BlockStore.write cfg s.mgr.files ce.hashHex block blkOff (answers p.blk).1).1
  let bitmap := MetadataStore.markDirtyBlock s.mgr.bitmap ce.hashHex
    (blkOff / FsLayout.kMaxPartSize) p.blk
  let m := { s.mgr with files, bitmap }.touch (.entry path) p.blk .one
  let files := (m.files.pwrite (cfg.copy path) chunk pos (answers p.blk).2).1
  ⟨{ m with files }, s.done + p.want⟩

theorem writePass_block (cfg : Config) (answers : ℕ → Answer × Answer) (path : Str)
    (ce : CacheEntry) (data : Bytes) (off : ℕ) (s : WriteState) :
    writePass cfg answers path ce data off s = .ok (writeBlock cfg answers path ce data
      (pieceAt off data.size s.done) (off + s.done) s) := rfl

structure WordWrite where
  mgr : CacheManager
  done : UInt64

/-- One pass of the loop of `write`. -/
def writePassWords (cfg : Config) (answers : ℕ → Answer × Answer) (path : Str) (ce : CacheEntry)
    (data : Bytes) (off : Int64) (s : WordWrite) : Except Empty WordWrite :=
  let c := writeCut off (.ofNat data.size) s.done
  let t := writeBlock cfg answers path ce data c.piece (off.toUInt64 + s.done).toNat
    ⟨s.mgr, s.done.toNat⟩
  .ok ⟨t.mgr, s.done + c.want⟩

def writeLoopWords (cfg : Config) (answers : ℕ → Answer × Answer) (path : Str) (ce : CacheEntry)
    (data : Bytes) (off : Int64) (s : WordWrite) : Except Empty WordWrite :=
  loop (fun s => s.done < .ofNat data.size) (writePassWords cfg answers path ce data off)
    data.size s

/-- The pieces of the passes of `write`. -/
def writeCuts (cfg : Config) (answers : ℕ → Answer × Answer) (path : Str) (ce : CacheEntry)
    (data : Bytes) (off : Int64) (s : WordWrite) : List Cut :=
  (passes (fun s => s.done < .ofNat data.size) (writePassWords cfg answers path ce data off)
    data.size s).map fun s => writeCut off (.ofNat data.size) s.done

def writeWords (cfg : Config) (answers : ℕ → Answer × Answer) (m : CacheManager) (path : Str)
    (data : Bytes) (off : Int64) : CacheManager × ℤ :=
  let (m, ce) := m.entry cfg path
  if ce.evicted then (m, -ENOENT)
  else
    match writeLoopWords cfg answers path ce data off ⟨m, 0⟩ with
    -- `done` is returned as an `ssize_t`.
    | .ok s => (s.mgr, s.done.toInt64.toInt)

/-! ### Reads on natural numbers -/

variable {cfg : Config} {env : Env} {path : Str} {off len : ℕ}

/-- A state of the loop of `read` on words and one on numbers. -/
structure ReadAlike (len : ℕ) (s : WordRead) (t : ReadState) : Prop where
  mgr : s.mgr = t.mgr
  ce : s.ce = t.ce
  done : s.done = .ofNat t.done
  buf : s.buf = t.buf
  within : t.done ≤ len

theorem ReadAlike.cond (fits : len < 2 ^ 63) {s : WordRead} {t : ReadState}
    (alike : ReadAlike len s t) :
    decide (s.done < (UInt64.ofNat len).toInt64) = decide (t.done < len) := by
  have within := alike.within
  rw [alike.done, UInt64.toInt64_ofNat', decide_eq_decide]
  exact Int64.ofNat_lt_iff_lt (by omega) fits

theorem ReadAlike.more (fits : len < 2 ^ 63) {s : WordRead} {t : ReadState}
    (alike : ReadAlike len s t) (more : decide (s.done < (UInt64.ofNat len).toInt64) = true) :
    t.done < len := by
  rw [alike.cond fits] at more
  exact of_decide_eq_true more

theorem ReadAlike.pass (fits : off + len < 2 ^ 63) {s : WordRead} {t : ReadState}
    (alike : ReadAlike len s t) (going : decide (s.done < (UInt64.ofNat len).toInt64) = true) :
    Matches (fun left left' => left = some left') (ReadAlike len)
      (readPassWords cfg env path (.ofNat len) (.ofNat off) s)
      (readPass cfg env path len off t) := by
  have more := alike.more (by omega) going
  obtain ⟨mgr, ce, done, buf⟩ := s
  obtain ⟨rfl, rfl, rfl, rfl, _⟩ := alike
  have cut := readCut_eq fits more
  have place : (Cut.of t.done (pieceAt off len t.done)).done.toNat = t.done :=
    toNat_ofNat (by omega)
  have inside := (pieceAt_spec off more rfl).2.2.2
  simp only [readPassWords, cut, piece_of fits more, place, ← readPass_eq]
  rcases readPass_cases cfg env path len off t with ⟨block, mgr, _, eq⟩ | ⟨_, _, eq⟩
  · rw [eq]
    refine ⟨rfl, rfl, ?_, rfl, inside⟩
    exact congrArg UInt64.toInt64 (UInt64.ofNat_add _ _).symm
  · rw [eq]
    rfl

theorem readLoop_alike (cfg : Config) (env : Env) (path : Str) (fits : off + len < 2 ^ 63)
    {s : WordRead} {t : ReadState} (alike : ReadAlike len s t) :
    Matches (fun left left' => left = some left') (ReadAlike len)
      (readLoopWords cfg env path (.ofNat len) (.ofNat off) s)
      (readLoop cfg env path len off t) := by
  rw [readLoopWords, toNat_ofNat (by omega)]
  exact loop_matches _ _ _ _ _ _ (fun s t alike => alike.cond (by omega))
    (fun s t alike more => alike.pass fits more) len s t alike

theorem readCuts_eq (fits : off + len < 2 ^ 63) {s : WordRead} {t : ReadState}
    (alike : ReadAlike len s t) :
    readCuts cfg env path (.ofNat len) (.ofNat off) s =
      (readPasses cfg env path len off t).map fun t =>
        some (.of t.done (pieceAt off len t.done)) := by
  rw [readCuts, toNat_ofNat (by omega)]
  apply passes_matches _ _ _ _ (ReadAlike len) (fun left left' => left = some left')
    (fun s t alike => alike.cond (by omega)) (fun s t alike more => alike.pass fits more)
    _ _ _ len s t alike
  intro s t alike more
  rw [alike.done, readCut_eq fits (alike.more (by omega) more)]

/-- Below 2⁶³ no signed operation overflows, and `read` on words is `read` on numbers. -/
theorem readWords_eq (cfg : Config) (env : Env) (m : CacheManager) (path : Str) {len : UInt64}
    {off : Int64} (start : 0 ≤ off) (fits : off.toInt + len.toNat < 2 ^ 63) :
    readWords cfg env m path len off = some (read cfg env m path len.toNat off.toInt.toNat) := by
  obtain ⟨o, l, rfl, rfl, fits, offset, length⟩ := exists_range start fits
  rw [offset, length]
  by_cases gone : (m.entry cfg path).2.evicted = true
  · simp only [readWords, read, gone, if_true]
  · have ends := readLoop_alike cfg env path fits
      (s := ⟨(m.entry cfg path).1, (m.entry cfg path).2, 0, .empty⟩)
      (t := ⟨(m.entry cfg path).1, (m.entry cfg path).2, 0, .empty⟩)
      ⟨rfl, rfl, rfl, rfl, Nat.zero_le l⟩
    have live : (m.entry cfg path).2.evicted = false := by simpa using gone
    simp only [readWords, gone, Bool.false_eq_true, if_false]
    rcases ends.cases with ⟨left, left', words, numbers, same⟩ | ⟨s, t, words, numbers, alike⟩
    · rw [read_left live numbers, words]
      exact same
    · have within := alike.within
      rw [read_done live numbers, words]
      simp only [alike.mgr, alike.done, alike.buf]
      rw [Int64.toInt_ofNat_of_lt (by omega)]

theorem readWords_eq_across :
    readWords .sample (.serving threeBlocks) (new fun _ => none) ['/', 'f'] 2 65535 =
      some (read .sample (.serving threeBlocks) (new fun _ => none) ['/', 'f']
        (2 : UInt64).toNat (65535 : Int64).toInt.toNat) :=
  readWords_eq .sample (.serving threeBlocks) (new fun _ => none) ['/', 'f'] (by decide) (by decide)

/-! ### Writes on natural numbers -/

variable {answers : ℕ → Answer × Answer} {ce : CacheEntry} {data : Bytes}

/-- A state of the loop of `write` on words and one on numbers. -/
structure WriteAlike (len : ℕ) (s : WordWrite) (t : WriteState) : Prop where
  mgr : s.mgr = t.mgr
  done : s.done = .ofNat t.done
  within : t.done ≤ len

theorem WriteAlike.cond (fits : len < 2 ^ 63) {s : WordWrite} {t : WriteState}
    (alike : WriteAlike len s t) :
    decide (s.done < UInt64.ofNat len) = decide (t.done < len) := by
  have within := alike.within
  rw [alike.done, decide_eq_decide]
  exact UInt64.ofNat_lt_iff_lt (within.trans_lt (fits.trans (by decide)))
    (fits.trans (by decide))

theorem WriteAlike.more (fits : len < 2 ^ 63) {s : WordWrite} {t : WriteState}
    (alike : WriteAlike len s t) (more : decide (s.done < UInt64.ofNat len) = true) :
    t.done < len := by
  rw [alike.cond fits] at more
  exact of_decide_eq_true more

theorem WriteAlike.pass (fits : off + data.size < 2 ^ 63) {s : WordWrite} {t : WriteState}
    (alike : WriteAlike data.size s t)
    (going : decide (s.done < UInt64.ofNat data.size) = true) :
    Matches (fun _ _ => False) (WriteAlike data.size)
      (writePassWords cfg answers path ce data (.ofNat off) s)
      (writePass cfg answers path ce data off t) := by
  have more := alike.more (by omega) going
  obtain ⟨mgr, done⟩ := s
  obtain ⟨rfl, rfl, _⟩ := alike
  have place : (Int64.ofNat off).toUInt64 + UInt64.ofNat t.done = .ofNat (off + t.done) := by
    rw [Int64.toUInt64_ofNat', UInt64.ofNat_add]
  have inside := (pieceAt_spec off more rfl).2.2.2
  simp only [writePassWords, writeCut_eq fits more, piece_of fits more, place,
    toNat_ofNat (show off + t.done < 2 ^ 64 by omega), toNat_ofNat (show t.done < 2 ^ 64 by omega),
    writePass_block]
  exact ⟨rfl, (UInt64.ofNat_add _ _).symm, inside⟩

theorem writeLoop_alike (cfg : Config) (answers : ℕ → Answer × Answer) (path : Str)
    (ce : CacheEntry) (fits : off + data.size < 2 ^ 63) {s : WordWrite} {t : WriteState}
    (alike : WriteAlike data.size s t) :
    Matches (fun _ _ => False) (WriteAlike data.size)
      (writeLoopWords cfg answers path ce data (.ofNat off) s)
      (writeLoop cfg answers path ce data off t) :=
  loop_matches _ _ _ _ _ _ (fun s t alike => alike.cond (by omega))
    (fun s t alike going => alike.pass fits going) data.size s t alike

theorem writeCuts_eq (fits : off + data.size < 2 ^ 63) {s : WordWrite} {t : WriteState}
    (alike : WriteAlike data.size s t) :
    writeCuts cfg answers path ce data (.ofNat off) s =
      (writePasses cfg answers path ce data off t).map fun t =>
        .of t.done (pieceAt off data.size t.done) := by
  apply passes_matches _ _ _ _ (WriteAlike data.size) (fun _ _ => False)
    (fun s t alike => alike.cond (by omega)) (fun s t alike going => alike.pass fits going)
    _ _ _ data.size s t alike
  intro s t alike going
  rw [alike.done, writeCut_eq fits (alike.more (by omega) going)]

/-- Below 2⁶³ `write` on words is `write` on numbers. -/
theorem writeWords_eq (cfg : Config) (answers : ℕ → Answer × Answer) (m : CacheManager)
    (path : Str) (data : Bytes) {off : Int64} (start : 0 ≤ off)
    (fits : off.toInt + data.size < 2 ^ 63) :
    writeWords cfg answers m path data off = write cfg answers m path data off.toInt.toNat := by
  obtain ⟨o, small, rfl⟩ := exists_ofNat start
  rw [Int64.toInt_ofNat_of_lt small] at fits ⊢
  have fits : o + data.size < 2 ^ 63 := by omega
  rw [Int.toNat_natCast]
  by_cases gone : (m.entry cfg path).2.evicted = true
  · simp only [writeWords, write, gone, if_true]
  · have ends := writeLoop_alike cfg answers path (m.entry cfg path).2 fits
      (s := ⟨(m.entry cfg path).1, 0⟩) (t := ⟨(m.entry cfg path).1, 0⟩)
      ⟨rfl, rfl, Nat.zero_le _⟩
    have live : (m.entry cfg path).2.evicted = false := by simpa using gone
    simp only [writeWords, gone, Bool.false_eq_true, if_false]
    rcases ends.cases with ⟨left, _⟩ | ⟨s, t, words, numbers, alike⟩
    · exact left.elim
    · have within := alike.within
      rw [write_done live numbers, words]
      simp only [alike.mgr, alike.done, UInt64.toInt64_ofNat']
      rw [Int64.toInt_ofNat_of_lt (by omega)]

theorem writeWords_eq_across :
    writeWords .sample succeed (new fun _ => none) ['/', 'f'] (.ofFn 2 fun _ => 9) 65535 =
      write .sample succeed (new fun _ => none) ['/', 'f'] (.ofFn 2 fun _ => 9)
        (65535 : Int64).toInt.toNat :=
  writeWords_eq .sample succeed (new fun _ => none) ['/', 'f'] (.ofFn 2 fun _ => 9) (by decide)
    (by decide)

/-! ### The pieces of a range -/

/-- Pieces of blocks that make up a range of a file, and of the caller's buffer. -/
structure Tiles (off len : ℕ) (pieced : List Cut) : Prop where
  positive : ∀ c ∈ pieced, 0 < c.want.toNat
  inside : ∀ c ∈ pieced, c.inBlock.toNat + c.want.toNat ≤ kBlockSize
  range : pieced.map (fun c => (c.blk.toNat * kBlockSize + c.inBlock.toNat, c.want.toNat)) =
    pieces off (pieced.map (·.want.toNat))
  buffer : pieced.map (fun c => (c.done.toNat, c.want.toNat)) =
    pieces 0 (pieced.map (·.want.toNat))
  whole : (pieced.map (·.want.toNat)).sum = len
  blocks : pieced.map (·.blk.toNat) = blocksOf off len

theorem tiles_cuts (fits : off + len < 2 ^ 63) :
    Tiles off len ((cuts off len).map fun d => .of d (pieceAt off len d)) := by
  have piece : ∀ d ∈ cuts off len, (Cut.of d (pieceAt off len d)).piece = pieceAt off len d :=
    fun d member => piece_of fits (lt_of_mem_cuts member)
  have blk : ∀ d ∈ cuts off len, (Cut.of d (pieceAt off len d)).blk.toNat =
      (pieceAt off len d).blk := fun d member => congrArg Piece.blk (piece d member)
  have inBlock : ∀ d ∈ cuts off len, (Cut.of d (pieceAt off len d)).inBlock.toNat =
      (pieceAt off len d).inBlock := fun d member => congrArg Piece.inBlock (piece d member)
  have want : ∀ d ∈ cuts off len, (Cut.of d (pieceAt off len d)).want.toNat =
      (pieceAt off len d).want := fun d member => congrArg Piece.want (piece d member)
  have done : ∀ d ∈ cuts off len, (Cut.of d (pieceAt off len d)).done.toNat = d := by
    intro d member
    have more := lt_of_mem_cuts member
    exact toNat_ofNat (by omega)
  have sizes : ((cuts off len).map fun d => Cut.of d (pieceAt off len d)).map (·.want.toNat) =
      (cuts off len).map fun d => (pieceAt off len d).want := by
    rw [List.map_map]
    refine List.map_congr_left fun d member => ?_
    rw [Function.comp_apply, want d member]
  have buffer : (cuts off len).map (fun d => (d, (pieceAt off len d).want)) =
      pieces 0 ((cuts off len).map fun d => (pieceAt off len d).want) :=
    cutsFrom_pieces off len len 0
  constructor
  · simp only [List.forall_mem_map]
    intro d member
    rw [want d member]
    exact (pieceAt_spec off (lt_of_mem_cuts member) rfl).2.1
  · simp only [List.forall_mem_map]
    intro d member
    rw [want d member, inBlock d member]
    exact (pieceAt_spec off (lt_of_mem_cuts member) rfl).2.2.1
  · have shifted := pieces_shift off 0 ((cuts off len).map fun d => (pieceAt off len d).want)
    rw [← buffer, List.map_map] at shifted
    rw [sizes, List.map_map]
    calc (cuts off len).map _
        = (cuts off len).map fun d => (off + d, (pieceAt off len d).want) := by
          refine List.map_congr_left fun d member => ?_
          rw [Function.comp_apply, blk d member, inBlock d member, want d member,
            (pieceAt_spec off (lt_of_mem_cuts member) rfl).1]
      _ = pieces off ((cuts off len).map fun d => (pieceAt off len d).want) := shifted
  · rw [sizes, ← buffer, List.map_map]
    refine List.map_congr_left fun d member => ?_
    rw [Function.comp_apply, done d member, want d member]
  · rw [sizes]
    have total := cutsFrom_sum off (Nat.zero_le len) (Nat.le_add_left len 0)
    rwa [Nat.zero_add] at total
  · have blocks := cutsFrom_blocks off (Nat.zero_le len) (Nat.le_add_left len 0)
      (.inl rfl)
    have none : blocksOf off 0 = [] := by rw [blocksOf, if_pos rfl, List.range'_zero]
    rw [none, List.nil_append] at blocks
    rw [List.map_map, ← blocks]
    refine List.map_congr_left fun d member => ?_
    rw [Function.comp_apply, blk d member]

/-- Where `read` finds its blocks, the loops of `read` and of `write` go through the same pieces,
which make up the range, and stop when it is done. -/
theorem cuts_exact (cfg : Config) (env : Env) (answers : ℕ → Answer × Answer) (path path' : Str)
    (m m' : CacheManager) (ce ce' : CacheEntry) (data : Bytes) (off : Int64) (len : UInt64)
    (start : 0 ≤ off) (fits : off.toInt + len.toNat < 2 ^ 63) (size : data.size = len.toNat)
    (available : ∀ blk ∈ blocksOf off.toInt.toNat len.toNat,
      m.Available cfg env path ce.hashHex blk) :
    ∃ pieced : List Cut, Tiles off.toInt.toNat len.toNat pieced ∧
      readCuts cfg env path len off ⟨m, ce, 0, .empty⟩ = pieced.map some ∧
      writeCuts cfg answers path' ce' data off ⟨m', 0⟩ = pieced ∧
      (∃ s, readLoopWords cfg env path len off ⟨m, ce, 0, .empty⟩ = .ok s ∧
        s.done = len.toInt64) ∧
      ∃ s, writeLoopWords cfg answers path' ce' data off ⟨m', 0⟩ = .ok s ∧ s.done = len := by
  obtain ⟨o, l, rfl, rfl, fits, offset, length⟩ := exists_range start fits
  rw [offset, length] at available ⊢
  rw [length] at size
  subst size
  have reads : ReadAlike data.size ⟨m, ce, 0, .empty⟩ ⟨m, ce, 0, .empty⟩ :=
    ⟨rfl, rfl, rfl, rfl, Nat.zero_le _⟩
  have writes : WriteAlike data.size ⟨m', 0⟩ ⟨m', 0⟩ := ⟨rfl, rfl, Nat.zero_le _⟩
  obtain ⟨readSame, t, readEnds, readDone⟩ := read_cuts (s := ⟨m, ce, 0, .empty⟩) rfl available
  obtain ⟨writeSame, t', writeEnds, writeDone⟩ :=
    write_cuts cfg answers path' ce' data o (s := ⟨m', 0⟩) rfl
  refine ⟨_, tiles_cuts fits, ?_, ?_, ?_, ?_⟩
  · rw [readCuts_eq fits reads, ← readSame, List.map_map, List.map_map]
    rfl
  · rw [writeCuts_eq fits writes, ← writeSame, List.map_map]
    rfl
  · have ends := readLoop_alike cfg env path fits reads
    rw [readEnds] at ends
    obtain ⟨s, eq, alike⟩ := ends.ok
    exact ⟨s, eq, by rw [alike.done, readDone, UInt64.toInt64_ofNat']⟩
  · have ends := writeLoop_alike cfg answers path' ce' fits writes
    rw [writeEnds] at ends
    obtain ⟨s, eq, alike⟩ := ends.ok
    exact ⟨s, eq, by rw [alike.done, writeDone]⟩

/-- The entry of `/f` before its first read. -/
def freshEntry : CacheEntry := { path := ['/', 'f'], hashHex := Config.sample.hashHex ['/', 'f'] }

/-- The last byte of a block and the first byte of the next one. -/
theorem cuts_exact_across :
    ∃ pieced : List Cut, Tiles (65535 : Int64).toInt.toNat (2 : UInt64).toNat pieced ∧
      readCuts .sample (.serving threeBlocks) ['/', 'f'] 2 65535
        ⟨new fun _ => none, freshEntry, 0, .empty⟩ = pieced.map some ∧
      writeCuts .sample succeed ['/', 'f'] freshEntry (.ofFn 2 fun _ => 9) 65535
        ⟨new fun _ => none, 0⟩ = pieced ∧
      (∃ s, readLoopWords .sample (.serving threeBlocks) ['/', 'f'] 2 65535
        ⟨new fun _ => none, freshEntry, 0, .empty⟩ = .ok s ∧ s.done = (2 : UInt64).toInt64) ∧
      ∃ s, writeLoopWords .sample succeed ['/', 'f'] freshEntry (.ofFn 2 fun _ => 9) 65535
        ⟨new fun _ => none, 0⟩ = .ok s ∧ s.done = 2 := by
  apply cuts_exact .sample (.serving threeBlocks) succeed _ _ _ _ _ _ _ 65535 2 (by decide)
    (by decide) rfl
  intro blk inside
  obtain ⟨_, _, last⟩ := mem_blocksOf.mp inside
  have within : blk * kBlockSize < (threeBlocks ['/', 'f']).size := by
    have final : ((65535 : Int64).toInt.toNat + (2 : UInt64).toNat - 1) / kBlockSize = 1 := by
      decide
    have size : (threeBlocks ['/', 'f']).size = 3 * kBlockSize := rfl
    rw [final] at last
    unfold kBlockSize at *
    omega
  have serves : (Backend.serving threeBlocks).Serves threeBlocks := fun _ _ _ => rfl
  right
  exact (congrArg Option.isSome (serves.fetch .sample _ within)).trans rfl

end CacheManager

end RemoteCache
