import RemoteCache.Cache.Contents
import RemoteCache.Cache.System

/-!
# Reads at the end of a file

## Main result

`read_stops_iff`: a read of an object of which nothing is stored stops at the end
of the content exactly if the range has no byte past the end that lies in a block
which starts before it.

## Proof strategy

A pass takes the whole piece as read, however many bytes were fetched, and the
call ends at the first block that neither the backend nor the copy reaches.
Blocks come in ascending order, so none is found in the store.
-/
namespace RemoteCache

/-- The backend serves the content of the path, or has nothing and the write-through copy holds
it. -/
def Supplies (cfg : Config) (backend : Backend) (files : Files) (path : Str) (C : Bytes) : Prop :=
  (∀ len off, received (backend.readRange path len off) = received (.ok (C.slice off len))) ∨
    ((∀ len off, received (backend.readRange path len off) = none) ∧
      files (cfg.copy path) = some C)

/-- Where both the content and the copy are at their end. -/
def reach (cfg : Config) (files : Files) (path : Str) (C : Bytes) : ℕ :=
  max C.size (files.content (cfg.copy path)).size

/-- A read returns the bytes up to the end of the content, and none from there on. -/
structure StopsAtEnd (C : Bytes) (len off : ℕ) (r : ReadResult) : Prop where
  inside : off < C.size → r.count = min len (C.size - off) ∧ r.buf = C.slice off len
  past : C.size ≤ off → r.count ≤ 0

/-! ### What is fetched -/

/-- The copy is as it was at the start; if it is one of the object's own data parts, it holds no
more than the content. -/
def CopyKept (cfg : Config) (files fs : Files) (path : Str) (C : Bytes) : Prop :=
  fs (cfg.copy path) = files (cfg.copy path) ∨
    (files (cfg.copy path) = none ∧ (fs.content (cfg.copy path)).size ≤ C.size)

variable {cfg : Config} {backend : Backend} {files fs : Files} {path : Str} {C : Bytes}

theorem Supplies.fetch_eq (supplies : Supplies cfg backend files path C)
    (kept : CopyKept cfg files fs path C) {blk : ℕ} (inside : blk * kBlockSize < C.size) :
    fetch cfg backend fs path blk = some (C.slice (blk * kBlockSize) kBlockSize) := by
  have bytes : 0 < (C.slice (blk * kBlockSize) kBlockSize).size :=
    C.size_slice_pos (by decide) inside
  unfold fetch
  rcases supplies with serves | ⟨nothing, copy⟩
  · rw [serves, received, if_pos bytes]
  · have same : fs (cfg.copy path) = some C := by
      rcases kept with same | ⟨absent, _⟩
      · rw [same, copy]
      · rw [absent] at copy
        cases copy
    rw [nothing]
    simp only [Files.pread, same, received, if_pos bytes]

theorem Supplies.fetch_none_iff (supplies : Supplies cfg backend files path C)
    (kept : CopyKept cfg files fs path C) (blk : ℕ) :
    fetch cfg backend fs path blk = none ↔ reach cfg files path C ≤ blk * kBlockSize := by
  unfold reach
  by_cases inside : blk * kBlockSize < C.size
  · rw [supplies.fetch_eq kept inside]
    simp only [reduceCtorEq, false_iff]
    omega
  · have silent : received (backend.readRange path kBlockSize (blk * kBlockSize)) = none := by
      rcases supplies with serves | ⟨nothing, _⟩
      · rw [serves, received, if_neg]
        simp only [Blob.size_slice]
        omega
      · exact nothing _ _
    rw [fetch_eq_none_iff, and_iff_right silent]
    rcases kept with same | ⟨absent, small⟩
    · simp only [Files.content, same]
      omega
    · have none : (files.content (cfg.copy path)).size = 0 := by
        rw [Files.content, absent]
        rfl
      omega

namespace CacheManager

variable {m : CacheManager} {env : Env} {len off : ℕ}

/-- What a read has done when it has reached `done`. -/
private structure Scanning (cfg : Config) (m : CacheManager) (path : Str) (C : Bytes)
    (len off : ℕ) (s : ReadState) : Prop where
  keyed : s.ce.hashHex = cfg.hashHex path
  kept : CopyKept cfg m.files s.mgr.files path C
  ahead : ∀ blk, (∀ i < s.done, (off + i) / kBlockSize < blk) →
    s.mgr.blocks cfg (cfg.hashHex path) blk = .empty
  within : s.done ≤ len
  aligned : s.done = 0 ∨ (off + s.done) % kBlockSize = 0 ∨ s.done = len
  size : s.buf.size = s.done
  reached : ∀ i < s.done, (off + i) / kBlockSize * kBlockSize < reach cfg m.files path C
  bytes : ∀ i < s.done, off + i < C.size → s.buf.get i = C.get (off + i)

/-- The block of a piece lies behind all bytes read before. -/
private theorem Scanning.piece_ahead {s : ReadState} (scanning : Scanning cfg m path C len off s)
    (more : s.done < len) {p : Piece} (piece : pieceAt off len s.done = p) :
    ∀ i < s.done, (off + i) / kBlockSize < p.blk := by
  intro i early
  obtain ⟨place, _, fits, _⟩ := pieceAt_spec off more piece
  have aligned := scanning.aligned
  unfold kBlockSize at *
  omega

/-- Storing a block keeps the copy, unless it is the part that the block goes to. -/
private theorem copyKept_store {mgr : CacheManager} {d : Digest} {blk : ℕ} {got : Bytes}
    (kept : CopyKept cfg m.files mgr.files path C)
    (empty : ∀ k, m.files (cfg.dataPart d k) = none)
    (inside : m.files (cfg.copy path) = none → blk * kBlockSize + got.size ≤ C.size) :
    CopyKept cfg m.files (mgr.store cfg d blk got).files path C := by
  by_cases own : cfg.copy path = cfg.dataPart d (blk * kBlockSize / FsLayout.kMaxPartSize)
  · have absent : m.files (cfg.copy path) = none := by rw [own, empty]
    have before : (mgr.files.content (cfg.copy path)).size ≤ C.size := by
      rcases kept with same | ⟨_, small⟩
      · rw [Files.content, same, absent]
        exact Nat.zero_le _
      · exact small
    have fits := inside absent
    have place := Nat.mod_le (blk * kBlockSize) FsLayout.kMaxPartSize
    right
    refine ⟨absent, ?_⟩
    simp only [CacheManager.store, BlockStore.write, Files.content_pwrite, if_pos own,
      Answer.count, Blob.slice_self, Blob.size_write]
    rw [← own]
    split
    · exact before
    · exact Nat.max_le.mpr ⟨before, by omega⟩
  · have other : (mgr.store cfg d blk got).files (cfg.copy path) = mgr.files (cfg.copy path) :=
      Files.pwrite_other mgr.files got (blk * kBlockSize % FsLayout.kMaxPartSize) .done own
    rcases kept with same | ⟨absent, small⟩
    · exact .inl (other.trans same)
    · exact .inr ⟨absent, by rwa [Files.content, other]⟩

private theorem Scanning.pass {s : ReadState} {block : Bytes} {mgr : CacheManager}
    (supplies : Supplies cfg env.backend m.files path C)
    (empty : ∀ k, m.files (cfg.dataPart (cfg.hashHex path) k) = none)
    (scanning : Scanning cfg m path C len off s) (more : s.done < len) {p : Piece}
    (piece : pieceAt off len s.done = p) (ready : Ready cfg env path p s block mgr) :
    Scanning cfg m path C len off (finish path p block { s with mgr }) := by
  obtain ⟨place, forward, fits, within⟩ := pieceAt_spec off more piece
  have size := ready.size
  cases ready with
  | hit full =>
    -- The block is behind all others, so the store has nothing of it.
    rw [scanning.keyed, BlockMap.Full,
      scanning.ahead p.blk (scanning.piece_ahead more piece)] at full
    exact absurd full (by decide)
  | fill miss got fetched =>
    have small := fetch_small cfg fetched
    have start : p.blk * kBlockSize < reach cfg m.files path C := by
      by_contra past
      rw [(supplies.fetch_none_iff scanning.kept p.blk).mpr (Nat.not_lt.mp past)] at fetched
      cases fetched
    refine ⟨scanning.keyed, ?_, ?_, within, .inr (pieceAt_aligned off more piece), ?_, ?_, ?_⟩
    · rw [finish_files, scanning.keyed]
      apply copyKept_store scanning.kept empty
      intro absent
      rw [reach, Files.content, absent] at start
      have inside : p.blk * kBlockSize < C.size := by simpa using start
      rw [supplies.fetch_eq scanning.kept inside] at fetched
      cases fetched
      rw [Blob.size_slice]
      calc p.blk * kBlockSize + min kBlockSize (C.size - p.blk * kBlockSize)
          ≤ p.blk * kBlockSize + (C.size - p.blk * kBlockSize) :=
            Nat.add_le_add_left (Nat.min_le_right _ _) _
        _ = C.size := Nat.add_sub_cancel' inside.le
    · intro blk later
      have last := later s.done (by simp only [finish_done]; omega)
      rw [(pieceAt_byte off more piece le_rfl (by omega)).1] at last
      rw [finish_blocks, scanning.keyed, blocks_store cfg _ _ _ small.1 small.2,
        BlockMap.put_later last]
      exact scanning.ahead blk fun i early => later i (by simp only [finish_done]; omega)
    · exact finish_size path size fits scanning.size
    · intro i early
      simp only [finish_done] at early
      by_cases old : i < s.done
      · exact scanning.reached i old
      · rw [(pieceAt_byte off more piece (Nat.not_lt.mp old) early).1]
        exact start
    · intro i early inside
      simp only [finish_done] at early
      simp only [finish_get size fits]
      split
      next here =>
        have same : p.blk * kBlockSize + (p.inBlock + (i - s.done)) = off + i := by omega
        rw [supplies.fetch_eq scanning.kept (by omega)] at fetched
        cases fetched
        rw [Blob.get_write_zero _ _ (Blob.lt_size_slice _ (by omega) (by omega)), Blob.get_slice,
          if_pos (by omega), same]
      next old => exact scanning.bytes i (by omega) inside

/-- A read that got as far as `done`, with which bytes, and why not further. -/
structure Reached (cfg : Config) (m : CacheManager) (path : Str) (C : Bytes) (len off : ℕ)
    (r : ReadResult) (done : ℕ) : Prop where
  within : done ≤ len
  count : r.count = if done < len ∧ done = 0 then -1 else (done : ℤ)
  size : r.buf.size = done
  started : ∀ i < done, (off + i) / kBlockSize * kBlockSize < reach cfg m.files path C
  bytes : ∀ i < done, off + i < C.size → r.buf.get i = C.get (off + i)
  ends : done < len → reach cfg m.files path C ≤ (off + done) / kBlockSize * kBlockSize

theorem read_reaches (supplies : Supplies cfg env.backend m.files path C)
    (live : Live cfg path (m.entry cfg path).2)
    (empty : ∀ k, m.files (cfg.dataPart (cfg.hashHex path) k) = none) (len off : ℕ) :
    ∃ done, Reached cfg m path C len off (m.read cfg env path len off).2 done := by
  apply read_rule cfg (Scanning cfg m path C len off)
    (fun _ r => ∃ done, Reached cfg m path C len off r done) live.2.2
  · refine ⟨live.2.1, .inl (by rw [entry_files]), ?_, Nat.zero_le _, .inl rfl, rfl, ?_, ?_⟩
    · intro blk _
      rw [blocks, entry_files]
      apply Blob.eq_empty_of_size
      simp [BlockStore.blocks, BlockMap.ofSegments, Files.content, empty]
    · intro i early
      exact absurd early (Nat.not_lt_zero i)
    · intro i early
      exact absurd early (Nat.not_lt_zero i)
  · intro s p block mgr scanning more piece ready
    exact scanning.pass supplies empty more piece ready
  · intro s p scanning more piece _ none
    have ends := (supplies.fetch_none_iff scanning.kept p.blk).mp none
    refine ⟨s.done, scanning.within, ?_, scanning.size, scanning.reached, scanning.bytes, ?_⟩
    · simp only [more, true_and]
    · intro _
      rwa [← pieceAt_blk off len, piece]
  · intro s scanning all
    refine ⟨s.done, scanning.within, ?_, scanning.size, scanning.reached, scanning.bytes, ?_⟩
    · rw [if_neg (by omega)]
    · intro left
      omega

/-- A byte of the range past the end of the content, in a block that starts before the end of the
content or of the copy. -/
def Strays (cfg : Config) (files : Files) (path : Str) (C : Bytes) (len off : ℕ) : Prop :=
  ∃ x, off ≤ x ∧ x < off + len ∧ C.size ≤ x ∧
    x / kBlockSize * kBlockSize < reach cfg files path C

theorem Reached.not_strays {r : ReadResult} {done : ℕ}
    (reached : Reached cfg m path C len off r done) (stops : StopsAtEnd C len off r) :
    ¬Strays cfg m.files path C len off := by
  rintro ⟨x, above, below, past, block⟩
  have count := reached.count
  -- The pass that takes the byte is not the last that fails, so the byte is counted.
  have taken : x - off < done := by
    by_contra short
    have edge := reached.ends (by omega)
    have order : (off + done) / kBlockSize ≤ x / kBlockSize := Nat.div_le_div_right (by omega)
    have place := Nat.mul_le_mul_right kBlockSize order
    omega
  rw [if_neg (by omega)] at count
  by_cases inside : off < C.size
  · have exact := (stops.inside inside).1
    omega
  · have none := stops.past (Nat.not_lt.mp inside)
    omega

theorem Reached.stops {r : ReadResult} {done : ℕ} (reached : Reached cfg m path C len off r done)
    (none : ¬Strays cfg m.files path C len off) : StopsAtEnd C len off r := by
  have within := reached.within
  have early : ∀ i < done, off + i < C.size := by
    intro i small
    by_contra past
    exact none ⟨off + i, by omega, by omega, by omega, reached.started i small⟩
  have last : 0 < done → off + done ≤ C.size := by
    intro some
    have inside := early (done - 1) (by omega)
    omega
  have edge : done < len → C.size ≤ off + done := by
    intro short
    have covers : C.size ≤ reach cfg m.files path C := Nat.le_max_left _ _
    have start := Nat.div_mul_le_self (off + done) kBlockSize
    exact covers.trans ((reached.ends short).trans start)
  constructor
  · intro inside
    have all : done = min len (C.size - off) := by
      rcases Nat.eq_zero_or_pos done with first | some
      · omega
      · have bound := last some
        omega
    constructor
    · rw [reached.count, if_neg (by omega)]
      omega
    · apply Blob.eq_of_get
      · rw [reached.size, Blob.size_slice, all]
      · intro i small
        rw [reached.size] at small
        rw [reached.bytes i small (early i small), Blob.get_slice, if_pos (by omega)]
  · intro past
    have nothing : done = 0 := by
      by_contra some
      have bound := last (by omega)
      omega
    rw [reached.count]
    split <;> omega

/-- Where nothing of the object is stored, a read stops at the end of the content if and only if
no byte of the range strays. -/
theorem read_stops_iff (cfg : Config) (env : Env) (m : CacheManager) (path : Str) (C : Bytes)
    (supplies : Supplies cfg env.backend m.files path C)
    (live : Live cfg path (m.entry cfg path).2)
    (empty : ∀ k, m.files (cfg.dataPart (cfg.hashHex path) k) = none) (len off : ℕ) :
    StopsAtEnd C len off (m.read cfg env path len off).2 ↔ ¬Strays cfg m.files path C len off := by
  obtain ⟨done, reached⟩ := read_reaches supplies live empty len off
  exact ⟨reached.not_strays, reached.stops⟩

/-- The content of a file of 18 bytes. -/
def eighteen : Bytes := .ofFn 18 fun _ => 7

/-- The whole file and no more is asked for. -/
theorem read_stops_whole :
    StopsAtEnd eighteen 18 0 ((new fun _ => none).read .sample (.serving fun _ => eighteen)
        ['/', 'f'] 18 0).2 ↔
      ¬Strays .sample (fun _ => none) ['/', 'f'] eighteen 18 0 :=
  read_stops_iff .sample (.serving fun _ => eighteen) (new fun _ => none) ['/', 'f'] eighteen
    (.inl fun _ _ => rfl) ⟨rfl, rfl, rfl⟩ (fun _ => rfl) 18 0

private theorem short_file_count :
    ((new fun _ => none).read .sample (.serving fun _ => eighteen) ['/', 'f'] 63 0).2.count =
      63 := by
  decide +kernel

/-- Of a file of 18 bytes a read returns 63. -/
theorem short_file_overread :
    ¬StopsAtEnd eighteen 63 0 ((new fun _ => none).read .sample (.serving fun _ => eighteen)
      ['/', 'f'] 63 0).2 := by
  intro stops
  have exact := (stops.inside (by decide)).1
  rw [short_file_count] at exact
  exact absurd exact (by decide)

end CacheManager

end RemoteCache
