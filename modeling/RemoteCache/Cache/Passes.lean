import RemoteCache.Cache.Manager

/-!
# What one pass does

Each part of a pass is described by the block table of the store: probing a
block finds it whole or not, storing puts it, finishing leaves the files alone.
`read_rule` and `write_rule` turn what every pass preserves into what a whole
call achieves.
-/
namespace RemoteCache

open FsLayout

/-! ### Pieces -/

/-- A piece starts where the previous one ended and stays inside its block. -/
theorem pieceAt_spec (off : ℕ) {len done : ℕ} (more : done < len) {p : Piece}
    (piece : pieceAt off len done = p) :
    p.blk * kBlockSize + p.inBlock = off + done ∧ 0 < p.want ∧
      p.inBlock + p.want ≤ kBlockSize ∧ done + p.want ≤ len := by
  subst piece
  simp only [pieceAt, kBlockSize]
  omega

theorem pieceAt_blk (off len done : ℕ) :
    (pieceAt off len done).blk = (off + done) / kBlockSize := rfl

/-- Unless a piece ends the range, it ends its block. -/
theorem pieceAt_ends (off : ℕ) {len done : ℕ} (more : done < len) {p : Piece}
    (piece : pieceAt off len done = p) :
    p.inBlock + p.want = kBlockSize ∨ done + p.want = len := by
  subst piece
  simp only [pieceAt, kBlockSize]
  omega

/-- The next piece, if there is one, starts a block. -/
theorem pieceAt_aligned (off : ℕ) {len done : ℕ} (more : done < len) {p : Piece}
    (piece : pieceAt off len done = p) :
    (off + (done + p.want)) % kBlockSize = 0 ∨ done + p.want = len := by
  have place := (pieceAt_spec off more piece).1
  rcases pieceAt_ends off more piece with edge | all
  · have block : off + (done + p.want) = (p.blk + 1) * kBlockSize := by
      rw [Nat.succ_mul]
      omega
    exact .inl (by rw [block, Nat.mul_mod_left])
  · exact .inr all

/-- Where the bytes of a piece lie. -/
theorem pieceAt_byte (off : ℕ) {len done : ℕ} (more : done < len) {p : Piece}
    (piece : pieceAt off len done = p) {i : ℕ} (above : done ≤ i) (below : i < done + p.want) :
    (off + i) / kBlockSize = p.blk ∧ (off + i) % kBlockSize = p.inBlock + (i - done) := by
  obtain ⟨place, _, fits, _⟩ := pieceAt_spec off more piece
  unfold kBlockSize at *
  omega

/-- The blocks of a range, in ascending order. -/
def blocksOf (off len : ℕ) : List ℕ :=
  List.range' (off / kBlockSize)
    (if len = 0 then 0 else (off + len - 1) / kBlockSize - off / kBlockSize + 1)

theorem mem_blocksOf {off len c : ℕ} :
    c ∈ blocksOf off len ↔
      0 < len ∧ off / kBlockSize ≤ c ∧ c ≤ (off + len - 1) / kBlockSize := by
  simp only [blocksOf, List.mem_range'_1]
  split <;> unfold kBlockSize <;> omega

theorem blocksOf_piece {off len done : ℕ} (more : done < len) {p : Piece}
    (piece : pieceAt off len done = p) (aligned : done = 0 ∨ (off + done) % kBlockSize = 0) :
    blocksOf off (done + p.want) = blocksOf off done ++ [p.blk] ∧
      ∀ c ∈ blocksOf off done, c < p.blk := by
  obtain ⟨place, forward, fits, _⟩ := pieceAt_spec off more piece
  simp only [blocksOf, if_neg (show done + p.want ≠ 0 by omega)]
  rcases Nat.eq_zero_or_pos done with rfl | started
  -- A later piece starts a block, the one after the last block read.
  · have count : (off + (0 + p.want) - 1) / kBlockSize - off / kBlockSize + 1 = 1 ∧
        off / kBlockSize = p.blk := by
      unfold kBlockSize at *
      omega
    rw [count.1, count.2]
    simp
  · have count : (off + (done + p.want) - 1) / kBlockSize - off / kBlockSize + 1 =
        (off + done - 1) / kBlockSize - off / kBlockSize + 1 + 1 ∧
        off / kBlockSize + ((off + done - 1) / kBlockSize - off / kBlockSize + 1) = p.blk := by
      unfold kBlockSize at *
      omega
    rw [if_neg (by omega), count.1, List.range'_1_concat, count.2]
    refine ⟨rfl, fun c member => ?_⟩
    have := (List.mem_range'_1.mp member).2
    omega

/-! ### Probing, fetching and storing -/

variable (cfg : Config)

theorem probe_eq (fs : Files) (d : Digest) (blk : ℕ) (block : Bytes) :
    probe cfg fs d blk block =
      (block.write (BlockStore.blocks cfg fs d blk) 0,
        decide ((BlockStore.blocks cfg fs).Full kBlockSize d blk)) := by
  rcases BlockStore.read_block cfg fs d blk with found | ⟨absent, empty⟩
  · simp only [probe, found]
    rfl
  -- An absent part fails the read; an empty block written over leaves the buffer.
  · simp only [probe, absent, empty, BlockMap.Full, Blob.size_empty]
    rw [Blob.write_of_empty _ _ _ Blob.size_empty]
    simp [kBlockSize]

theorem received_eq_some {reply : Except ℕ Bytes} {got : Bytes}
    (returned : received reply = some got) : reply = .ok got ∧ 0 < got.size := by
  cases reply with
  | error errno => simp [received] at returned
  | ok b =>
    simp only [received, Option.ite_none_right_eq_some, Option.some.injEq] at returned
    obtain ⟨positive, rfl⟩ := returned
    exact ⟨rfl, positive⟩

theorem received_small {backend : Backend} {path : Str} {len off : ℕ} {got : Bytes}
    (returned : received (backend.readRange path len off) = some got) :
    0 < got.size ∧ got.size ≤ len :=
  ⟨(received_eq_some returned).2, backend.fits _ _ _ _ (received_eq_some returned).1⟩

theorem fetch_small {backend : Backend} {fs : Files} {path : Str} {blk : ℕ} {got : Bytes}
    (returned : fetch cfg backend fs path blk = some got) :
    0 < got.size ∧ got.size ≤ kBlockSize := by
  unfold fetch at returned
  split at returned
  next got' first =>
    cases returned
    exact received_small first
  -- `pread` returns at most as many bytes as it was asked for.
  · obtain ⟨read, positive⟩ := received_eq_some returned
    refine ⟨positive, ?_⟩
    unfold Files.pread at read
    split at read
    · cases read
    · cases read
      simp

/-- An absent file gives as much as an empty one. -/
theorem received_pread (fs : Files) (at_ : Path) (len off : ℕ) :
    received (fs.pread at_ len off) = received (.ok ((fs.content at_).slice off len)) := by
  unfold Files.pread Files.content
  cases fs at_ <;> simp [received]

theorem received_pread_iff (fs : Files) (at_ : Path) {len : ℕ} (some : 0 < len) (off : ℕ) :
    received (fs.pread at_ len off) = none ↔ (fs.content at_).size ≤ off := by
  rw [received_pread]
  simp only [received, Blob.size_slice, ite_eq_right_iff, reduceCtorEq, imp_false]
  omega

variable {cfg} in
/-- A block is missing if the backend has nothing and the copy ends before it. -/
theorem fetch_eq_none_iff {backend : Backend} {fs : Files} {path : Str} {blk : ℕ} :
    fetch cfg backend fs path blk = none ↔
      received (backend.readRange path kBlockSize (blk * kBlockSize)) = none ∧
        (fs.content (cfg.copy path)).size ≤ blk * kBlockSize := by
  rw [← received_pread_iff _ _ (show 0 < kBlockSize by decide)]
  unfold fetch
  split
  next served => simp [served]
  next silent => simp [silent]

/-- A fetch sees no file but the write-through copy. -/
theorem fetch_congr (backend : Backend) {fs fs' : Files} {path : Str}
    (copy : fs (cfg.copy path) = fs' (cfg.copy path)) (blk : ℕ) :
    fetch cfg backend fs path blk = fetch cfg backend fs' path blk := by
  simp only [fetch, Files.pread, copy]

/-- What was written below a position does not show in a `pread` from there. -/
theorem received_pread_below (fs : Files) (at_ other : Path) (data : Bytes) {off start : ℕ}
    (len : ℕ) (below : off + data.size ≤ start) :
    received ((fs.pwrite at_ data off .done).1.pread other len start) =
      received (fs.pread other len start) := by
  by_cases same : other = at_
  · subst same
    simp only [received_pread, Files.pwrite, Files.content_set_same]
    rw [Blob.slice_write_below _ _ below]
  · simp only [Files.pread, Files.pwrite_other fs data off .done same]

/-- The backend returns the bytes of a fixed content for each path, and nothing past its end. -/
def Backend.Serves (backend : Backend) (C : Str → Bytes) : Prop :=
  ∀ path len off,
    received (backend.readRange path len off) = received (.ok ((C path).slice off len))

/-- The call returned the whole range with its content. -/
def Exact (C : Str → Bytes) (path : Str) (len off : ℕ) (r : ReadResult) : Prop :=
  r.count = len ∧ r.buf = (C path).slice off len

theorem Backend.Serves.block {backend : Backend} {C : Str → Bytes} (serves : backend.Serves C)
    {path : Str} {blk : ℕ} (inside : blk * kBlockSize < (C path).size) :
    received (backend.readRange path kBlockSize (blk * kBlockSize)) =
      some ((C path).slice (blk * kBlockSize) kBlockSize) := by
  rw [serves, received, if_pos]
  exact Blob.size_slice_pos _ (by decide) inside

theorem Backend.Serves.past {backend : Backend} {C : Str → Bytes} (serves : backend.Serves C)
    {path : Str} {blk : ℕ} (past : (C path).size ≤ blk * kBlockSize) :
    received (backend.readRange path kBlockSize (blk * kBlockSize)) = none := by
  rw [serves, received, if_neg]
  simp only [Blob.size_slice]
  omega

theorem Backend.Serves.fetch {backend : Backend} {C : Str → Bytes} (serves : backend.Serves C)
    (fs : Files) {path : Str} {blk : ℕ} (inside : blk * kBlockSize < (C path).size) :
    fetch cfg backend fs path blk = some ((C path).slice (blk * kBlockSize) kBlockSize) := by
  simp only [RemoteCache.fetch, serves.block inside]

/-- A block buffer overwritten with a whole block holds that block. -/
theorem write_full {block b : Bytes} (buffer : block.size = kBlockSize)
    (full : b.size = kBlockSize) : block.write b 0 = b :=
  Blob.write_zero_eq _ _ (by omega)

/-- A cleared block buffer overwritten with a block holds it padded with zeros. -/
theorem write_cleared {b : Bytes} (small : b.size ≤ kBlockSize) :
    (Blob.ofFn kBlockSize fun _ => 0).write b 0 = b.pad kBlockSize := by
  refine Blob.eq_of_get (by rw [Blob.size_write_within _ _ _ (by simpa using small)]; rfl)
    fun i _ => ?_
  simp only [Blob.get_write, Blob.get_ofFn, Blob.get_pad, Nat.zero_le, true_and, Nat.zero_add,
    Nat.sub_zero, ite_self]
  split_ifs
  · rfl
  · omega
  · rw [b.beyond i (by omega)]
  · rfl

namespace CacheManager

/-- The store of the manager as a table of blocks. -/
def blocks (m : CacheManager) : BlockMap Digest UInt8 := BlockStore.blocks cfg m.files

theorem blocks_fits (m : CacheManager) : (m.blocks cfg).Fits kBlockSize :=
  BlockStore.blocks_fits cfg m.files

theorem probe_blocks (m : CacheManager) (d : Digest) (blk : ℕ) (block : Bytes) :
    probe cfg m.files d blk block =
      (block.write (m.blocks cfg d blk) 0, decide ((m.blocks cfg).Full kBlockSize d blk)) :=
  probe_eq cfg m.files d blk block

/-- Storing a block changes nothing of what is fetched of higher blocks, even where the copy is
the part that the block goes to. -/
theorem fetch_store_later (m : CacheManager) (backend : Backend) (d : Digest) (path : Str)
    {blk later : ℕ} {data : Bytes} (small : data.size ≤ kBlockSize) (above : blk < later) :
    fetch cfg backend (m.store cfg d blk data).files path later =
      fetch cfg backend m.files path later := by
  have place := Nat.mod_le (blk * kBlockSize) kMaxPartSize
  have next := Nat.mul_le_mul_right kBlockSize (Nat.succ_le_of_lt above)
  rw [Nat.succ_mul] at next
  have copy := received_pread_below m.files
    (cfg.dataPart d (blk * kBlockSize / kMaxPartSize)) (cfg.copy path) data kBlockSize
    (show blk * kBlockSize % kMaxPartSize + data.size ≤ later * kBlockSize by omega)
  simp only [fetch, CacheManager.store, BlockStore.write, copy]

theorem blocks_store (m : CacheManager) (d : Digest) (blk : ℕ) {data : Bytes}
    (some : 0 < data.size) (small : data.size ≤ kBlockSize) :
    (m.store cfg d blk data).blocks cfg =
      (m.blocks cfg).put kBlockSize kPartBlocks d blk data :=
  BlockStore.write_block cfg m.files d blk data some small

/-! ### Entries and the end of a pass -/

theorem entry_files (m : CacheManager) (path : Str) : (m.entry cfg path).1.files = m.files := by
  unfold entry
  split <;> rfl

theorem entry_tasks (m : CacheManager) (path : Str) : (m.entry cfg path).1.tasks = m.tasks := by
  unfold entry
  split <;> rfl

theorem entry_lru (m : CacheManager) (path : Str) : (m.entry cfg path).1.lru = m.lru := by
  unfold entry
  split <;> rfl

theorem entry_bitmap (m : CacheManager) (path : Str) : (m.entry cfg path).1.bitmap = m.bitmap := by
  unfold entry
  split <;> rfl

@[simp] theorem entry_lookup (m : CacheManager) (path : Str) :
    (m.entry cfg path).1.entries.lookup path = some (m.entry cfg path).2 := by
  cases found : m.entries.lookup path <;> simp [entry, found]

theorem entry_lookup_other (m : CacheManager) {path other : Str} (apart : other ≠ path) :
    (m.entry cfg path).1.entries.lookup other = m.entries.lookup other := by
  cases found : m.entries.lookup path <;> simp [entry, found, apart]

/-- The entry of a path is the one in the table, else a fresh one. -/
theorem entry_snd (m : CacheManager) (path : Str) :
    (m.entry cfg path).2 =
      (m.entries.lookup path).getD { path, hashHex := cfg.hashHex path } := by
  cases found : m.entries.lookup path <;> simp [entry, found]

variable (path : Str) (p : Piece) (block : Bytes) (s : ReadState)

@[simp] theorem finish_files : (finish path p block s).mgr.files = s.mgr.files := by
  simp only [finish]
  split <;> rfl

@[simp] theorem finish_bitmap : (finish path p block s).mgr.bitmap = s.mgr.bitmap := by
  simp only [finish]
  split <;> rfl

@[simp] theorem finish_lru : (finish path p block s).mgr.lru =
    s.mgr.lru.touch ⟨.entry path, p.blk⟩ kBlockSize .one := by
  simp only [finish]
  split <;> rfl

@[simp] theorem finish_ce :
    (finish path p block s).ce = { s.ce with lastBlock := some p.blk } := rfl

@[simp] theorem finish_done : (finish path p block s).done = s.done + p.want := rfl

@[simp] theorem finish_buf : (finish path p block s).buf =
    s.buf.write (block.slice p.inBlock p.want) s.done := rfl

@[simp] theorem finish_entries : (finish path p block s).mgr.entries =
    s.mgr.entries.insert path { s.ce with lastBlock := some p.blk } := by
  simp only [finish]
  split <;> rfl

theorem finish_tasks {job : Job} (member : job ∈ (finish path p block s).mgr.tasks) :
    job ∈ s.mgr.tasks ∨
      (job.ce = { s.ce with lastBlock := some p.blk } ∧ job.firstBlk = p.blk + 1) := by
  simp only [finish] at member
  split at member
  · rcases List.mem_append.mp member with old | new
    · exact .inl old
    · cases List.mem_singleton.mp new
      exact .inr ⟨rfl, rfl⟩
  · exact .inl member

@[simp] theorem finish_blocks : (finish path p block s).mgr.blocks cfg = s.mgr.blocks cfg := by
  simp only [blocks, finish_files]

/-! ### Rules for whole calls -/

/-- What a pass of `read` has in its buffer when it does not fail, and the manager then. -/
inductive Ready (env : Env) (path : Str) (p : Piece) (s : ReadState) : Bytes → CacheManager → Prop
  | hit (full : (s.mgr.blocks cfg).Full kBlockSize s.ce.hashHex p.blk) :
      Ready env path p s (s.mgr.blocks cfg s.ce.hashHex p.blk) s.mgr
  | fill (miss : ¬(s.mgr.blocks cfg).Full kBlockSize s.ce.hashHex p.blk) (got : Bytes)
      (fetched : fetch cfg env.backend s.mgr.files path p.blk = some got) :
      Ready env path p s
        (((Blob.ofFn kBlockSize (env.stack p.blk)).write
          (s.mgr.blocks cfg s.ce.hashHex p.blk) 0).write got 0)
        (s.mgr.store cfg s.ce.hashHex p.blk got)

variable {cfg} in
theorem Ready.size {env : Env} {path : Str} {p : Piece} {s : ReadState} {block : Bytes}
    {mgr : CacheManager} (ready : Ready cfg env path p s block mgr) : block.size = kBlockSize := by
  cases ready with
  | hit full => exact full
  | fill miss got fetched =>
    have small := blocks_fits cfg s.mgr s.ce.hashHex p.blk
    have first := Blob.size_write_within (.ofFn kBlockSize (env.stack p.blk))
      (s.mgr.blocks cfg s.ce.hashHex p.blk) 0 (by simpa using small)
    rw [Blob.size_write_within _ _ _ (by
      rw [first]; simpa using (fetch_small cfg fetched).2), first, Blob.size_ofFn]

/-- The bytes a pass adds to the caller's buffer. -/
theorem finish_get {path : Str} {p : Piece} {block : Bytes} {s : ReadState}
    (size : block.size = kBlockSize) (fits : p.inBlock + p.want ≤ kBlockSize) (i : ℕ) :
    (finish path p block s).buf.get i =
      if s.done ≤ i ∧ i < s.done + p.want then block.get (p.inBlock + (i - s.done))
      else s.buf.get i := by
  have length : min p.want (block.size - p.inBlock) = p.want := by omega
  simp only [finish_buf, Blob.get_write, Blob.get_slice, Blob.size_slice, length]
  split
  next inside => rw [if_pos (by omega)]
  · rfl

/-- The caller's buffer is filled up to where the read has got. -/
theorem finish_size (path : Str) {p : Piece} {block : Bytes} {s : ReadState}
    (size : block.size = kBlockSize) (fits : p.inBlock + p.want ≤ kBlockSize)
    (filled : s.buf.size = s.done) :
    (finish path p block s).buf.size = (finish path p block s).done := by
  simp only [finish_buf, finish_done, Blob.size_write, Blob.size_slice, filled]
  split <;> omega

/-- A pass of `read` finishes with a block that is ready, or ends the call because there is none. -/
theorem readPass_cases (env : Env) (path : Str) (len off : ℕ) (s : ReadState) :
    (∃ block mgr, Ready cfg env path (pieceAt off len s.done) s block mgr ∧
      readPass cfg env path len off s =
        .ok (finish path (pieceAt off len s.done) block { s with mgr })) ∨
    (¬(s.mgr.blocks cfg).Full kBlockSize s.ce.hashHex (pieceAt off len s.done).blk ∧
      fetch cfg env.backend s.mgr.files path (pieceAt off len s.done).blk = none ∧
      readPass cfg env path len off s =
        .error (s.mgr, ⟨if s.done = 0 then -1 else s.done, s.buf⟩)) := by
  simp only [readPass, probe_blocks]
  -- A block that is not whole is fetched, whatever part of it the store has.
  by_cases full : (s.mgr.blocks cfg).Full kBlockSize s.ce.hashHex (pieceAt off len s.done).blk
  · refine .inl ⟨_, _, .hit full, ?_⟩
    rw [if_pos (by simpa using full), write_full (Blob.size_ofFn _ _) full]
  · rw [if_neg (by simpa using full)]
    cases fetched : fetch cfg env.backend s.mgr.files path (pieceAt off len s.done).blk with
    | none => exact .inr ⟨full, rfl, rfl⟩
    | some got => exact .inl ⟨_, _, .fill full got fetched, rfl⟩

/-- The loop of `read`. -/
def readLoop (env : Env) (path : Str) (len off : ℕ) (s : ReadState) :
    Except (CacheManager × ReadResult) ReadState :=
  loop (fun s => s.done < len) (readPass cfg env path len off) len s

theorem read_evicted {env : Env} {m : CacheManager} {path : Str} {len off : ℕ}
    (gone : (m.entry cfg path).2.evicted = true) :
    read cfg env m path len off = ((m.entry cfg path).1, ⟨-ENOENT, .empty⟩) := by
  simp only [read, gone, if_pos]

section calls

variable {cfg} {env : Env} {m : CacheManager} {path : Str} {len off : ℕ}

theorem read_left {left : CacheManager × ReadResult} (live : (m.entry cfg path).2.evicted = false)
    (ended : readLoop cfg env path len off ⟨(m.entry cfg path).1, (m.entry cfg path).2, 0, .empty⟩ =
      .error left) : read cfg env m path len off = left := by
  unfold readLoop at ended
  simp only [read, live, Bool.false_eq_true, if_false, ended]

theorem read_done {s : ReadState} (live : (m.entry cfg path).2.evicted = false)
    (ended : readLoop cfg env path len off ⟨(m.entry cfg path).1, (m.entry cfg path).2, 0, .empty⟩ =
      .ok s) : read cfg env m path len off = (s.mgr, ⟨s.done, s.buf⟩) := by
  unfold readLoop at ended
  simp only [read, live, Bool.false_eq_true, if_false, ended]

end calls

/-- What the passes of a read preserve, the call as a whole achieves. -/
theorem read_rule (Inv : ReadState → Prop) (Post : CacheManager → ReadResult → Prop) {env : Env}
    {m : CacheManager} {path : Str} {len off : ℕ}
    (live : (m.entry cfg path).2.evicted = false)
    (start : Inv ⟨(m.entry cfg path).1, (m.entry cfg path).2, 0, .empty⟩)
    (pass : ∀ s p block mgr, Inv s → s.done < len → pieceAt off len s.done = p →
      Ready cfg env path p s block mgr → Inv (finish path p block { s with mgr }))
    (fail : ∀ s p, Inv s → s.done < len → pieceAt off len s.done = p →
      ¬(s.mgr.blocks cfg).Full kBlockSize s.ce.hashHex p.blk →
      fetch cfg env.backend s.mgr.files path p.blk = none →
      Post s.mgr ⟨if s.done = 0 then -1 else s.done, s.buf⟩)
    (stop : ∀ s, Inv s → len ≤ s.done → Post s.mgr ⟨s.done, s.buf⟩) :
    Post (read cfg env m path len off).1 (read cfg env m path len off).2 := by
  -- The bytes still to read are the fuel, and every pass takes at least one.
  have ends : Ends (fun left => Post left.1 left.2) (fun s => Inv s ∧ decide (s.done < len) = false)
      (readLoop cfg env path len off
        ⟨(m.entry cfg path).1, (m.entry cfg path).2, 0, .empty⟩) := by
    apply loop_rule _ _ Inv _ (fun s => len - s.done) _ _ len _ start (by simp)
    · intro s _ more
      have more : s.done < len := by simpa using more
      omega
    · intro s inv more
      have more : s.done < len := by simpa using more
      rcases readPass_cases cfg env path len off s with ⟨block, mgr, ready, eq⟩ | ⟨miss, none, eq⟩
      · have forward := (pieceAt_spec off more rfl).2.1
        rw [eq]
        refine ⟨pass s _ block mgr inv more rfl ready, ?_⟩
        simp only [finish_done]
        omega
      · rw [eq]
        exact fail s _ inv more rfl miss none
  cases ended : readLoop cfg env path len off
      ⟨(m.entry cfg path).1, (m.entry cfg path).2, 0, .empty⟩ with
  | error left =>
    rw [ended] at ends
    rw [read_left live ended]
    exact ends
  | ok s =>
    rw [ended] at ends
    rw [read_done live ended]
    exact stop s ends.1 (by simpa using ends.2)

/-- A read that does not fail fills the buffer with as many bytes as it counts. -/
theorem read_size {env : Env} {m : CacheManager} {path : Str} {len off : ℕ}
    (returned : 0 ≤ (read cfg env m path len off).2.count) :
    ((read cfg env m path len off).2.buf.size : ℤ) = (read cfg env m path len off).2.count := by
  by_cases gone : (m.entry cfg path).2.evicted = true
  · rw [read_evicted cfg gone] at returned
    simp [ENOENT] at returned
  · revert returned
    refine read_rule cfg (fun s => s.buf.size = s.done)
      (fun _ r => 0 ≤ r.count → (r.buf.size : ℤ) = r.count) (by simpa using gone) rfl ?_ ?_ ?_
    · intro s p block mgr filled more piece ready
      exact finish_size path ready.size (pieceAt_spec off more piece).2.2.1 filled
    · intro s p filled _ _ _ _ returned
      simp only at returned ⊢
      split at returned
      · omega
      · rw [if_neg (by assumption), filled]
    · intro s filled _ _
      rw [filled]

/-- The kernel carries out every system call. -/
def succeed : ℕ → Answer × Answer := fun _ => (.done, .done)

/-- The stored block with one piece of new data in it. -/
def merged (m : CacheManager) (d : Digest) (p : Piece) (chunk : Bytes) : Bytes :=
  ((m.blocks cfg d p.blk).pad kBlockSize).write chunk p.inBlock

/-- The manager after a pass of `write`, given the answers to the two writes of the pass. -/
def passed (path : Str) (d : Digest) (p : Piece) (chunk : Bytes) (answer : Answer × Answer)
    (m : CacheManager) : CacheManager :=
  let files :=
    (BlockStore.write cfg m.files d (m.merged cfg d p chunk) (p.blk * kBlockSize) answer.1).1
  { m with
    files := (files.pwrite (cfg.copy path) chunk (p.blk * kBlockSize + p.inBlock) answer.2).1
    bitmap := MetadataStore.markDirtyBlock m.bitmap d (p.blk * kBlockSize / kMaxPartSize) p.blk
    lru := m.lru.touch ⟨.entry path, p.blk⟩ kBlockSize .one }

/-- The manager after a successful pass of `write`. -/
def wrote (path : Str) (d : Digest) (p : Piece) (chunk : Bytes) (m : CacheManager) : CacheManager :=
  let stored := m.store cfg d p.blk (m.merged cfg d p chunk)
  { stored with
    files := stored.files.set (cfg.copy path)
      ((stored.files.content (cfg.copy path)).write chunk (p.blk * kBlockSize + p.inBlock))
    bitmap := MetadataStore.markDirtyBlock m.bitmap d (p.blk * kBlockSize / kMaxPartSize) p.blk
    lru := m.lru.touch ⟨.entry path, p.blk⟩ kBlockSize .one }

theorem writePass_eq (answers : ℕ → Answer × Answer) {path : Str} {ce : CacheEntry} {data : Bytes}
    {off : ℕ} {s : WriteState} (more : s.done < data.size) {p : Piece}
    (piece : pieceAt off data.size s.done = p) :
    writePass cfg answers path ce data off s =
      .ok ⟨s.mgr.passed cfg path ce.hashHex p (data.slice s.done p.want) (answers p.blk),
        s.done + p.want⟩ := by
  have place := (pieceAt_spec off more piece).1
  simp only [writePass, probe_blocks, write_cleared (blocks_fits cfg s.mgr _ _), passed, merged,
    touch, piece, place]

/-- The loop of `write`. -/
def writeLoop (answers : ℕ → Answer × Answer) (path : Str) (ce : CacheEntry) (data : Bytes)
    (off : ℕ) (s : WriteState) : Except Empty WriteState :=
  loop (fun s => s.done < data.size) (writePass cfg answers path ce data off) data.size s

variable {cfg} in
theorem write_done {answers : ℕ → Answer × Answer} {m : CacheManager} {path : Str} {data : Bytes}
    {off : ℕ} {s : WriteState} (live : (m.entry cfg path).2.evicted = false)
    (ended : writeLoop cfg answers path (m.entry cfg path).2 data off ⟨(m.entry cfg path).1, 0⟩ =
      .ok s) : write cfg answers m path data off = (s.mgr, (s.done : ℤ)) := by
  unfold writeLoop at ended
  simp only [write, live, Bool.false_eq_true, if_false, ended]

theorem write_evicted {answers : ℕ → Answer × Answer} {m : CacheManager} {path : Str}
    {data : Bytes} {off : ℕ} (gone : (m.entry cfg path).2.evicted = true) :
    write cfg answers m path data off = ((m.entry cfg path).1, -(ENOENT : ℤ)) := by
  simp only [write, gone, if_pos]

/-- What the passes of a write preserve, whatever the answers, the call as a whole achieves. -/
theorem write_rule_any (Inv : WriteState → Prop) (answers : ℕ → Answer × Answer)
    {m : CacheManager} {path : Str} {data : Bytes} {off : ℕ}
    (live : (m.entry cfg path).2.evicted = false)
    (start : Inv ⟨(m.entry cfg path).1, 0⟩)
    (pass : ∀ s p, Inv s → s.done < data.size → pieceAt off data.size s.done = p →
      Inv ⟨s.mgr.passed cfg path (m.entry cfg path).2.hashHex p (data.slice s.done p.want)
        (answers p.blk), s.done + p.want⟩) :
    Inv ⟨(write cfg answers m path data off).1, data.size⟩ ∧
      (write cfg answers m path data off).2 = data.size := by
  -- The pass cannot fail, so the loop ends only when all is written.
  have ends : Ends (fun _ => False)
      (fun s => (Inv s ∧ s.done ≤ data.size) ∧ decide (s.done < data.size) = false)
      (writeLoop cfg answers path (m.entry cfg path).2 data off ⟨(m.entry cfg path).1, 0⟩) := by
    apply loop_rule _ _ (fun s => Inv s ∧ s.done ≤ data.size) _ (fun s => data.size - s.done) _ _
      data.size _ ⟨start, Nat.zero_le _⟩ (by simp)
    · intro s _ more
      have more : s.done < data.size := by simpa using more
      omega
    · intro s inv more
      have more : s.done < data.size := by simpa using more
      obtain ⟨_, forward, _, inside⟩ := pieceAt_spec off more rfl
      rw [writePass_eq cfg answers more rfl]
      refine ⟨⟨pass s _ inv.1 more rfl, inside⟩, ?_⟩
      simp only
      omega
  cases ended : writeLoop cfg answers path (m.entry cfg path).2 data off
      ⟨(m.entry cfg path).1, 0⟩ with
  | error left => exact left.elim
  | ok s =>
    rw [ended] at ends
    rw [write_done live ended]
    obtain ⟨⟨inv, within⟩, left⟩ := ends
    have all : s.done = data.size := by simp at left; omega
    exact ⟨all ▸ inv, by simp only [all]⟩

/-- What the passes of a successful write preserve, the call as a whole achieves. -/
theorem write_rule (Inv : WriteState → Prop) {m : CacheManager} {path : Str} {data : Bytes}
    {off : ℕ} (live : (m.entry cfg path).2.evicted = false)
    (start : Inv ⟨(m.entry cfg path).1, 0⟩)
    (pass : ∀ s p, Inv s → s.done < data.size → pieceAt off data.size s.done = p →
      Inv ⟨s.mgr.wrote cfg path (m.entry cfg path).2.hashHex p (data.slice s.done p.want),
        s.done + p.want⟩) :
    Inv ⟨(write cfg succeed m path data off).1, data.size⟩ ∧
      (write cfg succeed m path data off).2 = data.size :=
  write_rule_any cfg Inv succeed live start pass

end CacheManager

end RemoteCache
