import RemoteCache.Cache.Shown
import RemoteCache.Cache.WriteFrame
import RemoteCache.Cache.WriteThrough

/-!
# Isolation of paths

## Main results

`write_isolated_iff`: a write to one path shows in no read of another that takes
supplied bytes only, if and only if neither path's copy is a data part of the
other.

`objects_apart_iff`: calls on two paths, in any run, are independent of one
another if and only if the hashes of the paths differ.

Both compare two runs whose block buffers may hold different bytes, since a
write leaves its own block where a later read finds its buffer.

## Proof strategy

A call on a path looks at the entry of the path, at the data parts of its hash
and at its copy, and changes no more than these. Two managers that agree on
them run the call in lockstep. A file that two paths have in common carries a
whole block from a write to one of them to a read of the other.
-/
namespace RemoteCache

open FsLayout

/-- The files that calls on the path read and write. -/
def Config.Footprint (cfg : Config) (path : Str) (at_ : Path) : Prop :=
  CacheManager.PartOf cfg (cfg.hashHex path) at_ ∨ at_ = cfg.copy path

/-- Neither path's copy is the other's copy or a data part of the other. -/
structure Config.CopiesApart (cfg : Config) (p q : Str) : Prop where
  copies : cfg.copy p ≠ cfg.copy q
  left : ∀ k, cfg.copy p ≠ cfg.dataPart (cfg.hashHex q) k
  right : ∀ k, cfg.copy q ≠ cfg.dataPart (cfg.hashHex p) k

/-- All files of the two paths can exist: none of them lies below another one. -/
structure Config.FilesApart (cfg : Config) (p q : Str) : Prop extends cfg.CopiesApart p q where
  unnested : ∀ at_ at_', cfg.Footprint p at_ ∨ cfg.Footprint q at_ →
    cfg.Footprint p at_' ∨ cfg.Footprint q at_' → at_ <+: at_' → at_ = at_'

/-- A normal path or the top of the tree. -/
def Normalised (p : Str) : Prop := p = ['/'] ∨ NormalPath p

theorem Config.copies_apart (cfg : Config) {p q : Str} (first : Normalised p)
    (second : Normalised q) (other : p ≠ q) : cfg.copy p ≠ cfg.copy q := by
  -- The copy of a normal path lies properly below that of the top.
  have below : ∀ {p : Str}, NormalPath p → cfg.copy ['/'] ≠ cfg.copy p := by
    rintro _ ⟨names, some, plain, rfl⟩ same
    rw [cfg.copy_normal names some plain] at same
    exact some (List.self_eq_append_right.mp same)
  intro same
  rcases first with rfl | first
  · rcases second with rfl | second
    · exact other rfl
    · exact below second same
  · rcases second with rfl | second
    · exact below first same.symm
    · exact other (cfg.copy_injective first second same)

/-- A backend that has nothing, and a block buffer that happens to be clear. -/
def Env.failing : Env where
  backend := ⟨fun _ _ _ => .error ENOENT, fun _ _ _ _ absurd => by cases absurd⟩
  stack _ _ := 0

/-- The path that a client reads or writes. -/
def Event.client : Event → Option Str
  | .read _ path _ _ => some path
  | .write path _ _ => some path
  | .prefetch _ _ => none
  | .evict _ _ => none

/-- The call without what its block buffer holds. -/
def Event.bare : Event → Event
  | .read env path len off => .read ⟨env.backend, fun _ _ => 0⟩ path len off
  | .write path data off => .write path data off
  | .prefetch backend i => .prefetch backend i
  | .evict used freeGb => .evict used freeGb

theorem Event.bare_read {e : Event} {env : Env} {path : Str} {len off : ℕ}
    (same : e.bare = (Event.read env path len off).bare) :
    ∃ stack, e = .read ⟨env.backend, stack⟩ path len off := by
  cases e with
  | read env' path' len' off' =>
    simp only [Event.bare, Event.read.injEq, Env.mk.injEq, and_true] at same
    obtain ⟨backend, rfl, rfl, rfl⟩ := same
    exact ⟨env'.stack, by rw [← backend]⟩
  | write => cases same
  | prefetch => cases same
  | evict => cases same

theorem Event.bare_write {e : Event} {path : Str} {data : Bytes} {off : ℕ}
    (same : e.bare = (Event.write path data off).bare) : e = .write path data off := by
  cases e with
  | write => exact same
  | read => cases same
  | prefetch => cases same
  | evict => cases same

theorem Config.footprints_apart {cfg : Config} {p q : Str} (apart : cfg.CopiesApart p q)
    (hash : cfg.hash p ≠ cfg.hash q) (at_ : Path) (own : cfg.Footprint q at_) :
    ¬cfg.Footprint p at_ := by
  rintro (⟨k, rfl⟩ | rfl)
  · rcases own with ⟨k', same⟩ | same
    · exact hash (Digest.ofHash_injective (cfg.dataPart_inj same).1)
    · exact apart.right k same.symm
  · rcases own with ⟨k', same⟩ | same
    · exact apart.left k' same
    · exact apart.copies same

/-- A write sees only its own file. -/
theorem Files.pwrite_congr {fs fs' : Files} {at_ other : Path} (data : Bytes) (off : ℕ)
    (a : Answer) (here : fs at_ = fs' at_) (there : fs other = fs' other) :
    (fs.pwrite at_ data off a).1 other = (fs'.pwrite at_ data off a).1 other := by
  by_cases same : other = at_
  · subst same
    cases a <;> simp [pwrite, content, here]
  · rw [pwrite_other fs data off a same, pwrite_other fs' data off a same, there]

namespace CacheManager

variable {cfg : Config} {m m' m'' : CacheManager} {p q : Str}

/-- Two managers that calls on the path cannot tell apart. -/
structure SameFor (cfg : Config) (q : Str) (m m' : CacheManager) : Prop where
  entry : m.entries.lookup q = m'.entries.lookup q
  files : ∀ at_, cfg.Footprint q at_ → m.files at_ = m'.files at_

theorem SameFor.refl (m : CacheManager) : SameFor cfg q m m := ⟨rfl, fun _ _ => rfl⟩

theorem SameFor.symm (same : SameFor cfg q m m') : SameFor cfg q m' m :=
  ⟨same.entry.symm, fun at_ own => (same.files at_ own).symm⟩

theorem SameFor.trans (first : SameFor cfg q m m') (second : SameFor cfg q m' m'') :
    SameFor cfg q m m'' :=
  ⟨first.entry.trans second.entry, fun at_ own =>
    (first.files at_ own).trans (second.files at_ own)⟩

theorem SameFor.entry_snd (same : SameFor cfg q m m') :
    (m.entry cfg q).2 = (m'.entry cfg q).2 := by
  rw [CacheManager.entry_snd, CacheManager.entry_snd, same.entry]

theorem SameFor.entered (same : SameFor cfg q m m') :
    SameFor cfg q (m.entry cfg q).1 (m'.entry cfg q).1 := by
  constructor
  · rw [entry_lookup, entry_lookup, same.entry_snd]
  · intro at_ own
    rw [entry_files, entry_files, same.files at_ own]

/-! ### Calls on the path run in lockstep -/

theorem SameFor.part (same : SameFor cfg q m m') (k : ℕ) :
    m.files (cfg.dataPart (cfg.hashHex q) k) = m'.files (cfg.dataPart (cfg.hashHex q) k) :=
  same.files _ (.inl ⟨k, rfl⟩)

theorem SameFor.blocks (same : SameFor cfg q m m') :
    m.blocks cfg (cfg.hashHex q) = m'.blocks cfg (cfg.hashHex q) := by
  funext blk
  simp only [CacheManager.blocks, BlockStore.blocks, BlockMap.ofSegments, Files.content, same.part]

theorem SameFor.fetch (same : SameFor cfg q m m') (backend : Backend) (blk : ℕ) :
    fetch cfg backend m.files q blk = fetch cfg backend m'.files q blk :=
  fetch_congr cfg backend (same.files _ (.inr rfl)) blk

theorem SameFor.store (same : SameFor cfg q m m') (blk : ℕ) (data : Bytes) :
    SameFor cfg q (m.store cfg (cfg.hashHex q) blk data) (m'.store cfg (cfg.hashHex q) blk data) :=
  ⟨same.entry, fun at_ own => Files.pwrite_congr data (blk * kBlockSize % kMaxPartSize) .done
    (same.part (blk * kBlockSize / kMaxPartSize)) (same.files at_ own)⟩

/-- Two reads of the path that have got equally far; their block buffers need not agree. -/
structure Lockstep (cfg : Config) (q : Str) (s t : ReadState) : Prop where
  same : SameFor cfg q s.mgr t.mgr
  ce : s.ce = t.ce
  keyed : s.ce.hashHex = cfg.hashHex q
  done : s.done = t.done

theorem Lockstep.finish {s t : ReadState} (lock : Lockstep cfg q s t) (p : Piece)
    (block block' : Bytes) : Lockstep cfg q (finish q p block s) (finish q p block' t) := by
  obtain ⟨same, ce, keyed, done⟩ := lock
  constructor
  · constructor
    · rw [finish_entries, finish_entries, AList.lookup_insert, AList.lookup_insert, ce]
    · intro at_ own
      rw [finish_files, finish_files, same.files at_ own]
  · rw [finish_ce, finish_ce, ce]
  · exact keyed
  · rw [finish_done, finish_done, done]

theorem Lockstep.pass {s t : ReadState} (lock : Lockstep cfg q s t) (backend : Backend)
    (stack stack' : ℕ → ℕ → UInt8) (len off : ℕ) :
    Matches (fun left left' => SameFor cfg q left.1 left'.1) (Lockstep cfg q)
      (readPass cfg ⟨backend, stack⟩ q len off s) (readPass cfg ⟨backend, stack'⟩ q len off t) := by
  obtain ⟨same, ce, keyed, done⟩ := id lock
  simp only [readPass, probe_blocks, BlockMap.Full, ← done, ← ce, keyed, same.blocks, same.fetch]
  by_cases full : (t.mgr.blocks cfg (cfg.hashHex q) (pieceAt off len s.done).blk).size =
      kBlockSize
  · simp only [full, decide_true, if_true]
    exact lock.finish _ _ _
  · simp only [full, decide_false, Bool.false_eq_true, if_false]
    cases RemoteCache.fetch cfg backend t.mgr.files q (pieceAt off len s.done).blk with
    | none => exact same
    | some got =>
      have filled := same.store (pieceAt off len s.done).blk got
      apply Lockstep.finish
      exact ⟨filled, rfl, keyed, rfl⟩

/-- Reads of the path change the same, whatever their block buffers hold. -/
theorem SameFor.read (same : SameFor cfg q m m') (keyed : (m.entry cfg q).2.hashHex = cfg.hashHex q)
    (backend : Backend) (stack stack' : ℕ → ℕ → UInt8) (len off : ℕ) :
    SameFor cfg q (m.read cfg ⟨backend, stack⟩ q len off).1
      (m'.read cfg ⟨backend, stack'⟩ q len off).1 := by
  by_cases gone : (m.entry cfg q).2.evicted = true
  · rw [read_evicted cfg gone, read_evicted cfg (same.entry_snd ▸ gone)]
    exact same.entered
  · have ends := loop_matches (fun s : ReadState => decide (s.done < len))
      (readPass cfg ⟨backend, stack⟩ q len off) (fun s : ReadState => decide (s.done < len))
      (readPass cfg ⟨backend, stack'⟩ q len off) (Lockstep cfg q)
      (fun left left' => SameFor cfg q left.1 left'.1)
      (fun s t lock => by rw [lock.done])
      (fun s t lock _ => lock.pass backend stack stack' len off) len
      ⟨(m.entry cfg q).1, (m.entry cfg q).2, 0, .empty⟩
      ⟨(m'.entry cfg q).1, (m'.entry cfg q).2, 0, .empty⟩
      ⟨same.entered, same.entry_snd, keyed, rfl⟩
    have live : (m.entry cfg q).2.evicted = false := by simpa using gone
    rcases ends.cases with ⟨left, left', eq, eq', shared⟩ | ⟨s, t, eq, eq', lock⟩
    · rw [read_left live eq, read_left (same.entry_snd ▸ live) eq']
      exact shared
    · rw [read_done live eq, read_done (same.entry_snd ▸ live) eq']
      exact lock.same

theorem SameFor.supply (same : SameFor cfg q m m') (backend : Backend) (blk : ℕ) :
    m.supply cfg backend q (cfg.hashHex q) blk = m'.supply cfg backend q (cfg.hashHex q) blk :=
  supply_congr (congrFun same.blocks blk) (same.fetch backend blk)

theorem SameFor.shows (same : SameFor cfg q m m') (env : Env) (blk : ℕ) :
    m.shows cfg env q (cfg.hashHex q) blk = m'.shows cfg env q (cfg.hashHex q) blk :=
  shows_congr (congrFun same.blocks blk) (same.fetch env.backend blk)

theorem SameFor.passed (same : SameFor cfg q m m') (piece : Piece) (chunk : Bytes)
    (answer : Answer × Answer) :
    SameFor cfg q (m.passed cfg q (cfg.hashHex q) piece chunk answer)
      (m'.passed cfg q (cfg.hashHex q) piece chunk answer) := by
  have merged : m.merged cfg (cfg.hashHex q) piece chunk =
      m'.merged cfg (cfg.hashHex q) piece chunk := by
    simp only [CacheManager.merged, same.blocks]
  have stored : ∀ at_, cfg.Footprint q at_ → _ := fun at_ own =>
    Files.pwrite_congr (m.merged cfg (cfg.hashHex q) piece chunk)
      (piece.blk * kBlockSize % kMaxPartSize) answer.1
      (same.part (piece.blk * kBlockSize / kMaxPartSize)) (same.files at_ own)
  refine ⟨same.entry, fun at_ own => ?_⟩
  simp only [CacheManager.passed, BlockStore.write, ← merged]
  exact Files.pwrite_congr _ _ _ (stored _ (.inr rfl)) (stored at_ own)

theorem SameFor.write (same : SameFor cfg q m m')
    (keyed : (m.entry cfg q).2.hashHex = cfg.hashHex q) (answers : ℕ → Answer × Answer)
    (data : Bytes) (off : ℕ) :
    (m.write cfg answers q data off).2 = (m'.write cfg answers q data off).2 ∧
      SameFor cfg q (m.write cfg answers q data off).1 (m'.write cfg answers q data off).1 := by
  by_cases gone : (m.entry cfg q).2.evicted = true
  · rw [write_evicted cfg gone, write_evicted cfg (same.entry_snd ▸ gone)]
    exact ⟨rfl, same.entered⟩
  · have ends := loop_matches (fun s : WriteState => decide (s.done < data.size))
      (writePass cfg answers q (m.entry cfg q).2 data off)
      (fun s : WriteState => decide (s.done < data.size))
      (writePass cfg answers q (m.entry cfg q).2 data off)
      (fun s t => s.done = t.done ∧ SameFor cfg q s.mgr t.mgr) (fun left _ => left.elim)
      (fun s t lock => by rw [lock.1])
      (fun s t lock more => by
        have more : s.done < data.size := by simpa using more
        rw [writePass_eq cfg answers more rfl, writePass_eq cfg answers (lock.1 ▸ more) rfl,
          keyed, ← lock.1]
        exact ⟨rfl, lock.2.passed _ _ _⟩) data.size
      ⟨(m.entry cfg q).1, 0⟩ ⟨(m'.entry cfg q).1, 0⟩ ⟨rfl, same.entered⟩
    have live : (m.entry cfg q).2.evicted = false := by simpa using gone
    rcases ends.cases with ⟨left, _⟩ | ⟨s, t, eq, eq', done, kept⟩
    · exact left.elim
    · rw [same.entry_snd] at eq'
      rw [write_done live eq, write_done (same.entry_snd ▸ live) eq']
      exact ⟨by simp only [done], kept⟩

/-! ### Calls on another path -/

theorem read_lookup_other (other : q ≠ p) (env : Env) (len off : ℕ) :
    (m.read cfg env p len off).1.entries.lookup q = m.entries.lookup q := by
  by_cases gone : (m.entry cfg p).2.evicted = true
  · rw [read_evicted cfg gone, entry_lookup_other cfg m other]
  · refine read_rule cfg (fun s => s.mgr.entries.lookup q = m.entries.lookup q)
      (fun m' _ => m'.entries.lookup q = m.entries.lookup q) (by simpa using gone)
      (entry_lookup_other cfg m other) ?_ ?_ ?_
    · intro s piece block mgr same _ _ ready
      rw [finish_entries, AList.lookup_insert_ne other, ready.same.1]
      exact same
    · exact fun s piece same _ _ _ _ => same
    · exact fun s same _ => same

theorem write_lookup_other (other : q ≠ p) (answers : ℕ → Answer × Answer) (data : Bytes)
    (off : ℕ) :
    (m.write cfg answers p data off).1.entries.lookup q = m.entries.lookup q := by
  by_cases gone : (m.entry cfg p).2.evicted = true
  · rw [write_evicted cfg gone, entry_lookup_other cfg m other]
  · exact (write_rule_any cfg (fun s => s.mgr.entries.lookup q = m.entries.lookup q) answers
      (by simpa using gone) (entry_lookup_other cfg m other) fun s piece same _ _ => same).1

/-- A read of a path with other files does not matter. -/
theorem SameFor.of_read (keyed : (m.entry cfg p).2.hashHex = cfg.hashHex p) (other : q ≠ p)
    (apart : ∀ at_, cfg.Footprint q at_ → ¬cfg.Footprint p at_) (env : Env) (len off : ℕ) :
    SameFor cfg q m (m.read cfg env p len off).1 := by
  constructor
  · rw [read_lookup_other other]
  · intro at_ own
    have leaves : Leaves (PartOf cfg _) m _ := read_leaves m env p len off
    rw [keyed] at leaves
    exact (leaves.files at_ fun part => apart at_ own (.inl part)).symm

theorem SameFor.of_write (keyed : (m.entry cfg p).2.hashHex = cfg.hashHex p) (other : q ≠ p)
    (apart : ∀ at_, cfg.Footprint q at_ → ¬cfg.Footprint p at_) (answers : ℕ → Answer × Answer)
    (data : Bytes) (off : ℕ) : SameFor cfg q m (m.write cfg answers p data off).1 := by
  constructor
  · rw [write_lookup_other other]
  · intro at_ own
    have leaves := write_leaves_any cfg answers m p data off
    rw [keyed] at leaves
    exact (leaves.files at_ (apart at_ own)).symm

/-! ### A common file leaks -/

/-- One block of ones. -/
def oneBlockData : Bytes := .ofFn kBlockSize fun _ => 1

theorem wrote_sizes (m : CacheManager) (p : Str) (d : Digest) {piece : Piece} {chunk : Bytes}
    (whole : chunk.size = kBlockSize) (start : piece.inBlock = 0) :
    kBlockSize ≤ ((m.wrote cfg p d piece chunk).files.content (cfg.copy p)).size ∧
      kBlockSize ≤ ((m.wrote cfg p d piece chunk).files.content
        (cfg.dataPart d (piece.blk / kPartBlocks))).size := by
  have positive : 0 < kBlockSize := by decide
  have merged : (m.merged cfg d piece chunk).size = kBlockSize :=
    merged_size cfg (by rw [start, whole, Nat.zero_add])
  have stored : kBlockSize ≤ ((m.store cfg d piece.blk (m.merged cfg d piece chunk)).files.content
      (cfg.dataPart d (piece.blk / kPartBlocks))).size := by
    rw [content_store, if_pos rfl, Blob.size_write, merged]
    split <;> omega
  simp only [wrote]
  constructor
  · rw [Files.content_set_same, Blob.size_write, whole]
    split <;> omega
  -- The copy may be the part itself, which the second write does not shorten.
  · by_cases aliased : cfg.dataPart d (piece.blk / kPartBlocks) = cfg.copy p
    · rw [aliased, Files.content_set_same, Blob.size_write, whole]
      split <;> omega
    · rw [Files.content_set_other _ _ aliased]
      exact stored

/-- A write of one whole block is one pass. -/
theorem write_one (live : (m.entry cfg p).2.evicted = false) (blk : ℕ) :
    (m.write cfg succeed p oneBlockData (blk * kBlockSize)).1 =
      (m.entry cfg p).1.wrote cfg p (m.entry cfg p).2.hashHex ⟨blk, 0, kBlockSize⟩
        oneBlockData := by
  have size : oneBlockData.size = kBlockSize := rfl
  have all : (⟨(m.write cfg succeed p oneBlockData (blk * kBlockSize)).1, oneBlockData.size⟩ :
        WriteState) = ⟨(m.entry cfg p).1, 0⟩ ∨ _ :=
    (write_rule cfg
      (fun s => s = ⟨(m.entry cfg p).1, 0⟩ ∨
        s = ⟨(m.entry cfg p).1.wrote cfg p (m.entry cfg p).2.hashHex ⟨blk, 0, kBlockSize⟩
          oneBlockData, kBlockSize⟩) live (.inl rfl) fun s piece inv more here => by
      rcases inv with rfl | rfl
      · have whole : pieceAt (blk * kBlockSize) kBlockSize 0 = ⟨blk, 0, kBlockSize⟩ := by
          simp only [pieceAt, kBlockSize]
          congr 1 <;> omega
        rw [size, whole] at here
        subst here
        right
        rw [← size, Blob.slice_self, Nat.zero_add]
      · exact absurd more (Nat.lt_irrefl _)).1
  rcases all with started | done
  · have absurd : kBlockSize = 0 := congrArg WriteState.done started
    cases absurd
  · exact congrArg WriteState.mgr done

/-- Some write to a path puts a whole block into a given file of the path. -/
theorem write_reaches (live : (m.entry cfg p).2.evicted = false)
    (keyed : (m.entry cfg p).2.hashHex = cfg.hashHex p) {at_ : Path} (own : cfg.Footprint p at_) :
    ∃ off, kBlockSize ≤
      ((m.write cfg succeed p oneBlockData off).1.files.content at_).size := by
  rcases own with ⟨k, rfl⟩ | rfl
  · refine ⟨k * kPartBlocks * kBlockSize, ?_⟩
    have part : k * kPartBlocks / kPartBlocks = k := Nat.mul_div_cancel _ (by decide)
    have sizes : _ ∧ kBlockSize ≤ (((m.entry cfg p).1.wrote cfg p (cfg.hashHex p)
        ⟨k * kPartBlocks, 0, kBlockSize⟩ oneBlockData).files.content
          (cfg.dataPart (cfg.hashHex p) (k * kPartBlocks / kPartBlocks))).size :=
      wrote_sizes _ _ _ rfl rfl
    rw [part] at sizes
    rw [write_one live, keyed]
    exact sizes.2
  · refine ⟨0 * kBlockSize, ?_⟩
    rw [write_one live]
    exact (wrote_sizes _ _ _ rfl rfl).1

/-- A whole block in a file of a path shows in some read, though the backend fails. -/
theorem shows_reached {at_ : Path} (own : cfg.Footprint q at_)
    (reached : kBlockSize ≤ (m.files.content at_).size) :
    ∃ blk, (m.shows cfg .failing q (cfg.hashHex q) blk).isSome := by
  rcases own with ⟨k, rfl⟩ | rfl
  · have part : k * kMaxPartSize / kMaxPartSize = k := Nat.mul_div_cancel _ (by decide)
    have ends : blockEnd (k * kMaxPartSize) = kBlockSize := by
      rw [blockEnd, Nat.mul_mod_left]
      rfl
    refine ⟨k * kMaxPartSize / kBlockSize, ?_⟩
    rw [shows, if_pos ((full_iff_content cfg m _ _).mpr (by rwa [ends, partOf, part]))]
    rfl
  · refine ⟨0, ?_⟩
    rw [shows]
    split
    · rfl
    · have positive : 0 < kBlockSize := by decide
      cases found : m.files (cfg.copy q) with
      | none => simp [Files.content, found, kBlockSize] at reached
      | some b =>
        have size : kBlockSize ≤ b.size := by simpa [Files.content, found] using reached
        have some : 0 < b.size := by omega
        simp [RemoteCache.fetch, Env.failing, received, Files.pread, found, positive, some]

theorem shows_nothing (d : Digest) (blk : ℕ) :
    (new fun _ => none).shows cfg .failing q d blk = none := by
  have empty : (new fun _ => none).blocks cfg d blk = .empty :=
    BlockStore.blocks_empty cfg (fun _ _ => rfl) d blk
  rw [shows, if_neg (by simp [BlockMap.Full, empty, kBlockSize])]
  simp [RemoteCache.fetch, Env.failing, received, Files.pread, new]

/-- A write to a path shows in the reads of another one that has a file in common with it. -/
theorem leaks (other : q ≠ p) {at_ : Path} (mine : cfg.Footprint p at_)
    (yours : cfg.Footprint q at_) :
    ∃ off off', (((new fun _ => none).write cfg succeed p oneBlockData off).1.read cfg .failing q
        kBlockSize off').2.count ≠
      ((new fun _ => none).read cfg .failing q kBlockSize off').2.count := by
  have fresh : ∀ path, ((new fun _ => none).entry cfg path).2 =
      { path, hashHex := cfg.hashHex path } := fun path => by simp [entry_snd, new]
  have live : ((new fun _ => none).entry cfg p).2.evicted = false := by rw [fresh]
  obtain ⟨off, reached⟩ := write_reaches live (by rw [fresh]) mine
  obtain ⟨blk, shown⟩ := shows_reached yours reached
  refine ⟨off, blk * kBlockSize, ?_⟩
  have entry : (((new fun _ => none).write cfg succeed p oneBlockData off).1.entry cfg q).2 =
      { path := q, hashHex := cfg.hashHex q } := by
    rw [entry_snd, write_lookup_other other]
    simp [new]
  rw [read_block (by rw [entry]), read_block (by rw [fresh]), entry, fresh, shows_nothing]
  obtain ⟨block, found⟩ := Option.isSome_iff_exists.mp shown
  rw [found]
  simp [oneBlock]

/-! ### Results -/

/-- In every state that is reached without evictions and has no prefetch in flight, a write to
`p` leaves just those reads of `q` as they were that take supplied bytes only, if and only if
neither path's copy is a data part of the other. -/
theorem write_isolated_iff (cfg : Config) (p q : Str) (first : Normalised p)
    (second : Normalised q) (other : p ≠ q) (hash : cfg.hash p ≠ cfg.hash q) :
    (∀ (files : Files) (trace : Trace) (m : CacheManager),
      Run (Steps cfg) (new files) trace m → (∀ entry ∈ trace, entry.1.isEvict = false) →
      m.tasks = [] → ∀ answers data off backend len off',
        (∀ stack stack', ((m.write cfg answers p data off).1.read cfg ⟨backend, stack⟩ q len
            off').2 = (m.read cfg ⟨backend, stack'⟩ q len off').2) ↔
          m.AllSupplied cfg backend q (cfg.hashHex q) len off') ↔
    (∀ k, cfg.copy p ≠ cfg.dataPart (cfg.hashHex q) k) ∧
      ∀ k, cfg.copy q ≠ cfg.dataPart (cfg.hashHex p) k := by
  constructor
  · intro isolated
    have unmet : ∀ at_, cfg.Footprint p at_ → ¬cfg.Footprint q at_ := by
      intro at_ mine yours
      obtain ⟨off, off', differ⟩ := leaks (Ne.symm other) mine yours
      -- Nothing is there to be read, so a read takes no byte at all.
      have none : (new fun _ => none).AllSupplied cfg Env.failing.backend q (cfg.hashHex q)
          kBlockSize off' := by
        intro i _ reached
        have absurd := reached 0 (Nat.zero_le i)
        rw [shows_eq_none_iff.mp (shows_nothing _ _)] at absurd
        cases absurd
      have same := (isolated _ [] _ (.refl _) (by simp) rfl succeed oneBlockData off _ _ _).mpr none
      exact differ (congrArg ReadResult.count (same Env.failing.stack Env.failing.stack))
    exact ⟨fun k same => unmet _ (.inr rfl) (.inl ⟨k, same⟩),
      fun k same => unmet _ (.inl ⟨k, same⟩) (.inr rfl)⟩
  · rintro ⟨left, right⟩ files trace m run stays _ answers data off backend len off'
    have each := run_live cfg run stays
    obtain ⟨_, keyed, live⟩ := (each.entry cfg (settled_live cfg q)).2
    have apart := Config.footprints_apart ⟨cfg.copies_apart first second other, left, right⟩ hash
    have same := SameFor.of_write (each.entry cfg (settled_live cfg p)).2.2.1 (Ne.symm other) apart
      answers data off
    -- With one buffer for both, the reads agree; the rest is a matter of the state before.
    have written : ∀ stack, ((m.write cfg answers p data off).1.read cfg ⟨backend, stack⟩ q len
        off').2 = (m.read cfg ⟨backend, stack⟩ q len off').2 := fun stack =>
      read_same same.entry_snd.symm (fun blk => by rw [keyed, same.shows]) len off'
    rw [← keyed, ← read_settled_iff backend live]
    simp only [written]

theorem write_isolated_sample :
    (∀ (files : Files) (trace : Trace) (m : CacheManager),
      Run (Steps .sample) (new files) trace m → (∀ entry ∈ trace, entry.1.isEvict = false) →
      m.tasks = [] → ∀ answers data off backend len off',
        (∀ stack stack', ((m.write .sample answers ['/', 'f'] data off).1.read .sample
            ⟨backend, stack⟩ ['/', 'g', 'g'] len off').2 =
          (m.read .sample ⟨backend, stack'⟩ ['/', 'g', 'g'] len off').2) ↔
        m.AllSupplied .sample backend ['/', 'g', 'g'] (Config.sample.hashHex ['/', 'g', 'g']) len
          off') ↔
    (∀ k, Config.sample.copy ['/', 'f'] ≠
        Config.sample.dataPart (Config.sample.hashHex ['/', 'g', 'g']) k) ∧
      ∀ k, Config.sample.copy ['/', 'g', 'g'] ≠
        Config.sample.dataPart (Config.sample.hashHex ['/', 'f']) k :=
  write_isolated_iff .sample ['/', 'f'] ['/', 'g', 'g'] (.inr (normal_sample _ rfl))
    (.inr ⟨[['g', 'g']], by simp, by simp [PlainName], rfl⟩) (by decide) (by decide)

/-- The path whose copy is the first data part of `/f`. -/
def shardPath : Str :=
  slashed [['0', '0'], ['0', '0'],
    partName (Config.sample.hashHex ['/', 'f']) 0 ['.', 'b', 'l', 'k']]

/-- A write to that path shows in a read of `/f`. -/
theorem shard_path_shows :
    ¬∀ p q : Str, Normalised p → Normalised q → p ≠ q →
      Config.sample.hash p ≠ Config.sample.hash q →
      ∀ (files : Files) (trace : Trace) (m : CacheManager),
        Run (Steps .sample) (new files) trace m → (∀ entry ∈ trace, entry.1.isEvict = false) →
        m.tasks = [] → ∀ answers data off env len off',
          ((m.write .sample answers p data off).1.read .sample env q len off').2 =
            (m.read .sample env q len off').2 := by
  intro all
  have other : ['/', 'f'] ≠ shardPath := by decide
  have part : Config.sample.copy shardPath =
      Config.sample.dataPart (Config.sample.hashHex ['/', 'f']) 0 := by
    decide +kernel
  have mine : Config.sample.Footprint shardPath (Config.sample.copy shardPath) := .inr rfl
  obtain ⟨off, off', differ⟩ := leaks other mine (.inl ⟨0, part⟩)
  refine differ (congrArg ReadResult.count (all shardPath ['/', 'f'] (.inr ⟨_, by simp, ?_, rfl⟩)
    (.inr (normal_sample _ rfl)) (Ne.symm other) (by decide +kernel) _ [] _ (.refl _)
    (by simp) rfl succeed oneBlockData off .failing kBlockSize off'))
  intro c member
  simp only [List.mem_cons, List.not_mem_nil, or_false] at member
  rcases member with rfl | rfl | rfl
  · simp [PlainName]
  · simp [PlainName]
  · exact plain_partName _ _ (by decide)

/-- What the next call on `q` returns does not depend on the calls on `p` before it, except for
bytes that a read takes from its block buffer. -/
def Independent (cfg : Config) (p q : Str) : Prop :=
  ∀ (files : Files) (trace alone : Trace) (m m' : CacheManager),
    Run (Steps cfg) (new files) trace m → Run (Steps cfg) (new files) alone m' →
    (∀ entry ∈ trace, entry.1.client = some p ∨ entry.1.client = some q) →
    (alone.map fun entry => entry.1.bare) =
      ((trace.filter fun entry => entry.1.client = some q).map fun entry => entry.1.bare) →
    (∀ data off, (m.write cfg succeed q data off).2 = (m'.write cfg succeed q data off).2) ∧
      ∀ backend stack stack' len off,
        (m.read cfg ⟨backend, stack⟩ q len off).2.count =
            (m'.read cfg ⟨backend, stack'⟩ q len off).2.count ∧
          ∀ i, (m'.supplied cfg backend q (cfg.hashHex q) (off + i)).isSome = true →
            (m.read cfg ⟨backend, stack⟩ q len off).2.buf.get i =
              (m'.read cfg ⟨backend, stack'⟩ q len off).2.buf.get i

/-- A run on two paths with different files leaves the second path as the calls on it alone do. -/
theorem run_alone {files : Files} {trace alone : Trace} (other : q ≠ p)
    (apart : ∀ at_, cfg.Footprint q at_ → ¬cfg.Footprint p at_)
    (run : Run (Steps cfg) (new files) trace m) (run' : Run (Steps cfg) (new files) alone m')
    (on : ∀ entry ∈ trace, entry.1.client = some p ∨ entry.1.client = some q)
    (calls : (alone.map fun entry => entry.1.bare) =
      ((trace.filter fun entry => entry.1.client = some q).map fun entry => entry.1.bare)) :
    SameFor cfg q m m' := by
  induction run generalizing alone m' with
  | refl =>
    cases run' with
    | refl => exact .refl _
    | next => simp at calls
  | @next m m'' trace e o before taken ih =>
    have earlier := fun entry member => on entry (List.mem_append_left _ member)
    have own := on (e, o) (List.mem_append_right _ List.mem_cons_self)
    have each := run_keyed before
    rw [List.filter_append] at calls
    by_cases mine : e.client = some q
    · rw [List.filter_cons_of_pos (by simpa using mine), List.filter_nil, List.map_append,
        List.map_singleton] at calls
      cases run' with
      | refl => simp at calls
      | @next u _ alone e' o' before' taken' =>
        rw [List.map_append, List.map_singleton] at calls
        obtain ⟨calls, last⟩ := List.append_inj' calls rfl
        have last : e'.bare = e.bare := List.singleton_inj.mp last
        have same := ih before' earlier calls
        have keyed := (each.entry cfg (settled_keyed q)).2.2
        cases e with
        | read env path len off =>
          cases mine
          obtain ⟨stack, rfl⟩ := Event.bare_read last
          cases taken
          cases taken'
          exact same.read keyed env.backend env.stack stack len off
        | write path data off =>
          cases mine
          obtain rfl := Event.bare_write last
          cases taken
          cases taken'
          exact (same.write keyed succeed data off).2
        | prefetch backend i => cases mine
        | evict used freeGb => cases mine
    · rw [List.filter_cons_of_neg (by simpa using mine), List.filter_nil, List.append_nil] at calls
      have theirs := own.resolve_right mine
      have keyed := (each.entry cfg (settled_keyed p)).2.2
      refine SameFor.trans (SameFor.symm ?_) (ih run' earlier calls)
      cases e with
      | read env path len off =>
        cases theirs
        cases taken
        exact SameFor.of_read keyed other apart env len off
      | write path data off =>
        cases theirs
        cases taken
        exact SameFor.of_write keyed other apart succeed data off
      | prefetch backend i => cases theirs
      | evict used freeGb => cases theirs

/-- Calls on two paths that have a file in common are not independent. -/
theorem not_independent (other : q ≠ p) {at_ : Path} (mine : cfg.Footprint p at_)
    (yours : cfg.Footprint q at_) : ¬Independent cfg p q := by
  intro independent
  obtain ⟨off, off', differ⟩ := leaks other mine yours
  have run := Run.next (.refl (new fun _ => none)) (steps_write cfg _ p oneBlockData off)
  have reads := (independent _ _ [] _ _ run (.refl _) (by simp [Event.client])
    (by simp [Event.client, Ne.symm other])).2
  exact differ (reads Env.failing.backend Env.failing.stack Env.failing.stack kBlockSize off').1

/-- In every run of reads and writes on two paths whose files lie apart, what the calls on `q`
return is independent of the calls on `p`, if and only if the hashes of the paths differ. -/
theorem objects_apart_iff (cfg : Config) (p q : Str) (other : p ≠ q)
    (apart : cfg.FilesApart p q) : Independent cfg p q ↔ cfg.hash p ≠ cfg.hash q := by
  constructor
  · intro independent same
    have shared : cfg.Footprint q (cfg.dataPart (cfg.hashHex p) 0) :=
      .inl ⟨0, by rw [Config.hashHex, same, ← Config.hashHex]⟩
    exact not_independent (Ne.symm other) (.inl ⟨0, rfl⟩) shared independent
  · intro hash files trace alone m m' run run' on calls
    have stays : ∀ entry ∈ trace, entry.1.isEvict = false := by
      rintro ⟨e, o⟩ member
      have client := on _ member
      cases e <;> simp [Event.client, Event.isEvict] at client ⊢
    obtain ⟨_, keyed, live⟩ := ((run_live cfg run stays).entry cfg (settled_live cfg q)).2
    have same := run_alone (Ne.symm other) (Config.footprints_apart apart.toCopiesApart hash) run
      run' on calls
    refine ⟨fun data off => (same.write keyed succeed data off).1,
      fun backend stack stack' len off => ?_⟩
    obtain ⟨done, first⟩ := read_shown ⟨backend, stack⟩ live len off
    obtain ⟨done', second⟩ := read_shown ⟨backend, stack'⟩ (same.entry_snd ▸ live) len off
    rw [keyed] at first
    rw [← same.entry_snd, keyed] at second
    obtain rfl := first.done_eq second fun blk => by
      rw [shows_eq_none_iff, shows_eq_none_iff, same.supply]
    refine ⟨by rw [first.count, second.count], fun i given => ?_⟩
    by_cases early : i < done
    · obtain ⟨v, given⟩ := Option.isSome_iff_exists.mp given
      have given' : m.supplied cfg backend q (cfg.hashHex q) (off + i) = some v := by
        rw [supplied, same.supply, ← supplied, given]
      rw [first.byte early, second.byte early, given, given']
      rfl
    · rw [Blob.beyond _ _ (by rw [first.size]; omega), Blob.beyond _ _ (by rw [second.size]; omega)]

theorem files_apart_sample : Config.sample.FilesApart ['/', 'f'] ['/', 'g', 'g'] := by
  have base : Config.sample.base = [['c']] := by decide
  have f : Config.sample.copy ['/', 'f'] = [['c'], ['f']] := by decide
  have gg : Config.sample.copy ['/', 'g', 'g'] = [['c'], ['g', 'g']] := by decide
  have part : ∀ path ∈ [['/', 'f'], ['/', 'g', 'g']], ∀ k, ∃ name,
      Config.sample.dataPart (Config.sample.hashHex path) k =
        [['c'], ['0', '0'], ['0', '0'], name] := by
    intro path member k
    rw [Config.dataPart_eq, base]
    rcases List.mem_pair.mp member with rfl | rfl
    · exact ⟨_, rfl⟩
    · exact ⟨_, rfl⟩
  -- All files lie in the root, two of them directly.
  have form : ∀ at_, Config.sample.Footprint ['/', 'f'] at_ ∨
      Config.sample.Footprint ['/', 'g', 'g'] at_ →
      at_ = [['c'], ['f']] ∨ at_ = [['c'], ['g', 'g']] ∨
        ∃ name, at_ = [['c'], ['0', '0'], ['0', '0'], name] := by
    rintro at_ ((⟨k, rfl⟩ | rfl) | (⟨k, rfl⟩ | rfl))
    · exact .inr (.inr (part _ (by simp) k))
    · exact .inl f
    · exact .inr (.inr (part _ (by simp) k))
    · exact .inr (.inl gg)
  refine ⟨⟨by rw [f, gg]; decide, fun k same => ?_, fun k same => ?_⟩, ?_⟩
  · obtain ⟨name, eq⟩ := part ['/', 'g', 'g'] (by simp) k
    simp [f, eq] at same
  · obtain ⟨name, eq⟩ := part ['/', 'f'] (by simp) k
    simp [gg, eq] at same
  · intro at_ at_' first second below
    rcases form at_ first with rfl | rfl | ⟨name, rfl⟩ <;>
      rcases form at_' second with rfl | rfl | ⟨name', rfl⟩ <;>
      simp_all [List.cons_prefix_cons]

theorem objects_apart_sample :
    Independent .sample ['/', 'f'] ['/', 'g', 'g'] ↔
      Config.sample.hash ['/', 'f'] ≠ Config.sample.hash ['/', 'g', 'g'] :=
  objects_apart_iff .sample ['/', 'f'] ['/', 'g', 'g'] (by decide) files_apart_sample

/-- Two paths with the same hash share their blocks, and two spellings of a path share its copy. -/
theorem paths_share :
    ¬Independent .sample ['/', 'f'] ['/', 'g'] ∧ ¬Independent .sample ['/', 'f'] ['f'] :=
  ⟨not_independent (by decide) (.inl ⟨0, rfl⟩) (.inl ⟨0, rfl⟩),
    not_independent (by decide) (.inr rfl) (.inr rfl)⟩

end CacheManager

end RemoteCache
