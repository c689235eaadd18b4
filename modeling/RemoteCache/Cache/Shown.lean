import RemoteCache.Cache.Passes

/-!
# What a read is shown

A pass of a read takes its bytes from the stored block, if that is whole, else
from what the backend or the copy gives, laid over the part that is stored. The
rest of the block is what the uninitialised buffer happens to hold.

`read_shown` says what a read returns in terms of what is shown of each block,
and `read_settled_iff` which reads do not depend on the buffer.
-/
namespace RemoteCache

namespace CacheManager

variable (cfg : Config) (env : Env)

/-- What a pass of a read shows of a block, given what the store has of it. -/
def shows (m : CacheManager) (path : Str) (d : Digest) (blk : ℕ) : Option Bytes :=
  if (m.blocks cfg).Full kBlockSize d blk then some (m.blocks cfg d blk)
  else
    (fetch cfg env.backend m.files path blk).map fun got =>
      ((Blob.ofFn kBlockSize (env.stack blk)).write (m.blocks cfg d blk) 0).write got 0

/-- What the store and the source have of a block; nothing if a read stops there. -/
def supply (backend : Backend) (m : CacheManager) (path : Str) (d : Digest) (blk : ℕ) :
    Option Bytes :=
  if (m.blocks cfg).Full kBlockSize d blk then some (m.blocks cfg d blk)
  else (fetch cfg backend m.files path blk).map fun got => (m.blocks cfg d blk).write got 0

/-- The byte at a position of the file, if it does not come from the buffer. -/
def supplied (backend : Backend) (m : CacheManager) (path : Str) (d : Digest) (x : ℕ) :
    Option UInt8 :=
  (m.supply cfg backend path d (x / kBlockSize)).bind fun given =>
    if x % kBlockSize < given.size then some (given.get (x % kBlockSize)) else none

/-- Each byte that a read takes, up to where it stops, is supplied. -/
def AllSupplied (backend : Backend) (m : CacheManager) (path : Str) (d : Digest) (len off : ℕ) :
    Prop :=
  ∀ i < len,
    (∀ j ≤ i, (m.supply cfg backend path d ((off + j) / kBlockSize)).isSome = true) →
      (m.supplied cfg backend path d (off + i)).isSome = true

variable {cfg env} {backend : Backend} {m m' : CacheManager} {path : Str} {d : Digest}
  {len off blk : ℕ}

/-- What is shown of a block is what is supplied of it, laid over the buffer. -/
theorem shows_supply (m : CacheManager) (env : Env) (path : Str) (d : Digest) (blk : ℕ) :
    m.shows cfg env path d blk =
      (m.supply cfg env.backend path d blk).map fun given =>
        (Blob.ofFn kBlockSize (env.stack blk)).write given 0 := by
  unfold shows supply
  split
  next full => rw [Option.map_some, write_full (Blob.size_ofFn _ _) full]
  · rw [Option.map_map]
    congr 1
    funext got
    exact Blob.write_zero_write _ _ _

theorem supply_congr (block : m.blocks cfg d blk = m'.blocks cfg d blk)
    (fetched : fetch cfg backend m.files path blk = fetch cfg backend m'.files path blk) :
    m.supply cfg backend path d blk = m'.supply cfg backend path d blk := by
  have full : (m.blocks cfg).Full kBlockSize d blk ↔ (m'.blocks cfg).Full kBlockSize d blk := by
    rw [BlockMap.Full, BlockMap.Full, block]
  simp only [supply, full, block, fetched]

theorem shows_congr (block : m.blocks cfg d blk = m'.blocks cfg d blk)
    (fetched : fetch cfg env.backend m.files path blk =
      fetch cfg env.backend m'.files path blk) :
    m.shows cfg env path d blk = m'.shows cfg env path d blk := by
  rw [shows_supply, shows_supply, supply_congr block fetched]

theorem shows_files (files : m'.files = m.files) :
    m'.shows cfg env path = m.shows cfg env path :=
  funext fun d => funext fun blk => shows_congr (by rw [blocks, files, blocks]) (by rw [files])

@[simp] theorem finish_shows (p : Piece) (block : Bytes) (s : ReadState) :
    (finish path p block s).mgr.shows cfg env path d blk = s.mgr.shows cfg env path d blk :=
  congrFun (congrFun (shows_files (finish_files path p block s)) d) blk

theorem shows_size {block : Bytes} (shown : m.shows cfg env path d blk = some block) :
    block.size = kBlockSize := by
  unfold shows at shown
  split at shown
  next full =>
    cases shown
    exact full
  · obtain ⟨got, fetched, rfl⟩ := Option.map_eq_some_iff.mp shown
    have stored := blocks_fits cfg m d blk
    have small := (fetch_small cfg fetched).2
    simp only [Blob.size_write, Blob.size_ofFn]
    split <;> split <;> omega

/-! ### Whole reads -/

theorem Ready.shows {p : Piece} {s : ReadState} {block : Bytes} {mgr : CacheManager}
    (ready : Ready cfg env path p s block mgr) :
    s.mgr.shows cfg env path s.ce.hashHex p.blk = some block := by
  cases ready with
  | hit full => exact if_pos full
  | fill miss got fetched => rw [CacheManager.shows, if_neg miss, fetched, Option.map_some]

/-- A pass leaves what later passes show of higher blocks. -/
theorem Ready.shows_later {p : Piece} {s : ReadState} {block : Bytes} {mgr : CacheManager}
    (ready : Ready cfg env path p s block mgr) (later : p.blk < blk) :
    mgr.shows cfg env path s.ce.hashHex blk = s.mgr.shows cfg env path s.ce.hashHex blk := by
  cases ready with
  | hit => rfl
  | fill miss got fetched =>
    obtain ⟨some, small⟩ := fetch_small cfg fetched
    refine shows_congr ?_ (fetch_store_later cfg _ _ _ _ small later)
    rw [blocks_store cfg _ _ _ some small, BlockMap.put_later later]

/-- A read that got as far as `done`: what it was shown, and why it went no further. -/
structure Shown (cfg : Config) (env : Env) (m : CacheManager) (path : Str) (d : Digest)
    (len off : ℕ) (r : ReadResult) (done : ℕ) : Prop where
  within : done ≤ len
  count : r.count = if done < len ∧ done = 0 then -1 else (done : ℤ)
  size : r.buf.size = done
  bytes : ∀ i < done, ∃ block, m.shows cfg env path d ((off + i) / kBlockSize) = some block ∧
    r.buf.get i = block.get ((off + i) % kBlockSize)
  ends : done < len → m.shows cfg env path d ((off + done) / kBlockSize) = none

/-- What a read has done when it has reached `done`. -/
private structure Showing (cfg : Config) (env : Env) (m : CacheManager) (path : Str) (d : Digest)
    (len off : ℕ) (s : ReadState) : Prop where
  keyed : s.ce.hashHex = d
  within : s.done ≤ len
  size : s.buf.size = s.done
  bytes : ∀ i < s.done, ∃ block, m.shows cfg env path d ((off + i) / kBlockSize) = some block ∧
    s.buf.get i = block.get ((off + i) % kBlockSize)
  ahead : s.done < len → ∀ blk, (off + s.done) / kBlockSize ≤ blk →
    s.mgr.shows cfg env path d blk = m.shows cfg env path d blk

private theorem Showing.pass {s : ReadState} (showing : Showing cfg env m path d len off s)
    (more : s.done < len) {p : Piece} (piece : pieceAt off len s.done = p) {block : Bytes}
    {mgr : CacheManager} (ready : Ready cfg env path p s block mgr) :
    Showing cfg env m path d len off (finish path p block { s with mgr }) := by
  obtain ⟨place, _, fits, within⟩ := pieceAt_spec off more piece
  have start : p.blk = (off + s.done) / kBlockSize := by rw [← piece, pieceAt_blk]
  have shown := ready.shows
  rw [showing.keyed, showing.ahead more p.blk start.symm.le] at shown
  refine ⟨showing.keyed, within, finish_size path ready.size fits showing.size, ?_, ?_⟩
  · intro i early
    rw [finish_done] at early
    rw [finish_get ready.size fits]
    by_cases old : s.done ≤ i
    · obtain ⟨here, inside⟩ := pieceAt_byte off more piece old early
      rw [if_pos ⟨old, early⟩, here, inside]
      exact ⟨block, shown, rfl⟩
    · rw [if_neg fun both => old both.1]
      exact showing.bytes i (Nat.lt_of_not_le old)
  -- A pass ends its block, unless it is the last one.
  · intro more' blk above
    have ends := pieceAt_ends off more piece
    have later : p.blk < blk := by
      simp only [finish_done] at more' above
      unfold kBlockSize at *
      omega
    have kept := ready.shows_later later
    rw [showing.keyed] at kept
    rw [finish_shows, kept]
    exact showing.ahead more blk (by omega)

theorem read_shown (env : Env) (live : (m.entry cfg path).2.evicted = false) (len off : ℕ) :
    ∃ done, Shown cfg env m path (m.entry cfg path).2.hashHex len off
      (m.read cfg env path len off).2 done := by
  refine read_rule cfg (Showing cfg env m path (m.entry cfg path).2.hashHex len off)
    (fun _ r => ∃ done, Shown cfg env m path _ len off r done) live ?_ ?_ ?_ ?_
  · refine ⟨rfl, Nat.zero_le _, rfl, fun i early => absurd early (Nat.not_lt_zero i), ?_⟩
    intro _ blk _
    rw [shows_files (entry_files cfg m path)]
  · intro s p block mgr showing more piece ready
    exact showing.pass more piece ready
  · intro s p showing more piece miss fetched
    have start : p.blk = (off + s.done) / kBlockSize := by rw [← piece, pieceAt_blk]
    have none : s.mgr.shows cfg env path s.ce.hashHex p.blk = none := by
      rw [shows, if_neg miss, fetched, Option.map_none]
    rw [showing.keyed, showing.ahead more p.blk start.symm.le, start] at none
    exact ⟨s.done, showing.within, by simp only [more, true_and], showing.size, showing.bytes,
      fun _ => none⟩
  · intro s showing all
    exact ⟨s.done, showing.within, by rw [if_neg (by omega)], showing.size, showing.bytes,
      fun left => absurd left (Nat.not_lt.mpr all)⟩

variable {env' : Env} {r r' : ReadResult} {done done' : ℕ}

/-- Reads that find the same blocks get equally far. -/
theorem Shown.done_eq (first : Shown cfg env m path d len off r done)
    (second : Shown cfg env' m' path d len off r' done')
    (same : ∀ blk, m.shows cfg env path d blk = none ↔ m'.shows cfg env' path d blk = none) :
    done = done' := by
  have within := first.within
  have within' := second.within
  rcases Nat.lt_trichotomy done done' with short | eq | long
  · obtain ⟨block, shown, _⟩ := second.bytes done short
    rw [(same _).mp (first.ends (by omega))] at shown
    cases shown
  · exact eq
  · obtain ⟨block, shown, _⟩ := first.bytes done' long
    rw [(same _).mpr (second.ends (by omega))] at shown
    cases shown

theorem Shown.result_eq (first : Shown cfg env m path d len off r done)
    (second : Shown cfg env' m' path d len off r' done)
    (bytes : ∀ i < done, r.buf.get i = r'.buf.get i) : r = r' :=
  ReadResult.ext (by rw [first.count, second.count])
    (Blob.eq_of_get (first.size.trans second.size.symm) fun i early => bytes i (first.size ▸ early))

/-- Reads that are shown the same return the same. -/
theorem read_same (entry : (m'.entry cfg path).2 = (m.entry cfg path).2)
    (shows : ∀ blk, m'.shows cfg env path (m.entry cfg path).2.hashHex blk =
      m.shows cfg env path (m.entry cfg path).2.hashHex blk) (len off : ℕ) :
    (m'.read cfg env path len off).2 = (m.read cfg env path len off).2 := by
  by_cases gone : (m.entry cfg path).2.evicted = true
  · rw [read_evicted cfg gone, read_evicted cfg (entry ▸ gone)]
  · have live : (m.entry cfg path).2.evicted = false := by simpa using gone
    obtain ⟨done, first⟩ := read_shown env (entry ▸ live : (m'.entry cfg path).2.evicted = false)
      len off
    obtain ⟨done', second⟩ := read_shown env live len off
    rw [entry] at first
    obtain rfl := first.done_eq second fun blk => by rw [shows]
    refine first.result_eq second fun i early => ?_
    obtain ⟨block, shown, byte⟩ := first.bytes i early
    obtain ⟨block', shown', byte'⟩ := second.bytes i early
    rw [shows, shown'] at shown
    cases shown
    rw [byte, byte']

/-- The result of a read of one block that is shown so. -/
def oneBlock : Option Bytes → ReadResult
  | some block => ⟨kBlockSize, block⟩
  | none => ⟨-1, .empty⟩

theorem oneBlock_injective : Function.Injective oneBlock := by
  intro shown shown' same
  cases shown <;> cases shown' <;> simp_all [oneBlock, kBlockSize]

/-- A read of one block returns what is shown of it. -/
theorem read_block (live : (m.entry cfg path).2.evicted = false) (env : Env) (blk : ℕ) :
    (m.read cfg env path kBlockSize (blk * kBlockSize)).2 =
      oneBlock (m.shows cfg env path (m.entry cfg path).2.hashHex blk) := by
  obtain ⟨done, read⟩ := read_shown env live kBlockSize (blk * kBlockSize)
  generalize (m.read cfg env path kBlockSize (blk * kBlockSize)).2 = r at read ⊢
  obtain ⟨within, count, size, bytes, ends⟩ := read
  have place : ∀ i < kBlockSize, (blk * kBlockSize + i) / kBlockSize = blk ∧
      (blk * kBlockSize + i) % kBlockSize = i := by
    intro i small
    unfold kBlockSize at *
    omega
  have some : 0 < kBlockSize := by decide
  cases shown : m.shows cfg env path (m.entry cfg path).2.hashHex blk with
  | none =>
    have nothing : done = 0 := by
      by_contra started
      obtain ⟨block, found, _⟩ := bytes 0 (Nat.pos_of_ne_zero started)
      rw [(place 0 some).1, shown] at found
      cases found
    subst nothing
    rw [if_pos ⟨some, rfl⟩] at count
    exact ReadResult.ext count (Blob.eq_empty_of_size size)
  | some block =>
    have whole : done = kBlockSize := by
      by_contra short
      have none := ends (by omega)
      rw [(place done (by omega)).1, shown] at none
      cases none
    subst whole
    rw [if_neg (by omega)] at count
    refine ReadResult.ext count (Blob.eq_of_get (size.trans (shows_size shown).symm) ?_)
    intro i early
    have small : i < kBlockSize := size ▸ early
    obtain ⟨block', found, byte⟩ := bytes i small
    rw [(place i small).1, shown] at found
    cases found
    rw [byte, (place i small).2]
    rfl

/-! ### The uninitialised buffer -/

theorem shows_eq_none_iff :
    m.shows cfg env path d blk = none ↔ m.supply cfg env.backend path d blk = none := by
  rw [shows_supply, Option.map_eq_none_iff]

/-- A byte that is read is supplied, or else the one that the buffer holds. -/
theorem Shown.byte (shown : Shown cfg env m path d len off r done) {i : ℕ} (early : i < done) :
    r.buf.get i = (m.supplied cfg env.backend path d (off + i)).getD
      (env.stack ((off + i) / kBlockSize) ((off + i) % kBlockSize)) := by
  obtain ⟨block, found, byte⟩ := shown.bytes i early
  rw [shows_supply] at found
  obtain ⟨given, supply, rfl⟩ := Option.map_eq_some_iff.mp found
  have inside : (off + i) % kBlockSize < kBlockSize := Nat.mod_lt _ (by decide)
  rw [byte, supplied, supply, Option.bind_some, Blob.get_write, Blob.get_ofFn, if_pos inside]
  simp only [Nat.zero_le, true_and, Nat.zero_add, Nat.sub_zero]
  split <;> rfl

theorem Shown.reaches (shown : Shown cfg env m path d len off r done) {i : ℕ} (inside : i < len) :
    i < done ↔
      ∀ j ≤ i, (m.supply cfg env.backend path d ((off + j) / kBlockSize)).isSome = true := by
  simp only [← Option.ne_none_iff_isSome, ← shows_eq_none_iff, ne_eq]
  constructor
  · intro early j lower none
    obtain ⟨block, found, _⟩ := shown.bytes j (by omega)
    rw [none] at found
    cases found
  · intro all
    by_contra late
    exact all done (Nat.not_lt.mp late) (shown.ends (by omega))

/-- A read returns the same whatever the block buffer holds, if and only if each byte that it
takes is supplied. -/
theorem read_settled_iff (backend : Backend) (live : (m.entry cfg path).2.evicted = false)
    (len off : ℕ) :
    (∀ stack stack', (m.read cfg ⟨backend, stack⟩ path len off).2 =
      (m.read cfg ⟨backend, stack'⟩ path len off).2) ↔
    m.AllSupplied cfg backend path (m.entry cfg path).2.hashHex len off := by
  constructor
  · intro settled i inside reached
    -- Two buffers that differ everywhere show a byte that is not supplied.
    obtain ⟨done, zeros⟩ := read_shown ⟨backend, fun _ _ => 0⟩ live len off
    obtain ⟨done', ones⟩ := read_shown ⟨backend, fun _ _ => 1⟩ live len off
    have zero := zeros.byte ((zeros.reaches inside).mpr reached)
    have one := ones.byte ((ones.reaches inside).mpr reached)
    rw [settled _ fun _ _ => 1, one] at zero
    by_contra missing
    rw [Option.not_isSome_iff_eq_none] at missing
    simp [missing] at zero
  · intro all stack stack'
    obtain ⟨done, first⟩ := read_shown ⟨backend, stack⟩ live len off
    obtain ⟨done', second⟩ := read_shown ⟨backend, stack'⟩ live len off
    obtain rfl := first.done_eq second fun blk => by rw [shows_eq_none_iff, shows_eq_none_iff]
    refine first.result_eq second fun i early => ?_
    have given := all i (early.trans_le first.within)
      ((first.reaches (early.trans_le first.within)).mp early)
    obtain ⟨v, given⟩ := Option.isSome_iff_exists.mp given
    rw [first.byte early, second.byte early, given]
    rfl

end CacheManager

end RemoteCache
