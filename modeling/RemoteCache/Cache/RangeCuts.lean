import RemoteCache.Lib.Pieces
import RemoteCache.Cache.Contents

/-!
# How a range is cut

The loops of `read` and `write` go through a range in pieces that end with a block
or with the range. Where a piece starts depends on the range alone, as long as
`read` finds every block.
-/
namespace RemoteCache

open FsLayout

/-- What a pass does to the number of bytes done. -/
def cutStep (off len done : ℕ) : Except Empty ℕ := .ok (done + (pieceAt off len done).want)

/-- The positions in the buffer at which passes begin, from one of them on. -/
def cutsFrom (off len : ℕ) : ℕ → ℕ → List ℕ := passes (fun done => done < len) (cutStep off len)

def cuts (off len : ℕ) : List ℕ := cutsFrom off len len 0

section

variable {off len fuel done : ℕ}

theorem cutsFrom_more (more : done < len) : cutsFrom off len (fuel + 1) done =
    done :: cutsFrom off len fuel (done + (pieceAt off len done).want) := by
  simp [cutsFrom, passes, cutStep, more]

theorem cutsFrom_end (ends : len ≤ done) : cutsFrom off len fuel done = [] := by
  cases fuel with
  | zero => rfl
  | succ fuel => simp [cutsFrom, passes, Nat.not_lt.mpr ends]

theorem lt_of_mem_cuts {d : ℕ} (member : d ∈ cuts off len) : d < len := by
  simpa using cond_of_mem_passes member

/-- Every pass takes at least one byte, so as many passes as bytes are enough. -/
theorem cutLoop (within : done ≤ len) (enough : len ≤ done + fuel) :
    loop (fun done => done < len) (cutStep off len) fuel done = .ok len := by
  induction fuel generalizing done with
  | zero => rw [loop, Nat.le_antisymm within enough]
  | succ fuel ih =>
    by_cases more : done < len
    · obtain ⟨_, forward, _, inside⟩ := pieceAt_spec off more rfl
      simp only [loop, cutStep, more, decide_true, if_true]
      exact ih inside (by omega)
    · simp only [loop, more, decide_false, Bool.false_eq_true, if_false]
      rw [Nat.le_antisymm within (Nat.not_lt.mp more)]

/-- Each piece starts in the buffer where the one before it ended. -/
theorem cutsFrom_pieces (off len fuel done : ℕ) :
    (cutsFrom off len fuel done).map (fun d => (d, (pieceAt off len d).want)) =
      pieces done ((cutsFrom off len fuel done).map fun d => (pieceAt off len d).want) := by
  induction fuel generalizing done with
  | zero => rfl
  | succ fuel ih =>
    by_cases more : done < len
    · rw [cutsFrom_more more, List.map_cons, List.map_cons, ih, pieces]
    · rw [cutsFrom_end (Nat.not_lt.mp more)]
      rfl

/-- The pieces take the whole range. -/
theorem cutsFrom_sum (off : ℕ) (within : done ≤ len) (enough : len ≤ done + fuel) :
    done + ((cutsFrom off len fuel done).map fun d => (pieceAt off len d).want).sum = len := by
  induction fuel generalizing done with
  | zero => exact Nat.le_antisymm within enough
  | succ fuel ih =>
    by_cases more : done < len
    · obtain ⟨_, forward, _, inside⟩ := pieceAt_spec off more rfl
      rw [cutsFrom_more more, List.map_cons, List.sum_cons, ← Nat.add_assoc]
      exact ih inside (by omega)
    · rw [cutsFrom_end (Nat.not_lt.mp more)]
      simp only [List.map_nil, List.sum_nil]
      omega

theorem cutsFrom_blocks (off : ℕ) (within : done ≤ len) (enough : len ≤ done + fuel)
    (aligned : done = 0 ∨ (off + done) % kBlockSize = 0 ∨ done = len) :
    blocksOf off done ++ (cutsFrom off len fuel done).map (fun d => (pieceAt off len d).blk) =
      blocksOf off len := by
  induction fuel generalizing done with
  | zero =>
    rw [Nat.le_antisymm within enough]
    exact List.append_nil _
  | succ fuel ih =>
    by_cases more : done < len
    · obtain ⟨_, forward, _, inside⟩ := pieceAt_spec off more rfl
      have start : done = 0 ∨ (off + done) % kBlockSize = 0 := by omega
      rw [cutsFrom_more more, List.map_cons, ← List.singleton_append, ← List.append_assoc,
        ← (blocksOf_piece more rfl start).1]
      exact ih inside (by omega) (.inr (pieceAt_aligned off more rfl))
    · rw [Nat.le_antisymm within (Nat.not_lt.mp more), cutsFrom_end (Nat.le_refl _)]
      exact List.append_nil _

/-- A loop that counts as `cutStep` does goes through the cuts, to the end of the range. -/
theorem follows_cuts {σ ρ : Type} (count : σ → ℕ) (body : σ → Except ρ σ) (Inv : σ → Prop)
    (pass : ∀ s, Inv s → count s < len →
      ∃ s', body s = .ok s' ∧ Inv s' ∧ count s' = count s + (pieceAt off len (count s)).want)
    {s : σ} (start : count s = 0) (initial : Inv s) :
    (passes (fun s => count s < len) body len s).map count = cuts off len ∧
      ∃ s', loop (fun s => count s < len) body len s = .ok s' ∧ count s' = len := by
  have same : ∀ (s : σ) (done : ℕ), (Inv s ∧ count s = done) →
      decide (count s < len) = decide (done < len) := fun s done on => by rw [on.2]
  have step : ∀ (s : σ) (done : ℕ), (Inv s ∧ count s = done) → decide (count s < len) = true →
      Matches (fun _ _ => False) (fun s done => Inv s ∧ count s = done) (body s)
        (cutStep off len done) := by
    rintro s done ⟨inv, rfl⟩ more
    obtain ⟨s', eq, inv', next⟩ := pass s inv (of_decide_eq_true more)
    rw [eq]
    exact ⟨inv', next⟩
  constructor
  · rw [← List.map_id (cuts off len)]
    exact passes_matches _ _ _ _ _ _ same step count id (fun s done on _ => on.2) len s 0
      ⟨initial, start⟩
  · have ends := loop_matches _ _ _ _ _ _ same step len s 0 ⟨initial, start⟩
    rw [cutLoop (Nat.zero_le len) (Nat.le_add_left len 0)] at ends
    obtain ⟨s', eq, _, all⟩ := ends.ok
    exact ⟨s', eq, all⟩

end

namespace CacheManager

/-- The states in which the passes of the loop of `read` begin. -/
def readPasses (cfg : Config) (env : Env) (path : Str) (len off : ℕ) (s : ReadState) :
    List ReadState :=
  passes (fun s => s.done < len) (readPass cfg env path len off) len s

def writePasses (cfg : Config) (answers : ℕ → Answer × Answer) (path : Str) (ce : CacheEntry)
    (data : Bytes) (off : ℕ) (s : WriteState) : List WriteState :=
  passes (fun s => s.done < data.size) (writePass cfg answers path ce data off) data.size s

variable {cfg : Config} {env : Env} {m : CacheManager} {path : Str} {d : Digest} {blk : ℕ}

/-- A block that `read` finds, in the store or elsewhere. -/
def Available (cfg : Config) (env : Env) (m : CacheManager) (path : Str) (d : Digest) (blk : ℕ) :
    Prop :=
  (m.blocks cfg).Full kBlockSize d blk ∨ (fetch cfg env.backend m.files path blk).isSome = true

/-- Storing a block takes none away, wherever the copy is. -/
theorem Available.store (available : m.Available cfg env path d blk) {d' : Digest} {blk' : ℕ}
    {data : Bytes} (some : 0 < data.size) (small : data.size ≤ kBlockSize) :
    (m.store cfg d' blk' data).Available cfg env path d blk := by
  rcases available with full | fetched
  · exact .inl (store_full cfg some small full)
  · right
    rw [Option.isSome_iff_ne_none, ne_eq, fetch_eq_none_iff] at fetched ⊢
    have grown := Files.content_grows m.files (cfg.dataPart d' (blk' * kBlockSize / kMaxPartSize))
      (cfg.copy path) data (blk' * kBlockSize % kMaxPartSize) .done
    rintro ⟨silent, short⟩
    exact fetched ⟨silent, grown.trans short⟩

theorem Available.ready {p : Piece} {s : ReadState} {block : Bytes} {mgr : CacheManager}
    (available : s.mgr.Available cfg env path d blk) (ready : Ready cfg env path p s block mgr) :
    mgr.Available cfg env path d blk := by
  cases ready with
  | hit => exact available
  | fill miss got fetched =>
    have small := fetch_small cfg fetched
    exact available.store small.1 small.2

variable {len off : ℕ}

/-- The loop of `read` goes through the cuts of its range as long as it finds the blocks. -/
theorem read_cuts {s : ReadState} (start : s.done = 0)
    (available : ∀ blk ∈ blocksOf off len, s.mgr.Available cfg env path s.ce.hashHex blk) :
    (readPasses cfg env path len off s).map (·.done) = cuts off len ∧
      ∃ s', readLoop cfg env path len off s = .ok s' ∧ s'.done = len := by
  apply follows_cuts (·.done) (readPass cfg env path len off)
    (fun s => ∀ blk ∈ blocksOf off len, s.mgr.Available cfg env path s.ce.hashHex blk)
    ?_ start available
  intro s available more
  rcases readPass_cases cfg env path len off s with ⟨block, mgr, ready, eq⟩ | ⟨miss, none, _⟩
  · refine ⟨_, eq, ?_, rfl⟩
    intro blk inside
    have kept := (available blk inside).ready ready
    simpa only [Available, finish_blocks, finish_files, finish_ce] using kept
  · have inside : (pieceAt off len s.done).blk ∈ blocksOf off len := by
      rw [mem_blocksOf, pieceAt_blk]
      exact ⟨by omega, Nat.div_le_div_right (by omega), Nat.div_le_div_right (by omega)⟩
    rcases available _ inside with full | found
    · exact absurd full miss
    · rw [none] at found
      cases found

/-- The loop of `write` goes through the cuts of its range. -/
theorem write_cuts (cfg : Config) (answers : ℕ → Answer × Answer) (path : Str) (ce : CacheEntry)
    (data : Bytes) (off : ℕ) {s : WriteState} (start : s.done = 0) :
    (writePasses cfg answers path ce data off s).map (·.done) = cuts off data.size ∧
      ∃ s', writeLoop cfg answers path ce data off s = .ok s' ∧ s'.done = data.size := by
  apply follows_cuts (·.done) (writePass cfg answers path ce data off) (fun _ => True) ?_ start
    trivial
  intro s _ more
  exact ⟨_, writePass_eq cfg answers more rfl, trivial, rfl⟩

end CacheManager

end RemoteCache
