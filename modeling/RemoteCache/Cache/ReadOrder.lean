import RemoteCache.Cache.Contents
import RemoteCache.Cache.System

/-!
# The order in which blocks are read

## Main result

`reads_exact_iff`: reads of fixed contents are exact as long as every block is
visited before the higher blocks of its part, or has nothing but zeros.

## Proof strategy

The history of block visits determines the store: a block visited in time holds
its content, a block that a higher block of its part came before is a hole full
of zeros that counts as cached, any other block is absent.
-/
namespace RemoteCache

/-- The block visits of the reads in a run. -/
def visits (trace : Trace) : List (Str × ℕ) :=
  trace.flatMap fun entry =>
    match entry.1 with
    | .read _ path len off => (blocksOf off len).map (path, ·)
    | _ => []

/-- A higher block of the same part was visited before the block was. -/
def Late (seen : List (Str × ℕ)) (path : Str) (blk : ℕ) : Prop :=
  ∃ before c after, seen = before ++ (path, c) :: after ∧ c / kPartBlocks = blk / kPartBlocks ∧
    blk < c ∧ (path, blk) ∉ before

/-! ### Late blocks -/

theorem late_concat {seen : List (Str × ℕ)} {path q : Str} {blk c : ℕ} :
    Late (seen ++ [(q, c)]) path blk ↔
      Late seen path blk ∨ (q = path ∧ c / kPartBlocks = blk / kPartBlocks ∧ blk < c ∧
        (path, blk) ∉ seen) := by
  constructor
  · rintro ⟨before, c', after, split, part, higher, unseen⟩
    rcases List.eq_nil_or_concat after with rfl | ⟨after, last, rfl⟩
    · obtain ⟨rfl, same⟩ := List.append_inj' split rfl
      cases same
      exact .inr ⟨rfl, part, higher, unseen⟩
    · rw [List.concat_eq_append, ← List.cons_append, ← List.append_assoc] at split
      obtain ⟨rfl, _⟩ := List.append_inj' split rfl
      exact .inl ⟨before, c', after, rfl, part, higher, unseen⟩
  · rintro (⟨before, c', after, rfl, rest⟩ | ⟨rfl, rest⟩)
    · exact ⟨before, c', after ++ [(q, c)], by simp, rest⟩
    · exact ⟨seen, c, [], rfl, rest⟩

/-- Visits to lower blocks make no block late. -/
theorem late_append_lower {seen : List (Str × ℕ)} {path : Str} {blk : ℕ} {lower : List ℕ}
    (below : ∀ c ∈ lower, c ≤ blk) :
    Late (seen ++ lower.map (path, ·)) path blk ↔ Late seen path blk := by
  induction lower using List.reverseRecOn with
  | nil => simp
  | append_singleton lower c ih =>
    have last := below c (by simp)
    rw [List.map_append, ← List.append_assoc, List.map_singleton, late_concat,
      ih fun c member => below c (List.mem_append_left _ member)]
    exact or_iff_left fun late => absurd late.2.2.1 (Nat.not_lt.mpr last)

/-- A late block has a higher block of its part among the visits, which makes every lower block
of the part that has not been visited late as well. -/
theorem Late.lower {seen : List (Str × ℕ)} {path : Str} {blk b : ℕ} (late : Late seen path blk)
    (part : blk / kPartBlocks = b / kPartBlocks) (lower : b < blk) (unseen : (path, b) ∉ seen) :
    Late seen path b := by
  obtain ⟨before, c, after, rfl, same, higher, _⟩ := late
  exact ⟨before, c, after, rfl, same.trans part, Nat.lt_trans lower higher,
    fun member => unseen (List.mem_append_left _ member)⟩

theorem late_of_seen {seen : List (Str × ℕ)} {path : Str} {blk b : ℕ} (member : (path, blk) ∈ seen)
    (part : blk / kPartBlocks = b / kPartBlocks) (lower : b < blk) (unseen : (path, b) ∉ seen) :
    Late seen path b := by
  obtain ⟨before, after, rfl⟩ := List.append_of_mem member
  exact ⟨before, blk, after, rfl, part, lower, fun member => unseen (List.mem_append_left _ member)⟩

/-! ### What the visits have left in the store -/

structure Filled (cfg : Config) (names : Str → Prop) (C : Str → Bytes) (seen : List (Str × ℕ))
    (m : CacheManager) : Prop where
  late : ∀ path blk, names path → Late seen path blk →
    m.blocks cfg (cfg.hashHex path) blk = Blob.empty.pad kBlockSize
  timely : ∀ path blk, names path → ¬Late seen path blk → (path, blk) ∈ seen →
    m.blocks cfg (cfg.hashHex path) blk = (C path).slice (blk * kBlockSize) kBlockSize
  absent : ∀ path blk, names path → ¬Late seen path blk → (path, blk) ∉ seen →
    m.blocks cfg (cfg.hashHex path) blk = .empty
  inside : ∀ path blk, (path, blk) ∈ seen → blk * kBlockSize < (C path).size

namespace Filled

variable {cfg : Config} {names : Str → Prop} {C : Str → Bytes} {seen : List (Str × ℕ)}
  {m m' : CacheManager} {path : Str} {blk : ℕ}

theorem of_files (filled : Filled cfg names C seen m) (same : m'.files = m.files) :
    Filled cfg names C seen m' := by
  have blocks : m'.blocks cfg = m.blocks cfg := by simp only [CacheManager.blocks, same]
  exact ⟨by rw [blocks]; exact filled.late, by rw [blocks]; exact filled.timely,
    by rw [blocks]; exact filled.absent, filled.inside⟩

/-- Visiting a block that is whole changes nothing that matters. -/
theorem hit (filled : Filled cfg names C seen m) (name : names path)
    (inside : blk * kBlockSize < (C path).size)
    (full : (m.blocks cfg).Full kBlockSize (cfg.hashHex path) blk) :
    Filled cfg names C (seen ++ [(path, blk)]) m := by
  have known : Late seen path blk ∨ (path, blk) ∈ seen := by
    by_contra unknown
    rw [not_or] at unknown
    rw [BlockMap.Full, filled.absent path blk name unknown.1 unknown.2] at full
    exact absurd full (by decide)
  have same : ∀ q b, Late (seen ++ [(path, blk)]) q b ↔ Late seen q b := by
    intro q b
    rw [late_concat]
    apply or_iff_left_of_imp
    rintro ⟨rfl, part, lower, unseen⟩
    rcases known with late | member
    · exact late.lower part lower unseen
    · exact late_of_seen member part lower unseen
  refine ⟨fun q b name late => filled.late q b name ((same q b).mp late), ?_, ?_, ?_⟩
  · intro q b name timely member
    rw [same] at timely
    rcases List.mem_append.mp member with old | new
    · exact filled.timely q b name timely old
    · cases List.mem_singleton.mp new
      exact filled.timely _ _ name timely (known.resolve_left timely)
  · intro q b name timely unseen
    exact filled.absent q b name ((same q b).not.mp timely)
      fun member => unseen (List.mem_append_left _ member)
  · intro q b member
    rcases List.mem_append.mp member with old | new
    · exact filled.inside q b old
    · cases List.mem_singleton.mp new
      exact inside

/-- Visiting a block that is not whole stores its content and leaves holes below it. -/
theorem fill (filled : Filled cfg names C seen m)
    (distinct : ∀ p q, names p → names q → cfg.hash p = cfg.hash q → p = q) (name : names path)
    (inside : blk * kBlockSize < (C path).size)
    (miss : ¬(m.blocks cfg).Full kBlockSize (cfg.hashHex path) blk) :
    Filled cfg names C (seen ++ [(path, blk)])
      (m.store cfg (cfg.hashHex path) blk ((C path).slice (blk * kBlockSize) kBlockSize)) := by
  have timely : ¬Late seen path blk := by
    intro late
    apply miss
    rw [BlockMap.Full, filled.late path blk name late]
    rfl
  have some : 0 < ((C path).slice (blk * kBlockSize) kBlockSize).size :=
    Blob.size_slice_pos _ (by decide) inside
  generalize stored : m.store cfg (cfg.hashHex path) blk
    ((C path).slice (blk * kBlockSize) kBlockSize) = m'
  have put := CacheManager.blocks_store cfg m (cfg.hashHex path) blk some (by simp)
  rw [stored] at put
  have other : ∀ q b, names q → q ≠ path →
      m'.blocks cfg (cfg.hashHex q) b = m.blocks cfg (cfg.hashHex q) b := by
    intro q b named apart
    rw [put, BlockMap.put_key_ne]
    exact fun same => apart (distinct q path named name (Digest.ofHash_injective same))
  have own := BlockMap.put_cases kBlockSize kPartBlocks (m.blocks cfg) (cfg.hashHex path) blk
    ((C path).slice (blk * kBlockSize) kBlockSize)
  rw [← put] at own
  refine ⟨fun q b named late => ?_, fun q b named prompt member => ?_,
    fun q b named prompt unseen => ?_, fun q b member => ?_⟩
  · by_cases here : q = path
    · subst here
      rcases own b with ⟨rfl, _⟩ | ⟨below, eq⟩ | ⟨apart, eq⟩
      · exact absurd ((late_concat.mp late).resolve_right (by simp)) timely
      · rw [eq]
        by_cases old : Late seen q b
        · rw [filled.late q b named old]
          exact Blob.pad_self _
        · obtain ⟨_, _, _, unseen⟩ := (late_concat.mp late).resolve_left old
          rw [filled.absent q b named old unseen]
      · rw [eq]
        refine filled.late q b named ((late_concat.mp late).resolve_right fun new => ?_)
        exact apart.2 ⟨new.2.2.1, new.2.1.symm⟩
    · rw [other q b named here]
      exact filled.late q b named ((late_concat.mp late).resolve_right fun new => here new.1.symm)
  · rw [late_concat, not_or] at prompt
    by_cases here : q = path
    · subst here
      rcases own b with ⟨rfl, eq⟩ | ⟨below, eq⟩ | ⟨apart, eq⟩
      · rw [eq]
        by_cases old : (q, b) ∈ seen
        · rw [filled.timely q b named prompt.1 old, Blob.write_zero_eq _ _ (Nat.le_refl _)]
        · rw [filled.absent q b named prompt.1 old, Blob.write_zero_eq _ _ (by simp)]
      · -- A block below that was visited in time is whole: filling it up changes nothing.
        have whole : ((C q).slice (b * kBlockSize) kBlockSize).size = kBlockSize :=
          Blob.size_slice_inside _ (by simp only [kBlockSize] at inside ⊢; omega)
        have full := Blob.pad_self ((C q).slice (b * kBlockSize) kBlockSize)
        rw [whole] at full
        rw [eq, filled.timely q b named prompt.1
          (by simpa [Nat.ne_of_lt below.1] using member), full]
      · rw [eq, filled.timely q b named prompt.1 (by simpa [apart.1] using member)]
    · rw [other q b named here]
      exact filled.timely q b named prompt.1 (by simpa [here] using member)
  · rw [late_concat, not_or] at prompt
    have old : (q, b) ∉ seen := fun member => unseen (List.mem_append_left _ member)
    rw [← filled.absent q b named prompt.1 old]
    by_cases here : q = path
    · subst here
      rcases own b with ⟨rfl, _⟩ | ⟨below, _⟩ | ⟨_, eq⟩
      · exact absurd (List.mem_append_right _ List.mem_cons_self) unseen
      · exact absurd ⟨rfl, below.2.symm, below.1, old⟩ prompt.2
      · exact eq
    · exact other q b named here
  · rcases List.mem_append.mp member with old | new
    · exact filled.inside q b old
    · cases List.mem_singleton.mp new
      exact inside

/-- Nothing has been read and no part file exists. -/
theorem nothing {files : Files} (empty : ∀ d k, files (cfg.dataPart d k) = none) :
    Filled cfg names C [] (CacheManager.new files) := by
  refine ⟨?_, by simp, fun path blk _ _ _ => BlockStore.blocks_empty cfg empty _ _, by simp⟩
  rintro path blk _ ⟨before, c, after, split, _⟩
  simp at split

/-- The buffer of a pass holds zeros where the block came late, and the content elsewhere. -/
theorem ready_bytes {env : Env} {p : Piece} {s : CacheManager.ReadState} {block : Bytes}
    {mgr : CacheManager} (filled : Filled cfg names C seen s.mgr) (serves : env.backend.Serves C)
    (name : names path) (keyed : s.ce.hashHex = cfg.hashHex path)
    (start : p.blk * kBlockSize < (C path).size)
    (ready : CacheManager.Ready cfg env path p s block mgr) :
    (Late seen path p.blk → ∀ j, block.get j = 0) ∧
      (¬Late seen path p.blk → ∀ j < kBlockSize, p.blk * kBlockSize + j < (C path).size →
        block.get j = (C path).get (p.blk * kBlockSize + j)) := by
  cases ready with
  | hit full =>
    rw [keyed] at full ⊢
    refine ⟨fun late j => ?_, fun timely j small _ => ?_⟩
    · rw [filled.late path _ name late, Blob.get_pad, Blob.get_empty, ite_self]
    · by_cases member : (path, p.blk) ∈ seen
      · rw [filled.timely path _ name timely member, Blob.get_slice, if_pos small]
      · rw [BlockMap.Full, filled.absent path _ name timely member] at full
        exact absurd full (by decide)
  | fill miss got fetched =>
    rw [serves.fetch cfg s.mgr.files start] at fetched
    cases fetched
    refine ⟨fun late => absurd ?_ miss, fun _ j small below => ?_⟩
    · rw [keyed, BlockMap.Full, filled.late path _ name late]
      rfl
    · rw [Blob.get_write_zero _ _ (Blob.lt_size_slice _ small below), Blob.get_slice, if_pos small]

theorem visit {env : Env} {p : Piece} {s : CacheManager.ReadState} {block : Bytes}
    {mgr : CacheManager} (filled : Filled cfg names C seen s.mgr)
    (distinct : ∀ p q, names p → names q → cfg.hash p = cfg.hash q → p = q)
    (serves : env.backend.Serves C) (name : names path) (keyed : s.ce.hashHex = cfg.hashHex path)
    (start : p.blk * kBlockSize < (C path).size)
    (ready : CacheManager.Ready cfg env path p s block mgr) :
    Filled cfg names C (seen ++ [(path, p.blk)]) mgr := by
  cases ready with
  | hit full => exact filled.hit name start (keyed ▸ full)
  | fill miss got fetched =>
    rw [serves.fetch cfg s.mgr.files start] at fetched
    cases fetched
    exact keyed ▸ filled.fill distinct name start (keyed ▸ miss)

end Filled

/-! ### One call -/

/-- A demand read inside the fixed content of one of the named paths. -/
def Event.ReadsInside (names : Str → Prop) (C : Str → Bytes) : Event → Prop
  | .read env path len off =>
    names path ∧ env.backend.Serves C ∧ off + len ≤ (C path).size
  | _ => False

namespace CacheManager

variable {cfg : Config} {names : Str → Prop} {C : Str → Bytes} {seen : List (Str × ℕ)}
  {m : CacheManager} {path : Str}

/-- What a read of fixed contents has done when it has reached `done`. -/
private structure Reading (cfg : Config) (names : Str → Prop) (C : Str → Bytes)
    (seen : List (Str × ℕ)) (path : Str) (len off : ℕ) (s : ReadState) : Prop where
  filled : Filled cfg names C (seen ++ (blocksOf off s.done).map (path, ·)) s.mgr
  keyed : s.ce.hashHex = cfg.hashHex path
  within : s.done ≤ len
  size : s.buf.size = s.done
  aligned : s.done = 0 ∨ (off + s.done) % kBlockSize = 0 ∨ s.done = len
  holes : ∀ i < s.done, Late seen path ((off + i) / kBlockSize) → s.buf.get i = 0
  bytes : ∀ i < s.done, ¬Late seen path ((off + i) / kBlockSize) →
    s.buf.get i = (C path).get (off + i)

/-- A read inside the content visits its blocks in order, never stops early, and returns the
content except for the blocks that were visited late. -/
theorem read_filled (filled : Filled cfg names C seen m)
    (distinct : ∀ p q, names p → names q → cfg.hash p = cfg.hash q → p = q) {env : Env}
    (serves : env.backend.Serves C) (name : names path)
    (live : Live cfg path (m.entry cfg path).2) {len off : ℕ}
    (inside : off + len ≤ (C path).size) :
    let r := m.read cfg env path len off
    Filled cfg names C (seen ++ (blocksOf off len).map (path, ·)) r.1 ∧ r.2.count = len ∧
      r.2.buf.size = len ∧
      (∀ i < len, Late seen path ((off + i) / kBlockSize) → r.2.buf.get i = 0) ∧
      (∀ i < len, ¬Late seen path ((off + i) / kBlockSize) →
        r.2.buf.get i = (C path).get (off + i)) := by
  refine read_rule cfg (Reading cfg names C seen path len off)
    (fun m' r => Filled cfg names C (seen ++ (blocksOf off len).map (path, ·)) m' ∧
      r.count = len ∧ r.buf.size = len ∧
      (∀ i < len, Late seen path ((off + i) / kBlockSize) → r.buf.get i = 0) ∧
      (∀ i < len, ¬Late seen path ((off + i) / kBlockSize) →
        r.buf.get i = (C path).get (off + i)))
    live.2.2 ?_ ?_ ?_ ?_
  · refine ⟨?_, live.2.1, Nat.zero_le _, rfl, .inl rfl, by simp, by simp⟩
    simpa [blocksOf] using filled.of_files (entry_files cfg m path)
  · intro s p block mgr inv more piece ready
    obtain ⟨place, forward, fits, within⟩ := pieceAt_spec off more piece
    have start : p.blk * kBlockSize < (C path).size := by omega
    obtain ⟨next, below⟩ := blocksOf_piece more piece
      (by rcases inv.aligned with none | edge | all <;> omega)
    have timely : Late (seen ++ (blocksOf off s.done).map (path, ·)) path p.blk ↔
        Late seen path p.blk := late_append_lower fun c member => Nat.le_of_lt (below c member)
    have bytes := inv.filled.ready_bytes serves name inv.keyed start ready
    rw [timely] at bytes
    refine ⟨?_, inv.keyed, within, ?_, ?_, fun i early late => ?_, fun i early prompt => ?_⟩
    · rw [finish_done, next, List.map_append, ← List.append_assoc]
      exact (inv.filled.visit distinct serves name inv.keyed start ready).of_files
        (finish_files _ _ _ _)
    · exact finish_size path ready.size fits inv.size
    · exact .inr (pieceAt_aligned off more piece)
    · simp only [finish_get ready.size fits]
      simp only [finish_done] at early
      split
      next here =>
        rw [(pieceAt_byte off more piece here.1 here.2).1] at late
        exact bytes.1 late _
      next old => exact inv.holes i (by omega) late
    · simp only [finish_get ready.size fits]
      simp only [finish_done] at early
      split
      next here =>
        rw [(pieceAt_byte off more piece here.1 here.2).1] at prompt
        have same : p.blk * kBlockSize + (p.inBlock + (i - s.done)) = off + i := by omega
        rw [bytes.2 prompt _ (by omega) (by omega), same]
      next old => exact inv.bytes i (by omega) prompt
  · intro s p inv more piece _ none
    have := (pieceAt_spec off more piece).1
    rw [serves.fetch cfg s.mgr.files (by omega)] at none
    cases none
  · intro s inv all
    have whole : s.done = len := Nat.le_antisymm inv.within all
    refine ⟨whole ▸ inv.filled, by simp only [whole], whole ▸ inv.size, ?_, ?_⟩
    · exact fun i early => inv.holes i (whole ▸ early)
    · exact fun i early => inv.bytes i (whole ▸ early)

/-! ### Whole runs -/

theorem run_filled {files : Files} (empty : ∀ d k, files (cfg.dataPart d k) = none)
    (distinct : ∀ p q, names p → names q → cfg.hash p = cfg.hash q → p = q) {trace : Trace}
    (run : Run (Steps cfg) (new files) trace m)
    (reads : ∀ entry ∈ trace, entry.1.ReadsInside names C) :
    EachEntry (Live cfg) m ∧ Filled cfg names C (visits trace) m := by
  induction run with
  | refl => exact ⟨each_new _ files, Filled.nothing empty⟩
  | @next m m' trace e o before taken ih =>
    obtain ⟨each, filled⟩ := ih fun entry member => reads entry (List.mem_append_left _ member)
    have call := reads (e, o) (List.mem_append_right _ List.mem_cons_self)
    cases e with
    | read env path len off =>
      cases taken
      obtain ⟨name, serves, inside⟩ := call
      refine ⟨each.read cfg (settled_live cfg path) env len off, ?_⟩
      have live := (each.entry cfg (settled_live cfg path)).2
      simpa [visits] using (read_filled filled distinct serves name live inside).1
    | write => exact call.elim
    | prefetch => exact call.elim
    | evict => exact call.elim

/-- In every run of reads inside fixed contents, all reads are exact if and only if every byte
read comes from a block that no higher block of its part was visited before, or is zero. -/
theorem reads_exact_iff (cfg : Config) (names : Str → Prop) (C : Str → Bytes) (files : Files)
    (empty : ∀ d k, files (cfg.dataPart d k) = none)
    (distinct : ∀ p q, names p → names q → cfg.hash p = cfg.hash q → p = q) (trace : Trace)
    (m : CacheManager) (run : Run (Steps cfg) (new files) trace m)
    (reads : ∀ entry ∈ trace, entry.1.ReadsInside names C) :
    (∀ before env path len off r after,
      trace = before ++ (.read env path len off, .read r) :: after → Exact C path len off r) ↔
    (∀ before env path len off r after,
      trace = before ++ (.read env path len off, .read r) :: after →
      ∀ x, off ≤ x → x < off + len → Late (visits before) path (x / kBlockSize) →
        (C path).get x = 0) := by
  refine forall_congr' fun before => forall_congr' fun env => forall_congr' fun path =>
    forall_congr' fun len => forall_congr' fun off => forall_congr' fun r =>
    forall_congr' fun after => forall_congr' fun split => ?_
  subst split
  obtain ⟨s, t, first, taken, _⟩ := run.step_at
  obtain ⟨each, filled⟩ := run_filled empty distinct first
    fun entry member => reads entry (List.mem_append_left _ member)
  obtain ⟨name, serves, inside⟩ := reads _ (List.mem_append_right _ List.mem_cons_self)
  have live := (each.entry cfg (settled_live cfg path)).2
  obtain ⟨_, count, size, holes, bytes⟩ := read_filled filled distinct serves name live inside
  cases taken
  refine ⟨fun exact x above below late => ?_, fun zero => ⟨count, ?_⟩⟩
  · have hole := holes (x - off) (by omega) (by rwa [Nat.add_sub_cancel' above])
    rw [exact.2, Blob.get_slice, if_pos (by omega), Nat.add_sub_cancel' above] at hole
    exact hole
  · refine Blob.eq_of_get (by simp only [size, Blob.size_slice]; omega) fun i small => ?_
    rw [size] at small
    rw [Blob.get_slice, if_pos small]
    by_cases late : Late (visits before) path ((off + i) / kBlockSize)
    · rw [holes i small late, zero (off + i) (by omega) (by omega) late]
    · exact bytes i small late

theorem reads_exact_iff_ascending :
    let first := (new fun _ => none).read .sample (.serving threeBlocks) ['/', 'f']
      (kBlockSize + 1) 0
    let trace : Trace :=
      [] ++ [(.read (.serving threeBlocks) ['/', 'f'] (kBlockSize + 1) 0, .read first.2)]
    (∀ before env path len off r after,
      trace = before ++ (.read env path len off, .read r) :: after →
      Exact threeBlocks path len off r) ↔
    (∀ before env path len off r after,
      trace = before ++ (.read env path len off, .read r) :: after →
      ∀ x, off ≤ x → x < off + len → Late (visits before) path (x / kBlockSize) →
        (threeBlocks path).get x = 0) :=
  reads_exact_iff .sample (· = ['/', 'f']) threeBlocks (fun _ => none) (fun _ _ => rfl)
    (fun _ _ first second _ => first.trans second.symm) _ _ (.next (.refl _) rfl)
    (by
      intro entry member
      cases List.mem_singleton.mp member
      exact ⟨rfl, fun _ _ _ => rfl, by decide⟩)

private theorem second_read_hole :
    (((new fun _ => none).read .sample (.serving threeBlocks) ['/', 'f'] 1 kBlockSize).1.read
      .sample (.serving threeBlocks) ['/', 'f'] 1 0).2.buf.get 0 = 0 := by
  decide +kernel

/-- Block 1 and then block 0: the second read returns the hole that the first one left. -/
theorem descending_read_not_exact :
    ¬∀ (trace : Trace) (m : CacheManager), Run (Steps .sample) (new fun _ => none) trace m →
      (∀ entry ∈ trace, entry.1.ReadsInside (· = ['/', 'f']) threeBlocks) →
      ∀ before env path len off r after,
        trace = before ++ (.read env path len off, .read r) :: after →
        Exact threeBlocks path len off r := by
  intro all
  have exact := all _ _
    (.next (.next (.refl _) (steps_read _ _ (.serving threeBlocks) ['/', 'f'] 1 kBlockSize))
      (steps_read _ _ (.serving threeBlocks) ['/', 'f'] 1 0))
    (by
      intro entry member
      rcases List.mem_append.mp member with first | second
      · cases List.mem_singleton.mp first
        exact ⟨rfl, fun _ _ _ => rfl, by decide⟩
      · cases List.mem_singleton.mp second
        exact ⟨rfl, fun _ _ _ => rfl, by decide⟩)
    ([] ++ [(.read (.serving threeBlocks) ['/', 'f'] 1 kBlockSize, _)]) (.serving threeBlocks)
    ['/', 'f'] 1 0 _ [] rfl
  have hole := second_read_hole
  rw [exact.2] at hole
  exact absurd hole (by decide)

end CacheManager

end RemoteCache
