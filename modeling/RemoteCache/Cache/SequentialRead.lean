import RemoteCache.Cache.Contents
import RemoteCache.Cache.Machine

/-!
# Sequential reading under prefetch

## Main result

`sequential_read_exact`: a client that never skips a block reads the file
exactly, whatever the prefetch jobs do in the meantime.

## Proof strategy

The store always holds the first `m` blocks of the file and nothing else. The
reader and every job, queued or running, are at a block of index at most `m`
or, for jobs, past the end of the file; so each store either repeats a block
that is there or adds block `m`, and no hole comes into being.
-/
namespace RemoteCache

open FsLayout

/-! ### The client -/

/-- How many blocks there are up to the highest one of the range. -/
def blocksUpTo (off len : ℕ) : ℕ := if len = 0 then 0 else (off + len - 1) / kBlockSize + 1

/-- The steps that a demand read has yet to make, at most. -/
def Reader.rest (r : Reader) : ℕ :=
  3 * (r.len - r.done) +
    match r.phase with
    | .probe => 2
    | .fetch _ => 1
    | .store _ _ => 0

namespace Machine

/-- The number of blocks up to the highest one demanded so far. -/
def demanded (history : List (Label × Reply)) : ℕ :=
  history.foldl (fun most entry =>
    match entry.1 with
    | .call _ len off => max most (blocksUpTo off len)
    | _ => most) 0

/-- Demand reads of one file inside its content, in steps, and steps of prefetch jobs. -/
def ReadsFile (C : Str → Bytes) (path : Str) : Label → Prop
  | .read _ _ _ _ => False
  | .write _ _ _ => False
  | .call path' len off => path' = path ∧ off + len ≤ (C path).size
  | .demand env => env.backend.Serves C
  | .start _ => True
  | .job _ backend => backend.Serves C

/-- Each read starts at most one block past the highest block demanded before it. -/
def NoSkip (history : List (Label × Reply)) : Prop :=
  ∀ before path len off o after, history = before ++ (.call path len off, o) :: after →
    0 < len → off / kBlockSize ≤ demanded before

/-! ### The invariant -/

/-- The object of the path consists of its first `m` blocks. -/
structure Prefix (cfg : Config) (C : Str → Bytes) (path : Str) (m : ℕ) (mgr : CacheManager) :
    Prop where
  stored : ∀ b, mgr.blocks cfg (cfg.hashHex path) b =
    if b < m then (C path).slice (b * kBlockSize) kBlockSize else .empty
  inside : ∀ b < m, b * kBlockSize < (C path).size

/-- A block that can be stored next to the first `m` blocks, or that does not exist. -/
def Ahead (C : Str → Bytes) (path : Str) (m blk : ℕ) : Prop :=
  blk ≤ m ∨ (C path).size ≤ blk * kBlockSize

/-- A job in its pass: a block it is about to store comes from the file. -/
structure JobSound (C : Str → Bytes) (path : Str) (m : ℕ) (f : Flight) : Prop where
  ahead : Ahead C path m f.blk
  fetched : ∀ got, f.phase = .store got → f.blk * kBlockSize < (C path).size ∧
    got = (C path).slice (f.blk * kBlockSize) kBlockSize

/-- What the block buffer of a demand read holds in each step of a pass. -/
def PhaseSound (C : Str → Bytes) (path : Str) (blk : ℕ) : ReadPhase → Prop
  | .probe => True
  | .fetch block => block.size = kBlockSize
  | .store block got => block.size = kBlockSize ∧
      got = (C path).slice (blk * kBlockSize) kBlockSize ∧ ∀ j < got.size, block.get j = got.get j

structure ReaderSound (C : Str → Bytes) (path : Str) (m : ℕ) (r : Reader) : Prop where
  file : r.path = path
  inside : r.off + r.len ≤ (C path).size
  within : r.done ≤ r.len
  size : r.buf.size = r.done
  bytes : ∀ i < r.done, r.buf.get i = (C path).get (r.off + i)
  next : r.done < r.len → (pieceAt r.off r.len r.done).blk ≤ m ∧
    PhaseSound C path (pieceAt r.off r.len r.done).blk r.phase
  whole : r.done = r.len → blocksUpTo r.off r.len ≤ m

structure Sequential (cfg : Config) (C : Str → Bytes) (path : Str)
    (history : List (Label × Reply)) (s : Machine) (m : ℕ) : Prop where
  each : EachEntry (fun p ce => p = path ∧ CacheManager.Live cfg p ce) s
  store : Prefix cfg C path m s.mgr
  queued : ∀ job ∈ s.mgr.tasks, job.firstBlk ≤ m
  flying : ∀ f ∈ s.flights, JobSound C path m f
  idle : s.reader = none → demanded history ≤ m
  reading : ∀ r, s.reader = some r → ReaderSound C path m r ∧
    demanded history ≤ max m (blocksUpTo r.off r.len)

variable {cfg : Config} {C : Str → Bytes} {path : Str} {m m' : ℕ} {mgr : CacheManager}

theorem Ahead.mono {blk : ℕ} (ahead : Ahead C path m blk) (more : m ≤ m') :
    Ahead C path m' blk := ahead.imp (fun near => Nat.le_trans near more) id

theorem JobSound.mono {f : Flight} (sound : JobSound C path m f) (more : m ≤ m') :
    JobSound C path m' f := ⟨sound.ahead.mono more, sound.fetched⟩

theorem ReaderSound.mono {r : Reader} (sound : ReaderSound C path m r) (more : m ≤ m') :
    ReaderSound C path m' r :=
  { sound with
    next := fun unfinished =>
      ⟨Nat.le_trans (sound.next unfinished).1 more, (sound.next unfinished).2⟩
    whole := fun all => Nat.le_trans (sound.whole all) more }

theorem Prefix.of_files {mgr' : CacheManager} (pre : Prefix cfg C path m mgr)
    (same : mgr'.files = mgr.files) : Prefix cfg C path m mgr' := by
  refine ⟨fun b => ?_, pre.inside⟩
  rw [CacheManager.blocks, same]
  exact pre.stored b

/-- A block counts as cached only if it is among the first `m`. -/
theorem Prefix.of_full (pre : Prefix cfg C path m mgr) {b : ℕ}
    (full : (mgr.blocks cfg).Full kBlockSize (cfg.hashHex path) b) :
    b < m ∧ mgr.blocks cfg (cfg.hashHex path) b = (C path).slice (b * kBlockSize) kBlockSize := by
  have stored := pre.stored b
  split at stored
  next near => exact ⟨near, stored⟩
  · rw [BlockMap.Full, stored] at full
    exact absurd full (by decide)

/-- Storing a block of the file next to the first `m` blocks leaves a prefix of the file. -/
theorem Prefix.put (pre : Prefix cfg C path m mgr) {b : ℕ} (near : b ≤ m)
    (inside : b * kBlockSize < (C path).size) :
    Prefix cfg C path (max m (b + 1))
      (mgr.store cfg (cfg.hashHex path) b ((C path).slice (b * kBlockSize) kBlockSize)) := by
  have some : 0 < ((C path).slice (b * kBlockSize) kBlockSize).size :=
    Blob.size_slice_pos _ (by decide) inside
  refine ⟨fun b' => ?_, fun b' below => ?_⟩
  · rw [CacheManager.blocks_store cfg mgr _ b some (by simp)]
    rcases BlockMap.put_cases kBlockSize kPartBlocks (mgr.blocks cfg) (cfg.hashHex path) b
      ((C path).slice (b * kBlockSize) kBlockSize) b' with
      ⟨rfl, eq⟩ | ⟨below, eq⟩ | ⟨apart, eq⟩
    -- The block itself: what was there of it is the same content.
    · have here : b' < max m (b' + 1) := by omega
      rw [eq, pre.stored, if_pos here]
      apply Blob.write_zero_eq _ _
      split
      · exact Nat.le_refl _
      · exact Nat.zero_le _
    -- A lower block is whole, so filling it up changes nothing.
    · have whole : ((C path).slice (b' * kBlockSize) kBlockSize).size = kBlockSize :=
        Blob.size_slice_inside _ (by simp only [kBlockSize] at inside ⊢; omega)
      have same := Blob.pad_self ((C path).slice (b' * kBlockSize) kBlockSize)
      rw [whole] at same
      rw [eq, pre.stored, if_pos (by omega), if_pos (by omega), same]
    · rw [eq, pre.stored]
      have same : b' < max m (b + 1) ↔ b' < m := by omega
      simp only [same]
  · by_cases old : b' < m
    · exact pre.inside b' old
    · obtain rfl : b' = b := by omega
      exact inside

/-! ### Steps -/

/-- A step of a job keeps the store a prefix, which it may extend by one block. -/
theorem jobStep_sound (pre : Prefix cfg C path m mgr) {f : Flight} (sound : JobSound C path m f)
    (file : f.job.ce.path = path) (keyed : f.job.ce.hashHex = cfg.hashHex path)
    {backend : Backend} (serves : backend.Serves C) :
    ∃ m', m ≤ m' ∧ Prefix cfg C path m' (jobStep cfg backend mgr f).1 ∧
      ∀ g ∈ (jobStep cfg backend mgr f).2, JobSound C path m' g := by
  have next : ∀ {n g}, Ahead C path n (f.blk + 1) → g ∈ f.next → JobSound C path n g := by
    intro n g ahead member
    rw [(mem_next member).1]
    exact ⟨ahead, by rintro got ⟨⟩⟩
  have past : ∀ {b}, (C path).size ≤ b * kBlockSize → (C path).size ≤ (b + 1) * kBlockSize :=
    fun past => Nat.le_trans past (Nat.mul_le_mul_right _ (Nat.le_succ _))
  rcases jobStep_cases cfg backend mgr f with ⟨_, full, eq⟩ | ⟨_, _, eq⟩ | ⟨_, reply, eq⟩ |
    ⟨got, _, reply, eq⟩ | ⟨got, phase, eq⟩ <;> rw [eq]
  · rw [keyed] at full
    exact ⟨m, Nat.le_refl m, pre, fun g => next (.inl (pre.of_full full).1)⟩
  · refine ⟨m, Nat.le_refl m, pre, fun g member => ?_⟩
    rw [List.mem_singleton.mp member]
    exact ⟨sound.ahead, by rintro got ⟨⟩⟩
  · refine ⟨m, Nat.le_refl m, pre, fun g => next (.inr (past ?_))⟩
    -- A backend with the content answers for a block inside it.
    by_contra inside
    rw [file, serves.block (Nat.not_le.mp inside)] at reply
    cases reply
  · refine ⟨m, Nat.le_refl m, pre, fun g member => ?_⟩
    rw [List.mem_singleton.mp member]
    refine ⟨sound.ahead, ?_⟩
    rintro _ ⟨⟩
    by_cases inside : f.blk * kBlockSize < (C path).size
    · rw [file, serves.block inside] at reply
      cases reply
      exact ⟨inside, rfl⟩
    · rw [file, serves.past (Nat.not_lt.mp inside)] at reply
      cases reply
  -- Only a store extends the prefix, and it is next to it.
  · obtain ⟨inside, rfl⟩ := sound.fetched got phase
    have near := sound.ahead.resolve_right (Nat.not_le.mpr inside)
    rw [keyed]
    exact ⟨_, Nat.le_max_left _ _, (pre.put near inside).of_files rfl,
      fun g => next (.inl (Nat.le_max_right _ _))⟩

/-- The end of a pass, once the block of the piece is among the first `m`. -/
theorem finishPass_sound (pre : Prefix cfg C path m mgr) {r : Reader}
    (sound : ReaderSound C path m r) (more : r.done < r.len) {p : Piece}
    (piece : pieceAt r.off r.len r.done = p) {block : Bytes} (size : block.size = kBlockSize)
    (bytes : ∀ j < kBlockSize, p.blk * kBlockSize + j < (C path).size →
      block.get j = (C path).get (p.blk * kBlockSize + j)) (near : p.blk < m) :
    let s := CacheManager.finish r.path p block ⟨mgr, r.ce, r.done, r.buf⟩
    Prefix cfg C path m s.mgr ∧ ReaderSound C path m (r.after s) ∧ (r.after s).rest + 1 ≤ r.rest ∧
      ∀ job ∈ s.mgr.tasks, job ∈ mgr.tasks ∨ job.firstBlk ≤ m := by
  obtain ⟨place, forward, fits, within⟩ := pieceAt_spec r.off more piece
  have inside := sound.inside
  refine ⟨pre.of_files (CacheManager.finish_files _ _ _ _),
    ⟨sound.file, inside, within, ?_, fun i early => ?_, fun unfinished => ⟨?_, trivial⟩,
      fun all => ?_⟩, ?_, fun job member => ?_⟩
  · exact CacheManager.finish_size r.path size fits sound.size
  · simp only [Reader.after, CacheManager.finish_done] at early
    simp only [Reader.after, CacheManager.finish_get size fits]
    split
    next here =>
      have same : p.blk * kBlockSize + (p.inBlock + (i - r.done)) = r.off + i := by omega
      rw [bytes _ (by omega) (by omega), same]
    next old => exact sound.bytes i (by omega)
  · simp only [Reader.after, CacheManager.finish_done] at unfinished ⊢
    rw [pieceAt_blk]
    -- The next piece is in the next block, or there is none.
    rcases pieceAt_ends r.off more piece with edge | all
    · unfold kBlockSize at *
      omega
    · omega
  · simp only [Reader.after, CacheManager.finish_done] at all ⊢
    unfold blocksUpTo kBlockSize at *
    split <;> omega
  · simp only [Reader.rest, Reader.after, CacheManager.finish_done]
    omega
  · rcases CacheManager.finish_tasks _ _ _ _ member with old | ⟨_, first⟩
    · exact .inl old
    · exact .inr (first ▸ near)

/-- A step of a demand read returns the exact range, or brings the read closer to its end. -/
theorem demandStep_sound (pre : Prefix cfg C path m mgr) {r : Reader}
    (sound : ReaderSound C path m r) (keyed : r.ce.hashHex = cfg.hashHex path) {env : Env}
    (serves : env.backend.Serves C) :
    (∃ result, demandStep cfg env mgr r = (mgr, .error result) ∧
      Exact C path r.len r.off result ∧ r.done = r.len) ∨
    ∃ m' mgr' r', demandStep cfg env mgr r = (mgr', .ok r') ∧ m ≤ m' ∧
      Prefix cfg C path m' mgr' ∧ ReaderSound C path m' r' ∧ r'.len = r.len ∧ r'.off = r.off ∧
      r'.rest < r.rest ∧ ∀ job ∈ mgr'.tasks, job ∈ mgr.tasks ∨ job.firstBlk ≤ m' := by
  have reach := sound.inside
  by_cases more : r.done < r.len
  · refine .inr ?_
    obtain ⟨p, piece⟩ : ∃ p, pieceAt r.off r.len r.done = p := ⟨_, rfl⟩
    obtain ⟨near, phaseSound⟩ := sound.next more
    have place := (pieceAt_spec r.off more piece).1
    rw [piece] at near phaseSound
    have inside : p.blk * kBlockSize < (C path).size := by omega
    simp only [demandStep, if_pos more, piece]
    cases phase : r.phase with
    | probe =>
      simp only [CacheManager.probe_blocks, keyed]
      -- A whole block is among the first `m`, so it has the file's bytes.
      by_cases full : (mgr.blocks cfg).Full kBlockSize (cfg.hashHex path) p.blk
      · obtain ⟨below, stored⟩ := pre.of_full full
        obtain ⟨pre', sound', closer, tasks⟩ := finishPass_sound pre sound more piece full
          (fun j small _ => by rw [stored, Blob.get_slice, if_pos small]) below
        refine ⟨m, _, _, ?_, Nat.le_refl m, pre', sound', rfl, rfl, closer, tasks⟩
        rw [if_pos (by simpa using full), write_full (Blob.size_ofFn _ _) full]
        rfl
      · refine ⟨m, mgr, _, if_neg (by simpa using full), Nat.le_refl m, pre,
          { sound with next := fun _ => ⟨by rwa [piece], ?_⟩ }, rfl, rfl, ?_, fun job => .inl⟩
        · have small := CacheManager.blocks_fits cfg mgr (cfg.hashHex path) p.blk
          exact Blob.size_write_within _ _ _ (by simpa using small)
        · simp only [Reader.rest, phase]
          omega
    | fetch block =>
      rw [phase] at phaseSound
      have size : block.size = kBlockSize := phaseSound
      have fetched : fetch cfg env.backend mgr.files r.path p.blk =
          some ((C path).slice (p.blk * kBlockSize) kBlockSize) := by
        rw [sound.file]
        exact serves.fetch cfg mgr.files inside
      simp only [fetched]
      refine ⟨m, mgr, _, rfl, Nat.le_refl m, pre,
        { sound with next := fun _ => ⟨by rwa [piece], ?_, by rw [piece], fun j small => ?_⟩ },
        rfl, rfl, ?_, fun job => .inl⟩
      · have fits : ((C path).slice (p.blk * kBlockSize) kBlockSize).size ≤ kBlockSize := by
          rw [Blob.size_slice]
          exact Nat.min_le_left _ _
        rw [Blob.size_write_within _ _ _ (by rwa [Nat.zero_add, size]), size]
      · exact Blob.get_write_zero _ _ small
      · simp only [Reader.rest, phase]
        omega
    | store block got =>
      rw [phase] at phaseSound
      -- The block was fetched before other steps came in between, but from a fixed content.
      obtain ⟨size, rfl, bytes⟩ := phaseSound
      have more' := Nat.le_max_left m (p.blk + 1)
      rw [keyed]
      obtain ⟨pre', sound', closer, tasks⟩ := finishPass_sound (pre.put near inside)
        (sound.mono more') more piece size
        (fun j small below => by
          rw [bytes j (Blob.lt_size_slice _ small below), Blob.get_slice, if_pos small])
        (Nat.lt_of_lt_of_le (Nat.lt_succ_self _) (Nat.le_max_right _ _))
      exact ⟨_, _, _, rfl, more', pre', sound', rfl, rfl, closer, tasks⟩
  · have all : r.done = r.len := Nat.le_antisymm sound.within (Nat.not_lt.mp more)
    refine .inl ⟨_, if_neg more, ⟨by rw [all], ?_⟩, all⟩
    refine Blob.eq_of_get (by simp only [sound.size, Blob.size_slice]; omega) fun i small => ?_
    rw [sound.size] at small
    rw [sound.bytes i small, Blob.get_slice, if_pos (by omega)]

/-! ### Runs -/

theorem demanded_concat (history : List (Label × Reply)) (l : Label) (o : Reply) :
    demanded (history ++ [(l, o)]) =
      match l with
      | .call _ len off => max (demanded history) (blocksUpTo off len)
      | _ => demanded history := by
  simp only [demanded, List.foldl_append, List.foldl_cons, List.foldl_nil]

/-- What a step does: the object stays a prefix, which may grow, and what returns is exact. -/
def Advances (cfg : Config) (C : Str → Bytes) (path : Str) (history : List (Label × Reply))
    (o : Reply) (s : Machine) : Prop :=
  (∃ m, Sequential cfg C path history s m) ∧
    ∀ p len off r, o = .returned p len off r → Exact C p len off r

theorem Sequential.new {files : Files} (empty : ∀ d k, files (cfg.dataPart d k) = none) :
    Sequential cfg C path [] (.new files) 0 where
  each := ⟨CacheManager.each_new _ files, by simp [Machine.new], by simp [Machine.new]⟩
  store := ⟨fun b => BlockStore.blocks_empty cfg empty _ b, by simp⟩
  queued := by simp [Machine.new, CacheManager.new]
  flying := by simp [Machine.new]
  idle _ := Nat.le_refl 0
  reading := by simp [Machine.new]

variable {history : List (Label × Reply)} {s s' : Machine} {o : Reply}

theorem Sequential.call (seq : Sequential cfg C path history s m) {len off : ℕ}
    (taken : Steps cfg s (.call path len off) o s') (inside : off + len ≤ (C path).size)
    (near : 0 < len → off / kBlockSize ≤ demanded history) :
    Advances cfg C path (history ++ [(Label.call path len off, o)]) o s' := by
  have settled : CacheManager.Settled cfg (fun q ce => q = path ∧ CacheManager.Live cfg q ce)
      path := ⟨⟨rfl, rfl, rfl, rfl⟩, fun _ _ live => live⟩
  obtain ⟨each, live⟩ := seq.each.kept.entry cfg settled
  simp only [Steps, step] at taken
  split at taken
  · cases taken
  next none =>
    -- The entry is live, so the read is not refused.
    rw [if_neg (by rw [live.2.2.2]; decide)] at taken
    cases taken
    refine ⟨⟨m, ⟨each, seq.each.flying, ?_⟩,
      seq.store.of_files (CacheManager.entry_files cfg s.mgr path), ?_, seq.flying, ?_, ?_⟩, ?_⟩
    · rintro _ ⟨⟩
      exact live
    · rw [CacheManager.entry_tasks]
      exact seq.queued
    · rintro ⟨⟩
    · have idle := seq.idle none
      rintro _ ⟨⟩
      refine ⟨⟨rfl, inside, Nat.zero_le _, rfl, by simp, fun more => ⟨?_, trivial⟩,
        fun all => ?_⟩, ?_⟩
      · exact Nat.le_trans (near more) idle
      · rw [blocksUpTo, if_pos all.symm]
        exact Nat.zero_le m
      · rw [demanded_concat]
        simp only
        omega
    · rintro _ _ _ _ ⟨⟩

theorem Sequential.demand (seq : Sequential cfg C path history s m) {env : Env}
    (taken : Steps cfg s (.demand env) o s') (serves : env.backend.Serves C) :
    Advances cfg C path (history ++ [(Label.demand env, o)]) o s' := by
  obtain ⟨r, found, same⟩ := Option.map_eq_some_iff.mp taken
  obtain ⟨sound, most⟩ := seq.reading r found
  obtain ⟨file, live⟩ := seq.each.reading r found
  have settled : CacheManager.Settled cfg (fun q ce => q = path ∧ CacheManager.Live cfg q ce)
      r.path := ⟨⟨file, rfl, rfl, rfl⟩, fun _ _ live => live⟩
  have each := demandStep_each seq.each.kept settled ⟨file, live⟩ env
  -- The read returns, or has less to do and a prefix that may have grown.
  rcases demandStep_sound seq.store sound (live.2.1.trans (by rw [file])) serves with
    ⟨result, eq, returned, all⟩ | ⟨m', mgr', r', eq, more, pre, sound', len, off, _, tasks⟩ <;>
    rw [eq] at same each <;> cases same
  · refine ⟨⟨m, ⟨each.1, seq.each.flying, by rintro _ ⟨⟩⟩, seq.store, seq.queued, seq.flying,
      fun _ => ?_, by rintro _ ⟨⟩⟩, ?_⟩
    · rw [demanded_concat]
      have := sound.whole all
      simp only
      omega
    · rintro _ _ _ _ ⟨⟩
      exact file ▸ returned
  · refine ⟨⟨m', ⟨each.1, seq.each.flying, ?_⟩, pre, fun job member => ?_,
      fun f member => (seq.flying f member).mono more, by rintro ⟨⟩, ?_⟩, by rintro _ _ _ _ ⟨⟩⟩
    · rintro _ ⟨⟩
      exact each.2 r' rfl
    · rcases tasks job member with old | new
      · exact Nat.le_trans (seq.queued job old) more
      · exact new
    · rintro _ ⟨⟩
      refine ⟨sound', ?_⟩
      rw [demanded_concat, len, off]
      simp only
      omega

theorem Sequential.start (seq : Sequential cfg C path history s m) {i : ℕ}
    (taken : Steps cfg s (.start i) o s') :
    Advances cfg C path (history ++ [(Label.start i, o)]) o s' := by
  obtain ⟨job, found, same⟩ := Option.map_eq_some_iff.mp taken
  cases same
  have most : demanded (history ++ [(.start i, .silent)]) = demanded history :=
    demanded_concat _ _ _
  refine ⟨⟨m, seq.each.start found, seq.store.of_files rfl,
    fun job member => seq.queued job (List.mem_of_mem_eraseIdx member), fun f member => ?_,
    by rw [most]; exact seq.idle, by rw [most]; exact seq.reading⟩, by rintro _ _ _ _ ⟨⟩⟩
  rcases List.mem_append.mp member with old | new
  · exact seq.flying f old
  · rw [List.mem_singleton.mp new]
    exact ⟨.inl (seq.queued job (List.mem_of_getElem? found)), by rintro got ⟨⟩⟩

theorem Sequential.job (seq : Sequential cfg C path history s m) {j : ℕ} {backend : Backend}
    (taken : Steps cfg s (.job j backend) o s') (serves : backend.Serves C) :
    Advances cfg C path (history ++ [(Label.job j backend, o)]) o s' := by
  obtain ⟨f, found, same⟩ := Option.map_eq_some_iff.mp taken
  cases same
  have flying := List.mem_of_getElem? found
  obtain ⟨p, rfl, file, keyed, _⟩ := seq.each.flying f flying
  obtain ⟨m', more, pre, sound⟩ :=
    jobStep_sound seq.store (seq.flying f flying) file keyed serves
  obtain ⟨_, tasks, _⟩ := jobStep_same cfg backend s.mgr f
  have most : demanded (history ++ [(.job j backend, .silent)]) = demanded history :=
    demanded_concat _ _ _
  refine ⟨⟨m', seq.each.job found, pre, fun job member => ?_, fun g member => ?_,
    fun none => most ▸ Nat.le_trans (seq.idle none) more, fun r reading => ?_⟩,
    by rintro _ _ _ _ ⟨⟩⟩
  · exact Nat.le_trans (seq.queued job (tasks ▸ member)) more
  · rcases mem_moved member with old | new
    · exact (seq.flying g old).mono more
    · exact sound g new
  · obtain ⟨sound', before⟩ := seq.reading r reading
    exact ⟨sound'.mono more, by omega⟩

theorem run_sequential {files : Files} (empty : ∀ d k, files (cfg.dataPart d k) = none)
    (run : Run (Steps cfg) (new files) history s)
    (client : ∀ entry ∈ history, ReadsFile C path entry.1) (dense : NoSkip history) :
    (∃ m, Sequential cfg C path history s m) ∧
      ∀ entry ∈ history, ∀ p len off r, entry.2 = .returned p len off r → Exact C p len off r := by
  induction run with
  | refl => exact ⟨⟨0, .new empty⟩, by simp⟩
  | @next s s' history l o before taken ih =>
    obtain ⟨⟨m, seq⟩, exact⟩ := ih
      (fun entry member => client entry (List.mem_append_left _ member))
      fun b p len off o' after eq => dense b p len off o' (after ++ [(l, o)]) (by simp [eq])
    have label := client (l, o) (List.mem_append_right _ List.mem_cons_self)
    have advances : Advances cfg C path (history ++ [(l, o)]) o s' := by
      cases l with
      | read => exact label.elim
      | write => exact label.elim
      | call p len off =>
        obtain ⟨rfl, inside⟩ := label
        exact seq.call taken inside (dense history p len off _ [] rfl)
      | demand env => exact seq.demand taken label
      | start i => exact seq.start taken
      | job j backend => exact seq.job taken label
    refine ⟨advances.1, fun entry member => ?_⟩
    rcases List.mem_append.mp member with old | new
    · exact exact entry old
    · rw [List.mem_singleton.mp new]
      exact advances.2

/-- Under any interleaving with prefetch jobs, every read of a client that never skips a block
returns exactly the range it asked for; and a read under way can always take its next step, which
returns that range or leaves it fewer steps to make. -/
theorem sequential_read_exact (cfg : Config) (C : Str → Bytes) (path : Str) (files : Files)
    (empty : ∀ d k, files (cfg.dataPart d k) = none) (history : List (Label × Reply)) (s : Machine)
    (run : Run (Steps cfg) (new files) history s)
    (client : ∀ entry ∈ history, ReadsFile C path entry.1) (dense : NoSkip history) :
    (∀ entry ∈ history, ∀ p len off r, entry.2 = .returned p len off r → Exact C p len off r) ∧
    ∀ r, s.reader = some r → ∀ env : Env, env.backend.Serves C →
      ∃ o s', Steps cfg s (.demand env) o s' ∧
        ((∃ result, o = .returned r.path r.len r.off result ∧ Exact C r.path r.len r.off result) ∨
          ∃ r', s'.reader = some r' ∧ r'.rest < r.rest) := by
  obtain ⟨⟨m, seq⟩, exact⟩ := run_sequential empty run client dense
  refine ⟨exact, fun r reading env serves => ?_⟩
  obtain ⟨sound, _⟩ := seq.reading r reading
  obtain ⟨file, live⟩ := seq.each.reading r reading
  rcases demandStep_sound seq.store sound (live.2.1.trans (by rw [file])) serves with
    ⟨result, eq, returned, _⟩ | ⟨m', mgr', r', eq, _, _, _, _, _, closer, _⟩
  · exact ⟨.returned r.path r.len r.off result, { s with reader := none },
      by simp only [Steps, step, reading, Option.map_some, eq], .inl ⟨result, rfl, file ▸ returned⟩⟩
  · exact ⟨.silent, { s with mgr := mgr', reader := some r' },
      by simp only [Steps, step, reading, Option.map_some, eq], .inr ⟨r', rfl, closer⟩⟩

/-- A read of two blocks, the first steps of the prefetch job it queues, and the read's return. -/
def sequentialLabels : List Label :=
  .call ['/', 'f'] (kBlockSize + 1) 0 :: (List.replicate 6 (.demand (.serving threeBlocks)) ++
    [.start 0, .job 0 (.serving threeBlocks), .job 0 (.serving threeBlocks),
      .demand (.serving threeBlocks)])

theorem sequential_read_exact_two :
    ∃ s history, exec (step .sample) (new fun _ => none) sequentialLabels = some (s, history) ∧
      (∀ entry ∈ history, ∀ p len off r, entry.2 = .returned p len off r →
        Exact threeBlocks p len off r) ∧
      ∀ r, s.reader = some r → ∀ env : Env, env.backend.Serves threeBlocks →
        ∃ o s', Steps .sample s (.demand env) o s' ∧
          ((∃ result, o = .returned r.path r.len r.off result ∧
            Exact threeBlocks r.path r.len r.off result) ∨
          ∃ r', s'.reader = some r' ∧ r'.rest < r.rest) := by
  have ends : (exec (step .sample) (new fun _ => none) sequentialLabels).isSome = true := by
    decide +kernel
  obtain ⟨⟨s, history⟩, done⟩ := Option.isSome_iff_exists.mp ends
  have labels := Run.exec_events done
  refine ⟨s, history, done, sequential_read_exact .sample threeBlocks ['/', 'f'] (fun _ => none)
    (fun _ _ => rfl) history s (Run.of_exec done) (fun entry member => ?_) ?_⟩
  · have label : entry.1 ∈ sequentialLabels := labels ▸ List.mem_map_of_mem member
    simp only [sequentialLabels, List.mem_cons, List.mem_append, List.mem_replicate,
      List.not_mem_nil, or_false] at label
    rcases label with same | ⟨_, same⟩ | same | same | same | same <;> rw [same]
    · exact ⟨rfl, by decide⟩
    · exact fun _ _ _ => rfl
    · trivial
    · exact fun _ _ _ => rfl
    · exact fun _ _ _ => rfl
    · exact fun _ _ _ => rfl
  · rintro before p len off o after rfl _
    cases before with
    | nil =>
      simp only [List.nil_append, List.map_cons, sequentialLabels, List.cons.injEq,
        Label.call.injEq] at labels
      rw [labels.1.2.2]
      exact Nat.zero_le _
    | cons first before =>
      simp only [List.cons_append, List.map_cons, List.map_append, sequentialLabels,
        List.cons.injEq] at labels
      have later : Label.call p len off ∈ before.map (·.1) ++ .call p len off :: after.map (·.1) :=
        List.mem_append_right _ List.mem_cons_self
      rw [labels.2] at later
      simp at later

end Machine

end RemoteCache
