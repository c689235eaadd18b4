import RemoteCache.Cache.DirtyBits

/-!
# Dirty bits across sessions

## Main result

`marks_survive_iff`: when the bits that earlier sessions have flushed are still
on disk after later flushes.

## Proof strategy

A session starts with no bits in memory and writes the whole file of each part
in which it has marked a block, so such a file ends up with the bits of this
session only. The files of the other parts stay as earlier sessions left them.
-/
namespace RemoteCache

open MetadataStore

/-- A block of an object that is marked as dirty in one of the object's parts. -/
@[ext] structure Mark where
  object : Digest
  part : ℕ
  blk : ℕ
  deriving DecidableEq

inductive SessionOp where
  | mark (m : Mark)
  | flush (d : Digest)
  | restart
  deriving DecidableEq

/-- The bits that a `MetadataStore` has in memory, and the files under the cache root. -/
structure Session where
  bitmap : Bitmaps
  files : Files

namespace Session

variable (cfg : Config)

/-- A new store. `init` opens the database and loads no bitmap. -/
def start (files : Files) : Session := ⟨∅, files⟩

def apply (s : Session) : SessionOp → Session
  | .mark m => { s with bitmap := markDirtyBlock s.bitmap m.object m.part m.blk }
  | .flush d => { s with files := flushBitmaps cfg s.files s.bitmap d }
  | .restart => start s.files

def run (files : Files) (ops : List SessionOp) : Session := ops.foldl (apply cfg) (start files)

/-- The mark is in the bitmap file of its part. -/
def OnDisk (s : Session) (m : Mark) : Prop :=
  fileBit (s.files.content (cfg.bitmap m.object m.part)) m.blk = true

/-! ### Histories -/

/-- The current session has made the mark. -/
def Marked (ops : List SessionOp) (m : Mark) : Prop :=
  ∃ before after, ops = before ++ .mark m :: after ∧ .restart ∉ after

/-- Some session has flushed the mark after making it. -/
def Flushed (ops : List SessionOp) (m : Mark) : Prop :=
  ∃ before after, ops = before ++ .flush m.object :: after ∧ Marked before m

/-- A session before the current one has flushed the mark. -/
def FlushedEarlier (ops : List SessionOp) (m : Mark) : Prop :=
  ∃ before after, ops = before ++ .restart :: after ∧ Flushed before m

/-- After flushing the object, its own marks and the marks flushed by earlier sessions are on
disk. -/
def Survive (files : Files) (ops : List SessionOp) (d : Digest) : Prop :=
  ∀ m : Mark, m.object = d → Marked ops m ∨ FlushedEarlier ops m →
    OnDisk cfg (run cfg files (ops ++ [.flush d])) m

/-- In the parts of the object in which the current session has marked a block, it has marked
every block that an earlier session has flushed. -/
def Remarked (ops : List SessionOp) (d : Digest) : Prop :=
  ∀ m : Mark, m.object = d → FlushedEarlier ops m →
    (∃ blk, Marked ops { m with blk }) → Marked ops m

variable {ops : List SessionOp} {op : SessionOp} {m : Mark}

/-- An operation of a list that has grown by one is the new one or an old one. -/
theorem concat_split {op' : SessionOp} {before after : List SessionOp} :
    ops ++ [op] = before ++ op' :: after ↔
      (after = [] ∧ before = ops ∧ op' = op) ∨
      ∃ rest, after = rest ++ [op] ∧ ops = before ++ op' :: rest := by
  constructor
  · intro same
    rcases List.eq_nil_or_concat' after with rfl | ⟨rest, last, rfl⟩
    · obtain ⟨rfl, new⟩ := List.append_inj' same rfl
      cases new
      exact .inl ⟨rfl, rfl, rfl⟩
    · rw [← List.cons_append, ← List.append_assoc] at same
      obtain ⟨rfl, new⟩ := List.append_inj' same rfl
      cases new
      exact .inr ⟨rest, rfl, rfl⟩
  · rintro (⟨rfl, rfl, rfl⟩ | ⟨rest, rfl, rfl⟩)
    · rfl
    · simp

theorem marked_concat :
    Marked (ops ++ [op]) m ↔ op = .mark m ∨ (op ≠ .restart ∧ Marked ops m) := by
  constructor
  · rintro ⟨before, after, split, here⟩
    rcases concat_split.mp split with ⟨_, _, same⟩ | ⟨rest, rfl, same⟩
    · exact .inl same.symm
    · simp only [List.mem_append, List.mem_singleton, not_or] at here
      exact .inr ⟨fun restart => here.2 restart.symm, before, rest, same, here.1⟩
  · rintro (rfl | ⟨other, before, after, rfl, here⟩)
    · exact ⟨ops, [], rfl, by simp⟩
    · exact ⟨before, after ++ [op], by simp, by simp [here, Ne.symm other]⟩

theorem flushed_concat :
    Flushed (ops ++ [op]) m ↔ Flushed ops m ∨ (op = .flush m.object ∧ Marked ops m) := by
  constructor
  · rintro ⟨before, after, split, marked⟩
    rcases concat_split.mp split with ⟨_, rfl, same⟩ | ⟨rest, rfl, same⟩
    · exact .inr ⟨same.symm, marked⟩
    · exact .inl ⟨before, rest, same, marked⟩
  · rintro (⟨before, after, rfl, marked⟩ | ⟨rfl, marked⟩)
    · exact ⟨before, after ++ [op], by simp, marked⟩
    · exact ⟨ops, [], rfl, marked⟩

theorem flushedEarlier_concat :
    FlushedEarlier (ops ++ [op]) m ↔ FlushedEarlier ops m ∨ (op = .restart ∧ Flushed ops m) := by
  constructor
  · rintro ⟨before, after, split, flushed⟩
    rcases concat_split.mp split with ⟨_, rfl, same⟩ | ⟨rest, rfl, same⟩
    · exact .inr ⟨same.symm, flushed⟩
    · exact .inl ⟨before, rest, same, flushed⟩
  · rintro (⟨before, after, rfl, flushed⟩ | ⟨rfl, flushed⟩)
    · exact ⟨before, after ++ [op], by simp, flushed⟩
    · exact ⟨ops, [], rfl, flushed⟩

/-- What has been flushed was flushed by an earlier session or marked in this one. -/
theorem Flushed.cases (flushed : Flushed ops m) : FlushedEarlier ops m ∨ Marked ops m := by
  induction ops using List.reverseRecOn with
  | nil =>
    obtain ⟨before, after, split, _⟩ := flushed
    simp at split
  | append_singleton ops op ih =>
    rw [flushedEarlier_concat, marked_concat]
    rcases flushed_concat.mp flushed with old | ⟨rfl, marked⟩
    · by_cases restart : op = .restart
      · exact .inl (.inr ⟨restart, old⟩)
      · exact (ih old).imp .inl fun marked => .inr ⟨restart, marked⟩
    · exact .inr (.inr ⟨by simp, marked⟩)

theorem FlushedEarlier.flushed (earlier : FlushedEarlier ops m) : Flushed ops m := by
  obtain ⟨before, after, rfl, before', after', rfl, marked⟩ := earlier
  exact ⟨before', after' ++ .restart :: after, by simp, marked⟩

/-! ### What is in memory and on disk -/

variable {cfg} {files : Files}

theorem run_concat (cfg : Config) (files : Files) (ops : List SessionOp) (op : SessionOp) :
    run cfg files (ops ++ [op]) = (run cfg files ops).apply cfg op := by
  rw [run, List.foldl_append]
  rfl

theorem vecOf_start (d : Digest) (k : ℕ) : vecOf (start files).bitmap d k = [] := rfl

/-- The bits in memory are the marks of the session. -/
theorem dirty_run (m : Mark) :
    dirty (run cfg files ops).bitmap m.object m.part m.blk = true ↔ Marked ops m := by
  induction ops using List.reverseRecOn with
  | nil =>
    apply iff_of_false
    · simp [run, dirty, vecOf_start]
    · rintro ⟨before, after, split, _⟩
      simp at split
  | append_singleton ops op ih =>
    rw [run_concat, marked_concat]
    cases op with
    | mark m' =>
      rw [apply, dirty_markDirtyBlock, ih]
      simp only [SessionOp.mark.injEq, ne_eq, reduceCtorEq, not_false_eq_true, true_and]
      rw [or_comm, Mark.ext_iff, eq_comm, @eq_comm _ m.part, @eq_comm _ m.blk]
    | flush d => simpa [apply] using ih
    | restart => simp [apply, dirty, vecOf_start]

/-- There is a bit vector for each part in which the session has marked a block. -/
theorem vecOf_run (d : Digest) (k : ℕ) :
    vecOf (run cfg files ops).bitmap d k ≠ [] ↔ ∃ blk, Marked ops ⟨d, k, blk⟩ := by
  constructor
  · intro kept
    induction ops using List.reverseRecOn with
    | nil => exact absurd (vecOf_start d k) kept
    | append_singleton ops op ih =>
      rw [run_concat] at kept
      simp only [marked_concat]
      cases op with
      | mark m =>
        rw [apply, vecOf_markDirtyBlock] at kept
        split at kept
        next here => exact ⟨m.blk, .inl (by rw [here.1, here.2])⟩
        next other =>
          obtain ⟨blk, marked⟩ := ih kept
          exact ⟨blk, .inr ⟨by simp, marked⟩⟩
      | flush d' =>
        obtain ⟨blk, marked⟩ := ih kept
        exact ⟨blk, .inr ⟨by simp, marked⟩⟩
      | restart => exact absurd (vecOf_start d k) kept
  · rintro ⟨blk, marked⟩ empty
    have bit : dirty (run cfg files ops).bitmap d k blk = true :=
      (dirty_run ⟨d, k, blk⟩).mpr marked
    rw [dirty, empty] at bit
    cases bit

/-- A flush replaces the files of the parts that have a bit vector. -/
theorem onDisk_flush (s : Session) (d : Digest) (m : Mark) :
    OnDisk cfg (s.apply cfg (.flush d)) m ↔
      if m.object = d ∧ vecOf s.bitmap d m.part ≠ [] then dirty s.bitmap d m.part m.blk = true
      else OnDisk cfg s m := by
  by_cases object : m.object = d
  · subst object
    simp only [OnDisk, apply, Files.content, flushBitmaps_same]
    by_cases empty : vecOf s.bitmap m.object m.part = []
    · rw [if_neg fun both => both.2 empty, bitmapFile, if_pos empty]
      rfl
    · rw [if_pos ⟨trivial, empty⟩, dirty, ← fileBit_bitmapFile, bitmapFile, if_neg empty]
      rfl
  -- The bitmap files of other objects stay.
  · have other : flushBitmaps cfg s.files s.bitmap d (cfg.bitmap m.object m.part) = _ :=
      flushBitmaps_other cfg s.files s.bitmap d fun k same => object (cfg.bitmap_inj same).1
    rw [if_neg fun both => object both.1]
    simp only [OnDisk, apply, Files.content, other]

/-- If every flush so far came after the marks of earlier sessions had been made again, all that
was ever flushed is on disk. -/
theorem flushed_onDisk
    (remarked : ∀ before after d, ops = before ++ .flush d :: after → Remarked before d)
    (flushed : Flushed ops m) : OnDisk cfg (run cfg files ops) m := by
  induction ops using List.reverseRecOn generalizing m with
  | nil =>
    obtain ⟨before, after, split, _⟩ := flushed
    simp at split
  | append_singleton ops op ih =>
    have old : ∀ {m : Mark}, Flushed ops m → OnDisk cfg (run cfg files ops) m := fun flushed =>
      ih (fun before after d split => remarked before (after ++ [op]) d (by simp [split])) flushed
    rw [flushed_concat] at flushed
    rw [run_concat]
    cases op with
    | mark m' => exact old (flushed.resolve_right (by simp))
    | restart => exact old (flushed.resolve_right (by simp))
    | flush d =>
      rw [onDisk_flush]
      have again := remarked ops [] d rfl
      split
      next here =>
        obtain ⟨rfl, kept⟩ := here
        rw [dirty_run]
        rcases flushed with before | ⟨_, marked⟩
        · rcases before.cases with earlier | marked
          · exact again m rfl earlier ((vecOf_run _ _).mp kept)
          · exact marked
        · exact marked
      next other =>
        apply old
        -- A mark that is flushed only now has a bit vector.
        refine flushed.resolve_right fun ⟨same, marked⟩ => other ?_
        cases same
        exact ⟨rfl, (vecOf_run _ _).mpr ⟨m.blk, marked⟩⟩

/-- In a run of sessions every flush of an object leaves on disk what its session has marked and
what earlier sessions have flushed, if and only if at every flush the session has marked again
what earlier sessions have flushed in the parts in which it has marked anything. -/
theorem marks_survive_iff (cfg : Config) (files : Files) (ops : List SessionOp) :
    (∀ before after d, ops = before ++ .flush d :: after → Survive cfg files before d) ↔
      ∀ before after d, ops = before ++ .flush d :: after → Remarked before d := by
  constructor
  · rintro survive before after d split m rfl earlier part
    have bit := survive before after m.object split m rfl (.inr earlier)
    rw [run_concat, onDisk_flush, if_pos ⟨rfl, (vecOf_run _ _).mpr part⟩] at bit
    exact (dirty_run m).mp bit
  · rintro remarked before after d split m rfl mark
    have flushed : Flushed (before ++ [.flush m.object]) m := by
      rw [flushed_concat]
      rcases mark with marked | earlier
      · exact .inr ⟨rfl, marked⟩
      · exact .inl earlier.flushed
    apply flushed_onDisk _ flushed
    intro before' after' d' split'
    apply remarked before' (after' ++ after) d'
    rw [split, ← List.singleton_append, ← List.append_assoc, split']
    simp

/-- The second session has marked block 1 only, so flushing it drops the mark of block 0. -/
theorem mark_lost :
    ¬∀ (files : Files) (ops before after : List SessionOp) (d : Digest),
      ops = before ++ .flush d :: after → Survive .sample files before d := by
  intro all
  have survive := all (fun _ => none) _
    [.mark ⟨.ofHash 0, 0, 0⟩, .flush (.ofHash 0), .restart, .mark ⟨.ofHash 0, 0, 1⟩] [] (.ofHash 0)
    rfl
  have kept := survive ⟨.ofHash 0, 0, 0⟩ rfl (.inr
    ⟨[.mark ⟨.ofHash 0, 0, 0⟩, .flush (.ofHash 0)], [.mark ⟨.ofHash 0, 0, 1⟩], rfl,
      [.mark ⟨.ofHash 0, 0, 0⟩], [], rfl, [], [], rfl, by simp⟩)
  unfold OnDisk at kept
  revert kept
  decide +kernel

end Session

end RemoteCache
