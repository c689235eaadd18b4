import RemoteCache.Cache.Machine
import RemoteCache.Cache.ReadYourWrites

/-!
# Writes against prefetch jobs

## Main result

`write_survives_prefetch`: reads return the data of the last write as long as no
prefetch job stores a block that a write has touched since the job found it missing.

## Proof strategy

The invariant is the one for runs without interleaving: blocks that a write has
touched are whole and hold what was last written. A step that stores into an
untouched block keeps it; the store step of a job is the only one that may not.
-/
namespace RemoteCache

namespace Machine

abbrev History := List (Label × Reply)

def writeCall : Label → Option WriteCall
  | .write path data off => some ⟨path, data, off⟩
  | _ => none

/-- The calls of `write` in an interleaved run, in order. -/
def writesOf (history : History) : List WriteCall :=
  history.filterMap fun entry => writeCall entry.1

theorem writesOf_of_labels {history : History} {labels : List Label}
    (same : history.map (·.1) = labels) : writesOf history = labels.filterMap writeCall := by
  rw [← same, List.filterMap_map]
  rfl

/-- Calls of `read` and `write` on named paths, each in one step, and steps of prefetch jobs. -/
def AtomicCalls (names : Str → Prop) : Label → Prop
  | .read _ path _ _ => names path
  | .write path _ _ => names path
  | .call _ _ _ => False
  | .demand _ => False
  | .start _ => True
  | .job _ _ => True

/-- The path and the block that the next step of a job is about to store. -/
def storing (s : Machine) : Label → Option (Str × ℕ)
  | .job j _ =>
    s.flights[j]?.bind fun f =>
      match f.phase with
      | .store _ => some (f.job.ce.path, f.blk)
      | _ => none
  | _ => none

/-- No step stores a block that an earlier write has touched. -/
def Timely (cfg : Config) (files : Files) (history : History) : Prop :=
  ∀ before l o after s path blk, history = before ++ (l, o) :: after →
    Run (Steps cfg) (new files) before s → s.storing l = some (path, blk) →
    ¬TouchedBlock (writesOf before) path blk

variable {cfg : Config} {names : Str → Prop} {s s' : Machine}

/-- A live entry of a named path. -/
def NamedLive (cfg : Config) (names : Str → Prop) (path : Str) (ce : CacheEntry) : Prop :=
  names path ∧ CacheManager.Live cfg path ce

theorem settled_named {path : Str} (name : names path) :
    CacheManager.Settled cfg (NamedLive cfg names) path :=
  ⟨⟨name, rfl, rfl, rfl⟩, fun _ _ live => live⟩

/-- What a job is about to store is some part of a block. -/
private def Sized (f : Flight) : Prop :=
  ∀ got, f.phase = .store got → 0 < got.size ∧ got.size ≤ kBlockSize

private theorem jobStep_sized (backend : Backend) (m : CacheManager) (f : Flight) {g : Flight}
    (member : g ∈ (jobStep cfg backend m f).2) : Sized g := by
  rcases jobStep_cases cfg backend m f with ⟨_, _, eq⟩ | ⟨_, _, eq⟩ | ⟨_, _, eq⟩ |
    ⟨got, _, reply, eq⟩ | ⟨got, _, eq⟩ <;> rw [eq] at member <;> intro got' phase
  · rw [(mem_next member).1] at phase
    cases phase
  · rw [List.mem_singleton.mp member] at phase
    cases phase
  · rw [(mem_next member).1] at phase
    cases phase
  · rw [List.mem_singleton.mp member] at phase
    cases phase
    exact received_small reply
  · rw [(mem_next member).1] at phase
    cases phase

/-- The invariant: entries are live and written blocks stay as they were written. -/
private theorem run_kept {files : Files} (clean : cfg.Clean names) {history : History}
    (run : Run (Steps cfg) (new files) history s)
    (calls : ∀ entry ∈ history, AtomicCalls names entry.1) (timely : Timely cfg files history) :
    EachEntry (NamedLive cfg names) s ∧ Kept cfg (writesOf history) s.mgr ∧
      (∀ w ∈ writesOf history, names w.path) ∧ ∀ f ∈ s.flights, Sized f := by
  induction run with
  | refl =>
    refine ⟨⟨CacheManager.each_new _ files, by simp [new], by simp [new]⟩, ⟨?_, ?_⟩, ?_, ?_⟩
    · rintro path blk ⟨w, absurd, _⟩
      simp [writesOf] at absurd
    · simp [writesOf, latestByte]
    · simp [writesOf]
    · simp [new]
  | @next s s' history l o before taken ih =>
    -- What the last step writes comes after all earlier writes.
    have split : writesOf (history ++ [(l, o)]) = writesOf history ++ writesOf [(l, o)] := by
      simp [writesOf]
    obtain ⟨each, kept, named, sized⟩ := ih
      (fun entry member => calls entry (List.mem_append_left _ member))
      fun b l' o' after t path blk eq =>
        timely b l' o' (after ++ [(l, o)]) t path blk (by simp [eq])
    have call := calls (l, o) (List.mem_append_right _ List.mem_cons_self)
    rw [split]
    cases l with
    | read env path len off =>
      rw [show writesOf [(Label.read env path len off, o)] = [] from rfl, List.append_nil]
      have live := (each.kept.entry cfg (settled_named call)).2
      simp only [Steps, step] at taken
      split at taken
      · cases taken
      · cases taken
        exact ⟨⟨each.kept.read cfg (settled_named call) env len off, each.flying, each.reading⟩,
          (CacheManager.read_kept kept live.2 env len off).1, named, sized⟩
    | write path data off =>
      rw [show writesOf [(Label.write path data off, o)] = [⟨path, data, off⟩] from rfl]
      have live := (each.kept.entry cfg (settled_named call)).2
      simp only [Steps, step] at taken
      split at taken
      · cases taken
      · cases taken
        refine ⟨⟨each.kept.write cfg (settled_named call) data off, each.flying, each.reading⟩,
          kept.write live.2.2.2 live.2.2.1
            (fun w member same => clean.hashHex (named w member) call same) (clean.apart call),
          fun w member => ?_, sized⟩
        rcases List.mem_append.mp member with old | new
        · exact named w old
        · exact List.mem_singleton.mp new ▸ call
    | call => exact call.elim
    | demand => exact call.elim
    | start i =>
      rw [show writesOf [(Label.start i, o)] = [] from rfl, List.append_nil]
      obtain ⟨job, found, same⟩ := Option.map_eq_some_iff.mp taken
      cases same
      refine ⟨each.start found, kept.of_files rfl, named, fun f member => ?_⟩
      rcases List.mem_append.mp member with old | new
      · exact sized f old
      · rw [List.mem_singleton.mp new]
        rintro got ⟨⟩
    | job j backend =>
      rw [show writesOf [(Label.job j backend, o)] = [] from rfl, List.append_nil]
      obtain ⟨f, found, same⟩ := Option.map_eq_some_iff.mp taken
      cases same
      refine ⟨each.job found, ?_, named, fun g member => ?_⟩
      · rcases jobStep_cases cfg backend s.mgr f with ⟨_, _, eq⟩ | ⟨_, _, eq⟩ | ⟨_, _, eq⟩ |
          ⟨got, _, _, eq⟩ | ⟨got, phase, eq⟩ <;> rw [eq]
        · exact kept
        · exact kept
        · exact kept
        · exact kept
        · -- The one step that could overwrite what a write has put there.
          obtain ⟨positive, small⟩ := sized f (List.mem_of_getElem? found) got phase
          obtain ⟨path, name, same, hash, _⟩ := each.flying f (List.mem_of_getElem? found)
          refine (kept.store positive small fun q hash' touched => ?_).of_files rfl
          obtain ⟨w, member, rfl⟩ := touched.path_mem
          have here := clean.hashHex (named w member) name (hash'.trans hash)
          refine timely history _ _ [] s f.job.ce.path f.blk rfl before ?_ ?_
          · simp only [storing, found, Option.bind_some, phase]
          · rwa [same, ← here]
      · rcases mem_moved member with old | new
        · exact sized g old
        · exact jobStep_sized backend s.mgr f new

/-- The byte of a write that later writes to other paths follow. -/
theorem latestByte_last {earlier later : List WriteCall} {w : WriteCall} {x : ℕ}
    (others : ∀ v ∈ later, v.path ≠ w.path) (covers : w.Covers w.path x) :
    latestByte (earlier ++ w :: later) w.path x = some (w.data.get (x - w.off)) := by
  induction later using List.reverseRecOn with
  | nil => rw [latestByte_concat, if_pos covers]
  | append_singleton later v ih =>
    rw [← List.cons_append, ← List.append_assoc, latestByte_concat, if_neg]
    · exact ih fun v member => others v (List.mem_append_left _ member)
    · exact fun other => others v (by simp) other.1

/-- In every interleaving of calls and prefetch jobs in which no job stores a block that a write
has touched before, a read inside the last write to its path returns the bytes of that write. -/
theorem write_survives_prefetch (cfg : Config) (names : Str → Prop) (clean : cfg.Clean names)
    (files : Files) (history : History) (s : Machine)
    (run : Run (Steps cfg) (new files) history s)
    (calls : ∀ entry ∈ history, AtomicCalls names entry.1) (timely : Timely cfg files history)
    (earlier later : List WriteCall) (w : WriteCall)
    (last : writesOf history = earlier ++ w :: later) (others : ∀ v ∈ later, v.path ≠ w.path)
    (env : Env) (len off : ℕ) (above : w.off ≤ off) (below : off + len ≤ w.off + w.data.size)
    (o : Reply) (s' : Machine) (taken : Steps cfg s (.read env w.path len off) o s') :
    o = .read ⟨len, w.data.slice (off - w.off) len⟩ := by
  obtain ⟨each, kept, named, _⟩ := run_kept clean run calls timely
  have name := named w (by simp [last])
  have live := (each.kept.entry cfg (settled_named name)).2
  obtain ⟨_, bytes, full⟩ := CacheManager.read_kept kept live.2 env len off
  have count := full fun x first second =>
    ⟨w, by simp [last], x, ⟨rfl, by omega, by omega⟩, rfl⟩
  have size := CacheManager.read_size cfg (by rw [count]; omega)
  rw [count] at size bytes
  simp only [Steps, step] at taken
  split at taken
  · cases taken
  · cases taken
    refine congrArg Reply.read ?_
    have buf : (s.mgr.read cfg env w.path len off).2.buf = w.data.slice (off - w.off) len := by
      refine Blob.eq_of_get (by simp only [Blob.size_slice]; omega) fun i small => ?_
      rw [Blob.get_slice, if_pos (by omega)]
      apply bytes i _ (by omega)
      rw [last, latestByte_last others ⟨rfl, by omega, by omega⟩]
      congr 2; omega
    rw [← count, ← buf]

/-- Two sequential reads queue a job for block 2, which probes and fetches; then one byte is
written to block 2. -/
def raceLabels : List Label :=
  [.read (.serving threeBlocks) ['/', 'f'] 1 0,
    .read (.serving threeBlocks) ['/', 'f'] 1 kBlockSize, .start 0,
    .job 0 (.serving threeBlocks), .job 0 (.serving threeBlocks),
    .write ['/', 'f'] (.ofFn 1 fun _ => 7) (2 * kBlockSize)]

private theorem race_atomic {history : History} {later : List Label}
    (labels : history.map (·.1) = raceLabels ++ later)
    (jobs : ∀ l ∈ later, AtomicCalls (· = ['/', 'f']) l) :
    ∀ entry ∈ history, AtomicCalls (· = ['/', 'f']) entry.1 := by
  intro entry member
  have label : entry.1 ∈ raceLabels ++ later := labels ▸ List.mem_map_of_mem member
  rcases List.mem_append.mp label with race | job
  · simp only [raceLabels, List.mem_cons, List.not_mem_nil, or_false] at race
    rcases race with same | same | same | same | same | same <;> rw [same] <;>
      simp only [AtomicCalls]
  · exact jobs _ job

/-- Nothing is written before the last label. -/
private theorem race_timely {history : History} (labels : history.map (·.1) = raceLabels) :
    Timely .sample (fun _ => none) history := by
  rintro before l o after s path blk rfl _ _ ⟨w, member, _⟩
  -- A label that a later one follows is not the write.
  have none : before.map (·.1) <+: raceLabels.dropLast := by
    rw [← labels, List.map_append, List.map_cons, List.dropLast_append_of_ne_nil (by simp)]
    exact List.prefix_append _ _
  rw [writesOf_of_labels rfl] at member
  have written := (none.sublist.filterMap writeCall).subset member
  simp [raceLabels, writeCall] at written

theorem write_survives_prefetch_fetched :
    ∃ s history, exec (step .sample) (new fun _ => none) raceLabels = some (s, history) ∧
      ∀ o s', Steps .sample s
          (.read (.serving threeBlocks) ['/', 'f'] 1 (2 * kBlockSize)) o s' →
        o = .read
          ⟨(1 : ℕ), (Blob.ofFn 1 fun _ => 7).slice (2 * kBlockSize - 2 * kBlockSize) 1⟩ := by
  have ends : (exec (step .sample) (new fun _ => none) raceLabels).isSome = true := by
    decide +kernel
  obtain ⟨⟨s, history⟩, done⟩ := Option.isSome_iff_exists.mp ends
  have labels := Run.exec_events done
  exact ⟨s, history, done, write_survives_prefetch .sample (· = ['/', 'f']) clean_sample
    (fun _ => none) history s (Run.of_exec done)
    (race_atomic (by rw [labels, List.append_nil]) (by simp)) (race_timely labels) [] []
    ⟨['/', 'f'], .ofFn 1 fun _ => 7, 2 * kBlockSize⟩ (writesOf_of_labels labels) (by simp)
    (.serving threeBlocks) 1 (2 * kBlockSize) (Nat.le_refl _) (Nat.le_refl _)⟩

private theorem stale_read :
    ((exec (step .sample) (new fun _ => none) (raceLabels ++ [.job 0 (.serving threeBlocks)])).map
      fun reached => (reached.1.mgr.read .sample (.serving threeBlocks) ['/', 'f'] 1
        (2 * kBlockSize)).2.buf.get 0) = some 1 := by
  decide +kernel

/-- The job of `raceLabels` stores what it fetched before the write: the write is lost. -/
theorem write_lost_to_prefetch :
    ¬∀ (history : History) (s : Machine),
      Run (Steps .sample) (new fun _ => none) history s →
      (∀ entry ∈ history, AtomicCalls (· = ['/', 'f']) entry.1) →
      ∀ (earlier later : List WriteCall) (w : WriteCall),
        writesOf history = earlier ++ w :: later → (∀ v ∈ later, v.path ≠ w.path) →
        ∀ (env : Env) (len off : ℕ), w.off ≤ off → off + len ≤ w.off + w.data.size →
          (s.mgr.read .sample env w.path len off).2 = ⟨len, w.data.slice (off - w.off) len⟩ := by
  intro all
  obtain ⟨⟨s, history⟩, done, stale⟩ := Option.map_eq_some_iff.mp stale_read
  have labels := Run.exec_events done
  have same := all history s (Run.of_exec done) (race_atomic labels (by simp [AtomicCalls])) [] []
    ⟨['/', 'f'], .ofFn 1 fun _ => 7, 2 * kBlockSize⟩ (writesOf_of_labels labels) (by simp)
    (.serving threeBlocks) 1 (2 * kBlockSize) (Nat.le_refl _) (Nat.le_refl _)
  rw [same] at stale
  exact absurd stale (by decide)

end Machine

end RemoteCache
