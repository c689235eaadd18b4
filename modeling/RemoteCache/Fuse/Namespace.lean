import RemoteCache.Cache.CallFrame
import RemoteCache.Fuse.Mount
import RemoteCache.Lib.Transition

/-!
# The namespace of the mount

## Main result

`namespace_consistent`: in a run whose steps all meet `Sound`, every promise that
a successful callback has made about a path is kept in every state, and a
listing of the top lists what is there.

## Proof strategy

`getattr` looks below the remote directory, while directories are made, and
directories and files removed, below the place that `cacheDirectory` names. Each
callback changes what is at one location, or at locations of the cache, so a
promise is kept if the location agrees with it.
-/
namespace RemoteCache

namespace Fuse

/-- A callback with its arguments, and what the kernel and the cache do about it. -/
inductive Call where
  | getAttribute (p : Path)
  | getStats (allowed : Bool)
  | readDirectory (p : Path)
  | makeDirectory (p : Path) (allowed : Bool)
  | removeDirectory (p : Path) (allowed : Bool)
  | removeFile (p : Path) (allowed : Bool)
  | openFile (p : Path)
  | createFile (p : Path)
  | readFile (p : Path) (answers : ℕ → Answer × Answer) (made : Path → Bool) (sz off : ℕ)
  | writeFile (p : Path) (answer : Answer) (buf : Bytes) (off : ℕ)
  | releaseFiles (p : Path) (used : ℕ → ℚ)

variable (cfg : Config)

def Mount.step (m : Mount) : Call → Option (Mount × Reply)
  | .getAttribute p => some (m.getAttribute cfg (fusePath p))
  | .getStats allowed => some (m.getStats cfg allowed)
  | .readDirectory p => some (m.readDirectory cfg (fusePath p))
  | .makeDirectory p allowed => some (m.makeDirectory cfg allowed (fusePath p))
  | .removeDirectory p allowed => some (m.removeDirectory cfg allowed (fusePath p))
  | .removeFile p allowed => some (m.removeFile cfg allowed (fusePath p))
  | .openFile p => some (m.openFile (fusePath p))
  | .createFile p => some (m.createFile (fusePath p))
  | .readFile p answers made sz off =>
    let r := m.readFile cfg answers made (fusePath p) sz off
    some (r.1, r.2.1)
  | .writeFile p answer buf off => some (m.writeFile cfg answer (fusePath p) buf off)
  | .releaseFiles p used => m.releaseFiles cfg used (fusePath p)

/-- The names on the path of a callback are ordinary ones. -/
def Plain (p : Path) : Prop := ∀ name ∈ p, PlainName name

/-- A path below the top. -/
def Below (p : Path) : Prop := p ≠ [] ∧ Plain p

/-- Where the FUSE layer looks for remote files, once the last letter of the directory is a
slash. -/
def Mount.remoteTop (m : Mount) : Path := resolve cfg.cwd (Mount.withSlash m.fileRemoteDirectory)

/-- Where the FUSE layer makes and removes directories. -/
def Mount.cacheTop (m : Mount) : Path := resolve cfg.cwd (Mount.withSlash m.cacheDirectory)

/-- A file or directory that the cache may make when it stores bytes of a path. -/
def Owned (path : Str) (x : Path) : Prop := ∃ y, (cfg.InShard y ∨ y = cfg.copy path) ∧ x <+: y

/-- What FUSE, the kernel and the cache can do. -/
def Mount.Valid (m : Mount) : Call → Prop
  | .getAttribute p | .readDirectory p => Plain p
  | .getStats _ => True
  | .removeDirectory p allowed =>
    Below p ∧ (allowed = true → ∀ name, m.node (m.cacheTop cfg ++ p ++ [name]) = none)
  | .readFile p _ made _ _ =>
    Below p ∧ ∀ x, made x = true → Owned cfg (fusePath p) x ∧ m.node x = none
  | .makeDirectory p _ | .removeFile p _ | .openFile p | .createFile p | .writeFile p _ _ _
  | .releaseFiles p _ => Below p

/-! ### Promises -/

/-- What `getattr` must find at a path, if a callback has promised anything. -/
abbrev Promises := Path → Option (Option Kind)

/-- What a callback that returns 0 promises. -/
def remember (promised : Promises) (c : Call) (code : ℤ) : Promises :=
  if code = 0 then
    match c with
    | .createFile p => Function.update promised p (some (some .file))
    | .makeDirectory p _ => Function.update promised p (some (some .dir))
    | .removeFile p _ | .removeDirectory p _ => Function.update promised p (some none)
    | _ => promised
  else promised

structure Observed where
  mount : Mount
  promised : Promises

def Observed.Steps (s : Observed) (c : Call) (r : Reply) (s' : Observed) : Prop :=
  s.mount.Valid cfg c ∧ s.mount.step cfg c = some (s'.mount, r) ∧
    s'.promised = remember s.promised c r.code

/-- A call of `getattr` finds what is expected. -/
def Reply.Shows (r : Reply) : Option Kind → Prop
  | some kind => r.code = 0 ∧ r.kind = some kind
  | none => r.code = -1

/-- Every promise about a path is kept. -/
def Observed.Kept (s : Observed) : Prop :=
  ∀ p found, s.promised p = some found →
    (s.mount.getAttribute cfg (fusePath p)).2.Shows found

/-- The names that a listing shows are those that `getattr` finds at the top. -/
def Mount.Lists (m : Mount) (r : Reply) : Prop :=
  ∀ name, PlainName name → (name ∈ r.names ↔ (m.getAttribute cfg (fusePath [name])).2.code = 0)

/-! ### Conditions -/

/-- When `new` is what comes to be at the place of `p` below `cacheDirectory`, it is also what is
at `p` below the remote directory, and what is promised of other paths that lead there. -/
def Observed.Agrees (s : Observed) (p : Path) (new : Option Kind) : Prop :=
  (s.mount.cacheTop cfg = s.mount.remoteTop cfg ∨
    s.mount.node (s.mount.remoteTop cfg ++ p) = new) ∧
  ∀ q, q ≠ p → s.mount.remoteTop cfg ++ q = s.mount.cacheTop cfg ++ p →
    ∀ found, s.promised q = some found → found = new

/-- The condition on a callback in a state. -/
def Observed.Sound (s : Observed) : Call → Prop
  | .createFile p => s.mount.node (s.mount.remoteTop cfg ++ p) = some .file
  | .makeDirectory p _ =>
    s.mount.node (s.mount.cacheTop cfg ++ p) = none →
      s.mount.dirs (s.mount.cacheTop cfg ++ p).dropLast = true → s.Agrees cfg p (some .dir)
  | .removeDirectory p _ =>
    s.mount.dirs (s.mount.cacheTop cfg ++ p) = true →
      (∀ name, s.mount.node (s.mount.cacheTop cfg ++ p ++ [name]) = none) → s.Agrees cfg p none
  | .removeFile p _ =>
    s.mount.node (s.mount.cacheTop cfg ++ p) = some .file → s.Agrees cfg p none
  | .writeFile p _ _ _ =>
    s.mount.node (s.mount.remoteTop cfg ++ p) = none →
      s.mount.dirs (s.mount.remoteTop cfg ++ p).dropLast = true → s.promised p ≠ some none
  | .readFile p _ _ _ _ =>
    s.mount.node (s.mount.remoteTop cfg ++ p) = some .file →
      ∀ q, s.promised q = some none → ¬Owned cfg (fusePath p) (s.mount.remoteTop cfg ++ q)
  | .releaseFiles _ _ =>
    ∀ q found, s.promised q = some found → ¬cfg.InShard (s.mount.remoteTop cfg ++ q)
  | .readDirectory p =>
    p = [] → ∀ name, PlainName name → s.mount.node (s.mount.remoteTop cfg ++ [name]) = none
  | .getAttribute _ | .getStats _ | .openFile _ => True

/-- A step that meets the condition. -/
def Observed.SoundSteps (s : Observed) (c : Call) (r : Reply) (s' : Observed) : Prop :=
  s.Steps cfg c r s' ∧ s.Sound cfg c

/-! ### Paths -/

theorem withSlash_ends (d : Str) : ∃ t, Mount.withSlash d = t ++ ['/'] := by
  unfold Mount.withSlash
  split
  next ends => exact List.getLast?_eq_some_iff.mp ends
  · exact ⟨_, rfl⟩

theorem withSlash_again (d : Str) : Mount.withSlash (Mount.withSlash d) = Mount.withSlash d := by
  obtain ⟨t, eq⟩ := withSlash_ends d
  rw [eq, Mount.withSlash, if_pos (by simp)]

/-- A path is followed from the directory that the string with the slash names. -/
theorem resolve_fusePath (d : Str) {p : Path} (plain : Plain p) :
    resolve cfg.cwd (Mount.withSlash d ++ fusePath p) =
      resolve cfg.cwd (Mount.withSlash d) ++ p := by
  obtain ⟨t, eq⟩ := withSlash_ends d
  have again : resolve cfg.cwd (t ++ ['/'] ++ ['/']) = resolve cfg.cwd (t ++ ['/']) := by
    have slash : components ['/'] = [[], []] := by decide
    rw [List.append_assoc, List.singleton_append, resolve_append, slash]
    rfl
  rw [eq, fusePath]
  split
  next top => rw [again, top, List.append_nil]
  next below =>
    obtain ⟨rest, first⟩ : ∃ rest, slashed p = '/' :: rest := by
      obtain ⟨c, names, rfl⟩ := List.exists_cons_of_ne_nil below
      exact ⟨_, rfl⟩
    have names : components rest = p := by
      have parts := components_slashed below plain
      rwa [first, List.tail_cons] at parts
    rw [first, resolve_append, names, again, foldl_descend_plain _ plain]

namespace Mount

variable {cfg} {m m' : Mount} {p : Path} {r : Reply}

theorem getAttribute_mount (m : Mount) (path : Str) : (m.getAttribute cfg path).1 =
    { m with fileRemoteDirectory := withSlash m.fileRemoteDirectory } := by
  simp only [getAttribute, isLiteral, Bool.false_eq_true, if_false]
  split <;> rfl

theorem getStats_mount (m : Mount) (allowed : Bool) : (m.getStats cfg allowed).1 = m := by
  unfold getStats
  split <;> rfl

/-- `getattr` says what is below the remote directory. -/
theorem getAttribute_shows (cfg : Config) (m : Mount) {p : Path} (plain : Plain p) :
    (m.getAttribute cfg (fusePath p)).2.Shows (m.node (m.remoteTop cfg ++ p)) := by
  rw [remoteTop, ← resolve_fusePath cfg m.fileRemoteDirectory plain]
  have still : ({ m with fileRemoteDirectory := withSlash m.fileRemoteDirectory } : Mount).node =
      m.node := rfl
  simp only [getAttribute, realFilePath, isLiteral, Bool.false_eq_true, if_false, still]
  cases m.node (resolve cfg.cwd (withSlash m.fileRemoteDirectory ++ fusePath p)) with
  | none => rfl
  | some kind => exact ⟨rfl, rfl⟩

/-! ### What a callback changes -/

/-- The directories stay where they are. -/
structure SamePlaces (cfg : Config) (m m' : Mount) : Prop where
  remote : m'.remoteTop cfg = m.remoteTop cfg
  cache : m'.cacheTop cfg = m.cacheTop cfg

theorem samePlaces_of_eq (remote : m'.fileRemoteDirectory = withSlash m.fileRemoteDirectory ∨
      m'.fileRemoteDirectory = m.fileRemoteDirectory)
    (cache : m'.cacheDirectory = withSlash m.cacheDirectory ∨
      m'.cacheDirectory = m.cacheDirectory) : SamePlaces cfg m m' := by
  constructor
  · rw [remoteTop, remoteTop]
    rcases remote with same | same
    · rw [same, withSlash_again]
    · rw [same]
  · rw [cacheTop, cacheTop]
    rcases cache with same | same
    · rw [same, withSlash_again]
    · rw [same]

theorem makeDirectory_cases (cfg : Config) (m : Mount) {p : Path} (plain : Plain p)
    (allowed : Bool) :
    SamePlaces cfg m (m.makeDirectory cfg allowed (fusePath p)).1 ∧
    (((m.makeDirectory cfg allowed (fusePath p)).2.code = -1 ∧
        (m.makeDirectory cfg allowed (fusePath p)).1.node = m.node) ∨
      ((m.makeDirectory cfg allowed (fusePath p)).2.code = 0 ∧
        m.node (m.cacheTop cfg ++ p) = none ∧ m.dirs (m.cacheTop cfg ++ p).dropLast = true ∧
        (m.makeDirectory cfg allowed (fusePath p)).1.node =
          Function.update m.node (m.cacheTop cfg ++ p) (some .dir))) := by
  have eq : m.makeDirectory cfg allowed (fusePath p) =
      if allowed && (m.node (m.cacheTop cfg ++ p)).isNone &&
          m.dirs (m.cacheTop cfg ++ p).dropLast then
        ({ m with
            cacheDirectory := withSlash m.cacheDirectory
            dirs := Function.update m.dirs (m.cacheTop cfg ++ p) true }, .of 0)
      else ({ m with cacheDirectory := withSlash m.cacheDirectory }, .of (-1)) := by
    rw [cacheTop, ← resolve_fusePath cfg _ plain]
    rfl
  rw [eq]
  split
  next made =>
    simp only [Bool.and_eq_true, Option.isNone_iff_eq_none] at made
    refine ⟨samePlaces_of_eq (.inr rfl) (.inl rfl), .inr ⟨rfl, made.1.2, made.2, ?_⟩⟩
    funext x
    by_cases here : x = m.cacheTop cfg ++ p
    · simp [node, here]
    · simp [node, Function.update_of_ne here]
  · exact ⟨samePlaces_of_eq (.inr rfl) (.inl rfl), .inl ⟨rfl, rfl⟩⟩

theorem node_removeAt (m : Mount) (x : Path) :
    (m.removeAt x).node = Function.update m.node x none := by
  funext y
  by_cases here : y = x
  · simp [node, removeAt, here]
  · simp [node, removeAt, Function.update_of_ne here]

theorem removed_cases (cfg : Config) (m : Mount) (x : Path) (removable : Bool) :
    let m' := { m with cacheDirectory := withSlash m.cacheDirectory }
    let r := if removable then (m'.removeAt x, Reply.of 0) else (m', .of (-1))
    SamePlaces cfg m r.1 ∧
      ((r.2.code = -1 ∧ r.1.node = m.node) ∨
        (r.2.code = 0 ∧ removable = true ∧ r.1.node = Function.update m.node x none)) := by
  cases removable with
  | false => exact ⟨samePlaces_of_eq (.inr rfl) (.inl rfl), .inl ⟨rfl, rfl⟩⟩
  | true => exact ⟨samePlaces_of_eq (.inr rfl) (.inl rfl), .inr ⟨rfl, rfl, node_removeAt _ x⟩⟩

theorem removeDirectory_cases (cfg : Config) (m : Mount) {p : Path} (plain : Plain p)
    (allowed : Bool) :
    SamePlaces cfg m (m.removeDirectory cfg allowed (fusePath p)).1 ∧
    (((m.removeDirectory cfg allowed (fusePath p)).2.code = -1 ∧
        (m.removeDirectory cfg allowed (fusePath p)).1.node = m.node) ∨
      ((m.removeDirectory cfg allowed (fusePath p)).2.code = 0 ∧
        (allowed = true ∧ m.dirs (m.cacheTop cfg ++ p) = true) ∧
        (m.removeDirectory cfg allowed (fusePath p)).1.node =
          Function.update m.node (m.cacheTop cfg ++ p) none)) := by
  have eq : m.removeDirectory cfg allowed (fusePath p) =
      let m' := { m with cacheDirectory := withSlash m.cacheDirectory }
      if allowed && m.dirs (m.cacheTop cfg ++ p) then
        (m'.removeAt (m.cacheTop cfg ++ p), .of 0)
      else (m', .of (-1)) := by
    rw [cacheTop, ← resolve_fusePath cfg _ plain]
    rfl
  rw [eq, ← Bool.and_eq_true]
  exact removed_cases cfg m _ _

theorem removeFile_cases (cfg : Config) (m : Mount) {p : Path} (plain : Plain p)
    (allowed : Bool) :
    SamePlaces cfg m (m.removeFile cfg allowed (fusePath p)).1 ∧
    (((m.removeFile cfg allowed (fusePath p)).2.code = -1 ∧
        (m.removeFile cfg allowed (fusePath p)).1.node = m.node) ∨
      ((m.removeFile cfg allowed (fusePath p)).2.code = 0 ∧
        (allowed = true ∧ m.node (m.cacheTop cfg ++ p) = some .file) ∧
        (m.removeFile cfg allowed (fusePath p)).1.node =
          Function.update m.node (m.cacheTop cfg ++ p) none)) := by
  have eq : m.removeFile cfg allowed (fusePath p) =
      let m' := { m with cacheDirectory := withSlash m.cacheDirectory }
      if allowed && m.node (m.cacheTop cfg ++ p) = some .file then
        (m'.removeAt (m.cacheTop cfg ++ p), .of 0)
      else (m', .of (-1)) := by
    rw [cacheTop, ← resolve_fusePath cfg _ plain]
    rfl
  rw [eq]
  obtain ⟨places, failed | ⟨code, removable, nodes⟩⟩ := removed_cases cfg m
    (m.cacheTop cfg ++ p) (allowed && m.node (m.cacheTop cfg ++ p) = some .file)
  · exact ⟨places, .inl failed⟩
  · obtain ⟨permitted, file⟩ := Bool.and_eq_true_iff.mp removable
    exact ⟨places, .inr ⟨code, ⟨permitted, of_decide_eq_true file⟩, nodes⟩⟩

theorem writeFile_eq (plain : Plain p) (answer : Answer) (buf : Bytes) (off : ℕ) :
    m.writeFile cfg answer (fusePath p) buf off =
      let m' := { m with fileRemoteDirectory := withSlash m.fileRemoteDirectory }
      if m.dirs (m.remoteTop cfg ++ p) || ((m.cache.files (m.remoteTop cfg ++ p)).isNone &&
          !m.dirs (m.remoteTop cfg ++ p).dropLast) then (m', .of (-1))
      else
        let w := m.cache.files.pwrite (m.remoteTop cfg ++ p) buf off answer
        ({ m' with cache := { m.cache with files := w.1 } }, .of (match w.2 with
          | .ok n => n
          | .error _ => -1)) := by
  rw [remoteTop, ← resolve_fusePath cfg _ plain]
  rfl

theorem writeFile_cases (cfg : Config) (m : Mount) {p : Path} (plain : Plain p)
    (answer : Answer) (buf : Bytes) (off : ℕ) :
    SamePlaces cfg m (m.writeFile cfg answer (fusePath p) buf off).1 ∧
    ((m.writeFile cfg answer (fusePath p) buf off).1.node = m.node ∨
      (m.node (m.remoteTop cfg ++ p) = none ∧ m.dirs (m.remoteTop cfg ++ p).dropLast = true ∧
        (m.writeFile cfg answer (fusePath p) buf off).1.node =
          Function.update m.node (m.remoteTop cfg ++ p) (some .file))) := by
  rw [writeFile_eq plain]
  dsimp only
  split
  · exact ⟨samePlaces_of_eq (.inl rfl) (.inr rfl), .inl rfl⟩
  next opens =>
    refine ⟨samePlaces_of_eq (.inl rfl) (.inr rfl), ?_⟩
    simp only [Bool.or_eq_true, Bool.and_eq_true, Bool.not_eq_true', not_or, not_and,
      Option.isNone_iff_eq_none, Bool.not_eq_true, Bool.not_eq_false] at opens
    obtain ⟨notDir, parent⟩ := opens
    have others : ∀ x, x ≠ m.remoteTop cfg ++ p →
        (m.cache.files.pwrite (m.remoteTop cfg ++ p) buf off answer).1 x = m.cache.files x :=
      fun x other => Files.pwrite_other _ _ _ _ other
    cases before : m.cache.files (m.remoteTop cfg ++ p) with
    | some content =>
      left
      have stays := Files.isSome_pwrite m.cache.files (m.remoteTop cfg ++ p) _ buf off answer
        (by rw [before]; rfl)
      funext x
      by_cases here : x = m.remoteTop cfg ++ p
      · simp [node, here, notDir, stays, before]
      · simp [node, others x here]
    | none =>
      cases after : (m.cache.files.pwrite (m.remoteTop cfg ++ p) buf off answer).1
          (m.remoteTop cfg ++ p) with
      | none =>
        left
        funext x
        by_cases here : x = m.remoteTop cfg ++ p
        · simp [node, here, after, before]
        · simp [node, others x here]
      | some content =>
        right
        refine ⟨by simp [node, notDir, before], parent before, ?_⟩
        funext x
        by_cases here : x = m.remoteTop cfg ++ p
        · simp [node, here, notDir, after]
        · simp [node, others x here, Function.update_of_ne here]

theorem readFile_eq (plain : Plain p) (answers : ℕ → Answer × Answer) (made : Path → Bool)
    (sz off : ℕ) : m.readFile cfg answers made (fusePath p) sz off =
      let m' := { m with fileRemoteDirectory := withSlash m.fileRemoteDirectory }
      if m.dirs (m.remoteTop cfg ++ p) then (m', .of (-1), .empty)
      else
        match m.cache.files (m.remoteTop cfg ++ p) with
        | none => (m', .of (-1), .empty)
        | some b =>
          ({ m' with
              cache := (m.cache.write cfg answers (fusePath p) (b.slice off sz) off).1
              dirs := fun x => m.dirs x || made x },
            .of (b.slice off sz).size, b.slice off sz) := by
  rw [remoteTop, ← resolve_fusePath cfg _ plain]
  simp only [readFile, realFilePath, isLiteral, Bool.false_eq_true, if_false, Files.pread]
  cases m.cache.files (resolve cfg.cwd (withSlash m.fileRemoteDirectory ++ fusePath p)) <;> rfl

theorem readFile_cases (m : Mount) {p : Path} (plain : Plain p)
    (answers : ℕ → Answer × Answer) {made : Path → Bool}
    (own : ∀ x, made x = true → Owned cfg (fusePath p) x ∧ m.node x = none) (sz off : ℕ) :
    SamePlaces cfg m (m.readFile cfg answers made (fusePath p) sz off).1 ∧
    ((m.readFile cfg answers made (fusePath p) sz off).1.node = m.node ∨
      (m.node (m.remoteTop cfg ++ p) = some .file ∧
        ∀ x, m.node x ≠ none ∨ ¬Owned cfg (fusePath p) x →
          (m.readFile cfg answers made (fusePath p) sz off).1.node x = m.node x)) := by
  rw [readFile_eq plain]
  dsimp only
  split
  · exact ⟨samePlaces_of_eq (.inl rfl) (.inr rfl), .inl rfl⟩
  next notDir =>
    split
    · exact ⟨samePlaces_of_eq (.inl rfl) (.inr rfl), .inl rfl⟩
    next b opens =>
      refine ⟨samePlaces_of_eq (.inl rfl) (.inr rfl), .inr ⟨by simp [node, notDir, opens], ?_⟩⟩
      have leaves := (CacheManager.write_leaves_any cfg answers m.cache (fusePath p)
        (b.slice off sz) off).files
      have keeps : ∀ x, (m.cache.files x).isSome →
          ((m.cache.write cfg answers (fusePath p) (b.slice off sz) off).1.files x).isSome :=
        fun x file => CacheManager.write_keeps cfg answers m.cache _ _ off file
      intro x safe
      cases there : m.node x with
      | none =>
        have free : ¬Owned cfg (fusePath p) x := safe.resolve_left (not_not.mpr there)
        have unmade : made x = false := Bool.eq_false_iff.mpr fun new => free (own x new).1
        have same := leaves x fun own => own.elim
          (fun ⟨k, part⟩ => free ⟨x, .inl (part ▸ cfg.dataPart_inShard _ k), List.prefix_refl _⟩)
          (fun copy => free ⟨x, .inr copy, List.prefix_refl _⟩)
        rw [← there]
        simp only [node, unmade, Bool.or_false, same]
      | some kind =>
        have unmade : made x = false := Bool.eq_false_iff.mpr fun new => by
          rw [(own x new).2] at there
          cases there
        rw [← there]
        simp only [node, unmade, Bool.or_false]
        by_cases dir : m.dirs x = true
        · rw [if_pos dir, if_pos dir]
        · have file : (m.cache.files x).isSome := by
            by_contra absent
            simp [node, dir, absent] at there
          rw [if_neg dir, if_neg dir, if_pos file, if_pos (keeps x file)]

theorem releaseFiles_cases {used : ℕ → ℚ} (path : Str)
    (released : m.releaseFiles cfg used path = some (m', r)) :
    SamePlaces cfg m m' ∧ ∀ x, ¬cfg.InShard x → m'.node x = m.node x := by
  obtain ⟨cache, evicted, same⟩ := Option.map_eq_some_iff.mp released
  cases same
  refine ⟨samePlaces_of_eq (.inr rfl) (.inr rfl), fun x outside => ?_⟩
  simp only [node, CacheManager.evictLoop_outside outside evicted]

end Mount

/-! ### Steps and runs -/

namespace Observed

variable {cfg} {s s' : Observed} {c : Call} {r : Reply}

/-- What is promised is about paths below the top, and holds. -/
def Inv (cfg : Config) (s : Observed) : Prop :=
  ∀ p found, s.promised p = some found →
    Below p ∧ s.mount.node (s.mount.remoteTop cfg ++ p) = found

theorem Inv.kept (inv : Inv cfg s) : s.Kept cfg := by
  intro p found promise
  obtain ⟨⟨_, plain⟩, there⟩ := inv p found promise
  exact there ▸ Mount.getAttribute_shows cfg s.mount plain

/-- Nothing is promised, and what was promised is untouched. -/
theorem Inv.of_same (inv : Inv cfg s) (places : Mount.SamePlaces cfg s.mount s'.mount)
    (promised : s'.promised = s.promised)
    (nodes : ∀ p found, s.promised p = some found →
      s'.mount.node (s.mount.remoteTop cfg ++ p) = s.mount.node (s.mount.remoteTop cfg ++ p)) :
    Inv cfg s' := by
  intro p found promise
  rw [promised] at promise
  obtain ⟨below, there⟩ := inv p found promise
  rw [places.remote, nodes p found promise]
  exact ⟨below, there⟩

/-- Something new comes to be below `cacheDirectory`, where the promises agree with it. -/
theorem Inv.agrees (inv : Inv cfg s) (places : Mount.SamePlaces cfg s.mount s'.mount)
    {p : Path} (below : Below p) {new : Option Kind} (agrees : s.Agrees cfg p new)
    (promised : s'.promised = Function.update s.promised p (some new))
    (nodes : s'.mount.node = Function.update s.mount.node (s.mount.cacheTop cfg ++ p) new) :
    Inv cfg s' := by
  intro q found promise
  rw [places.remote, nodes]
  rw [promised] at promise
  by_cases same : q = p
  · subst same
    rw [Function.update_self] at promise
    cases promise
    refine ⟨below, ?_⟩
    by_cases here : s.mount.remoteTop cfg ++ q = s.mount.cacheTop cfg ++ q
    · rw [here, Function.update_self]
    · rw [Function.update_of_ne here]
      rcases agrees.1 with top | there
      · rw [top] at here
        exact absurd rfl here
      · exact there
  · rw [Function.update_of_ne same] at promise
    obtain ⟨other, there⟩ := inv q found promise
    refine ⟨other, ?_⟩
    by_cases here : s.mount.remoteTop cfg ++ q = s.mount.cacheTop cfg ++ p
    · rw [here, Function.update_self, agrees.2 q same here found promise]
    · rw [Function.update_of_ne here, there]

/-- A step that meets the condition keeps the promises, and its own. -/
theorem Inv.step (inv : Inv cfg s) (taken : s.SoundSteps cfg c r s') : Inv cfg s' := by
  obtain ⟨m', promised'⟩ := s'
  obtain ⟨⟨valid, stepped, rfl⟩, sound⟩ := taken
  have failed : r.code = -1 → remember s.promised c r.code = s.promised := fun code =>
    if_neg (by rw [code]; decide)
  have done : r.code = 0 → remember s.promised c r.code = remember s.promised c 0 := fun code =>
    congrArg _ code
  have silent : remember s.promised c 0 = s.promised →
      remember s.promised c r.code = s.promised := fun same => by
    by_cases code : r.code = 0
    · rw [code, same]
    · exact if_neg code
  cases c with
  | getAttribute p =>
    have moved := (congrArg Prod.fst (Option.some.inj stepped)).symm.trans
      (Mount.getAttribute_mount _ _)
    dsimp only at moved
    subst moved
    exact inv.of_same (Mount.samePlaces_of_eq (.inl rfl) (.inr rfl)) (silent rfl) fun _ _ _ => rfl
  | getStats allowed =>
    have same := (congrArg Prod.fst (Option.some.inj stepped)).symm.trans
      (Mount.getStats_mount _ _)
    dsimp only at same
    subst same
    exact inv.of_same ⟨rfl, rfl⟩ (silent rfl) fun _ _ _ => rfl
  | readDirectory p =>
    cases stepped
    exact inv.of_same ⟨rfl, rfl⟩ (silent rfl) fun _ _ _ => rfl
  | openFile p =>
    cases stepped
    exact inv.of_same ⟨rfl, rfl⟩ (silent rfl) fun _ _ _ => rfl
  | createFile p =>
    cases stepped
    intro q found promise
    have promise : Function.update s.promised p (some (some .file)) q = some found := promise
    by_cases same : q = p
    · subst same
      rw [Function.update_self] at promise
      cases promise
      exact ⟨valid, sound⟩
    · rw [Function.update_of_ne same] at promise
      exact inv q found promise
  | makeDirectory p allowed =>
    have cases := Mount.makeDirectory_cases cfg s.mount valid.2 allowed
    rw [Option.some.inj stepped] at cases
    obtain ⟨places, ⟨code, nodes⟩ | ⟨code, free, parent, nodes⟩⟩ := cases
    · exact inv.of_same places (failed code) fun _ _ _ => congrFun nodes _
    · exact inv.agrees places valid (sound free parent) (done code) nodes
  | removeDirectory p allowed =>
    have cases := Mount.removeDirectory_cases cfg s.mount valid.1.2 allowed
    rw [Option.some.inj stepped] at cases
    obtain ⟨places, ⟨code, nodes⟩ | ⟨code, ⟨permitted, dir⟩, nodes⟩⟩ := cases
    · exact inv.of_same places (failed code) fun _ _ _ => congrFun nodes _
    · exact inv.agrees places valid.1 (sound dir (valid.2 permitted)) (done code) nodes
  | removeFile p allowed =>
    have cases := Mount.removeFile_cases cfg s.mount valid.2 allowed
    rw [Option.some.inj stepped] at cases
    obtain ⟨places, ⟨code, nodes⟩ | ⟨code, ⟨_, file⟩, nodes⟩⟩ := cases
    · exact inv.of_same places (failed code) fun _ _ _ => congrFun nodes _
    · exact inv.agrees places valid (sound file) (done code) nodes
  | readFile p answers made sz off =>
    have cases := Mount.readFile_cases s.mount valid.1.2 answers valid.2 sz off
    have moved : (s.mount.readFile cfg answers made (fusePath p) sz off).1 = m' :=
      congrArg Prod.fst (Option.some.inj stepped)
    rw [moved] at cases
    obtain ⟨places, nodes | ⟨file, nodes⟩⟩ := cases
    · exact inv.of_same places (silent rfl) fun _ _ _ => congrFun nodes _
    · refine inv.of_same places (silent rfl) fun q found promise => nodes _ ?_
      cases found with
      | some kind =>
        left
        rw [(inv q _ promise).2]
        exact Option.some_ne_none kind
      | none => exact .inr (sound file q promise)
  | writeFile p answer buf off =>
    have cases := Mount.writeFile_cases cfg s.mount valid.2 answer buf off
    rw [Option.some.inj stepped] at cases
    obtain ⟨places, nodes | ⟨free, parent, nodes⟩⟩ := cases
    · exact inv.of_same places (silent rfl) fun _ _ _ => congrFun nodes _
    · refine inv.of_same places (silent rfl) fun q found promise => ?_
      -- What comes to be was there before or is promised to be absent.
      have other : q ≠ p := by
        rintro rfl
        have absent := (inv q found promise).2
        rw [free] at absent
        exact sound free parent (absent ▸ promise)
      have apart : s.mount.remoteTop cfg ++ q ≠ s.mount.remoteTop cfg ++ p := fun same =>
        other (List.append_cancel_left same)
      rw [nodes, Function.update_of_ne apart]
  | releaseFiles p used =>
    obtain ⟨places, nodes⟩ := Mount.releaseFiles_cases (fusePath p) stepped
    exact inv.of_same places (silent rfl) fun q found promise => nodes _ (sound q found promise)

theorem shows_unique {found found' : Option Kind} (first : r.Shows found)
    (second : r.Shows found') : found = found' := by
  cases found with
  | none =>
    cases found' with
    | none => rfl
    | some kind => exact absurd (first.symm.trans second.1) (by decide)
  | some kind =>
    cases found' with
    | none => exact absurd (second.symm.trans first.1) (by decide)
    | some kind' => exact first.2.symm.trans second.2

theorem Kept.node (kept : s.Kept cfg) {p : Path} (plain : Plain p) {found : Option Kind}
    (promise : s.promised p = some found) : s.mount.node (s.mount.remoteTop cfg ++ p) = found :=
  shows_unique (Mount.getAttribute_shows cfg s.mount plain) (kept p found promise)

theorem agrees_of_kept (inv : Inv cfg s) (kept : s'.Kept cfg)
    (places : Mount.SamePlaces cfg s.mount s'.mount) {p : Path} (plain : Plain p)
    {new : Option Kind} (promised : s'.promised = Function.update s.promised p (some new))
    (nodes : s'.mount.node = Function.update s.mount.node (s.mount.cacheTop cfg ++ p) new) :
    s.Agrees cfg p new := by
  constructor
  · have promise : s'.promised p = some new := by rw [promised, Function.update_self]
    have own := Kept.node kept plain promise
    rw [places.remote, nodes] at own
    by_cases here : s.mount.remoteTop cfg ++ p = s.mount.cacheTop cfg ++ p
    · exact .inl (List.append_cancel_right here).symm
    · rw [Function.update_of_ne here] at own
      exact .inr own
  · intro q other here found promise
    have still : s'.promised q = some found := by
      rw [promised, Function.update_of_ne other, promise]
    have stays := Kept.node kept (inv q found promise).1.2 still
    rw [places.remote, nodes, here, Function.update_self] at stays
    exact stays.symm

/-- Where a call that makes or removes something succeeds, the condition is also necessary. -/
theorem Inv.kept_iff (inv : Inv cfg s) (taken : s.Steps cfg c r s') (code : r.code = 0)
    (changes : ∃ p allowed, c = .createFile p ∨ c = .makeDirectory p allowed ∨
      c = .removeDirectory p allowed ∨ c = .removeFile p allowed) :
    s'.Kept cfg ↔ s.Sound cfg c := by
  constructor
  swap
  · intro sound
    exact (inv.step ⟨taken, sound⟩).kept
  intro kept
  obtain ⟨valid, stepped, promised⟩ := taken
  rw [code] at promised
  obtain ⟨p, allowed, rfl | rfl | rfl | rfl⟩ := changes
  · have still : s.mount = s'.mount := congrArg Prod.fst (Option.some.inj stepped)
    have promise : s'.promised p = some (some .file) := by
      rw [promised]
      exact Function.update_self ..
    have own := Kept.node kept valid.2 promise
    rwa [← still] at own
  · have cases := Mount.makeDirectory_cases cfg s.mount valid.2 allowed
    rw [Option.some.inj stepped] at cases
    obtain ⟨places, ⟨failed, _⟩ | ⟨_, _, _, nodes⟩⟩ := cases
    · exact absurd (failed.symm.trans code) (by decide)
    · exact fun _ _ => agrees_of_kept inv kept places valid.2 promised nodes
  · have cases := Mount.removeDirectory_cases cfg s.mount valid.1.2 allowed
    rw [Option.some.inj stepped] at cases
    obtain ⟨places, ⟨failed, _⟩ | ⟨_, _, nodes⟩⟩ := cases
    · exact absurd (failed.symm.trans code) (by decide)
    · exact fun _ _ => agrees_of_kept inv kept places valid.1.2 promised nodes
  · have cases := Mount.removeFile_cases cfg s.mount valid.2 allowed
    rw [Option.some.inj stepped] at cases
    obtain ⟨places, ⟨failed, _⟩ | ⟨_, _, nodes⟩⟩ := cases
    · exact absurd (failed.symm.trans code) (by decide)
    · exact fun _ => agrees_of_kept inv kept places valid.2 promised nodes

/-- A listing of the top is right exactly if there is nothing. -/
theorem lists_iff (taken : s.Steps cfg (.readDirectory []) r s') :
    s.mount.Lists cfg r ↔
      ∀ name, PlainName name → s.mount.node (s.mount.remoteTop cfg ++ [name]) = none := by
  obtain ⟨_, stepped, _⟩ := taken
  have nothing : r = .of (-1) := (congrArg Prod.snd (Option.some.inj stepped)).symm
  subst nothing
  refine forall₂_congr fun name plain => ?_
  have top : Plain [name] := by simpa [Plain]
  have shows := Mount.getAttribute_shows cfg s.mount top
  have unlisted : name ∉ (Reply.of (-1)).names := Set.notMem_empty name
  rw [iff_false_left unlisted]
  cases there : s.mount.node (s.mount.remoteTop cfg ++ [name]) with
  | none =>
    rw [there] at shows
    have missing : (s.mount.getAttribute cfg (fusePath [name])).2.code = -1 := shows
    simp [missing]
  | some kind =>
    rw [there] at shows
    simp [shows.1]

end Observed

/-- In every run whose steps all meet the condition, `getattr` finds what the callbacks have
promised, and listings of the top show what `getattr` finds there. -/
theorem namespace_consistent {start : Mount} {trace : List (Call × Reply)} {s : Observed}
    (run : Run (Observed.SoundSteps cfg) ⟨start, fun _ => none⟩ trace s) :
    s.Kept cfg ∧
      ∀ r s', s.SoundSteps cfg (.readDirectory []) r s' → s.mount.Lists cfg r := by
  have inv : Observed.Inv cfg s := by
    induction run with
    | refl =>
      intro p found promise
      cases promise
    | next _ taken ih => exact ih.step taken
  constructor
  · exact inv.kept
  · intro r s' taken
    exact (Observed.lists_iff taken.1).mpr (taken.2 rfl)

/-- A remote directory `/r` with one file, and a cache directory whose last letter gives way to
the slash of the remote directory. -/
def sampleMount : Mount where
  cache := .new fun x => if x = [['r'], ['f']] then some .empty else none
  dirs x := x = [] || x = [['r']] || x = [['r', 'x']]
  cacheDirectory := ['/', 'r', 'x']
  fileRemoteDirectory := ['/', 'r', '/']

/-- A directory is made, and the file that is there is created. -/
theorem namespace_consistent_sample :
    let made := sampleMount.makeDirectory .sample true (fusePath [['d']])
    let promised := remember (fun _ => none) (.makeDirectory [['d']] true) made.2.code
    let s : Observed := ⟨made.1, remember promised (.createFile [['f']]) 0⟩
    s.Kept .sample ∧
      ∀ r s', s.SoundSteps .sample (.readDirectory []) r s' → s.mount.Lists .sample r := by
  intro made promised s
  have below (c : Char) (name : PlainName [c]) : Below [[c]] := by simpa [Below, Plain]
  have first : Observed.SoundSteps .sample ⟨sampleMount, fun _ => none⟩
      (.makeDirectory [['d']] true) made.2 ⟨made.1, promised⟩ :=
    ⟨⟨below 'd' (by unfold PlainName; decide), rfl, rfl⟩, fun _ _ => ⟨.inl (by decide), nofun⟩⟩
  have second : Observed.SoundSteps .sample ⟨made.1, promised⟩ (.createFile [['f']]) (.of 0) s :=
    ⟨⟨below 'f' (by unfold PlainName; decide), rfl, rfl⟩,
      show made.1.node (made.1.remoteTop .sample ++ [['f']]) = some .file by decide⟩
  exact namespace_consistent .sample (.next (.next (.refl _) first) second)

/-- A remote directory with nothing in it. -/
def emptyMount : Mount where
  cache := .new fun _ => none
  dirs x := x = [] || x = [['r']] || x = [['c']]
  cacheDirectory := ['/', 'c']
  fileRemoteDirectory := ['/', 'r', '/']

/-- `create` reports success, and there is no file. -/
theorem create_makes_nothing :
    let made := emptyMount.createFile (fusePath [['f']])
    emptyMount.cacheDirectory ≠ emptyMount.fileRemoteDirectory ∧ made.2.code = 0 ∧
      (made.1.getAttribute .sample (fusePath [['f']])).2.code = -1 := by
  decide

end Fuse

end RemoteCache
