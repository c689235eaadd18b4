import RemoteCache.Cache.Manager
import RemoteCache.Lib.OpenFiles
import RemoteCache.Lib.Transition

/-!
# The directories of the cache root

## Main results

`directories_suffice`: the cache, which makes and removes shard directories as it
goes, always finds those that it needs, and its accesses have the effects and the
results that they have on flat files.

`no_empty_directories`: if no file fails to open, no access leaves an empty
directory behind.

## Proof strategy

Nothing is ever in the way of a file of the cache, and its root stays. So every
`open` finds its directory, and fails only if the kernel says so.
-/
namespace RemoteCache

open FsLayout

namespace Config

variable (cfg : Config)

/-- The upper of the two directories of an object. -/
def firstShard (hashHex : Digest) : Path :=
  resolve cfg.cwd (cfg.root ++ '/' :: hashHex.text.take 2)

/-- Where the cache has files: data parts, bitmaps, and the copies of some paths. -/
def locations (copies : Set Str) : Set Path :=
  {p | (∃ d k, p = cfg.dataPart d k) ∨ (∃ d k, p = cfg.bitmap d k) ∨
    ∃ path ∈ copies, p = cfg.copy path}

end Config

namespace CacheRoot

variable (cfg : Config)

/-- The content that `persistBitmap` gives to the file. -/
def bitmapBytes (bits : List Bool) : Bytes :=
  let bytes := MetadataStore.packBits bits
  .ofFn bytes.length fun i => bytes.getD i 0

/-- What the cache does with the files under its root. -/
inductive Access where
  | read (hashHex : Digest) (len off : ℕ)
  | write (hashHex : Digest) (data : Bytes) (off : ℕ) (a : Answer)
  | deleteObject (hashHex : Digest)
  | persistBitmap (hashHex : Digest) (partIdx : ℕ) (bits : List Bool) (a : Answer)
  | readCopy (path : Str) (len off : ℕ)
  | writeCopy (path : Str) (data : Bytes) (off : ℕ) (a : Answer)

inductive Reply where
  | bytes (r : Except ℕ Bytes)
  | count (r : Except ℕ ℕ)
  | ok (r : Bool)
  | done

/-! ### On flat files -/

def onFiles (fs : Files) : Access → Files × Reply
  | .read hashHex len off => (fs, .bytes (BlockStore.read cfg fs hashHex len off))
  | .write hashHex data off a =>
    let r := BlockStore.write cfg fs hashHex data off a
    (r.1, .count r.2)
  | .deleteObject hashHex => (BlockStore.deleteObject cfg fs hashHex, .done)
  | .persistBitmap hashHex partIdx bits a =>
    if bits = [] then (fs, .ok true)
    else
      let r := fs.rewrite (cfg.bitmap hashHex partIdx) (bitmapBytes bits) a
      (r.1, .ok (r.2.toOption = some (bitmapBytes bits).size))
  | .readCopy path len off => (fs, .bytes (fs.pread (cfg.copy path) len off))
  | .writeCopy path data off a =>
    let r := fs.pwrite (cfg.copy path) data off a
    (r.1, .count r.2)

/-! ### On the directory tree -/

/-- `BlockStore::init` -/
def init (t : Tree Bytes) : Tree Bytes :=
  if (t.node cfg.base).isSome then t else (t.makedirs [] cfg.base).getD t

def ensureShardDirs (t : Tree Bytes) (hashHex : Digest) : Tree Bytes :=
  (t.mkdir (cfg.firstShard hashHex)).mkdir (cfg.shard hashHex)

def read (t : Tree Bytes) (hashHex : Digest) (len off : ℕ) : Except ℕ Bytes :=
  t.pread (cfg.dataPart hashHex (off / kMaxPartSize)) len (off % kMaxPartSize)

def write (t : Tree Bytes) (hashHex : Digest) (data : Bytes) (off : ℕ) (a : Answer) :
    Tree Bytes × Except ℕ ℕ :=
  (ensureShardDirs cfg t hashHex).pwrite (cfg.dataPart hashHex (off / kMaxPartSize)) data
    (off % kMaxPartSize) a

/-- The name of an entry of the shard directory starts with the hash. -/
def OfObject (hashHex : Digest) (at_ : Path) : Prop :=
  at_.dropLast = cfg.shard hashHex ∧ hashHex.text <+: at_.getLastD []

instance (hashHex : Digest) : DecidablePred (OfObject cfg hashHex) :=
  fun _ => inferInstanceAs (Decidable (_ ∧ _))

section

variable [∀ (t : Tree Bytes) (q : Path), Decidable (t.Bare q)]

/-- No result stands for an exception. -/
def deleteObject (t : Tree Bytes) (hashHex : Digest) : Option (Tree Bytes) :=
  match t.node (cfg.shard hashHex) with
  | none => some t
  -- A file cannot be listed.
  | some (.file _) => none
  | some .dir =>
    let t := t.drop (OfObject cfg hashHex)
    -- `fs::remove` fails on a directory that is not empty, and the failure is ignored.
    let t := t.drop (· = cfg.shard hashHex)
    some (t.drop (· = cfg.firstShard hashHex))

def persistBitmap (t : Tree Bytes) (hashHex : Digest) (partIdx : ℕ) (bits : List Bool)
    (a : Answer) : Option (Tree Bytes × Bool) :=
  if bits = [] then some (t, true)
  else
    (t.makedirs [] (cfg.bitmap hashHex partIdx).dropLast).map fun t =>
      let r := t.rewrite (cfg.bitmap hashHex partIdx) (bitmapBytes bits) a
      (r.1, r.2.toOption = some (bitmapBytes bits).size)

/-- `ensure_dst` and `pwrite` -/
def writeCopy (t : Tree Bytes) (path : Str) (data : Bytes) (off : ℕ) (a : Answer) :
    Option (Tree Bytes × Except ℕ ℕ) :=
  (t.makedirs [] (cfg.copy path).dropLast).map fun t => t.pwrite (cfg.copy path) data off a

def onTree (t : Tree Bytes) : Access → Option (Tree Bytes × Reply)
  | .read hashHex len off => some (t, .bytes (read cfg t hashHex len off))
  | .write hashHex data off a =>
    let r := write cfg t hashHex data off a
    some (r.1, .count r.2)
  | .deleteObject hashHex => (deleteObject cfg t hashHex).map fun t => (t, .done)
  | .persistBitmap hashHex partIdx bits a =>
    (persistBitmap cfg t hashHex partIdx bits a).map fun r => (r.1, .ok r.2)
  | .readCopy path len off => some (t, .bytes (t.pread (cfg.copy path) len off))
  | .writeCopy path data off a =>
    (writeCopy cfg t path data off a).map fun r => (r.1, .count r.2)

end

/-- The copy that an access is about has a path without empty components, `.` and `..`. -/
def Access.Fine (copies : Set Str) : Access → Prop
  | readCopy path _ _ => path ∈ copies ∧ NormalPath path
  | writeCopy path _ _ _ => path ∈ copies ∧ NormalPath path
  | _ => True

/-- The kernel lets the access open its file. -/
def Access.Opens : Access → Prop
  | write _ _ _ a => a.Opens
  | persistBitmap _ _ _ a => a.Opens
  | writeCopy _ _ _ a => a.Opens
  | _ => True

/-- The root is there, and nothing is in the way of a file. -/
structure Sound (copies : Set Str) (t : Tree Bytes) : Prop where
  base : t.node cfg.base = some .dir
  clear : t.Clear (cfg.locations copies)

variable {cfg} {copies : Set Str} {t : Tree Bytes}

/-- Without failures a bitmap is stored as by the model that ignores them. -/
theorem onFiles_persistBitmap (fs : Files) (d : Digest) (k : ℕ) (bits : List Bool) :
    (onFiles cfg fs (.persistBitmap d k bits .done)).1 =
      MetadataStore.persistBitmap cfg fs d k bits := by
  simp only [onFiles, MetadataStore.persistBitmap]
  by_cases empty : bits = []
  · rw [if_pos empty, if_pos empty]
  · rw [if_neg empty, if_neg empty]
    simp only [Files.rewrite, Files.pwrite, Files.content_set_same]
    rw [Blob.write_zero_eq _ _ (Nat.zero_le _)]
    simp only [Files.set, Function.update_idem, bitmapBytes]

/-! ### Locations -/

theorem firstShard_eq (d : Digest) : cfg.firstShard d = cfg.base ++ [d.text.take 2] := by
  have plain := d.plain_take 0 2 (by decide) (by decide)
  rw [List.drop_zero] at plain
  rw [Config.firstShard, resolve_append, components_plain plain, List.foldl_cons, List.foldl_nil,
    descend_plain _ plain, Config.base]

theorem shard_dropLast (d : Digest) : (cfg.shard d).dropLast = cfg.firstShard d := by
  rw [cfg.shard_eq, firstShard_eq, List.dropLast_append_of_ne_nil (by simp)]
  rfl

theorem firstShard_dropLast (d : Digest) : (cfg.firstShard d).dropLast = cfg.base := by
  rw [firstShard_eq, List.dropLast_concat]

theorem dataPart_dropLast (d : Digest) (k : ℕ) : (cfg.dataPart d k).dropLast = cfg.shard d := by
  rw [cfg.dataPart_eq, cfg.shard_eq, List.dropLast_append_of_ne_nil (by simp)]
  rfl

theorem firstShard_ne_nil (d : Digest) : cfg.firstShard d ≠ [] := by simp [firstShard_eq]

theorem shard_ne_nil (d : Digest) : cfg.shard d ≠ [] := by simp [cfg.shard_eq]

theorem firstShard_above (d : Digest) : cfg.firstShard d <+: cfg.shard d := by
  rw [← shard_dropLast]
  exact List.dropLast_prefix _

theorem dataPart_mem (d : Digest) (k : ℕ) : cfg.dataPart d k ∈ cfg.locations copies :=
  .inl ⟨d, k, rfl⟩

theorem bitmap_mem (d : Digest) (k : ℕ) : cfg.bitmap d k ∈ cfg.locations copies :=
  .inr (.inl ⟨d, k, rfl⟩)

theorem copy_mem {path : Str} (named : path ∈ copies) : cfg.copy path ∈ cfg.locations copies :=
  .inr (.inr ⟨path, named, rfl⟩)

theorem shardFile_eq {p : Path}
    (file : (∃ d k, p = cfg.dataPart d k) ∨ ∃ d k, p = cfg.bitmap d k) :
    ∃ first second name, p = cfg.base ++ [first, second, name] ∧ first.length = 2 := by
  have two : ∀ d : Digest, (d.text.take 2).length = 2 := fun d => by
    rw [List.length_take, d.length]
    rfl
  rcases file with ⟨d, k, rfl⟩ | ⟨d, k, rfl⟩
  · exact ⟨_, _, _, cfg.dataPart_eq d k, two d⟩
  · exact ⟨_, _, _, cfg.bitmap_eq d k, two d⟩

/-- Copies that are not above one another, and whose first name below the root is not of two
letters, can be there together with the files of all objects. -/
theorem locations_apart
    (away : ∀ path ∈ copies, ∃ first rest, cfg.copy path = cfg.base ++ first :: rest ∧
      first.length ≠ 2)
    (apart : ∀ p ∈ copies, ∀ q ∈ copies, cfg.copy p ≠ cfg.copy q → ¬cfg.copy p <+: cfg.copy q) :
    IsAntichain (· <+: ·) (cfg.locations copies) := by
  intro p first q second other above
  rw [Config.locations, Set.mem_ofPred_eq, ← or_assoc] at first second
  rcases first with file | ⟨path, named, rfl⟩
  · obtain ⟨a, b, c, rfl, two⟩ := shardFile_eq file
    rcases second with file' | ⟨path', named', rfl⟩
    · obtain ⟨a', b', c', rfl, _⟩ := shardFile_eq file'
      exact other (above.eq_of_length (by simp))
    · obtain ⟨name, rest, same, long⟩ := away path' named'
      rw [same, List.prefix_append_right_inj, List.cons_prefix_cons] at above
      exact long (above.1 ▸ two)
  · rcases second with file' | ⟨path', named', rfl⟩
    · obtain ⟨a', b', c', rfl, two⟩ := shardFile_eq file'
      obtain ⟨name, rest, same, long⟩ := away path named
      rw [same, List.prefix_append_right_inj, List.cons_prefix_cons] at above
      exact long (above.1 ▸ two)
    · exact apart path named path' named' other above

/-! ### Accesses -/

/-- The directories of an object are made. -/
theorem ensureShardDirs_spec (sound : Sound cfg copies t) (d : Digest) :
    Tree.Widened t (ensureShardDirs cfg t d) (cfg.shard d) ∧
      (ensureShardDirs cfg t d).node (cfg.shard d) = some .dir := by
  have member : cfg.dataPart d 0 ∈ cfg.locations copies := dataPart_mem d 0
  have clear : ∀ {p}, p <+: cfg.shard d → t.file p = none := fun above =>
    sound.clear.above member (by rwa [dataPart_dropLast])
  have first := t.mkdir_widened (cfg.firstShard d)
  have upper : (t.mkdir (cfg.firstShard d)).node (cfg.firstShard d) = some .dir :=
    Tree.mkdir_dir (firstShard_ne_nil d) (by rw [firstShard_dropLast, sound.base])
      (clear (firstShard_above d))
  have second := (t.mkdir (cfg.firstShard d)).mkdir_widened (cfg.shard d)
  refine ⟨first.trans second (firstShard_above d), ?_⟩
  refine Tree.mkdir_dir (shard_ne_nil d) (by rw [shard_dropLast, upper]) ?_
  rw [first.file]
  exact clear (List.prefix_refl _)

/-- A sound tree in which a file is written is sound. -/
theorem Sound.written (sound : Sound cfg copies t) {t' : Tree Bytes} {a : Answer}
    (written : Tree.Written (cfg.locations copies) t t' a) : Sound cfg copies t' :=
  ⟨written.dirs _ sound.base, written.clear⟩

section

variable [∀ (t : Tree Bytes) (q : Path), Decidable (t.Bare q)]

/-- Removing an object never throws, removes its files alone, and the directories that were left
empty with them. -/
theorem deleteObject_spec (sound : Sound cfg copies t) (d : Digest) :
    ∃ t', deleteObject cfg t d = some t' ∧ t'.file = BlockStore.deleteObject cfg t.file d ∧
      Sound cfg copies t' ∧ t'.emptyDirs ⊆ insert cfg.base t.emptyDirs := by
  have member : cfg.dataPart d 0 ∈ cfg.locations copies := dataPart_mem d 0
  have clear : ∀ {p}, p <+: cfg.shard d → t.file p = none := fun above =>
    sound.clear.above member (by rwa [dataPart_dropLast])
  cases found : t.node (cfg.shard d) with
  | none =>
    refine ⟨t, by simp only [deleteObject, found], ?_, sound, Set.subset_insert _ _⟩
    funext p
    rw [BlockStore.deleteObject]
    split
    next inside =>
      have absent : t.node p = none := by
        refine t.absent_below (p := cfg.shard d) (by simp [found]) ?_ ?_
        · rw [← inside.1]
          exact List.dropLast_prefix p
        · exact fun same => Tree.not_under_parent (shard_ne_nil d) (by
            conv_lhs => rw [← inside.1, ← same])
      rw [Tree.file, absent]
    · rfl
  | some n =>
    cases n with
    | file b =>
      have none := clear (List.prefix_refl _)
      simp [Tree.file, found] at none
    | dir =>
      let first := t.drop (OfObject cfg d)
      let second := first.drop (· = cfg.shard d)
      have noFile : ∀ {p}, p <+: cfg.shard d → first.file p = none := fun above => by
        simp only [first, Tree.file_drop, clear above, ite_self]
      have files : first.file = BlockStore.deleteObject cfg t.file d := by
        simp only [first, Tree.file_drop]
        rfl
      have files' : second.file = first.file := by
        simp only [second, Tree.file_drop]
        funext p
        split
        next same => rw [same, noFile (List.prefix_refl _)]
        · rfl
      refine ⟨second.drop (· = cfg.firstShard d), by simp only [deleteObject, found, first, second],
        ?_, ⟨?_, ?_⟩, ?_⟩
      · rw [Tree.file_drop, ← files, ← files']
        funext p
        split
        next same => rw [same, files', noFile (firstShard_above d)]
        · rfl
      · have upper : cfg.base ≠ cfg.firstShard d := by simp [firstShard_eq]
        have lower : cfg.base ≠ cfg.shard d := by simp [cfg.shard_eq]
        have entry : ¬OfObject cfg d cfg.base := fun inside => by
          have length := congrArg List.length inside.1
          rw [List.length_dropLast, cfg.shard_eq, List.length_append] at length
          simp only [List.length_cons, List.length_nil] at length
          omega
        rw [second.drop_other (· = cfg.firstShard d) upper,
          first.drop_other (· = cfg.shard d) lower, t.drop_other (OfObject cfg d) entry, sound.base]
      · exact ((sound.clear.drop _).drop _).drop _
      -- Each directory that has become empty is the next to be removed, up to the root.
      · have entries : first.emptyDirs ⊆ insert (cfg.shard d) t.emptyDirs :=
          Tree.emptyDirs_drop _ fun x gone => gone.1
        have lower : second.emptyDirs ⊆ insert (cfg.firstShard d) first.emptyDirs :=
          Tree.emptyDirs_drop _ fun x gone => by rw [gone, shard_dropLast]
        have upper : (second.drop (· = cfg.firstShard d)).emptyDirs ⊆
            insert cfg.base second.emptyDirs :=
          Tree.emptyDirs_drop _ fun x gone => by rw [gone, firstShard_dropLast]
        intro p empty
        rcases upper empty with root | empty'
        · exact .inl root
        rcases lower empty' with same | empty''
        · exact absurd (same ▸ empty) (Tree.emptyDirs_rmdir (firstShard_ne_nil d))
        rcases entries empty'' with same | before
        · exact absurd (same ▸ empty') (Tree.emptyDirs_rmdir (shard_ne_nil d))
        · exact .inr before

/-- An access has the effect and the result that it has on flat files, keeps the tree sound, and
leaves no empty directory if its file opens. -/
theorem onTree_spec (apart : IsAntichain (· <+: ·) (cfg.locations copies))
    (sound : Sound cfg copies t) (e : Access) (fine : e.Fine copies) :
    ∃ t', onTree cfg t e = some (t', (onFiles cfg t.file e).2) ∧
      t'.file = (onFiles cfg t.file e).1 ∧ Sound cfg copies t' ∧
      (e.Opens → t'.emptyDirs ⊆ insert cfg.base t.emptyDirs) := by
  have same := Set.subset_insert cfg.base t.emptyDirs
  cases e with
  | read d len off =>
    refine ⟨t, ?_, rfl, sound, fun _ => same⟩
    simp only [onTree, read, sound.clear.pread (dataPart_mem d _)]
    rfl
  | write d data off a =>
    obtain ⟨wide, dir⟩ := ensureShardDirs_spec sound d
    rw [← dataPart_dropLast d (off / kMaxPartSize)] at wide dir
    obtain ⟨files, written⟩ := sound.clear.pwrite apart (dataPart_mem d _) wide dir data
      (off % kMaxPartSize) a
    refine ⟨_, ?_, congrArg Prod.fst files, sound.written written,
      fun opens => (written.full opens).trans same⟩
    simp only [onTree, write, onFiles, BlockStore.write, ← files]
  | deleteObject d =>
    obtain ⟨t', done, files, sound', full⟩ := deleteObject_spec sound d
    exact ⟨t', by simp only [onTree, done, Option.map_some, onFiles], files, sound', fun _ => full⟩
  | persistBitmap d k bits a =>
    simp only [onTree, persistBitmap, onFiles]
    by_cases empty : bits = []
    · simp only [if_pos empty]
      exact ⟨t, rfl, rfl, sound, fun _ => same⟩
    · simp only [if_neg empty]
      have member : cfg.bitmap d k ∈ cfg.locations copies := bitmap_mem d k
      obtain ⟨mid, made⟩ := sound.clear.makedirs member (List.prefix_refl _)
      obtain ⟨wide, dir⟩ := Tree.makedirs_widened made
      obtain ⟨files, written⟩ := sound.clear.rewrite apart member wide dir (bitmapBytes bits) a
      refine ⟨_, ?_, congrArg Prod.fst files, sound.written written,
        fun opens => (written.full opens).trans same⟩
      simp only [made, Option.map_some, ← files]
  | readCopy path len off =>
    refine ⟨t, ?_, rfl, sound, fun _ => same⟩
    simp only [onTree, onFiles, sound.clear.pread (copy_mem fine.1)]
  | writeCopy path data off a =>
    have member : cfg.copy path ∈ cfg.locations copies := copy_mem fine.1
    obtain ⟨mid, made⟩ := sound.clear.makedirs member (List.prefix_refl _)
    obtain ⟨wide, dir⟩ := Tree.makedirs_widened made
    obtain ⟨files, written⟩ := sound.clear.pwrite apart member wide dir data off a
    refine ⟨_, ?_, congrArg Prod.fst files, sound.written written,
      fun opens => (written.full opens).trans same⟩
    simp only [onTree, writeCopy, made, Option.map_some, onFiles, ← files]

end

/-- The root is made when the cache is opened. -/
theorem init_spec (apart : IsAntichain (· <+: ·) (cfg.locations copies))
    (clear : t.Clear (cfg.locations copies)) :
    Sound cfg copies (init cfg t) ∧ (init cfg t).file = t.file ∧
      (init cfg t).emptyDirs ⊆ insert cfg.base t.emptyDirs := by
  have member : cfg.dataPart (.ofHash 0) 0 ∈ cfg.locations copies := dataPart_mem _ 0
  have above : cfg.base <+: (cfg.dataPart (.ofHash 0) 0).dropLast := by
    rw [dataPart_dropLast, cfg.shard_eq]
    exact List.prefix_append _ _
  have made : Tree.Widened t (init cfg t) cfg.base ∧ (init cfg t).node cfg.base = some .dir := by
    unfold init
    cases found : t.node cfg.base with
    | none =>
      obtain ⟨t', done⟩ := clear.makedirs member above
      simp only [Option.isSome_none, Bool.false_eq_true, if_false, done, Option.getD_some]
      exact Tree.makedirs_widened done
    | some n =>
      cases n with
      | file b =>
        have none := clear.above member above
        simp [Tree.file, found] at none
      | dir => exact ⟨.refl t _, found⟩
  obtain ⟨wide, dir⟩ := made
  exact ⟨⟨dir, clear.widened apart member (wide.trans (.refl _ _) above)⟩, wide.file,
    Tree.emptyDirs_widened wide dir⟩

section

variable [∀ (t : Tree Bytes) (q : Path), Decidable (t.Bare q)]

/-- The accesses go through one after the other. -/
theorem exec_spec (apart : IsAntichain (· <+: ·) (cfg.locations copies))
    (clear : t.Clear (cfg.locations copies)) {es : List Access}
    (fine : ∀ e ∈ es, e.Fine copies) :
    ∃ t' trace, exec (onTree cfg) (init cfg t) es = some (t', trace) ∧
      exec (fun fs e => some (onFiles cfg fs e)) t.file es = some (t'.file, trace) ∧
      ((∀ e ∈ es, e.Opens) → t'.emptyDirs ⊆ insert cfg.base t.emptyDirs) := by
  obtain ⟨sound, files, full⟩ := init_spec apart clear
  let R (s : Tree Bytes) (fs : Files) : Prop := Sound cfg copies s ∧ s.file = fs ∧
    ((∀ e ∈ es, e.Opens) → s.emptyDirs ⊆ insert cfg.base t.emptyDirs)
  have each : ∀ e ∈ es, ∀ s fs, R s fs → ∃ s' fs' o, onTree cfg s e = some (s', o) ∧
      some (onFiles cfg fs e) = some (fs', o) ∧ R s' fs' := by
    rintro e member s _ ⟨sound, rfl, full⟩
    obtain ⟨s', done, same, sound', kept⟩ := onTree_spec apart sound e (fine e member)
    refine ⟨s', _, _, done, rfl, sound', same, fun opens => ?_⟩
    exact (kept (opens e member)).trans (Set.insert_subset (.inl rfl) (full opens))
  have start : R (init cfg t) t.file := ⟨sound, files, fun _ => full⟩
  obtain ⟨t', _, trace, first, second, _, rfl, full'⟩ := Run.exec_simulates each start
  exact ⟨t', trace, first, second, full'⟩

/-- If nothing is in the way of the cache's files at the start, and none of them is to be where a
directory of another one is, the cache finds all its directories in every sequence of accesses:
each has the effect on the files and the result that it has on flat files. -/
theorem directories_suffice (cfg : Config) (copies : Set Str) (t : Tree Bytes)
    (apart : IsAntichain (· <+: ·) (cfg.locations copies))
    (clear : t.Clear (cfg.locations copies)) (es : List Access)
    (fine : ∀ e ∈ es, e.Fine copies) :
    ∃ t' trace, exec (onTree cfg) (init cfg t) es = some (t', trace) ∧
      exec (fun fs e => some (onFiles cfg fs e)) t.file es = some (t'.file, trace) := by
  obtain ⟨t', trace, first, second, _⟩ := exec_spec apart clear fine
  exact ⟨t', trace, first, second⟩

end

/-- An object is stored and removed, and a copy is written. -/
def sampleAccesses : List Access :=
  [.write (.ofHash 1) (.ofFn 5 fun i => .ofNat i) 0 .done, .deleteObject (.ofHash 1),
    .writeCopy ['/', 'f'] (.ofFn 5 fun i => .ofNat i) 0 .done, .read (.ofHash 1) 4 0]

theorem locations_sample : IsAntichain (· <+: ·) (Config.sample.locations {['/', 'f']}) := by
  apply locations_apart
  · rintro _ rfl
    exact ⟨['f'], [], by decide, by decide⟩
  · rintro _ rfl _ rfl other
    exact absurd rfl other

/-- Nothing is in the way in an empty tree. -/
theorem clear_sample : (Tree.empty (α := Bytes)).Clear (Config.sample.locations {['/', 'f']}) := by
  have noFile : ∀ q, (Tree.empty (α := Bytes)).file q = none := fun q => by
    by_cases top : q = []
    · simp [Tree.file, Tree.empty, top]
    · simp [Tree.file, Tree.empty, top]
  rintro p member (⟨q, _, file⟩ | dir)
  · rw [noFile] at file
    cases file
  · by_cases top : p = []
    · exact locations_sample member (dataPart_mem (.ofHash 0) 0)
        (by simp [top, Config.dataPart_eq]) (by simp [top])
    · simp [Tree.empty, top] at dir

theorem fine_sample : ∀ e ∈ sampleAccesses, e.Fine {['/', 'f']} := by
  have normal : NormalPath ['/', 'f'] :=
    ⟨[['f']], by simp, by simp [PlainName], by simp [slashed]⟩
  simpa [sampleAccesses, Access.Fine] using normal

open Classical in
theorem directories_suffice_sample : ∃ t' trace,
    exec (onTree .sample) (init .sample Tree.empty) sampleAccesses = some (t', trace) ∧
      exec (fun fs e => some (onFiles .sample fs e)) Tree.empty.file sampleAccesses =
        some (t'.file, trace) :=
  directories_suffice .sample {['/', 'f']} Tree.empty locations_sample clear_sample sampleAccesses
    fine_sample

/-- If moreover no file fails to open, then afterwards there is no empty directory that was not
empty before, except the root. -/
theorem no_empty_directories [∀ (t : Tree Bytes) (q : Path), Decidable (t.Bare q)] (cfg : Config)
    (copies : Set Str) (t t' : Tree Bytes)
    (apart : IsAntichain (· <+: ·) (cfg.locations copies))
    (clear : t.Clear (cfg.locations copies)) (es : List Access)
    (fine : ∀ e ∈ es, e.Fine copies) (opens : ∀ e ∈ es, e.Opens)
    (trace : List (Access × Reply)) (done : exec (onTree cfg) (init cfg t) es = some (t', trace)) :
    t'.emptyDirs ⊆ insert cfg.base t.emptyDirs := by
  obtain ⟨u, _, done', _, full⟩ := exec_spec apart clear fine
  obtain ⟨rfl, _⟩ : u = t' ∧ _ := by simpa using done'.symm.trans done
  exact full opens

open Classical in
theorem no_empty_directories_sample : ∃ (t' : Tree Bytes) (trace : List (Access × Reply)),
    exec (onTree .sample) (init .sample Tree.empty) sampleAccesses = some (t', trace) ∧
      t'.emptyDirs ⊆ insert Config.sample.base (Tree.empty (α := Bytes)).emptyDirs := by
  have opens : ∀ e ∈ sampleAccesses, e.Opens := by
    simp [sampleAccesses, Access.Opens, Answer.Opens]
  obtain ⟨t', trace, done, _⟩ := exec_spec locations_sample clear_sample fine_sample
  exact ⟨t', trace, done, no_empty_directories .sample {['/', 'f']} Tree.empty t' locations_sample
    clear_sample sampleAccesses fine_sample opens trace done⟩

end CacheRoot

end RemoteCache
