import RemoteCache.Fuse.Namespace

/-!
# Coherence of the cache with the remote files

## Main result

`cache_coherent_iff`: after a run of reads and writes the cache returns what the
remote files hold, in the ranges that reads have returned, exactly if the remote
files still hold what the latest reads found there.

## Proof strategy

A read stores what it returns in the cache, as a write of the cache manager, and
a write goes to the remote file alone. So the cache holds at each offset what
the latest read found, and a remote file what the latest write left.
-/
namespace RemoteCache

namespace Fuse

open CacheManager

/-- The callbacks that move bytes. Their system calls succeed. -/
inductive Io where
  | readFile (p : Path) (made : Path → Bool) (sz off : ℕ)
  | writeFile (p : Path) (buf : Bytes) (off : ℕ)

def Io.call : Io → Call
  | .readFile p made sz off => .readFile p succeed made sz off
  | .writeFile p buf off => .writeFile p .done buf off

variable (cfg : Config)

/-- The file that `open` finds below the remote directory. -/
def Mount.remoteFile (m : Mount) (p : Path) : Option Bytes :=
  if m.dirs (m.remoteTop cfg ++ p) then none else m.cache.files (m.remoteTop cfg ++ p)

def Mount.remoteByte (m : Mount) (p : Path) (x : ℕ) : UInt8 :=
  (m.cache.files.content (m.remoteTop cfg ++ p)).get x

/-- A mount, and what its reads have found in the remote files. -/
structure Watched where
  mount : Mount
  seen : List WriteCall

def Watched.note (s : Watched) : Io → List WriteCall
  | .readFile p _ sz off =>
    match s.mount.remoteFile cfg p with
    | none => s.seen
    | some b => s.seen ++ [⟨fusePath p, b.slice off sz, off⟩]
  | .writeFile _ _ _ => s.seen

def Watched.Steps (s : Watched) (e : Io) (r : Reply) (s' : Watched) : Prop :=
  s.mount.Valid cfg e.call ∧ s.mount.step cfg e.call = some (s'.mount, r) ∧
    s'.seen = s.note cfg e

abbrev IoTrace := List (Io × Reply)

def Reads (trace : IoTrace) (p : Path) : Prop :=
  ∃ made sz off r, (Io.readFile p made sz off, r) ∈ trace

def Writes (trace : IoTrace) (p : Path) : Prop :=
  ∃ buf off r, (Io.writeFile p buf off, r) ∈ trace

/-- The range lies inside one that some read of the path has returned. -/
def Returned (trace : IoTrace) (p : Path) (off len : ℕ) : Prop :=
  ∃ made sz start r, (Io.readFile p made sz start, r) ∈ trace ∧ start ≤ off ∧
    (off + len : ℤ) ≤ start + r.code

/-- From the ranges that were returned, the cache returns what the remote files hold. -/
def Watched.Coherent (s : Watched) (trace : IoTrace) : Prop :=
  ∀ p off len, Returned trace p off len → ∀ env,
    let r := (cacheReadFile cfg env (some s.mount.cache) (fusePath p) len off).2
    r.count = len ∧ ∀ i < len, r.buf.get i = s.mount.remoteByte cfg p (off + i)

/-- The remote files hold what the latest reads have found in them. -/
def Watched.Unchanged (s : Watched) : Prop :=
  ∀ p x v, Below p → latestByte s.seen (fusePath p) x = some v → s.mount.remoteByte cfg p x = v

/-- The paths that are read have different hashes and copies outside the shard directories, and
no remote file that is written holds blocks of the cache. -/
structure Separate (top : Path) (trace : IoTrace) : Prop where
  clean : cfg.Clean fun path => ∃ p, Reads trace p ∧ path = fusePath p
  parts : ∀ p, Writes trace p → ∀ q, Reads trace q → ∀ k,
    cfg.dataPart (cfg.hashHex (fusePath q)) k ≠ top ++ p

/-! ### The invariant -/

theorem fusePath_injective {p q : Path} (first : Below p) (second : Below q)
    (same : fusePath p = fusePath q) : p = q := by
  rw [fusePath, if_neg first.1, fusePath, if_neg second.1] at same
  rw [← components_slashed first.1 first.2, same, components_slashed second.1 second.2]

variable {cfg}

variable {s s' : Watched} {r : Reply} {trace : IoTrace} {top : Path}

/-- A read finds nothing, or it stores what it finds in the cache. -/
theorem Watched.Steps.read {p : Path} {made : Path → Bool} {sz off : ℕ}
    (taken : s.Steps cfg (.readFile p made sz off) r s') :
    s'.mount.remoteTop cfg = s.mount.remoteTop cfg ∧
    ((s'.mount.cache = s.mount.cache ∧ s'.seen = s.seen ∧ r.code = -1) ∨
      ∃ data : Bytes, s'.mount.cache = (s.mount.cache.write cfg succeed (fusePath p) data off).1 ∧
        s'.seen = s.seen ++ [⟨fusePath p, data, off⟩] ∧ r.code = data.size) := by
  obtain ⟨⟨⟨_, plain⟩, own⟩, stepped, seen⟩ := taken
  have stepped : some ((s.mount.readFile cfg succeed made (fusePath p) sz off).1,
      (s.mount.readFile cfg succeed made (fusePath p) sz off).2.1) = some (s'.mount, r) := stepped
  obtain ⟨mount, reply⟩ := Prod.mk.inj (Option.some.inj stepped)
  have places := (Mount.readFile_cases s.mount plain succeed own sz off).1.remote
  rw [mount] at places
  refine ⟨places, ?_⟩
  rw [Mount.readFile_eq plain] at mount reply
  unfold Watched.note Mount.remoteFile at seen
  by_cases dir : s.mount.dirs (s.mount.remoteTop cfg ++ p) = true
  · simp only [dir, if_true] at mount reply seen
    exact .inl ⟨by rw [← mount], seen, by rw [← reply]; rfl⟩
  · simp only [dir, Bool.false_eq_true, if_false] at mount reply seen
    cases file : s.mount.cache.files (s.mount.remoteTop cfg ++ p) with
    | none =>
      simp only [file] at mount reply seen
      exact .inl ⟨by rw [← mount], seen, by rw [← reply]; rfl⟩
    | some b =>
      simp only [file] at mount reply seen
      exact .inr ⟨b.slice off sz, by rw [← mount], seen, by rw [← reply]; rfl⟩

/-- A write changes the remote file alone. -/
theorem Watched.Steps.write {p : Path} {buf : Bytes} {off : ℕ}
    (taken : s.Steps cfg (.writeFile p buf off) r s') :
    s'.mount.remoteTop cfg = s.mount.remoteTop cfg ∧ s'.seen = s.seen ∧
      s'.mount.cache.entries = s.mount.cache.entries ∧
      s'.mount.cache.tasks = s.mount.cache.tasks ∧
      ∀ at_, at_ ≠ s.mount.remoteTop cfg ++ p →
        s'.mount.cache.files at_ = s.mount.cache.files at_ := by
  obtain ⟨⟨_, plain⟩, stepped, seen⟩ := taken
  have mount : (s.mount.writeFile cfg .done (fusePath p) buf off).1 = s'.mount :=
    congrArg Prod.fst (Option.some.inj stepped)
  have places := (Mount.writeFile_cases cfg s.mount plain .done buf off).1.remote
  rw [mount] at places
  refine ⟨places, seen, ?_⟩
  rw [Mount.writeFile_eq plain] at mount
  dsimp only at mount
  split at mount
  · rw [← mount]
    exact ⟨rfl, rfl, fun _ _ => rfl⟩
  · rw [← mount]
    exact ⟨rfl, rfl, fun _ other => Files.pwrite_other s.mount.cache.files buf off .done other⟩

/-- The cache holds what the reads have found. -/
structure Watched.Cached (cfg : Config) (top : Path) (trace : IoTrace) (s : Watched) : Prop where
  kept : Kept cfg s.seen s.mount.cache
  live : EachEntry (Live cfg) s.mount.cache
  top : s.mount.remoteTop cfg = top
  found : ∀ p made sz off r, (Io.readFile p made sz off, r) ∈ trace →
    Below p ∧
      (r.code = -1 ∨ ∃ data : Bytes, ⟨fusePath p, data, off⟩ ∈ s.seen ∧ r.code = data.size)
  seen : ∀ w ∈ s.seen, ∃ p made sz r, (Io.readFile p made sz w.off, r) ∈ trace ∧ Below p ∧
    w.path = fusePath p ∧ r.code = w.data.size

namespace Watched.Cached

theorem of_read (cached : Cached cfg top trace s) {p : Path} {made : Path → Bool} {sz off : ℕ}
    {names : Str → Prop} (clean : cfg.Clean names) (named : ∀ q, Reads trace q → names (fusePath q))
    (name : names (fusePath p)) (taken : s.Steps cfg (.readFile p made sz off) r s') :
    Cached cfg top (trace ++ [(.readFile p made sz off, r)]) s' := by
  have below : Below p := taken.1.1
  obtain ⟨place, ⟨cache, seen, code⟩ | ⟨data, cache, seen, code⟩⟩ := taken.read
  · constructor
    · rw [seen]
      exact cached.kept.of_files (by rw [cache])
    · rw [cache]
      exact cached.live
    · rw [place, cached.top]
    · intro q made' sz' start reply member
      rw [seen]
      rcases List.mem_append.mp member with old | new
      · exact cached.found q made' sz' start reply old
      · cases List.mem_singleton.mp new
        exact ⟨below, .inl code⟩
    · intro w member
      rw [seen] at member
      obtain ⟨q, made', sz', reply, read, rest⟩ := cached.seen w member
      exact ⟨q, made', sz', reply, List.mem_append_left _ read, rest⟩
  · obtain ⟨_, keyed, live⟩ := (cached.live.entry cfg (settled_live cfg (fusePath p))).2
    have lone : ∀ w ∈ s.seen, cfg.hashHex w.path = cfg.hashHex (fusePath p) →
        w.path = fusePath p := by
      intro w member same
      obtain ⟨q, made', sz', reply, read, _, path, _⟩ := cached.seen w member
      exact clean.hashHex (path ▸ named q ⟨made', sz', w.off, reply, read⟩) name same
    constructor
    · rw [seen, cache]
      exact cached.kept.write live keyed lone (clean.apart name)
    · rw [cache]
      exact cached.live.write cfg (settled_live cfg (fusePath p)) data off
    · rw [place, cached.top]
    · intro q made' sz' start reply member
      rw [seen]
      rcases List.mem_append.mp member with old | new
      · obtain ⟨plain, none | ⟨data', there, code'⟩⟩ := cached.found q made' sz' start reply old
        · exact ⟨plain, .inl none⟩
        · exact ⟨plain, .inr ⟨data', List.mem_append_left _ there, code'⟩⟩
      · cases List.mem_singleton.mp new
        exact ⟨below, .inr ⟨data, List.mem_append_right _ (List.mem_singleton_self _), code⟩⟩
    · intro w member
      rw [seen] at member
      rcases List.mem_append.mp member with old | new
      · obtain ⟨q, made', sz', reply, read, rest⟩ := cached.seen w old
        exact ⟨q, made', sz', reply, List.mem_append_left _ read, rest⟩
      · cases List.mem_singleton.mp new
        exact ⟨p, made, sz, r, List.mem_append_right _ (List.mem_singleton_self _), below, rfl,
          code⟩

theorem of_write (cached : Cached cfg top trace s) {p : Path} {buf : Bytes} {off : ℕ}
    (apart : ∀ q, Reads trace q → ∀ k, cfg.dataPart (cfg.hashHex (fusePath q)) k ≠ top ++ p)
    (taken : s.Steps cfg (.writeFile p buf off) r s') :
    Cached cfg top (trace ++ [(.writeFile p buf off, r)]) s' := by
  obtain ⟨place, seen, entries, tasks, files⟩ := taken.write
  constructor
  · rw [seen]
    apply cached.kept.of_parts
    intro w member k
    apply files
    obtain ⟨q, made, sz, r, read, _, path, _⟩ := cached.seen w member
    rw [path, cached.top]
    exact apart q ⟨made, sz, w.off, r, read⟩ k
  · exact cached.live.of_same entries tasks
  · rw [place, cached.top]
  · intro q made sz start r member
    rw [seen]
    rcases List.mem_append.mp member with old | new
    · exact cached.found q made sz start r old
    · simp at new
  · intro w member
    rw [seen] at member
    obtain ⟨q, made, sz, r, read, rest⟩ := cached.seen w member
    exact ⟨q, made, sz, r, List.mem_append_left _ read, rest⟩

end Watched.Cached

theorem Watched.Cached.fresh {start : Mount} {files : Files} (fresh : start.cache = .new files) :
    Cached cfg (start.remoteTop cfg) [] ⟨start, []⟩ := by
  constructor
  · constructor
    · rintro path blk ⟨w, absurd, _⟩
      simp at absurd
    · simp [latestByte]
  · exact fresh ▸ each_new _ files
  · rfl
  · simp
  · simp

theorem run_cached_within {start : Mount} {files : Files} (fresh : start.cache = .new files)
    {names : Str → Prop} (clean : cfg.Clean names)
    (run : Run (Watched.Steps cfg) ⟨start, []⟩ trace s)
    (named : ∀ p, Reads trace p → names (fusePath p))
    (parts : ∀ p, Writes trace p → ∀ q, Reads trace q → ∀ k,
      cfg.dataPart (cfg.hashHex (fusePath q)) k ≠ start.remoteTop cfg ++ p) :
    s.Cached cfg (start.remoteTop cfg) trace := by
  induction run with
  | refl => exact .fresh fresh
  | @next _ _ trace e r _ taken ih =>
    have earlier {q : Path} (read : Reads trace q) : Reads (trace ++ [(e, r)]) q := by
      obtain ⟨made, sz, off, reply, member⟩ := read
      exact ⟨made, sz, off, reply, List.mem_append_left _ member⟩
    have last : (e, r) ∈ trace ++ [(e, r)] := List.mem_append_right _ (List.mem_singleton_self _)
    have before := ih (fun q read => named q (earlier read)) fun q wrote other read => by
      obtain ⟨buf, off, reply, member⟩ := wrote
      exact parts q ⟨buf, off, reply, List.mem_append_left _ member⟩ other (earlier read)
    cases e with
    | readFile p made sz off =>
      exact before.of_read clean (fun q read => named q (earlier read))
        (named p ⟨made, sz, off, r, last⟩) taken
    | writeFile p buf off =>
      exact before.of_write (fun q read => parts p ⟨buf, off, r, last⟩ q (earlier read)) taken

/-- In every run the cache holds what the reads have found. -/
theorem run_cached {start : Mount} {files : Files} (fresh : start.cache = .new files)
    (run : Run (Watched.Steps cfg) ⟨start, []⟩ trace s)
    (separate : Separate cfg (start.remoteTop cfg) trace) :
    s.Cached cfg (start.remoteTop cfg) trace :=
  run_cached_within fresh separate.clean run (fun p read => ⟨p, read, rfl⟩) separate.parts

/-- The cache returns the bytes that the latest reads have found. -/
theorem Watched.Cached.coherent_iff (cached : s.Cached cfg top trace) :
    s.Coherent cfg trace ↔ s.Unchanged cfg := by
  have live (p : Path) := (cached.live.entry cfg (settled_live cfg (fusePath p))).2
  constructor
  · intro coherent p x v below latest
    obtain ⟨w, member, path, above, within⟩ := latestByte_isSome.mp (by rw [latest]; rfl)
    obtain ⟨q, made, sz, r, read, below', path', code⟩ := cached.seen w member
    obtain rfl := fusePath_injective below below' (path.symm.trans path')
    have returned : Returned trace p x 1 := ⟨made, sz, w.off, r, read, above, by omega⟩
    obtain ⟨count, bytes⟩ := coherent p x 1 returned (.serving fun _ => .empty)
    have shown := (read_kept cached.kept (live p) (.serving fun _ => .empty) 1 x).2.1 0 v
      (by rw [cacheReadFile] at count; simp only at count; omega) latest
    have same := bytes 0 (by omega)
    rw [Nat.add_zero] at same
    exact same.symm.trans shown
  · rintro unchanged p off len ⟨made, sz, start, r, read, above, within⟩ env
    obtain ⟨below, none | ⟨data, member, code⟩⟩ := cached.found p made sz start r read
    · omega
    · have covers : ∀ x, off ≤ x → x < off + len →
          (⟨fusePath p, data, start⟩ : WriteCall).Covers (fusePath p) x := by
        intro x first last
        exact ⟨rfl, by simp only; omega, by simp only; omega⟩
      obtain ⟨_, shown, full⟩ := read_kept cached.kept (live p) env len off
      have count := full fun x first last => ⟨_, member, x, covers x first last, rfl⟩
      refine ⟨count, fun i inside => ?_⟩
      have covered := covers (off + i) (by omega) (by omega)
      obtain ⟨v, latest⟩ := Option.isSome_iff_exists.mp
        (latestByte_isSome.mpr ⟨_, member, covered⟩)
      rw [unchanged p (off + i) v below latest]
      exact shown i v (by rw [count]; exact Nat.cast_lt.mpr inside) latest

/-- A write reaches the remote file, or it returns -1. -/
theorem Watched.Steps.remoteByte {p q : Path} {buf : Bytes} {off : ℕ}
    (taken : s.Steps cfg (.writeFile p buf off) r s') (wrote : r.code ≠ -1) (x : ℕ) :
    s'.mount.remoteByte cfg q x =
      if q = p ∧ off ≤ x ∧ x < off + buf.size then buf.get (x - off)
      else s.mount.remoteByte cfg q x := by
  obtain ⟨place, _⟩ := taken.write
  obtain ⟨⟨_, plain⟩, stepped, _⟩ := taken
  have mount : (s.mount.writeFile cfg .done (fusePath p) buf off).1 = s'.mount :=
    congrArg Prod.fst (Option.some.inj stepped)
  have reply : (s.mount.writeFile cfg .done (fusePath p) buf off).2 = r :=
    congrArg Prod.snd (Option.some.inj stepped)
  rw [Mount.remoteByte, place, Mount.remoteByte]
  rw [Mount.writeFile_eq plain] at mount reply
  dsimp only at mount reply
  split at mount
  next refused =>
    rw [if_pos refused] at reply
    exact absurd (congrArg Reply.code reply).symm wrote
  next =>
    rw [← mount]
    dsimp only
    rw [Files.content_pwrite, Answer.count, Blob.slice_self]
    by_cases same : q = p
    · subst same
      simp only [if_true, true_and, Blob.get_write]
    · have apart : s.mount.remoteTop cfg ++ q ≠ s.mount.remoteTop cfg ++ p :=
        fun joined => same (List.append_cancel_left joined)
      rw [if_neg apart, if_neg fun both => same both.1]

/-- A write leaves the cache in agreement exactly if it writes, where a read has found a byte, that
byte again. -/
theorem Watched.Steps.unchanged_iff {p : Path} {buf : Bytes} {off : ℕ}
    (taken : s.Steps cfg (.writeFile p buf off) r s') (wrote : r.code ≠ -1)
    (unchanged : s.Unchanged cfg) :
    s'.Unchanged cfg ↔ ∀ x v, off ≤ x → x < off + buf.size →
      latestByte s.seen (fusePath p) x = some v → buf.get (x - off) = v := by
  obtain ⟨_, seen, _⟩ := taken.write
  constructor
  · intro after x v above within latest
    have found := after p x v taken.1 (by rwa [seen])
    rwa [taken.remoteByte wrote, if_pos ⟨rfl, above, within⟩] at found
  · intro harmless q x v below latest
    rw [seen] at latest
    rw [taken.remoteByte wrote]
    split
    next inside =>
      obtain ⟨rfl, above, within⟩ := inside
      exact harmless x v above within latest
    · exact unchanged q x v below latest

/-- After every run the cache agrees with the remote files exactly if these still hold what was
found in them. -/
theorem cache_coherent_iff {start : Mount} {files : Files} (fresh : start.cache = .new files)
    (run : Run (Watched.Steps cfg) ⟨start, []⟩ trace s)
    (separate : Separate cfg (start.remoteTop cfg) trace) :
    s.Coherent cfg trace ↔ s.Unchanged cfg :=
  (run_cached fresh run separate).coherent_iff

/-- A remote directory `/r` with a file of one byte. -/
def oneByteMount : Mount where
  cache := .new fun x => if x = [['r'], ['f']] then some (.ofFn 1 fun _ => 97) else none
  dirs x := x = [] || x = [['r']] || x = [['c']]
  cacheDirectory := ['/', 'c', '/']
  fileRemoteDirectory := ['/', 'r', '/']

/-- The read of that byte. -/
def afterRead : Watched :=
  ⟨(oneByteMount.readFile .sample succeed (fun _ => false) (fusePath [['f']]) 1 0).1,
    Watched.note .sample ⟨oneByteMount, []⟩ (.readFile [['f']] (fun _ => false) 1 0)⟩

/-- Another byte is written in its place. -/
def afterWrite : Watched :=
  ⟨(afterRead.mount.writeFile .sample .done (fusePath [['f']]) (.ofFn 1 fun _ => 98) 0).1,
    afterRead.seen⟩

def readTrace : IoTrace := [(.readFile [['f']] (fun _ => false) 1 0, .of 1)]

def writeTrace : IoTrace := readTrace ++ [(.writeFile [['f']] (.ofFn 1 fun _ => 98) 0, .of 1)]

private theorem below_f : Below [['f']] := by
  have name : PlainName ['f'] := by
    unfold PlainName
    decide
  constructor
  · simp
  · simpa [Plain]

private theorem run_read : Run (Watched.Steps .sample) ⟨oneByteMount, []⟩ readTrace afterRead :=
  .next (.refl _) ⟨⟨below_f, nofun⟩, by rfl, rfl⟩

private theorem run_write : Run (Watched.Steps .sample) ⟨oneByteMount, []⟩ writeTrace afterWrite :=
  .next run_read ⟨below_f, by rfl, rfl⟩

private theorem separate_f (trace : IoTrace) (only : ∀ p, Reads trace p → p = [['f']])
    (written : ∀ p, Writes trace p → p = [['f']]) :
    Separate .sample (oneByteMount.remoteTop .sample) trace := by
  constructor
  · apply clean_sample.mono
    rintro _ ⟨p, read, rfl⟩
    rw [only p read]
    rfl
  · rintro p write q read k same
    have base : Config.sample.base = [['c']] := by decide
    have top : oneByteMount.remoteTop .sample = [['r']] := by decide
    have part := Config.sample.dataPart_inShard (Config.sample.hashHex (fusePath q)) k
    rw [same, written p write, top] at part
    obtain ⟨first, second, rest, _, _, _, eq⟩ := part
    simp [base] at eq

theorem cache_coherent_sample :
    afterWrite.Coherent .sample writeTrace ↔ afterWrite.Unchanged .sample := by
  apply cache_coherent_iff rfl run_write
  apply separate_f
  · rintro p ⟨made, sz, off, r, member⟩
    rcases List.mem_append.mp member with early | last
    · cases List.mem_singleton.mp early
      rfl
    · cases List.mem_singleton.mp last
  · rintro p ⟨buf, off, r, member⟩
    rcases List.mem_append.mp member with early | last
    · cases List.mem_singleton.mp early
    · cases List.mem_singleton.mp last
      rfl

/-- The cache goes on to return the byte that was overwritten. -/
theorem stale_byte :
    Run (Watched.Steps .sample) ⟨oneByteMount, []⟩ writeTrace afterWrite ∧
      Returned writeTrace [['f']] 0 1 ∧
      (cacheReadFile .sample (.serving fun _ => .empty) (some afterWrite.mount.cache)
        (fusePath [['f']]) 1 0).2.buf.get 0 = 97 ∧
      afterWrite.mount.remoteByte .sample [['f']] 0 = 98 := by
  refine ⟨run_write, ?_, ?_, ?_⟩
  · exact ⟨fun _ => false, 1, 0, .of 1, by simp [writeTrace, readTrace], le_refl 0, by decide⟩
  · decide +kernel
  · decide +kernel

end Fuse

end RemoteCache
