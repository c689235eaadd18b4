import RemoteCache.Cache.BlockStore
import RemoteCache.Cache.MetadataStore
import RemoteCache.Lib.Loop
import RemoteCache.Policy.Lru

/-!
# The cache manager

`CacheManager` cuts a range into pieces of one block each. A read takes a block
from the block store, else from the backend, else from the write-through copy
under the cache root, and stores what it fetched; a write merges its piece into
the stored block and writes it through. Prefetch jobs are queued and run later.

The steps of a pass (probe the store, fetch, store, finish) are separate
definitions, so that the loops here and the interleaved machine are made of the
same parts. Offsets are natural numbers below the range of `off_t`, and
`create_directories` succeeds: no file that a call writes lies below another file.
-/
namespace RemoteCache

def kCacheBlocksCapacity : ℕ := 200000

def PREFETCH_WINDOW : ℕ := 4

/-- `lastBlock` is absent where the code holds the largest `size_t`. -/
structure CacheEntry where
  path : Str
  hashHex : Digest
  lastBlock : Option ℕ := none
  evicted : Bool := false

/-- What the address in an LRU key points to: an element of `entries_`, or the
copy of an entry that a prefetch task has captured. -/
inductive Addr where
  | entry (path : Str)
  | task (id : ℕ)
  deriving DecidableEq

/-- `address << 32 | block`, decoded exactly. -/
structure Key where
  addr : Addr
  blk : ℕ
  deriving DecidableEq

/-- A queued prefetch task with its captured variables. -/
structure Job where
  id : ℕ
  ce : CacheEntry
  firstBlk : ℕ

/-- `backend_read_range`: the bytes it put in the buffer, or its error number. -/
structure Backend where
  readRange : Str → ℕ → ℕ → Except ℕ Bytes
  fits : ∀ path len off b, readRange path len off = .ok b → b.size ≤ len

/-- The backend that has a fixed content for each path. -/
def Backend.serving (C : Str → Bytes) : Backend where
  readRange path len off := .ok ((C path).slice off len)
  fits path len off b returned := by
    cases returned
    simp

/-- What a call depends on besides the manager's state: the backend, and the bytes
that the uninitialised block buffer happens to hold in the pass over each block,
which may be those of the block that an earlier call had there. -/
structure Env where
  backend : Backend
  stack : ℕ → ℕ → UInt8

/-- Fixed contents, and a block buffer that happens to be clear. -/
def Env.serving (C : Str → Bytes) : Env := ⟨.serving C, fun _ _ => 0⟩

structure CacheManager where
  files : Files
  bitmap : Bitmaps
  lru : LruPolicy Key
  entries : AList fun _ : Str => CacheEntry
  tasks : List Job
  nextTask : ℕ

/-- The location of the write-through copy of a file. -/
def Config.copy (cfg : Config) (path : Str) : Path :=
  resolve cfg.cwd (joinPath cfg.root (if path.head? = some '/' then path.tail else path))

/-- One piece of a range: a block, the first byte within it and the number of bytes. -/
structure Piece where
  blk : ℕ
  inBlock : ℕ
  want : ℕ

def pieceAt (off len done : ℕ) : Piece :=
  let blk := (off + done) / kBlockSize
  let blkOff := blk * kBlockSize
  -- `off + done` lies in the block, so the difference is not negative.
  let inBlock := (off + done) - blkOff
  ⟨blk, inBlock, min (kBlockSize - inBlock) (len - done)⟩

/-- `store_.read` of one block: the buffer afterwards, and whether the whole block came. -/
def probe (cfg : Config) (files : Files) (hashHex : Digest) (blk : ℕ) (block : Bytes) :
    Bytes × Bool :=
  match BlockStore.read cfg files hashHex kBlockSize (blk * kBlockSize) with
  -- A short read overwrites only the front of the buffer.
  | .ok b => (block.write b 0, b.size = kBlockSize)
  | .error _ => (block, false)

/-- The bytes of a call that returned a positive count. -/
def received : Except ℕ Bytes → Option Bytes
  -- `got <= 0` counts as a failure, so an empty reply is one too.
  | .ok b => if 0 < b.size then some b else none
  | .error _ => none

/-- A missing block from the backend, else from the write-through copy. -/
def fetch (cfg : Config) (backend : Backend) (files : Files) (path : Str) (blk : ℕ) :
    Option Bytes :=
  match received (backend.readRange path kBlockSize (blk * kBlockSize)) with
  | some got => some got
  -- `pread` from the copy, whose failure to open leaves `got` as it was.
  | none => received (files.pread (cfg.copy path) kBlockSize (blk * kBlockSize))

@[ext]
structure ReadResult where
  count : ℤ
  buf : Bytes

namespace CacheManager

variable (cfg : Config)

def new (files : Files) : CacheManager where
  files
  bitmap := ∅
  lru := .new kCacheBlocksCapacity
  entries := ∅
  tasks := []
  nextTask := 0

def entry (m : CacheManager) (path : Str) : CacheManager × CacheEntry :=
  match m.entries.lookup path with
  | some ce => (m, ce)
  | none =>
    let ce : CacheEntry := { path, hashHex := cfg.hashHex path }
    ({ m with entries := m.entries.insert path ce }, ce)

def schedulePrefetch (m : CacheManager) (ce : CacheEntry) (firstBlk : ℕ) : CacheManager :=
  -- The task captures the entry by value, with the flag it has now.
  { m with tasks := m.tasks ++ [⟨m.nextTask, ce, firstBlk⟩], nextTask := m.nextTask + 1 }

/-- `store_.write` of one block. -/
def store (m : CacheManager) (hashHex : Digest) (blk : ℕ) (data : Bytes) : CacheManager :=
  { m with files := (BlockStore.write cfg m.files hashHex data (blk * kBlockSize) .done).1 }

def touch (m : CacheManager) (addr : Addr) (blk : ℕ) (hotness : Hotness) : CacheManager :=
  { m with lru := m.lru.touch ⟨addr, blk⟩ kBlockSize hotness }

/-! ### Demand reads -/

structure ReadState where
  mgr : CacheManager
  ce : CacheEntry
  done : ℕ
  buf : Bytes

/-- The end of a pass of `read`, once `block` holds the block of the piece. -/
def finish (path : Str) (p : Piece) (block : Bytes) (s : ReadState) : ReadState :=
  let buf := s.buf.write (block.slice p.inBlock p.want) s.done
  let m := s.mgr.touch (.entry path) p.blk .one
  -- The largest `size_t` is followed by no block, hence `none`.
  let seq := s.ce.lastBlock.map (· + 1) = some p.blk
  let ce := { s.ce with lastBlock := some p.blk }
  let m := { m with entries := m.entries.insert path ce }
  ⟨if seq then m.schedulePrefetch ce (p.blk + 1) else m, ce, s.done + p.want, buf⟩

/-- One pass of the loop of `read`. -/
def readPass (env : Env) (path : Str) (len off : ℕ) (s : ReadState) :
    Except (CacheManager × ReadResult) ReadState :=
  let p := pieceAt off len s.done
  let (block, cached) :=
    probe cfg s.mgr.files s.ce.hashHex p.blk (.ofFn kBlockSize (env.stack p.blk))
  if cached then .ok (finish path p block s)
  else
    match fetch cfg env.backend s.mgr.files path p.blk with
    -- `return (done ? done : -1)`: what was read so far is kept.
    | none => .error (s.mgr, ⟨if s.done = 0 then -1 else s.done, s.buf⟩)
    | some got =>
      -- A short reply leaves the rest of the block buffer as it was.
      .ok (finish path p (block.write got 0)
        { s with mgr := s.mgr.store cfg s.ce.hashHex p.blk got })

def read (env : Env) (m : CacheManager) (path : Str) (len off : ℕ) : CacheManager × ReadResult :=
  let (m, ce) := m.entry cfg path
  if ce.evicted then (m, ⟨-ENOENT, .empty⟩)
  else
    match loop (fun s => s.done < len) (readPass cfg env path len off) len ⟨m, ce, 0, .empty⟩ with
    | .error left => left
    | .ok s => (s.mgr, ⟨s.done, s.buf⟩)

/-! ### Writes -/

structure WriteState where
  mgr : CacheManager
  done : ℕ

/-- One pass of the loop of `write`. The kernel's answers to the store's write and to the
write-through are given for each block; a failed open is tried again with the next one. -/
def writePass (answers : ℕ → Answer × Answer) (path : Str) (ce : CacheEntry) (data : Bytes)
    (off : ℕ) (s : WriteState) : Except Empty WriteState :=
  let p := pieceAt off data.size s.done
  let chunk := data.slice s.done p.want
  -- Unlike in `read`, the buffer is cleared first and a short read is no miss.
  let block := (probe cfg s.mgr.files ce.hashHex p.blk (.ofFn kBlockSize fun _ => 0)).1
  let block := block.write chunk p.inBlock
  let blkOff := p.blk * kBlockSize
  let files := (BlockStore.write cfg s.mgr.files ce.hashHex block blkOff (answers p.blk).1).1
  let bitmap := MetadataStore.markDirtyBlock s.mgr.bitmap ce.hashHex
    (blkOff / FsLayout.kMaxPartSize) p.blk
  -- The bits and the key are set even if the store has refused the block.
  let m := { s.mgr with files, bitmap }.touch (.entry path) p.blk .one
  let files := (m.files.pwrite (cfg.copy path) chunk (off + s.done) (answers p.blk).2).1
  .ok ⟨{ m with files }, s.done + p.want⟩

def write (answers : ℕ → Answer × Answer) (m : CacheManager) (path : Str) (data : Bytes)
    (off : ℕ) : CacheManager × ℤ :=
  let (m, ce) := m.entry cfg path
  if ce.evicted then (m, -ENOENT)
  else
    match loop (fun s => s.done < data.size) (writePass cfg answers path ce data off) data.size
      ⟨m, 0⟩ with
    | .ok s => (s.mgr, s.done)

/-- Whether the path has an entry that has not been evicted. -/
def hasValidEntry (m : CacheManager) (path : Str) : Bool :=
  (m.entries.lookup path).any fun ce => !ce.evicted

/-! ### Prefetch jobs -/

/-- One pass of a prefetch job, which records the blocks it has stored. -/
def prefetchPass (backend : Backend) (job : Job) (s : CacheManager × List ℕ) (i : ℕ) :
    CacheManager × List ℕ :=
  let blk := job.firstBlk + i
  if (probe cfg s.1.files job.ce.hashHex blk .empty).2 then s
  else
    match received (backend.readRange job.ce.path kBlockSize (blk * kBlockSize)) with
    -- A block that the backend does not have is skipped; the copy is not asked.
    | none => s
    | some got =>
      ((s.1.store cfg job.ce.hashHex blk got).touch (.task job.id) blk .quarter, s.2 ++ [blk])

def runJob (backend : Backend) (m : CacheManager) (job : Job) : CacheManager × List ℕ :=
  (List.range PREFETCH_WINDOW).foldl (prefetchPass cfg backend job) (m, [])

/-! ### Flushing and eviction -/

/-- `flush_all`, for all entries in the order in which the table lists them. -/
def flushAll (m : CacheManager) : CacheManager :=
  { m with
    files := m.entries.entries.foldl
      (fun files entry => MetadataStore.flushBitmaps cfg files m.bitmap entry.2.hashHex) m.files }

/-- What `evict_until_gb` does with a key that it has popped. A key whose address is not that
of an entry has no defined behaviour, hence no result. -/
def evictKey (m : CacheManager) (key : Key) : Option CacheManager :=
  match key.addr with
  | .task _ => none
  | .entry path =>
    match m.entries.lookup path with
    | none => none
    | some ce =>
      -- `continue`: the key is gone from the policy, and nothing else changes.
      if ce.evicted then some m
      else
        let files := BlockStore.deleteObject cfg m.files ce.hashHex
        -- The bits are still those of before, so the bitmap files come back.
        let files := MetadataStore.flushBitmaps cfg files m.bitmap ce.hashHex
        some { m with files, entries := m.entries.insert path { ce with evicted := true } }

/-- The loop of `evict_until_gb`, given what `used_gb` returns each time it is asked. -/
def evictLoop (used : ℕ → ℚ) (freeGb : ℚ) : ℕ → ℕ → CacheManager → Option CacheManager
  | 0, _, m => some m
  | fuel + 1, n, m =>
    if freeGb < used n then
      match m.lru.evict with
      -- `break`: no keys are left.
      | (lru, none) => some { m with lru }
      | (lru, some key) =>
        (evictKey cfg { m with lru } key).bind (evictLoop used freeGb fuel (n + 1))
    else some m

/-- Every pass but the last pops a key, so there is one pass more than keys. -/
def evictUntilGb (used : ℕ → ℚ) (freeGb : ℚ) (m : CacheManager) : Option CacheManager :=
  evictLoop cfg used freeGb (m.lru.order.length + 1) 0 m

end CacheManager

/-! ### The interface, whose cache is absent before `cache_init` -/

def cacheStoreFile (cfg : Config) (answers : ℕ → Answer × Answer) (gCache : Option CacheManager)
    (path : Str) (data : Bytes) (off : ℕ) : Option CacheManager × ℤ :=
  match gCache with
  | none => (none, -ENODEV)
  | some m =>
    let rc := m.write cfg answers path data off
    (some rc.1, if rc.2 < 0 then rc.2 else 0)

def cacheReadFile (cfg : Config) (env : Env) (gCache : Option CacheManager) (path : Str)
    (len off : ℕ) : Option CacheManager × ReadResult :=
  match gCache with
  | none => (none, ⟨-ENODEV, .empty⟩)
  | some m =>
    let rc := m.read cfg env path len off
    (some rc.1, rc.2)

end RemoteCache
