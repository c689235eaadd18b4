import RemoteCache.Cache.Eviction
import RemoteCache.Cache.WriteThrough

/-!
# The mounted file system

The callbacks of the FUSE layer with a `file://` remote. Directories and files of
the host are in one tree, in which the remote directory, the directory that
`cacheDirectory` names and the files of the cache lie. The kernel may refuse a
system call for reasons of its own.
-/
namespace RemoteCache

namespace Fuse

inductive Kind where
  | file
  | dir
  deriving DecidableEq

/-- The files of the host are those of the cache manager; `dirs` are its directories. The two
strings are the globals of the FUSE layer, which the callbacks change. -/
structure Mount where
  cache : CacheManager
  dirs : Path → Bool
  cacheDirectory : Str
  fileRemoteDirectory : Str

/-- The path of a callback: the names on it, each after a slash, or the slash alone. -/
def fusePath (names : Path) : Str := if names = [] then ['/'] else slashed names

/-- The result of a callback: what it returns, what it fills into a `stat` structure and the names
that it hands to the filler. -/
structure Reply where
  code : ℤ
  kind : Option Kind
  names : Set Str

def Reply.of (code : ℤ) : Reply := ⟨code, none, ∅⟩

namespace Mount

/-- What is at a location. -/
def node (m : Mount) (at_ : Path) : Option Kind :=
  if m.dirs at_ then some .dir else if (m.cache.files at_).isSome then some .file else none

/-! ### Paths -/

/-- `path == "/"` compares two addresses, and FUSE never hands over that of the literal. -/
def isLiteral (_path : Str) : Bool := false

/-- What becomes of a directory whose last letter is not a slash. -/
def withSlash (directory : Str) : Str :=
  if directory.getLast? = some '/' then directory else directory.dropLast ++ ['/']

def realCachePath (m : Mount) (path : Str) : Mount × Str :=
  if isLiteral path then (m, m.cacheDirectory)
  else
    let m := { m with cacheDirectory := withSlash m.cacheDirectory }
    -- `path + 1` is a statement without effect.
    (m, m.cacheDirectory ++ path)

def realFilePath (m : Mount) (path : Str) : Mount × Str :=
  if isLiteral path then (m, m.fileRemoteDirectory)
  else
    let m := { m with fileRemoteDirectory := withSlash m.fileRemoteDirectory }
    (m, m.fileRemoteDirectory ++ path)

variable (cfg : Config)

/-! ### Attributes and listings -/

def getAttribute (m : Mount) (path : Str) : Mount × Reply :=
  if isLiteral path then (m, ⟨0, some .dir, ∅⟩)
  else
    let (m, rp) := m.realFilePath path
    match m.node (resolve cfg.cwd rp) with
    | none => (m, .of (-1))
    | some kind => (m, ⟨0, some kind, ∅⟩)

/-- The figures of `statvfs` are the host's. -/
def getStats (allowed : Bool) (m : Mount) : Mount × Reply :=
  if allowed && (m.node (resolve cfg.cwd m.cacheDirectory)).isSome then (m, .of 0)
  else (m, .of (-1))

/-- What `readdir` finds in a directory, apart from `.` and `..`. -/
def entriesOf (m : Mount) (directory : Str) : Set Str :=
  { name | PlainName name ∧ m.node (resolve cfg.cwd directory ++ [name]) ≠ none }

def readDirectory (m : Mount) (path : Str) : Mount × Reply :=
  if isLiteral path then
    (m, ⟨0, none, { ['.'], ['.', '.'] } ∪
      (m.entriesOf cfg m.fileRemoteDirectory ∪ m.entriesOf cfg m.cacheDirectory)⟩)
  else (m, .of (-1))

/-! ### Directories and files -/

/-- Nothing is left at a location. -/
def removeAt (m : Mount) (at_ : Path) : Mount :=
  { m with
    dirs := Function.update m.dirs at_ false
    cache := { m.cache with files := Function.update m.cache.files at_ none } }

def makeDirectory (allowed : Bool) (m : Mount) (path : Str) : Mount × Reply :=
  let (m, rp) := m.realCachePath path
  let at_ := resolve cfg.cwd rp
  if allowed && (m.node at_).isNone && m.dirs at_.dropLast then
    ({ m with dirs := Function.update m.dirs at_ true }, .of 0)
  else (m, .of (-1))

/-- The kernel refuses to remove a directory that is not empty. -/
def removeDirectory (allowed : Bool) (m : Mount) (path : Str) : Mount × Reply :=
  let (m, rp) := m.realCachePath path
  let at_ := resolve cfg.cwd rp
  if allowed && m.dirs at_ then (m.removeAt at_, .of 0) else (m, .of (-1))

def removeFile (allowed : Bool) (m : Mount) (path : Str) : Mount × Reply :=
  let (m, rp) := m.realCachePath path
  let at_ := resolve cfg.cwd rp
  if allowed && m.node at_ = some .file then (m.removeAt at_, .of 0) else (m, .of (-1))

def openFile (m : Mount) (_path : Str) : Mount × Reply := (m, .of 0)

def createFile (m : Mount) (_path : Str) : Mount × Reply := (m, .of 0)

/-! ### Contents -/

/-- The bytes that `readFile` returns are stored in the cache, which may make directories. -/
def readFile (answers : ℕ → Answer × Answer) (made : Path → Bool) (m : Mount) (path : Str)
    (sz off : ℕ) : Mount × Reply × Bytes :=
  let (m, rp) := m.realFilePath path
  let at_ := resolve cfg.cwd rp
  -- A directory can be opened, but `pread` fails.
  if m.dirs at_ then (m, .of (-1), .empty)
  else
    match m.cache.files.pread at_ sz off with
    | .error _ => (m, .of (-1), .empty)
    | .ok buf =>
      ({ m with
          cache := (m.cache.write cfg answers path buf off).1
          dirs := fun x => m.dirs x || made x }, .of buf.size, buf)

def writeFile (answer : Answer) (m : Mount) (path : Str) (buf : Bytes) (off : ℕ) :
    Mount × Reply :=
  let (m, rp) := m.realFilePath path
  let at_ := resolve cfg.cwd rp
  if m.dirs at_ || ((m.cache.files at_).isNone && !m.dirs at_.dropLast) then (m, .of (-1))
  else
    let (files, rc) := m.cache.files.pwrite at_ buf off answer
    let numBytes : ℤ := match rc with
      | .ok n => n
      | .error _ => -1
    ({ m with cache := { m.cache with files } }, .of numBytes)

/-- `cache_apply_eviction` -/
def releaseFiles (used : ℕ → ℚ) (m : Mount) (_path : Str) : Option (Mount × Reply) :=
  (m.cache.evictUntilGb cfg used 1).map fun cache => ({ m with cache }, .of 0)

end Mount

end Fuse

end RemoteCache
