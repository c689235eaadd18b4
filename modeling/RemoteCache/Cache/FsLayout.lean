import RemoteCache.Lib.Digits
import RemoteCache.Lib.Paths

/-!
# Where the cache keeps its files

The cache root holds one shard directory, two levels deep, for every pair of
leading digit pairs of an object's hash; an object's data parts and dirty
bitmaps lie in the shard directory of its hash. Different objects and different
parts have different files, and a bitmap is never a data part.
-/
namespace RemoteCache

/-- Sixteen hexadecimal digits, as `hash_hex` prints them. -/
@[ext] structure Digest where
  text : Str
  length : text.length = 16
  digits : ∀ c ∈ text, IsHexDigit c
  deriving DecidableEq

namespace Digest

/-- Lower-case hexadecimal, filled with zeros to a width of 16. -/
def ofHash (h : UInt64) : Digest where
  text := padded 16 16 h.toNat
  length := length_padded (by decide) (by decide) h.toNat_lt
  digits _ member := isHexDigit_of_mem_padded member

theorem ofHash_injective : Function.Injective ofHash := by
  intro h h' same
  exact UInt64.toNat_inj.mp
    (padded_injective 16 (by decide) (by decide) (congrArg Digest.text same))

end Digest

namespace FsLayout

def kMaxPartSize : ℕ := 2 * 1024 * 1024 * 1024

def shardDir (hashHex : Digest) : Str :=
  hashHex.text.take 2 ++ '/' :: (hashHex.text.drop 2).take 2

/-- The name that the two kinds of files of an object share up to the suffix. -/
def partName (hashHex : Digest) (partIdx : ℕ) (suffix : Str) : Str :=
  hashHex.text ++ '.' :: (Nat.toDigits 10 partIdx ++ suffix)

def dataPartPath (cacheRoot : Str) (hashHex : Digest) (partIdx : ℕ) : Str :=
  cacheRoot ++ '/' :: (shardDir hashHex ++ '/' :: partName hashHex partIdx ['.', 'b', 'l', 'k'])

def bitmapPath (cacheRoot : Str) (hashHex : Digest) (partIdx : ℕ) : Str :=
  cacheRoot ++
    '/' :: (shardDir hashHex ++ '/' :: partName hashHex partIdx ['.', 'd', 'm', 'a', 'p'])

end FsLayout

/-- The cache root, the working directory of the process and `std::hash<std::string>`. -/
structure Config where
  root : Str
  cwd : Path
  hash : Str → UInt64

/-- A cache at `/c`, with hashes that tell paths of different lengths apart. -/
def Config.sample : Config := ⟨['/', 'c'], [], fun path => .ofNat path.length⟩

namespace Config

open FsLayout

def hashHex (cfg : Config) (path : Str) : Digest := .ofHash (cfg.hash path)

/-- The location of the cache root. -/
def base (cfg : Config) : Path := resolve cfg.cwd (cfg.root ++ ['/'])

def dataPart (cfg : Config) (hashHex : Digest) (partIdx : ℕ) : Path :=
  resolve cfg.cwd (dataPartPath cfg.root hashHex partIdx)

def bitmap (cfg : Config) (hashHex : Digest) (partIdx : ℕ) : Path :=
  resolve cfg.cwd (bitmapPath cfg.root hashHex partIdx)

def shard (cfg : Config) (hashHex : Digest) : Path :=
  resolve cfg.cwd (cfg.root ++ '/' :: shardDir hashHex)

/-- The location is inside one of the directories that hold the shards. -/
def InShard (cfg : Config) (at_ : Path) : Prop :=
  ∃ first second : Str, ∃ rest : Path,
    first.length = 2 ∧ second.length = 2 ∧ (∀ c ∈ first ++ second, IsHexDigit c) ∧
      at_ = cfg.base ++ first :: second :: rest

end Config

/-! ### Locations -/

section

variable (cfg : Config)

theorem Digest.plain_take (d : Digest) (start n : ℕ) (some : start < 16) (positive : 0 < n) :
    PlainName ((d.text.drop start).take n) := by
  have long : 0 < ((d.text.drop start).take n).length := by
    simp only [List.length_take, List.length_drop, d.length]
    omega
  have digit : ∀ c ∈ (d.text.drop start).take n, IsHexDigit c :=
    fun c member => d.digits c (List.mem_of_mem_drop (List.mem_of_mem_take member))
  have noDot : '.' ∉ (d.text.drop start).take n := fun member => (digit _ member).ne_dot rfl
  refine ⟨List.ne_nil_of_length_pos long, fun dot => noDot (by simp [dot]),
    fun dots => noDot (by simp [dots]), fun member => (digit _ member).ne_slash rfl⟩

theorem FsLayout.plain_partName (d : Digest) (k : ℕ) {suffix : Str} (noSlash : '/' ∉ suffix) :
    PlainName (partName d k suffix) := by
  have long : 16 < (partName d k suffix).length := by
    simp only [partName, List.length_append, List.length_cons, d.length]
    omega
  refine ⟨List.ne_nil_of_length_pos (by omega), fun dot => by simp [dot] at long,
    fun dots => by simp [dots] at long, fun member => ?_⟩
  rcases List.mem_append.mp member with front | back
  · exact (d.digits _ front).ne_slash rfl
  · rcases List.mem_cons.mp back with dot | back
    · exact absurd dot (by decide)
    · rcases List.mem_append.mp back with number | tail
      · obtain ⟨n, small, same⟩ := mem_toDigits (by decide) k number
        exact IsHexDigit.ne_slash ⟨n, by omega, same⟩ rfl
      · exact noSlash tail

theorem FsLayout.resolve_part (d : Digest) (name : Str) (plain : PlainName name) :
    resolve cfg.cwd (cfg.root ++ '/' :: (shardDir d ++ '/' :: name)) =
      cfg.base ++ [d.text.take 2, (d.text.drop 2).take 2, name] := by
  have first := d.plain_take 0 2 (by decide) (by decide)
  have second := d.plain_take 2 2 (by decide) (by decide)
  rw [List.drop_zero] at first
  rw [resolve_append, shardDir, components_append, components_append, components_plain first,
    components_plain second, components_plain plain]
  simp only [List.foldl_cons, List.foldl_nil, descend_plain _ first, descend_plain _ second,
    descend_plain _ plain, Config.base, List.append_assoc, List.cons_append, List.nil_append]

namespace Config

open FsLayout

theorem dataPart_eq (d : Digest) (k : ℕ) :
    cfg.dataPart d k = cfg.base ++
      [d.text.take 2, (d.text.drop 2).take 2, partName d k ['.', 'b', 'l', 'k']] :=
  resolve_part cfg d _ (plain_partName d k (by decide))

theorem bitmap_eq (d : Digest) (k : ℕ) :
    cfg.bitmap d k = cfg.base ++
      [d.text.take 2, (d.text.drop 2).take 2, partName d k ['.', 'd', 'm', 'a', 'p']] :=
  resolve_part cfg d _ (plain_partName d k (by decide))

theorem shard_eq (d : Digest) :
    cfg.shard d = cfg.base ++ [d.text.take 2, (d.text.drop 2).take 2] := by
  have first := d.plain_take 0 2 (by decide) (by decide)
  have second := d.plain_take 2 2 (by decide) (by decide)
  rw [List.drop_zero] at first
  rw [shard, resolve_append, shardDir, components_append, components_plain first,
    components_plain second]
  simp [descend_plain _ first, descend_plain _ second, base]

theorem inShard_of_eq (d : Digest) (rest : Path) {at_ : Path}
    (eq : at_ = cfg.base ++ d.text.take 2 :: (d.text.drop 2).take 2 :: rest) :
    cfg.InShard at_ := by
  refine ⟨_, _, rest, ?_, ?_, fun c member => ?_, eq⟩
  · simp [d.length]
  · simp [d.length]
  · rcases List.mem_append.mp member with front | back
    · exact d.digits c (List.mem_of_mem_take front)
    · exact d.digits c (List.mem_of_mem_drop (List.mem_of_mem_take back))

theorem dataPart_inShard (d : Digest) (k : ℕ) : cfg.InShard (cfg.dataPart d k) :=
  cfg.inShard_of_eq d _ (cfg.dataPart_eq d k)

theorem bitmap_inShard (d : Digest) (k : ℕ) : cfg.InShard (cfg.bitmap d k) :=
  cfg.inShard_of_eq d _ (cfg.bitmap_eq d k)

end Config

/-- A part's name determines the object, the part and the kind of the file. -/
theorem FsLayout.partName_inj {d d' : Digest} {k k' : ℕ} {s s' : Str}
    (same : partName d k ('.' :: s) = partName d' k' ('.' :: s')) : d = d' ∧ k = k' ∧ s = s' := by
  have text := List.append_inj same (d.length.trans d'.length.symm)
  have tail : Nat.toDigits 10 k ++ '.' :: s = Nat.toDigits 10 k' ++ '.' :: s' := by
    simpa using text.2
  have noDot : ∀ n : ℕ, '.' ∉ Nat.toDigits 10 n := by
    intro n member
    obtain ⟨m, small, dot⟩ := mem_toDigits (by decide) n member
    exact IsHexDigit.ne_dot ⟨m, by omega, dot⟩ rfl
  have number : Nat.toDigits 10 k = Nat.toDigits 10 k' := by
    have split := congrArg (List.splitOn '.') tail
    rw [List.splitOn_append_cons_self, List.splitOn_append_cons_self,
      List.splitOn_eq_singleton (noDot k), List.splitOn_eq_singleton (noDot k')] at split
    exact (List.cons.inj split).1
  rw [number] at tail
  exact ⟨Digest.ext text.1, toDigits_injective (by decide) (by decide) number,
    (List.cons.inj (List.append_cancel_left tail)).2⟩

namespace Config

open FsLayout

theorem dataPart_inj {d d' : Digest} {k k' : ℕ} (same : cfg.dataPart d k = cfg.dataPart d' k') :
    d = d' ∧ k = k' := by
  rw [dataPart_eq, dataPart_eq] at same
  have tail := List.append_cancel_left same
  simp only [List.cons.injEq, and_true] at tail
  exact ⟨(partName_inj tail.2.2).1, (partName_inj tail.2.2).2.1⟩

theorem bitmap_inj {d d' : Digest} {k k' : ℕ} (same : cfg.bitmap d k = cfg.bitmap d' k') :
    d = d' ∧ k = k' := by
  rw [bitmap_eq, bitmap_eq] at same
  have tail := List.append_cancel_left same
  simp only [List.cons.injEq, and_true] at tail
  exact ⟨(partName_inj tail.2.2).1, (partName_inj tail.2.2).2.1⟩

theorem bitmap_ne_dataPart (d d' : Digest) (k k' : ℕ) : cfg.bitmap d k ≠ cfg.dataPart d' k' := by
  intro same
  rw [dataPart_eq, bitmap_eq] at same
  have tail := List.append_cancel_left same
  simp only [List.cons.injEq, and_true] at tail
  exact absurd (partName_inj tail.2.2).2.2 (by decide)

end Config

end

end RemoteCache
