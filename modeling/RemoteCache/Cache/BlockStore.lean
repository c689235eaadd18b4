import RemoteCache.Cache.FsLayout
import RemoteCache.Lib.BlockMap
import RemoteCache.Lib.Files

/-!
# The block store

An object is kept in data parts of 2 GiB, each a sparse file. Seen in blocks of
64 KiB the store is a block table: reading a block cuts it out of its part, and
a positioned write of a block stores it, filling up the earlier blocks of the
part with zeros.
-/
namespace RemoteCache

open FsLayout

def kBlockSize : ℕ := 64 * 1024

/-- The number of blocks in one data part. -/
def kPartBlocks : ℕ := kMaxPartSize / kBlockSize

namespace BlockStore

variable (cfg : Config) (fs : Files)

def read (hashHex : Digest) (len off : ℕ) : Except ℕ Bytes :=
  fs.pread (cfg.dataPart hashHex (off / kMaxPartSize)) len (off % kMaxPartSize)

def write (hashHex : Digest) (data : Bytes) (off : ℕ) (a : Answer) : Files × Except ℕ ℕ :=
  fs.pwrite (cfg.dataPart hashHex (off / kMaxPartSize)) data (off % kMaxPartSize) a

/-- Removes the files in the shard directory whose names start with the hash. -/
def deleteObject (hashHex : Digest) : Files := fun at_ =>
  if at_.dropLast = cfg.shard hashHex ∧ hashHex.text <+: at_.getLastD [] then none else fs at_

/-- The store as a table of blocks. -/
def blocks : BlockMap Digest UInt8 :=
  .ofSegments kBlockSize kPartBlocks fun d k => fs.content (cfg.dataPart d k)

/-- The part file that holds a block, and the block's place in it. -/
theorem block_place (blk : ℕ) :
    blk * kBlockSize / kMaxPartSize = blk / kPartBlocks ∧
      blk * kBlockSize % kMaxPartSize = blk % kPartBlocks * kBlockSize := by
  simp only [kPartBlocks, kBlockSize, kMaxPartSize]
  omega

theorem blocks_fits : (blocks cfg fs).Fits kBlockSize := BlockMap.ofSegments_fits _ _ _

/-- Reading one block returns it, unless its part file is absent. -/
theorem read_block (d : Digest) (blk : ℕ) :
    read cfg fs d kBlockSize (blk * kBlockSize) = .ok (blocks cfg fs d blk) ∨
      (read cfg fs d kBlockSize (blk * kBlockSize) = .error ENOENT ∧
        blocks cfg fs d blk = .empty) := by
  have place := block_place blk
  simp only [read, Files.pread, place.1, place.2]
  cases part : fs (cfg.dataPart d (blk / kPartBlocks)) with
  | none =>
    -- `open` fails, and the absent part holds no bytes.
    refine .inr ⟨rfl, Blob.eq_empty_of_size ?_⟩
    simp [blocks, BlockMap.ofSegments, Files.content, part]
  | some b => exact .inl (by simp [blocks, BlockMap.ofSegments, Files.content, part])

/-- Writing one block stores it. -/
theorem write_block (d : Digest) (blk : ℕ) (data : Bytes) (some : 0 < data.size)
    (small : data.size ≤ kBlockSize) :
    blocks cfg (write cfg fs d data (blk * kBlockSize) .done).1 =
      (blocks cfg fs).put kBlockSize kPartBlocks d blk data := by
  have place := block_place blk
  refine BlockMap.ofSegments_write _ _ _ _ d blk data some small ?_ fun d' k apart => ?_
  · simp only [write, Files.pwrite, place.1, place.2, Files.content_set_same]
  -- Another part lies in another file.
  · simp only [write, Files.pwrite, place.1]
    exact Files.content_set_other _ _ fun same => apart (cfg.dataPart_inj same)

theorem blocks_empty {fs : Files} (absent : ∀ d k, fs (cfg.dataPart d k) = none) (d : Digest)
    (blk : ℕ) : blocks cfg fs d blk = .empty :=
  Blob.eq_empty_of_size (by simp [blocks, BlockMap.ofSegments, Files.content, absent])

/-- Data parts alone make up the blocks. -/
theorem blocks_congr {fs fs' : Files}
    (same : ∀ d k, fs' (cfg.dataPart d k) = fs (cfg.dataPart d k)) :
    blocks cfg fs' = blocks cfg fs := by
  simp only [blocks, Files.content, same]

end BlockStore

end RemoteCache
