import RemoteCache.Cache.FsLayout
import RemoteCache.Lib.Files
import Mathlib.Data.List.AList

/-!
# Dirty bitmaps

`MetadataStore` keeps one bit vector per object and part, indexed by the block
number within the object, and writes it to the object's bitmap files on request.
-/
namespace RemoteCache

open FsLayout

/-- `bitmap_` -/
abbrev Bitmaps := AList fun _ : Digest => AList fun _ : ℕ => List Bool

namespace MetadataStore

/-- `vec[block_idx] = true`, after resizing with clear bits where the vector is too short. -/
def setBit (vec : List Bool) (blockIdx : ℕ) : List Bool :=
  let vec := if vec.length ≤ blockIdx then vec.rightpad (blockIdx + 1) false else vec
  vec.set blockIdx true

def markDirtyBlock (bitmap : Bitmaps) (hashHex : Digest) (partIdx blockIdx : ℕ) : Bitmaps :=
  let parts := (bitmap.lookup hashHex).getD ∅
  let vec := (parts.lookup partIdx).getD []
  bitmap.insert hashHex (parts.insert partIdx (setBit vec blockIdx))

/-- Bit `i` goes to bit `i % 8` of byte `i / 8`. -/
def packBits (bits : List Bool) : List UInt8 :=
  bits.zipIdx.foldl
    (fun bytes bit =>
      if bit.1 then bytes.modify (bit.2 / 8) (· ||| (1 <<< (UInt8.ofNat (bit.2 % 8)))) else bytes)
    (List.replicate ((bits.length + 7) / 8) 0)

def persistBitmap (cfg : Config) (fs : Files) (hashHex : Digest) (partIdx : ℕ)
    (bits : List Bool) : Files :=
  -- An empty vector returns before the file is opened.
  if bits = [] then fs
  else
    let bytes := packBits bits
    fs.set (cfg.bitmap hashHex partIdx) (.ofFn bytes.length fun i => bytes.getD i 0)

def flushBitmaps (cfg : Config) (fs : Files) (bitmap : Bitmaps) (hashHex : Digest) : Files :=
  match bitmap.lookup hashHex with
  | none => fs
  | some parts =>
    parts.entries.foldl (fun fs part => persistBitmap cfg fs hashHex part.1 part.2) fs

theorem persistBitmap_other (cfg : Config) (fs : Files) (d : Digest) (k : ℕ) (bits : List Bool)
    {at_ : Path} (apart : at_ ≠ cfg.bitmap d k) : persistBitmap cfg fs d k bits at_ = fs at_ := by
  unfold persistBitmap
  split
  · rfl
  · exact Files.set_other _ _ apart

/-- Flushing an object writes its bitmap files and no others. -/
theorem flushBitmaps_other (cfg : Config) (fs : Files) (bitmap : Bitmaps) (d : Digest)
    {at_ : Path} (apart : ∀ k, at_ ≠ cfg.bitmap d k) :
    flushBitmaps cfg fs bitmap d at_ = fs at_ := by
  cases found : bitmap.lookup d with
  | none => simp only [flushBitmaps, found]
  | some parts =>
    simp only [flushBitmaps, found]
    generalize parts.entries = entries
    -- The files change part by part, each at a place that is not `at_`.
    induction entries generalizing fs with
    | nil => rfl
    | cons part entries ih =>
      rw [List.foldl_cons, ih, persistBitmap_other cfg fs d _ _ (apart _)]

end MetadataStore

end RemoteCache
