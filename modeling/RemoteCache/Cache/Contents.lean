import RemoteCache.Cache.Passes

/-!
# The store as flat content

`stored` is the byte the store holds at an offset of an object, zero where it
holds nothing. Storing a block changes the stored bytes of that block only, a
pass of a write changes exactly the bytes it writes, and full blocks stay full.
-/
namespace RemoteCache

variable (cfg : Config)

/-- Paths whose hashes differ and whose write-through copies are not among the cache's own files. -/
structure Config.Clean (names : Str → Prop) : Prop where
  hash : ∀ p q, names p → names q → cfg.hash p = cfg.hash q → p = q
  outside : ∀ p, names p → ¬cfg.InShard (cfg.copy p)

theorem Config.Clean.hashHex {cfg : Config} {names : Str → Prop} (clean : cfg.Clean names)
    {p q : Str} (first : names p) (second : names q) (same : cfg.hashHex p = cfg.hashHex q) :
    p = q :=
  clean.hash p q first second (Digest.ofHash_injective same)

theorem Config.Clean.apart {cfg : Config} {names : Str → Prop} (clean : cfg.Clean names)
    {p : Str} (name : names p) (d : Digest) (k : ℕ) : cfg.dataPart d k ≠ cfg.copy p :=
  fun same => clean.outside p name (same ▸ cfg.dataPart_inShard d k)

theorem Config.Clean.mono {cfg : Config} {names names' : Str → Prop} (clean : cfg.Clean names')
    (fewer : ∀ p, names p → names' p) : cfg.Clean names :=
  ⟨fun p q first second => clean.hash p q (fewer p first) (fewer q second),
    fun p name => clean.outside p (fewer p name)⟩

/-- Three blocks of ones behind every path. -/
def threeBlocks : Str → Bytes := fun _ => .ofFn (3 * kBlockSize) fun _ => 1

theorem clean_sample : Config.sample.Clean (· = ['/', 'f']) := by
  refine ⟨fun p q first second _ => first.trans second.symm, ?_⟩
  rintro _ rfl ⟨first, second, rest, _, _, _, eq⟩
  have base : Config.sample.base = [['c']] := by decide
  have copy : Config.sample.copy ['/', 'f'] = [['c'], ['f']] := by decide
  simp [base, copy] at eq

namespace CacheManager

def stored (m : CacheManager) (d : Digest) (x : ℕ) : UInt8 :=
  (m.blocks cfg d (x / kBlockSize)).get (x % kBlockSize)

section store

variable {m : CacheManager} {d d' : Digest} {blk b x : ℕ} {data : Bytes}

theorem store_full (some : 0 < data.size) (small : data.size ≤ kBlockSize)
    (full : (m.blocks cfg).Full kBlockSize d' b) :
    ((m.store cfg d blk data).blocks cfg).Full kBlockSize d' b := by
  rw [blocks_store cfg m d blk some small]
  exact BlockMap.full_put (blocks_fits cfg m) small full

theorem stored_store (some : 0 < data.size) (small : data.size ≤ kBlockSize) :
    (m.store cfg d blk data).stored cfg d' x =
      if d' = d ∧ x / kBlockSize = blk ∧ x % kBlockSize < data.size then data.get (x % kBlockSize)
      else m.stored cfg d' x := by
  simp only [stored, blocks_store cfg m d blk some small]
  by_cases here : d' = d ∧ x / kBlockSize = blk
  · obtain ⟨rfl, rfl⟩ := here
    simp only [BlockMap.put_same, Blob.get_write, Nat.zero_le, Nat.zero_add, Nat.sub_zero, true_and]
  -- Another block may have grown by zeros, which read as before.
  · rw [BlockMap.put_get_other (blocks_fits cfg m) here,
      if_neg fun inside => here ⟨inside.1, inside.2.1⟩]

/-- A block that was not stored keeps its bytes. -/
theorem stored_store_other (some : 0 < data.size) (small : data.size ≤ kBlockSize)
    (other : ¬(d' = d ∧ x / kBlockSize = blk)) :
    (m.store cfg d blk data).stored cfg d' x = m.stored cfg d' x := by
  rw [stored_store cfg some small, if_neg fun inside => other ⟨inside.1, inside.2.1⟩]

end store

section wrote

variable {m : CacheManager} {path : Str} {d d' : Digest} {p : Piece} {chunk : Bytes} {b x : ℕ}

theorem merged_size (fits : p.inBlock + chunk.size ≤ kBlockSize) :
    (m.merged cfg d p chunk).size = kBlockSize := by
  rw [merged, Blob.size_write_within _ _ _ (by simpa using fits), Blob.size_pad]

/-- A pass of `write` stores the merged block, provided the copy is not one of the parts. -/
theorem blocks_wrote (apart : ∀ d k, cfg.dataPart d k ≠ cfg.copy path)
    (fits : p.inBlock + chunk.size ≤ kBlockSize) :
    (m.wrote cfg path d p chunk).blocks cfg =
      (m.blocks cfg).put kBlockSize kPartBlocks d p.blk (m.merged cfg d p chunk) := by
  have size := merged_size cfg (m := m) (d := d) fits
  rw [← blocks_store cfg m d p.blk (by rw [size]; decide) (Nat.le_of_eq size)]
  exact BlockStore.blocks_congr cfg fun d k => Files.set_other _ _ (apart d k)

theorem wrote_full (apart : ∀ d k, cfg.dataPart d k ≠ cfg.copy path)
    (fits : p.inBlock + chunk.size ≤ kBlockSize)
    (full : (m.blocks cfg).Full kBlockSize d' b ∨ (d' = d ∧ b = p.blk)) :
    ((m.wrote cfg path d p chunk).blocks cfg).Full kBlockSize d' b := by
  have size := merged_size cfg (m := m) (d := d) fits
  rw [blocks_wrote cfg apart fits]
  rcases full with old | ⟨rfl, rfl⟩
  · exact BlockMap.full_put (blocks_fits cfg m) (Nat.le_of_eq size) old
  · exact BlockMap.full_put_same (blocks_fits cfg m _ _) size

theorem stored_wrote (apart : ∀ d k, cfg.dataPart d k ≠ cfg.copy path)
    (fits : p.inBlock + chunk.size ≤ kBlockSize) :
    (m.wrote cfg path d p chunk).stored cfg d' x =
      if d' = d ∧ p.blk * kBlockSize + p.inBlock ≤ x ∧
          x < p.blk * kBlockSize + p.inBlock + chunk.size then
        chunk.get (x - (p.blk * kBlockSize + p.inBlock))
      else m.stored cfg d' x := by
  simp only [stored, blocks_wrote cfg apart fits]
  have small := blocks_fits cfg m d p.blk
  by_cases here : d' = d ∧ x / kBlockSize = p.blk
  · obtain ⟨rfl, same⟩ := here
    have place := Nat.div_add_mod x kBlockSize
    have inside : x % kBlockSize < kBlockSize := Nat.mod_lt _ (by decide)
    rw [same, BlockMap.put_same, Blob.write_zero_eq _ _ (by rw [merged_size cfg fits]; exact small)]
    rw [same, Nat.mul_comm] at place
    simp only [merged, Blob.get_write, Blob.get_pad, if_pos inside, true_and]
    by_cases fresh : p.inBlock ≤ x % kBlockSize ∧ x % kBlockSize < p.inBlock + chunk.size
    · rw [if_pos fresh, if_pos (by omega)]
      congr 1; omega
    · rw [if_neg fresh, if_neg (by omega)]
  · rw [BlockMap.put_get_other (blocks_fits cfg m) here, if_neg]
    rintro ⟨rfl, above, below⟩
    refine here ⟨rfl, ?_⟩
    have positive : 0 < kBlockSize := by decide
    rw [Nat.div_eq_iff positive]
    omega

end wrote

end CacheManager

end RemoteCache
