import RemoteCache.Cache.Manager

/-!
# Keys as machine words

`read` and `write` pack the address of an entry and a block number into one word,
and `evict_until_gb` takes the address out again.

## Main results

`keys_decode_iff`: two keys give back their addresses and are told apart exactly
if both addresses are below 2³².

`word_injOn`: where the entries lie below 2³², the words stand for the keys of
the model, one for one.
-/
namespace RemoteCache

namespace KeyWord

/-- `reinterpret_cast<std::uintptr_t>(&ce) << 32 | blk` -/
def key (address blk : UInt64) : UInt64 := address <<< 32 ||| blk

/-- The address that `evict_until_gb` takes for that of an entry: `key >> 32`. -/
def address (key : UInt64) : UInt64 := key >>> 32

/-- The upper half of an address is shifted out of the word. -/
theorem toNat_key (a : UInt64) {blk : UInt64} (small : blk.toNat < 2 ^ 32) :
    (key a blk).toNat = 2 ^ 32 * (a.toNat % 2 ^ 32) + blk.toNat := by
  have places : (32 : UInt64).toNat % 64 = 32 := by decide
  have shifted : (a <<< 32).toNat = 2 ^ 32 * (a.toNat % 2 ^ 32) := by
    rw [UInt64.toNat_shiftLeft, places, Nat.shiftLeft_eq, Nat.mul_comm,
      show 2 ^ 64 = 2 ^ 32 * 2 ^ 32 by rfl, Nat.mul_mod_mul_left]
  rw [key, UInt64.toNat_or, shifted, Nat.two_pow_add_eq_or_of_lt small]

theorem toNat_address (a : UInt64) {blk : UInt64} (small : blk.toNat < 2 ^ 32) :
    (address (key a blk)).toNat = a.toNat % 2 ^ 32 := by
  have places : (32 : UInt64).toNat % 64 = 32 := by decide
  rw [address, UInt64.toNat_shiftRight, places, Nat.shiftRight_eq_div_pow, toNat_key a small]
  omega

/-- An address comes out of a key as it went in only if it fits the upper half of the word. -/
theorem address_key_iff (a : UInt64) {blk : UInt64} (small : blk.toNat < 2 ^ 32) :
    address (key a blk) = a ↔ a.toNat < 2 ^ 32 := by
  rw [← UInt64.toNat_inj, toNat_address a small]
  constructor
  · intro same
    rw [← same]
    exact Nat.mod_lt _ (by decide)
  · exact Nat.mod_eq_of_lt

/-- Equal words agree in the lower halves of the addresses and in the blocks. -/
theorem key_eq_iff (a a' : UInt64) {blk blk' : UInt64} (small : blk.toNat < 2 ^ 32)
    (small' : blk'.toNat < 2 ^ 32) :
    key a blk = key a' blk' ↔ a.toNat % 2 ^ 32 = a'.toNat % 2 ^ 32 ∧ blk = blk' := by
  rw [← UInt64.toNat_inj, ← UInt64.toNat_inj, toNat_key a small, toNat_key a' small']
  omega

theorem keys_decode_iff (a a' blk blk' : UInt64) (small : blk.toNat < 2 ^ 32)
    (small' : blk'.toNat < 2 ^ 32) :
    ((address (key a blk) = a ∧ address (key a' blk') = a') ∧
        (key a blk = key a' blk' → a = a' ∧ blk = blk')) ↔
      a.toNat < 2 ^ 32 ∧ a'.toNat < 2 ^ 32 := by
  rw [address_key_iff a small, address_key_iff a' small']
  apply and_iff_left_of_imp
  rintro ⟨low, low'⟩ same
  obtain ⟨halves, blocks⟩ := (key_eq_iff a a' small small').mp same
  rw [Nat.mod_eq_of_lt low, Nat.mod_eq_of_lt low'] at halves
  exact ⟨UInt64.toNat_inj.mp halves, blocks⟩

theorem keys_decode_low :
    ((address (key 4096 7) = 4096 ∧ address (key 8192 7) = 8192) ∧
        (key 4096 7 = key 8192 7 → (4096 : UInt64) = 8192 ∧ (7 : UInt64) = 7)) ↔
      (4096 : UInt64).toNat < 2 ^ 32 ∧ (8192 : UInt64).toNat < 2 ^ 32 :=
  keys_decode_iff 4096 8192 7 7 (by decide) (by decide)

/-- An address of the heap comes back without its upper half, and two entries share a key. -/
theorem high_address_lost :
    (0x555500001000 : UInt64).toNat < 2 ^ 47 ∧ (0x555600001000 : UInt64).toNat < 2 ^ 47 ∧
      address (key 0x555500001000 7) = 0x1000 ∧
      key 0x555500001000 7 = key 0x555600001000 7 := by
  decide

/-! ### The keys of the model -/

variable (place : Addr → UInt64)

/-- The word for a key, where every entry and task has its place in memory. -/
def word (k : Key) : UInt64 := key (place k.addr) (UInt64.ofNat k.blk)

/-- Of the block numbers that fit the lower half, none is lost. -/
private theorem toNat_blk {k : Key} (small : k.blk < 2 ^ 32) :
    (UInt64.ofNat k.blk).toNat = k.blk := by
  rw [UInt64.toNat_ofNat', Nat.mod_eq_of_lt (small.trans (by decide))]

/-- Live entries lie at different places, so different keys of theirs have different words. -/
theorem word_injOn {live : Set Addr} (apart : Set.InjOn place live) :
    Set.InjOn (word place)
      { k | k.addr ∈ live ∧ (place k.addr).toNat < 2 ^ 32 ∧ k.blk < 2 ^ 32 } := by
  rintro k ⟨there, low, small⟩ k' ⟨there', low', small'⟩ same
  have halves : (UInt64.ofNat k.blk).toNat < 2 ^ 32 := by rwa [toNat_blk small]
  have halves' : (UInt64.ofNat k'.blk).toNat < 2 ^ 32 := by rwa [toNat_blk small']
  obtain ⟨places, blocks⟩ := (key_eq_iff _ _ halves halves').mp same
  rw [Nat.mod_eq_of_lt low, Nat.mod_eq_of_lt low'] at places
  have numbers := congrArg UInt64.toNat blocks
  rw [toNat_blk small, toNat_blk small'] at numbers
  cases k
  cases k'
  exact congrArg₂ Key.mk (apart there there' (UInt64.toNat_inj.mp places)) numbers

theorem address_word {k : Key} (low : (place k.addr).toNat < 2 ^ 32) (small : k.blk < 2 ^ 32) :
    address (word place k) = place k.addr :=
  (address_key_iff _ (by rwa [toNat_blk small])).mpr low

end KeyWord

end RemoteCache
