import RemoteCache.Cache.DirtyBits

/-!
# Loading a bitmap back

## Main result

`reloads_iff`: loading a persisted bit vector gives back its bits, followed by
fewer than eight clear ones, exactly if it has at most eight bits and, where it
has none and nothing is written, what is there already stands for no bits.
-/
namespace RemoteCache

namespace MetadataStore

/-- The kernel may refuse to open the file. -/
def loadBitmap (cfg : Config) (allowed : Bool) (fs : Files) (bitmap : Bitmaps)
    (hashHex : Digest) (partIdx : ℕ) : Bitmaps × Bool :=
  match fs (cfg.bitmap hashHex partIdx) with
  | none => (bitmap, true)
  | some file =>
    if allowed then
      -- One byte for eight bytes of the file, and one bit for each bit of these.
      let bytes := (List.range ((file.size + 7) / 8)).map file.get
      let parts := (bitmap.lookup hashHex).getD ∅
      (bitmap.insert hashHex (parts.insert partIdx (bitsOf bytes)), true)
    else (bitmap, false)

/-- What loading makes of the bit vector: nothing new if there is no file. -/
theorem vecOf_loadBitmap (cfg : Config) (fs : Files) (bitmap : Bitmaps) (d : Digest) (k : ℕ) :
    vecOf (loadBitmap cfg true fs bitmap d k).1 d k =
      match fs (cfg.bitmap d k) with
      | none => vecOf bitmap d k
      | some file => bitsOf ((List.range ((file.size + 7) / 8)).map file.get) := by
  unfold loadBitmap
  cases fs (cfg.bitmap d k) with
  | none => rfl
  | some file => simp [vecOf]

/-- Some bits, followed by fewer than eight clear ones. -/
def Padded (vec bits : List Bool) : Prop :=
  ∃ padding ≤ 7, vec = bits ++ List.replicate padding false

/-- Loading a bit vector that was persisted gives it back. -/
def Reloads (cfg : Config) (fs : Files) (bitmap : Bitmaps) (d : Digest) (k : ℕ)
    (bits : List Bool) : Prop :=
  Padded (vecOf (loadBitmap cfg true (persistBitmap cfg fs d k bits) bitmap d k).1 d k) bits

/-- What is in memory, or in the file if there is one, stands for no bits. -/
def Blank (cfg : Config) (fs : Files) (bitmap : Bitmaps) (d : Digest) (k : ℕ) : Prop :=
  match fs (cfg.bitmap d k) with
  | none => (vecOf bitmap d k).length ≤ 7 ∧ ∀ bit ∈ vecOf bitmap d k, bit = false
  | some file => file.size = 0

theorem length_packBits (bits : List Bool) : (packBits bits).length = (bits.length + 7) / 8 := by
  have kept : ∀ (l : List (Bool × ℕ)) (bytes : List UInt8),
      (l.foldl (fun bytes bit => if bit.1 then orBit bytes bit.2 else bytes) bytes).length =
        bytes.length := by
    intro l
    induction l with
    | nil => exact fun _ => rfl
    | cons bit l ih =>
      intro bytes
      rw [List.foldl_cons, ih]
      split
      · exact List.length_modify ..
      · rfl
  have laid := kept bits.zipIdx (List.replicate ((bits.length + 7) / 8) 0)
  rw [List.length_replicate] at laid
  exact laid

theorem padded_length {vec bits : List Bool} (padded : Padded vec bits) :
    bits.length ≤ vec.length ∧ vec.length ≤ bits.length + 7 := by
  obtain ⟨padding, few, rfl⟩ := padded
  rw [List.length_append, List.length_replicate]
  omega

/-- A vector of the right length with the right bits. -/
theorem padded_of_getD {vec bits : List Bool} (long : bits.length ≤ vec.length)
    (short : vec.length ≤ bits.length + 7) (same : ∀ b, vec.getD b false = bits.getD b false) :
    Padded vec bits := by
  refine ⟨vec.length - bits.length, by omega, ?_⟩
  apply List.ext_getElem
  · rw [List.length_append, List.length_replicate]
    omega
  · intro b inside _
    have bit := same b
    rw [List.getD_eq_getElem _ _ inside] at bit
    rw [bit, List.getElem_append]
    split
    next own => rw [List.getD_eq_getElem _ _ own]
    next past => rw [List.getD_eq_default _ _ (Nat.not_lt.mp past), List.getElem_replicate]

/-- The vector that comes back has one bit for each byte of the file, rounded up. -/
private theorem reloaded (cfg : Config) (fs : Files) (bitmap : Bitmaps) (d : Digest) (k : ℕ)
    {bits : List Bool} (some : bits ≠ []) :
    vecOf (loadBitmap cfg true (persistBitmap cfg fs d k bits) bitmap d k).1 d k =
      bitsOf ((List.range (((packBits bits).length + 7) / 8)).map
        fun i => if i < (packBits bits).length then (packBits bits).getD i 0 else 0) := by
  rw [vecOf_loadBitmap, persistBitmap_same, bitmapFile, if_neg some]
  rfl

theorem reloads_some_iff (cfg : Config) (fs : Files) (bitmap : Bitmaps) (d : Digest) (k : ℕ)
    {bits : List Bool} (some : bits ≠ []) :
    Reloads cfg fs bitmap d k bits ↔ bits.length ≤ 8 := by
  have positive := List.length_pos_iff.mpr some
  unfold Reloads
  rw [reloaded cfg fs bitmap d k some]
  constructor
  · intro padded
    have lengths := padded_length padded
    rw [length_bitsOf, List.length_map, List.length_range, length_packBits] at lengths
    omega
  · intro small
    -- The file has one byte, and all its bits come back.
    have one : (packBits bits).length = 1 := by
      rw [length_packBits]
      omega
    have bytes : (List.range (((packBits bits).length + 7) / 8)).map
        (fun i => if i < (packBits bits).length then (packBits bits).getD i 0 else 0) =
          packBits bits := by
      obtain ⟨byte, only⟩ := List.length_eq_one_iff.mp one
      rw [only]
      simp
    rw [bytes]
    apply padded_of_getD
    · rw [length_bitsOf, one]
      exact small
    · rw [length_bitsOf, one]
      omega
    · intro b
      rw [getD_bitsOf, bitAt_packBits]

theorem reloads_nil_iff (cfg : Config) (fs : Files) (bitmap : Bitmaps) (d : Digest) (k : ℕ) :
    Reloads cfg fs bitmap d k [] ↔ Blank cfg fs bitmap d k := by
  unfold Reloads Blank
  rw [vecOf_loadBitmap, persistBitmap_same, bitmapFile, if_pos rfl, Option.none_or]
  cases fs (cfg.bitmap d k) with
  | none =>
    dsimp only
    constructor
    · rintro ⟨padding, few, same⟩
      rw [List.nil_append] at same
      rw [same, List.length_replicate]
      exact ⟨few, fun bit member => List.eq_of_mem_replicate member⟩
    · rintro ⟨few, clear⟩
      exact ⟨_, few, List.eq_replicate_length.mpr clear⟩
  | some file =>
    dsimp only
    constructor
    · intro padded
      have lengths := padded_length padded
      rw [length_bitsOf, List.length_map, List.length_range, List.length_nil] at lengths
      omega
    · intro empty
      refine ⟨0, by decide, ?_⟩
      rw [empty]
      rfl

/-- A persisted vector comes back if and only if it has at most eight bits and, where it has none
and nothing is written, what is there already stands for no bits. -/
theorem reloads_iff (cfg : Config) (fs : Files) (bitmap : Bitmaps) (d : Digest) (k : ℕ)
    (bits : List Bool) :
    Reloads cfg fs bitmap d k bits ↔
      bits.length ≤ 8 ∧ (bits = [] → Blank cfg fs bitmap d k) := by
  by_cases empty : bits = []
  · subst empty
    rw [reloads_nil_iff]
    constructor
    · exact fun blank => ⟨Nat.zero_le _, fun _ => blank⟩
    · exact fun both => both.2 rfl
  · rw [reloads_some_iff cfg fs bitmap d k empty]
    exact (and_iff_left fun none => absurd none empty).symm

/-- Of nine bits eight come back. -/
theorem nine_bits_lost :
    ¬Reloads .sample (fun _ => none) ∅ (Config.sample.hashHex ['/', 'f']) 0
      (List.replicate 9 true) := by
  intro reloads
  have few := (reloads_some_iff .sample _ _ _ _ (by decide)).mp reloads
  exact absurd few (by decide)

end MetadataStore

end RemoteCache
