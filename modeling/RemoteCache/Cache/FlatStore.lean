import RemoteCache.Cache.BlockStore
import RemoteCache.Lib.AddressSpace

/-!
# The block store as a flat address space

## Main result

`read_block_latest`: whatever was written to whatever objects, a read of a block
returns the latest byte at each offset, is cut where the writes to its data part
end, and fails if there were none.

## Proof strategy

The data part `k` of an object is segment `k` of the object's address space. A
write within a block goes to the part that it hits and to no other file, so
every part file represents the history of writes.
-/
namespace RemoteCache

open FsLayout

abbrev StoreWrite := Placed Digest UInt8

namespace BlockStore

variable (cfg : Config)

/-- The files after some writes, one after the other. -/
def writeAll (files : Files) (ws : List StoreWrite) : Files :=
  ws.foldl (fun fs w => (write cfg fs w.key w.data w.off .done).1) files

theorem writeAll_concat (files : Files) (ws : List StoreWrite) (w : StoreWrite) :
    writeAll cfg files (ws ++ [w]) =
      (write cfg (writeAll cfg files ws) w.key w.data w.off .done).1 := by
  simp [writeAll]

/-- A write changes the part file that it hits. -/
theorem write_hits (fs : Files) {w : StoreWrite} {d : Digest} {k : ℕ}
    (hits : w.Hits kMaxPartSize d k) :
    (write cfg fs w.key w.data w.off .done).1 (cfg.dataPart d k) =
      some (((fs (cfg.dataPart d k)).getD .empty).write w.data (w.off % kMaxPartSize)) := by
  obtain ⟨rfl, rfl⟩ := hits
  exact Files.set_same _ _ _

/-- A write leaves the part files alone that it does not hit. -/
theorem write_misses (fs : Files) {w : StoreWrite} {d : Digest} {k : ℕ}
    (misses : ¬w.Hits kMaxPartSize d k) :
    (write cfg fs w.key w.data w.off .done).1 (cfg.dataPart d k) = fs (cfg.dataPart d k) := by
  refine Files.set_other _ _ fun same => misses ?_
  obtain ⟨rfl, rfl⟩ := cfg.dataPart_inj same
  exact ⟨rfl, rfl⟩

/-- A part file does not depend on the writes that do not hit it. -/
theorem writeAll_filter (files : Files) (ws : List StoreWrite) (d : Digest) (k : ℕ) :
    writeAll cfg files ws (cfg.dataPart d k) =
      writeAll cfg files (ws.filter (·.Hits kMaxPartSize d k)) (cfg.dataPart d k) := by
  induction ws using List.reverseRecOn with
  | nil => rfl
  | append_singleton ws w ih =>
    rw [writeAll_concat, List.filter_append]
    by_cases hits : w.Hits kMaxPartSize d k
    · rw [List.filter_cons_of_pos (by simpa using hits), List.filter_nil, writeAll_concat,
        write_hits cfg _ hits, write_hits cfg _ hits, ih]
    · rw [List.filter_cons_of_neg (by simpa using hits), List.filter_nil, List.append_nil,
        write_misses cfg _ hits, ih]

/-- Every part file represents the writes so far. -/
theorem writeAll_represents {files : Files} (empty : ∀ d k, files (cfg.dataPart d k) = none)
    {ws : List StoreWrite} (within : ∀ w ∈ ws, w.Within kMaxPartSize) (d : Digest) (k : ℕ) :
    Represents kMaxPartSize ws d k (writeAll cfg files ws (cfg.dataPart d k)) := by
  induction ws using List.reverseRecOn with
  | nil =>
    rw [writeAll, List.foldl_nil, empty]
    exact .empty _ d k
  | append_singleton ws w ih =>
    have earlier : ∀ v ∈ ws, v.Within kMaxPartSize :=
      fun v member => within v (List.mem_append_left _ member)
    have last := within w (by simp)
    rw [writeAll_concat]
    by_cases hits : w.Hits kMaxPartSize d k
    · rw [write_hits cfg _ hits]
      exact (ih earlier).write earlier last hits
    · rw [write_misses cfg _ hits]
      exact (ih earlier).other last hits

/-- A read of a block after writes within blocks: it fails if no write hit its part, and
otherwise returns the latest bytes, or zeros, up to the end of the highest write to the part;
writes to other objects and parts make no difference. -/
theorem read_block_latest (cfg : Config) (files : Files)
    (empty : ∀ d k, files (cfg.dataPart d k) = none) (ws : List StoreWrite)
    (within : ∀ w ∈ ws, w.Within kBlockSize) (d : Digest) (blk : ℕ) :
    let off := blk * kBlockSize
    let k := off / kMaxPartSize
    let r := read cfg (writeAll cfg files ws) d kBlockSize off
    ((∀ w ∈ ws, ¬w.Hits kMaxPartSize d k) → r = .error ENOENT) ∧
    ((∃ w ∈ ws, w.Hits kMaxPartSize d k) → ∃ b, r = .ok b ∧
      b.size = min kBlockSize (highestEnd kMaxPartSize ws d k - off % kMaxPartSize) ∧
      ∀ i < b.size, b.get i = (latest? ws d (off + i)).getD 0) ∧
    r = read cfg (writeAll cfg files (ws.filter (·.Hits kMaxPartSize d k))) d kBlockSize off := by
  intro off k r
  have parts : ∀ w ∈ ws, w.Within kMaxPartSize := fun w member =>
    (within w member).mono kPartBlocks (by decide)
  have represents := writeAll_represents cfg empty parts d k
  have reads : r =
      (writeAll cfg files ws).pread (cfg.dataPart d k) kBlockSize (off % kMaxPartSize) := rfl
  have place : k * kMaxPartSize + off % kMaxPartSize = off := by
    rw [Nat.mul_comm]
    exact Nat.div_add_mod off kMaxPartSize
  -- A block does not reach past its part, as parts are whole numbers of blocks.
  have room : off % kMaxPartSize + kBlockSize ≤ kMaxPartSize := by
    simp only [off, kBlockSize, kMaxPartSize]
    omega
  refine ⟨fun unhit => ?_, fun hit => ?_, ?_⟩
  · cases part : writeAll cfg files ws (cfg.dataPart d k) with
    | none => rw [reads, Files.pread, part]
    | some b =>
      rw [part] at represents
      cases represents with
      | present _ hit =>
        -- A part that exists was hit.
        obtain ⟨w, member, hits⟩ := hit
        exact absurd hits (unhit w member)
  · cases part : writeAll cfg files ws (cfg.dataPart d k) with
    | none =>
      rw [part] at represents
      cases represents with
      | absent unhit =>
        obtain ⟨w, member, hits⟩ := hit
        exact absurd hits (unhit w member)
    | some b =>
      rw [part] at represents
      cases represents with
      | present _ _ size letters =>
        refine ⟨b.slice (off % kMaxPartSize) kBlockSize, by rw [reads, Files.pread, part],
          by rw [Blob.size_slice, size], fun i inside => ?_⟩
        rw [Blob.size_slice] at inside
        rw [Blob.get_slice, if_pos (by omega), letters _ (by omega), ← Nat.add_assoc, place]
  -- The part file is the only one that the read looks at.
  · simp only [reads, read, Files.pread, writeAll_filter cfg files ws d k]
    rfl

theorem read_block_latest_overlap :
    let d := Config.sample.hashHex ['/', 'f']
    let ws : List StoreWrite := [⟨d, .ofFn 2 fun _ => 1, 0⟩, ⟨d, .ofFn 2 fun _ => 2, 1⟩]
    let r := read .sample (writeAll .sample (fun _ => none) ws) d kBlockSize (0 * kBlockSize)
    ((∀ w ∈ ws, ¬w.Hits kMaxPartSize d (0 * kBlockSize / kMaxPartSize)) → r = .error ENOENT) ∧
    ((∃ w ∈ ws, w.Hits kMaxPartSize d (0 * kBlockSize / kMaxPartSize)) → ∃ b, r = .ok b ∧
      b.size = min kBlockSize (highestEnd kMaxPartSize ws d (0 * kBlockSize / kMaxPartSize) -
        0 * kBlockSize % kMaxPartSize) ∧
      ∀ i < b.size, b.get i = (latest? ws d (0 * kBlockSize + i)).getD 0) ∧
    r = read .sample (writeAll .sample (fun _ => none)
      (ws.filter (·.Hits kMaxPartSize d (0 * kBlockSize / kMaxPartSize)))) d kBlockSize
        (0 * kBlockSize) :=
  read_block_latest .sample (fun _ => none) (fun _ _ => rfl) _
    (by simp [Placed.Within, kBlockSize]) _ 0

end BlockStore

end RemoteCache
