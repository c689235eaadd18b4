import RemoteCache.Lib.Json
import RemoteCache.Lib.Search
import RemoteCache.Server.Download

/-!
# JSON answers in a buffer

The FUSE layer downloads a JSON answer into a buffer of fixed size and makes a
string of the bytes that the download counts. What it gets is the beginning of
the text, as far as the buffer goes.
-/
namespace RemoteCache

open Json HttpBackend

/-- `encode('utf-8')`, for ASCII texts. -/
def asciiBytes (s : Str) : Bytes := .ofFn s.length fun i => .ofNat (s.getD i ' ').toNat

namespace Fuse

/-- The string made of the buffer and the result of a download. -/
def received (r : Bytes × ℤ) : Str :=
  (List.range r.2.toNat).map fun i => Char.ofNat (r.1.get i).toNat

theorem ofNat_byte {c : Char} (printable : Printable c) :
    Char.ofNat (UInt8.ofNat c.toNat).toNat = c := by
  have small : c.toNat < 2 ^ 8 := by have := printable.2; omega
  rw [UInt8.toNat_ofNat_of_lt' small, Char.ofNat_toNat]

/-- Whatever the chunks are that it arrives in, an answer is cut at the end of the buffer. -/
theorem received_download (j : Json) {transfer : Transfer} (ok : transfer.ok = true)
    (success : transfer.code = 200) (body : Blob.concat transfer.chunks = asciiBytes (dumps j))
    (buffer : Bytes) (size : ℕ) :
    received (download transfer buffer size) = (dumps j).take size := by
  have counted : (download transfer buffer size).2.toNat = min size (dumps j).length := by
    rw [download_eq, ok, success, body]
    rfl
  have shown : ∀ i < min size (dumps j).length,
      (download transfer buffer size).1.get i = .ofNat ((dumps j).getD i ' ').toNat := by
    intro i inside
    have within : i < ((asciiBytes (dumps j)).slice 0 size).size := by
      simpa [asciiBytes] using inside
    rw [download_eq, body, Blob.get_write_zero _ _ within, Blob.get_slice, if_pos (by omega),
      Nat.zero_add, asciiBytes, Blob.get_ofFn, if_pos (by omega)]
  apply List.ext_getElem
  · simp [received, counted]
  · intro i first second
    have inside : i < min size (dumps j).length := by simpa using second
    have present : i < (dumps j).length := by omega
    have letter : (dumps j).getD i ' ' = (dumps j)[i] := by
      rw [List.getD_eq_getElem?_getD, List.getElem?_eq_getElem, Option.getD_some]
    rw [List.getElem_take]
    simp only [received, List.getElem_map, List.getElem_range]
    rw [shown i inside, letter, ofNat_byte (printable_dumps j _ (List.getElem_mem _))]

/-! ### Searching for keys -/

/-- A key with another first letter than the one that is looked for. -/
theorem quiet_key {n : Char} {word : Str} (colon : ':' ≠ n) (c : Char) (key : Str) (other : c ≠ n)
    (absent : quote ∉ c :: key) :
    Quiet (quote :: n :: word) ([',', ' '] ++ (quote :: c :: key) ++ [quote, ':', ' ']) := by
  apply Quiet.append
  · apply Quiet.append
    · exact quiet_of_absent (by decide)
    · exact quiet_second other absent
  · exact quiet_second colon (by decide)

theorem quiet_number {q : Char} (other : q ≠ '-' ∧ ∀ d < 10, q ≠ d.digitChar) (word : Str)
    (n : ℤ) : Quiet (q :: word) (Python.str n) := by
  apply quiet_of_absent
  intro member
  rcases str_letter n member with sign | ⟨d, small, digit⟩
  · exact other.1 sign
  · exact other.2 d small digit

end Fuse

end RemoteCache
