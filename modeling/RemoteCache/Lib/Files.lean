import RemoteCache.Lib.Blob
import RemoteCache.Lib.Paths

/-!
# Regular files

A file system is the content of the regular file at each location. Directories
are implied by the files below them; that a location with files below it has none
itself is left to the user. An attempt to write is answered by the kernel; every
answer other than `done` leaves part of the data out.
-/
namespace RemoteCache

instance zeroByte : Zero UInt8 := ⟨0⟩

abbrev Bytes := Blob UInt8

abbrev Files := Path → Option Bytes

def ENOENT : ℕ := 2
def ENODEV : ℕ := 19

/-- How `open(O_RDWR | O_CREAT)` and `pwrite` go. -/
inductive Answer where
  | done
  | openFails (errno : ℕ)
  | writeFails (errno : ℕ)
  | short (n : ℕ)
  deriving DecidableEq

/-- How many bytes of a write of `size` bytes the answer lets through. -/
def Answer.count (size : ℕ) : Answer → ℕ
  | .done => size
  | .openFails _ => 0
  | .writeFails _ => 0
  | .short n => min n size

theorem Answer.count_le (size : ℕ) (a : Answer) : a.count size ≤ size := by
  cases a
  · exact Nat.le_refl _
  · exact Nat.zero_le _
  · exact Nat.zero_le _
  · exact Nat.min_le_right _ _

/-- Whether a byte gets through does not depend on how many follow it. -/
theorem Answer.lt_count (a : Answer) {i size size' : ℕ} (first : i < size) (second : i < size') :
    i < a.count size ↔ i < a.count size' := by
  cases a <;> simp only [count, first, second, lt_min_iff, and_true]

namespace Files

/-- What the file holds; an absent file holds nothing. -/
def content (fs : Files) (at_ : Path) : Bytes := (fs at_).getD .empty

def set (fs : Files) (at_ : Path) (b : Bytes) : Files := Function.update fs at_ (some b)

/-- `open(O_RDONLY)` and `pread`: the bytes read, or the error number. -/
def pread (fs : Files) (at_ : Path) (len off : ℕ) : Except ℕ Bytes :=
  match fs at_ with
  | none => .error ENOENT
  | some b => .ok (b.slice off len)

/-- `open(O_RDWR | O_CREAT)` and `pwrite`: the number of bytes written, or the error number. -/
def pwrite (fs : Files) (at_ : Path) (data : Bytes) (off : ℕ) : Answer → Files × Except ℕ ℕ
  | .done => (fs.set at_ ((fs.content at_).write data off), .ok data.size)
  | .openFails errno => (fs, .error errno)
  | .writeFails errno => (fs.set at_ (fs.content at_), .error errno)
  | .short n => (fs.set at_ ((fs.content at_).write (data.slice 0 n) off), .ok (min n data.size))

@[simp] theorem set_same (fs : Files) (at_ : Path) (b : Bytes) : fs.set at_ b at_ = some b := by
  simp [set]

theorem set_other (fs : Files) {at_ other : Path} (b : Bytes) (apart : other ≠ at_) :
    fs.set at_ b other = fs other := by
  simp [set, apart]

@[simp] theorem content_set_same (fs : Files) (at_ : Path) (b : Bytes) :
    (fs.set at_ b).content at_ = b := by
  simp [content]

theorem content_set_other (fs : Files) {at_ other : Path} (b : Bytes) (apart : other ≠ at_) :
    (fs.set at_ b).content other = fs.content other := by
  simp [content, set_other fs b apart]

/-- A write changes a file as far as the answer lets it. -/
theorem content_pwrite (fs : Files) (at_ other : Path) (data : Bytes) (off : ℕ) (a : Answer) :
    (fs.pwrite at_ data off a).1.content other =
      if other = at_ then (fs.content at_).write (data.slice 0 (a.count data.size)) off
      else fs.content other := by
  split
  next same =>
    subst same
    cases a with
    | done => simp only [pwrite, content_set_same, Answer.count, Blob.slice_self]
    | openFails errno => exact (Blob.write_of_empty _ _ _ (by simp [Answer.count])).symm
    | writeFails errno =>
      rw [Blob.write_of_empty _ _ _ (by simp [Answer.count]), pwrite, content_set_same]
    | short n =>
      simp only [pwrite, content_set_same, Answer.count]
      rw [data.slice_cut 0 (show min n (data.size - 0) = min (min n data.size) (data.size - 0) by
        omega)]
  next apart =>
    cases a with
    | done => exact content_set_other fs _ apart
    | openFails errno => rfl
    | writeFails errno => exact content_set_other fs _ apart
    | short n => exact content_set_other fs _ apart

/-- A write cuts no file short. -/
theorem content_grows (fs : Files) (at_ other : Path) (data : Bytes) (off : ℕ) (a : Answer) :
    (fs.content other).size ≤ ((fs.pwrite at_ data off a).1.content other).size := by
  rw [content_pwrite]
  split
  next same =>
    rw [same, Blob.size_write]
    split
    · exact Nat.le_refl _
    · exact Nat.le_max_left _ _
  · exact Nat.le_refl _

/-- A write changes no other file, whatever the answer. -/
theorem pwrite_other (fs : Files) {at_ other : Path} (data : Bytes) (off : ℕ) (a : Answer)
    (apart : other ≠ at_) : (fs.pwrite at_ data off a).1 other = fs other := by
  cases a
  · exact set_other fs _ apart
  · rfl
  · exact set_other fs _ apart
  · exact set_other fs _ apart

/-- A write removes no file. -/
theorem isSome_pwrite (fs : Files) (at_ other : Path) (data : Bytes) (off : ℕ) (a : Answer)
    (there : (fs other).isSome) : ((fs.pwrite at_ data off a).1 other).isSome := by
  by_cases same : other = at_
  · subst same
    cases a with
    | done => simp only [pwrite, set_same, Option.isSome_some]
    | openFails errno => exact there
    | writeFails errno => simp only [pwrite, set_same, Option.isSome_some]
    | short n => simp only [pwrite, set_same, Option.isSome_some]
  · rwa [pwrite_other fs data off a same]

end Files

end RemoteCache
