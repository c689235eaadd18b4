import RemoteCache.Server.UploadRemove

/-!
# What an upload carries

libcurl asks for the body of an upload through a callback, into a buffer of any
size at each call. Whatever the sizes, it sends the data as they are once the
buffers are large enough for all of them.
-/
namespace RemoteCache

namespace HttpBackend

structure UploadBuf where
  data : Bytes
  total : ℕ
  pos : ℕ

def readUploadCb (up : UploadBuf) (room : ℕ) : UploadBuf × Bytes :=
  let cpy := min (up.total - up.pos) room
  ({ up with pos := up.pos + cpy }, up.data.slice up.pos cpy)

/-- The body that libcurl sends, given the rooms in its buffer at each call of the callback. -/
def sentBody (buffer : Bytes) (rooms : List ℕ) : Bytes :=
  (rooms.foldl (fun s room =>
    let r := readUploadCb s.1 room
    (r.1, s.2.append r.2)) ((⟨buffer, buffer.size, 0⟩ : UploadBuf), (.empty : Bytes))).2

theorem foldl_readUploadCb (buffer : Bytes) (rooms : List ℕ) :
    rooms.foldl (fun s room =>
      let r := readUploadCb s.1 room
      (r.1, s.2.append r.2)) ((⟨buffer, buffer.size, 0⟩ : UploadBuf), (.empty : Bytes)) =
      (⟨buffer, buffer.size, min buffer.size rooms.sum⟩, buffer.slice 0 rooms.sum) := by
  induction rooms using List.reverseRecOn with
  | nil =>
    have none : buffer.slice 0 0 = .empty := Blob.eq_empty_of_size (by simp)
    simp [none]
  | append_singleton rooms room ih =>
    rw [List.foldl_append, ih, List.foldl_cons, List.foldl_nil, List.sum_append,
      List.sum_singleton, readUploadCb]
    refine Prod.ext (by simp only [UploadBuf.mk.injEq, true_and]; omega)
      (Blob.eq_of_get ?_ fun i inside => ?_)
    · simp only [Blob.size_append, Blob.size_slice]
      omega
    -- A byte is from the part that was sent before, or from the one that is sent now.
    · simp only [Blob.size_append, Blob.size_slice] at inside
      simp only [Blob.get_append, Blob.get_slice, Blob.size_slice, Nat.sub_zero, Nat.zero_add]
      by_cases first : i < min rooms.sum buffer.size
      · rw [if_pos first, if_pos (by omega), if_pos (by omega)]
      · rw [if_neg first, if_pos (by omega), if_pos (by omega)]
        congr 1; omega

theorem sentBody_eq {buffer : Bytes} {rooms : List ℕ} (enough : buffer.size ≤ rooms.sum) :
    sentBody buffer rooms = buffer := by
  rw [sentBody, foldl_readUploadCb, buffer.slice_cut 0 (by omega : min rooms.sum (buffer.size - 0) =
    min buffer.size (buffer.size - 0)), Blob.slice_self]

variable (server : Tree Bytes → Request → Tree Bytes × ℕ) (curl : Str → Str)

/-- `HttpBackend::upload`, with the calls of the callback. -/
def uploadThrough (rooms : List ℕ) (b : HttpBackend) (t : Tree Bytes) (path : Str) (buffer : Bytes)
    (offset : ℕ) : Tree Bytes × ℤ :=
  let r := server t { b.uploadRequest curl path buffer offset with body := sentBody buffer rooms }
  (r.1, if succeeded r.2 then buffer.size else -1)

theorem uploadThrough_eq {rooms : List ℕ} {buffer : Bytes} (enough : buffer.size ≤ rooms.sum)
    (b : HttpBackend) (t : Tree Bytes) (path : Str) (offset : ℕ) :
    b.uploadThrough server curl rooms t path buffer offset =
      b.upload server curl t path buffer offset := by
  rw [uploadThrough, sentBody_eq enough]
  rfl

end HttpBackend

end RemoteCache
