import RemoteCache.Server.LocalServer

/-!
# The HTTP client

`HttpBackend::upload` and `HttpBackend::remove` send one request each and look
at the status only. libcurl turns the URL into the request target; an upload is
a `PUT` of the given bytes with the given headers and their length. A download
is a `GET` with a range, whose body libcurl hands to a callback in chunks. A URL
that libcurl refuses counts as an empty target, for which the server has no
route: the call fails and changes nothing.
-/
namespace RemoteCache

structure HttpBackend where
  baseUrl : Str
  bearerToken : Str

namespace HttpBackend

def authorization (b : HttpBackend) : List (Str × Str) :=
  if b.bearerToken = [] then []
  else [("Authorization".toList, "Bearer ".toList ++ b.bearerToken)]

/-- The last byte's number is computed with 64 bits and wraps around for an empty range at 0. -/
def contentRange (offset size : ℕ) : Str :=
  "bytes ".toList ++ Nat.toDigits 10 offset ++ '-' ::
    (Nat.toDigits 10 ((offset + size + 2 ^ 64 - 1) % 2 ^ 64) ++ "/*".toList)

def ok2xx (code : ℕ) : Bool := code / 100 = 2

/-- With `CURLOPT_FAILONERROR`, `CURLE_OK` means a status below 400. -/
def succeeded (code : ℕ) : Bool := code < 400 && ok2xx code

def uploadRequest (curl : Str → Str) (b : HttpBackend) (path : Str) (buffer : Bytes)
    (offset : ℕ) : Request where
  method := .PUT
  target := curl (b.baseUrl ++ path)
  headers := ("Content-Length".toList, Nat.toDigits 10 buffer.size) ::
    ("Content-Range".toList, contentRange offset buffer.size) :: b.authorization
  body := buffer

def removeRequest (curl : Str → Str) (b : HttpBackend) (path : Str) : Request where
  method := .DELETE
  target := curl (b.baseUrl ++ path)
  headers := b.authorization
  body := .empty

/-- `CURLOPT_RANGE`, which becomes a header; its end is computed with 64 bits as well. -/
def byteRange (offset size : ℕ) : Str :=
  "bytes=".toList ++ Nat.toDigits 10 offset ++ '-' ::
    Nat.toDigits 10 ((offset + size + 2 ^ 64 - 1) % 2 ^ 64)

def downloadRequest (curl : Str → Str) (b : HttpBackend) (path : Str) (size offset : ℕ) :
    Request where
  method := .GET
  target := curl (b.baseUrl ++ path)
  headers := (if size = 0 then [] else [("Range".toList, byteRange offset size)]) ++ b.authorization
  body := .empty

structure SliceWriter where
  dst : Bytes
  cap : ℕ
  pos : ℕ

def writeSliceCb (sw : SliceWriter) (chunk : Bytes) : SliceWriter :=
  let cpy := min chunk.size (sw.cap - sw.pos)
  { sw with dst := sw.dst.write (chunk.slice 0 cpy) sw.pos, pos := sw.pos + cpy }

/-- What `curl_easy_perform` does: whether it returns `CURLE_OK`, the status, and the calls of
the callback. -/
structure Transfer where
  ok : Bool
  code : ℕ
  chunks : List Bytes

/-- The buffer and the result, given the transfer that follows the request. -/
def download (transfer : Transfer) (buffer : Bytes) (size : ℕ) : Bytes × ℤ :=
  let sw := transfer.chunks.foldl writeSliceCb ⟨buffer, size, 0⟩
  (sw.dst, if transfer.ok && ok2xx transfer.code then sw.pos else -1)

variable (server : Tree Bytes → Request → Tree Bytes × ℕ) (curl : Str → Str)

def upload (b : HttpBackend) (t : Tree Bytes) (path : Str) (buffer : Bytes) (offset : ℕ) :
    Tree Bytes × ℤ :=
  let r := server t (b.uploadRequest curl path buffer offset)
  (r.1, if succeeded r.2 then buffer.size else -1)

def remove (b : HttpBackend) (t : Tree Bytes) (path : Str) : Tree Bytes × ℤ :=
  let r := server t (b.removeRequest curl path)
  (r.1, if succeeded r.2 then 0 else -1)

end HttpBackend

end RemoteCache
