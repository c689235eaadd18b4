import RemoteCache.Server.UrlPaths

/-!
# Ranged downloads

## Main results

`download_slice_iff`: a download returns the slice it asked for exactly if the
server answers with that slice, or if the content happens to be the same at the
start as at the offset.

`download_exact`: from the bundled server it returns the slice, for paths that
URLs carry as they are.

## Proof strategy

The callback copies the body from its start, whatever the offset and the status
are: after any chunks the buffer holds the first bytes of what has arrived. The
server reads the numerals that the client wrote and clamps the end to the file.
-/
namespace RemoteCache

namespace HttpBackend

/-! ### The callback -/

/-- The chunks fill the buffer from its start, as far as it goes. -/
theorem foldl_writeSliceCb (buffer : Bytes) (size : ℕ) (chunks : List Bytes) :
    chunks.foldl writeSliceCb ⟨buffer, size, 0⟩ =
      ⟨buffer.write ((Blob.concat chunks).slice 0 size) 0, size,
        min size (Blob.concat chunks).size⟩ := by
  induction chunks using List.reverseRecOn with
  | nil =>
    have none : ((Blob.concat []).slice 0 size : Bytes).size = 0 := by simp [Blob.concat]
    rw [Blob.write_of_empty _ _ _ none]
    simp [Blob.concat]
  | append_singleton chunks chunk ih =>
    generalize body : Blob.concat chunks = got at ih
    have length : (got.slice 0 size).size = min size got.size := by simp
    -- What is copied of a chunk is what still fits.
    have rest : chunk.slice 0 (min chunk.size (size - min size got.size)) =
        chunk.slice 0 (size - got.size) :=
      Blob.eq_of_get (by simp only [Blob.size_slice]; omega) fun i inside => by
        simp only [Blob.size_slice] at inside
        rw [Blob.get_slice, Blob.get_slice, if_pos (by omega), if_pos (by omega)]
    have next := Blob.write_write buffer (got.slice 0 size) (chunk.slice 0 (size - got.size)) 0
    rw [Nat.zero_add, length] at next
    rw [List.foldl_append, ih, List.foldl_cons, List.foldl_nil, Blob.concat_concat, body,
      Blob.slice_append, writeSliceCb]
    simp only [rest, next, Blob.size_append]
    congr 1; omega

/-- What a transfer leaves in the buffer. -/
theorem download_eq (transfer : Transfer) (buffer : Bytes) (size : ℕ) :
    download transfer buffer size =
      (buffer.write ((Blob.concat transfer.chunks).slice 0 size) 0,
        if transfer.ok && ok2xx transfer.code then
          ((min size (Blob.concat transfer.chunks).size : ℕ) : ℤ) else -1) := by
  simp only [download, foldl_writeSliceCb]

/-! ### Any server -/

/-- A successful answer that HTTP allows to a request for a range of `C`: the range, or the whole
of `C` from a server that ignores ranges. -/
def Permitted (C : Bytes) (off size : ℕ) (transfer : Transfer) : Prop :=
  transfer.ok = true ∧
    ((transfer.code = 206 ∧ Blob.concat transfer.chunks = C.slice off size) ∨
      (transfer.code = 200 ∧ Blob.concat transfer.chunks = C))

/-- The bytes that the call counts are those of the content at the offset. -/
def RightSlice (C : Bytes) (off : ℕ) (r : Bytes × ℤ) : Prop :=
  ∀ n : ℕ, r.2 = n → r.1.slice 0 n = C.slice off n

/-- A download returns the right slice if and only if the server sent just that, or the content
starts as it goes on at the offset. -/
theorem download_slice_iff (C : Bytes) (off size : ℕ) (buffer : Bytes) (transfer : Transfer)
    (permitted : Permitted C off size transfer) :
    RightSlice C off (download transfer buffer size) ↔
      transfer.code = 206 ∨ C.slice 0 size = C.slice off size := by
  obtain ⟨ok, reply⟩ := permitted
  have success : (transfer.ok && ok2xx transfer.code) = true := by
    rcases reply with ⟨code, _⟩ | ⟨code, _⟩ <;> rw [ok, code] <;> rfl
  have result : RightSlice C off (download transfer buffer size) ↔
      (Blob.concat transfer.chunks).slice 0 size =
        C.slice off (min size (Blob.concat transfer.chunks).size) := by
    have shown := Blob.slice_written buffer ((Blob.concat transfer.chunks).slice 0 size)
    rw [Blob.size_slice, Nat.sub_zero] at shown
    simp only [RightSlice, download_eq, success, if_true, Nat.cast_inj]
    rw [forall_eq', shown]
  rw [result]
  rcases reply with ⟨code, body⟩ | ⟨code, body⟩
  · -- The body is the slice, and all of it fits into the buffer.
    rw [body, Blob.slice_slice _ _ _ _ _ (by omega), Nat.add_zero, Blob.size_slice]
    exact ⟨fun _ => .inl code, fun _ => C.slice_cut off (by omega)⟩
  · -- The body is the whole content, of which the buffer holds the start.
    have cut : C.slice off (min size C.size) = C.slice off size := C.slice_cut off (by omega)
    rw [body, cut, code]
    simp

theorem download_slice_iff_partial :
    let C : Bytes := .ofFn 3 fun i => .ofNat i
    RightSlice C 1 (download ⟨true, 206, [.ofFn 1 fun _ => 1, .ofFn 1 fun _ => 2]⟩ .empty 2) ↔
      206 = 206 ∨ C.slice 0 2 = C.slice 1 2 :=
  download_slice_iff (.ofFn 3 fun i => .ofNat i) 1 2 .empty
    ⟨true, 206, [.ofFn 1 fun _ => 1, .ofFn 1 fun _ => 2]⟩
    ⟨rfl, .inl ⟨rfl, Blob.eq_of_get rfl fun i inside => by
      have small : i < 2 := inside
      interval_cases i <;> rfl⟩⟩

/-- A server that ignores the range sends the whole content, and the client takes its start for
the slice. -/
theorem whole_body_wrong_slice :
    ¬∀ (C : Bytes) (off size : ℕ) (buffer : Bytes) (transfer : Transfer), 1 ≤ size →
      Permitted C off size transfer → RightSlice C off (download transfer buffer size) := by
  intro all
  let C : Bytes := .ofFn 2 fun i => .ofNat i
  have right := all C 1 1 .empty ⟨true, 200, [C]⟩ (Nat.le_refl 1)
    ⟨rfl, .inr ⟨rfl, Blob.concat_singleton C⟩⟩ 1 (by decide)
  exact absurd (congrArg (Blob.get · 0) right) (by decide)

/-! ### The bundled server -/

/-- libcurl returns `CURLE_OK` for a status below 400 if all the announced bytes of the body have
come, and hands the body over in order. -/
structure Delivers (resp : Response) (transfer : Transfer) : Prop where
  code : transfer.code = resp.status
  body : ∀ b, resp.body = some b → resp.header "Content-Length".toList = some (Python.str b.size) →
    resp.status < 400 → transfer.ok = true ∧ Blob.concat transfer.chunks = b

/-- The transfer that hands the body over in one piece. -/
theorem delivers_whole (resp : Response) :
    Delivers resp ⟨true, resp.status, resp.body.toList⟩ := by
  refine ⟨rfl, fun b body _ _ => ⟨rfl, ?_⟩⟩
  rw [body]
  exact Blob.concat_singleton b

end HttpBackend

namespace LocalServer

/-- What the handler makes of two numerals with a dash between them, either of which may be
missing. -/
theorem parseRange_digits (first last : Str) (digits : ∀ c ∈ first, c.isDigit = true)
    (digits' : ∀ c ∈ last, c.isDigit = true) :
    let range := Python.lower (Python.strip (bytesUnit ++ (first ++ '-' :: last)))
    bytesUnit <+: range ∧
      parseRange (range.drop 6) = some ((numeralVal 10 first : ℤ),
        if last = [] then none else some (numeralVal 10 last : ℤ)) := by
  -- Digits, the dash and the unit survive `strip` and `lower`.
  have letters : ∀ c ∈ bytesUnit ++ (first ++ '-' :: last),
      Python.isSpace c = false ∧ c.toLower = c := by
    have fixed : ∀ c ∈ bytesUnit, Python.isSpace c = false ∧ c.toLower = c := by
      simp [bytesUnit, Python.isSpace]
    have numeral : ∀ c, c.isDigit = true → Python.isSpace c = false ∧ c.toLower = c :=
      fun c digit => ⟨Python.digit_isSpace digit, Python.digit_toLower digit⟩
    intro c member
    rcases List.mem_append.mp member with unit | numerals
    · exact fixed c unit
    · rcases List.mem_append.mp numerals with front | rest
      · exact numeral c (digits c front)
      · rcases List.mem_cons.mp rest with rfl | back
        · decide
        · exact numeral c (digits' c back)
  -- The numerals have no dash, so the range splits in two.
  have dashless : ∀ s : Str, (∀ c ∈ s, c.isDigit = true) → '-' ∉ s := fun s digits member => by
    simpa using digits '-' member
  rw [Python.strip_eq_self fun c member => (letters c member).1,
    Python.lower_eq_self fun c member => (letters c member).2]
  refine ⟨List.prefix_append _ _, ?_⟩
  have numerals : (bytesUnit ++ (first ++ '-' :: last)).drop 6 = first ++ '-' :: last := rfl
  rw [numerals, parseRange, List.splitOn_append_cons_self,
    List.splitOn_eq_singleton (dashless first digits),
    List.splitOn_eq_singleton (dashless last digits')]
  have back : (if last = [] then some none else (Python.int last).map some) =
      some (if last = [] then none else some (numeralVal 10 last : ℤ)) := by
    split
    · rfl
    next nonempty =>
      rw [Python.int_digits nonempty digits']
      rfl
  -- A missing first numeral stands for 0, which is also what no digits denote.
  by_cases empty : first = []
  · have zero : numeralVal 10 [] = 0 := rfl
    simp [empty, back, zero]
  · simp [empty, back, Python.int_digits empty digits]

/-- The server clamps the range to the file, and announces as many bytes as it sends. -/
theorem sendRange_slice (contentType : List (Str × Str)) (b : Bytes) {off : ℕ} (size : ℕ)
    (inside : off ≤ b.size) :
    let resp := sendRange contentType b off (some ((off : ℤ) + size - 1))
    resp.status = 206 ∧ resp.body = some (b.slice off size) ∧
      resp.header "Content-Length".toList = some (Python.str (b.slice off size).size) := by
  -- The handler counts with integers: the count is not negative, as `off` is inside.
  have length : contentLength b off (some ((off : ℤ) + size - 1)) =
      ((min size (b.size - off) : ℕ) : ℤ) := by
    rw [contentLength, Option.getD_some]
    omega
  have body : (b.slice off (b.size - off)).slice 0 (min size (b.size - off)) =
      b.slice off size := by
    rw [Blob.slice_slice _ _ _ _ _ (by omega), Nat.add_zero]
    exact b.slice_cut off (by omega)
  simp only [sendRange, length, Int.natCast_nonneg, if_true, Int.toNat_natCast, body,
    Blob.size_slice, true_and]
  have other : Python.lower "Content-Range".toList ≠ Python.lower "Content-Length".toList := by
    decide
  rw [Response.header_cons, if_neg other, Response.header_cons]
  exact if_pos rfl

/-- A `GET` below `/api/data` is answered by the data handler. -/
theorem doGET_data (rootDir : Str) (guessType : Str → Option Str) (t : Tree Bytes) (req : Request)
    {path : Str} (url : UrlPath path) (target : req.target = apiData ++ path) :
    doGET rootDir guessType t req = handleDataRequest rootDir guessType t path req := by
  obtain ⟨rest, slash⟩ := url.slash
  -- The other routes differ from this one in their first letters.
  have other : ∀ route : Str, route.take 7 ≠ apiData.take 7 → 7 ≤ route.length →
      ¬route <+: apiData ++ path := by
    rintro route apart long ⟨tail, same⟩
    have front := congrArg (List.take 7) same
    rw [List.take_append_of_le_length long, List.take_append_of_le_length (by decide)] at front
    exact apart front
  have here : dataRoute <+: apiData ++ path := ⟨rest, by rw [slash]; rfl⟩
  have cut : (apiData ++ path).drop 9 = path := List.drop_left' rfl
  simp only [doGET, target, urlPath_data url, if_pos here, cut,
    if_neg (other infoRoute (by decide) (by decide)),
    if_neg (other listRoute (by decide) (by decide))]

end LocalServer

namespace HttpBackend

section

variable {rootDir : Str} {guessType : Str → Option Str} {curl : Str → Str} {b : HttpBackend}
  {t : Tree Bytes} {path : Str} {off size : ℕ} {transfer : Transfer}

/-- A request for a range goes to the handler of data. -/
theorem doGET_download (url : UrlPath path)
    (carried : curl (b.baseUrl ++ path) = apiData ++ path) :
    LocalServer.doGET rootDir guessType t (b.downloadRequest curl path size off) =
      LocalServer.handleDataRequest rootDir guessType t path
        (b.downloadRequest curl path size off) :=
  LocalServer.doGET_data rootDir guessType t _ url (by rw [downloadRequest, carried])

/-- The server answers a download of a file with the range that it is asked for. -/
theorem doGET_range (url : UrlPath path) (carried : curl (b.baseUrl ++ path) = apiData ++ path)
    {C : Bytes} (content : t.file (LocalServer.place rootDir path) = some C)
    (positive : 1 ≤ size) :
    ∃ contentType, LocalServer.doGET rootDir guessType t (b.downloadRequest curl path size off) =
      LocalServer.sendRange contentType C off
        (some (((off + size + 2 ^ 64 - 1) % 2 ^ 64 : ℕ) : ℤ)) := by
  have shape : byteRange off size = LocalServer.bytesUnit ++ (Nat.toDigits 10 off ++ '-' ::
      Nat.toDigits 10 ((off + size + 2 ^ 64 - 1) % 2 ^ 64)) := by
    delta byteRange
    rfl
  have parsed := LocalServer.parseRange_digits (Nat.toDigits 10 off)
    (Nat.toDigits 10 ((off + size + 2 ^ 64 - 1) % 2 ^ 64)) (fun c => Python.digit_of_mem)
    fun c => Python.digit_of_mem
  rw [← shape, if_neg Nat.toDigits_ne_nil, numeralVal_toDigits (by decide) (by decide),
    numeralVal_toDigits (by decide) (by decide)] at parsed
  obtain ⟨unit, range⟩ := parsed
  have header : (b.downloadRequest curl path size off).header "Range".toList =
      some (byteRange off size) := by
    rw [Request.header, downloadRequest, if_neg (by omega), List.singleton_append,
      List.find?_cons_of_pos (by simp), Option.map_some]
  rw [doGET_download url carried, LocalServer.handleDataRequest, LocalServer.sentDataRequest]
  simp only [LocalServer.stat_file url.filePath content, header, Option.getD_some, if_pos unit,
    range, LocalServer.sentRange, List.headD_cons]
  exact ⟨_, rfl⟩

/-- What a download of a range that starts in a file of the server gives. -/
theorem download_content (url : UrlPath path)
    (carried : curl (b.baseUrl ++ path) = apiData ++ path) {C : Bytes}
    (content : t.file (LocalServer.place rootDir path) = some C) (inside : off ≤ C.size)
    (positive : 1 ≤ size) (fits : off + size ≤ 2 ^ 64)
    (delivered : Delivers (LocalServer.doGET rootDir guessType t
      (b.downloadRequest curl path size off)) transfer) (buffer : Bytes) :
    download transfer buffer size =
      (buffer.write (C.slice off size) 0, ((min size (C.size - off) : ℕ) : ℤ)) := by
  obtain ⟨contentType, answer⟩ : ∃ contentType, LocalServer.doGET rootDir guessType t
      (b.downloadRequest curl path size off) = LocalServer.sendRange contentType C off
        (some (((off + size + 2 ^ 64 - 1) % 2 ^ 64 : ℕ) : ℤ)) :=
    doGET_range url carried content positive
  rw [answer] at delivered
  -- The sum fits into 64 bits, so the end does not wrap around.
  have last : (((off + size + 2 ^ 64 - 1) % 2 ^ 64 : ℕ) : ℤ) = (off : ℤ) + size - 1 := by omega
  rw [last] at delivered
  obtain ⟨status, body, announced⟩ := LocalServer.sendRange_slice contentType C size inside
  obtain ⟨ok, came⟩ := delivered.body _ body announced (by rw [status]; decide)
  have whole : (C.slice off size).slice 0 size = C.slice off size := by
    rw [Blob.slice_slice _ _ _ _ _ (by omega), Nat.add_zero]
  have count : min size (C.slice off size).size = min size (C.size - off) := by
    rw [Blob.size_slice]
    omega
  have success : (true && ok2xx 206) = true := rfl
  rw [download_eq, ok, delivered.code, status, came, whole, if_pos success, count]

/-- A download of what is no file of the server fails. -/
theorem download_absent (url : UrlPath path)
    (carried : curl (b.baseUrl ++ path) = apiData ++ path)
    (absent : t.file (LocalServer.place rootDir path) = none)
    (delivered : Delivers (LocalServer.doGET rootDir guessType t
      (b.downloadRequest curl path size off)) transfer) (buffer : Bytes) :
    (download transfer buffer size).2 = -1 := by
  have status : transfer.code = 404 := by
    rw [delivered.code, doGET_download url carried, LocalServer.handleDataRequest,
      LocalServer.sentDataRequest]
    rcases LocalServer.stat_cases rootDir t url.filePath with ⟨b, there, _⟩ | ⟨_, seen | seen⟩
    · rw [absent] at there
      cases there
    · rw [seen]
      rfl
    · rw [seen]
      rfl
  have failure : ¬(transfer.ok && ok2xx 404) = true := by simp [ok2xx]
  rw [download_eq, status, if_neg failure]

end

/-- A download from the bundled server fills the buffer with the slice and nothing else, if the
path is one that URLs carry. Offsets are of the type `off_t`, and no buffer is as long as `2 ^ 63`
bytes. -/
theorem download_exact (rootDir : Str) (guessType : Str → Option Str) (curl : Str → Str)
    (b : HttpBackend) (origin : Str) (base : b.baseUrl = origin ++ apiData) (t : Tree Bytes)
    (path : Str) (url : UrlPath path)
    (carried : curl (origin ++ apiData ++ path) = apiData ++ path) (C : Bytes)
    (content : t.file (LocalServer.place rootDir path) = some C) (off size : ℕ)
    (inside : off ≤ C.size) (positive : 1 ≤ size) (offset : off < 2 ^ 63) (object : size < 2 ^ 63)
    (buffer : Bytes) (transfer : Transfer)
    (delivered : Delivers (LocalServer.doGET rootDir guessType t
      (b.downloadRequest curl path size off)) transfer) :
    download transfer buffer size =
      (buffer.write (C.slice off (min size (C.size - off))) 0,
        ((min size (C.size - off) : ℕ) : ℤ)) := by
  have cut : C.slice off (min size (C.size - off)) = C.slice off size := C.slice_cut off (by omega)
  rw [← base] at carried
  rw [cut, download_content url carried content inside positive (by omega) delivered]

theorem download_exact_end :
    let C : Bytes := .ofFn 3 fun i => .ofNat i
    let t : Tree Bytes := Tree.empty.put [['f']] (.file C) (by simp) rfl (by simp [Tree.empty])
    let resp := LocalServer.doGET ['/'] (fun _ => none) t
      (sample.downloadRequest afterHost ['/', 'f'] 5 2)
    download ⟨true, resp.status, resp.body.toList⟩ .empty 5 =
      (Blob.empty.write (C.slice 2 (min 5 (C.size - 2))) 0, ((min 5 (C.size - 2) : ℕ) : ℤ)) := by
  intro C t resp
  have content : t.file (LocalServer.place ['/'] ['/', 'f']) = some C := by
    have place : LocalServer.place ['/'] ['/', 'f'] = [['f']] := by decide +kernel
    rw [place]
    simp [t, Tree.file, Tree.put]
  exact download_exact ['/'] (fun _ => none) afterHost sample host rfl t ['/', 'f'] urlPath_sample
    (afterHost_carries ['/', 'f']) C content 2 5 (by decide) (by decide) (by decide) (by decide)
    .empty _ (delivers_whole resp)

/-- `urlparse` cuts the path of a file `a;b` at the semicolon, so that its download fails. -/
theorem semicolon_cut :
    ¬∀ (rootDir : Str) (guessType : Str → Option Str) (curl : Str → Str) (b : HttpBackend)
      (origin : Str) (t : Tree Bytes) (path : Str) (C : Bytes) (off size : ℕ) (buffer : Bytes)
      (transfer : Transfer), b.baseUrl = origin ++ apiData →
      curl (origin ++ apiData ++ path) = apiData ++ path →
      t.file (LocalServer.place rootDir path) = some C → off ≤ C.size → 1 ≤ size →
      Delivers (LocalServer.doGET rootDir guessType t (b.downloadRequest curl path size off))
        transfer →
      download transfer buffer size =
        (buffer.write (C.slice off (min size (C.size - off))) 0,
          ((min size (C.size - off) : ℕ) : ℤ)) := by
  intro all
  let C : Bytes := .ofFn 1 fun _ => 7
  let t : Tree Bytes := Tree.empty.put [['a', ';', 'b']] (.file C) (by simp) rfl
    (by simp [Tree.empty])
  let path : Str := ['/', 'a', ';', 'b']
  let resp := LocalServer.doGET ['/'] (fun _ => none) t (sample.downloadRequest afterHost path 1 0)
  have place : LocalServer.place ['/'] path = [['a', ';', 'b']] := by decide +kernel
  have content : t.file (LocalServer.place ['/'] path) = some C := by
    rw [place]
    simp [t, Tree.file, Tree.put]
  have missing : resp.status = 404 := by decide +kernel
  have result := all ['/'] (fun _ => none) afterHost sample host t path C 0 1 .empty _ rfl
    (afterHost_carries path) content (Nat.zero_le _) (Nat.le_refl 1) (delivers_whole resp)
  have failure : ¬(true && ok2xx 404) = true := by decide
  rw [download_eq, missing, if_neg failure] at result
  exact absurd (congrArg Prod.snd result) (by decide)

end HttpBackend

end RemoteCache
