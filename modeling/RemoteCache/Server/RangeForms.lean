import RemoteCache.Server.Download

/-!
# The forms of a range

## Main results

`range_answered_iff`: a request with one of the three forms of a byte range is
answered properly exactly if the range starts inside the file or, for a suffix,
if the suffix is the whole of a file with some bytes.

## Proof strategy

The handler takes the number of a suffix for the last position, counted from the
start of the file. It clamps the end of a range to the file but not its start,
so the answer announces fewer than one byte from the end of the file on.
-/
namespace RemoteCache

/-- A decimal numeral. -/
structure Numeral where
  digits : Str
  nonempty : digits ≠ []
  isDigit : ∀ c ∈ digits, c.isDigit = true

def Numeral.val (n : Numeral) : ℕ := numeralVal 10 n.digits

def Numeral.ofNat (n : ℕ) : Numeral :=
  ⟨Nat.toDigits 10 n, Nat.toDigits_ne_nil, fun _ => Python.digit_of_mem⟩

/-- The forms of HTTP: `bytes=a-b`, `bytes=a-` and `bytes=-n`. -/
inductive ByteRange where
  | between (first last : Numeral) (ordered : first.val ≤ last.val)
  | onwards (first : Numeral)
  | suffix (length : Numeral)

namespace ByteRange

def header : ByteRange → Str
  | between first last _ => LocalServer.bytesUnit ++ (first.digits ++ '-' :: last.digits)
  | onwards first => LocalServer.bytesUnit ++ (first.digits ++ ['-'])
  | suffix length => LocalServer.bytesUnit ++ '-' :: length.digits

/-- Where the range starts in a file of a size, and how many bytes it asks for. -/
def denoted (size : ℕ) : ByteRange → ℕ × ℕ
  | between first last _ => (first.val, last.val + 1 - first.val)
  | onwards first => (first.val, size - first.val)
  | suffix length => (size - length.val, length.val)

/-- The first and the last position that the handler takes the header for. -/
def taken : ByteRange → ℕ × Option ℕ
  | between first last _ => (first.val, some last.val)
  | onwards first => (first.val, none)
  | suffix length => (0, some length.val)

/-- The ranges that the handler answers properly. -/
def Served (size : ℕ) : ByteRange → Prop
  | between first _ _ => first.val < size
  | onwards first => first.val < size
  | suffix length => 1 ≤ size ∧ size ≤ length.val

end ByteRange

/-- An answer with the bytes `[first, first + length)` of a content, as far as it goes; there is
no answer with no byte at all, which has no last position. -/
structure Partial (C : Bytes) (first length : ℕ) (resp : Response) : Prop where
  status : resp.status = 206
  body : resp.body = some (C.slice first length)
  nonempty : 0 < (C.slice first length).size
  contentLength : resp.header "Content-Length".toList =
    some (Python.str (C.slice first length).size)
  contentRange : resp.header "Content-Range".toList = some ("bytes ".toList ++
    Nat.toDigits 10 first ++ '-' :: (Nat.toDigits 10 (first + (C.slice first length).size - 1) ++
      '/' :: Nat.toDigits 10 C.size))

/-- One status line, of an answer with the bytes that the range denotes or of an error. -/
def Proper (range : ByteRange) (C : Bytes) (sent : List Response) : Prop :=
  ∃ resp, sent = [resp] ∧
    (Partial C (range.denoted C.size).1 (range.denoted C.size).2 resp ∨
      400 ≤ resp.status ∧ resp.body = none)

namespace LocalServer

theorem parseRange_header (range : ByteRange) :
    let header := Python.lower (Python.strip range.header)
    bytesUnit <+: header ∧
      parseRange (header.drop 6) = some ((range.taken.1 : ℤ), range.taken.2.map Nat.cast) := by
  cases range with
  | between first last ordered =>
    have parsed := parseRange_digits first.digits last.digits first.isDigit last.isDigit
    rwa [if_neg last.nonempty] at parsed
  | onwards first => exact parseRange_digits first.digits [] first.isDigit (List.forall_mem_nil _)
  | suffix length =>
    have parsed := parseRange_digits [] length.digits (List.forall_mem_nil _) length.isDigit
    rwa [if_neg length.nonempty] at parsed

/-- The request is answered with the range that the handler takes the header for. -/
theorem sentDataRequest_range (rootDir : Str) (guessType : Str → Option Str) (t : Tree Bytes)
    (path : Str) (req : Request) (C : Bytes)
    (file : stat t (fullPath rootDir path) = some (.file C)) (range : ByteRange)
    (header : req.header "Range".toList = some range.header) :
    ∃ contentType, sentDataRequest rootDir guessType t path req =
      sentRange contentType C range.taken.1 (range.taken.2.map Nat.cast) := by
  obtain ⟨unit, parsed⟩ := parseRange_header range
  simp only [sentDataRequest, file, header, Option.getD_some, if_pos unit, parsed]
  exact ⟨_, rfl⟩

/-- A range that starts inside the file is answered with its bytes. -/
theorem sentRange_inside (contentType : List (Str × Str)) (C : Bytes) (start : ℕ)
    (end_ : Option ℕ) (inside : start < C.size) (ordered : ∀ last ∈ end_, start ≤ last) :
    ∃ resp, sentRange contentType C start (end_.map Nat.cast) = [resp] ∧
      Partial C start (end_.getD (C.size - 1) + 1 - start) resp := by
  -- A missing end stands for the last byte.
  have order : start ≤ end_.getD (C.size - 1) := by
    cases end_ with
    | none =>
      rw [Option.getD_none]
      omega
    | some last => exact ordered last rfl
  have last : ((end_.map Nat.cast).getD ((C.size : ℤ) - 1)) =
      (start : ℤ) + (end_.getD (C.size - 1) + 1 - start : ℕ) - 1 := by
    cases end_ with
    | none =>
      rw [Option.map_none, Option.getD_none, Option.getD_none]
      omega
    | some last =>
      rw [Option.getD_some] at order
      rw [Option.map_some, Option.getD_some, Option.getD_some]
      omega
  generalize count : end_.getD (C.size - 1) + 1 - start = length at last ⊢
  have size : (C.slice start length).size = min length (C.size - start) := C.size_slice start length
  have same : sendRange contentType C start (end_.map Nat.cast) =
      sendRange contentType C start (some ((start : ℤ) + length - 1)) := by
    rw [sendRange, sendRange, contentLength, contentLength, Option.getD_some, last]
  have announced : contentLength C start (end_.map Nat.cast) =
      ((C.slice start length).size : ℤ) := by
    rw [contentLength, last, size]
    omega
  obtain ⟨status, body, header⟩ := sendRange_slice contentType C length inside.le
  refine ⟨sendRange contentType C start (end_.map Nat.cast), ?_, ?_⟩
  · rw [sentRange, if_neg (by omega)]
  · rw [same]
    exact
      { status := status
        body := body
        nonempty := by omega
        contentLength := header
        contentRange := by
          have final : min ((start : ℤ) + length - 1) (C.size - 1) =
              ((start + (C.slice start length).size - 1 : ℕ) : ℤ) := by omega
          rw [sendRange, Response.header_cons, if_pos rfl, Option.getD_some, final,
            Python.str_natCast, Python.str_natCast] }

/-- The handler means no other answer to a range than one with bytes of the file. -/
theorem partial_of_proper {contentType : List (Str × Str)} {C : Bytes} {range : ByteRange}
    {start : ℤ} {end_ : Option ℤ} (proper : Proper range C (sentRange contentType C start end_)) :
    Partial C (range.denoted C.size).1 (range.denoted C.size).2
      (sendRange contentType C start end_) := by
  obtain ⟨resp, sent, answer | ⟨failed, _⟩⟩ := proper
  · rw [sentRange] at sent
    rwa [(List.cons.inj sent).1]
  · rw [sentRange] at sent
    rw [← (List.cons.inj sent).1] at failed
    exact absurd failed (by decide : ¬400 ≤ 206)

theorem served_of_proper {contentType : List (Str × Str)} {C : Bytes} {range : ByteRange}
    (proper : Proper range C
      (sentRange contentType C range.taken.1 (range.taken.2.map Nat.cast))) :
    range.Served C.size := by
  have answer := partial_of_proper proper
  have some := answer.nonempty
  rw [Blob.size_slice] at some
  cases range with
  | between first last ordered =>
    simp only [ByteRange.denoted] at some
    simp only [ByteRange.Served]
    omega
  | onwards first =>
    simp only [ByteRange.denoted] at some
    simp only [ByteRange.Served]
    omega
  | suffix length =>
    simp only [ByteRange.denoted] at some
    simp only [ByteRange.Served]
    -- The handler sends one byte more than the number says, unless the file ends before.
    obtain ⟨resp, sent, whole⟩ := sentRange_inside contentType C 0 (.some length.val)
      (by omega) (by simp)
    have body := answer.body
    rw [sentRange] at sent
    rw [ByteRange.taken, (List.cons.inj sent).1, whole.body] at body
    have size := congrArg Blob.size (Option.some.inj body)
    simp only [ByteRange.denoted, Blob.size_slice, Option.getD_some] at size
    omega

theorem proper_of_served (contentType : List (Str × Str)) {C : Bytes} {range : ByteRange}
    (served : range.Served C.size) :
    Proper range C (sentRange contentType C range.taken.1 (range.taken.2.map Nat.cast)) := by
  cases range with
  | between first last ordered =>
    obtain ⟨resp, sent, answer⟩ := sentRange_inside contentType C first.val
      (.some last.val) served (by simpa using ordered)
    exact ⟨resp, sent, .inl answer⟩
  | onwards first =>
    obtain ⟨resp, sent, answer⟩ := sentRange_inside contentType C first.val none served (by simp)
    have length : C.size - 1 + 1 - first.val = C.size - first.val := by
      simp only [ByteRange.Served] at served
      omega
    rw [Option.getD_none, length] at answer
    exact ⟨resp, sent, .inl answer⟩
  | suffix length =>
    obtain ⟨some, covers⟩ := served
    obtain ⟨resp, sent, answer⟩ := sentRange_inside contentType C 0 (.some length.val)
      (by omega) (by simp)
    -- One byte more than the file has makes no difference.
    have cut : C.slice 0 (length.val + 1) = C.slice 0 length.val := C.slice_cut 0 (by omega)
    have start : C.size - length.val = 0 := by omega
    obtain ⟨status, body, some, announced, range⟩ := answer
    rw [Option.getD_some, Nat.sub_zero, cut] at body some announced range
    refine ⟨resp, sent, .inl ?_⟩
    rw [ByteRange.denoted, start]
    exact ⟨status, body, some, announced, range⟩

/-- A request for one of the forms of a range is answered properly if and only if the first byte is
inside the file or, for a suffix, the suffix is a whole file that is not empty. -/
theorem range_answered_iff (rootDir : Str) (guessType : Str → Option Str) (t : Tree Bytes)
    (path : Str) (req : Request) (C : Bytes)
    (file : stat t (fullPath rootDir path) = some (.file C)) (range : ByteRange)
    (header : req.header "Range".toList = some range.header) :
    Proper range C (sentDataRequest rootDir guessType t path req) ↔ range.Served C.size := by
  obtain ⟨contentType, sent⟩ :=
    sentDataRequest_range rootDir guessType t path req C file range header
  rw [sent]
  exact ⟨served_of_proper, proper_of_served contentType⟩

/-- A file at the top. -/
def single (C : Bytes) : Tree Bytes :=
  Tree.empty.put [['f']] (.file C) (by simp) rfl (by simp [Tree.empty])

theorem stat_single (C : Bytes) : stat (single C) (fullPath ['/'] ['/', 'f']) = some (.file C) := by
  have place : resolve [] (fullPath ['/'] ['/', 'f']) = [['f']] := by decide +kernel
  have named : namesFile (fullPath ['/'] ['/', 'f']) = true := by decide +kernel
  simp [stat, place, named, single, Tree.put]

theorem range_answered_onwards :
    let C : Bytes := .ofFn 3 fun i => .ofNat i
    let range := ByteRange.onwards (.ofNat 1)
    Proper range C (sentDataRequest ['/'] (fun _ => none) (single C) ['/', 'f']
      ⟨.GET, [], [("Range".toList, range.header)], .empty⟩) ↔ range.Served 3 := by
  intro C range
  exact range_answered_iff ['/'] (fun _ => none) (single C) ['/', 'f'] _ C (stat_single C) range rfl

/-- The last two of five bytes are asked for, and the first three are sent. -/
theorem suffix_from_the_start :
    ¬∀ (rootDir : Str) (guessType : Str → Option Str) (t : Tree Bytes) (path : Str)
      (req : Request) (C : Bytes) (range : ByteRange),
      stat t (fullPath rootDir path) = some (.file C) →
      req.header "Range".toList = some range.header →
      Proper range C (sentDataRequest rootDir guessType t path req) := by
  intro all
  let C : Bytes := .ofFn 5 fun i => .ofNat i
  let range := ByteRange.suffix (.ofNat 2)
  let req : Request := ⟨.GET, [], [("Range".toList, range.header)], .empty⟩
  have proper := all ['/'] (fun _ => none) (single C) ['/', 'f'] req C range (stat_single C) rfl
  obtain ⟨contentType, sent⟩ :=
    sentDataRequest_range ['/'] (fun _ => none) (single C) ['/', 'f'] req C (stat_single C) range
      rfl
  rw [sent] at proper
  have covers : 5 ≤ 2 := (served_of_proper proper).2
  exact absurd covers (by decide)

end LocalServer

end RemoteCache
