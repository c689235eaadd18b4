import RemoteCache.Fuse.Attributes
import RemoteCache.Fuse.Namespace
import RemoteCache.Server.Create
import RemoteCache.Server.Download
import RemoteCache.Server.Transfers

/-!
# A mount of the bundled server

The callbacks of the FUSE layer with an `http://` remote, together with the
server that answers them. Contents and attributes are asked for at the server,
everything else is done to the cache directory of the host.

## Main results

`mount_refines_store`: in every run of callbacks the files of the server are
those of a flat store in which a write replaces the whole file, and every answer
about a file is the one that the store gives.

`reads_last_write`: a read returns the slice of the last buffer that was written
with success, whatever callbacks come between.
-/
namespace RemoteCache

namespace Fuse

open LocalServer HttpBackend

/-- The host and the file system of the server. -/
structure HttpMount where
  host : Mount
  server : Tree Bytes

/-- `/api` and `/info` -/
def apiRoute : Str := ['/', 'a', 'p', 'i']
def info : Str := ['/', 'i', 'n', 'f', 'o']

/-- `apiBase`, from the URL of the data. -/
def apiBase (url : Str) : Str :=
  match find apiData url with
  | some rest => url.take (url.length - rest.length) ++ apiRoute
  | none => url

/-- The backends that `main` creates for a URL that begins with `http://` or `https://`. -/
def dataBackend (url : Str) : HttpBackend := ⟨url, []⟩
def apiBackend (url : Str) : HttpBackend := ⟨apiBase url, []⟩

/-- A conversion to `int`. -/
def toInt (n : ℤ) : ℤ := n.bmod (2 ^ 32)

/-! ### Callbacks -/

inductive HttpCall where
  | getAttribute (p : Path)
  | readFile (p : Path) (sz off : ℕ)
  | writeFile (p : Path) (buf : Bytes) (off : ℕ)
  | onHost (c : Call)

/-- What a callback returns and fills in: attributes, or the buffer of a read. -/
structure HttpReply where
  code : ℤ
  attributes : Option Attributes
  buf : Bytes

/-- The callbacks that do nothing at the server. -/
def Call.OnHost : Call → Prop
  | .getAttribute _ => False
  | .readFile .. => False
  | .writeFile .. => False
  | _ => True

/-- The result of a callback that passes on that of a backend. -/
def passOn (numBytes : ℤ) : ℤ := if numBytes < 0 then -1 else toInt numBytes

/-- `getAttribute`, given what `getFileInfo` says. The size of a directory stays 0. -/
def attributesReply : Option Attributes → HttpReply
  | none => ⟨-1, none, .empty⟩
  | some ⟨true, _⟩ => ⟨0, some ⟨true, 0⟩, .empty⟩
  | some ⟨false, fsize⟩ => ⟨0, some ⟨false, fsize⟩, .empty⟩

/-- What `os.stat` may say about what is at a location, where sizes and times have 64 bits. -/
structure StatOf (n : Inode Bytes) (st : LocalServer.Stat) : Prop where
  kind : st.isDir = true ↔ n = .dir
  size : ∀ b, n = .file b → st.size = b.size
  small : st.size < 2 ^ 63
  time : st.mtime.natAbs ≤ 2 ^ 63

section

variable (cfg : Config) (rootDir : Str) (guessType : Str → Option Str) (curl : Str → Str)
  (url : Str)

/-- The transfer answers a request for the attributes of a path. -/
def Informs (server : Tree Bytes) (path : Str) (transfer : Transfer) : Prop :=
  transfer.code = (doGET rootDir guessType server
    ((apiBackend url).downloadRequest curl (info ++ path) 1024 0)).status ∧
  ∀ n, server.node (place rootDir path) = some n → ∃ st, StatOf n st ∧ transfer.ok = true ∧
    Blob.concat transfer.chunks = asciiBytes (infoResponse (text path) st)

/-- A callback is run to its end. One that throws ends the process. -/
inductive HttpMount.Steps (m : HttpMount) : HttpCall → HttpReply → HttpMount → Prop where
  | getAttribute (p : Path) (transfer : Transfer) (attributes : Option Attributes) :
      Informs rootDir guessType curl url m.server (fusePath p) transfer →
      getFileInfo (download transfer (.ofFn 1024 fun _ => 0) 1024) = .ok attributes →
      Steps m (.getAttribute p) (attributesReply attributes) m
  | readFile (p : Path) (sz off : ℕ) (buf : Bytes) (transfer : Transfer) :
      Delivers (doGET rootDir guessType m.server
        ((dataBackend url).downloadRequest curl (fusePath p) sz off)) transfer →
      Steps m (.readFile p sz off)
        ⟨passOn (download transfer buf sz).2, none, (download transfer buf sz).1⟩ m
  | writeFile (p : Path) (buf : Bytes) (off : ℕ) (rooms : List ℕ) : buf.size ≤ rooms.sum →
      Steps m (.writeFile p buf off)
        ⟨passOn ((dataBackend url).uploadThrough (handle rootDir) curl rooms m.server (fusePath p)
          buf off).2, none, .empty⟩
        { m with server := ((dataBackend url).uploadThrough (handle rootDir) curl rooms m.server
          (fusePath p) buf off).1 }
  | onHost (c : Call) (host : Mount) (r : Reply) : c.OnHost → m.host.step cfg c = some (host, r) →
      Steps m (.onHost c) ⟨r.code, none, .empty⟩ { m with host }

end

/-! ### The flat store -/

/-- The names on a path of the server: URLs carry them as they are, and they are no longer than
names of files can be. -/
structure OnServer (p : Path) : Prop where
  below : p ≠ []
  names : ∀ c ∈ p, UrlName c ∧ c.length ≤ 255

/-- The arguments of a callback. Offsets are of the type `off_t`, and no buffer has `2 ^ 31`
bytes. -/
def HttpCall.Valid : HttpCall → Prop
  | getAttribute p => OnServer p
  | readFile p sz off => OnServer p ∧ 1 ≤ sz ∧ sz < 2 ^ 31 ∧ off < 2 ^ 63
  | writeFile p buf _ => OnServer p ∧ buf.size < 2 ^ 31
  | onHost _ => True

variable (rootDir : Str)

/-- What the store answers. -/
def Answers (fs : Files) : HttpCall → HttpReply → Prop
  | .getAttribute p, r =>
    (∀ C, fs (place rootDir (fusePath p)) = some C → r = ⟨0, some ⟨false, C.size⟩, .empty⟩) ∧
      (fs (place rootDir (fusePath p)) = none →
        r = ⟨-1, none, .empty⟩ ∨ r = ⟨0, some ⟨true, 0⟩, .empty⟩)
  | .readFile p sz off, r =>
    (∀ C, fs (place rootDir (fusePath p)) = some C → off ≤ C.size →
      r.code = min sz (C.size - off) ∧ r.buf.slice 0 r.code.toNat = C.slice off sz) ∧
      (fs (place rootDir (fusePath p)) = none → r.code = -1)
  | .writeFile _ _ _, r => r.code = -1
  | .onHost _, _ => True

/-- A write that succeeds replaces the file, whatever its offset; nothing else changes one. -/
inductive StoreStep (fs : Files) : HttpCall → HttpReply → Files → Prop where
  | written (p : Path) (buf : Bytes) (off : ℕ) (r : HttpReply) : r.code = buf.size →
      StoreStep fs (.writeFile p buf off) r (fs.set (place rootDir (fusePath p)) buf)
  | answered (c : HttpCall) (r : HttpReply) : Answers rootDir fs c r → StoreStep fs c r fs

/-! ### Paths -/

theorem slashed_concat (front : Path) (last : Str) :
    slashed (front ++ [last]) = '/' :: (front.flatMap (· ++ ['/']) ++ last) := by
  induction front with
  | nil => simp [slashed]
  | cons c front ih =>
    have step : slashed (c :: (front ++ [last])) = '/' :: (c ++ slashed (front ++ [last])) := by
      simp [slashed]
    rw [List.cons_append, step, ih]
    simp

/-- FUSE passes a path on which every name is one that URLs carry. -/
theorem OnServer.fusePath {p : Path} (server : OnServer p) : UrlPath (fusePath p) := by
  obtain ⟨front, last, rfl⟩ := List.eq_nil_or_concat p |>.resolve_left server.below
  rw [List.concat_eq_append] at server ⊢
  refine ⟨front, last, ?_, fun c member => ?_, ?_⟩
  · rw [Fuse.fusePath, if_neg server.below, slashed_concat]
  · exact (server.names c (List.mem_append_left _ member)).1
  · exact (server.names last (List.mem_append_right _ (List.mem_singleton_self _))).1

/-- Below the root the server puts what a mount calls by the same names. -/
theorem place_fusePath (rootDir : Str) :
    ∃ top, ∀ p, OnServer p → place rootDir (fusePath p) = top ++ p := by
  obtain ⟨top, joined⟩ := resolve_joinPath [] rootDir
  refine ⟨top, fun p server => ?_⟩
  have plain : ∀ c ∈ p, PlainName c := fun c member => (server.names c member).1.plain
  have relative : (slashed p).tail.head? ≠ some '/' := by
    obtain ⟨c, rest, rfl⟩ := List.exists_cons_of_ne_nil server.below
    have named := plain c List.mem_cons_self
    obtain ⟨l, letters, rfl⟩ := List.exists_cons_of_ne_nil named.1
    have slash : l ≠ '/' := fun same => named.2.2.2 (same ▸ List.mem_cons_self)
    simpa [slashed] using slash
  have stripped : (slashed p).dropWhile (· = '/') = (slashed p).tail := by
    rw [slashed_head server.below, List.dropWhile_cons_of_pos (by simp), List.tail_cons]
    cases tail : (slashed p).tail with
    | nil => rfl
    | cons l rest =>
      rw [tail] at relative
      exact List.dropWhile_cons_of_neg (by simpa using relative)
  rw [place, Fuse.fusePath, if_neg server.below, fullPath, stripped, joined _ relative,
    components_slashed server.below plain, foldl_descend_plain _ plain]

theorem place_fusePath_inj (rootDir : Str) {p q : Path} (first : OnServer p) (second : OnServer q)
    (same : place rootDir (fusePath p) = place rootDir (fusePath q)) : p = q := by
  obtain ⟨top, places⟩ := place_fusePath rootDir
  rw [places p first, places q second] at same
  exact List.append_cancel_left same

/-! ### Attributes -/

theorem length_str {n : ℤ} (small : n.natAbs ≤ 2 ^ 63) : (Python.str n).length ≤ 20 := by
  have digits : (Nat.toDigits 10 n.natAbs).length ≤ 19 :=
    (Nat.length_toDigits_le_iff (by decide) (by decide)).mpr (by omega)
  rw [Python.str]
  split
  · rw [List.length_cons]
    omega
  · omega

theorem length_escaped {s : Text} (printable : ∀ c ∈ s, 32 ≤ c ∧ c ≤ 126) :
    (Json.escaped s).length ≤ 2 * s.length := by
  induction s with
  | nil => exact Nat.le_refl _
  | cons c s ih =>
    obtain ⟨first, rest⟩ := List.forall_mem_cons.mp printable
    have letter : (Json.escape c).length ≤ 2 := by
      rw [Json.escape]
      split_ifs <;> simp
    rw [Json.escaped, List.flatMap_cons, List.length_append, ← Json.escaped, List.length_cons]
    have := ih rest
    omega

/-- An answer about a file of the server fits into the buffer of `getFileInfo`. -/
theorem infoResponse_fits {p : Path} (server : OnServer p) {n : Inode Bytes} {st : LocalServer.Stat}
    (describes : StatOf n st) : (infoResponse (text (fusePath p)) st).length ≤ 1024 := by
  obtain ⟨front, last, rfl⟩ := List.eq_nil_or_concat p |>.resolve_left server.below
  rw [List.concat_eq_append] at server ⊢
  obtain ⟨url, short⟩ := server.names last (List.mem_append_right _ (List.mem_singleton_self _))
  have unslashed : 47 ∉ text last := fun member => by
    obtain ⟨c, there, same⟩ := List.mem_map.mp member
    have slash : c = '/' := Char.toNat_inj.mp same
    exact url.plain.2.2.2 (slash ▸ there)
  have printable : ∀ c ∈ text last, 32 ≤ c ∧ c ≤ 126 := fun c member => by
    obtain ⟨l, there, rfl⟩ := List.mem_map.mp member
    have letter := url.letters l there
    omega
  have named : basename (text (fusePath (front ++ [last]))) = text last := by
    have split : fusePath (front ++ [last]) = slashed front ++ '/' :: last := by
      simp [fusePath, slashed]
    rw [split, List.append_cons, text, List.map_append]
    exact basename_append (.inr (by simp)) unslashed
  have some : text last ≠ [] := by simpa [text] using url.plain.1
  have name := length_escaped printable
  have time := length_str describes.time
  have kind : (Json.dumpsBool st.isDir).length ≤ 5 := by cases st.isDir <;> decide
  have size : (Python.str (if st.isDir then 0 else st.size : ℕ)).length ≤ 20 := by
    apply length_str
    rw [Int.natAbs_natCast]
    have := describes.small
    split <;> omega
  have letters : (text last).length = last.length := List.length_map _
  rw [infoResponse, dumps_json]
  simp only [nameHead, nameTail, LocalServer.getFileInfo, named, if_neg some, List.length_cons,
    List.length_append, List.length_nil]
  omega

section

variable {rootDir : Str} {guessType : Str → Option Str} {curl : Str → Str} {url : Str}
  {t : Tree Bytes} {p : Path} {transfer : Transfer}

/-- A request for attributes finds out whether there is something. -/
theorem doGET_info (server : OnServer p)
    (carried : curl (apiBase url ++ (info ++ fusePath p)) = apiRoute ++ info ++ fusePath p) :
    (doGET rootDir guessType t
      ((apiBackend url).downloadRequest curl (info ++ fusePath p) 1024 0)).status =
      if (t.node (place rootDir (fusePath p))).isSome then 200 else 404 := by
  have named := server.fusePath
  have target : ((apiBackend url).downloadRequest curl (info ++ fusePath p) 1024 0).target =
      apiRoute ++ info ++ fusePath p := carried
  have whole : Python.urlPath (apiRoute ++ info ++ fusePath p) =
      apiRoute ++ info ++ fusePath p := by
    refine Python.urlPath_plain (by decide) fun l member => ?_
    have whole : l ∈ apiRoute ++ info ++ fusePath p := List.mem_cons_of_mem '/' member
    rcases List.mem_append.mp whole with fixed | inside
    · have fine : ∀ l ∈ apiRoute ++ info, 32 < l.toNat ∧ l ≠ '#' ∧ l ≠ '?' ∧ l ≠ ';' := by
        simp [apiRoute, info]
      exact fine l fixed
    · exact named.letters l inside
  obtain ⟨rest, slash⟩ := named.slash
  have route : infoRoute <+: apiRoute ++ info ++ fusePath p := ⟨rest, by rw [slash]; rfl⟩
  have cut : (apiRoute ++ info ++ fusePath p).drop 9 = fusePath p := List.drop_left' rfl
  simp only [doGET, target, whole, if_pos route, cut, handleInfoRequest, sendJson,
    stat_place named.filePath]

/-- What `getAttribute` fills in is what is at the location. -/
theorem getAttribute_answer (server : OnServer p)
    (carried : curl (apiBase url ++ (info ++ fusePath p)) = apiRoute ++ info ++ fusePath p)
    (informs : Informs rootDir guessType curl url t (fusePath p) transfer) {buffer : Bytes}
    {attributes : Option Attributes}
    (read : getFileInfo (download transfer buffer 1024) = .ok attributes) :
    Answers rootDir t.file (.getAttribute p) (attributesReply attributes) := by
  obtain ⟨code, tells⟩ := informs
  rw [doGET_info server carried] at code
  cases there : t.node (place rootDir (fusePath p)) with
  | none =>
    rw [there] at code
    have failed : (download transfer buffer 1024).2 = -1 := by
      have failure : ¬(transfer.ok && ok2xx 404) = true := by simp [ok2xx]
      rw [download_eq, show transfer.code = 404 from code, if_neg failure]
    rw [getFileInfo, if_pos (by rw [failed]; decide)] at read
    cases read
    refine ⟨fun C content => ?_, fun _ => .inl rfl⟩
    simp [Tree.file, there] at content
  | some n =>
    rw [there] at code
    obtain ⟨st, describes, ok, body⟩ := tells n there
    rw [getFileInfo_response _ st (infoResponse_fits server describes) ok code body] at read
    split at read
    · cases read
      cases n with
      | file b =>
        have kind : st.isDir = false := by
          rw [Bool.eq_false_iff, Ne, describes.kind]
          simp
        have content : t.file (place rootDir (fusePath p)) = some b := by rw [Tree.file, there]
        have size : (LocalServer.getFileInfo (text (fusePath p)) st).size = b.size := by
          rw [LocalServer.getFileInfo, kind, describes.size b rfl]
          rfl
        rw [kind, size]
        refine ⟨fun C same => ?_, fun absent => ?_⟩
        · rw [content] at same
          cases same
          rfl
        · rw [content] at absent
          cases absent
      | dir =>
        have kind : st.isDir = true := describes.kind.mpr rfl
        have content : t.file (place rootDir (fusePath p)) = none := by rw [Tree.file, there]
        rw [kind]
        refine ⟨fun C same => ?_, fun _ => .inr rfl⟩
        rw [content] at same
        cases same
    · cases read

end

/-! ### URLs -/

theorem urlPath_cons {c path : Str} (named : UrlName c) (rest : UrlPath path) :
    UrlPath ('/' :: c ++ path) := by
  obtain ⟨names, last, rfl, plain, lastNamed⟩ := rest
  refine ⟨c :: names, last, by simp, fun d member => ?_, lastNamed⟩
  rcases List.mem_cons.mp member with rfl | member
  · exact named
  · exact plain d member

theorem urlPath_apiData {path : Str} (rest : UrlPath path) : UrlPath (apiData ++ path) := by
  have api : UrlName ['a', 'p', 'i'] := ⟨by simp [PlainName], by simp⟩
  have data : UrlName ['d', 'a', 't', 'a'] := ⟨by simp [PlainName], by simp⟩
  have whole : UrlPath ('/' :: ['a', 'p', 'i'] ++ ('/' :: ['d', 'a', 't', 'a'] ++ path)) :=
    urlPath_cons api (urlPath_cons data rest)
  exact whole

theorem urlPath_info {path : Str} (rest : UrlPath path) : UrlPath (apiRoute ++ (info ++ path)) := by
  have api : UrlName ['a', 'p', 'i'] := ⟨by simp [PlainName], by simp⟩
  have info : UrlName ['i', 'n', 'f', 'o'] := ⟨by simp [PlainName], by simp⟩
  have whole : UrlPath ('/' :: ['a', 'p', 'i'] ++ ('/' :: ['i', 'n', 'f', 'o'] ++ path)) :=
    urlPath_cons api (urlPath_cons info rest)
  exact whole

/-- The base for attributes, where the route of the data is not in the URL twice. -/
theorem apiBase_origin {origin : Str} (first : find apiData (origin ++ apiData) = some apiData) :
    apiBase (origin ++ apiData) = origin ++ apiRoute := by
  simp only [apiBase, first]
  rw [List.length_append, Nat.add_sub_cancel, List.take_left]

/-! ### Runs -/

section

variable {cfg : Config} {rootDir : Str} {guessType : Str → Option Str} {curl : Str → Str}
  {origin : Str} {m m' : HttpMount} {c : HttpCall} {r : HttpReply}

theorem passOn_natCast {n : ℕ} (small : n < 2 ^ 31) : passOn n = n := by
  rw [passOn, if_neg (by omega), toInt, Int.bmod_eq_of_le] <;> omega

/-- Every callback is a step of the flat store. -/
theorem HttpMount.Steps.refines (first : find apiData (origin ++ apiData) = some apiData)
    (carried : ∀ target, UrlPath target → curl (origin ++ target) = target) (valid : c.Valid)
    (step : m.Steps cfg rootDir guessType curl (origin ++ apiData) c r m') :
    StoreStep rootDir m.server.file c r m'.server.file := by
  have carriedData : ∀ {p}, OnServer p →
      curl (origin ++ apiData ++ fusePath p) = apiData ++ fusePath p := fun server => by
    rw [List.append_assoc]
    exact carried _ (urlPath_apiData server.fusePath)
  cases step with
  | getAttribute p transfer attributes informs read =>
    refine .answered _ _ (getAttribute_answer valid ?_ informs read)
    rw [apiBase_origin first, List.append_assoc, List.append_assoc]
    exact carried _ (urlPath_info (OnServer.fusePath valid))
  | readFile p sz off buf transfer delivered =>
    obtain ⟨server, positive, small, offset⟩ := valid
    refine .answered _ _ ⟨fun C content inside => ?_, fun absent => ?_⟩
    · rw [download_content server.fusePath (carriedData server) content inside positive (by omega)
        delivered buf]
      have cut : C.slice off (min sz (C.size - off)) = C.slice off sz := C.slice_cut off (by omega)
      have shown := Blob.slice_written buf (C.slice off sz)
      rw [Blob.size_slice] at shown
      rw [passOn_natCast (by omega), Int.toNat_natCast, shown]
      exact ⟨by simp, rfl⟩
    · rw [download_absent server.fusePath (carriedData server) absent delivered]
      rfl
  | writeFile p buf off rooms enough =>
    obtain ⟨server, small⟩ := valid
    rw [uploadThrough_eq _ _ enough]
    rcases upload_spec (b := dataBackend (origin ++ apiData)) rootDir server.fusePath
      (carriedData server) m.server buf off with ⟨_, failed, kept⟩ | ⟨_, done, file⟩
    · rw [failed]
      simp only [kept]
      exact .answered _ _ rfl
    · rw [done, passOn_natCast small]
      simp only [file]
      exact .written p buf off _ rfl
  | onHost => exact .answered _ _ trivial

end

/-- In every run of callbacks the files of the server are those of the flat store, and it gives
the answers of the store. libcurl requests each path as it stands, below an origin without the
route of the data. -/
theorem mount_refines_store (cfg : Config) (rootDir : Str) (guessType : Str → Option Str)
    (curl : Str → Str) (origin : Str) (first : find apiData (origin ++ apiData) = some apiData)
    (carried : ∀ target, UrlPath target → curl (origin ++ target) = target) {m m' : HttpMount}
    {log : List (HttpCall × HttpReply)}
    (run : Run (HttpMount.Steps cfg rootDir guessType curl (origin ++ apiData)) m log m')
    (valid : ∀ entry ∈ log, entry.1.Valid) :
    Run (StoreStep rootDir) m.server.file log m'.server.file :=
  run.map (·.server.file) fun member step => step.refines first carried (valid _ member)

/-- What was written last with success is what is read, whatever is done to the host and to other
files, and also after the file was removed. -/
theorem reads_last_write (cfg : Config) (rootDir : Str) (guessType : Str → Option Str)
    (curl : Str → Str) (origin : Str) (first : find apiData (origin ++ apiData) = some apiData)
    (carried : ∀ target, UrlPath target → curl (origin ++ target) = target) {m m' : HttpMount}
    (before between : List (HttpCall × HttpReply)) {p : Path} {buf : Bytes} {off : ℕ}
    {written : HttpReply} {sz off' : ℕ} {read : HttpReply}
    (run : Run (HttpMount.Steps cfg rootDir guessType curl (origin ++ apiData)) m
      (before ++ (.writeFile p buf off, written) :: (between ++ [(.readFile p sz off', read)])) m')
    (valid : ∀ entry ∈ before ++ (.writeFile p buf off, written) ::
      (between ++ [(.readFile p sz off', read)]), HttpCall.Valid entry.1)
    (success : written.code = buf.size)
    (last : ∀ entry ∈ between, ∀ buf' off'', entry.1 = .writeFile p buf' off'' →
      entry.2.code = -1)
    (inside : off' ≤ buf.size) :
    read.code = min sz (buf.size - off') ∧
      read.buf.slice 0 read.code.toNat = buf.slice off' sz := by
  have named : OnServer p := (valid (.writeFile p buf off, written) (by simp)).1
  have stored : Run (StoreStep rootDir) m.server.file _ m'.server.file :=
    run.map (·.server.file) fun member step => step.refines first carried (valid _ member)
  obtain ⟨fs, fs', _, write, rest⟩ := stored.step_at
  obtain ⟨fs'', middle, final⟩ := rest.split
  have stored : fs' (place rootDir (fusePath p)) = some buf := by
    cases write with
    | written => exact Function.update_self _ _ _
    | answered _ _ failed =>
      have code : written.code = -1 := failed
      omega
  have kept : fs'' (place rootDir (fusePath p)) = some buf := by
    refine middle.keeps (P := fun fs => fs (place rootDir (fusePath p)) = some buf) stored ?_
    intro fs c r fs' member content step
    cases step with
    | answered => exact content
    | written q buf' off'' r done =>
      have other : q ≠ p := by
        rintro rfl
        have failed := last _ member buf' off'' rfl
        simp only at failed
        omega
      have server : OnServer q := (valid (.writeFile q buf' off'', r) (by simp [member])).1
      rw [Files.set, Function.update_of_ne fun same =>
        other (place_fusePath_inj rootDir server named same.symm)]
      exact content
  have step := final.single
  cases step with
  | answered _ _ answers => exact answers.1 buf kept inside

/-- A mount of `http://h/api/data`, where the directory `/` is served and empty. -/
def sampleHttp : HttpMount := ⟨sampleMount, .empty⟩

def sampleByte : Bytes := .ofFn 1 fun _ => 7

/-- The byte is written to the file `f`, in a buffer of its size. -/
def sampleWrite : Tree Bytes × ℤ :=
  (dataBackend (host ++ apiData)).uploadThrough (handle ['/']) afterHost [1] sampleHttp.server
    (fusePath [['f']]) sampleByte 0

/-- The answer to the request for it. -/
def sampleTransfer : Transfer :=
  let resp := doGET ['/'] (fun _ => none) sampleWrite.1
    ((dataBackend (host ++ apiData)).downloadRequest afterHost (fusePath [['f']]) 1 0)
  ⟨true, resp.status, resp.body.toList⟩

def sampleLog : List (HttpCall × HttpReply) :=
  [(.writeFile [['f']] sampleByte 0, ⟨passOn sampleWrite.2, none, .empty⟩),
    (.readFile [['f']] 1 0, ⟨passOn (download sampleTransfer .empty 1).2, none,
      (download sampleTransfer .empty 1).1⟩)]

theorem sampleLog_run : Run (HttpMount.Steps .sample ['/'] (fun _ => none) afterHost
    (host ++ apiData)) sampleHttp sampleLog { sampleHttp with server := sampleWrite.1 } := by
  have write : Run (HttpMount.Steps .sample ['/'] (fun _ => none) afterHost (host ++ apiData))
      sampleHttp [(.writeFile [['f']] sampleByte 0, ⟨passOn sampleWrite.2, none, .empty⟩)]
      { sampleHttp with server := sampleWrite.1 } :=
    .next (.refl _) (.writeFile [['f']] sampleByte 0 [1] (Nat.le_refl 1))
  exact .next write (.readFile [['f']] 1 0 .empty sampleTransfer (delivers_whole _))

theorem sampleLog_valid : ∀ entry ∈ sampleLog, HttpCall.Valid entry.1 := by
  have named : UrlName ['f'] := ⟨by simp [PlainName], by simp⟩
  have server : OnServer [['f']] := ⟨by simp, by simp [named]⟩
  intro entry member
  simp only [sampleLog, List.mem_cons, List.not_mem_nil, or_false] at member
  rcases member with rfl | rfl
  · exact ⟨server, by decide⟩
  · exact ⟨server, by decide, by decide, by decide⟩

theorem afterHost_target (target : Str) : afterHost (host ++ target) = target := by
  rw [afterHost, List.drop_left]

theorem mount_refines_store_sample :
    Run (StoreStep ['/']) Tree.empty.file sampleLog sampleWrite.1.file :=
  mount_refines_store .sample ['/'] (fun _ => none) afterHost host (by decide)
    (fun target _ => afterHost_target target) sampleLog_run sampleLog_valid

theorem reads_last_write_sample :
    let read := download sampleTransfer .empty 1
    passOn read.2 = min 1 (sampleByte.size - 0) ∧
      read.1.slice 0 (passOn read.2).toNat = sampleByte.slice 0 1 :=
  reads_last_write .sample ['/'] (fun _ => none) afterHost host (by decide)
    (fun target _ => afterHost_target target) [] [] sampleLog_run sampleLog_valid
    (by decide +kernel) (by simp) (by decide)

end Fuse

end RemoteCache
