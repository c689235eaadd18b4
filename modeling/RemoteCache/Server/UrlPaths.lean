import RemoteCache.Server.HttpBackend

/-!
# Paths in URLs

A URL carries the path of a file unchanged when its names are printable and free
of the letters that URLs give a meaning to. Below `/api/data` such a path leads
the server to one location, which lies in the directory that `dirname` gives.
-/
namespace RemoteCache

/-- `/api/data` -/
def apiData : Str := ['/', 'a', 'p', 'i', '/', 'd', 'a', 't', 'a']

/-- A name that requests and paths carry as it is. -/
structure UrlName (c : Str) : Prop where
  plain : PlainName c
  letters : ∀ l ∈ c, 0x21 ≤ l.toNat ∧ l.toNat ≤ 0x7e ∧ l ≠ '#' ∧ l ≠ '?' ∧ l ≠ ';'

/-- The path of a file below the root, as FUSE passes it. -/
def UrlPath (path : Str) : Prop :=
  ∃ (names : List Str) (last : Str), path = '/' :: (names.flatMap (· ++ ['/']) ++ last) ∧
    (∀ c ∈ names, UrlName c) ∧ UrlName last

/-- A path of a file: it ends in a name, and does not go up. -/
def FilePath (path : Str) : Prop :=
  ∃ front last, path = front ++ last ∧ EndsPath front ∧ PlainName last ∧
    ['.', '.'] ∉ components front

/-- The location of a file of the server. -/
def LocalServer.place (rootDir path : Str) : Path := resolve [] (fullPath rootDir path)

/-! ### Paths of files -/

private theorem endsPath_flatMap (names : List Str) : EndsPath (names.flatMap (· ++ ['/'])) := by
  induction names using List.reverseRecOn with
  | nil => exact .inl rfl
  | append_singleton names c _ => exact .inr ⟨names.flatMap (· ++ ['/']) ++ c, by simp⟩

theorem dropWhile_slash {c : Str} (plain : '/' ∉ c) : c.dropWhile (· = '/') = c := by
  cases c with
  | nil => rfl
  | cons l c => exact List.dropWhile_cons_of_neg (by simpa using fun same => plain (by simp [same]))

/-- `lstrip` takes slashes of the front only. -/
private theorem lstrip_front {front last : Str} (ends : EndsPath front) (plain : '/' ∉ last) :
    ∃ front', (front ++ last).dropWhile (· = '/') = front' ++ last ∧ EndsPath front' ∧
      (front' ++ last).head? ≠ some '/' := by
  induction front with
  | nil =>
    exact ⟨[], dropWhile_slash plain, ends, fun slash => plain (List.mem_of_mem_head? slash)⟩
  | cons l front ih =>
    by_cases slash : l = '/'
    · simpa [slash] using ih ends.tail
    · exact ⟨l :: front, by simp [slash], ends, by simpa using slash⟩

/-- The full path ends in the last component of the path. -/
theorem LocalServer.fullPath_front (rootDir : Str) {front last : Str} (ends : EndsPath front)
    (plain : '/' ∉ last) :
    ∃ front', fullPath rootDir (front ++ last) = front' ++ last ∧ EndsPath front' := by
  obtain ⟨front', same, ends', head⟩ := lstrip_front ends plain
  obtain ⟨top, joined, ends, _⟩ := joinPath_relative rootDir head
  exact ⟨top ++ front', by rw [fullPath, same, joined, List.append_assoc], ends.append ends'⟩

/-- The full path ends in the name of the file, in the directory that `dirname` gives. -/
theorem LocalServer.fullPath_split (rootDir : Str) {path : Str} (below : FilePath path) :
    ∃ front last, fullPath rootDir path = front ++ last ∧ EndsPath front ∧ PlainName last := by
  obtain ⟨front, last, rfl, ends, named, _⟩ := below
  obtain ⟨front', same, ends'⟩ := fullPath_front rootDir ends named.2.2.2
  exact ⟨front', last, same, ends', named⟩

/-- A path that does not go up and ends in a name is that of a file. -/
theorem LocalServer.filePath_of_namesFile {rootDir path : Str}
    (named : namesFile (fullPath rootDir path) = true)
    (down : ['.', '.'] ∉ (components path).dropLast) : FilePath path := by
  obtain ⟨front, last, rfl, ends, plain⟩ := Python.exists_last_split path
  obtain ⟨front', same, ends'⟩ := fullPath_front rootDir ends plain
  rw [namesFile, same, (Python.rdropWhile_last ends' plain).2] at named
  simp only [Bool.and_eq_true, decide_eq_true_eq] at named
  refine ⟨front, last, rfl, ends, ⟨named.1.1, named.1.2, named.2, plain⟩, ?_⟩
  rw [Python.components_ends ends plain, List.dropLast_concat] at down
  rcases ends with rfl | ⟨t, rfl⟩
  · decide
  · have split : components (t ++ ['/']) = components t ++ [[]] := components_append t []
    rw [split, List.dropLast_concat] at down
    simpa [split] using down

theorem UrlPath.filePath {path : Str} (url : UrlPath path) : FilePath path := by
  obtain ⟨names, last, rfl, plain, named⟩ := url
  have top : EndsPath ['/'] := .inr ⟨[], rfl⟩
  refine ⟨'/' :: names.flatMap (· ++ ['/']), last, rfl, top.append (endsPath_flatMap names),
    named.plain, ?_⟩
  have split : components ('/' :: names.flatMap (· ++ ['/'])) = [] :: (names ++ [[]]) := by
    rw [components_slash, components_flatMap fun c member => (plain c member).plain]
  rw [split, List.mem_cons, List.mem_append, List.mem_singleton]
  rintro (none | inside | none)
  · cases none
  · exact (plain _ inside).plain.2.2.1 rfl
  · cases none

theorem UrlPath.slash {path : Str} (url : UrlPath path) : ∃ rest, path = '/' :: rest := by
  obtain ⟨names, last, rfl, _⟩ := url
  exact ⟨_, rfl⟩

theorem UrlPath.letters {path : Str} (url : UrlPath path) :
    ∀ l ∈ path, 32 < l.toNat ∧ l ≠ '#' ∧ l ≠ '?' ∧ l ≠ ';' := by
  obtain ⟨names, last, rfl, plain, named⟩ := url
  have name : ∀ c, UrlName c → ∀ l ∈ c, 32 < l.toNat ∧ l ≠ '#' ∧ l ≠ '?' ∧ l ≠ ';' :=
    fun c named l member => ⟨(named.letters l member).1, (named.letters l member).2.2⟩
  intro l member
  simp only [List.mem_cons, List.mem_append, List.mem_flatMap, List.not_mem_nil, or_false] at member
  rcases member with rfl | ⟨c, inside, member | rfl⟩ | member
  · decide
  · exact name c (plain c inside) l member
  · decide
  · exact name last named l member

namespace LocalServer

variable (rootDir : Str)

theorem place_split {path : Str} (below : FilePath path) :
    ∃ directory last, place rootDir path = directory ++ [last] ∧
      resolve [] (Python.dirname (fullPath rootDir path)) = directory ∧
      namesFile (fullPath rootDir path) = true := by
  obtain ⟨front, last, same, ends, plain⟩ := fullPath_split rootDir below
  refine ⟨resolve [] front, last, ?_, ?_, ?_⟩
  · rw [place, same, ends.resolve, components_plain plain, List.foldl_cons, List.foldl_nil,
      descend_plain _ plain]
  · rw [same, Python.resolve_dirname ends plain.2.2.2]
  · rw [namesFile, same, (Python.rdropWhile_last ends plain.2.2.2).2]
    simp [plain.1, plain.2.1, plain.2.2.1]

theorem place_ne_nil {rootDir path : Str} (below : FilePath path) : place rootDir path ≠ [] := by
  obtain ⟨directory, last, split, _⟩ := place_split rootDir below
  rw [split]
  simp

theorem parent_place {rootDir path : Str} (below : FilePath path) :
    resolve [] (Python.dirname (fullPath rootDir path)) = (place rootDir path).dropLast := by
  obtain ⟨directory, last, split, parent, _⟩ := place_split rootDir below
  rw [split, List.dropLast_concat, parent]

/-- At the path of a file the handlers see the file that is there, if there is one. -/
theorem stat_cases (t : Tree Bytes) {path : Str} (below : FilePath path) :
    (∃ b, t.file (place rootDir path) = some b ∧
        stat t (fullPath rootDir path) = some (.file b)) ∨
      (t.file (place rootDir path) = none ∧ (stat t (fullPath rootDir path) = none ∨
        stat t (fullPath rootDir path) = some .dir)) := by
  obtain ⟨_, _, _, _, named⟩ := place_split rootDir below
  rw [place, Tree.file, stat]
  cases t.node (resolve [] (fullPath rootDir path)) with
  | none => exact .inr ⟨rfl, .inl rfl⟩
  | some n =>
    cases n with
    | file b => exact .inl ⟨b, rfl, if_pos named⟩
    | dir => exact .inr ⟨rfl, .inr rfl⟩

theorem contentAt_place (t : Tree Bytes) {path : Str} (below : FilePath path) :
    contentAt t (fullPath rootDir path) = (t.file (place rootDir path)).getD .empty := by
  rcases stat_cases rootDir t below with ⟨b, there, seen⟩ | ⟨absent, seen | seen⟩
  · rw [contentAt, seen, there, Option.getD_some]
  · rw [contentAt, seen, absent, Option.getD_none]
  · rw [contentAt, seen, absent, Option.getD_none]

theorem stat_file {rootDir : Str} {t : Tree Bytes} {path : Str} (below : FilePath path) {b : Bytes}
    (content : t.file (place rootDir path) = some b) :
    stat t (fullPath rootDir path) = some (.file b) := by
  rcases stat_cases rootDir t below with ⟨c, there, seen⟩ | ⟨none, _⟩
  · have same : c = b := Option.some.inj (there.symm.trans content)
    rw [seen, same]
  · rw [none] at content
    cases content

end LocalServer

/-- `urlparse` finds the whole path in a URL of a file. -/
theorem urlPath_data {path : Str} (url : UrlPath path) :
    Python.urlPath (apiData ++ path) = apiData ++ path := by
  refine Python.urlPath_plain (by decide) fun l member => ?_
  have whole : l ∈ apiData ++ path := List.mem_cons_of_mem '/' member
  rcases List.mem_append.mp whole with fixed | inside
  · have fine : ∀ l ∈ apiData, 32 < l.toNat ∧ l ≠ '#' ∧ l ≠ '?' ∧ l ≠ ';' := by simp [apiData]
    exact fine l fixed
  · exact url.letters l inside

namespace HttpBackend

/-- `http://h` -/
def host : Str := ['h', 't', 't', 'p', ':', '/', '/', 'h']

/-- A backend at `http://h/api/data`. -/
def sample : HttpBackend := ⟨host ++ apiData, []⟩

/-- What follows the host. -/
def afterHost (url : Str) : Str := url.drop host.length

theorem afterHost_carries (path : Str) :
    afterHost (host ++ apiData ++ path) = apiData ++ path := by
  rw [List.append_assoc, afterHost, List.drop_left]

theorem urlPath_sample : UrlPath ['/', 'f'] :=
  ⟨[], ['f'], rfl, by simp, by simp [PlainName], by simp⟩

end HttpBackend

end RemoteCache
