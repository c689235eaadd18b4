import RemoteCache.Lib.Json

/-!
# The JSON answers of the bundled server

`_get_file_info` describes a file by its name, size, time and kind; the requests
for one file and for a directory answer with one description or with a list of
them, in the order in which `os.listdir` gives the names.
-/
namespace RemoteCache

open Json

namespace LocalServer

/-- `os.path.basename` -/
def basename (p : Text) : Text := p.rtakeWhile (· ≠ 47)

/-- `os.path.join` of two paths. -/
def join (path name : Text) : Text :=
  if name.head? = some 47 then name
  else if path = [] ∨ path.getLast? = some 47 then path ++ name
  else path ++ 47 :: name

/-- What `os.stat` says about a file, with its time cut to whole seconds. -/
structure Stat where
  size : ℕ
  mtime : ℤ
  isDir : Bool

structure FileInfo where
  name : Text
  size : ℕ
  mtime : ℤ
  isDirectory : Bool

/-- `_get_file_info`, for a file that exists. -/
def getFileInfo (path : Text) (st : Stat) : FileInfo where
  name := if basename path = [] then [47] else basename path
  size := if st.isDir then 0 else st.size
  mtime := st.mtime
  isDirectory := st.isDir

def FileInfo.json (info : FileInfo) : Json :=
  .dict [(text ['n', 'a', 'm', 'e'], .str info.name),
    (text ['s', 'i', 'z', 'e'], .int info.size),
    (text ['m', 't', 'i', 'm', 'e'], .int info.mtime),
    (text ['i', 's', '_', 'd', 'i', 'r', 'e', 'c', 't', 'o', 'r', 'y'], .bool info.isDirectory)]

/-- The body of the answer of `_handle_info_request`. -/
def infoResponse (path : Text) (st : Stat) : Str := dumps (getFileInfo path st).json

/-- The names in a directory, each once, and what they stand for. -/
structure Directory where
  entries : List (Text × Stat)
  legal : ∀ e ∈ entries, e.1 ≠ [] ∧ 47 ∉ e.1 ∧ 0 ∉ e.1
  distinct : (entries.map (·.1)).Nodup

/-- What `_handle_list_request` collects. -/
def listInfos (path : Text) (d : Directory) : List FileInfo :=
  d.entries.map fun e => getFileInfo (join path e.1) e.2

def listResponse (path : Text) (d : Directory) : Str :=
  dumps (.list ((listInfos path d).map FileInfo.json))

/-! ### Names -/

theorem basename_append {front name : Text} (ends : front = [] ∨ front.getLast? = some 47)
    (plain : 47 ∉ name) : basename (front ++ name) = name := by
  induction name using List.reverseRecOn with
  | nil =>
    rw [List.append_nil]
    rcases ends with rfl | last
    · rfl
    · obtain ⟨s, rfl⟩ := List.getLast?_eq_some_iff.mp last
      exact List.rtakeWhile_concat_neg _ _ _ (by decide)
  | append_singleton name c ih =>
    rw [List.mem_append, List.mem_singleton, not_or] at plain
    have kept : decide (c ≠ 47) = true := decide_eq_true (Ne.symm plain.2)
    rw [basename, ← List.append_assoc]
    calc List.rtakeWhile (· ≠ 47) (front ++ name ++ [c])
        = basename (front ++ name) ++ [c] := List.rtakeWhile_concat_pos _ _ _ kept
      _ = name ++ [c] := by rw [ih plain.1]

theorem basename_join (path : Text) {name : Text} (plain : 47 ∉ name) :
    basename (join path name) = name := by
  have relative : name.head? ≠ .some 47 := fun first => plain (List.mem_of_mem_head? first)
  rw [join, if_neg relative]
  split
  next ends => exact basename_append ends plain
  · rw [← List.singleton_append, ← List.append_assoc]
    exact basename_append (.inr (by simp)) plain

/-- The server sends the names of the directory. -/
theorem listInfos_names (path : Text) (d : Directory) :
    (listInfos path d).map (·.name) = d.entries.map (·.1) := by
  rw [listInfos, List.map_map]
  refine List.map_congr_left fun e member => ?_
  obtain ⟨some, plain, _⟩ := d.legal e member
  simp only [Function.comp_apply, getFileInfo, basename_join path plain, if_neg some]

/-! ### The text of a description -/

/-- The text up to the closing quote of the name. -/
def nameHead (info : FileInfo) : Str :=
  '{' :: (['"', 'n', 'a', 'm', 'e', '"', ':', ' ', '"'] ++ (escaped info.name ++ ['"']))

/-- The rest of the text. -/
def nameTail (info : FileInfo) : Str :=
  [',', ' ', '"', 's', 'i', 'z', 'e', '"', ':', ' '] ++ (Python.str info.size ++
    ([',', ' ', '"', 'm', 't', 'i', 'm', 'e', '"', ':', ' '] ++ (Python.str info.mtime ++
      ([',', ' ', '"', 'i', 's', '_', 'd', 'i', 'r', 'e', 'c', 't', 'o', 'r', 'y', '"', ':', ' '] ++
        (dumpsBool info.isDirectory ++ ['}'])))))

theorem dumps_json (info : FileInfo) : dumps info.json = nameHead info ++ nameTail info := by
  have name : escaped (text ['n', 'a', 'm', 'e']) = ['n', 'a', 'm', 'e'] := by decide
  have size : escaped (text ['s', 'i', 'z', 'e']) = ['s', 'i', 'z', 'e'] := by decide
  have mtime : escaped (text ['m', 't', 'i', 'm', 'e']) = ['m', 't', 'i', 'm', 'e'] := by decide
  have kind : escaped (text ['i', 's', '_', 'd', 'i', 'r', 'e', 'c', 't', 'o', 'r', 'y']) =
      ['i', 's', '_', 'd', 'i', 'r', 'e', 'c', 't', 'o', 'r', 'y'] := by
    decide
  simp only [FileInfo.json, dumps, dumpsFields, dumpsStr, name, size, mtime, kind, nameHead,
    nameTail, separator, quote, List.append_assoc, List.cons_append, List.nil_append]

end LocalServer

end RemoteCache
