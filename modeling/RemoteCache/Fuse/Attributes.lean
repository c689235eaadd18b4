import RemoteCache.Fuse.Responses
import RemoteCache.Lib.Search
import RemoteCache.Server.FileInfo

/-!
# Attributes of remote files

`getFileInfo` finds the size and the kind in the answer of the server by
searching for their keys. A name can look like a key only where it ends, and
there the same colon follows. The size is read as an `int`.
-/
namespace RemoteCache

open Json LocalServer HttpBackend

namespace Fuse

structure Attributes where
  isDirectory : Bool
  size : ℕ
  deriving DecidableEq

/-- What `std::stoi` throws. -/
inductive Thrown where
  | invalidArgument
  | outOfRange
  deriving DecidableEq

/-- `std::stoi`, for a text of digits. -/
def stoi (digits : Str) : Except Thrown ℕ :=
  if digits = [] then .error .invalidArgument
  else if numeralVal 10 digits ≤ 2 ^ 31 - 1 then .ok (numeralVal 10 digits)
  else .error .outOfRange

/-- The text from the colon after a key on. -/
def afterKey (key json : Str) : Option Str := (find key json).bind (find [':'])

def sizeKey : Str := ['"', 's', 'i', 'z', 'e', '"']

def directoryKey : Str := ['"', 'i', 's', '_', 'd', 'i', 'r', 'e', 'c', 't', 'o', 'r', 'y', '"']

def infoSize (json : Str) : Except Thrown ℕ :=
  match afterKey sizeKey json with
  | none => .ok 0
  | some colon => stoi (((colon.drop 1).dropWhile fun c => !c.isDigit).takeWhile Char.isDigit)

def infoIsDirectory (json : Str) : Bool :=
  match afterKey directoryKey json with
  | none => false
  | some colon => (find ['t', 'r', 'u', 'e'] colon).isSome

/-- `getFileInfo`, given what the download leaves in the buffer and returns: the attributes where
it returns true, nothing where it returns false. -/
def getFileInfo (r : Bytes × ℤ) : Except Thrown (Option Attributes) :=
  if r.2 < 0 then .ok none
  else (infoSize (received r)).map fun size => some ⟨infoIsDirectory (received r), size⟩

/-! ### Keys in names -/

variable {w : Str} {tail : Str}

/-- A word without quotes and backslashes that ends at a quote of the text of a name is the whole
text. -/
theorem escaped_eq_of_prefix {s : Text} (unquoted : quote ∉ w) (unescaped : backslash ∉ w)
    (stands : w ++ [quote] <+: escaped s ++ quote :: tail) : escaped s = w := by
  induction s generalizing w with
  | nil =>
    cases w with
    | nil => rfl
    | cons c w =>
      obtain ⟨same, _⟩ := List.cons_prefix_cons.mp stands
      exact absurd (same ▸ List.mem_cons_self) unquoted
  | cons c s ih =>
    rw [escaped, List.flatMap_cons] at stands ⊢
    rcases escape_cases c with ⟨plain, same⟩ | ⟨_, escapes⟩
    · rw [same] at stands ⊢
      cases w with
      | nil =>
        obtain ⟨isQuote, _⟩ := List.cons_prefix_cons.mp stands
        exact absurd (quote_mem_escape (by rw [same, isQuote]; exact List.mem_cons_self))
          plain.2.2.1
      | cons d w =>
        rw [List.mem_cons, not_or] at unquoted unescaped
        obtain ⟨letter, rest⟩ := List.cons_prefix_cons.mp stands
        rw [letter, List.singleton_append, ← escaped, ih unquoted.2 unescaped.2 rest]
    · obtain ⟨x, rest, same⟩ := escapes.begins
      rw [same] at stands
      cases w with
      | nil =>
        obtain ⟨isSlash, _⟩ := List.cons_prefix_cons.mp stands
        exact absurd isSlash (by decide)
      | cons d w =>
        obtain ⟨isSlash, _⟩ := List.cons_prefix_cons.mp stands
        exact absurd (isSlash ▸ List.mem_cons_self) unescaped

/-- At a quote before the rest of a name there is the key only if it ends with the name. -/
theorem find_at_quote {n : Char} (unquoted : quote ∉ n :: w) (unescaped : backslash ∉ n :: w)
    (s : Text) :
    find (quote :: n :: (w ++ [quote])) (quote :: (escaped s ++ quote :: tail)) =
        some (quote :: n :: (w ++ [quote]) ++ tail) ∨
      find (quote :: n :: (w ++ [quote])) (quote :: (escaped s ++ quote :: tail)) =
        find (quote :: n :: (w ++ [quote])) (escaped s ++ quote :: tail) := by
  by_cases stands : quote :: n :: (w ++ [quote]) <+: quote :: (escaped s ++ quote :: tail)
  · left
    have name : escaped s = n :: w :=
      escaped_eq_of_prefix unquoted unescaped (List.cons_prefix_cons.mp stands).2
    have text : quote :: (escaped s ++ quote :: tail) = quote :: n :: (w ++ [quote]) ++ tail := by
      rw [name]
      simp only [List.cons_append, List.append_assoc, List.nil_append]
    rw [find_here stands, text]
  · right
    rw [find, if_neg stands]

/-- In the text of a name there is the key only if it ends with the name. -/
theorem find_in_name {n : Char} (unquoted : quote ∉ n :: w) (unescaped : backslash ∉ n :: w)
    (other : n ≠ ',') (s : Text) :
    find (quote :: n :: (w ++ [quote])) (escaped s ++ quote :: ',' :: tail) =
        some (quote :: n :: (w ++ [quote]) ++ ',' :: tail) ∨
      find (quote :: n :: (w ++ [quote])) (escaped s ++ quote :: ',' :: tail) =
        find (quote :: n :: (w ++ [quote])) tail := by
  induction s with
  | nil =>
    right
    calc find (quote :: n :: (w ++ [quote])) (quote :: ',' :: tail)
        = find (quote :: n :: (w ++ [quote])) (',' :: tail) := find_second_ne other.symm
      _ = find (quote :: n :: (w ++ [quote])) tail := find_cons_ne (by decide)
  | cons c s ih =>
    rw [escaped, List.flatMap_cons, List.append_assoc, ← escaped]
    by_cases isQuote : c = 34
    · subst isQuote
      have step : find (quote :: n :: (w ++ [quote]))
          (escape 34 ++ (escaped s ++ quote :: ',' :: tail)) =
          find (quote :: n :: (w ++ [quote])) (quote :: (escaped s ++ quote :: ',' :: tail)) :=
        find_cons_ne (by decide)
      rw [step]
      rcases find_at_quote unquoted unescaped s with here | later
      · exact .inl here
      · rwa [later]
    · have absent : quote ∉ escape c := fun member => isQuote (quote_mem_escape member)
      rwa [find_append_ne absent]

/-- The letters of a key that is neither that of the name nor mistaken for what surrounds it. -/
structure KeyLetters (n : Char) (w : Str) : Prop where
  unquoted : quote ∉ n :: w
  unescaped : backslash ∉ n :: w
  uncolon : ':' ∉ n :: w
  first : n ≠ 'n' ∧ n ≠ ','

/-- A key is looked for after the name. Where the name ends with it, the colon is. -/
theorem afterKey_json {n : Char} (letters : KeyLetters n w) (info : FileInfo) :
    afterKey (quote :: n :: (w ++ [quote])) (dumps info.json) = find [':'] (nameTail info) ∨
      afterKey (quote :: n :: (w ++ [quote])) (dumps info.json) =
        afterKey (quote :: n :: (w ++ [quote])) (nameTail info) := by
  obtain ⟨unquoted, unescaped, uncolon, other, comma⟩ := letters
  obtain ⟨tail, ends⟩ : ∃ tail, nameTail info = ',' :: tail := ⟨_, rfl⟩
  have colon : n ≠ ':' := fun same => uncolon (same ▸ List.mem_cons_self)
  have start : find (quote :: n :: (w ++ [quote])) (dumps info.json) =
      find (quote :: n :: (w ++ [quote]))
        (quote :: (escaped info.name ++ quote :: ',' :: tail)) := by
    calc find (quote :: n :: (w ++ [quote])) (dumps info.json)
        = find (quote :: n :: (w ++ [quote])) ('\x7b' :: quote :: 'n' :: (['a', 'm', 'e'] ++
            quote :: ':' :: ' ' :: quote :: (escaped info.name ++ quote :: ',' :: tail))) := by
          rw [dumps_json, ends, nameHead]
          simp only [quote, List.cons_append, List.nil_append, List.append_assoc]
      _ = find (quote :: n :: (w ++ [quote])) (['n', 'a', 'm', 'e'] ++
            quote :: ':' :: ' ' :: quote :: (escaped info.name ++ quote :: ',' :: tail)) := by
          rw [find_cons_ne (by decide), find_second_ne other.symm]
          rfl
      _ = _ := by
          rw [find_append_ne (by decide), find_second_ne colon.symm, find_cons_ne (by decide),
            find_cons_ne (by decide)]
  have whole : ∀ found, found = some (quote :: n :: (w ++ [quote]) ++ ',' :: tail) →
      found.bind (find [':']) = find [':'] (nameTail info) := by
    rintro _ rfl
    have none : ':' ∉ quote :: n :: (w ++ [quote]) := by
      simp only [List.mem_cons, List.mem_append, List.not_mem_nil, or_false, not_or] at uncolon ⊢
      exact ⟨by decide, uncolon.1, uncolon.2, by decide⟩
    rw [Option.bind_some, find_append_ne none, ends]
  rw [afterKey, start]
  rcases find_at_quote unquoted unescaped info.name with here | later
  · exact .inl (whole _ here)
  · rw [later]
    rcases find_in_name unquoted unescaped comma info.name with here | after
    · exact .inl (whole _ here)
    · right
      rw [after, afterKey, ends, find_cons_ne (by decide)]

/-! ### The fields -/

/-- What is after the size. -/
def sizeTail (info : FileInfo) : Str :=
  [',', ' ', '"', 'm', 't', 'i', 'm', 'e', '"', ':', ' '] ++ (Python.str info.mtime ++
    ([',', ' '] ++ (directoryKey ++ ([':', ' '] ++ (dumpsBool info.isDirectory ++ ['\x7d'])))))

theorem nameTail_eq (info : FileInfo) : nameTail info =
    [',', ' '] ++ (sizeKey ++ (':' :: ' ' :: (Python.str info.size ++ sizeTail info))) := by
  simp only [nameTail, sizeTail, sizeKey, directoryKey, List.cons_append, List.nil_append]

theorem first_colon (info : FileInfo) : find [':'] (nameTail info) =
    some (':' :: ' ' :: (Python.str info.size ++ sizeTail info)) := by
  rw [nameTail_eq, ← List.append_assoc]
  exact find_letter (by decide)

/-- The colon after the size key. -/
theorem afterKey_size (info : FileInfo) : afterKey sizeKey (dumps info.json) =
    some (':' :: ' ' :: (Python.str info.size ++ sizeTail info)) := by
  have letters : KeyLetters 's' ['i', 'z', 'e'] := ⟨by decide, by decide, by decide, by decide⟩
  rcases afterKey_json letters info with name | field
  · exact name.trans (first_colon info)
  · have spaces : Quiet sizeKey [',', ' '] := quiet_of_absent (by decide)
    have key : find sizeKey (nameTail info) =
        some (sizeKey ++ (':' :: ' ' :: (Python.str info.size ++ sizeTail info))) := by
      rw [nameTail_eq, spaces]
      exact find_here (List.prefix_append _ _)
    refine field.trans ?_
    calc afterKey sizeKey (nameTail info)
        = find [':'] (sizeKey ++ (':' :: ' ' :: (Python.str info.size ++ sizeTail info))) := by
          rw [afterKey, key, Option.bind_some]
      _ = _ := find_letter (by decide)

/-- There is `true` in the answer for a directory only. -/
theorem find_true {gap : Str} (quiet : Quiet ['t', 'r', 'u', 'e'] gap) (kind : Bool) :
    (find ['t', 'r', 'u', 'e'] (gap ++ (dumpsBool kind ++ ['\x7d']))).isSome = kind := by
  rw [quiet]
  cases kind <;> decide

/-- The texts between the size and the kind, up to the key and past it. -/
theorem quiet_fields (info : FileInfo) :
    (∃ gap, Quiet directoryKey gap ∧ nameTail info =
      gap ++ (directoryKey ++ (':' :: ' ' :: (dumpsBool info.isDirectory ++ ['\x7d'])))) ∧
    ∃ gap, Quiet ['t', 'r', 'u', 'e'] gap ∧ ':' :: ' ' :: (Python.str info.size ++ sizeTail info) =
      gap ++ (dumpsBool info.isDirectory ++ ['\x7d']) := by
  constructor
  · have size : Quiet directoryKey [',', ' ', '"', 's', 'i', 'z', 'e', '"', ':', ' '] :=
      quiet_key (by decide) 's' ['i', 'z', 'e'] (by decide) (by decide)
    have mtime : Quiet directoryKey [',', ' ', '"', 'm', 't', 'i', 'm', 'e', '"', ':', ' '] :=
      quiet_key (by decide) 'm' ['t', 'i', 'm', 'e'] (by decide) (by decide)
    have number (n : ℤ) : Quiet directoryKey (Python.str n) := quiet_number (by decide) _ n
    have spaces : Quiet directoryKey [',', ' '] := quiet_of_absent (by decide)
    refine ⟨_, size.append ((number info.size).append (mtime.append
      ((number info.mtime).append spaces))), ?_⟩
    simp only [nameTail, directoryKey, List.cons_append, List.nil_append, List.append_assoc]
  · have number (n : ℤ) : Quiet ['t', 'r', 'u', 'e'] (Python.str n) := quiet_number (by decide) _ n
    have start : Quiet ['t', 'r', 'u', 'e'] [':', ' '] := quiet_of_absent (by decide)
    have mtime : Quiet ['t', 'r', 'u', 'e']
        ([',', ' ', '"', 'm'] ++ ['t', 'i', 'm', 'e', '"', ':', ' ']) :=
      (quiet_of_absent (by decide)).append (quiet_second (by decide) (by decide))
    have directory : Quiet ['t', 'r', 'u', 'e'] ([',', ' ', '"', 'i', 's', '_', 'd', 'i', 'r', 'e',
        'c'] ++ ['t', 'o', 'r', 'y', '"', ':', ' ']) :=
      (quiet_of_absent (by decide)).append (quiet_second (by decide) (by decide))
    refine ⟨_, start.append ((number info.size).append (mtime.append
      ((number info.mtime).append directory))), ?_⟩
    simp only [sizeTail, directoryKey, List.cons_append, List.nil_append, List.append_assoc]

theorem infoIsDirectory_json (info : FileInfo) :
    infoIsDirectory (dumps info.json) = info.isDirectory := by
  have letters : KeyLetters 'i' ['s', '_', 'd', 'i', 'r', 'e', 'c', 't', 'o', 'r', 'y'] :=
    ⟨by decide, by decide, by decide, by decide⟩
  obtain ⟨⟨before, keyless, atKey⟩, after, trueless, atKind⟩ := quiet_fields info
  rcases afterKey_json letters info with name | field
  · have colon : afterKey directoryKey (dumps info.json) =
        some (after ++ (dumpsBool info.isDirectory ++ ['\x7d'])) := by
      rw [← atKind]
      exact name.trans (first_colon info)
    rw [infoIsDirectory, colon]
    exact find_true trueless _
  · have colon : afterKey directoryKey (dumps info.json) =
        some ([':', ' '] ++ (dumpsBool info.isDirectory ++ ['\x7d'])) := by
      refine field.trans ?_
      calc afterKey directoryKey (nameTail info)
          = find [':'] (directoryKey ++
              (':' :: ' ' :: (dumpsBool info.isDirectory ++ ['\x7d']))) := by
            rw [afterKey, atKey, keyless, find_here (List.prefix_append _ _), Option.bind_some]
        _ = _ := find_letter (by decide)
    rw [infoIsDirectory, colon]
    exact find_true (quiet_of_absent (by decide)) _

/-- The digits of the size are read. -/
theorem infoSize_json (info : FileInfo) :
    infoSize (dumps info.json) = stoi (Nat.toDigits 10 info.size) := by
  have number : Python.str info.size = Nat.toDigits 10 info.size := Python.str_natCast info.size
  have digits : ∀ c ∈ Nat.toDigits 10 info.size, c.isDigit = true := fun c member =>
    Python.digit_of_mem member
  obtain ⟨d, ds, shape⟩ := List.exists_cons_of_ne_nil
    (Nat.toDigits_ne_nil : Nat.toDigits 10 info.size ≠ [])
  have first : d.isDigit = true := digits d (shape ▸ List.mem_cons_self)
  have skipped : ((' ' :: (Python.str info.size ++ sizeTail info)).dropWhile fun c => !c.isDigit) =
      Nat.toDigits 10 info.size ++ sizeTail info := by
    rw [number, shape, List.dropWhile_cons_of_pos (by decide), List.cons_append,
      List.dropWhile_cons_of_neg (by rw [first]; decide)]
  rw [infoSize, afterKey_size]
  simp only [List.drop_one, List.tail_cons]
  rw [skipped, List.takeWhile_append_of_pos digits]
  have ends : (sizeTail info).takeWhile Char.isDigit = [] := rfl
  rw [ends, List.append_nil]

theorem stoi_toDigits (n : ℕ) :
    stoi (Nat.toDigits 10 n) = if n ≤ 2 ^ 31 - 1 then .ok n else .error .outOfRange := by
  rw [stoi, if_neg Nat.toDigits_ne_nil, numeralVal_toDigits (by decide) (by decide)]

/-- What `getFileInfo` makes of an answer that fits into its buffer. -/
theorem getFileInfo_response (path : Text) (st : Stat) (fits : (infoResponse path st).length ≤ 1024)
    {transfer : Transfer} (ok : transfer.ok = true) (success : transfer.code = 200)
    (body : Blob.concat transfer.chunks = asciiBytes (infoResponse path st)) (buffer : Bytes) :
    getFileInfo (download transfer buffer 1024) =
      if (LocalServer.getFileInfo path st).size ≤ 2 ^ 31 - 1 then
        .ok (some ⟨st.isDir, (LocalServer.getFileInfo path st).size⟩)
      else .error .outOfRange := by
  have counted : ¬(download transfer buffer 1024).2 < 0 := by
    rw [download_eq, ok, success]
    exact not_lt.mpr (Int.natCast_nonneg _)
  have whole : (dumps (LocalServer.getFileInfo path st).json).take 1024 =
      dumps (LocalServer.getFileInfo path st).json := List.take_of_length_le fits
  rw [getFileInfo, if_neg counted, received_download _ ok success body, whole, infoSize_json,
    infoIsDirectory_json, stoi_toDigits]
  split <;> rfl

/-- The attributes come back exactly for directories and for files whose size is an `int`. -/
theorem attributes_survive_iff (path : Text) (st : Stat)
    (fits : (infoResponse path st).length ≤ 1024) {transfer : Transfer} (ok : transfer.ok = true)
    (success : transfer.code = 200)
    (body : Blob.concat transfer.chunks = asciiBytes (infoResponse path st)) (buffer : Bytes) :
    getFileInfo (download transfer buffer 1024) =
        .ok (some ⟨(LocalServer.getFileInfo path st).isDirectory,
          (LocalServer.getFileInfo path st).size⟩) ↔
      st.isDir = true ∨ st.size ≤ 2 ^ 31 - 1 := by
  have range : (LocalServer.getFileInfo path st).size ≤ 2 ^ 31 - 1 ↔
      st.isDir = true ∨ st.size ≤ 2 ^ 31 - 1 := by
    rw [LocalServer.getFileInfo]
    cases st.isDir <;> simp
  rw [getFileInfo_response path st fits ok success body, ← range]
  split
  next small => exact ⟨fun _ => small, fun _ => rfl⟩
  next large =>
    constructor
    · intro same
      cases same
    · intro small
      exact absurd small large

theorem attributes_survive_sample :
    let st : Stat := ⟨5, 0, false⟩
    getFileInfo (download ⟨true, 200, [asciiBytes (infoResponse [47, 102] st)]⟩ .empty 1024) =
        .ok (some ⟨(LocalServer.getFileInfo [47, 102] st).isDirectory,
          (LocalServer.getFileInfo [47, 102] st).size⟩) ↔
      st.isDir = true ∨ st.size ≤ 2 ^ 31 - 1 :=
  attributes_survive_iff [47, 102] ⟨5, 0, false⟩ (by decide) rfl rfl (Blob.concat_singleton _) _

/-- A file of two gigabytes. -/
def twoGigabytes : Stat := ⟨2 ^ 31, 0, false⟩

theorem two_gigabytes_throw :
    (infoResponse [47, 102] twoGigabytes).length ≤ 1024 ∧ twoGigabytes.size < 2 ^ 63 ∧
      getFileInfo (download ⟨true, 200, [asciiBytes (infoResponse [47, 102] twoGigabytes)]⟩
        .empty 1024) = .error .outOfRange := by
  have fits : (infoResponse [47, 102] twoGigabytes).length ≤ 1024 := by decide +kernel
  refine ⟨fits, by decide, ?_⟩
  rw [getFileInfo_response _ _ fits rfl rfl (Blob.concat_singleton _), if_neg (by decide)]

end Fuse

end RemoteCache
