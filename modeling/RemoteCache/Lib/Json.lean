import RemoteCache.Lib.Python

/-!
# JSON texts as Python writes them

`json.dumps` with its default settings: items are separated by a comma and a
blank, and every letter that is not printable ASCII is escaped. A Python string
is a list of code points, which may be lone surrogates.
-/
namespace RemoteCache

/-- The code points of a `str`. -/
abbrev Text := List ℕ

def text (s : Str) : Text := s.map Char.toNat

inductive Json where
  | str (s : Text)
  | int (n : ℤ)
  | bool (b : Bool)
  | list (items : List Json)
  | dict (fields : List (Text × Json))

namespace Json

def quote : Char := '"'

def backslash : Char := '\\'

def hexEscape (n : ℕ) : Str := backslash :: 'u' :: padded 16 4 n

/-- `py_encode_basestring_ascii`, letter by letter. -/
def escape (c : ℕ) : Str :=
  if c = 34 then [backslash, quote]
  else if c = 92 then [backslash, backslash]
  else if c = 10 then [backslash, 'n']
  else if c = 13 then [backslash, 'r']
  else if c = 9 then [backslash, 't']
  else if c = 12 then [backslash, 'f']
  else if c = 8 then [backslash, 'b']
  else if 32 ≤ c ∧ c ≤ 126 then [Char.ofNat c]
  else if c < 0x10000 then hexEscape c
  -- A surrogate pair.
  else hexEscape (0xd800 ||| (((c - 0x10000) >>> 10) &&& 0x3ff)) ++
    hexEscape (0xdc00 ||| ((c - 0x10000) &&& 0x3ff))

def escaped (s : Text) : Str := s.flatMap escape

def dumpsStr (s : Text) : Str := quote :: (escaped s ++ [quote])

def dumpsBool (b : Bool) : Str := if b then ['t', 'r', 'u', 'e'] else ['f', 'a', 'l', 's', 'e']

def separator : Str := [',', ' ']

mutual

/-- `json.dumps` -/
def dumps : Json → Str
  | str s => dumpsStr s
  | int n => Python.str n
  | bool b => dumpsBool b
  | list items => '[' :: (dumpsItems items ++ [']'])
  | dict fields => '{' :: (dumpsFields fields ++ ['}'])

def dumpsItems : List Json → Str
  | [] => []
  | [item] => dumps item
  | item :: items => dumps item ++ separator ++ dumpsItems items

def dumpsFields : List (Text × Json) → Str
  | [] => []
  | [(key, value)] => dumpsStr key ++ [':', ' '] ++ dumps value
  | (key, value) :: fields =>
    dumpsStr key ++ [':', ' '] ++ dumps value ++ separator ++ dumpsFields fields

end

/-- A printable ASCII character. -/
def Printable (c : Char) : Prop := 32 ≤ c.toNat ∧ c.toNat ≤ 126

instance (c : Char) : Decidable (Printable c) := inferInstanceAs (Decidable (_ ∧ _))

/-! ### Escapes -/

theorem hexDigit_plain {c : Char} (digit : IsHexDigit c) : Printable c ∧ c ≠ quote := by
  obtain ⟨d, small, rfl⟩ := digit
  interval_cases d <;> decide

theorem hexEscape_plain {n : ℕ} {c : Char} (member : c ∈ hexEscape n) :
    Printable c ∧ c ≠ quote := by
  rw [hexEscape, List.mem_cons, List.mem_cons] at member
  rcases member with rfl | rfl | digit
  · decide
  · decide
  · exact hexDigit_plain (isHexDigit_of_mem_padded digit)

theorem toNat_ofNat_small {c : ℕ} (small : c ≤ 126) : (Char.ofNat c).toNat = c := by
  have valid : c.isValidChar := .inl (by omega)
  have eq : Char.ofNat c = Char.ofNatAux c valid := dif_pos valid
  rw [eq]
  rfl

/-- A letter that is written as it is. -/
def Plain (c : ℕ) : Prop := 32 ≤ c ∧ c ≤ 126 ∧ c ≠ 34 ∧ c ≠ 92

instance (c : ℕ) : Decidable (Plain c) := inferInstanceAs (Decidable (_ ∧ _))

theorem printable_pair {a b : Char} (first : Printable a) (second : Printable b) :
    ∀ c ∈ [a, b], Printable c := by
  intro c member
  rcases List.mem_pair.mp member with rfl | rfl
  · exact first
  · exact second

/-- How a letter that is not plain is written. -/
structure Escapes (c : ℕ) (w : Str) : Prop where
  begins : ∃ x rest, w = backslash :: x :: rest
  printable : ∀ x ∈ w, Printable x
  quoted : quote ∈ w → c = 34

theorem Escapes.pair {letter : Char} (printable : Printable letter) (other : letter ≠ quote)
    (c : ℕ) : Escapes c [backslash, letter] where
  begins := ⟨letter, [], rfl⟩
  printable := printable_pair (by decide) printable
  quoted member := by
    rcases List.mem_pair.mp member with same | same
    · exact absurd same (by decide)
    · exact absurd same.symm other

theorem Escapes.hex (c n : ℕ) : Escapes c (hexEscape n) where
  begins := ⟨_, _, rfl⟩
  printable _ member := (hexEscape_plain member).1
  quoted member := absurd rfl (hexEscape_plain member).2

theorem Escapes.append {c : ℕ} {a b : Str} (first : Escapes c a) (second : Escapes c b) :
    Escapes c (a ++ b) where
  begins := by
    obtain ⟨x, rest, rfl⟩ := first.begins
    exact ⟨x, rest ++ b, rfl⟩
  printable x member := (List.mem_append.mp member).elim (first.printable x) (second.printable x)
  quoted member := (List.mem_append.mp member).elim first.quoted second.quoted

theorem Escapes.ite {c : ℕ} {p : Prop} [Decidable p] {a b : Str} (yes : p → Escapes c a)
    (no : ¬p → Escapes c b) : Escapes c (if p then a else b) := by
  split
  next holds => exact yes holds
  next fails => exact no fails

theorem escape_cases (c : ℕ) :
    (Plain c ∧ escape c = [Char.ofNat c]) ∨ (¬Plain c ∧ Escapes c (escape c)) := by
  by_cases plain : Plain c
  · obtain ⟨low, high, noQuote, noSlash⟩ := id plain
    left
    rw [escape, if_neg noQuote, if_neg noSlash, if_neg (by omega), if_neg (by omega),
      if_neg (by omega), if_neg (by omega), if_neg (by omega), if_pos ⟨low, high⟩]
    exact ⟨plain, rfl⟩
  · refine .inr ⟨plain, ?_⟩
    rw [escape]
    apply Escapes.ite
    · intro isQuote
      exact ⟨⟨quote, [], rfl⟩, printable_pair (by decide) (by decide), fun _ => isQuote⟩
    intro noQuote
    apply Escapes.ite fun _ => .pair (by decide) (by decide) c
    intro noSlash
    apply Escapes.ite fun _ => .pair (by decide) (by decide) c
    intro _
    apply Escapes.ite fun _ => .pair (by decide) (by decide) c
    intro _
    apply Escapes.ite fun _ => .pair (by decide) (by decide) c
    intro _
    apply Escapes.ite fun _ => .pair (by decide) (by decide) c
    intro _
    apply Escapes.ite fun _ => .pair (by decide) (by decide) c
    intro _
    apply Escapes.ite
    · intro isPrintable
      exact absurd ⟨isPrintable.1, isPrintable.2, noQuote, noSlash⟩ plain
    intro _
    apply Escapes.ite fun _ => .hex c c
    intro _
    exact (Escapes.hex c _).append (.hex c _)

theorem printable_escape {n : ℕ} {c : Char} (member : c ∈ escape n) : Printable c := by
  rcases escape_cases n with ⟨plain, same⟩ | ⟨_, escapes⟩
  · rw [same, List.mem_singleton] at member
    rw [member, Printable, toNat_ofNat_small plain.2.1]
    exact ⟨plain.1, plain.2.1⟩
  · exact escapes.printable c member

theorem quote_mem_escape {n : ℕ} (member : quote ∈ escape n) : n = 34 := by
  rcases escape_cases n with ⟨plain, same⟩ | ⟨_, escapes⟩
  · rw [same, List.mem_singleton] at member
    rw [← toNat_ofNat_small plain.2.1, ← member]
    rfl
  · exact escapes.quoted member

theorem printable_escaped {s : Text} {c : Char} (member : c ∈ escaped s) : Printable c := by
  obtain ⟨n, _, here⟩ := List.mem_flatMap.mp member
  exact printable_escape here

theorem quote_notMem_escaped {s : Text} (absent : 34 ∉ s) : quote ∉ escaped s := by
  intro member
  obtain ⟨n, there, here⟩ := List.mem_flatMap.mp member
  exact absent (quote_mem_escape here ▸ there)

theorem length_le_escaped (s : Text) : s.length ≤ (escaped s).length := by
  induction s with
  | nil => exact Nat.zero_le _
  | cons c s ih =>
    rw [escaped, List.flatMap_cons, List.length_append, List.length_cons, ← escaped]
    rcases escape_cases c with ⟨_, same⟩ | ⟨_, escapes⟩
    · rw [same, List.length_singleton]
      omega
    · obtain ⟨x, rest, same⟩ := escapes.begins
      rw [same, List.length_cons, List.length_cons]
      omega

/-- Only texts of plain letters are written with as many letters as they have. -/
theorem plain_of_length {s : Text} (same : (escaped s).length = s.length) : ∀ c ∈ s, Plain c := by
  induction s with
  | nil => simp
  | cons c s ih =>
    have more := length_le_escaped s
    rw [escaped, List.flatMap_cons, List.length_append, List.length_cons, ← escaped] at same
    rcases escape_cases c with ⟨plain, here⟩ | ⟨_, escapes⟩
    · rw [here, List.length_singleton] at same
      exact List.forall_mem_cons.mpr ⟨plain, ih (by omega)⟩
    · obtain ⟨x, rest, here⟩ := escapes.begins
      rw [here, List.length_cons, List.length_cons] at same
      omega

theorem text_escaped {s : Text} (plain : ∀ c ∈ s, Plain c) : text (escaped s) = s := by
  induction s with
  | nil => rfl
  | cons c s ih =>
    obtain ⟨first, rest⟩ := List.forall_mem_cons.mp plain
    rcases escape_cases c with ⟨_, here⟩ | ⟨other, _⟩
    · rw [escaped, List.flatMap_cons, here, List.singleton_append, text, List.map_cons,
        toNat_ofNat_small first.2.1]
      exact congrArg _ (ih rest)
    · exact absurd first other

/-! ### Whole texts -/

theorem str_letter (n : ℤ) {c : Char} (member : c ∈ Python.str n) :
    c = '-' ∨ ∃ d < 10, c = d.digitChar := by
  unfold Python.str at member
  split at member
  · rcases List.mem_cons.mp member with sign | digit
    · exact .inl sign
    · exact .inr (mem_toDigits (by decide) _ digit)
  · exact .inr (mem_toDigits (by decide) _ member)

theorem printable_str (n : ℤ) {c : Char} (member : c ∈ Python.str n) : Printable c := by
  rcases str_letter n member with rfl | ⟨d, small, same⟩
  · decide
  · exact (hexDigit_plain ⟨d, by omega, same⟩).1

theorem printable_dumpsStr (s : Text) {c : Char} (member : c ∈ dumpsStr s) : Printable c := by
  rw [dumpsStr, List.mem_cons, List.mem_append, List.mem_singleton] at member
  rcases member with rfl | here | rfl
  · decide
  · exact printable_escaped here
  · decide

theorem printable_dumpsBool (b : Bool) {c : Char} (member : c ∈ dumpsBool b) : Printable c := by
  cases b
  · simp only [dumpsBool, Bool.false_eq_true, if_false, List.mem_cons, List.not_mem_nil,
      or_false] at member
    rcases member with rfl | rfl | rfl | rfl | rfl <;> decide
  · simp only [dumpsBool, if_true, List.mem_cons, List.not_mem_nil, or_false] at member
    rcases member with rfl | rfl | rfl | rfl <;> decide

mutual

/-- Every text that `dumps` writes is printable ASCII. -/
theorem printable_dumps : ∀ (j : Json), ∀ c ∈ dumps j, Printable c
  | str s, c, member => printable_dumpsStr s (by rwa [dumps] at member)
  | int n, c, member => printable_str n (by rwa [dumps] at member)
  | bool b, c, member => by
    rw [dumps] at member
    exact printable_dumpsBool b member
  | list items, c, member => by
    rw [dumps, List.mem_cons, List.mem_append, List.mem_singleton] at member
    rcases member with rfl | here | rfl
    · decide
    · exact printable_dumpsItems items c here
    · decide
  | dict fields, c, member => by
    rw [dumps, List.mem_cons, List.mem_append, List.mem_singleton] at member
    rcases member with rfl | here | rfl
    · decide
    · exact printable_dumpsFields fields c here
    · decide

theorem printable_dumpsItems : ∀ (items : List Json), ∀ c ∈ dumpsItems items, Printable c
  | [], c, member => by simp [dumpsItems] at member
  | [item], c, member => printable_dumps item c (by rwa [dumpsItems] at member)
  | item :: next :: items, c, member => by
    rw [dumpsItems, List.mem_append, List.mem_append] at member
    rcases member with (here | between) | rest
    · exact printable_dumps item c here
    · exact printable_pair (by decide) (by decide) c between
    · exact printable_dumpsItems (next :: items) c rest
    · simp

theorem printable_dumpsFields :
    ∀ (fields : List (Text × Json)), ∀ c ∈ dumpsFields fields, Printable c
  | [], c, member => by simp [dumpsFields] at member
  | [(key, value)], c, member => by
    rw [dumpsFields, List.mem_append, List.mem_append] at member
    rcases member with (name | between) | here
    · exact printable_dumpsStr key name
    · exact printable_pair (by decide) (by decide) c between
    · exact printable_dumps value c here
  | (key, value) :: next :: fields, c, member => by
    rw [dumpsFields, List.mem_append, List.mem_append, List.mem_append, List.mem_append] at member
    rcases member with (((name | between) | here) | between) | rest
    · exact printable_dumpsStr key name
    · exact printable_pair (by decide) (by decide) c between
    · exact printable_dumps value c here
    · exact printable_pair (by decide) (by decide) c between
    · exact printable_dumpsFields (next :: fields) c rest
    · simp

end

end Json

end RemoteCache
