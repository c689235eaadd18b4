import RemoteCache.Fuse.Responses
import RemoteCache.Server.FileInfo
import Mathlib.Algebra.Order.BigOperators.Group.Finset

/-!
# Directory listings

`findJsonNames` looks for the names in a JSON text without parsing it, and
`readDirectory` gives it the first 64 kilobytes of the answer of the server. The
names come back exactly when none of them had to be escaped and the last one
ends within the buffer.
-/
namespace RemoteCache

open Json LocalServer

namespace Fuse

/-- `isspace` -/
def isSpace (c : Char) : Bool := c = ' ' || (9 ≤ c.toNat && c.toNat ≤ 13)

def nameKey : Str := ['"', 'n', 'a', 'm', 'e', '"']

/-- Where the value of the next name begins, after the colon. -/
def nameValue (json : Str) : Option Str :=
  match find nameKey json with
  | none => none
  | some key =>
    match find [':'] key with
    | none => none
    | some colon => some ((colon.drop 1).dropWhile isSpace)

/-- One pass of the loop in `findJsonNames`: the name that it inserts, if any, and where it goes
on. There is nothing where the loop ends. -/
def namePass (json : Str) : Option (Option Str × Str) :=
  match nameValue json with
  | none => none
  | some [] => some (none, [])
  | some (c :: start) =>
    if c ≠ quote then some (none, c :: start)
    else
      match find [quote] start with
      | none => none
      | some close => some (some (start.take (start.length - close.length)), close.drop 1)

def insertNames : ℕ → Str → Finset Str → Finset Str
  | 0, _, out => out
  | fuel + 1, json, out =>
    match namePass json with
    | none => out
    | some (none, rest) => insertNames fuel rest out
    | some (some name, rest) => insertNames fuel rest (insert name out)

/-- Every pass moves on, so there are fewer passes than letters. -/
def findJsonNames (json : Str) (out : Finset Str) : Finset Str :=
  insertNames (json.length + 1) json out

/-- The names that `readDirectory` takes from an answer. -/
def listedNames (json : Str) : Finset Str := findJsonNames (json.take (64 * 1024)) ∅

/-! ### One pass -/

/-- The value follows the first colon after the key and the blanks after that colon. -/
theorem nameValue_eq {json value : Str} (found : nameValue json = some value) :
    ∃ front gap blanks, json = front ++ (nameKey ++ (gap ++ ':' :: (blanks ++ value))) ∧
      ':' ∉ gap ∧ ∀ c ∈ blanks, isSpace c = true := by
  unfold nameValue at found
  split at found
  · cases found
  next key atKey =>
    split at found
    · cases found
    next colon atColon =>
      cases found
      obtain ⟨⟨front, rfl⟩, after, rfl⟩ := find_sound atKey
      obtain ⟨before, rest, rfl, absent, same⟩ := find_letter_eq atColon
      -- The key has no colon, so it ends before the first one.
      have key : nameKey <+: before := by
        rcases List.prefix_or_prefix_of_prefix (same ▸ List.prefix_append nameKey after)
          (List.prefix_append before _) with short | long
        · exact short
        · obtain ⟨_ | ⟨c, tail⟩, whole⟩ := long
          · exact ⟨[], by rw [List.append_nil] at whole ⊢; exact whole.symm⟩
          · rw [← whole, List.append_assoc, List.append_cancel_left_eq] at same
            obtain ⟨rfl, _⟩ := List.cons.inj same
            have member : ':' ∈ nameKey := by
              rw [← whole]
              simp
            exact absurd member (by decide)
      obtain ⟨gap, rfl⟩ := key
      refine ⟨front, gap, rest.takeWhile isSpace, ?_, fun inside => absent ?_, ?_⟩
      · rw [same, List.append_assoc, List.drop_one, List.tail_cons, List.takeWhile_append_dropWhile]
      · exact List.mem_append_right _ inside
      · exact fun c blank => List.mem_takeWhile_imp blank

theorem nameValue_later {json value : Str} (found : nameValue json = some value) :
    value <:+ json ∧ value.length < json.length := by
  obtain ⟨front, gap, blanks, rfl, _⟩ := nameValue_eq found
  constructor
  · exact ⟨front ++ (nameKey ++ (gap ++ ':' :: blanks)), by simp⟩
  · simp only [List.length_append, List.length_cons]
    omega

/-- A name in a text: what stands in quotes, after blanks, behind the first colon after a key. -/
def Named (json name : Str) : Prop :=
  ∃ front gap blanks rest,
    json = front ++ (nameKey ++ (gap ++ ':' :: (blanks ++ quote :: (name ++ quote :: rest)))) ∧
      ':' ∉ gap ∧ (∀ c ∈ blanks, isSpace c = true) ∧ quote ∉ name

theorem Named.mono {json rest name : Str} (named : Named rest name) (later : rest <:+ json) :
    Named json name := by
  obtain ⟨before, rfl⟩ := later
  obtain ⟨front, gap, blanks, after, rfl, shape⟩ := named
  exact ⟨before ++ front, gap, blanks, after, (List.append_assoc _ _ _).symm, shape⟩

theorem Named.inside {json name : Str} (named : Named json name) : name <:+: json := by
  obtain ⟨front, gap, blanks, rest, rfl, _⟩ := named
  refine ⟨front ++ (nameKey ++ (gap ++ ':' :: (blanks ++ [quote]))), quote :: rest, ?_⟩
  simp only [List.append_assoc, List.cons_append, List.nil_append]

/-- A pass moves on, and inserts only what is named. -/
theorem namePass_sound {json rest : Str} {name : Option Str}
    (pass : namePass json = some (name, rest)) :
    rest <:+ json ∧ rest.length < json.length ∧ ∀ s ∈ name, Named json s := by
  unfold namePass at pass
  split at pass
  · cases pass
  next found =>
    cases pass
    obtain ⟨later, shorter⟩ := nameValue_later found
    exact ⟨later, shorter, by simp⟩
  next c start found =>
    obtain ⟨later, shorter⟩ := nameValue_later found
    split at pass
    · cases pass
      exact ⟨later, shorter, by simp⟩
    next isQuote =>
      split at pass
      · cases pass
      next close atClose =>
        cases pass
        obtain rfl : c = quote := not_not.mp isQuote
        obtain ⟨front, rest, rfl, absent, rfl⟩ := find_letter_eq atClose
        have ends : rest <:+ front ++ quote :: rest :=
          (List.suffix_cons _ _).trans (List.suffix_append _ _)
        have name : (front ++ quote :: rest).take
            ((front ++ quote :: rest).length - (quote :: rest).length) = front := by
          rw [List.length_append, Nat.add_sub_cancel, List.take_left]
        rw [name]
        refine ⟨ends.trans ((List.suffix_cons _ _).trans later), ?_, ?_⟩
        · calc rest.length
              ≤ (front ++ quote :: rest).length := ends.length_le
            _ < json.length := (Nat.lt_succ_self _).trans shorter
        · intro s member
          cases member
          obtain ⟨before, gap, blanks, shape, noColon, blank⟩ := nameValue_eq found
          exact ⟨before, gap, blanks, rest, shape, noColon, blank, absent⟩

/-! ### The loop -/

/-- The loop ends by itself. -/
theorem insertNames_enough {n m : ℕ} {json : Str} (out : Finset Str) (first : json.length < n)
    (second : json.length < m) : insertNames n json out = insertNames m json out := by
  induction n generalizing m json out with
  | zero => exact absurd first (Nat.not_lt_zero _)
  | succ n ih =>
    obtain ⟨m, rfl⟩ := Nat.exists_eq_add_one_of_ne_zero (Nat.ne_zero_of_lt second)
    rw [insertNames, insertNames]
    split
    · rfl
    next rest pass =>
      have shorter := (namePass_sound pass).2.1
      exact ih out (by omega) (by omega)
    next name rest pass =>
      have shorter := (namePass_sound pass).2.1
      exact ih _ (by omega) (by omega)

theorem findJsonNames_end {json : Str} (out : Finset Str) (ends : namePass json = none) :
    findJsonNames json out = out := by
  rw [findJsonNames, insertNames, ends]

theorem findJsonNames_skip {json rest : Str} (out : Finset Str)
    (pass : namePass json = some (none, rest)) :
    findJsonNames json out = findJsonNames rest out := by
  have shorter := (namePass_sound pass).2.1
  rw [findJsonNames, insertNames, pass]
  exact insertNames_enough out shorter (Nat.lt_succ_self _)

theorem findJsonNames_insert {json rest name : Str} (out : Finset Str)
    (pass : namePass json = some (some name, rest)) :
    findJsonNames json out = findJsonNames rest (insert name out) := by
  have shorter := (namePass_sound pass).2.1
  rw [findJsonNames, insertNames, pass]
  exact insertNames_enough _ shorter (Nat.lt_succ_self _)

theorem findJsonNames_congr {json json' : Str} (same : namePass json = namePass json')
    (out : Finset Str) : findJsonNames json out = findJsonNames json' out := by
  cases pass : namePass json' with
  | none => rw [findJsonNames_end out pass, findJsonNames_end out (same.trans pass)]
  | some after =>
    obtain ⟨_ | name, rest⟩ := after
    · rw [findJsonNames_skip out pass, findJsonNames_skip out (same.trans pass)]
    · rw [findJsonNames_insert out pass, findJsonNames_insert out (same.trans pass)]

/-- The loop ends after finitely many passes, which insert these names in this order. -/
inductive Scans : Str → List Str → Prop
  | ends {json : Str} (pass : namePass json = none) : Scans json []
  | skips {json rest : Str} {names : List Str} (pass : namePass json = some (none, rest))
      (later : Scans rest names) : Scans json names
  | inserts {json rest name : Str} {names : List Str}
      (pass : namePass json = some (some name, rest)) (later : Scans rest names) :
      Scans json (name :: names)

/-- Every pass leaves a shorter text. -/
theorem exists_scans (json : Str) : ∃ names, Scans json names := by
  induction size : json.length using Nat.strong_induction_on generalizing json with
  | _ n ih =>
    subst size
    cases pass : namePass json with
    | none => exact ⟨[], .ends pass⟩
    | some after =>
      obtain ⟨name, rest⟩ := after
      obtain ⟨names, later⟩ := ih rest.length (namePass_sound pass).2.1 rest rfl
      cases name with
      | none => exact ⟨names, .skips pass later⟩
      | some name => exact ⟨name :: names, .inserts pass later⟩

theorem Scans.inserted {json : Str} {names : List Str} (scans : Scans json names)
    (out : Finset Str) : findJsonNames json out = out ∪ names.toFinset := by
  induction scans generalizing out with
  | ends pass => rw [findJsonNames_end out pass, List.toFinset_nil, Finset.union_empty]
  | skips pass _ ih => rw [findJsonNames_skip out pass, ih]
  | inserts pass _ ih =>
    rw [findJsonNames_insert out pass, ih, List.toFinset_cons, Finset.insert_union,
      Finset.union_insert]

theorem Scans.named {json : Str} {names : List Str} (scans : Scans json names) :
    ∀ name ∈ names, Named json name := by
  induction scans with
  | ends => simp
  | skips pass _ ih =>
    intro name member
    exact (ih name member).mono (namePass_sound pass).1
  | inserts pass _ ih =>
    obtain ⟨later, _, whole⟩ := namePass_sound pass
    intro name member
    rcases List.mem_cons.mp member with rfl | member
    · exact whole _ rfl
    · exact (ih name member).mono later

/-- What is inserted is a part of the text without quotes. -/
theorem mem_findJsonNames {json name : Str} {out : Finset Str}
    (member : name ∈ findJsonNames json out) : name ∈ out ∨ (quote ∉ name ∧ name <:+: json) := by
  obtain ⟨names, scans⟩ := exists_scans json
  rw [scans.inserted, Finset.mem_union, List.mem_toFinset] at member
  refine member.imp_right fun listed => ?_
  have named := scans.named name listed
  have inside := named.inside
  obtain ⟨_, _, _, _, _, _, _, absent⟩ := named
  exact ⟨absent, inside⟩

/-! ### Texts between names -/

theorem quiet_nameTail (info : FileInfo) : Quiet nameKey (nameTail info) := by
  have kind : Quiet nameKey (dumpsBool info.isDirectory) := by
    apply quiet_of_absent
    cases info.isDirectory <;> decide
  have size : Quiet nameKey [',', ' ', '"', 's', 'i', 'z', 'e', '"', ':', ' '] :=
    quiet_key (by decide) 's' ['i', 'z', 'e'] (by decide) (by decide)
  have mtime : Quiet nameKey [',', ' ', '"', 'm', 't', 'i', 'm', 'e', '"', ':', ' '] :=
    quiet_key (by decide) 'm' ['t', 'i', 'm', 'e'] (by decide) (by decide)
  have directory : Quiet nameKey
      [',', ' ', '"', 'i', 's', '_', 'd', 'i', 'r', 'e', 'c', 't', 'o', 'r', 'y', '"', ':', ' '] :=
    quiet_key (by decide) 'i' ['s', '_', 'd', 'i', 'r', 'e', 'c', 't', 'o', 'r', 'y'] (by decide)
      (by decide)
  have last : Quiet nameKey ['\x7d'] := quiet_of_absent (by decide)
  have number (n : ℤ) : Quiet nameKey (Python.str n) := quiet_number (by decide) _ n
  exact size.append ((number _).append (mtime.append ((number _).append
    (directory.append (kind.append last)))))

/-- The key, and what stands between it and the name. -/
def nameStart : Str := ['"', 'n', 'a', 'm', 'e', '"', ':', ' ', '"']

theorem namePass_quiet {gap : Str} (quiet : Quiet nameKey gap) (s : Str) :
    namePass (gap ++ s) = namePass s := by
  simp only [namePass, nameValue, quiet s]

theorem namePass_start (s : Str) : namePass (nameStart ++ s) =
    match find [quote] s with
    | none => none
    | some close => some (some (s.take (s.length - close.length)), close.drop 1) := by
  have key : find nameKey (nameStart ++ s) = some (nameStart ++ s) :=
    find_here ⟨[':', ' ', '"'] ++ s, rfl⟩
  have colon : find [':'] (nameStart ++ s) = some (':' :: ' ' :: '"' :: s) :=
    find_letter (show ':' ∉ nameKey by decide)
  have value : nameValue (nameStart ++ s) = some (quote :: s) := by
    rw [nameValue, key]
    simp only [colon]
    rfl
  rw [namePass, value]
  rfl

/-- A name without quotes is read whole. -/
theorem findJsonNames_name {gap name : Str} (quiet : Quiet nameKey gap) (absent : quote ∉ name)
    (rest : Str) (out : Finset Str) :
    findJsonNames (gap ++ (nameStart ++ (name ++ quote :: rest))) out =
      findJsonNames rest (insert name out) := by
  apply findJsonNames_insert
  rw [namePass_quiet quiet, namePass_start, find_letter absent]
  simp only [List.length_append, Nat.add_sub_cancel, List.take_left, List.drop_one, List.tail_cons]

/-- The key alone gives nothing, however much of it there is. -/
theorem findJsonNames_start {p : Str} (cut : p <+: nameStart) (out : Finset Str) :
    findJsonNames p out = out := by
  have passes : ∀ n < 10, namePass (nameStart.take n) = none ∨
      namePass (nameStart.take n) = some (none, []) := by decide
  have short : p.length < 10 := Nat.lt_succ_of_le cut.length_le
  have here := passes p.length short
  rw [← List.prefix_iff_eq_take.mp cut] at here
  rcases here with ends | skips
  · exact findJsonNames_end out ends
  · rw [findJsonNames_skip out skips]
    exact findJsonNames_end out rfl

theorem findJsonNames_quiet {gap p : Str} (quiet : Quiet nameKey gap) (cut : p <+: gap)
    (out : Finset Str) : findJsonNames p out = out := by
  have nowhere : find nameKey gap = none := by
    have whole := quiet []
    rwa [List.append_nil] at whole
  apply findJsonNames_end
  rw [namePass, nameValue, find_prefix cut nowhere]

/-- A text that ends before the closing quote gives nothing. -/
theorem findJsonNames_cut {gap name p : Str} (quiet : Quiet nameKey gap) (absent : quote ∉ name)
    (cut : p <+: gap ++ (nameStart ++ name)) (out : Finset Str) : findJsonNames p out = out := by
  rcases prefix_append_cases cut with short | ⟨q, rfl, key⟩
  · exact findJsonNames_quiet quiet short out
  · rw [findJsonNames_congr (namePass_quiet quiet q)]
    rcases prefix_append_cases key with short | ⟨u, rfl, inside⟩
    · exact findJsonNames_start short out
    · have unclosed : quote ∉ u := fun member => absent (inside.subset member)
      apply findJsonNames_end
      rw [namePass_start, find_absent unclosed]

/-! ### A listing -/

/-- The answer up to the closing quote of the last name in it, where `before` comes before the
first description. -/
def throughNames (before : Str) : List FileInfo → Str
  | [] => []
  | info :: infos => before ++ (nameHead info ++ throughNames (nameTail info ++ separator) infos)

/-- The text of a listing, from a description on. -/
theorem dumpsItems_cons (info : FileInfo) (infos : List FileInfo) :
    ∃ gap, Quiet nameKey gap ∧
      throughNames (nameTail info ++ separator) infos = throughNames gap infos ∧
      dumpsItems ((info :: infos).map FileInfo.json) ++ [']'] =
        nameHead info ++ (gap ++ (dumpsItems (infos.map FileInfo.json) ++ [']'])) := by
  have tail := quiet_nameTail info
  cases infos with
  | nil =>
    refine ⟨nameTail info, tail, rfl, ?_⟩
    simp only [List.map_cons, List.map_nil, dumpsItems, dumps_json, List.nil_append,
      List.append_assoc]
  | cons next infos =>
    refine ⟨nameTail info ++ separator, tail.append (quiet_of_absent (by decide)), rfl, ?_⟩
    simp only [List.map_cons, dumpsItems, dumps_json, List.append_assoc]

/-- How far the names come back from the beginning of a listing. -/
theorem findJsonNames_take (infos : List FileInfo) (plain : ∀ info ∈ infos, 34 ∉ info.name)
    {before : Str} (quiet : Quiet nameKey before) (n : ℕ) (out : Finset Str) :
    ∃ m ≤ infos.length,
      findJsonNames ((before ++ (dumpsItems (infos.map FileInfo.json) ++ [']'])).take n) out =
        out ∪ ((infos.take m).map fun info => escaped info.name).toFinset ∧
      (m = infos.length ↔ (throughNames before infos).length ≤ n) := by
  induction infos generalizing before n out with
  | nil =>
    refine ⟨0, Nat.le_refl _, ?_, by simp [throughNames]⟩
    simp only [List.take_nil, List.map_nil, List.toFinset_nil, Finset.union_empty]
    apply findJsonNames_quiet _ (List.take_prefix _ _)
    exact quiet.append (quiet_of_absent (by decide))
  | cons info infos ih =>
    obtain ⟨first, rest⟩ := List.forall_mem_cons.mp plain
    have absent : quote ∉ escaped info.name := quote_notMem_escaped first
    obtain ⟨gap, after, through, shape⟩ := dumpsItems_cons info infos
    have brace : Quiet nameKey (before ++ ['\x7b']) := quiet.append (quiet_of_absent (by decide))
    generalize dumpsItems (infos.map FileInfo.json) ++ [']'] = others at shape ih
    -- The text ends before the closing quote of this name or after it.
    obtain ⟨front, whole⟩ : ∃ front,
        front = before ++ ['\x7b'] ++ (nameStart ++ escaped info.name) := ⟨_, rfl⟩
    have parts : before ++ (dumpsItems ((info :: infos).map FileInfo.json) ++ [']']) =
        front ++ (quote :: (gap ++ others)) := by
      simp only [shape, whole, nameHead, nameStart, quote, List.append_assoc, List.cons_append,
        List.nil_append]
    have size : (throughNames before (info :: infos)).length =
        front.length + 1 + (throughNames gap infos).length := by
      simp only [throughNames, through, whole, nameHead, nameStart, List.length_append,
        List.length_cons, List.length_nil]
      omega
    rw [parts]
    by_cases short : n ≤ front.length
    · refine ⟨0, Nat.zero_le _, ?_, ?_⟩
      · rw [List.take_zero, List.map_nil, List.toFinset_nil, Finset.union_empty,
          List.take_append_of_le_length short]
        apply findJsonNames_cut brace absent
        rw [whole]
        exact List.take_prefix _ _
      · rw [size, List.length_cons]
        omega
    · obtain ⟨k, rfl⟩ : ∃ k, n = front.length + (k + 1) := ⟨n - front.length - 1, by omega⟩
      obtain ⟨m, within, names, complete⟩ := ih rest after k (insert (escaped info.name) out)
      refine ⟨m + 1, Nat.succ_le_succ within, ?_, ?_⟩
      · rw [List.take_length_add_append, List.take_succ_cons, whole,
          List.append_assoc (before ++ _), List.append_assoc nameStart,
          findJsonNames_name brace absent, names, List.take_succ_cons, List.map_cons,
          List.toFinset_cons, Finset.insert_union, Finset.union_insert]
      · rw [size, List.length_cons]
        omega

/-- A map that lengthens no element of a set, and maps the set to itself, keeps every length. -/
theorem size_kept {α : Type} [DecidableEq α] (size : α → ℕ) {f : α → α} {set : Finset α}
    (grows : ∀ x, size x ≤ size (f x)) (same : set.image f = set) :
    ∀ x ∈ set, size (f x) = size x := by
  have injective : Set.InjOn f set := Finset.card_image_iff.mp (by rw [same])
  have total : ∑ x ∈ set, size x = ∑ x ∈ set, size (f x) := by
    calc ∑ x ∈ set, size x
        = ∑ y ∈ set.image f, size y := by rw [same]
      _ = ∑ x ∈ set, size (f x) := Finset.sum_image injective
  intro x member
  exact ((Finset.sum_eq_sum_iff_of_le fun y _ => grows y).mp total x member).symm

theorem listResponse_eq (path : Text) (d : Directory) : listResponse path d =
    ['['] ++ (dumpsItems ((listInfos path d).map FileInfo.json) ++ [']']) := by
  rw [listResponse, dumps]
  rfl

theorem quote_of_code {s : Str} (member : 34 ∈ text s) : quote ∈ s := by
  obtain ⟨c, here, same⟩ := List.mem_map.mp member
  rwa [Char.toNat_inj.mp (same.trans (show 34 = quote.toNat from rfl))] at here

/-- A whole number of names comes back, as they are written. -/
theorem listedNames_eq (path : Text) (d : Directory) (plain : ∀ e ∈ d.entries, 34 ∉ e.1) :
    ∃ m ≤ d.entries.length,
      (listedNames (listResponse path d)).image text =
        (((d.entries.map (·.1)).take m).toFinset.image fun s => text (escaped s)) ∧
      (m = d.entries.length ↔ (throughNames ['['] (listInfos path d)).length ≤ 64 * 1024) := by
  have names : (listInfos path d).map (·.name) = d.entries.map (·.1) := listInfos_names path d
  have start : Quiet nameKey ['['] := quiet_of_absent (by decide)
  have unquoted : ∀ info ∈ listInfos path d, 34 ∉ info.name := by
    intro info member
    have listed : info.name ∈ d.entries.map (·.1) := names ▸ List.mem_map_of_mem member
    obtain ⟨e, there, eq⟩ := List.mem_map.mp listed
    exact eq ▸ plain e there
  have count : (listInfos path d).length = d.entries.length := List.length_map _
  obtain ⟨m, within, found, complete⟩ :=
    findJsonNames_take (listInfos path d) unquoted start (64 * 1024) ∅
  refine ⟨m, count ▸ within, ?_, count ▸ complete⟩
  rw [listedNames, listResponse_eq, found, Finset.empty_union, ← names, ← List.map_take]
  ext s
  simp only [Finset.mem_image, List.mem_toFinset, List.mem_map, exists_exists_and_eq_and]

/-- The names that come back are those of the directory exactly when every letter of every name
is printable ASCII and neither a quote nor a backslash, and the closing quote of the last name in
the answer is within the buffer. -/
theorem listing_survives_iff (path : Text) (d : Directory) :
    (listedNames (listResponse path d)).image text = (d.entries.map (·.1)).toFinset ↔
      (∀ e ∈ d.entries, ∀ c ∈ e.1, Json.Plain c) ∧
        (throughNames ['['] (listInfos path d)).length ≤ 64 * 1024 := by
  have count : (d.entries.map (·.1)).toFinset.card = d.entries.length := by
    rw [List.toFinset_card_of_nodup d.distinct, List.length_map]
  constructor
  · intro same
    have unquoted : ∀ e ∈ d.entries, 34 ∉ e.1 := by
      intro e member isQuote
      have listed : e.1 ∈ (d.entries.map (·.1)).toFinset :=
        List.mem_toFinset.mpr (List.mem_map_of_mem member)
      rw [← same] at listed
      obtain ⟨name, found, eq⟩ := Finset.mem_image.mp listed
      rcases mem_findJsonNames found with before | ⟨absent, _⟩
      · exact absurd before (Finset.notMem_empty _)
      · exact absent (quote_of_code (eq ▸ isQuote))
    obtain ⟨m, within, found, complete⟩ := listedNames_eq path d unquoted
    rw [same] at found
    have all : m = d.entries.length := by
      have fewer : (d.entries.map (·.1)).toFinset.card ≤ m := by
        calc (d.entries.map (·.1)).toFinset.card
            ≤ ((d.entries.map (·.1)).take m).toFinset.card := by
              rw [found]
              exact Finset.card_image_le
          _ ≤ ((d.entries.map (·.1)).take m).length := List.toFinset_card_le _
          _ ≤ m := List.length_take_le _ _
      omega
    refine ⟨?_, complete.mp all⟩
    rw [all, ← List.length_map (·.1), List.take_length] at found
    intro e member
    apply plain_of_length
    have kept := size_kept List.length (fun s => ?_) found.symm e.1
      (List.mem_toFinset.mpr (List.mem_map_of_mem member))
    · rwa [text, List.length_map] at kept
    · rw [text, List.length_map]
      exact length_le_escaped s
  · rintro ⟨plain, fits⟩
    have unquoted : ∀ e ∈ d.entries, 34 ∉ e.1 := fun e member isQuote =>
      (plain e member 34 isQuote).2.2.1 rfl
    obtain ⟨m, _, found, complete⟩ := listedNames_eq path d unquoted
    rw [found, complete.mpr fits, ← List.length_map (·.1), List.take_length]
    calc (d.entries.map (·.1)).toFinset.image (fun s => text (escaped s))
        = (d.entries.map (·.1)).toFinset.image id := by
          refine Finset.image_congr fun s member => ?_
          obtain ⟨e, there, rfl⟩ := List.mem_map.mp (List.mem_toFinset.mp member)
          exact text_escaped (plain e there)
      _ = (d.entries.map (·.1)).toFinset := Finset.image_id

/-- A directory with one file, whose name is one letter outside ASCII. -/
def accented : Directory where
  entries := [([233], ⟨0, 0, false⟩)]
  legal := by decide
  distinct := by decide

/-- The name comes back as the escape it was sent as. -/
theorem accent_lost :
    (listedNames (listResponse [47] accented)).image text ≠
      (accented.entries.map (·.1)).toFinset := by
  decide

end Fuse

end RemoteCache
