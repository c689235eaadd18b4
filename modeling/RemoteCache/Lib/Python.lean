import RemoteCache.Lib.Paths
import Mathlib.Data.List.DropRight

/-!
# Python's strings and paths

What the bundled server uses of Python's standard library on strings: `int`,
`urlparse`, `parse_qs` and `os.path`. Percent escapes stand for single bytes,
which is enough to compare with ASCII texts.
-/
namespace RemoteCache.Python

def lower (s : Str) : Str := s.map Char.toLower

def isSpace (c : Char) : Bool :=
  c = ' ' || (9 ≤ c.toNat && c.toNat ≤ 13) || (28 ≤ c.toNat && c.toNat ≤ 31) ||
    c.toNat = 133 || c.toNat = 160

def strip (s : Str) : Str := (s.dropWhile isSpace).rdropWhile isSpace

/-- `str(n)` -/
def str (n : ℤ) : Str := if n < 0 then '-' :: Nat.toDigits 10 n.natAbs else Nat.toDigits 10 n.natAbs

/-- The digits of a numeral, in groups that single underscores separate. -/
def numeral (s : Str) : Option ℕ :=
  let groups := s.splitOn '_'
  if groups.all fun g => !g.isEmpty && g.all Char.isDigit then some (numeralVal 10 groups.flatten)
  else none

/-- `int(s)`, or nothing where it raises `ValueError`. -/
def int (s : Str) : Option ℤ :=
  match (s.dropWhile isSpace).rdropWhile isSpace with
  | '-' :: s => (numeral s).map fun n => -n
  | '+' :: s => (numeral s).map fun n => n
  | s => (numeral s).map fun n => n

/-- A tab or a line break. -/
def isBreak (c : Char) : Bool := c.toNat = 9 || c.toNat = 10 || c.toNat = 13

/-- Controls and blanks at the front of a URL are dropped, tabs and line breaks anywhere. -/
def cleanUrl (url : Str) : Str := (url.dropWhile (·.toNat ≤ 32)).filter (!isBreak ·)

/-- The scheme in lower case, with what follows the colon. -/
def splitScheme (url : Str) : Str × Str :=
  let scheme := url.takeWhile (· ≠ ':')
  let ofScheme (c : Char) : Bool := c.isAlphanum || c = '+' || c = '-' || c = '.'
  if ':' ∈ url ∧ scheme.head?.any Char.isAlpha ∧ scheme.all ofScheme then
    (lower scheme, (url.dropWhile (· ≠ ':')).drop 1)
  else ([], url)

/-- `_splitnetloc` where two slashes begin the URL. -/
def splitNetloc : Str → Str × Str
  | '/' :: '/' :: url =>
    let ofNetloc (c : Char) : Bool := c ≠ '/' && c ≠ '?' && c ≠ '#'
    (url.takeWhile ofNetloc, url.dropWhile ofNetloc)
  | url => ([], url)

structure SplitResult where
  scheme : Str
  netloc : Str
  path : Str
  query : Str

/-- `urlsplit(url)`, less the fragment. -/
def urlsplit (url : Str) : SplitResult :=
  let (scheme, url) := splitScheme (cleanUrl url)
  let (netloc, url) := splitNetloc url
  let url := url.takeWhile (· ≠ '#')
  ⟨scheme, netloc, url.takeWhile (· ≠ '?'), (url.dropWhile (· ≠ '?')).drop 1⟩

/-- `urlsplit` raises `ValueError`: the host has one bracket without the other, or `address` says
that no address stands in the brackets. -/
def urlRefused (address : Str → Bool) (url : Str) : Bool :=
  let netloc := (urlsplit url).netloc
  if '[' ∈ netloc ∧ ']' ∈ netloc then !address netloc else '[' ∈ netloc || ']' ∈ netloc

/-- `uses_params` -/
def usesParams : List Str :=
  ["", "ftp", "hdl", "prospero", "http", "imap", "https", "shttp", "rtsp", "rtsps", "rtspu", "sip",
    "sips", "mms", "sftp", "tel"].map String.toList

/-- `urlparse(url).path`, without the parameters of the last segment. -/
def urlPath (url : Str) : Str :=
  let split := urlsplit url
  if split.scheme ∈ usesParams then
    split.path.rdropWhile (· ≠ '/') ++ (split.path.rtakeWhile (· ≠ '/')).takeWhile (· ≠ ';')
  else split.path

/-- `urlparse(url).query` -/
def urlQuery (url : Str) : Str := (urlsplit url).query

def isHex (c : Char) : Bool := c.isDigit || ('a' ≤ c.toLower && c.toLower ≤ 'f')

/-- `unquote` after `replace('+', ' ')` -/
def unquote : Str → Str
  | '%' :: a :: b :: s =>
    if isHex a && isHex b then Char.ofNat (numeralVal 16 (lower [a, b])) :: unquote s
    else '%' :: unquote (a :: b :: s)
  | '+' :: s => ' ' :: unquote s
  | c :: s => c :: unquote s
  | [] => []

/-- The first value of a key in `parse_qs(query)`. -/
def queryValue (query key : Str) : Option Str :=
  (query.splitOn '&').findSome? fun field =>
    let name := field.takeWhile (· ≠ '=')
    let value := (field.dropWhile (· ≠ '=')).drop 1
    if unquote name = key ∧ value ≠ [] then some (unquote value) else none

/-- `os.path.dirname` -/
def dirname (p : Str) : Str :=
  let head := p.rdropWhile (· ≠ '/')
  if head.all (· = '/') then head else head.rdropWhile (· = '/')

/-! ### Numerals -/

theorem strip_eq_self {s : Str} (letters : ∀ c ∈ s, isSpace c = false) : strip s = s := by
  have front : s.dropWhile isSpace = s := List.dropWhile_eq_self_iff.mpr fun long => by
    simpa using letters _ (List.getElem_mem long)
  have back : s.rdropWhile isSpace = s := List.rdropWhile_eq_self_iff.mpr fun some => by
    simpa using letters _ (List.getLast_mem some)
  rw [strip, front, back]

theorem lower_eq_self {s : Str} (letters : ∀ c ∈ s, c.toLower = c) : lower s = s :=
  (List.map_congr_left letters).trans (List.map_id _)

/-- A digit is the letter of a number below ten. -/
theorem exists_digit {c : Char} (digit : c.isDigit = true) : ∃ d < 10, c = Nat.digitChar d := by
  obtain ⟨low, high⟩ := Char.isDigit_iff_toNat.mp digit
  have low : 48 ≤ c.toNat := low
  have high : c.toNat ≤ 57 := high
  refine ⟨c.toNat - 48, by omega, ?_⟩
  rw [← Char.ofNat_toNat c]
  generalize c.toNat = n at low high
  interval_cases n <;> decide

theorem digit_toLower {c : Char} (digit : c.isDigit = true) : c.toLower = c := by
  obtain ⟨d, small, rfl⟩ := exists_digit digit
  interval_cases d <;> decide

theorem digit_isSpace {c : Char} (digit : c.isDigit = true) : isSpace c = false := by
  obtain ⟨d, small, rfl⟩ := exists_digit digit
  interval_cases d <;> decide

theorem str_natCast (n : ℕ) : str n = Nat.toDigits 10 n := by
  rw [str, if_neg (by omega), Int.natAbs_natCast]

theorem digit_of_mem {n : ℕ} {c : Char} (member : c ∈ Nat.toDigits 10 n) : c.isDigit = true :=
  Nat.isDigit_of_mem_toDigits (by decide) le_rfl member

/-- A letter that is no digit is not in a numeral. -/
theorem not_mem_toDigits (n : ℕ) {c : Char} (other : c.isDigit = false) : c ∉ Nat.toDigits 10 n :=
  fun member => by
    rw [digit_of_mem member] at other
    cases other

/-- `int` reads a string of digits as the number it denotes. -/
theorem int_digits {s : Str} (nonempty : s ≠ []) (digits : ∀ c ∈ s, c.isDigit = true) :
    int s = some (numeralVal 10 s : ℤ) := by
  have stripped : strip s = s := strip_eq_self fun c member => digit_isSpace (digits c member)
  have value : numeral s = some (numeralVal 10 s) := by
    have whole : '_' ∉ s := fun member => by simpa using digits _ member
    simpa [numeral, List.splitOn_eq_singleton whole, nonempty] using digits
  rw [strip] at stripped
  rw [int, stripped]
  -- Neither sign is a digit, so the numeral is read as it stands.
  split
  next sign =>
    have digit := digits '-' List.mem_cons_self
    exact absurd digit (by decide)
  next sign =>
    have digit := digits '+' List.mem_cons_self
    exact absurd digit (by decide)
  · rw [value]
    rfl

/-- Without a sign there is no negative number. -/
theorem int_nonneg {s : Str} {n : ℤ} (unsigned : '-' ∉ s) (parsed : int s = some n) : 0 ≤ n := by
  unfold int at parsed
  split at parsed
  next rest same =>
    have inner : '-' ∈ (s.dropWhile isSpace).rdropWhile isSpace := by rw [same]; simp
    exact absurd ((List.dropWhile_suffix _).mem ((List.rdropWhile_prefix _ _).mem inner)) unsigned
  all_goals
    obtain ⟨m, lifted, rfl⟩ := Option.map_eq_some_iff.mp parsed
    obtain ⟨digits, _, same⟩ := Option.bind_eq_some_iff.mp lifted
    cases same
    exact Int.natCast_nonneg digits

theorem headD_splitOn (a : Char) (s : Str) : (s.splitOn a).headD [] = s.takeWhile (· ≠ a) := by
  induction s with
  | nil => rfl
  | cons c s ih =>
    rw [List.splitOn_cons_eq_if_modifyHead]
    by_cases here : c = a
    · simp [here]
    · obtain ⟨first, rest, split⟩ := List.exists_cons_of_ne_nil (List.splitOn_ne_nil a s)
      rw [split] at ih
      simpa [here, split] using ih

/-- What `str` writes, `int` reads. -/
theorem int_toDigits (n : ℕ) : int (Nat.toDigits 10 n) = some (n : ℤ) := by
  rw [int_digits Nat.toDigits_ne_nil fun c => digit_of_mem,
    numeralVal_toDigits (by decide) (by decide)]

/-! ### Paths and URLs -/

theorem rdropWhile_last {front last : Str} (ends : EndsPath front) (plain : '/' ∉ last) :
    (front ++ last).rdropWhile (· ≠ '/') = front ∧ (front ++ last).rtakeWhile (· ≠ '/') = last := by
  induction last using List.reverseRecOn with
  | nil =>
    rcases ends with rfl | ⟨t, rfl⟩
    · exact ⟨rfl, rfl⟩
    · rw [List.append_nil]
      exact ⟨List.rdropWhile_concat_neg _ _ _ (by decide),
        List.rtakeWhile_concat_neg _ _ _ (by decide)⟩
  | append_singleton last c ih =>
    have other : c ≠ '/' := fun same => plain (by simp [same])
    obtain ⟨dropped, taken⟩ := ih fun member => plain (List.mem_append_left _ member)
    rw [← List.append_assoc, List.rdropWhile_concat_pos _ _ _ (by simpa using other),
      List.rtakeWhile_concat_pos _ _ _ (by simpa using other), dropped, taken]
    exact ⟨rfl, rfl⟩

theorem resolve_strip (s : Str) : resolve [] (s.rdropWhile (· = '/')) = resolve [] s := by
  induction s using List.reverseRecOn with
  | nil => rfl
  | append_singleton s c ih =>
    rw [List.rdropWhile_concat]
    split
    next slash =>
      have slash : c = '/' := by simpa using slash
      rw [ih, slash, resolve_slash]
    · rfl

theorem exists_last_split (p : Str) :
    ∃ front last, p = front ++ last ∧ EndsPath front ∧ '/' ∉ last := by
  induction p using List.reverseRecOn with
  | nil => exact ⟨[], [], rfl, .inl rfl, List.not_mem_nil⟩
  | append_singleton p c ih =>
    by_cases slash : c = '/'
    · exact ⟨p ++ [c], [], by simp, .inr ⟨p, by rw [slash]⟩, List.not_mem_nil⟩
    · obtain ⟨front, last, rfl, ends, plain⟩ := ih
      refine ⟨front, last ++ [c], List.append_assoc .., ends, ?_⟩
      simpa [Ne.symm slash] using plain

theorem components_ends {front last : Str} (ends : EndsPath front) (plain : '/' ∉ last) :
    components (front ++ last) = (components front).dropLast ++ [last] := by
  have single : components last = [last] := List.splitOn_eq_singleton plain
  rcases ends with rfl | ⟨t, rfl⟩
  · exact single
  · rw [List.append_assoc, List.singleton_append, components_append, components_append, single]
    exact congrArg (· ++ [last]) List.dropLast_concat.symm

theorem components_strip (s : Str) :
    ∃ k, components s = components (s.rdropWhile (· = '/')) ++ List.replicate k [] := by
  induction s using List.reverseRecOn with
  | nil => exact ⟨0, rfl⟩
  | append_singleton s c ih =>
    by_cases slash : c = '/'
    · obtain ⟨k, same⟩ := ih
      refine ⟨k + 1, ?_⟩
      rw [slash, List.rdropWhile_concat_pos _ _ _ (by simp), components_append, same,
        List.append_assoc, List.replicate_succ']
      rfl
    · exact ⟨0, by rw [List.rdropWhile_concat_neg _ _ _ (by simpa using slash)]; simp⟩

/-- `dirname` goes one level up. -/
theorem resolve_dirname {front last : Str} (ends : EndsPath front) (plain : '/' ∉ last) :
    resolve [] (dirname (front ++ last)) = resolve [] front := by
  simp only [dirname, (rdropWhile_last ends plain).1]
  split
  · rfl
  · exact resolve_strip front

/-- `dirname` takes the last component away, and empty ones before it. -/
theorem components_dirname (p : Str) :
    ∃ k, components (dirname p) ++ List.replicate k [] = (components p).dropLast ++ [[]] := by
  obtain ⟨front, last, rfl, ends, plain⟩ := exists_last_split p
  have head : components front = (components (front ++ last)).dropLast ++ [[]] := by
    rw [components_ends ends plain, List.dropLast_concat, ← components_ends ends List.not_mem_nil,
      List.append_nil]
  simp only [dirname, (rdropWhile_last ends plain).1, ← head]
  split
  · exact ⟨0, List.append_nil _⟩
  · obtain ⟨k, same⟩ := components_strip front
    exact ⟨k, same.symm⟩

theorem shown_isBreak {c : Char} (shown : 32 < c.toNat) : isBreak c = false := by
  simp [isBreak]
  omega

/-- A URL that begins with one slash is a path and what follows it. -/
theorem urlsplit_origin {c : Char} (other : c ≠ '/') (shown : 32 < c.toNat) (rest : Str) :
    let url := '/' :: c :: rest.filter (!isBreak ·)
    urlsplit ('/' :: c :: rest) = ⟨[], [], (url.takeWhile (· ≠ '#')).takeWhile (· ≠ '?'),
      ((url.takeWhile (· ≠ '#')).dropWhile (· ≠ '?')).drop 1⟩ := by
  intro url
  have clean : cleanUrl ('/' :: c :: rest) = url := by
    rw [cleanUrl, List.dropWhile_cons_of_neg (by decide), List.filter_cons_of_pos (by decide),
      List.filter_cons_of_pos (by simp [shown_isBreak shown])]
  -- A slash is no letter of a scheme.
  have scheme : splitScheme url = ([], url) := by
    rw [splitScheme, if_neg]
    simp [url]
  have netloc : splitNetloc url = ([], url) :=
    splitNetloc.eq_2 url fun _ same => other (List.cons.inj (List.cons.inj same).2).1
  simp only [urlsplit, clean, scheme, netloc]

/-- Such a URL is its own path where no letter means something else. -/
theorem urlPath_plain {c : Char} (other : c ≠ '/') {rest : Str}
    (plain : ∀ l ∈ c :: rest, 32 < l.toNat ∧ l ≠ '#' ∧ l ≠ '?' ∧ l ≠ ';') :
    urlPath ('/' :: c :: rest) = '/' :: c :: rest := by
  have shown := (plain c List.mem_cons_self).1
  have fine : ∀ l ∈ '/' :: c :: rest, l ≠ '#' ∧ l ≠ '?' ∧ l ≠ ';' := fun l member => by
    rcases List.mem_cons.mp member with rfl | inside
    · decide
    · exact (plain l inside).2
  have kept : rest.filter (!isBreak ·) = rest := List.filter_eq_self.mpr fun l member => by
    simp [shown_isBreak (plain l (List.mem_cons_of_mem _ member)).1]
  have split := urlsplit_origin other shown rest
  simp only [kept] at split
  generalize '/' :: c :: rest = url at fine split ⊢
  have fragment : url.takeWhile (· ≠ '#') = url :=
    List.takeWhile_eq_self_iff.mpr fun l member => by simpa using (fine l member).1
  have query : url.takeWhile (· ≠ '?') = url :=
    List.takeWhile_eq_self_iff.mpr fun l member => by simpa using (fine l member).2.1
  have parameters : (url.rtakeWhile (· ≠ '/')).takeWhile (· ≠ ';') = url.rtakeWhile (· ≠ '/') :=
    List.takeWhile_eq_self_iff.mpr fun l member => by
      simpa using (fine l ((List.rtakeWhile_suffix _ _).subset member)).2.2
  simp only [urlPath, split, fragment, query, parameters, List.rdropWhile_append_rtakeWhile]
  exact if_pos (by decide)

end RemoteCache.Python
