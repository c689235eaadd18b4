import RemoteCache.Fuse.Namespace

/-!
# The configured directories

## Main result

`directories_denote_iff`: after any run of callbacks the two directory strings
and the paths built from them denote what they did at the start, if and only if
both strings keep their place when their last letter becomes a slash.
-/
namespace RemoteCache

/-! ### The last component -/

theorem resolve_absolute (cwd : Path) {s : Str} (absolute : s.head? = some '/') :
    resolve cwd s = resolve [] s := by
  rw [resolve, resolve, if_pos absolute, if_pos absolute]

/-- The last component of an absolute path, and what is in front of it. -/
theorem exists_last_component {d : Str} (absolute : d.head? = some '/') :
    ∃ front last, d = front ++ '/' :: last ∧ '/' ∉ last := by
  have slash : '/' ∈ d.reverse := List.mem_reverse.mpr (List.mem_of_head? absolute)
  obtain ⟨back, before, eq, none⟩ := List.eq_append_cons_of_mem slash
  have parts : d = before.reverse ++ '/' :: back.reverse := by
    have same := congrArg List.reverse eq
    simpa using same
  exact ⟨before.reverse, back.reverse, parts, by simpa using none⟩

theorem component_unique {front front' last last' : Str} (none : '/' ∉ last)
    (none' : '/' ∉ last') (same : front ++ '/' :: last = front' ++ '/' :: last') :
    front = front' ∧ last = last' := by
  have parts := congrArg components same
  rw [components_append, components_append, components, components, components, components,
    List.splitOn_eq_singleton none, List.splitOn_eq_singleton none'] at parts
  have equal : last = last' := by simpa using (List.append_inj' parts rfl).2
  exact ⟨by simpa [equal] using same, equal⟩

/-- A slash-free component is followed from what is in front of it. -/
theorem resolve_component (front : Str) {last : Str} (none : '/' ∉ last) :
    resolve [] (front ++ '/' :: last) = descend (resolve [] front) last := by
  rw [resolve_append, resolve_slash, components, List.splitOn_eq_singleton none]
  rfl

namespace Fuse

/-- A directory string that denotes the same place when its last letter becomes a slash. -/
def KeepsPlace (d : Str) : Prop :=
  d.getLast? = some '/' ∨ ∃ front, d = front ++ ['/', '.'] ∨
    d = front ++ ['/', '.', '.'] ∧ resolve [] front = []

theorem descend_length (at_ : Path) (c : Str) : (descend at_ c).length ≤ at_.length ∨
    descend at_ c = at_ ++ [c] := by
  unfold descend
  split
  · exact .inl le_rfl
  · split
    · exact .inl (by simp)
    · exact .inr rfl

/-- A component without its last letter leads to the same place only if it is `.`, or `..` at the
top. -/
private theorem descend_dropLast_iff (at_ : Path) {last : Str} (some : last ≠ []) :
    descend at_ last.dropLast = descend at_ last ↔
      last = ['.'] ∨ last = ['.', '.'] ∧ at_ = [] := by
  by_cases dot : last = ['.']
  · simp [dot, descend]
  by_cases up : last = ['.', '.']
  · have shorter : at_ = at_.dropLast ↔ at_ = [] := by
      constructor
      · intro same
        have lengths := congrArg List.length same
        rw [List.length_dropLast] at lengths
        exact List.eq_nil_of_length_eq_zero (by omega)
      · rintro rfl
        rfl
    simpa [up, descend] using shorter
  · have own : descend at_ last = at_ ++ [last] := by simp [descend, some, dot, up]
    rw [own]
    constructor
    · intro same
      rcases descend_length at_ last.dropLast with short | longer
      · simp [same] at short
      · have equal : last.dropLast = last := by
          have both := longer.symm.trans same
          simpa using both
        have lengths := congrArg List.length equal
        have positive := List.length_pos_iff.mpr some
        rw [List.length_dropLast] at lengths
        omega
    · rintro (same | ⟨same, -⟩)
      · exact absurd same dot
      · exact absurd same up

theorem resolve_withSlash_iff (cwd : Path) {d : Str} (absolute : d.head? = some '/')
    (long : 1 < d.length) :
    resolve cwd (Mount.withSlash d) = resolve cwd d ↔ KeepsPlace d := by
  by_cases ends : d.getLast? = some '/'
  · simp [Mount.withSlash, ends, KeepsPlace]
  obtain ⟨front, last, rfl, none⟩ := exists_last_component absolute
  have nonempty : last ≠ [] := by
    rintro rfl
    exact ends (by simp)
  have slashed : Mount.withSlash (front ++ '/' :: last) =
      front ++ '/' :: last.dropLast ++ ['/'] := by
    rw [Mount.withSlash, if_neg ends, List.dropLast_append_of_ne_nil (by simp),
      List.dropLast_cons_of_ne_nil nonempty]
  have still : (front ++ '/' :: last.dropLast ++ ['/']).head? = some '/' := by
    cases front with
    | nil => rfl
    | cons c front => exact absolute
  have shorter : '/' ∉ last.dropLast := fun member => none (List.dropLast_subset _ member)
  rw [slashed, resolve_absolute cwd absolute, resolve_absolute cwd still, resolve_slash,
    resolve_component front shorter, resolve_component front none,
    descend_dropLast_iff _ nonempty, KeepsPlace, or_iff_right ends]
  constructor
  · rintro (rfl | ⟨rfl, top⟩)
    · exact ⟨front, .inl rfl⟩
    · exact ⟨front, .inr ⟨rfl, top⟩⟩
  · rintro ⟨front', same | ⟨same, top⟩⟩
    · exact .inl (component_unique none (by decide) same).2
    · obtain ⟨rfl, rfl⟩ := component_unique none (by decide) same
      exact .inr ⟨rfl, top⟩

/-! ### Runs -/

/-- One callback changes at most the last letters of the two strings. -/
structure SameStrings (m m' : Mount) : Prop where
  cache : m'.cacheDirectory = m.cacheDirectory ∨
    m'.cacheDirectory = Mount.withSlash m.cacheDirectory
  remote : m'.fileRemoteDirectory = m.fileRemoteDirectory ∨
    m'.fileRemoteDirectory = Mount.withSlash m.fileRemoteDirectory

theorem withSlash_trans {d d' d'' : Str} (first : d' = d ∨ d' = Mount.withSlash d)
    (second : d'' = d' ∨ d'' = Mount.withSlash d') : d'' = d ∨ d'' = Mount.withSlash d := by
  rcases first with rfl | rfl
  · exact second
  · rw [withSlash_again, or_self] at second
    exact .inr second

theorem SameStrings.trans {a b c : Mount} (first : SameStrings a b) (second : SameStrings b c) :
    SameStrings a c := by
  constructor
  · exact withSlash_trans first.cache second.cache
  · exact withSlash_trans first.remote second.remote

variable {cfg : Config} {m m' start : Mount}

theorem SameStrings.of_remote (cache : m'.cacheDirectory = m.cacheDirectory)
    (remote : m'.fileRemoteDirectory = Mount.withSlash m.fileRemoteDirectory) :
    SameStrings m m' :=
  ⟨.inl cache, .inr remote⟩

theorem SameStrings.of_cache (cache : m'.cacheDirectory = Mount.withSlash m.cacheDirectory)
    (remote : m'.fileRemoteDirectory = m.fileRemoteDirectory) : SameStrings m m' :=
  ⟨.inr cache, .inl remote⟩

theorem SameStrings.refl (m : Mount) : SameStrings m m := ⟨.inl rfl, .inl rfl⟩

theorem makeDirectory_strings (cfg : Config) (m : Mount) (allowed : Bool) (path : Str) :
    SameStrings m (m.makeDirectory cfg allowed path).1 := by
  simp only [Mount.makeDirectory, Mount.realCachePath, Mount.isLiteral, Bool.false_eq_true,
    if_false]
  split
  · exact .of_cache rfl rfl
  · exact .of_cache rfl rfl

theorem removeDirectory_strings (cfg : Config) (m : Mount) (allowed : Bool) (path : Str) :
    SameStrings m (m.removeDirectory cfg allowed path).1 := by
  simp only [Mount.removeDirectory, Mount.realCachePath, Mount.isLiteral, Bool.false_eq_true,
    if_false]
  split
  · exact .of_cache rfl rfl
  · exact .of_cache rfl rfl

theorem removeFile_strings (cfg : Config) (m : Mount) (allowed : Bool) (path : Str) :
    SameStrings m (m.removeFile cfg allowed path).1 := by
  simp only [Mount.removeFile, Mount.realCachePath, Mount.isLiteral, Bool.false_eq_true,
    if_false]
  split
  · exact .of_cache rfl rfl
  · exact .of_cache rfl rfl

theorem readFile_strings (cfg : Config) (m : Mount) (answers : ℕ → Answer × Answer)
    (made : Path → Bool) (path : Str) (sz off : ℕ) :
    SameStrings m (m.readFile cfg answers made path sz off).1 := by
  simp only [Mount.readFile, Mount.realFilePath, Mount.isLiteral, Bool.false_eq_true, if_false]
  split
  · exact .of_remote rfl rfl
  · split
    · exact .of_remote rfl rfl
    · exact .of_remote rfl rfl

theorem writeFile_strings (cfg : Config) (m : Mount) (answer : Answer) (path : Str) (buf : Bytes)
    (off : ℕ) : SameStrings m (m.writeFile cfg answer path buf off).1 := by
  simp only [Mount.writeFile, Mount.realFilePath, Mount.isLiteral, Bool.false_eq_true, if_false]
  split
  · exact .of_remote rfl rfl
  · exact .of_remote rfl rfl

theorem SameStrings.of_step {x : Mount × Reply} {r : Reply} (same : SameStrings m x.1)
    (taken : some x = some (m', r)) : SameStrings m m' := by
  rwa [Option.some.inj taken] at same

theorem step_strings {c : Call} {r : Reply} (taken : m.step cfg c = some (m', r)) :
    SameStrings m m' := by
  cases c with
  | getAttribute p =>
    apply SameStrings.of_step _ taken
    rw [Mount.getAttribute_mount]
    exact .of_remote rfl rfl
  | getStats allowed =>
    apply SameStrings.of_step _ taken
    rw [Mount.getStats_mount]
    exact .refl m
  | readDirectory p => exact .of_step (.refl m) taken
  | makeDirectory p allowed => exact .of_step (makeDirectory_strings ..) taken
  | removeDirectory p allowed => exact .of_step (removeDirectory_strings ..) taken
  | removeFile p allowed => exact .of_step (removeFile_strings ..) taken
  | openFile p => exact .of_step (.refl m) taken
  | createFile p => exact .of_step (.refl m) taken
  | readFile p answers made sz off => exact .of_step (readFile_strings ..) taken
  | writeFile p answer buf off => exact .of_step (writeFile_strings ..) taken
  | releaseFiles p used =>
    obtain ⟨cache, -, same⟩ := Option.map_eq_some_iff.mp taken
    cases same
    exact ⟨.inl rfl, .inl rfl⟩

theorem run_strings {trace : List (Call × Reply)}
    (run : Run (fun m c r m' => m.step cfg c = some (m', r)) start trace m) :
    SameStrings start m := by
  induction run with
  | refl => exact .refl _
  | next _ taken ih => exact ih.trans (step_strings taken)

/-! ### What the directories and paths denote -/

/-- The directories and the paths below them denote what they did at the start. -/
structure Denotes (cfg : Config) (start m : Mount) : Prop where
  cachePath : ∀ p : Str, p.head? = some '/' → 2 ≤ p.length →
    resolve cfg.cwd (m.realCachePath p).2 = resolve cfg.cwd (start.cacheDirectory ++ '/' :: p)
  filePath : ∀ p : Str, p.head? = some '/' → 2 ≤ p.length →
    resolve cfg.cwd (m.realFilePath p).2 =
      resolve cfg.cwd (start.fileRemoteDirectory ++ '/' :: p)
  cache : resolve cfg.cwd m.cacheDirectory = resolve cfg.cwd start.cacheDirectory
  remote : resolve cfg.cwd m.fileRemoteDirectory = resolve cfg.cwd start.fileRemoteDirectory

theorem directory_withSlash {d d' : Str} (last : d' = d ∨ d' = Mount.withSlash d) :
    Mount.withSlash d' = Mount.withSlash d := by
  rcases last with rfl | rfl
  · rfl
  · exact withSlash_again d

/-- A path is followed from where the string with the slash leads. -/
theorem resolve_below (cwd : Path) (d p : Str) :
    resolve cwd (Mount.withSlash d ++ p) =
      (components p).foldl descend (resolve cwd (Mount.withSlash d)) := by
  obtain ⟨t, ends⟩ := withSlash_ends d
  rw [ends, List.append_assoc, List.singleton_append, resolve_append]

/-- Paths are followed from the place of a directory only if it keeps its place. -/
theorem below_iff (cwd : Path) {d d' : Str} (absolute : d.head? = some '/') (long : 1 < d.length)
    (last : d' = d ∨ d' = Mount.withSlash d) :
    ((∀ p : Str, p.head? = some '/' → 2 ≤ p.length →
        resolve cwd (Mount.withSlash d' ++ p) = resolve cwd (d ++ '/' :: p)) ∧
      resolve cwd d' = resolve cwd d) ↔ KeepsPlace d := by
  rw [directory_withSlash last, ← resolve_withSlash_iff cwd absolute long]
  have front : resolve cwd (d ++ ['/']) = resolve cwd d := by
    rw [resolve_absolute cwd absolute, ← resolve_slash d]
    exact resolve_absolute cwd (by rw [List.head?_append, absolute]; rfl)
  constructor
  · rintro ⟨paths, -⟩
    have own := paths ['/', 'x'] rfl le_rfl
    rw [resolve_below, resolve_append, front] at own
    have parts : components ['/', 'x'] = [[], ['x']] := by decide
    rw [parts] at own
    exact List.append_cancel_right own
  · intro still
    constructor
    · intro p _ _
      rw [resolve_below, resolve_append, front, still]
    · rcases last with rfl | rfl
      · rfl
      · exact still

theorem directories_denote_iff {trace : List (Call × Reply)}
    (run : Run (fun m c r m' => m.step cfg c = some (m', r)) start trace m)
    (cacheAbsolute : start.cacheDirectory.head? = some '/')
    (cacheLong : 1 < start.cacheDirectory.length)
    (remoteAbsolute : start.fileRemoteDirectory.head? = some '/')
    (remoteLong : 1 < start.fileRemoteDirectory.length) :
    Denotes cfg start m ↔
      KeepsPlace start.cacheDirectory ∧ KeepsPlace start.fileRemoteDirectory := by
  have strings := run_strings run
  rw [← below_iff cfg.cwd cacheAbsolute cacheLong strings.cache,
    ← below_iff cfg.cwd remoteAbsolute remoteLong strings.remote]
  constructor
  · intro denotes
    exact ⟨⟨denotes.cachePath, denotes.cache⟩, denotes.filePath, denotes.remote⟩
  · rintro ⟨⟨cachePath, cache⟩, filePath, remote⟩
    exact ⟨cachePath, filePath, cache, remote⟩

/-- Directories that end in a slash. -/
def slashMount : Mount where
  cache := .new fun _ => none
  dirs x := x = [] || x = [['r']] || x = [['c']]
  cacheDirectory := ['/', 'c', '/']
  fileRemoteDirectory := ['/', 'r', '/', '.']

theorem directories_denote_slash :
    Denotes .sample slashMount (slashMount.makeDirectory .sample true ['/', 'd']).1 :=
  have made : slashMount.step .sample (.makeDirectory [['d']] true) =
      some (slashMount.makeDirectory .sample true ['/', 'd']) := rfl
  (directories_denote_iff (.next (.refl slashMount) made) rfl (by decide) rfl (by decide)).mpr
    ⟨.inl rfl, .inr ⟨['/', 'r'], .inl rfl⟩⟩

/-- The last letter of `/c` gives way to a slash. -/
theorem directories_move :
    let made := emptyMount.makeDirectory .sample true ['/', 'd']
    (emptyMount.cacheDirectory.head? = some '/' ∧ 1 < emptyMount.cacheDirectory.length) ∧
      (emptyMount.realCachePath ['/', 'd']).2 = ['/', '/', '/', 'd'] ∧ made.2.code = 0 ∧
      made.1.cacheDirectory = ['/', '/'] ∧ ¬Denotes .sample emptyMount made.1 := by
  intro made
  constructor
  · decide
  · refine ⟨by decide, by decide, by decide, ?_⟩
    intro denotes
    exact absurd denotes.cache (by decide)

end Fuse

end RemoteCache
