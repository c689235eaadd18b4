import RemoteCache.Lib.Digits

/-!
# Lexical path resolution

A path string names a file by its components: empty components and `.` stay
where they are, `..` goes up, everything else goes down. A location is the list
of component names from the top of the tree.
-/
namespace RemoteCache

abbrev Path := List Str

def components (s : Str) : List Str := s.splitOn '/'

/-- One component of a path, followed from `at_`. -/
def descend (at_ : Path) (c : Str) : Path :=
  if c = [] ∨ c = ['.'] then at_
  else if c = ['.', '.'] then at_.dropLast
  else at_ ++ [c]

/-- The location a path string denotes in a process whose working directory is `cwd`. -/
def resolve (cwd : Path) (s : Str) : Path :=
  (components s).foldl descend (if s.head? = some '/' then [] else cwd)

/-- `fs::path::operator/`, and `os.path.join` of two paths. -/
def joinPath (left right : Str) : Str :=
  if right.head? = some '/' then right
  else if left = [] ∨ left.getLast? = some '/' then left ++ right
  else left ++ '/' :: right

/-- A component that is an ordinary name. -/
def PlainName (c : Str) : Prop := c ≠ [] ∧ c ≠ ['.'] ∧ c ≠ ['.', '.'] ∧ '/' ∉ c

theorem PlainName.head {c : Str} (plain : PlainName c) : c.head? ≠ some '/' := fun slash => by
  obtain ⟨rest, rfl⟩ := List.head?_eq_some_iff.mp slash
  exact plain.2.2.2 List.mem_cons_self

theorem descend_plain (at_ : Path) {c : Str} (plain : PlainName c) :
    descend at_ c = at_ ++ [c] := by
  simp [descend, plain.1, plain.2.1, plain.2.2.1]

theorem components_append (s t : Str) :
    components (s ++ '/' :: t) = components s ++ components t :=
  List.splitOn_append_cons_self s t

theorem components_plain {c : Str} (plain : PlainName c) : components c = [c] :=
  List.splitOn_eq_singleton plain.2.2.2

theorem components_slash (s : Str) : components ('/' :: s) = [] :: components s :=
  components_append [] s

theorem components_flatMap {names : Path} (plain : ∀ c ∈ names, PlainName c) :
    components (names.flatMap (· ++ ['/'])) = names ++ [[]] := by
  induction names with
  | nil => rfl
  | cons c names ih =>
    have rest := ih fun d member => plain d (List.mem_cons_of_mem _ member)
    rw [List.flatMap_cons, List.append_assoc, List.singleton_append, components_append, rest,
      components_plain (plain c List.mem_cons_self), List.singleton_append, List.cons_append]

/-- Resolution of a string with a slash in it proceeds from the part before the slash. -/
theorem resolve_append (cwd : Path) (s t : Str) :
    resolve cwd (s ++ '/' :: t) = (components t).foldl descend (resolve cwd (s ++ ['/'])) := by
  have front : (s ++ ['/']).head? = (s ++ '/' :: t).head? := by cases s <;> rfl
  simp only [resolve, front, components_append, List.foldl_append]
  simp [components, descend]

/-! ### Paths from the top -/

theorem foldl_descend_plain (at_ : Path) {names : Path} (plain : ∀ c ∈ names, PlainName c) :
    names.foldl descend at_ = at_ ++ names := by
  induction names generalizing at_ with
  | nil => simp
  | cons c names ih =>
    rw [List.foldl_cons, descend_plain _ (plain c (by simp)), ih _ fun d member =>
      plain d (List.mem_cons_of_mem _ member), List.append_assoc, List.singleton_append]

theorem resolve_top (s : Str) : resolve [] s = (components s).foldl descend [] := by
  rw [resolve, ite_self]

/-- A slash at the end of a path makes no difference. -/
theorem resolve_slash (s : Str) : resolve [] (s ++ ['/']) = resolve [] s := by
  rw [resolve_top, resolve_top, components_append, List.foldl_append]
  simp [components, descend]

/-- A string that is empty or ends in a slash. -/
def EndsPath (s : Str) : Prop := s = [] ∨ ∃ t, s = t ++ ['/']

theorem EndsPath.append {s t : Str} (first : EndsPath s) (second : EndsPath t) :
    EndsPath (s ++ t) := by
  rcases second with rfl | ⟨t, rfl⟩
  · simpa using first
  · exact .inr ⟨s ++ t, by simp⟩

theorem EndsPath.tail {l : Char} {s : Str} (ends : EndsPath (l :: s)) : EndsPath s := by
  rcases ends with none | ⟨t, same⟩
  · cases none
  · cases t with
    | nil => exact .inl (List.cons.inj same).2
    | cons _ t => exact .inr ⟨t, (List.cons.inj same).2⟩

theorem EndsPath.resolve {s : Str} (ends : EndsPath s) (t : Str) :
    resolve [] (s ++ t) = (components t).foldl descend (resolve [] s) := by
  rcases ends with rfl | ⟨s, rfl⟩
  · simp [resolve_top, components, descend]
  · rw [List.append_assoc, List.singleton_append, resolve_append]

theorem joinPath_relative (left : Str) {right : Str} (relative : right.head? ≠ some '/') :
    ∃ front, joinPath left right = front ++ right ∧ EndsPath front ∧
      resolve [] front = resolve [] left := by
  unfold joinPath
  rw [if_neg relative]
  split
  next ends =>
    refine ⟨left, rfl, ends.imp_right fun last => ?_, rfl⟩
    obtain ⟨t, same⟩ := List.getLast?_eq_some_iff.mp last
    exact ⟨t, same⟩
  · exact ⟨left ++ ['/'], by simp, .inr ⟨left, rfl⟩, resolve_slash left⟩

/-- A name joined to a path goes one level down. -/
theorem foldl_joinPath (at_ : Path) (left : Str) {name : Str} (plain : PlainName name) :
    (components (joinPath left name)).foldl descend at_ =
      (components left).foldl descend at_ ++ [name] := by
  have step (front : Str) : (components (front ++ '/' :: name)).foldl descend at_ =
      (components front).foldl descend at_ ++ [name] := by
    rw [components_append, components_plain plain, List.foldl_append, List.foldl_cons,
      List.foldl_nil, descend_plain _ plain]
  rw [joinPath, if_neg plain.head]
  split
  next ends =>
    rcases ends with rfl | slash
    · rw [List.nil_append, components_plain plain, List.foldl_cons, List.foldl_nil,
        descend_plain _ plain]
      simp [components, descend]
    · obtain ⟨front, rfl⟩ := List.getLast?_eq_some_iff.mp slash
      rw [List.append_assoc, List.singleton_append, step, components_append, List.foldl_append]
      simp [components, descend]
  · exact step left

/-! ### Normal paths -/

/-- Some ordinary names, each after a slash. -/
def slashed (names : Path) : Str := names.flatMap ('/' :: ·)

/-- An absolute path without empty components, `.` and `..`. -/
def NormalPath (p : Str) : Prop :=
  ∃ names : Path, names ≠ [] ∧ (∀ c ∈ names, PlainName c) ∧ p = slashed names

theorem components_slashed {names : Path} (some : names ≠ []) (plain : ∀ c ∈ names, PlainName c) :
    components (slashed names).tail = names := by
  induction names with
  | nil => exact absurd rfl some
  | cons c names ih =>
    have own := components_plain (plain c List.mem_cons_self)
    cases names with
    | nil => simpa [slashed] using own
    | cons d names =>
      have rest := ih (by simp) fun e member => plain e (List.mem_cons_of_mem _ member)
      have tail : (slashed (c :: d :: names)).tail = c ++ '/' :: (slashed (d :: names)).tail := by
        simp [slashed]
      rw [tail, components_append, own, rest, List.singleton_append]

theorem slashed_head {names : Path} (some : names ≠ []) :
    slashed names = '/' :: (slashed names).tail := by
  cases names with
  | nil => exact absurd rfl some
  | cons c names => rfl

/-- A relative path joined to a directory is followed from the same place, whatever it is. -/
theorem resolve_joinPath (cwd : Path) (left : Str) :
    ∃ top, ∀ right : Str, right.head? ≠ some '/' →
      resolve cwd (joinPath left right) = (components right).foldl descend top := by
  by_cases empty : left = []
  · refine ⟨cwd, fun right relative => ?_⟩
    rw [joinPath, if_neg relative, if_pos (.inl empty), empty, List.nil_append, resolve,
      if_neg relative]
  · by_cases ends : left.getLast? = some '/'
    · obtain ⟨front, rfl⟩ := List.getLast?_eq_some_iff.mp ends
      refine ⟨resolve cwd (front ++ ['/']), fun right relative => ?_⟩
      rw [joinPath, if_neg relative, if_pos (.inr ends), List.append_assoc, List.singleton_append,
        resolve_append]
    · refine ⟨resolve cwd (left ++ ['/']), fun right relative => ?_⟩
      rw [joinPath, if_neg relative, if_neg (by simp [empty, ends]), resolve_append]

end RemoteCache
