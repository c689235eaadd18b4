import RemoteCache.Lib.Files
import RemoteCache.Lib.Subtree
import Mathlib.Data.List.Infix
import Mathlib.Order.Antichain

/-!
# Files opened in a tree

The flat files of a tree are what its programs read and write, as long as nothing
is in the way of the files and their directories are there. Files can be at all
locations of a set at the same time if none of the locations is above another;
making directories for one of them, writing to it and removing things then puts
nothing in the way of the others.
-/
namespace RemoteCache

def ENOTDIR : ℕ := 20
def EISDIR : ℕ := 21

/-- The file has been opened. -/
def Answer.Opens (a : Answer) : Prop := ∀ errno, a ≠ .openFails errno

/-- A file that has been opened is there after the write, and holds what it leaves. -/
theorem Files.pwrite_eq_set (fs : Files) (at_ : Path) (data : Bytes) (off : ℕ) {a : Answer}
    (opens : a.Opens) :
    (fs.pwrite at_ data off a).1 = fs.set at_ ((fs.pwrite at_ data off a).1.content at_) := by
  cases a with
  | done => simp only [pwrite, content_set_same]
  | openFails errno => exact absurd rfl (opens errno)
  | writeFails errno => simp only [pwrite, content_set_same]
  | short n => simp only [pwrite, content_set_same]

/-- `open(O_RDWR | O_CREAT | O_TRUNC)` and `write`. -/
def Files.rewrite (fs : Files) (at_ : Path) (data : Bytes) (a : Answer) : Files × Except ℕ ℕ :=
  match a with
  | .openFails errno => (fs, .error errno)
  | a => (fs.set at_ .empty).pwrite at_ data 0 a

namespace Tree

/-! ### System calls -/

section

variable {α : Type}

/-- `mkdir`, whose failure is ignored. -/
def mkdir (t : Tree α) (p : Path) : Tree α :=
  if (t.node p).isSome then t else (t.put? p .dir).getD t

/-- Removes the files and the empty directories among some locations. -/
def drop (t : Tree α) (gone : Path → Prop) [DecidablePred gone]
    [∀ q, Decidable (t.Bare q)] : Tree α where
  node p := if gone p ∧ t.Bare p ∧ p ≠ [] then none else t.node p
  top := by simp [t.top]
  closed p below there := by
    split at there
    · cases there
    next kept =>
      -- What is above something is not empty.
      have full : ¬t.Bare p.dropLast := fun bare => by
        have absent := bare (p.getLast below)
        rw [List.dropLast_concat_getLast] at absent
        rw [absent] at there
        cases there
      rw [if_neg fun gone => full gone.2.1]
      exact t.closed p below there

/-- There is a file above the location. -/
def barred (t : Tree α) (p : Path) : Bool := p.dropLast.inits.any fun q => (t.file q).isSome

end

/-- Why a file could not be opened. -/
def openError (t : Tree Bytes) (p : Path) : ℕ :=
  if t.node p = some .dir then EISDIR else if t.barred p then ENOTDIR else ENOENT

/-- `open(O_RDONLY)` and `pread`, which fails for a directory. -/
def pread (t : Tree Bytes) (p : Path) (len off : ℕ) : Except ℕ Bytes :=
  match t.file p with
  | some b => .ok (b.slice off len)
  | none => .error (t.openError p)

/-- `open(O_RDWR | O_CREAT)` and `pwrite`. -/
def pwrite (t : Tree Bytes) (p : Path) (data : Bytes) (off : ℕ) (a : Answer) :
    Tree Bytes × Except ℕ ℕ :=
  match a with
  | .openFails errno => (t, .error errno)
  | a =>
    let written := Files.pwrite t.file p data off a
    match t.put? p (.file (written.1.content p)) with
    | none => (t, .error (t.openError p))
    | some t => (t, written.2)

/-- `open(O_RDWR | O_CREAT | O_TRUNC)` and `write`. -/
def rewrite (t : Tree Bytes) (p : Path) (data : Bytes) (a : Answer) :
    Tree Bytes × Except ℕ ℕ :=
  match a with
  | .openFails errno => (t, .error errno)
  | a =>
    match t.put? p (.file .empty) with
    | none => (t, .error (t.openError p))
    | some t => t.pwrite p data 0 a

section

variable {α : Type} {t t' mid : Tree α} {p q : Path}

/-- Directories alone were added, at the location or above it. -/
def Widened (t t' : Tree α) (p : Path) : Prop :=
  ∀ x, t'.node x = t.node x ∨ (t.node x = none ∧ t'.node x = some .dir ∧ x <+: p)

/-- Nothing is in the way of any of the files. -/
def Clear (t : Tree α) (ps : Set Path) : Prop := ∀ p ∈ ps, ¬t.Blocked p

/-- The directories with nothing in them. -/
def emptyDirs (t : Tree α) : Set Path := {p | t.node p = some .dir ∧ t.Bare p}

theorem Clear.leaf {ps : Set Path} (clear : t.Clear ps) (member : p ∈ ps) :
    t.node p ≠ some .dir :=
  fun dir => clear p member (.inr dir)

theorem Clear.above {ps : Set Path} (clear : t.Clear ps) (member : p ∈ ps)
    (above : q <+: p.dropLast) : t.file q = none := by
  by_contra there
  exact clear p member (.inl ⟨q, above, Option.isSome_iff_ne_none.mpr there⟩)

/-! ### Making directories -/

theorem Widened.refl (t : Tree α) (p : Path) : Widened t t p := fun _ => .inl rfl

theorem Widened.trans (first : Widened t mid q) (second : Widened mid t' p) (above : q <+: p) :
    Widened t t' p := fun x => by
  rcases second x with same | ⟨absent, dir, short⟩
  · rw [same]
    exact (first x).imp_right fun new => ⟨new.1, new.2.1, new.2.2.trans above⟩
  · rcases first x with same | ⟨_, here, _⟩
    · exact .inr ⟨same ▸ absent, dir, short⟩
    · rw [here] at absent
      cases absent

theorem Widened.file (wide : Widened t t' p) : t'.file = t.file := by
  funext x
  rcases wide x with same | ⟨absent, dir, _⟩
  · exact file_congr same
  · simp only [Tree.file, absent, dir]

theorem Widened.dir (wide : Widened t t' p) (dir : t.node q = some .dir) :
    t'.node q = some .dir := by
  rcases wide q with same | ⟨_, here, _⟩
  · rw [same, dir]
  · exact here

theorem mkdir_widened (t : Tree α) (p : Path) : Widened t (t.mkdir p) p := fun x => by
  unfold mkdir
  split
  · exact .inl rfl
  next absent =>
    cases done : t.put? p .dir with
    | none => exact .inl rfl
    | some t' =>
      obtain ⟨node, _⟩ := put?_eq_some done
      rw [Option.getD_some, node]
      by_cases same : x = p
      · subst same
        exact .inr ⟨by simpa using absent, Function.update_self .., List.prefix_refl _⟩
      · exact .inl (Function.update_of_ne same ..)

theorem mkdir_dir (below : p ≠ []) (parent : t.node p.dropLast = some .dir)
    (clear : t.file p = none) : (t.mkdir p).node p = some .dir := by
  unfold mkdir
  split
  next there =>
    cases found : t.node p with
    | none => simp [found] at there
    | some n =>
      cases n with
      | file b => simp [Tree.file, found] at clear
      | dir => rfl
  next absent =>
    have room : (t.put? p .dir).isSome := by
      refine put?_isSome.mpr ⟨below, parent, fun dir => absent ?_⟩
      rw [dir]
      rfl
    obtain ⟨t', done⟩ := Option.isSome_iff_exists.mp room
    rw [done, Option.getD_some, (put?_eq_some done).1, Function.update_self]

theorem makedirs_widened (made : t.makedirs [] p = some t') :
    Widened t t' p ∧ t'.node p = some .dir := by
  have spec := makedirs_eq_some t.top made
  rw [List.nil_append] at spec
  exact ⟨spec.2, spec.1⟩

theorem Clear.makedirs {ps : Set Path} (clear : t.Clear ps) (member : p ∈ ps)
    (above : q <+: p.dropLast) : ∃ t', t.makedirs [] q = some t' := by
  rw [← Option.isSome_iff_exists, makedirs_isSome t.top]
  intro x short
  rw [List.nil_append]
  exact clear.above member (short.trans above)

/-! ### What is in the way -/

/-- The directories of one file are in the way of no other. -/
theorem Clear.widened {ps : Set Path} (clear : t.Clear ps)
    (apart : IsAntichain (· <+: ·) ps) (member : p ∈ ps) (wide : Widened t t' p.dropLast) :
    t'.Clear ps := by
  rintro q other (⟨x, above, file⟩ | dir)
  · rw [wide.file] at file
    exact clear q other (.inl ⟨x, above, file⟩)
  · rcases wide q with same | ⟨_, _, short⟩
    · exact clear q other (.inr (same ▸ dir))
    · by_cases same : q = p
      · have length := short.length_le
        have below : p ≠ [] := by
          rintro rfl
          exact clear.leaf member t.top
        have positive := List.length_pos_iff.mpr below
        rw [same, List.length_dropLast] at length
        omega
      · exact apart other member same (short.trans (List.dropLast_prefix p))

/-- A file is in the way of no other. -/
theorem Clear.put {ps : Set Path} (clear : t.Clear ps) (apart : IsAntichain (· <+: ·) ps)
    (member : p ∈ ps) {b : α} (done : t.put? p (.file b) = some t') : t'.Clear ps := by
  have node := (put?_eq_some done).1
  rintro q other (⟨x, above, file⟩ | dir)
  · rw [file_put done] at file
    by_cases same : x = p
    · rw [same] at above
      by_cases here : p = q
      · have below : q ≠ [] := by
          rintro rfl
          exact clear.leaf other t.top
        exact not_under_parent below (here ▸ above)
      · exact apart member other here (above.trans (List.dropLast_prefix q))
    · rw [Function.update_of_ne same] at file
      exact clear q other (.inl ⟨x, above, file⟩)
  · by_cases same : q = p
    · rw [node, same, Function.update_self] at dir
      cases dir
    · rw [node, Function.update_of_ne same] at dir
      exact clear q other (.inr dir)

theorem Clear.drop {ps : Set Path} (clear : t.Clear ps) (gone : Path → Prop)
    [DecidablePred gone] [∀ q, Decidable (t.Bare q)] : (t.drop gone).Clear ps := by
  have fewer : ∀ {x : Path} {n : Inode α}, (t.drop gone).node x = some n → t.node x = some n :=
    fun {x n} there => by
      change (if _ then none else _) = _ at there
      split at there
      · cases there
      · exact there
  rintro q member (⟨x, above, file⟩ | dir)
  · refine clear q member (.inl ⟨x, above, ?_⟩)
    rw [Tree.file] at file
    split at file
    next b there =>
      rw [Tree.file, fewer there]
      rfl
    · cases file
    · cases file
  · exact clear q member (.inr (fewer dir))

theorem drop_other (t : Tree α) (gone : Path → Prop) [DecidablePred gone]
    [∀ q, Decidable (t.Bare q)] (stays : ¬gone p) : (t.drop gone).node p = t.node p :=
  if_neg fun dropped => stays dropped.1

/-- Files are always removed. -/
theorem file_drop (t : Tree α) (gone : Path → Prop) [DecidablePred gone]
    [∀ q, Decidable (t.Bare q)] :
    (t.drop gone).file = fun p => if gone p then none else t.file p := by
  funext p
  by_cases dropped : gone p
  · rw [if_pos dropped]
    by_cases bare : t.Bare p ∧ p ≠ []
    · have absent : (t.drop gone).node p = none := if_pos ⟨dropped, bare⟩
      rw [Tree.file, absent]
    · have same : (t.drop gone).node p = t.node p := if_neg fun all => bare all.2
      -- What is not empty, or the top, is a directory.
      have dir : t.node p = some .dir := by
        by_contra leaf
        refine bare ⟨fun name => ?_, fun top => leaf (by rw [top, t.top])⟩
        exact t.absent_below leaf (List.prefix_append _ _) (by simp)
      rw [Tree.file, same, dir]
  · rw [if_neg dropped]
    exact file_congr (t.drop_other gone dropped)

/-! ### Empty directories -/

/-- Of the directories that are made, all but the last lead to another one. -/
theorem emptyDirs_widened (wide : Widened t t' p) (made : t'.node p = some .dir) :
    t'.emptyDirs ⊆ insert p t.emptyDirs := by
  rintro q ⟨dir, bare⟩
  rcases wide q with same | ⟨_, _, rest, path⟩
  · refine .inr ⟨same ▸ dir, fun name => ?_⟩
    rcases wide (q ++ [name]) with kept | ⟨absent, _⟩
    · exact kept ▸ bare name
    · exact absent
  · cases rest with
    | nil => exact .inl (by rwa [List.append_nil] at path)
    | cons name rest =>
      have next : q ++ [name] <+: p := ⟨rest, by rw [← path, List.append_assoc]; rfl⟩
      have there : t'.node (q ++ [name]) = some .dir := by
        by_cases last : q ++ [name] = p
        · rw [last, made]
        · exact t'.dir_above (by rw [made]; rfl) next last
      rw [bare name] at there
      cases there

/-- Making directories and a file in them leaves no directory empty. -/
theorem emptyDirs_put (wide : Widened t mid p.dropLast) {b : α}
    (done : mid.put? p (.file b) = some t') : t'.emptyDirs ⊆ t.emptyDirs := by
  obtain ⟨below, parent, _⟩ := put?_isSome.mp (Option.isSome_iff_exists.mpr ⟨t', done⟩)
  have node := (put?_eq_some done).1
  rintro q ⟨dir, bare⟩
  have other : q ≠ p := by
    rintro rfl
    rw [node, Function.update_self] at dir
    cases dir
  rw [node, Function.update_of_ne other] at dir
  have empty : q ∈ mid.emptyDirs := ⟨dir, fun name => by
    have absent := bare name
    rw [node] at absent
    by_cases same : q ++ [name] = p
    · rw [same, Function.update_self] at absent
      cases absent
    · rwa [Function.update_of_ne same] at absent⟩
  refine (emptyDirs_widened wide parent empty).resolve_left fun last => ?_
  have absent := bare (p.getLast below)
  rw [last, List.dropLast_concat_getLast, node, Function.update_self] at absent
  cases absent

/-- Removing some of what is in a directory makes no other directory empty. -/
theorem emptyDirs_drop {d : Path} (gone : Path → Prop) [DecidablePred gone]
    [∀ q, Decidable (t.Bare q)] (within : ∀ x, gone x → x.dropLast = d) :
    (t.drop gone).emptyDirs ⊆ insert d t.emptyDirs := by
  rintro q ⟨dir, bare⟩
  by_cases same : q = d
  · exact .inl same
  · refine .inr ⟨?_, fun name => ?_⟩
    · change (if _ then none else _) = _ at dir
      split at dir
      · cases dir
      · exact dir
    · have absent := bare name
      change (if _ then none else _) = _ at absent
      rwa [if_neg fun dropped => same (by simpa using within _ dropped.1)] at absent

/-- An empty directory that is removed is gone. -/
theorem emptyDirs_rmdir {d : Path} (below : d ≠ []) [∀ q, Decidable (t.Bare q)] :
    d ∉ (t.drop (· = d)).emptyDirs := by
  rintro ⟨dir, bare⟩
  have full : ¬t.Bare d := fun empty => by
    change (if _ then none else _) = _ at dir
    rw [if_pos ⟨rfl, empty, below⟩] at dir
    cases dir
  refine full fun name => ?_
  have absent := bare name
  change (if _ then none else _) = _ at absent
  rwa [if_neg fun dropped => by simp at dropped] at absent

end

/-! ### Reading and writing -/

section

variable {t t' mid : Tree Bytes} {ps : Set Path} {p : Path}

theorem Clear.not_barred (clear : t.Clear ps) (member : p ∈ ps) : t.barred p = false := by
  rw [barred, List.any_eq_false]
  intro q above
  rw [clear.above member ((List.mem_inits _ _).mp above)]
  exact Bool.false_ne_true

/-- Where nothing is in the way of a file, it is read as one of the flat files. -/
theorem Clear.pread (clear : t.Clear ps) (member : p ∈ ps) (len off : ℕ) :
    t.pread p len off = Files.pread t.file p len off := by
  rw [Tree.pread, Files.pread]
  cases t.file p with
  | some b => rfl
  | none =>
    simp only [openError, clear.leaf member, clear.not_barred member, if_false,
      Bool.false_eq_true]

/-- Where nothing is in the way of a file and its directory is there, it is opened unless the
kernel refuses. -/
theorem Clear.put? (clear : t.Clear ps) (member : p ∈ ps)
    (parent : t.node p.dropLast = some .dir) (b : Bytes) : ∃ t', t.put? p (.file b) = some t' := by
  have below : p ≠ [] := fun top => clear.leaf member (by rw [top, t.top])
  exact Option.isSome_iff_exists.mp (put?_isSome.mpr ⟨below, parent, clear.leaf member⟩)

/-- What writing to a file leaves of a tree in which its directories have been made. -/
structure Written (ps : Set Path) (t t' : Tree Bytes) (a : Answer) : Prop where
  clear : t'.Clear ps
  dirs : ∀ q, t.node q = some .dir → t'.node q = some .dir
  full : a.Opens → t'.emptyDirs ⊆ t.emptyDirs

theorem Clear.put_written (clear : t.Clear ps) (apart : IsAntichain (· <+: ·) ps)
    (member : p ∈ ps) (wide : Widened t mid p.dropLast) {b : Bytes}
    (done : mid.put? p (.file b) = some t') (a : Answer) : Written ps t t' a where
  clear := (clear.widened apart member wide).put apart member done
  dirs q dir := by
    obtain ⟨node, leaf⟩ := put?_eq_some done
    have here := wide.dir dir
    have other : q ≠ p := by
      rintro rfl
      exact leaf here
    rw [node, Function.update_of_ne other, here]
  full _ := emptyDirs_put wide done

/-- The file is written as one of the flat files. -/
theorem Clear.pwrite (clear : t.Clear ps) (apart : IsAntichain (· <+: ·) ps) (member : p ∈ ps)
    (wide : Widened t mid p.dropLast) (parent : mid.node p.dropLast = some .dir) (data : Bytes)
    (off : ℕ) (a : Answer) :
    ((mid.pwrite p data off a).1.file, (mid.pwrite p data off a).2) =
        Files.pwrite t.file p data off a ∧
      Written ps t (mid.pwrite p data off a).1 a := by
  rw [← wide.file]
  by_cases opens : a.Opens
  · obtain ⟨t', done⟩ := (clear.widened apart member wide).put? member parent
      ((Files.pwrite mid.file p data off a).1.content p)
    have result : mid.pwrite p data off a = (t', (Files.pwrite mid.file p data off a).2) := by
      cases a with
      | openFails errno => exact absurd rfl (opens errno)
      | done => simp only [Tree.pwrite, done]
      | writeFails errno => simp only [Tree.pwrite, done]
      | short n => simp only [Tree.pwrite, done]
    rw [result]
    refine ⟨?_, clear.put_written apart member wide done a⟩
    ext1
    · change t'.file = _
      rw [file_put done, Files.pwrite_eq_set mid.file p data off opens]
      simp only [Files.set, Files.content, Function.update_self, Option.getD_some]
    · rfl
  · obtain ⟨errno, rfl⟩ : ∃ errno, a = .openFails errno := by simpa [Answer.Opens] using opens
    refine ⟨rfl, clear.widened apart member wide, fun q => wide.dir, ?_⟩
    exact fun opens' => absurd opens' opens

theorem Clear.rewrite (clear : t.Clear ps) (apart : IsAntichain (· <+: ·) ps) (member : p ∈ ps)
    (wide : Widened t mid p.dropLast) (parent : mid.node p.dropLast = some .dir) (data : Bytes)
    (a : Answer) :
    ((mid.rewrite p data a).1.file, (mid.rewrite p data a).2) = Files.rewrite t.file p data a ∧
      Written ps t (mid.rewrite p data a).1 a := by
  by_cases opens : a.Opens
  · obtain ⟨t', done⟩ := (clear.widened apart member wide).put? member parent .empty
    have first := clear.put_written apart member wide done a
    have emptied : t'.file = Files.set t.file p .empty := by
      rw [file_put done, wide.file, Files.set]
    have result : mid.rewrite p data a = t'.pwrite p data 0 a ∧
        Files.rewrite t.file p data a = Files.pwrite t'.file p data 0 a := by
      rw [emptied]
      cases a with
      | openFails errno => exact absurd rfl (opens errno)
      | done => simp only [Tree.rewrite, done, Files.rewrite, and_self]
      | writeFails errno => simp only [Tree.rewrite, done, Files.rewrite, and_self]
      | short n => simp only [Tree.rewrite, done, Files.rewrite, and_self]
    have below : p ≠ [] := fun top => clear.leaf member (by rw [top, t.top])
    have higher : p.dropLast ≠ p := fun same =>
      not_under_parent below (by rw [same])
    have dir : t'.node p.dropLast = some .dir := by
      rw [(put?_eq_some done).1, Function.update_of_ne higher, parent]
    obtain ⟨same, second⟩ := first.clear.pwrite apart member (.refl t' _) dir data 0 a
    rw [result.1, result.2]
    exact ⟨same, second.clear, fun q here => second.dirs q (first.dirs q here),
      fun opens => (second.full opens).trans (first.full opens)⟩
  · obtain ⟨errno, rfl⟩ : ∃ errno, a = .openFails errno := by simpa [Answer.Opens] using opens
    refine ⟨by rw [Tree.rewrite, Files.rewrite, wide.file], clear.widened apart member wide,
      fun q => wide.dir, ?_⟩
    exact fun opens' => absurd opens' opens

end

end Tree

end RemoteCache
