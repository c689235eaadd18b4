import RemoteCache.Lib.Paths
import Mathlib.Data.List.Induction
import Mathlib.Logic.Function.Basic

/-!
# Directory trees

A tree says what is at each location: nothing, a directory, or a file with its
content. Whatever there is lies in a directory. Files and directories are put
into directories only, and a directory is never replaced.
-/
namespace RemoteCache

inductive Inode (α : Type) where
  | file (content : α)
  | dir

instance {α : Type} (n : Option (Inode α)) : Decidable (n = some .dir) :=
  match n with
  | none => isFalse nofun
  | some (.file _) => isFalse nofun
  | some .dir => isTrue rfl

@[ext] structure Tree (α : Type) where
  node : Path → Option (Inode α)
  top : node [] = some .dir
  closed : ∀ p, p ≠ [] → (node p).isSome → node p.dropLast = some .dir

namespace Tree

variable {α : Type}

/-- Nothing but the top. -/
def empty : Tree α where
  node p := if p = [] then some .dir else none
  top := rfl
  closed p below there := by simp [below] at there

/-- The content of the file at a location. -/
def file (t : Tree α) (p : Path) : Option α :=
  match t.node p with
  | some (.file b) => some b
  | some .dir => none
  | none => none

def put (t : Tree α) (p : Path) (n : Inode α) (inside : p ≠ [])
    (parent : t.node p.dropLast = some .dir) (leaf : t.node p ≠ some .dir) : Tree α where
  node := Function.update t.node p (some n)
  top := by rw [Function.update_of_ne inside.symm, t.top]
  closed q below there := by
    -- Nothing lies below a location that is not a directory.
    have above : q.dropLast ≠ p := by
      rintro rfl
      have other : q ≠ q.dropLast := fun same => by
        have length := congrArg List.length same
        have positive := List.length_pos_iff.mpr below
        rw [List.length_dropLast] at length
        omega
      rw [Function.update_of_ne other] at there
      exact leaf (t.closed q below there)
    rw [Function.update_of_ne above]
    by_cases here : q = p
    · exact here ▸ parent
    · rw [Function.update_of_ne here] at there
      exact t.closed q below there

/-- Puts a file or a directory where there is no directory yet, if its parent is one. -/
def put? (t : Tree α) (p : Path) (n : Inode α) : Option (Tree α) :=
  if ok : p ≠ [] ∧ t.node p.dropLast = some .dir ∧ t.node p ≠ some .dir then
    some (t.put p n ok.1 ok.2.1 ok.2.2)
  else none

/-- Creates the directories that are missing on the way from `done` through `rest`. -/
def makedirs (t : Tree α) (done : Path) : List Str → Option (Tree α)
  | [] => some t
  | name :: rest =>
    match t.node (done ++ [name]) with
    | some .dir => makedirs t (done ++ [name]) rest
    | some (.file _) => none
    | none => (t.put? (done ++ [name]) .dir).bind fun t => makedirs t (done ++ [name]) rest

/-- Removes what is at a location and below, but never the top. -/
def rmtree (t : Tree α) (p : Path) : Tree α where
  node q := if p <+: q ∧ q ≠ [] then none else t.node q
  top := by simp [t.top]
  closed q below there := by
    split at there
    · cases there
    next outside =>
      rw [if_neg]
      · exact t.closed q below there
      · rintro ⟨under, _⟩
        exact outside ⟨under.trans (List.dropLast_prefix q), below⟩

theorem file_rmtree (t : Tree α) (p q : Path) :
    (t.rmtree p).file q = if p <+: q then none else t.file q := by
  by_cases top : q = []
  · simp [file, rmtree, top, t.top]
  · by_cases under : p <+: q
    · simp [file, rmtree, under, top]
    · simp [file, rmtree, under]

/-! ### Putting -/

theorem put?_eq_some {t t' : Tree α} {p : Path} {n : Inode α} (done : t.put? p n = some t') :
    t'.node = Function.update t.node p (some n) ∧ t.node p ≠ some .dir := by
  unfold put? at done
  split at done
  next ok =>
    cases done
    exact ⟨rfl, ok.2.2⟩
  · cases done

theorem put?_isSome {t : Tree α} {p : Path} {n : Inode α} :
    (t.put? p n).isSome ↔
      p ≠ [] ∧ t.node p.dropLast = some .dir ∧ t.node p ≠ some .dir := by
  unfold put?
  split
  next ok => simpa using ok
  next bad => simpa using bad

/-- What is above something is a directory. -/
theorem dir_above (t : Tree α) {p q : Path} (there : (t.node p).isSome) (above : q <+: p)
    (other : q ≠ p) : t.node q = some .dir := by
  induction p using List.reverseRecOn with
  | nil => exact absurd (List.prefix_nil.mp above) other
  | append_singleton p name ih =>
    have parent : t.node p = some .dir := by
      simpa using t.closed (p ++ [name]) (by simp) there
    rcases List.prefix_concat_iff.mp above with same | higher
    · exact absurd same other
    · by_cases same : q = p
      · rw [same, parent]
      · exact ih (by rw [parent]; rfl) higher same

/-- There is nothing below what is not a directory. -/
theorem absent_below (t : Tree α) {p q : Path} (leaf : t.node p ≠ some .dir) (below : p <+: q)
    (other : p ≠ q) : t.node q = none := by
  by_contra there
  exact leaf (t.dir_above (Option.isSome_iff_ne_none.mpr there) below other)

/-! ### Making directories -/

theorem makedirs_eq_some {t t' : Tree α} {done rest : Path} (start : t.node done = some .dir)
    (made : t.makedirs done rest = some t') :
    t'.node (done ++ rest) = some .dir ∧
      (∀ q, t'.node q = t.node q ∨
        (t.node q = none ∧ t'.node q = some .dir ∧ q <+: done ++ rest)) := by
  induction rest generalizing t done with
  | nil =>
    cases made
    exact ⟨by simpa using start, fun q => .inl rfl⟩
  | cons name rest ih =>
    rw [List.append_cons]
    unfold makedirs at made
    split at made
    next dir => exact ih dir made
    · cases made
    next absent =>
      obtain ⟨mid, put, made⟩ := Option.bind_eq_some_iff.mp made
      obtain ⟨node, _⟩ := put?_eq_some put
      have here : mid.node (done ++ [name]) = some .dir := by rw [node, Function.update_self]
      obtain ⟨ends, others⟩ := ih here made
      refine ⟨ends, fun q => ?_⟩
      by_cases same : q = done ++ [name]
      · subst same
        rcases others (done ++ [name]) with kept | ⟨none, _⟩
        · exact .inr ⟨absent, kept.trans here, List.prefix_append _ _⟩
        · rw [here] at none
          cases none
      · have later := others q
        rwa [node, Function.update_of_ne same] at later

/-- Directories can be made unless there is a file in the way. -/
theorem makedirs_isSome {t : Tree α} {done rest : Path} (start : t.node done = some .dir) :
    (t.makedirs done rest).isSome ↔ ∀ q, q <+: rest → t.file (done ++ q) = none := by
  induction rest generalizing t done with
  | nil => simp [makedirs, file, start]
  | cons name rest ih =>
    have split : (∀ q, q <+: name :: rest → t.file (done ++ q) = none) ↔
        ∀ q, q <+: rest → t.file (done ++ [name] ++ q) = none := by
      constructor
      · intro none q short
        rw [List.append_assoc]
        exact none ([name] ++ q) (by simpa using short)
      · intro none q short
        rcases List.prefix_cons_iff.mp short with rfl | ⟨q, rfl, shorter⟩
        · simp [file, start]
        · rw [List.append_cons]
          exact none q shorter
    rw [split]
    unfold makedirs
    split
    next dir => exact ih dir
    next b there =>
      simp only [Option.isSome_none, Bool.false_eq_true, false_iff, not_forall]
      exact ⟨[], List.nil_prefix, by simp [file, there]⟩
    next absent =>
      have room : (t.put? (done ++ [name]) .dir).isSome := by
        simp [put?_isSome, start, absent]
      obtain ⟨mid, put⟩ := Option.isSome_iff_exists.mp room
      obtain ⟨node, _⟩ := put?_eq_some put
      have here : mid.node (done ++ [name]) = some .dir := by rw [node, Function.update_self]
      have free : ∀ q, t.file (done ++ [name] ++ q) = none := fun q => by
        by_cases same : q = []
        · simp [file, same, absent]
        · have below := t.absent_below (p := done ++ [name]) (q := done ++ [name] ++ q)
            (by simp [absent]) (List.prefix_append _ _) (by simpa using same)
          simp only [file, below]
      have same : ∀ q, mid.file q = t.file q := fun q => by
        by_cases new : q = done ++ [name]
        · simp [file, new, here, absent]
        · simp only [file, node, Function.update_of_ne new]
      simp only [put, Option.bind_some, ih here, same, free, implies_true]

/-! ### Writing a file -/

/-- A file cannot be written here: there is a file above, or a directory. -/
def Blocked (t : Tree α) (p : Path) : Prop :=
  (∃ q, q <+: p.dropLast ∧ (t.file q).isSome) ∨ t.node p = some .dir

/-- Nothing is in the way of a file that is there. -/
theorem not_blocked_of_file {t : Tree α} {p : Path} (there : (t.file p).isSome) :
    ¬t.Blocked p := by
  rintro (⟨q, above, file⟩ | dir)
  · have short := above.length_le
    have higher : q ≠ p := by
      rintro rfl
      have top : q = [] := by
        rw [List.length_dropLast] at short
        exact List.eq_nil_of_length_eq_zero (by omega)
      simp [Tree.file, top, t.top] at there
    have present : (t.node p).isSome := by
      by_contra absent
      simp [Tree.file, Option.not_isSome_iff_eq_none.mp absent] at there
    have dir := t.dir_above present (above.trans (List.dropLast_prefix p)) higher
    simp [Tree.file, dir] at file
  · simp [Tree.file, dir] at there

/-- Makes the parent directory, unless there is something, and puts the file. -/
def create (t : Tree α) (p : Path) (b : α) : Option (Tree α) :=
  (if (t.node p.dropLast).isSome then some t else t.makedirs [] p.dropLast).bind
    (·.put? p (.file b))

theorem file_put {t t' : Tree α} {p : Path} {b : α} (done : t.put? p (.file b) = some t') :
    t'.file = Function.update t.file p (some b) := by
  obtain ⟨node, _⟩ := put?_eq_some done
  funext q
  by_cases same : q = p
  · simp [same, file, node]
  · simp only [file, node, Function.update_of_ne same]

/-- Making directories changes no file. -/
theorem file_makedirs {t t' : Tree α} {p : Path} (made : t.makedirs [] p = some t') :
    t'.file = t.file := by
  funext q
  rcases (makedirs_eq_some t.top made).2 q with same | ⟨absent, dir, _⟩
  · simp only [file, same]
  · simp only [file, absent, dir]

/-- In a directory a file can be put wherever there is no directory. -/
private theorem put_into {t : Tree α} {p : Path} (inside : p ≠ [])
    (parent : t.node p.dropLast = some .dir) (b : α) :
    (t.node p = some .dir ∧ t.put? p (.file b) = none) ∨
      (t.node p ≠ some .dir ∧ ∃ t', t.put? p (.file b) = some t' ∧
        t'.file = Function.update t.file p (some b)) := by
  by_cases leaf : t.node p = some .dir
  · refine .inl ⟨leaf, ?_⟩
    simp [put?, leaf]
  · obtain ⟨t', done⟩ := Option.isSome_iff_exists.mp (put?_isSome.mpr ⟨inside, parent, leaf⟩)
    exact .inr ⟨leaf, t', done, file_put done⟩

/-- Creating a file fails if it is blocked, else it changes that file alone. -/
theorem create_spec (t : Tree α) {p : Path} (inside : p ≠ []) (b : α) :
    (t.Blocked p ∧ t.create p b = none) ∨
      (¬t.Blocked p ∧
        ∃ t', t.create p b = some t' ∧ t'.file = Function.update t.file p (some b)) := by
  have missing : t.node p.dropLast ≠ some .dir → t.node p ≠ some .dir := fun absent leaf =>
    absent (t.closed p inside (by rw [leaf]; rfl))
  cases parent : t.node p.dropLast with
  | none =>
    have leaf := missing (by simp [parent])
    have blocked : t.Blocked p ↔ ¬(t.makedirs [] p.dropLast).isSome := by
      rw [makedirs_isSome t.top, Blocked, or_iff_left leaf]
      simp [Option.isSome_iff_ne_none]
    rw [blocked, create, parent]
    cases made : t.makedirs [] p.dropLast with
    | none => exact .inl ⟨by simp, by simp⟩
    | some mid =>
      obtain ⟨dir, others⟩ := makedirs_eq_some t.top made
      -- Making the parents adds directories above `p` only.
      have free : mid.node p ≠ some .dir := by
        rcases others p with same | ⟨_, _, short⟩
        · rwa [same]
        · have length := short.length_le
          have positive := List.length_pos_iff.mpr inside
          rw [List.nil_append, List.length_dropLast] at length
          omega
      rcases put_into inside dir b with ⟨bad, _⟩ | ⟨_, t', done, file⟩
      · exact absurd bad free
      · exact .inr ⟨by simp, t', by simpa [made] using done, by rw [file, file_makedirs made]⟩
  | some found =>
    simp only [create, parent, Option.isSome_some, if_true, Option.bind_some]
    cases found with
    | file content =>
      refine .inl ⟨.inl ⟨_, List.prefix_refl _, by simp [file, parent]⟩, ?_⟩
      simp [put?, parent]
    | dir =>
      -- Nothing above an existing directory is a file.
      have clear : ∀ q, q <+: p.dropLast → t.file q = none := fun q above => by
        by_cases same : q = p.dropLast
        · simp [file, same, parent]
        · simp [file, t.dir_above (by rw [parent]; rfl) above same]
      have blocked : t.Blocked p ↔ t.node p = some .dir := by
        apply or_iff_right
        rintro ⟨q, above, there⟩
        rw [clear q above] at there
        cases there
      rw [blocked]
      exact put_into inside parent b

end Tree

end RemoteCache
