import RemoteCache.Lib.Tree

/-!
# Moving subtrees

`rename` of POSIX: what is at a location goes to another one, with all that is
below. A file takes the place of a file or of nothing, a directory that of an
empty directory or of nothing, and neither location is above the other. Whether a
directory is empty is for the file system to say.
-/
namespace RemoteCache.Tree

variable {α : Type}

/-- There is nothing in the directory. -/
def Bare (t : Tree α) (p : Path) : Prop := ∀ name, t.node (p ++ [name]) = none

/-- Neither location is the other one or above it. -/
def Apart (p q : Path) : Prop := ¬p <+: q ∧ ¬q <+: p

instance (p q : Path) : Decidable (Apart p q) := inferInstanceAs (Decidable (_ ∧ _))

/-- What is at the first location may take the place of what is at the second one. -/
def Replaces (t : Tree α) (p q : Path) : Prop :=
  ((t.file p).isSome ∧ t.node q ≠ some .dir) ∨
    (t.node p = some .dir ∧ ((t.node q).isNone ∨ (t.node q = some .dir ∧ t.Bare q)))

instance (t : Tree α) [∀ q, Decidable (t.Bare q)] (p q : Path) : Decidable (t.Replaces p q) :=
  inferInstanceAs (Decidable (_ ∨ _))

theorem file_congr {t t' : Tree α} {p q : Path} (same : t'.node p = t.node q) :
    t'.file p = t.file q := by
  rw [file, same, file]

theorem not_under_dropLast {p q : Path} (other : ¬p <+: q) : ¬p <+: q.dropLast := fun above =>
  other (above.trans (List.dropLast_prefix q))

theorem not_under_parent {q : Path} (below : q ≠ []) : ¬q <+: q.dropLast := fun above => by
  have length := above.length_le
  have positive := List.length_pos_iff.mpr below
  rw [List.length_dropLast] at length
  omega

theorem above_dropLast {x q : Path} (above : x <+: q) (other : x ≠ q) : x <+: q.dropLast := by
  obtain ⟨rest, rfl⟩ := above
  have proper : rest ≠ [] := fun empty => other (by rw [empty, List.append_nil])
  rw [List.dropLast_append_of_ne_nil proper]
  exact List.prefix_append x _

/-- Takes what is at `p` and below to `q`. -/
def move (t : Tree α) (p q : Path) (apart : Apart p q) (parent : t.node q.dropLast = some .dir) :
    Tree α where
  node x :=
    if p <+: x then none else if q <+: x then t.node (p ++ x.drop q.length) else t.node x
  top := by
    have first : ¬p <+: [] := fun above => apart.1 (above.trans List.nil_prefix)
    have second : ¬q <+: [] := fun above => apart.2 (above.trans List.nil_prefix)
    rw [if_neg first, if_neg second, t.top]
  closed x below there := by
    split at there
    · cases there
    next outside =>
      rw [if_neg (not_under_dropLast outside)]
      split at there
      next under =>
        obtain ⟨rest, rfl⟩ := under
        rw [List.drop_left] at there
        by_cases here : rest = []
        · have top : q ≠ [] := fun same => apart.2 (same ▸ List.nil_prefix)
          rw [here, List.append_nil, if_neg (not_under_parent top), parent]
        -- Below the new location the tree is that below the old one.
        · rw [List.dropLast_append_of_ne_nil here, if_pos (List.prefix_append _ _), List.drop_left,
            ← List.dropLast_append_of_ne_nil here]
          exact t.closed _ (by simp [here]) there
      next outside' =>
        rw [if_neg (not_under_dropLast outside')]
        exact t.closed x below there

/-- Renames `p` to `q`, unless the file system refuses. -/
def rename (t : Tree α) [∀ q, Decidable (t.Bare q)] (p q : Path) : Option (Tree α) :=
  if p = q then if (t.node p).isSome then some t else none
  else if ok : Apart p q ∧ t.node q.dropLast = some .dir ∧ t.Replaces p q then
    some (t.move p q ok.1 ok.2.1)
  else none

section

variable {t t' : Tree α} [bare : ∀ q, Decidable (t.Bare q)] {p q : Path}

theorem rename_isSome : (t.rename p q).isSome ↔ (t.node p).isSome ∧
    (p = q ∨ (Apart p q ∧ t.node q.dropLast = some .dir ∧ t.Replaces p q)) := by
  unfold rename
  split
  next same => simp [same]
  next other =>
    split
    next ok =>
      have there : (t.node p).isSome := by
        rcases ok.2.2 with ⟨file, _⟩ | ⟨dir, _⟩
        · rw [Tree.file] at file
          revert file
          cases t.node p with
          | none => exact id
          | some n => exact fun _ => rfl
        · rw [dir]
          rfl
      exact iff_of_true rfl ⟨there, .inr ok⟩
    next bad =>
      simp only [Option.isSome_none, Bool.false_eq_true, false_iff]
      exact fun fine => fine.2.elim other bad

/-- What is renamed to another location is moved there, and all else stays. -/
theorem rename_node (done : t.rename p q = some t') (x : Path) : t'.node x =
    if p = q then t.node x
    else if p <+: x then none else if q <+: x then t.node (p ++ x.drop q.length)
    else t.node x := by
  unfold rename at done
  split at done
  next same =>
    split at done
    · cases done
      rw [if_pos same]
    · cases done
  next other =>
    split at done
    · cases done
      rw [if_neg other]
      rfl
    · cases done

theorem rename_file (done : t.rename p q = some t') (x : Path) : t'.file x =
    if p = q then t.file x
    else if p <+: x then none else if q <+: x then t.file (p ++ x.drop q.length)
    else t.file x := by
  have node := rename_node done x
  by_cases same : p = q
  · rw [if_pos same] at node ⊢
    exact file_congr node
  · rw [if_neg same] at node ⊢
    by_cases old : p <+: x
    · rw [if_pos old] at node ⊢
      rw [Tree.file, node]
    · rw [if_neg old] at node ⊢
      by_cases new : q <+: x
      · rw [if_pos new] at node ⊢
        exact file_congr node
      · rw [if_neg new] at node ⊢
        exact file_congr node

/-- Renaming back restores the tree, if there was nothing at the new location. -/
theorem rename_back [∀ q, Decidable (t'.Bare q)] (done : t.rename p q = some t')
    (absent : t.node q = none) : t'.rename q p = some t := by
  obtain ⟨there, either⟩ := rename_isSome.mp (Option.isSome_iff_exists.mpr ⟨t', done⟩)
  have other : p ≠ q := by
    rintro rfl
    rw [absent] at there
    cases there
  obtain ⟨⟨first, second⟩, parent, replaces⟩ := either.resolve_left other
  have node := rename_node done
  simp only [if_neg other] at node
  have below : p ≠ [] := fun same => first (same ▸ List.nil_prefix)
  have gone : t'.node p = none := by rw [node, if_pos (List.prefix_refl p)]
  have moved : ∀ rest, t'.node (q ++ rest) = t.node (p ++ rest) := fun rest => by
    have outside : ¬p <+: q ++ rest := fun under => by
      rcases List.prefix_or_prefix_of_prefix under (List.prefix_append q rest) with short | short
      · exact first short
      · exact second short
    rw [node, if_neg outside, if_pos (List.prefix_append _ _), List.drop_left]
  have here : t'.node q = t.node p := by simpa using moved []
  have parent' : t'.node p.dropLast = some .dir := by
    rw [node, if_neg (not_under_parent below), if_neg (not_under_dropLast second)]
    exact t.closed p below there
  have back : t'.Replaces q p := by
    rcases replaces with ⟨file, _⟩ | ⟨dir, _⟩
    · exact .inl ⟨by rwa [Tree.file, here, ← Tree.file], by simp [gone]⟩
    · exact .inr ⟨here.trans dir, .inl (by simp [gone])⟩
  obtain ⟨t'', again⟩ := Option.isSome_iff_exists.mp
    (rename_isSome.mpr ⟨here ▸ there, .inr ⟨⟨second, first⟩, parent', back⟩⟩)
  rw [again]
  congr 1
  ext1
  funext x
  have node' := rename_node again x
  rw [if_neg (Ne.symm other)] at node'
  rw [node']
  split
  next under =>
    -- There was nothing at the new location, hence nothing below it.
    by_cases same : q = x
    · rw [← same, absent]
    · exact (t.absent_below (by simp [absent]) under same).symm
  next outside =>
    split
    next under =>
      obtain ⟨rest, rfl⟩ := under
      rw [List.drop_left, moved]
    next outside' => rw [node, if_neg outside', if_neg outside]

end

end RemoteCache.Tree
