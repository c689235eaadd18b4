import RemoteCache.Policy.LruRecency

/-!
# Invariants of `LruPolicy` over whole histories

## Main results

`run_represents`: after any history the two structures agree, stay within the
capacity and list the resident ids from the most to the least recently touched.

`oldest_evicted_iff`: with equal scores the victim search stops at the front of
the list, so evictions take the oldest block exactly when it is the only one.
-/
namespace RemoteCache.LruPolicy

open RecencyList

variable {κ : Type} [DecidableEq κ]

def apply (s : LruPolicy κ) : LruOp κ → LruPolicy κ
  | .touch id bytes hot => s.touch id bytes hot
  | .remove id => s.remove id
  | .evict => s.evict.1

def run (capacity : ℕ) (ops : List (LruOp κ)) : LruPolicy κ := ops.foldl apply (new capacity)

theorem run_concat (capacity : ℕ) (ops : List (LruOp κ)) (op : LruOp κ) :
    run capacity (ops ++ [op]) = (run capacity ops).apply op := by
  simp [run]

/-- The representation invariant, relative to the history of operations. -/
structure Represents (capacity : ℕ) (ops : List (LruOp κ)) (s : LruPolicy κ) : Prop where
  distinct : (s.order.map (·.node.id)).Nodup
  ownNode : (s.order.map (·.it)).Nodup
  mapped : ∀ id it, s.map.lookup id = some it ↔ ∃ c ∈ s.order, c.node.id = id ∧ c.it = it
  bounded : s.order.length ≤ capacity
  payload : ∀ c ∈ s.order, ∃ time,
    latest ops c.node.id = some ⟨time, c.node.bytes, c.node.hotness⟩
  newest : s.order.Pairwise fun a b => ∀ ta tb, latest ops a.node.id = some ta →
    latest ops b.node.id = some tb → tb.time < ta.time

/-- The invariant in the form the induction carries: on the list of nodes. -/
private structure Sound (capacity : ℕ) (ops : List (LruOp κ)) (s : LruPolicy κ) : Prop where
  linked : s.Linked
  cap : s.capacity = capacity
  bounded : s.nodes.length ≤ capacity
  recent : Recent ops s.nodes

private theorem Sound.apply {capacity : ℕ} (positive : 0 < capacity) {ops : List (LruOp κ)}
    {s : LruPolicy κ} (sound : Sound capacity ops s) (op : LruOp κ) :
    Sound capacity (ops ++ [op]) (s.apply op) := by
  obtain ⟨linked, cap, bounded, recent⟩ := sound
  cases op with
  | touch id bytes hot =>
    have nodes : (s.touch id bytes hot).nodes = note capacity s.nodes ⟨id, bytes, hot⟩ := by
      rw [linked.nodes_touch, cap]
    refine ⟨linked.touch id bytes hot, by simpa [LruPolicy.apply] using cap, ?_, ?_⟩
    · exact nodes ▸ note_length positive bounded _
    · simp only [LruPolicy.apply, nodes]
      have dropped : (s.nodes.filter (·.id ≠ id)).Sublist s.nodes := List.filter_sublist
      have kept : List.Sublist (if capacity ≤ (s.nodes.filter (·.id ≠ id)).length
          then (popWorst (s.nodes.filter (·.id ≠ id))).1 else s.nodes.filter (·.id ≠ id))
          (s.nodes.filter (·.id ≠ id)) := by
        split
        · exact popWorst_sublist _
        · exact .refl _
      exact (recent.sublist (kept.trans dropped)).touch ⟨id, bytes, hot⟩ fun a member =>
        by simpa using (List.mem_filter.mp (kept.subset member)).2
  | remove id =>
    have nodes := linked.nodes_unlink id
    refine ⟨linked.unlink id, by simpa [LruPolicy.apply, remove] using cap, ?_, ?_⟩
    · simp only [LruPolicy.apply, remove, nodes]
      exact (List.length_filter_le _ _).trans bounded
    · simp only [LruPolicy.apply, remove, nodes]
      exact (recent.sublist List.filter_sublist).same (latest_remove ops id)
  | evict =>
    have nodes : s.evict.1.nodes = (popWorst s.nodes).1 := congrArg Prod.fst linked.nodes_evict
    refine ⟨linked.evict, by simpa [LruPolicy.apply] using cap, ?_, ?_⟩
    · simp only [LruPolicy.apply, nodes]
      exact (popWorst_sublist _).length_le.trans bounded
    · simp only [LruPolicy.apply, nodes]
      exact (recent.sublist (popWorst_sublist _)).same (latest_evict ops)

private theorem run_sound {capacity : ℕ} (positive : 0 < capacity) (ops : List (LruOp κ)) :
    Sound capacity ops (run capacity ops) := by
  induction ops using List.reverseRecOn with
  | nil => exact ⟨linked_new capacity, rfl, Nat.zero_le _, ⟨by simp [run, new, nodes], .nil⟩⟩
  | append_singleton ops op ih =>
    rw [run_concat]
    exact ih.apply positive op

/-- The representation invariant holds after every sequence of operations. -/
theorem run_represents (capacity : ℕ) (positive : 0 < capacity) (ops : List (LruOp κ)) :
    Represents capacity ops (run capacity ops) := by
  obtain ⟨linked, _, bounded, recent⟩ := run_sound positive ops
  refine ⟨linked.ids, linked.its, linked.mapped, by simpa [nodes] using bounded, ?_, ?_⟩
  · intro c member
    exact recent.payload c.node (List.mem_map_of_mem member)
  · exact List.pairwise_map.mp recent.newest

/-- Capacity one: the second touch pushes out the first block. -/
theorem run_represents_small :
    Represents 1 [.touch 7 65536 .one, .touch 8 65536 .quarter]
      (run 1 [.touch 7 65536 .one, .touch 8 65536 .quarter] : LruPolicy ℕ) :=
  run_represents 1 (by decide) _

/-! ### Which block goes first -/

/-- The block leaves the policy through an eviction made by the operation. -/
def Evicts (s : LruPolicy κ) (op : LruOp κ) (id : κ) : Prop :=
  (∀ id', op ≠ .remove id') ∧ id ∈ s.nodes.map (·.id) ∧ id ∉ (s.apply op).nodes.map (·.id)

/-- A resident block, and no resident block was last touched earlier. -/
def Oldest (ops : List (LruOp κ)) (s : LruPolicy κ) (id : κ) : Prop :=
  id ∈ s.nodes.map (·.id) ∧
  ∀ n ∈ s.nodes, ∀ t tn, latest ops id = some t → latest ops n.id = some tn → t.time ≤ tn.time

/-- The operation is one that evicts: `evict`, or a touch of an absent block in a full policy. -/
def Evicting (s : LruPolicy κ) : LruOp κ → Prop
  | .touch id _ _ => id ∉ s.nodes.map (·.id) ∧ s.capacity ≤ s.nodes.length
  | .remove _ => False
  | .evict => True

/-- All touches carry the same bytes and the same hotness. -/
def Uniform (bytes : ℕ) (hot : Hotness) (ops : List (LruOp κ)) : Prop :=
  ∀ id bytes' hot', .touch id bytes' hot' ∈ ops → bytes' = bytes ∧ hot' = hot

theorem latest_mem {ops : List (LruOp κ)} {id : κ} {t : Touched}
    (touched : latest ops id = some t) : .touch id t.bytes t.hotness ∈ ops := by
  induction ops using List.reverseRecOn with
  | nil => simp [latest] at touched
  | append_singleton ops op ih =>
    cases op with
    | touch id' bytes hot =>
      rw [latest_touch] at touched
      split at touched
      next same =>
        subst same
        cases touched
        simp
      · exact List.mem_append_left _ (ih touched)
    | remove id' => exact List.mem_append_left _ (ih (by simpa using touched))
    | evict => exact List.mem_append_left _ (ih (by simpa using touched))

omit [DecidableEq κ] in
private theorem argmax_level {l : List (Node κ)} {level : ℚ} (flat : ∀ n ∈ l, n.score = level) :
    l.argmax Node.score = l.head? := by
  cases l with
  | nil => rfl
  | cons n l =>
    rw [List.argmax_cons]
    cases best : l.argmax Node.score with
    | none => rfl
    | some m =>
      have equal : m.score = n.score :=
        (flat m (List.mem_cons_of_mem _ (List.argmax_mem best))).trans
          (flat n List.mem_cons_self).symm
      simp [equal]

/-- Among equal scores the victim is the front of the list, the newest block. -/
theorem popWorst_level {l : List (Node κ)} (ids : (l.map (·.id)).Nodup) {level : ℚ}
    (flat : ∀ n ∈ l, n.score = level) : (popWorst l).1 = l.tail := by
  rw [popWorst, argmax_level flat]
  cases l with
  | nil => rfl
  | cons n l =>
    simp only [List.map_cons, List.nodup_cons, List.mem_map, not_exists, not_and] at ids
    simp only [List.head?_cons, List.tail_cons]
    rw [List.filter_cons_of_neg (by simp), List.filter_eq_self.mpr]
    intro m member
    simpa using ids.1 m member

private theorem evicts_iff {capacity : ℕ} {ops : List (LruOp κ)} {s : LruPolicy κ}
    (sound : Sound capacity ops s) {level : ℚ} (flat : ∀ n ∈ s.nodes, n.score = level)
    (op : LruOp κ) (id : κ) :
    s.Evicts op id ↔ s.Evicting op ∧ s.nodes.head?.map (·.id) = some id := by
  obtain ⟨linked, cap, bounded, _⟩ := sound
  have ids := linked.distinct
  have front : id ∈ s.nodes.map (·.id) ∧ id ∉ s.nodes.tail.map (·.id) ↔
      s.nodes.head?.map (·.id) = some id := by
    revert ids
    cases s.nodes with
    | nil => simp
    | cons n l =>
      intro ids
      simp only [List.map_cons, List.nodup_cons] at ids
      simp only [List.map_cons, List.mem_cons, List.tail_cons, List.head?_cons, Option.map_some,
        Option.some.injEq]
      constructor
      · rintro ⟨rfl | member, absent⟩
        · rfl
        · exact absurd member absent
      · rintro rfl
        exact ⟨.inl rfl, ids.1⟩
  cases op with
  | remove id' => simp [Evicts, Evicting]
  | evict =>
    have popped : s.evict.1.nodes = s.nodes.tail :=
      (congrArg Prod.fst linked.nodes_evict).trans (popWorst_level ids flat)
    simp only [Evicts, Evicting, apply, popped, true_and, ← front]
    simp
  | touch new bytes hot =>
    simp only [Evicts, Evicting, apply, linked.nodes_touch, note, ← front]
    by_cases resident : new ∈ s.nodes.map (·.id)
    · -- The dropped copy makes room, so no other block leaves.
      have room : ¬s.capacity ≤ (s.nodes.filter (·.id ≠ new)).length := by
        have shorter := without_shorter resident
        omega
      rw [if_neg room]
      refine iff_of_false ?_ fun evicting => evicting.1.1 resident
      rintro ⟨_, before, after⟩
      obtain ⟨n, member, rfl⟩ := List.mem_map.mp before
      by_cases same : n.id = new
      · exact after (by simp [same])
      · exact after (List.mem_cons_of_mem _ (List.mem_map_of_mem
          (List.mem_filter.mpr ⟨member, by simpa using same⟩)))
    · rw [without_absent resident, popWorst_level ids flat]
      by_cases full : s.capacity ≤ s.nodes.length
      · simp only [List.map_cons, List.mem_cons, not_or, resident, full,
          not_false_eq_true, and_true, true_and]
        constructor
        · exact fun left => ⟨left.2.1, left.2.2.2⟩
        · exact fun left => ⟨by simp, left.1, fun same => resident (same ▸ left.1), left.2⟩
      · simp only [full, and_false, false_and, iff_false]
        rintro ⟨_, before, after⟩
        exact after (List.mem_cons_of_mem _ before)

/-- The front of the list is the only block that can go; it is the oldest one
exactly when nothing stands behind it. -/
private theorem front_oldest_iff {ops : List (LruOp κ)} {s : LruPolicy κ}
    (recent : Recent ops s.nodes) :
    (∀ id, s.nodes.head?.map (·.id) = some id ↔ Oldest ops s id) ↔ s.nodes.length ≤ 1 := by
  unfold Oldest
  revert recent
  cases s.nodes with
  | nil => simp
  | cons n l =>
    intro recent
    obtain ⟨time, touched⟩ := recent.payload n List.mem_cons_self
    cases l with
    | nil =>
      refine iff_of_true (fun id => ⟨fun front => ?_, fun oldest => ?_⟩) (by simp)
      · obtain rfl : n.id = id := by simpa using front
        refine ⟨by simp, fun m member t tm first second => ?_⟩
        obtain rfl : m = n := by simpa using member
        rw [first] at second
        cases second
        exact Nat.le_refl _
      · simpa [eq_comm] using oldest.1
    | cons m l =>
      obtain ⟨earlier, touched'⟩ := recent.payload m (by simp)
      have older := (List.pairwise_cons.mp recent.newest).1 m (by simp) _ _ touched touched'
      refine iff_of_false (fun same => ?_) (by simp)
      have oldest := ((same n.id).mp (by simp)).2 m (by simp) _ _ touched touched'
      exact absurd oldest (Nat.not_le.mpr older)

/-- In a history of equal touches every eviction takes the oldest resident block if
and only if at most one block is resident whenever the policy evicts. -/
theorem oldest_evicted_iff (capacity : ℕ) (positive : 0 < capacity) (bytes : ℕ) (hot : Hotness)
    (ops : List (LruOp κ)) (uniform : Uniform bytes hot ops) :
    (∀ before op after, ops = before ++ op :: after → (run capacity before).Evicting op →
        ∀ id, (run capacity before).Evicts op id ↔ Oldest before (run capacity before) id) ↔
    (∀ before op after, ops = before ++ op :: after → (run capacity before).Evicting op →
        (run capacity before).nodes.length ≤ 1) := by
  refine forall_congr' fun before => forall_congr' fun op => forall_congr' fun after =>
    forall_congr' fun split => forall_congr' fun evicting => ?_
  have sound := run_sound positive before
  have flat : ∀ n ∈ (run capacity before).nodes, n.score = bytes * (1 - hot.1) := by
    intro n member
    obtain ⟨time, touched⟩ := sound.recent.payload n member
    obtain ⟨sameBytes, sameHot⟩ := uniform _ _ _
      (split ▸ List.mem_append_left _ (latest_mem touched))
    simp only at sameBytes sameHot
    rw [Node.score, sameBytes, sameHot]
  rw [← front_oldest_iff sound.recent]
  refine forall_congr' fun id => ?_
  rw [evicts_iff sound flat op id]
  simp only [evicting, true_and]

/-- One demand access, then `evict`: the only block goes. -/
theorem oldest_evicted_iff_lone :
    (∀ before op after, ([.touch 1 65536 .one, .evict] : List (LruOp ℕ)) = before ++ op :: after →
        (run 200000 before).Evicting op →
        ∀ id, (run 200000 before).Evicts op id ↔ Oldest before (run 200000 before) id) ↔
    (∀ before op after, ([.touch 1 65536 .one, .evict] : List (LruOp ℕ)) = before ++ op :: after →
        (run 200000 before).Evicting op → (run 200000 before).nodes.length ≤ 1) :=
  oldest_evicted_iff 200000 (by decide) 65536 .one [.touch 1 65536 .one, .evict]
    (fun id bytes hot member => by
      rcases List.mem_cons.mp member with same | absurd
      · cases same; exact ⟨rfl, rfl⟩
      · simp at absurd)

/-- Two demand accesses, then `evict`: the newer of the two blocks goes. -/
theorem newest_evicted_first :
    ¬∀ before op after, ([.touch 1 65536 .one, .touch 2 65536 .one, .evict] : List (LruOp ℕ)) =
        before ++ op :: after → (run 200000 before).Evicting op →
        ∀ id, (run 200000 before).Evicts op id ↔ Oldest before (run 200000 before) id := by
  intro all
  have gone : (run 200000 [.touch 1 65536 .one, .touch 2 65536 .one]).Evicts .evict 2 :=
    ⟨by simp, by decide +kernel, by decide +kernel⟩
  have oldest :=
    ((all [.touch 1 65536 .one, .touch 2 65536 .one] .evict [] rfl trivial 2).mp gone).2
  have late : 1 ≤ 0 := oldest ⟨1, 65536, .one⟩ (by decide +kernel) ⟨1, 65536, .one⟩
    ⟨0, 65536, .one⟩ rfl rfl
  omega

end RemoteCache.LruPolicy
