import RemoteCache.Lib.Inclusion
import RemoteCache.Policy.LruDrain

/-!
# Policies of different capacities

## Main results

`larger_keeps_more`: of two policies that see the same operations, the one with
the larger capacity holds all that the smaller one holds, in the same order, and
finds every touched block that the smaller one finds.

`first_touches_miss`: of each block at least one touch is a miss, and no other
touch is if the capacity suffices for all blocks.

## Proof strategy

The list of a policy takes in nodes and gives up the first node of maximal score,
which does not depend on the capacity. So the two lists stay included in each
other, and differ in length by no more than the capacities do.
-/
namespace RemoteCache

open Inclusion

variable {κ : Type} [DecidableEq κ]

namespace RecencyList

theorem popWorst_eq_pop {l : List (Node κ)} (ids : (l.map (·.id)).Nodup) :
    (popWorst l).1 = pop Node.score l := by
  rw [popWorst, pop]
  cases worst : l.argmax Node.score with
  | none => rfl
  | some n => exact without_eq_erase ids (List.argmax_mem worst)

theorem note_eq_enter (capacity : ℕ) {l : List (Node κ)} (ids : (l.map (·.id)).Nodup)
    (n : Node κ) :
    note capacity l n = enter Node.score capacity (l.filter (·.id ≠ n.id)) n := by
  rw [note, enter, popWorst_eq_pop (ids.sublist (List.filter_sublist.map _))]

end RecencyList

namespace LruPolicy

open RecencyList

@[simp] theorem capacity_apply (s : LruPolicy κ) (op : LruOp κ) :
    (s.apply op).capacity = s.capacity := by
  cases op with
  | touch id bytes hot => exact capacity_touch ..
  | remove id => exact capacity_unlink ..
  | evict => exact capacity_evict ..

/-- The operation touches a block that is there. -/
def finds (s : LruPolicy κ) : LruOp κ → Bool
  | .touch id _ _ => id ∈ s.nodes.map (·.id)
  | .remove _ => false
  | .evict => false

/-- How many of the operations touch a block that is there. -/
def hits (s : LruPolicy κ) : List (LruOp κ) → ℕ
  | [] => 0
  | op :: ops => (s.finds op).toNat + hits (s.apply op) ops

theorem apply_within {s s' : LruPolicy κ} (linked : s.Linked) (linked' : s'.Linked)
    (le : s.capacity ≤ s'.capacity)
    (within : Within s.capacity s'.capacity s.nodes s'.nodes) (op : LruOp κ) :
    Within s.capacity s'.capacity (s.apply op).nodes (s'.apply op).nodes := by
  cases op with
  | touch id bytes hot =>
    have kept := within.filter fun n => decide (n.id ≠ id)
    have distinct : (s'.nodes.filter (·.id ≠ id)).Nodup :=
      (List.Nodup.of_map _ linked'.distinct).filter _
    simp only [LruPolicy.apply, linked.nodes_touch, linked'.nodes_touch,
      note_eq_enter _ linked.distinct, note_eq_enter _ linked'.distinct]
    exact kept.enter le distinct ⟨id, bytes, hot⟩
  | remove id =>
    simp only [LruPolicy.apply, remove, linked.nodes_unlink, linked'.nodes_unlink]
    exact within.filter _
  | evict =>
    have nodes := congrArg Prod.fst linked.nodes_evict
    have nodes' := congrArg Prod.fst linked'.nodes_evict
    dsimp only at nodes nodes'
    simp only [LruPolicy.apply, nodes, nodes', popWorst_eq_pop linked.distinct,
      popWorst_eq_pop linked'.distinct]
    exact within.pop le (List.Nodup.of_map _ linked'.distinct)

theorem finds_mono {s s' : LruPolicy κ} (sub : s.nodes.Sublist s'.nodes) (op : LruOp κ) :
    (s.finds op).toNat ≤ (s'.finds op).toNat := by
  cases op with
  | touch id bytes hot =>
    have member : id ∈ s.nodes.map (·.id) → id ∈ s'.nodes.map (·.id) := fun resident =>
      (sub.map (·.id)).subset resident
    by_cases resident : id ∈ s.nodes.map (·.id)
    · rw [finds, finds, decide_eq_true resident, decide_eq_true (member resident)]
    · rw [finds, decide_eq_false resident]
      exact Nat.zero_le _
  | remove id => exact Nat.le_refl _
  | evict => exact Nat.le_refl _

/-- The same operations on two policies, one of which includes the other. -/
private theorem foldl_within (ops : List (LruOp κ)) {s s' : LruPolicy κ} (linked : s.Linked)
    (linked' : s'.Linked) (le : s.capacity ≤ s'.capacity)
    (within : Within s.capacity s'.capacity s.nodes s'.nodes) :
    (ops.foldl LruPolicy.apply s).nodes.Sublist (ops.foldl LruPolicy.apply s').nodes ∧
      s.hits ops ≤ s'.hits ops := by
  induction ops generalizing s s' with
  | nil => exact ⟨within.sub, Nat.le_refl _⟩
  | cons op ops ih =>
    have next := apply_within linked linked' le within op
    rw [← capacity_apply s op, ← capacity_apply s' op] at next le
    obtain ⟨sub, more⟩ := ih (linked.apply op) (linked'.apply op) le next
    exact ⟨sub, Nat.add_le_add (finds_mono within.sub op) more⟩

/-- After the same operations a policy holds, in the same order, all that a policy of smaller
capacity holds, and it has found every touched block at least as often. -/
theorem larger_keeps_more (capacity capacity' : ℕ) (le : capacity ≤ capacity')
    (ops : List (LruOp κ)) :
    (run capacity ops).nodes.Sublist (run capacity' ops).nodes ∧
      (new capacity : LruPolicy κ).hits ops ≤ (new capacity' : LruPolicy κ).hits ops :=
  foldl_within ops (linked_new capacity) (linked_new capacity') le
    ⟨List.Sublist.refl _, by simpa [new, nodes] using le⟩

/-- A scan of three blocks that comes back to the first one. -/
theorem larger_keeps_more_scan :
    let ops : List (LruOp ℕ) :=
      [.touch 7 65536 .one, .touch 8 65536 .quarter, .touch 9 65536 .one, .touch 7 65536 .one]
    (run 2 ops).nodes.Sublist (run 3 ops).nodes ∧
      (new 2 : LruPolicy ℕ).hits ops ≤ (new 3 : LruPolicy ℕ).hits ops :=
  larger_keeps_more 2 3 (by decide) _

/-! ### Misses -/

theorem hits_concat (s : LruPolicy κ) (ops : List (LruOp κ)) (op : LruOp κ) :
    s.hits (ops ++ [op]) = s.hits ops + ((ops.foldl apply s).finds op).toNat := by
  induction ops generalizing s with
  | nil => simp [hits]
  | cons first ops ih => rw [List.cons_append, hits, hits, ih, List.foldl_cons, Nat.add_assoc]

/-- The blocks that a history touches. -/
def touchedIds (ops : List (LruOp κ)) : Finset κ :=
  (ops.filterMap fun op =>
    match op with
    | .touch id _ _ => some id
    | .remove _ => none
    | .evict => none).toFinset

theorem touchedIds_touch (ops : List (LruOp κ)) (id : κ) (bytes : ℕ) (hot : Hotness) :
    touchedIds (ops ++ [.touch id bytes hot]) = insert id (touchedIds ops) := by
  ext other
  simp [touchedIds]

/-- The operation is a touch. -/
def IsTouch (op : LruOp κ) : Prop := ∃ id bytes hot, op = .touch id bytes hot

variable {capacity : ℕ} {ops : List (LruOp κ)}

theorem resident_touched (touches : ∀ op ∈ ops, IsTouch op) {id : κ}
    (resident : id ∈ (run capacity ops).nodes.map (·.id)) : id ∈ touchedIds ops := by
  induction ops using List.reverseRecOn with
  | nil => simp [run, new, nodes] at resident
  | append_singleton ops op ih =>
    obtain ⟨id', bytes, hot, rfl⟩ := touches op (by simp)
    have earlier := ih fun op member => touches op (List.mem_append_left _ member)
    have linked := linked_run capacity ops
    rw [run_concat, LruPolicy.apply, linked.nodes_touch, note_eq_enter _ linked.distinct, enter,
      List.map_cons] at resident
    rw [touchedIds_touch, Finset.mem_insert]
    refine (List.mem_cons.mp resident).imp_right fun old => earlier ?_
    have kept : List.Sublist (if (run capacity ops).capacity ≤
        ((run capacity ops).nodes.filter (·.id ≠ id')).length
        then pop Node.score ((run capacity ops).nodes.filter (·.id ≠ id'))
        else (run capacity ops).nodes.filter (·.id ≠ id')) (run capacity ops).nodes := by
      split
      · exact (pop_sublist _ _).trans List.filter_sublist
      · exact List.filter_sublist
    exact (kept.map _).subset old

/-- With room for all blocks nothing that was touched leaves. -/
theorem touched_resident (touches : ∀ op ∈ ops, IsTouch op)
    (room : (touchedIds ops).card ≤ capacity) {id : κ} (touched : id ∈ touchedIds ops) :
    id ∈ (run capacity ops).nodes.map (·.id) := by
  induction ops using List.reverseRecOn with
  | nil => simp [touchedIds] at touched
  | append_singleton ops op ih =>
    obtain ⟨id', bytes, hot, rfl⟩ := touches op (by simp)
    have touches' : ∀ op ∈ ops, IsTouch op := fun op member =>
      touches op (List.mem_append_left _ member)
    rw [touchedIds_touch] at room touched
    have linked := linked_run capacity ops
    -- What is left of the list are other blocks than the touched one.
    have others : ((run capacity ops).nodes.filter (·.id ≠ id')).length < capacity := by
      have distinct : (((run capacity ops).nodes.filter (·.id ≠ id')).map (·.id)).Nodup :=
        linked.distinct.sublist (List.filter_sublist.map _)
      have inside : (((run capacity ops).nodes.filter (·.id ≠ id')).map (·.id)).toFinset ⊆
          (touchedIds ops).erase id' := by
        intro other member
        obtain ⟨n, left, rfl⟩ := List.mem_map.mp (List.mem_toFinset.mp member)
        obtain ⟨resident, apart⟩ := List.mem_filter.mp left
        exact Finset.mem_erase.mpr ⟨by simpa using apart,
          resident_touched touches' (List.mem_map_of_mem resident)⟩
      have fewer := Finset.card_le_card inside
      rw [List.toFinset_card_of_nodup distinct, List.length_map] at fewer
      have less : ((touchedIds ops).erase id').card < (insert id' (touchedIds ops)).card := by
        rw [Finset.card_insert_eq_ite]
        split
        next old => exact Finset.card_erase_lt_of_mem old
        next new =>
          rw [Finset.erase_eq_of_notMem new]
          exact Nat.lt_succ_self _
      omega
    have before : (touchedIds ops).card ≤ capacity :=
      (Finset.card_le_card (Finset.subset_insert _ _)).trans room
    rw [run_concat, LruPolicy.apply, linked.nodes_touch, note, capacity_run,
      if_neg (not_le.mpr others), List.map_cons]
    by_cases same : id = id'
    · rw [same]
      exact List.mem_cons_self
    · have old := ih touches' before ((Finset.mem_insert.mp touched).resolve_left same)
      obtain ⟨n, resident, rfl⟩ := List.mem_map.mp old
      exact List.mem_cons_of_mem _
        (List.mem_map_of_mem (List.mem_filter.mpr ⟨resident, by simpa using same⟩))

/-- In a history of touches each block is missed at least once, and no more than that if the
capacity suffices for all of them. -/
theorem first_touches_miss (capacity : ℕ) (ops : List (LruOp κ))
    (touches : ∀ op ∈ ops, IsTouch op) :
    (new capacity : LruPolicy κ).hits ops + (touchedIds ops).card ≤ ops.length ∧
      ((touchedIds ops).card ≤ capacity →
        (new capacity : LruPolicy κ).hits ops + (touchedIds ops).card = ops.length) := by
  induction ops using List.reverseRecOn with
  | nil => simp [hits, touchedIds]
  | append_singleton ops op ih =>
    obtain ⟨id, bytes, hot, rfl⟩ := touches op (by simp)
    have touches' : ∀ op ∈ ops, IsTouch op := fun op member =>
      touches op (List.mem_append_left _ member)
    obtain ⟨most, all⟩ := ih touches'
    have grown : (ops ++ [LruOp.touch id bytes hot]).length = ops.length + 1 := by simp
    have resident : id ∈ (run capacity ops).nodes.map (·.id) → id ∈ touchedIds ops :=
      resident_touched touches'
    rw [hits_concat, ← run, touchedIds_touch, grown, finds]
    by_cases old : id ∈ touchedIds ops
    · rw [Finset.insert_eq_of_mem old]
      refine ⟨?_, fun room => ?_⟩
      · have one := Bool.toNat_le (decide (id ∈ (run capacity ops).nodes.map (·.id)))
        omega
      · have there := touched_resident touches' room old
        rw [decide_eq_true there, ← all room]
        simp only [Bool.toNat_true]
        omega
    · rw [Finset.card_insert_of_notMem old, decide_eq_false fun there => old (resident there)]
      simp only [Bool.toNat_false]
      exact ⟨by omega, fun room => by have := all (by omega); omega⟩

/-- Two rounds over two blocks, with room for both. -/
theorem first_touches_miss_rounds :
    let ops : List (LruOp ℕ) :=
      [.touch 7 65536 .one, .touch 8 65536 .one, .touch 7 65536 .one, .touch 8 65536 .one]
    (new 2 : LruPolicy ℕ).hits ops + (touchedIds ops).card ≤ ops.length ∧
      ((touchedIds ops).card ≤ 2 →
        (new 2 : LruPolicy ℕ).hits ops + (touchedIds ops).card = ops.length) :=
  first_touches_miss 2 _ (by
    simp only [List.forall_mem_cons, List.not_mem_nil, false_implies, implies_true, and_true]
    exact ⟨⟨_, _, _, rfl⟩, ⟨_, _, _, rfl⟩, ⟨_, _, _, rfl⟩, ⟨_, _, _, rfl⟩⟩)

end LruPolicy

end RemoteCache
