import RemoteCache.Policy.LruHistory

/-!
# Draining the policy, and touching one block

## Main results

`run_drains`: calling `evict` again and again returns the resident ids in the
order of the stable sort by decreasing score, and then `SIZE_MAX` for ever.

`run_touched`: a touch pushes out the worst block if the block is absent and the
policy is full, and no other block otherwise.
-/
namespace RemoteCache.LruPolicy

open RecencyList Selection

variable {κ : Type} [DecidableEq κ]

theorem Linked.apply {s : LruPolicy κ} (linked : s.Linked) (op : LruOp κ) :
    (s.apply op).Linked := by
  cases op with
  | touch id bytes hot => exact linked.touch id bytes hot
  | remove id => exact linked.unlink id
  | evict => exact linked.evict

theorem linked_run (capacity : ℕ) (ops : List (LruOp κ)) : (run capacity ops).Linked := by
  induction ops using List.reverseRecOn with
  | nil => exact linked_new capacity
  | append_singleton ops op ih =>
    rw [run_concat]
    exact ih.apply op

theorem capacity_run (capacity : ℕ) (ops : List (LruOp κ)) :
    (run capacity ops).capacity = capacity := by
  induction ops using List.reverseRecOn with
  | nil => rfl
  | append_singleton ops op ih =>
    rw [run_concat]
    cases op with
    | touch id bytes hot => exact (capacity_touch ..).trans ih
    | remove id => exact (capacity_unlink ..).trans ih
    | evict => exact (capacity_evict ..).trans ih

/-! ### Repeated evictions -/

/-- Some calls of `evict`, and what they return. -/
def evictions : ℕ → LruPolicy κ → LruPolicy κ × List (Option κ)
  | 0, s => (s, [])
  | k + 1, s =>
    let rest := evictions k s.evict.1
    (rest.1, s.evict.2 :: rest.2)

/-- What `evict` returns when there is nothing to evict. -/
def sizeMax : ℕ := 2 ^ 64 - 1

/-- The nodes that a call leaves are those with other ids. -/
theorem Linked.evict_nodes {s : LruPolicy κ} (linked : s.Linked) {id : κ}
    (victim : s.evict.2 = some id) : s.evict.1.nodes = s.nodes.filter (·.id ≠ id) := by
  have popped := linked.nodes_evict
  rw [victim, popWorst] at popped
  split at popped
  · exact absurd (congrArg Prod.snd popped) (Option.some_ne_none id)
  next n _ =>
    obtain ⟨kept, same⟩ := Prod.mk.inj popped
    rw [kept, Option.some.inj same]

theorem evictions_empty {s : LruPolicy κ} (linked : s.Linked) (empty : s.nodes = []) (k : ℕ) :
    (s.evictions k).1.nodes = [] ∧ (s.evictions k).2 = List.replicate k none := by
  induction k generalizing s with
  | zero => exact ⟨empty, rfl⟩
  | succ k ih =>
    obtain ⟨sub, ⟨_, nothing⟩ | ⟨n, _, sorted, _⟩⟩ := linked.pops
    · have still : s.evict.1.nodes = [] := List.sublist_nil.mp (empty ▸ sub)
      obtain ⟨nodes, results⟩ := ih linked.evict still
      exact ⟨nodes, congrArg₂ List.cons nothing results⟩
    · rw [empty] at sorted
      cases sorted

/-- What is returned, and what is left, after some calls. -/
theorem Linked.evictions_eq {s : LruPolicy κ} (linked : s.Linked) (k : ℕ) :
    (s.evictions k).2 = ((byRank Node.score s.nodes).take k).map (fun n => some n.id) ++
        List.replicate (k - s.nodes.length) none ∧
      (s.evictions k).1.nodes =
        s.nodes.filter fun n => n.id ∉ ((byRank Node.score s.nodes).take k).map (·.id) := by
  induction k generalizing s with
  | zero => simp [evictions]
  | succ k ih =>
    obtain ⟨_, ⟨empty, _⟩ | ⟨n, victim, sorted, _⟩⟩ := linked.pops
    · obtain ⟨nodes, results⟩ := evictions_empty linked empty (k + 1)
      rw [nodes, results, empty]
      exact ⟨rfl, rfl⟩
    · obtain ⟨results, nodes⟩ := ih linked.evict
      have lengths : s.nodes.length = s.evict.1.nodes.length + 1 := by
        rw [← (byRank_perm Node.score s.nodes).length_eq, sorted, List.length_cons,
          (byRank_perm Node.score _).length_eq]
      rw [sorted, List.take_succ_cons, lengths, Nat.add_sub_add_right]
      constructor
      · exact congrArg₂ List.cons victim results
      · rw [evictions, nodes, linked.evict_nodes victim, List.filter_filter]
        apply List.filter_congr
        intro a _
        rw [Bool.eq_iff_iff]
        simp only [Bool.and_eq_true, decide_eq_true_eq, List.map_cons, List.mem_cons, not_or,
          and_comm]

/-- In every state that operations lead to, repeated calls of `evict` return each resident id once,
by decreasing score and front to back among equal scores, and then `SIZE_MAX` for ever. The
nodes that are left stay as they are. -/
theorem run_drains (capacity : ℕ) (positive : 0 < capacity) (ops : List (LruOp ℕ))
    (below : ∀ id bytes hot, .touch id bytes hot ∈ ops → id < sizeMax) :
    let s := run capacity ops
    ∃ sorted : List (Node ℕ), sorted.Perm s.nodes ∧ (sorted.map (·.id)).Nodup ∧
      (∀ n ∈ sorted, n.id < sizeMax) ∧ (sorted.Pairwise fun a b => b.score ≤ a.score) ∧
      (∀ level, sorted.filter (·.score = level) = s.nodes.filter (·.score = level)) ∧
      ∀ k, (s.evictions k).2.map (·.getD sizeMax) =
          (sorted.map (·.id)).take k ++ List.replicate (k - sorted.length) sizeMax ∧
        (s.evictions k).1.nodes = s.nodes.filter (·.id ∉ (sorted.map (·.id)).take k) := by
  intro s
  have linked := linked_run capacity ops
  have represents := run_represents capacity positive ops
  have perm := byRank_perm Node.score s.nodes
  refine ⟨byRank Node.score s.nodes, perm, ?_, ?_, byRank_pairwise _ _, byRank_filter _ _, ?_⟩
  · exact (perm.map (·.id)).nodup_iff.mpr linked.distinct
  · intro n member
    obtain ⟨c, resident, rfl⟩ := List.mem_map.mp (perm.mem_iff.mp member)
    obtain ⟨time, touched⟩ := represents.payload c resident
    exact below _ _ _ (latest_mem touched)
  · intro k
    obtain ⟨results, nodes⟩ := linked.evictions_eq k
    rw [perm.length_eq, ← List.map_take]
    constructor
    · rw [results, List.map_append, List.map_map, List.map_replicate]
      rfl
    · exact nodes

/-- Two blocks of equal score and one of a higher score. -/
theorem run_drains_three :
    let s : LruPolicy ℕ := run 3 [.touch 7 10 .one, .touch 8 65536 .quarter, .touch 9 20 .one]
    ∃ sorted : List (Node ℕ), sorted.Perm s.nodes ∧ (sorted.map (·.id)).Nodup ∧
      (∀ n ∈ sorted, n.id < sizeMax) ∧ (sorted.Pairwise fun a b => b.score ≤ a.score) ∧
      (∀ level, sorted.filter (·.score = level) = s.nodes.filter (·.score = level)) ∧
      ∀ k, (s.evictions k).2.map (·.getD sizeMax) =
          (sorted.map (·.id)).take k ++ List.replicate (k - sorted.length) sizeMax ∧
        (s.evictions k).1.nodes = s.nodes.filter (·.id ∉ (sorted.map (·.id)).take k) := by
  apply run_drains 3 (by decide)
  intro id bytes hot member
  simp only [List.mem_cons, LruOp.touch.injEq, List.not_mem_nil, or_false] at member
  unfold sizeMax
  omega

/-! ### One touch -/

/-- Only a full policy without the block pushes a block out, and then one of maximal score. -/
theorem run_touched (capacity : ℕ) (positive : 0 < capacity) (ops : List (LruOp κ)) (b : κ)
    (bytes : ℕ) (hot : Hotness) :
    let s := run capacity ops
    ∃ rest, (s.touch b bytes hot).nodes = ⟨b, bytes, hot⟩ :: rest ∧ rest.Sublist s.nodes ∧
      (b ∈ s.nodes.map (·.id) → rest = s.nodes.filter (·.id ≠ b)) ∧
      (b ∉ s.nodes.map (·.id) → s.nodes.length < capacity → rest = s.nodes) ∧
      (b ∉ s.nodes.map (·.id) → s.nodes.length = capacity →
        ∃ v ∈ s.nodes, (∀ n ∈ s.nodes, n.score ≤ v.score) ∧ rest = s.nodes.erase v) := by
  intro s
  have linked := linked_run capacity ops
  have bounded : s.nodes.length ≤ capacity := by
    rw [length_nodes]
    exact (run_represents capacity positive ops).bounded
  rw [linked.nodes_touch, capacity_run, note]
  dsimp only
  refine ⟨_, rfl, ?_, ?_, ?_, ?_⟩
  · have dropped : (s.nodes.filter (·.id ≠ b)).Sublist s.nodes := List.filter_sublist
    split
    · exact (popWorst_sublist _).trans dropped
    · exact dropped
  · intro resident
    exact if_neg (not_le.mpr ((without_shorter resident).trans_le bounded))
  · intro absent room
    rw [without_absent absent]
    exact if_neg (by omega)
  · intro absent full
    rw [without_absent absent, if_pos full.ge, popWorst]
    cases worst : s.nodes.argmax Node.score with
    | none =>
      have empty := List.argmax_eq_none.mp worst
      rw [empty, List.length_nil] at full
      omega
    | some v =>
      have member := List.argmax_mem worst
      refine ⟨v, member, fun n other => List.le_of_mem_argmax other worst, ?_⟩
      exact without_eq_erase linked.distinct member

/-- A full policy of one block. -/
theorem run_touched_full :
    let s : LruPolicy ℕ := run 1 [.touch 7 65536 .quarter]
    ∃ rest, (s.touch 8 65536 .one).nodes = ⟨8, 65536, .one⟩ :: rest ∧ rest.Sublist s.nodes ∧
      (8 ∈ s.nodes.map (·.id) → rest = s.nodes.filter (·.id ≠ 8)) ∧
      (8 ∉ s.nodes.map (·.id) → s.nodes.length < 1 → rest = s.nodes) ∧
      (8 ∉ s.nodes.map (·.id) → s.nodes.length = 1 →
        ∃ v ∈ s.nodes, (∀ n ∈ s.nodes, n.score ≤ v.score) ∧ rest = s.nodes.erase v) :=
  run_touched 1 (by decide) [.touch 7 65536 .quarter] 8 65536 .one

end RemoteCache.LruPolicy
