import RemoteCache.Policy.LruHistory

/-!
# Touches that are all equally hot

As long as every touch has the greatest hotness, all scores are zero and the
search for a victim stops at the front of the list. A touch of an absent id in a
full list therefore pushes out the node that was touched last; every other touch
keeps all nodes of other ids.
-/
namespace RemoteCache.LruPolicy

open RecencyList

variable {κ : Type} [DecidableEq κ]

/-- A list within its capacity all of whose nodes have the score zero. -/
structure Level (s : LruPolicy κ) : Prop where
  linked : s.Linked
  positive : 0 < s.capacity
  bounded : s.nodes.length ≤ s.capacity
  cold : ∀ n ∈ s.nodes, n.score = 0

/-- A touch of the id pushes out the node: the list is full of other ids and the node is its
front. -/
def PushesOut (s : LruPolicy κ) (id : κ) (n : Node κ) : Prop :=
  s.capacity ≤ s.nodes.length ∧ (∀ a ∈ s.nodes, a.id ≠ id) ∧ s.nodes.head? = some n

omit [DecidableEq κ] in
theorem score_one (id : κ) (bytes : ℕ) : (⟨id, bytes, .one⟩ : Node κ).score = 0 := by
  simp [Node.score, Hotness.one]

theorem level_new {capacity : ℕ} (positive : 0 < capacity) : (new capacity : LruPolicy κ).Level :=
  ⟨linked_new capacity, positive, Nat.zero_le _, by simp [new, nodes]⟩

variable {s : LruPolicy κ} (level : s.Level)

include level

theorem Level.fewer {s' : LruPolicy κ} (linked : s'.Linked) (capacity : s'.capacity = s.capacity)
    (sub : s'.nodes.Sublist s.nodes) : s'.Level :=
  ⟨linked, capacity ▸ level.positive, capacity ▸ sub.length_le.trans level.bounded,
    fun n member => level.cold n (sub.subset member)⟩

theorem Level.head_touch (id : κ) (bytes : ℕ) :
    (s.touch id bytes .one).nodes.head? = some ⟨id, bytes, .one⟩ := by
  rw [level.linked.nodes_touch]
  rfl

theorem Level.touch (id : κ) (bytes : ℕ) : (s.touch id bytes .one).Level := by
  refine ⟨level.linked.touch id bytes .one, by simpa using level.positive, ?_, fun n member => ?_⟩
  · rw [level.linked.nodes_touch, capacity_touch]
    exact note_length level.positive level.bounded _
  · rw [level.linked.nodes_touch] at member
    rcases List.mem_cons.mp member with rfl | old
    · exact score_one id bytes
    · apply level.cold n
      split at old
      · exact List.mem_of_mem_filter ((popWorst_sublist _).subset old)
      · exact List.mem_of_mem_filter old

/-- A touch keeps the nodes of other ids, except for the one that it pushes out. -/
theorem Level.mem_touch {id : κ} (bytes : ℕ) {n : Node κ} (other : n.id ≠ id) :
    n ∈ (s.touch id bytes .one).nodes ↔ n ∈ s.nodes ∧ ¬s.PushesOut id n := by
  have old : n ≠ ⟨id, bytes, .one⟩ := fun same => other (by rw [same])
  rw [level.linked.nodes_touch, note, List.mem_cons, or_iff_right old]
  by_cases resident : ∃ a ∈ s.nodes, a.id = id
  · -- The dropped copy makes room, so no other node leaves.
    obtain ⟨a, member, here⟩ := resident
    have shorter := without_shorter (List.mem_map.mpr ⟨a, member, here⟩)
    have room : ¬s.capacity ≤ (s.nodes.filter (·.id ≠ id)).length := by
      have := level.bounded
      omega
    have stays : ¬s.PushesOut id n := fun pushed => pushed.2.1 a member here
    rw [if_neg room, List.mem_filter]
    simp only [other, ne_eq, not_false_eq_true, decide_true, stays]
  · simp only [not_exists, not_and] at resident
    have whole : s.nodes.filter (·.id ≠ id) = s.nodes :=
      List.filter_eq_self.mpr fun a member => by simpa using resident a member
    simp only [whole]
    by_cases full : s.capacity ≤ s.nodes.length
    · rw [if_pos full, popWorst_level level.linked.distinct level.cold]
      -- All scores are equal, so the search stops at the front.
      have pushes : s.PushesOut id n ↔ s.nodes.head? = some n :=
        ⟨fun pushed => pushed.2.2, fun front => ⟨full, resident, front⟩⟩
      have distinct := List.Nodup.of_map _ level.linked.distinct
      rw [pushes]
      revert distinct
      cases s.nodes with
      | nil => simp
      | cons front rest =>
        intro distinct
        have apart := (List.nodup_cons.mp distinct).1
        simp only [List.tail_cons, List.mem_cons, List.head?_cons, Option.some.injEq]
        constructor
        · exact fun member => ⟨.inr member, fun same => apart (same ▸ member)⟩
        · rintro ⟨member, other⟩
          exact member.resolve_left fun same => other same.symm
    · rw [if_neg full]
      exact ⟨fun member => ⟨member, fun pushed => full pushed.1⟩, And.left⟩

end RemoteCache.LruPolicy
