import RemoteCache.Policy.Lru
import Mathlib.Data.List.Induction

/-!
# `LruPolicy` as a list of recent touches

Without iterators and map the policy is a list of nodes, newest first: a touch
moves its id to the front and may push out the first node of maximal score.
Every operation of `LruPolicy` computes the operation on that list and keeps the
two structures linked. A history of operations determines when each id was last
touched; the list is the resident ids ordered by that time.
-/
namespace RemoteCache

variable {κ : Type} [DecidableEq κ]

namespace RecencyList

/-- Take out the first node of maximal score. -/
def popWorst (l : List (Node κ)) : List (Node κ) × Option κ :=
  match l.argmax Node.score with
  | none => (l, none)
  | some n => (l.filter (·.id ≠ n.id), some n.id)

/-- Put a node at the front, after dropping its old copy and, in a full list, the worst node. -/
def note (capacity : ℕ) (l : List (Node κ)) (n : Node κ) : List (Node κ) :=
  let l := l.filter (·.id ≠ n.id)
  n :: if capacity ≤ l.length then (popWorst l).1 else l

theorem without_shorter {l : List (Node κ)} {id : κ} (resident : id ∈ l.map (·.id)) :
    (l.filter (·.id ≠ id)).length < l.length := by
  obtain ⟨n, member, rfl⟩ := List.mem_map.mp resident
  exact List.length_filter_lt_length_iff_exists.mpr ⟨n, member, by simp⟩

theorem without_absent {l : List (Node κ)} {id : κ} (absent : id ∉ l.map (·.id)) :
    l.filter (·.id ≠ id) = l := by
  apply List.filter_eq_self.mpr
  intro n member
  have other : n.id ≠ id := fun same => absent (List.mem_map.mpr ⟨n, member, same⟩)
  simpa using other

/-- Among distinct ids, taking a node out by its id takes out that node alone. -/
theorem without_eq_erase {l : List (Node κ)} (ids : (l.map (·.id)).Nodup) {n : Node κ}
    (member : n ∈ l) : l.filter (·.id ≠ n.id) = l.erase n := by
  rw [List.Nodup.erase_eq_filter (List.Nodup.of_map _ ids)]
  apply List.filter_congr
  intro a other
  have same : a.id = n.id ↔ a = n :=
    ⟨List.inj_on_of_nodup_map ids other member, fun same => by rw [same]⟩
  rw [Bool.eq_iff_iff]
  simp [same]

theorem popWorst_sublist (l : List (Node κ)) : (popWorst l).1.Sublist l := by
  unfold popWorst
  split
  · exact .refl l
  · exact List.filter_sublist

theorem popWorst_shorter {l : List (Node κ)} (some : l ≠ []) :
    (popWorst l).1.length < l.length := by
  unfold popWorst
  split
  next none => exact absurd (List.argmax_eq_none.mp none) some
  next n first =>
    exact List.length_filter_lt_length_iff_exists.mpr ⟨n, List.argmax_mem first, by simp⟩

theorem note_length {capacity : ℕ} (positive : 0 < capacity) {l : List (Node κ)}
    (bounded : l.length ≤ capacity) (n : Node κ) : (note capacity l n).length ≤ capacity := by
  have shorter : (l.filter (·.id ≠ n.id)).length ≤ l.length := List.length_filter_le _ _
  simp only [note, List.length_cons]
  split
  next full =>
    have some : l.filter (·.id ≠ n.id) ≠ [] := by
      intro none; rw [none] at full; simp only [List.length_nil] at full; omega
    have := popWorst_shorter some
    omega
  · omega

end RecencyList

namespace LruPolicy

open RecencyList

omit [DecidableEq κ] in
private theorem argmax_node (order : List (Cell κ)) :
    (order.map (·.node)).argmax Node.score =
      (order.argmax fun c => c.node.score).map (·.node) := by
  induction order with
  | nil => rfl
  | cons c order ih =>
    simp only [List.map_cons, List.argmax_cons, ih]
    cases order.argmax fun c => c.node.score with
    | none => rfl
    | some best =>
      simp only [Option.map_some]
      split <;> rfl

@[simp] theorem capacity_evict (s : LruPolicy κ) : s.evict.1.capacity = s.capacity := by
  unfold evict
  split
  · rfl
  · split <;> rfl

@[simp] theorem capacity_unlink (s : LruPolicy κ) (id : κ) :
    (s.unlink id).capacity = s.capacity := by
  unfold unlink
  split <;> rfl

@[simp] theorem capacity_touch (s : LruPolicy κ) (id : κ) (bytes : ℕ) (hot : Hotness) :
    (s.touch id bytes hot).capacity = s.capacity := by
  simp only [touch]
  split <;> simp

private theorem evict_cases {s : LruPolicy κ} (linked : s.Linked) :
    (s.order = [] ∧ s.evict = (s, none)) ∨
    ∃ v ∈ s.order, v ∈ s.order.argmax (fun c => c.node.score) ∧
      s.evict = ({ s with order := s.order.filter (·.node.id ≠ v.node.id),
                          map := s.map.erase v.node.id }, some v.node.id) := by
  by_cases empty : s.order = []
  · exact .inl ⟨empty, by simp [evict, empty]⟩
  · refine .inr ?_
    cases found : s.order.argmax fun c => c.node.score with
    | none => exact absurd (List.argmax_eq_none.mp found) empty
    | some v =>
      have member : v ∈ s.order := List.argmax_mem found
      refine ⟨v, member, rfl, ?_⟩
      simp only [evict, if_neg empty, victim_eq, found, linked.eraseAt_id member]

theorem Linked.evict {s : LruPolicy κ} (linked : s.Linked) : s.evict.1.Linked := by
  rcases evict_cases linked with ⟨_, eq⟩ | ⟨v, _, _, eq⟩
  · rw [eq]; exact linked
  · rw [eq]; exact linked.filter _

/-- `evict` pops the worst node of the list, and returns its id. -/
theorem Linked.nodes_evict {s : LruPolicy κ} (linked : s.Linked) :
    (s.evict.1.nodes, s.evict.2) = popWorst s.nodes := by
  rcases evict_cases linked with ⟨empty, eq⟩ | ⟨v, member, first, eq⟩
  · simp [eq, nodes, empty, popWorst]
  · have found : s.order.argmax (fun c => c.node.score) = some v := first
    rw [eq, popWorst, nodes, nodes, argmax_node, found]
    exact Prod.ext (nodes_filter s.order v.node.id) rfl

/-- An eviction from the policy pops the first node of the stable sort by score. -/
theorem Linked.pops {s : LruPolicy κ} (linked : s.Linked) :
    s.evict.1.nodes.Sublist s.nodes ∧
    ((s.nodes = [] ∧ s.evict.2 = none) ∨
      ∃ n, s.evict.2 = some n.id ∧
        Selection.byRank Node.score s.nodes =
          n :: Selection.byRank Node.score s.evict.1.nodes ∧
        s.evict.1.nodes.length < s.nodes.length) := by
  obtain ⟨kept, victim⟩ := Prod.mk.inj linked.nodes_evict
  rw [kept, victim]
  refine ⟨RecencyList.popWorst_sublist _, ?_⟩
  have shorter := @RecencyList.popWorst_shorter κ _ s.nodes
  simp only [RecencyList.popWorst] at shorter ⊢
  cases worst : s.nodes.argmax Node.score with
  | none => exact .inl ⟨List.argmax_eq_none.mp worst, rfl⟩
  | some n =>
    have erased := RecencyList.without_eq_erase linked.distinct (List.argmax_mem worst)
    rw [worst] at shorter
    refine .inr ⟨n, rfl, ?_, shorter fun empty => by simp [empty] at worst⟩
    rw [Selection.byRank_of_argmax Node.score s.nodes n worst, ← erased]

theorem Linked.touch {s : LruPolicy κ} (linked : s.Linked) (id : κ) (bytes : ℕ) (hot : Hotness) :
    (s.touch id bytes hot).Linked := by
  have base : ∀ t : LruPolicy κ, t.Linked → id ∉ t.nodes.map (·.id) →
      ({ t with order := ⟨t.fresh, ⟨id, bytes, hot⟩⟩ :: t.order,
                map := t.map.insert id t.fresh, fresh := t.fresh + 1 } : LruPolicy κ).Linked := by
    intro t linked absent
    rw [map_id_nodes] at absent
    refine ⟨by simpa using ⟨by simpa using absent, linked.ids⟩, ?_, ?_, ?_⟩
    · simp only [List.map_cons, List.nodup_cons, List.mem_map, not_exists, not_and]
      exact ⟨fun c member => Nat.ne_of_lt (linked.used c member), linked.its⟩
    · intro id' it
      by_cases same : id' = id
      · subst same
        simp only [AList.lookup_insert, Option.some.injEq, List.mem_cons]
        constructor
        · rintro rfl
          exact ⟨_, .inl rfl, rfl, rfl⟩
        · rintro ⟨c, rfl | member, here, rfl⟩
          · rfl
          · exact absurd (List.mem_map.mpr ⟨c, member, here⟩) absent
      · rw [AList.lookup_insert_ne same, linked.mapped]
        constructor
        · rintro ⟨c, member, rfl, rfl⟩
          exact ⟨c, List.mem_cons_of_mem _ member, rfl, rfl⟩
        · rintro ⟨c, member, rfl, rfl⟩
          rcases List.mem_cons.mp member with rfl | member
          · exact absurd rfl same
          · exact ⟨c, member, rfl, rfl⟩
    · intro c member
      rcases List.mem_cons.mp member with rfl | member
      · exact Nat.lt_succ_self _
      · exact Nat.lt_succ_of_lt (linked.used c member)
  have unlinked := linked.unlink id
  have gone : id ∉ (s.unlink id).nodes.map (·.id) := by
    simp [linked.nodes_unlink]
  simp only [LruPolicy.touch]
  split
  · refine base _ unlinked.evict fun present => gone ?_
    have popped := congrArg Prod.fst unlinked.nodes_evict
    simp only at popped
    rw [popped] at present
    exact ((popWorst_sublist _).map _).subset present
  · exact base _ unlinked gone

theorem Linked.nodes_touch {s : LruPolicy κ} (linked : s.Linked) (id : κ) (bytes : ℕ)
    (hot : Hotness) :
    (s.touch id bytes hot).nodes = note s.capacity s.nodes ⟨id, bytes, hot⟩ := by
  have unlinked := linked.unlink id
  have length : (s.unlink id).order.length = (s.nodes.filter (·.id ≠ id)).length := by
    rw [← linked.nodes_unlink, nodes, List.length_map]
  have popped := congrArg Prod.fst unlinked.nodes_evict
  simp only [linked.nodes_unlink] at popped
  simp only [LruPolicy.touch, note, capacity_unlink, length]
  split
  next full => exact congrArg (_ :: ·) popped
  · exact congrArg (_ :: ·) (linked.nodes_unlink id)

theorem linked_new (capacity : ℕ) : (new capacity : LruPolicy κ).Linked :=
  ⟨.nil, .nil, by simp [new], by simp [new]⟩

end LruPolicy

/-! ### Histories -/

inductive LruOp (κ : Type) where
  | touch (blockId : κ) (bytes : ℕ) (hotness : Hotness)
  | remove (blockId : κ)
  | evict

/-- What a touch recorded, and when. -/
structure Touched where
  time : ℕ
  bytes : ℕ
  hotness : Hotness

/-- The latest touch of an id in a history. -/
def latest (ops : List (LruOp κ)) (id : κ) : Option Touched :=
  ops.zipIdx.foldl (fun last op =>
    match op.1 with
    | .touch id' bytes hot => if id' = id then some ⟨op.2, bytes, hot⟩ else last
    | .remove _ => last
    | .evict => last) none

theorem latest_touch (ops : List (LruOp κ)) (id' id : κ) (bytes : ℕ) (hot : Hotness) :
    latest (ops ++ [.touch id' bytes hot]) id =
      if id' = id then some ⟨ops.length, bytes, hot⟩ else latest ops id := by
  simp [latest, List.zipIdx_append]

@[simp] theorem latest_remove (ops : List (LruOp κ)) (id' id : κ) :
    latest (ops ++ [.remove id']) id = latest ops id := by
  simp [latest, List.zipIdx_append]

@[simp] theorem latest_evict (ops : List (LruOp κ)) (id : κ) :
    latest (ops ++ [.evict]) id = latest ops id := by
  simp [latest, List.zipIdx_append]

theorem latest_before {ops : List (LruOp κ)} {id : κ} {t : Touched}
    (touched : latest ops id = some t) : t.time < ops.length := by
  induction ops using List.reverseRecOn with
  | nil => simp [latest] at touched
  | append_singleton ops op ih =>
    rw [List.length_append, List.length_singleton]
    cases op with
    | touch id' bytes hot =>
      rw [latest_touch] at touched
      split at touched
      · cases touched
        exact Nat.lt_succ_self _
      · exact Nat.lt_succ_of_lt (ih touched)
    | remove id' => exact Nat.lt_succ_of_lt (ih (by simpa using touched))
    | evict => exact Nat.lt_succ_of_lt (ih (by simpa using touched))

/-- The list holds what the latest touches recorded, newest first. -/
structure Recent (ops : List (LruOp κ)) (l : List (Node κ)) : Prop where
  payload : ∀ n ∈ l, ∃ time, latest ops n.id = some ⟨time, n.bytes, n.hotness⟩
  newest : l.Pairwise fun a b => ∀ ta tb, latest ops a.id = some ta → latest ops b.id = some tb →
    tb.time < ta.time

theorem Recent.sublist {ops : List (LruOp κ)} {l l' : List (Node κ)} (recent : Recent ops l)
    (sub : l'.Sublist l) : Recent ops l' :=
  ⟨fun n member => recent.payload n (sub.subset member), recent.newest.sublist sub⟩

/-- Operations that touch nothing leave the order of recency alone. -/
theorem Recent.same {ops ops' : List (LruOp κ)} {l : List (Node κ)} (recent : Recent ops l)
    (same : ∀ id, latest ops' id = latest ops id) : Recent ops' l := by
  simpa only [same] using (⟨by simpa only [same] using recent.payload,
    by simpa only [same] using recent.newest⟩ : Recent ops' l)

theorem Recent.touch {ops : List (LruOp κ)} {l : List (Node κ)} (recent : Recent ops l)
    (n : Node κ) (absent : ∀ a ∈ l, a.id ≠ n.id) :
    Recent (ops ++ [.touch n.id n.bytes n.hotness]) (n :: l) := by
  have old : ∀ a ∈ l, latest (ops ++ [.touch n.id n.bytes n.hotness]) a.id = latest ops a.id :=
    fun a member => by rw [latest_touch, if_neg (absent a member).symm]
  refine ⟨?_, List.pairwise_cons.mpr ⟨?_, ?_⟩⟩
  · intro a member
    rcases List.mem_cons.mp member with rfl | member
    · exact ⟨ops.length, by rw [latest_touch, if_pos rfl]⟩
    · rw [old a member]
      exact recent.payload a member
  · intro b member ta tb new touched
    rw [latest_touch, if_pos rfl] at new
    cases new
    rw [old b member] at touched
    exact latest_before touched
  · refine recent.newest.imp_of_mem fun {a b} ha hb older => ?_
    rw [old a ha, old b hb]
    exact older

end RemoteCache
