import RemoteCache.Lib.Selection
import Mathlib.Data.List.AList
import Mathlib.Algebra.Order.Ring.Rat
import Mathlib.Tactic.Linarith
import Mathlib.Tactic.Positivity

/-!
# The eviction policy `LruPolicy`

`order_` is a linked list whose cells are named by their iterators and `map_`
sends a block id to the iterator of its cell. Iterators are drawn from a
counter; `erase(it)` removes the cell with that iterator. Scores are exact.
-/
namespace RemoteCache

/-- The hotness of a block, between 0 and 1. -/
abbrev Hotness := { q : ℚ // 0 ≤ q ∧ q ≤ 1 }

def Hotness.one : Hotness := ⟨1, by norm_num⟩
def Hotness.quarter : Hotness := ⟨1 / 4, by norm_num⟩

structure Node (κ : Type) where
  id : κ
  bytes : ℕ
  hotness : Hotness
  deriving DecidableEq

def Node.score {κ : Type} (n : Node κ) : ℚ := n.bytes * (1 - n.hotness.1)

structure Cell (κ : Type) where
  it : ℕ
  node : Node κ
  deriving DecidableEq

structure LruPolicy (κ : Type) where
  capacity : ℕ
  order : List (Cell κ)
  map : AList fun _ : κ => ℕ
  fresh : ℕ

/-- `-DBL_MAX`, where the search for the worst score starts. -/
def negDblMax : ℚ := -(2 ^ 1024 - 2 ^ 971)

namespace LruPolicy

variable {κ : Type} [DecidableEq κ]

def new (capacity : ℕ) : LruPolicy κ := ⟨capacity, [], ∅, 0⟩

/-- `order_.erase(it)` -/
def eraseAt (order : List (Cell κ)) (it : ℕ) : List (Cell κ) := order.eraseP (·.it = it)

/-- The body of `remove`, which `touch` repeats. -/
def unlink (s : LruPolicy κ) (blockId : κ) : LruPolicy κ :=
  match s.map.lookup blockId with
  | some it => { s with order := eraseAt s.order it, map := s.map.erase blockId }
  | none => s

def remove (s : LruPolicy κ) (blockId : κ) : LruPolicy κ := s.unlink blockId

/-- The victim search of `evict`: the first cell whose score exceeds all before it. -/
def victim (order : List (Cell κ)) : Option (Cell κ) :=
  (Selection.scan (fun c => c.node.score) negDblMax order).2

/-- Returns the victim's id, or nothing where the code returns `SIZE_MAX`. -/
def evict (s : LruPolicy κ) : LruPolicy κ × Option κ :=
  if s.order = [] then (s, none)
  else
    match victim s.order with
    | none => (s, none)
    | some v =>
      ({ s with order := eraseAt s.order v.it, map := s.map.erase v.node.id }, some v.node.id)

def touch (s : LruPolicy κ) (blockId : κ) (bytes : ℕ) (hotness : Hotness) : LruPolicy κ :=
  let s := s.unlink blockId
  -- `(void)victim`: what the list pushes out is not returned.
  let s := if s.capacity ≤ s.order.length then s.evict.1 else s
  { s with
    order := ⟨s.fresh, ⟨blockId, bytes, hotness⟩⟩ :: s.order
    map := s.map.insert blockId s.fresh
    fresh := s.fresh + 1 }

/-! ### Representation -/

/-- `map_` holds exactly the ids in `order_`, each with the iterator of its own cell. -/
structure Linked (s : LruPolicy κ) : Prop where
  ids : (s.order.map (·.node.id)).Nodup
  its : (s.order.map (·.it)).Nodup
  mapped : ∀ id it, s.map.lookup id = some it ↔ ∃ c ∈ s.order, c.node.id = id ∧ c.it = it
  used : ∀ c ∈ s.order, c.it < s.fresh

/-- The list `order_` stands for. -/
def nodes (s : LruPolicy κ) : List (Node κ) := s.order.map (·.node)

omit [DecidableEq κ] in
theorem map_id_nodes (s : LruPolicy κ) : s.nodes.map (·.id) = s.order.map (·.node.id) := by
  simp [nodes]

theorem Linked.distinct {s : LruPolicy κ} (linked : s.Linked) : (s.nodes.map (·.id)).Nodup := by
  rw [map_id_nodes]
  exact linked.ids

omit [DecidableEq κ] in
theorem length_nodes (s : LruPolicy κ) : s.nodes.length = s.order.length := List.length_map _

omit [DecidableEq κ] in
theorem score_nonneg (n : Node κ) : 0 ≤ n.score := by
  have hot := n.hotness.2
  exact mul_nonneg (Nat.cast_nonneg _) (by linarith)

omit [DecidableEq κ] in
theorem victim_eq (order : List (Cell κ)) :
    victim order = order.argmax fun c => c.node.score := by
  refine Selection.scan_eq_argmax _ _ _ fun c _ => ?_
  -- Scores are never negative, so the search starts below all of them.
  have floor : negDblMax < 0 :=
    neg_lt_zero.mpr (sub_pos.mpr (pow_lt_pow_right₀ (by norm_num) (by norm_num)))
  exact lt_of_lt_of_le floor (score_nonneg c.node)

omit [DecidableEq κ] in
theorem eraseAt_filter {order : List (Cell κ)} (its : (order.map (·.it)).Nodup) (it : ℕ) :
    eraseAt order it = order.filter (·.it ≠ it) := by
  induction order with
  | nil => rfl
  | cons c order ih =>
    simp only [List.map_cons, List.nodup_cons, List.mem_map, not_exists, not_and] at its
    -- Iterators are distinct, so only the first match can match.
    by_cases here : c.it = it
    · have kept : ∀ a ∈ order, decide (a.it ≠ it) = true := by
        intro a member
        have := its.1 a member
        simpa [← here] using this
      rw [eraseAt, List.eraseP_cons_of_pos (by simpa using here),
        List.filter_cons_of_neg (by simpa using here), List.filter_eq_self.mpr kept]
    · have := ih its.2
      simpa [eraseAt, here] using this

/-- In a well linked list, erasing the iterator of an id filters the id out. -/
theorem Linked.eraseAt_id {s : LruPolicy κ} (linked : s.Linked) {c : Cell κ}
    (member : c ∈ s.order) :
    eraseAt s.order c.it = s.order.filter (·.node.id ≠ c.node.id) := by
  rw [eraseAt_filter linked.its]
  apply List.filter_congr
  intro a other
  have byIt := List.inj_on_of_nodup_map linked.its other member
  have byId := List.inj_on_of_nodup_map linked.ids other member
  have : a.it = c.it ↔ a.node.id = c.node.id :=
    ⟨fun same => by rw [byIt same], fun same => by rw [byId same]⟩
  simp [this]

/-- Filtering one id out of both structures keeps them linked. -/
theorem Linked.filter {s : LruPolicy κ} (linked : s.Linked) (id : κ) :
    ({ s with order := s.order.filter (·.node.id ≠ id), map := s.map.erase id } :
      LruPolicy κ).Linked where
  ids := linked.ids.sublist (List.filter_sublist.map _)
  its := linked.its.sublist (List.filter_sublist.map _)
  mapped id' it := by
    by_cases same : id' = id
    · subst same
      simp only [AList.lookup_erase, reduceCtorEq, List.mem_filter, decide_eq_true_eq, false_iff]
      rintro ⟨c, member, same, _⟩
      exact member.2 same
    · rw [AList.lookup_erase_ne same, linked.mapped]
      constructor
      · rintro ⟨c, member, rfl, rfl⟩
        exact ⟨c, by simpa [member] using same, rfl, rfl⟩
      · rintro ⟨c, member, rfl, rfl⟩
        exact ⟨c, (List.mem_filter.mp member).1, rfl, rfl⟩
  used c member := linked.used c (List.mem_filter.mp member).1

theorem nodes_filter (order : List (Cell κ)) (id : κ) :
    (order.filter (·.node.id ≠ id)).map (·.node) =
      (order.map (·.node)).filter (·.id ≠ id) := by
  rw [List.filter_map]
  rfl

/-- What `unlink` does, in both structures at once. -/
theorem Linked.unlink_eq {s : LruPolicy κ} (linked : s.Linked) (id : κ) :
    s.unlink id =
      { s with order := s.order.filter (·.node.id ≠ id), map := s.map.erase id } ∨
    (s.unlink id = s ∧ ∀ c ∈ s.order, c.node.id ≠ id) := by
  unfold LruPolicy.unlink
  cases found : s.map.lookup id with
  -- `map_` does not know the id, so no cell carries it.
  | none =>
    refine .inr ⟨rfl, fun c member same => ?_⟩
    have := (linked.mapped id c.it).mpr ⟨c, member, same, rfl⟩
    simp [found] at this
  | some it =>
    obtain ⟨c, member, rfl, rfl⟩ := (linked.mapped id it).mp found
    exact .inl (by simp only [linked.eraseAt_id member])

theorem Linked.unlink {s : LruPolicy κ} (linked : s.Linked) (id : κ) : (s.unlink id).Linked := by
  rcases linked.unlink_eq id with eq | ⟨eq, _⟩
  · rw [eq]; exact linked.filter id
  · rw [eq]; exact linked

theorem Linked.nodes_unlink {s : LruPolicy κ} (linked : s.Linked) (id : κ) :
    (s.unlink id).nodes = s.nodes.filter (·.id ≠ id) := by
  rcases linked.unlink_eq id with eq | ⟨eq, absent⟩
  · rw [eq]; exact nodes_filter s.order id
  · rw [eq, eq_comm, List.filter_eq_self]
    intro n member
    obtain ⟨c, here, rfl⟩ := List.mem_map.mp member
    simpa using absent c here

end LruPolicy

end RemoteCache
