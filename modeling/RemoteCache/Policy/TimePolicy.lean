import RemoteCache.Lib.Transition
import Mathlib.Data.List.AList
import Mathlib.Data.UInt
import Mathlib.Tactic.Common

/-!
# The eviction policy `TimePolicy`

The policy keeps the time of the last touch of every block. An eviction takes
the first block, in whatever order the table lists its entries, that is at
least `ttlSeconds` old. Times are nanoseconds of a clock that does not go back.
-/
namespace RemoteCache

/-- The largest `size_t`, which stands for no block. -/
def SIZE_MAX : UInt64 := .ofNat (2 ^ 64 - 1)

structure TimePolicy where
  ttlSeconds : ℤ
  timestamps : AList fun _ : UInt64 => ℤ

/-- An entry of the table, as an iteration over the table visits it. -/
abbrev Stamp := Sigma fun _ : UInt64 => ℤ

namespace TimePolicy

def nanoseconds : ℤ := 1000000000

def new (ttlSeconds : ℤ) : TimePolicy := ⟨ttlSeconds, ∅⟩

def touch (s : TimePolicy) (blockId : UInt64) (now : ℤ) : TimePolicy :=
  { s with timestamps := s.timestamps.insert blockId now }

def remove (s : TimePolicy) (blockId : UInt64) : TimePolicy :=
  { s with timestamps := s.timestamps.erase blockId }

/-- `duration_cast<seconds>(now - ts)`, which truncates. -/
def age (now ts : ℤ) : ℤ := (now - ts).tdiv nanoseconds

/-- The search of `evict`, over the entries in the order in which they are listed. -/
def victim (s : TimePolicy) (now : ℤ) : List Stamp → UInt64
  | [] => SIZE_MAX
  | entry :: rest => if s.ttlSeconds ≤ age now entry.2 then entry.1 else s.victim now rest

def evict (s : TimePolicy) (now : ℤ) (order : List Stamp) : TimePolicy × UInt64 :=
  let victim := s.victim now order
  (if victim = SIZE_MAX then s else { s with timestamps := s.timestamps.erase victim }, victim)

/-- `evict` again and again at one instant until it returns `SIZE_MAX`, with the ids it returned.
The table lists its entries in the order `enum` when it is asked for the `n`th time. -/
def sweep (enum : ℕ → TimePolicy → List Stamp) (now : ℤ) :
    ℕ → ℕ → TimePolicy → Option (TimePolicy × List UInt64)
  | 0, _, _ => none
  | fuel + 1, n, s =>
    let (s', id) := s.evict now (enum n s)
    if id = SIZE_MAX then some (s', [])
    else (s'.sweep enum now fuel (n + 1)).map fun rest => (rest.1, id :: rest.2)

/-- The orders list exactly the entries of the table. -/
def Enumerates (enum : ℕ → TimePolicy → List Stamp) : Prop :=
  ∀ n s, (enum n s).Perm s.timestamps.entries

end TimePolicy

/-! ### Runs -/

inductive TimeOp where
  | touch (id : UInt64)
  | remove (id : UInt64)
  | evict
  deriving DecidableEq

/-- The policy and the time of the latest call. -/
structure Timed where
  policy : TimePolicy
  clock : ℤ

/-- A call at a time, and the id that it returned if it was an eviction. -/
abbrev TimeTrace := List ((TimeOp × ℤ) × Option UInt64)

namespace TimePolicy

inductive Steps : Timed → TimeOp × ℤ → Option UInt64 → Timed → Prop
  | touch {s : Timed} {id : UInt64} {now : ℤ} (small : id < SIZE_MAX) (later : s.clock ≤ now) :
      Steps s (.touch id, now) none ⟨s.policy.touch id now, now⟩
  | remove {s : Timed} {id : UInt64} {now : ℤ} (small : id < SIZE_MAX) (later : s.clock ≤ now) :
      Steps s (.remove id, now) none ⟨s.policy.remove id, now⟩
  | evict {s : Timed} {now : ℤ} {order : List Stamp} (later : s.clock ≤ now)
      (enum : order.Perm s.policy.timestamps.entries) :
      Steps s (.evict, now) (some (s.policy.evict now order).2) ⟨(s.policy.evict now order).1, now⟩

/-- The time of the latest touch of a block, unless it was removed or evicted since. -/
def latestTouch (trace : TimeTrace) (id : UInt64) : Option ℤ :=
  trace.foldl
    (fun last call =>
      match call with
      | ((.touch i, now), _) => if i = id then some now else last
      | ((.remove i, _), _) => if i = id then none else last
      | ((.evict, _), victim) => if victim = some id then none else last) none

/-- A resident block whose latest touch is at least `ttl` seconds old. -/
def Expired (ttl : ℤ) (trace : TimeTrace) (now : ℤ) (id : UInt64) : Prop :=
  ∃ ts, latestTouch trace id = some ts ∧ ttl * nanoseconds ≤ now - ts

theorem latestTouch_concat (trace : TimeTrace) (op : TimeOp) (now : ℤ) (out : Option UInt64)
    (id : UInt64) :
    latestTouch (trace ++ [((op, now), out)]) id =
      match op with
      | .touch i => if i = id then some now else latestTouch trace id
      | .remove i => if i = id then none else latestTouch trace id
      | .evict => if out = some id then none else latestTouch trace id := by
  rw [latestTouch, List.foldl_append]
  cases op <;> rfl

/-! ### One eviction -/

/-- A block whose stamp in the table is at least `ttlSeconds` old. -/
def Old (s : TimePolicy) (now : ℤ) (id : UInt64) : Prop :=
  ∃ ts, s.timestamps.lookup id = some ts ∧ s.ttlSeconds * nanoseconds ≤ now - ts

/-- No stamp lies after `now` or belongs to `SIZE_MAX`. -/
def Stamped (s : TimePolicy) (now : ℤ) : Prop :=
  ∀ id ts, s.timestamps.lookup id = some ts → id ≠ SIZE_MAX ∧ ts ≤ now

variable {s : TimePolicy} {now : ℤ} {order : List Stamp}

/-- Truncation to seconds does not matter to a whole number of seconds. -/
theorem le_age_iff {ttl ts : ℤ} (past : ts ≤ now) :
    ttl ≤ age now ts ↔ ttl * nanoseconds ≤ now - ts := by
  rw [age, Int.tdiv_eq_ediv_of_nonneg (Int.sub_nonneg.mpr past)]
  exact Int.le_ediv_iff_mul_le (by decide)

theorem victim_cases (s : TimePolicy) (now : ℤ) (order : List Stamp) :
    (∃ entry ∈ order, s.ttlSeconds ≤ age now entry.2 ∧ s.victim now order = entry.1) ∨
    ((∀ entry ∈ order, ¬s.ttlSeconds ≤ age now entry.2) ∧ s.victim now order = SIZE_MAX) := by
  induction order with
  | nil => exact .inr ⟨by simp, rfl⟩
  | cons entry rest ih =>
    by_cases old : s.ttlSeconds ≤ age now entry.2
    · exact .inl ⟨entry, List.mem_cons_self, old, if_pos old⟩
    · rw [victim, if_neg old]
      rcases ih with ⟨found, member, expired, eq⟩ | ⟨young, eq⟩
      · exact .inl ⟨found, List.mem_cons_of_mem _ member, expired, eq⟩
      · exact .inr ⟨List.forall_mem_cons.mpr ⟨old, young⟩, eq⟩

/-- An eviction takes an old block out, or there is none and it changes nothing. -/
theorem evict_cases (stamped : s.Stamped now) (enum : order.Perm s.timestamps.entries) :
    (∃ id, id ≠ SIZE_MAX ∧ s.Old now id ∧
      s.evict now order = ({ s with timestamps := s.timestamps.erase id }, id)) ∨
    ((∀ id, ¬s.Old now id) ∧ s.evict now order = (s, SIZE_MAX)) := by
  have listed : ∀ entry : Stamp, entry ∈ order ↔ s.timestamps.lookup entry.1 = some entry.2 := by
    intro entry
    rw [enum.mem_iff]
    exact AList.mem_lookup_iff.symm
  rcases victim_cases s now order with ⟨entry, member, old, eq⟩ | ⟨young, eq⟩
  · left
    have found := (listed entry).mp member
    obtain ⟨proper, past⟩ := stamped _ _ found
    refine ⟨entry.1, proper, ⟨entry.2, found, (le_age_iff past).mp old⟩, ?_⟩
    simp only [evict, eq, if_neg proper]
  · right
    constructor
    · rintro id ⟨ts, found, old⟩
      apply young ⟨id, ts⟩ ((listed ⟨id, ts⟩).mpr found)
      exact (le_age_iff (stamped _ _ found).2).mpr old
    · simp only [evict, eq, if_pos]

theorem lookup_evicted (s : TimePolicy) (id other : UInt64) :
    (s.timestamps.erase id).lookup other =
      if other = id then none else s.timestamps.lookup other := by
  by_cases same : other = id
  · rw [if_pos same, same, AList.lookup_erase]
  · rw [if_neg same, AList.lookup_erase_ne same]

theorem Stamped.erase (stamped : s.Stamped now) (id : UInt64) :
    Stamped { s with timestamps := s.timestamps.erase id } now := by
  intro other ts found
  rw [lookup_evicted] at found
  split at found
  · cases found
  · exact stamped other ts found

theorem old_erase {id other : UInt64} :
    Old { s with timestamps := s.timestamps.erase id } now other ↔
      other ≠ id ∧ s.Old now other := by
  simp only [Old, lookup_evicted]
  by_cases same : other = id <;> simp [same]

/-! ### Sweeping -/

/-- A sweep takes out the old blocks, each once, and leaves the others. -/
theorem sweep_old {enum : ℕ → TimePolicy → List Stamp} (enumerates : Enumerates enum)
    (fuel n : ℕ) (s : TimePolicy) (stamped : s.Stamped now)
    (enough : s.timestamps.entries.length < fuel) :
    ∃ rest ids, s.sweep enum now fuel n = some (rest, ids) ∧ ids.Nodup ∧
      (∀ id, id ∈ ids ↔ s.Old now id) ∧
      ∀ id, rest.timestamps.lookup id = if id ∈ ids then none else s.timestamps.lookup id := by
  induction fuel generalizing n s with
  | zero => exact absurd enough (Nat.not_lt_zero _)
  | succ fuel ih =>
    rcases evict_cases stamped (enumerates n s) with ⟨id, proper, old, eq⟩ | ⟨young, eq⟩
    · -- The entry of the victim is gone, so the table is shorter for the rest of the sweep.
      have shorter : (s.timestamps.erase id).entries.length < fuel := by
        obtain ⟨ts, found, _⟩ := old
        have entry : (⟨id, ts⟩ : Stamp) ∈ s.timestamps.entries := AList.mem_lookup_iff.mp found
        have length : (s.timestamps.erase id).entries.length = s.timestamps.entries.length - 1 :=
          List.length_eraseP_of_mem entry (by simp)
        have positive := List.length_pos_of_mem entry
        omega
      obtain ⟨rest, ids, swept, nodup, all, left⟩ :=
        ih (n + 1) { s with timestamps := s.timestamps.erase id } (stamped.erase id) shorter
      have once : id ∉ ids := fun again => (old_erase.mp ((all id).mp again)).1 rfl
      refine ⟨rest, id :: ids, ?_, List.nodup_cons.mpr ⟨once, nodup⟩, ?_, ?_⟩
      · simp only [sweep, eq, if_neg proper, swept, Option.map_some]
      · intro other
        rw [List.mem_cons, all, old_erase]
        by_cases same : other = id
        · simp [same, old]
        · simp [same]
      · intro other
        rw [left, lookup_evicted]
        by_cases same : other = id <;> simp [same]
    · refine ⟨s, [], by simp only [sweep, eq, if_pos], .nil, fun id => ?_, fun id => by simp⟩
      simp [young id]

/-! ### Histories -/

/-- The table holds the latest touches that the history tells of. -/
structure Records (ttl : ℤ) (trace : TimeTrace) (s : Timed) : Prop where
  ttl : s.policy.ttlSeconds = ttl
  stamped : s.policy.Stamped s.clock
  latest : ∀ id, s.policy.timestamps.lookup id = latestTouch trace id

theorem Stamped.later (stamped : s.Stamped now) {now' : ℤ} (later : now ≤ now') :
    s.Stamped now' :=
  fun id ts found => ⟨(stamped id ts found).1, (stamped id ts found).2.trans later⟩

theorem Records.step {ttl : ℤ} {trace : TimeTrace} {s t : Timed} {call : TimeOp × ℤ}
    {out : Option UInt64} (records : Records ttl trace s) (taken : Steps s call out t) :
    Records ttl (trace ++ [(call, out)]) t := by
  obtain ⟨ttl, stamped, latest⟩ := records
  cases taken with
  | touch small later =>
    rename_i id now
    refine ⟨ttl, fun other ts found => ?_, fun other => ?_⟩
    · by_cases same : other = id
      · subst same
        rw [touch, AList.lookup_insert] at found
        cases found
        exact ⟨fun top => absurd small (by rw [top]; decide), Int.le_refl _⟩
      · rw [touch, AList.lookup_insert_ne same] at found
        exact stamped.later later other ts found
    · rw [latestTouch_concat]
      by_cases same : other = id
      · rw [same, touch, AList.lookup_insert]
        exact (if_pos rfl).symm
      · simp [touch, same, Ne.symm same, latest]
  | remove small later =>
    refine ⟨ttl, (stamped.later later).erase _, fun other => ?_⟩
    rw [latestTouch_concat, remove, lookup_evicted, latest]
    simp only [eq_comm]
  | evict later enum =>
    rcases evict_cases (stamped.later later) enum with ⟨id, proper, old, eq⟩ | ⟨young, eq⟩
    · rw [eq]
      refine ⟨ttl, (stamped.later later).erase id, fun other => ?_⟩
      rw [latestTouch_concat, lookup_evicted, latest]
      simp only [Option.some.injEq, eq_comm]
    -- `SIZE_MAX` is no block, so the history says that nothing has been evicted.
    · rw [eq]
      refine ⟨ttl, stamped.later later, fun other => ?_⟩
      rw [latestTouch_concat, latest]
      by_cases top : SIZE_MAX = other
      · subst top
        cases found : latestTouch trace SIZE_MAX with
        | none => simp
        | some ts => exact absurd rfl (stamped SIZE_MAX ts ((latest _).trans found)).1
      · simp [top]

theorem run_records {ttl start : ℤ} {trace : TimeTrace} {s : Timed}
    (run : Run Steps ⟨new ttl, start⟩ trace s) : Records ttl trace s :=
  run.invariant ⟨rfl, by simp [Stamped, new], by simp [new, latestTouch]⟩
    fun _ records taken => records.step taken

theorem Records.old_iff {ttl : ℤ} {trace : TimeTrace} {s : Timed} (records : Records ttl trace s)
    (now : ℤ) (id : UInt64) : s.policy.Old now id ↔ Expired ttl trace now id := by
  rw [Old, Expired, records.ttl]
  simp only [records.latest]

/-- After every history an eviction returns and removes a block that has expired, or none has; and
evicting at one instant until none is returned removes the expired blocks, each once, whatever
the order in which the table lists its entries. -/
theorem expiry_exact (ttl start : ℤ) (trace : TimeTrace) (s : Timed)
    (run : Run Steps ⟨new ttl, start⟩ trace s) (now : ℤ) (later : s.clock ≤ now) :
    (∀ order, order.Perm s.policy.timestamps.entries →
      let r := s.policy.evict now order
      (r.2 ≠ SIZE_MAX → Expired ttl trace now r.2 ∧
        ∀ id, r.1.timestamps.lookup id = if id = r.2 then none else latestTouch trace id) ∧
      (r.2 = SIZE_MAX → (∀ id, ¬Expired ttl trace now id) ∧ r.1 = s.policy)) ∧
    ∀ enum, Enumerates enum → ∃ rest ids,
      s.policy.sweep enum now (s.policy.timestamps.entries.length + 1) 0 = some (rest, ids) ∧
      ids.Nodup ∧ (∀ id, id ∈ ids ↔ Expired ttl trace now id) ∧
      ∀ id, rest.timestamps.lookup id = if id ∈ ids then none else latestTouch trace id := by
  have records := run_records run
  have stamped := records.stamped.later later
  constructor
  · intro order enum
    rcases evict_cases stamped enum with ⟨id, proper, old, eq⟩ | ⟨young, eq⟩
    · rw [eq]
      refine ⟨fun _ => ⟨(records.old_iff now id).mp old, fun other => ?_⟩,
        fun top => absurd top proper⟩
      rw [lookup_evicted, records.latest]
    · rw [eq]
      exact ⟨fun proper => absurd rfl proper,
        fun _ => ⟨fun id expired => young id ((records.old_iff now id).mpr expired), rfl⟩⟩
  · intro enum enumerates
    obtain ⟨rest, ids, swept, nodup, all, left⟩ :=
      sweep_old enumerates _ 0 s.policy stamped (Nat.lt_succ_self _)
    refine ⟨rest, ids, swept, nodup, fun id => (all id).trans (records.old_iff now id), ?_⟩
    simp only [left, records.latest, implies_true]

/-- Two blocks, of which one has been touched again since. -/
theorem expiry_exact_touched :
    let s : Timed := ⟨((((new 2).touch 7 0).touch 8 0).touch 7 1500000000), 1500000000⟩
    let trace : TimeTrace :=
      [((.touch 7, 0), none), ((.touch 8, 0), none), ((.touch 7, 1500000000), none)]
    (∀ order, order.Perm s.policy.timestamps.entries →
      let r := s.policy.evict 2000000000 order
      (r.2 ≠ SIZE_MAX → Expired 2 trace 2000000000 r.2 ∧
        ∀ id, r.1.timestamps.lookup id = if id = r.2 then none else latestTouch trace id) ∧
      (r.2 = SIZE_MAX → (∀ id, ¬Expired 2 trace 2000000000 id) ∧ r.1 = s.policy)) ∧
    ∀ enum, Enumerates enum → ∃ rest ids,
      s.policy.sweep enum 2000000000 (s.policy.timestamps.entries.length + 1) 0 =
        some (rest, ids) ∧
      ids.Nodup ∧ (∀ id, id ∈ ids ↔ Expired 2 trace 2000000000 id) ∧
      ∀ id, rest.timestamps.lookup id = if id ∈ ids then none else latestTouch trace id :=
  expiry_exact 2 0 _ _
    (.next (.next (.next (.refl _) (.touch (by decide) (by decide)))
      (.touch (by decide) (by decide))) (.touch (by decide) (by decide))) 2000000000 (by decide)

end TimePolicy

end RemoteCache
