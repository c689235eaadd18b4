import RemoteCache.Cache.EvictionFrame
import RemoteCache.Policy.LruDrain

/-!
# The calls that an eviction makes

## Main result

`eviction_accounts`: from any state whose keys resolve, and whatever the measured
usage is, the loop of `evict_until_gb` ends after at most one call of `evict` more
than there are keys; it pops no key twice and deletes the object of each entry
that it marks once, and no other.
-/
namespace RemoteCache

/-- What the loop of `evict_until_gb` asks of others, and what it is told. -/
inductive EvictEvent where
  | measured (gb : ℚ)
  | evicted (result : Option Key)
  | deleted (path : Str) (hashHex : Digest)

namespace EvictEvent

/-- What the calls of `used_gb` return. -/
def measurements (log : List EvictEvent) : List ℚ :=
  log.filterMap fun
    | .measured gb => some gb
    | _ => none

/-- What the calls of `evict` return. -/
def results (log : List EvictEvent) : List (Option Key) :=
  log.filterMap fun
    | .evicted result => some result
    | _ => none

/-- The entries for which `delete_object` is called. -/
def deletions (log : List EvictEvent) : List Str :=
  log.filterMap fun
    | .deleted path _ => some path
    | _ => none

end EvictEvent

namespace CacheManager

open EvictEvent

variable (cfg : Config)

/-- The call of `delete_object` that `evictKey` makes, if it makes one. -/
def keyDeletes (m : CacheManager) (key : Key) : List EvictEvent :=
  match key.addr with
  | .task _ => []
  | .entry path =>
    match m.entries.lookup path with
    | none => []
    | some ce => if ce.evicted then [] else [.deleted path ce.hashHex]

/-- `evictLoop` with a record of its calls, and without a result if the fuel does not last. -/
def evictLoopLog (used : ℕ → ℚ) (freeGb : ℚ) :
    ℕ → ℕ → CacheManager → Option (CacheManager × List EvictEvent)
  | 0, _, _ => none
  | fuel + 1, n, m =>
    if freeGb < used n then
      match m.lru.evict with
      | (lru, none) => some ({ m with lru }, [.measured (used n), .evicted none])
      | (lru, some key) =>
        (evictKey cfg { m with lru } key).bind fun m' =>
          (evictLoopLog used freeGb fuel (n + 1) m').map fun rest =>
            (rest.1, .measured (used n) :: .evicted (some key) :: (m.keyDeletes key ++ rest.2))
    else some (m, [.measured (used n)])

/-- The record belongs to a run from `m` to `m'`. -/
structure Account (freeGb : ℚ) (m m' : CacheManager) (log : List EvictEvent) : Prop where
  calls : (results log).length ≤ m.lru.order.length + 1
  once : ((results log).filterMap id).Nodup
  resident : ∀ key, some key ∈ results log → key ∈ m.lru.nodes.map (·.id)
  marked : ∀ path, m.Victim m' path → (deletions log).count path = 1
  others : ∀ path, ¬m.Victim m' path → path ∉ deletions log
  hashes : ∀ path hashHex, .deleted path hashHex ∈ log →
    ∃ ce, m.entries.lookup path = some ce ∧ ce.hashHex = hashHex
  stays : ∀ path, m.gone path = true → m'.gone path = true
  last : ∃ gb, (measurements log).getLast? = some gb ∧ (gb ≤ freeGb ∨ m'.lru.order = [])

variable {cfg} {m m' mid : CacheManager} {used : ℕ → ℚ} {freeGb : ℚ}

theorem evictLoop_of_log {fuel n : ℕ} {log : List EvictEvent}
    (logged : m.evictLoopLog cfg used freeGb fuel n = some (m', log)) :
    m.evictLoop cfg used freeGb fuel n = some m' := by
  induction fuel generalizing n m log with
  | zero => cases logged
  | succ fuel ih =>
    by_cases above : freeGb < used n
    · rw [evictLoopLog, if_pos above] at logged
      rw [evictLoop, if_pos above]
      cases result : m.lru.evict with | mk lru victim =>
      rw [result] at logged
      cases victim with
      | none =>
        cases logged
        rfl
      | some key =>
        obtain ⟨mid, evicted, rest⟩ := Option.bind_eq_some_iff.mp logged
        obtain ⟨⟨_, _⟩, tail, same⟩ := Option.map_eq_some_iff.mp rest
        cases same
        simp only [evicted, Option.bind_some]
        exact ih tail
    · rw [evictLoopLog, if_neg above] at logged
      cases logged
      rw [evictLoop, if_neg above]

/-! ### One pass -/

/-- A pass passes over an entry that was marked before, or marks it and deletes its object. -/
theorem keyDeletes_cases {lru : LruPolicy Key} {key : Key}
    (evicted : evictKey cfg { m with lru } key = some mid) :
    mid.lru = lru ∧ ∃ path ce, m.entries.lookup path = some ce ∧
      ((m.keyDeletes key = [] ∧ mid.entries = m.entries) ∨
        (m.keyDeletes key = [.deleted path ce.hashHex] ∧ ce.evicted = false ∧
          mid.entries = m.entries.insert path { ce with evicted := true })) := by
  obtain ⟨path, ce, addr, found, effect⟩ := evictKey_cases evicted
  refine ⟨evictKey_lru evicted, path, ce, found, ?_⟩
  have entered : m.entries.lookup path = some ce := found
  rcases effect with ⟨gone, rfl⟩ | ⟨live, rfl⟩
  · left
    simp [keyDeletes, addr, entered, gone]
  · right
    simp [keyDeletes, addr, entered, live]

theorem gone_insert {path : Str} {ce : CacheEntry}
    (entries : mid.entries = m.entries.insert path ce) (q : Str) :
    mid.gone q = if q = path then ce.evicted else m.gone q := by
  unfold gone
  rw [entries]
  split
  next here => rw [here, AList.lookup_insert, Option.any_some]
  next other => rw [AList.lookup_insert_ne other]

/-- An eviction pops a resident key, which is not resident any more. -/
theorem evict_pops (linked : m.lru.Linked) {lru : LruPolicy Key} {key : Key}
    (result : m.lru.evict = (lru, some key)) :
    key ∈ m.lru.nodes.map (·.id) ∧ lru.nodes.Sublist m.lru.nodes ∧
      key ∉ lru.nodes.map (·.id) ∧ lru.nodes.length < m.lru.nodes.length := by
  obtain ⟨sub, ⟨_, nothing⟩ | ⟨n, victim, sorted, shorter⟩⟩ := linked.pops
  · rw [result] at nothing
    cases nothing
  · have popped : m.lru.evict.2 = some key := by rw [result]
    have remaining := linked.evict_nodes popped
    rw [result] at sub victim shorter remaining
    cases victim
    have resident : n ∈ m.lru.nodes := by
      rw [← (Selection.byRank_perm Node.score m.lru.nodes).mem_iff, sorted]
      exact List.mem_cons_self
    refine ⟨List.mem_map_of_mem resident, sub, ?_, shorter⟩
    rw [remaining]
    simp

/-- What the record says of the calls of `evict` and `used_gb`. -/
private structure Pops (freeGb : ℚ) (m m' : CacheManager) (log : List EvictEvent) : Prop where
  calls : (results log).length ≤ m.lru.order.length + 1
  once : ((results log).filterMap id).Nodup
  resident : ∀ key, some key ∈ results log → key ∈ m.lru.nodes.map (·.id)
  last : ∃ gb, (measurements log).getLast? = some gb ∧ (gb ≤ freeGb ∨ m'.lru.order = [])

/-- A pass adds one call of `evict` and one measurement. -/
private theorem Account.pops {log log' : List EvictEvent} (account : Account freeGb mid m' log)
    {gb : ℚ} {key : Key} (returned : results log' = some key :: results log)
    (measured : measurements log' = gb :: measurements log) (linked : m.lru.Linked)
    (result : m.lru.evict = (mid.lru, some key)) : Pops freeGb m m' log' := by
  obtain ⟨popped, sub, left, shorter⟩ := evict_pops linked result
  have calls := account.calls
  rw [← LruPolicy.length_nodes] at calls
  constructor
  · rw [returned, List.length_cons, ← LruPolicy.length_nodes]
    omega
  · rw [returned]
    change (key :: (results log).filterMap id).Nodup
    rw [List.nodup_cons]
    constructor
    · intro again
      obtain ⟨_, member, same⟩ := List.mem_filterMap.mp again
      exact left (account.resident key (same ▸ member))
    · exact account.once
  · intro key' member
    rw [returned] at member
    rcases List.mem_cons.mp member with same | later
    · cases same
      exact popped
    · exact (sub.map _).subset (account.resident key' later)
  · obtain ⟨gb', final, ends⟩ := account.last
    refine ⟨gb', ?_, ends⟩
    rw [measured, List.getLast?_cons, final, Option.getD_some]

/-- A pass over an entry that was marked before deletes nothing. -/
private theorem Account.kept {log log' : List EvictEvent} (account : Account freeGb mid m' log)
    (pops : Pops freeGb m m' log') (entries : mid.entries = m.entries)
    (deleted : ∀ path hashHex, .deleted path hashHex ∈ log' ↔ .deleted path hashHex ∈ log)
    (paths : deletions log' = deletions log) : Account freeGb m m' log' := by
  have same : mid.gone = m.gone := by
    funext q
    rw [gone, gone, entries]
  have victim : ∀ q, m.Victim m' q ↔ mid.Victim m' q := by
    intro q
    rw [Victim, Victim, same]
  refine ⟨pops.calls, pops.once, pops.resident, ?_, ?_, ?_, ?_, pops.last⟩
  · intro q marked
    rw [paths]
    exact account.marked q ((victim q).mp marked)
  · intro q spared
    rw [paths]
    exact account.others q fun marked => spared ((victim q).mpr marked)
  · intro q hashHex member
    rw [← entries]
    exact account.hashes q hashHex ((deleted q hashHex).mp member)
  · exact fun q gone => account.stays q (by rwa [same])

/-- A pass over another entry marks it and deletes its object. -/
private theorem Account.marks {log log' : List EvictEvent} (account : Account freeGb mid m' log)
    (pops : Pops freeGb m m' log') {path : Str} {ce : CacheEntry}
    (found : m.entries.lookup path = some ce) (live : ce.evicted = false)
    (entries : mid.entries = m.entries.insert path { ce with evicted := true })
    (deleted : ∀ q hashHex, .deleted q hashHex ∈ log' ↔
      (q = path ∧ hashHex = ce.hashHex) ∨ .deleted q hashHex ∈ log)
    (paths : deletions log' = path :: deletions log) : Account freeGb m m' log' := by
  have gone := gone_insert entries
  have before : m.gone path = false := by
    rw [CacheManager.gone, found, Option.any_some, live]
  have marks : mid.gone path = true := by rw [gone path, if_pos rfl]
  have other : ∀ q, q ≠ path → (m.Victim m' q ↔ mid.Victim m' q) := by
    intro q other
    rw [Victim, Victim, gone q, if_neg other]
  -- The entry is marked from here on, so what follows does not delete its object again.
  have unrepeated : path ∉ deletions log := by
    apply account.others path
    rintro ⟨unmarked, _⟩
    rw [marks] at unmarked
    cases unmarked
  refine ⟨pops.calls, pops.once, pops.resident, ?_, ?_, ?_, ?_, pops.last⟩
  · intro q marked
    rw [paths]
    by_cases here : q = path
    · rw [here, List.count_cons_self, List.count_eq_zero_of_not_mem unrepeated]
    · rw [List.count_cons_of_ne (Ne.symm here)]
      exact account.marked q ((other q here).mp marked)
  · intro q spared
    rw [paths, List.mem_cons, not_or]
    have here : q ≠ path := by
      rintro rfl
      exact spared ⟨before, account.stays q marks⟩
    exact ⟨here, account.others q fun marked => spared ((other q here).mpr marked)⟩
  · intro q hashHex member
    rcases (deleted q hashHex).mp member with ⟨rfl, rfl⟩ | later
    · exact ⟨ce, found, rfl⟩
    · obtain ⟨ce', entered, hash⟩ := account.hashes q hashHex later
      rw [entries] at entered
      by_cases here : q = path
      · rw [here, AList.lookup_insert] at entered
        cases entered
        exact ⟨ce, by rw [here, found], hash⟩
      · rw [AList.lookup_insert_ne here] at entered
        exact ⟨ce', entered, hash⟩
  · intro q earlier
    apply account.stays q
    rw [gone q]
    split
    · rfl
    · exact earlier

theorem Account.pass {log : List EvictEvent} (account : Account freeGb mid m' log) (gb : ℚ)
    (linked : m.lru.Linked) {lru : LruPolicy Key} {key : Key}
    (result : m.lru.evict = (lru, some key))
    (evicted : evictKey cfg { m with lru } key = some mid) :
    Account freeGb m m' (.measured gb :: .evicted (some key) :: (m.keyDeletes key ++ log)) := by
  obtain ⟨rfl, path, ce, found, effect⟩ := keyDeletes_cases evicted
  rcases effect with ⟨none, entries⟩ | ⟨one, live, entries⟩
  · rw [none]
    exact account.kept (account.pops rfl rfl linked result) entries (by simp) rfl
  · rw [one]
    exact account.marks (account.pops rfl rfl linked result) found live entries (by simp) rfl

/-! ### The loop -/

/-- The last pass pops nothing. -/
theorem Account.last_pass {gb : ℚ} (ends : gb ≤ freeGb ∨ m.lru.order = [])
    {asked : List EvictEvent} (last : asked = [] ∨ asked = [.evicted none]) :
    Account freeGb m m (.measured gb :: asked) := by
  have unmarked : ∀ path, ¬m.Victim m path := by
    rintro path ⟨before, after⟩
    rw [before] at after
    cases after
  rcases last with rfl | rfl
  · exact ⟨by simp [results], .nil, by simp [results], fun q marked => absurd marked (unmarked q),
      by simp [deletions], by simp, fun _ gone => gone, gb, rfl, ends⟩
  · exact ⟨by simp [results], .nil, by simp [results], fun q marked => absurd marked (unmarked q),
      by simp [deletions], by simp, fun _ gone => gone, gb, rfl, ends⟩

/-- Enough passes give the same result, whatever their number. -/
theorem evictLoopLog_accounts (cfg : Config) (used : ℕ → ℚ) (freeGb : ℚ) (size n : ℕ)
    (linked : m.lru.Linked) (resolved : m.Resolved) (length : m.lru.nodes.length = size) :
    ∃ m' log, Account freeGb m m' log ∧
      ∀ fuel, size < fuel → m.evictLoopLog cfg used freeGb fuel n = some (m', log) := by
  induction size using Nat.strong_induction_on generalizing m n with
  | _ size ih =>
  -- There is a pass left as long as the fuel is above the number of keys.
  have left : ∀ fuel, size < fuel → ∃ rest, fuel = rest + 1 := by
    intro fuel enough
    exact ⟨fuel - 1, by omega⟩
  by_cases above : freeGb < used n
  · cases result : m.lru.evict with | mk lru victim =>
    cases victim with
    | none =>
      have empty : m.lru.order = [] := by
        rcases linked.pops.2 with ⟨empty, _⟩ | ⟨worst, popped, _⟩
        · exact List.map_eq_nil_iff.mp empty
        · rw [result] at popped
          cases popped
      have same : lru = m.lru := by
        rw [LruPolicy.evict, if_pos empty] at result
        exact (congrArg Prod.fst result).symm
      refine ⟨m, [.measured (used n), .evicted none], .last_pass (.inr empty) (.inr rfl), ?_⟩
      intro fuel enough
      obtain ⟨rest, rfl⟩ := left fuel enough
      rw [evictLoopLog, if_pos above, result, same]
    | some key =>
      have start : Popping cfg [] m m := ⟨.refl m, rfl, rfl, resolved⟩
      obtain ⟨worst, mid, evicted, popping⟩ := start.pass linked result
      have kept : mid.lru = lru := evictKey_lru evicted
      have remains : mid.lru.Linked := by
        rw [kept]
        simpa only [result] using linked.evict
      have shorter := (evict_pops linked result).2.2.2
      obtain ⟨m', log, account, runs⟩ := ih mid.lru.nodes.length (by rw [kept]; omega) (n + 1)
        remains popping.resolved rfl
      refine ⟨m', _, account.pass (used n) linked result evicted, ?_⟩
      intro fuel enough
      obtain ⟨rest, rfl⟩ := left fuel enough
      rw [evictLoopLog, if_pos above, result]
      simp only [evicted, Option.bind_some]
      rw [runs rest (by rw [kept]; omega), Option.map_some]
  · refine ⟨m, [.measured (used n)], .last_pass (.inl (not_lt.mp above)) (.inl rfl), ?_⟩
    intro fuel enough
    obtain ⟨rest, rfl⟩ := left fuel enough
    rw [evictLoopLog, if_neg above]

/-- The loop of `evict_until_gb` ends whatever is measured, after at most one call of `evict` more
than there are keys. It pops each key at most once, deletes the object of each entry that it
marks once and no other, and ends with a usage within the target or without keys. -/
theorem eviction_accounts (cfg : Config) (m : CacheManager) (linked : m.lru.Linked)
    (resolved : m.Resolved) (used : ℕ → ℚ) (freeGb : ℚ) :
    ∃ m' log, m.evictUntilGb cfg used freeGb = some m' ∧
      (∀ fuel, m.lru.order.length < fuel →
        m.evictLoopLog cfg used freeGb fuel 0 = some (m', log)) ∧
      Account freeGb m m' log := by
  obtain ⟨m', log, account, runs⟩ :=
    evictLoopLog_accounts cfg used freeGb _ 0 linked resolved m.lru.length_nodes
  refine ⟨m', log, ?_, runs, account⟩
  exact evictLoop_of_log (runs (m.lru.order.length + 1) (Nat.lt_succ_self _))

/-- A manager that has stored one block and touched it, and one that was evicted before. -/
def oneLive : CacheManager :=
  let f : CacheEntry := { path := ['/', 'f'], hashHex := Config.sample.hashHex ['/', 'f'] }
  let g : CacheEntry :=
    { path := ['/', 'g'], hashHex := Config.sample.hashHex ['/', 'g'], evicted := true }
  let touched := ((new fun _ => none).touch (.entry f.path) 0 .one).touch (.entry g.path) 0 .one
  { touched with entries := (AList.insert f.path f ∅).insert g.path g }

/-- Deleting does not lower the usage. -/
theorem eviction_accounts_full :
    ∃ m' log, oneLive.evictUntilGb .sample (fun _ => 1) 0 = some m' ∧
      (∀ fuel, oneLive.lru.order.length < fuel →
        oneLive.evictLoopLog .sample (fun _ => 1) 0 fuel 0 = some (m', log)) ∧
      Account 0 oneLive m' log := by
  apply eviction_accounts .sample oneLive
  · exact ((LruPolicy.linked_new _).touch _ _ _).touch _ _ _
  · have nodes : oneLive.lru.nodes = [⟨⟨.entry ['/', 'g'], 0⟩, kBlockSize, .one⟩,
        ⟨⟨.entry ['/', 'f'], 0⟩, kBlockSize, .one⟩] := by
      decide +kernel
    intro n member
    rw [nodes, List.mem_pair] at member
    rcases member with rfl | rfl
    · exact ⟨['/', 'g'], rfl, rfl⟩
    · exact ⟨['/', 'f'], rfl, rfl⟩

end CacheManager

end RemoteCache
