import RemoteCache.Cache.System

/-!
# What a call leaves alone

A read stores blocks of its own object and touches no other file. A write stores
blocks of its own object, marks them as dirty and writes its own copy. Neither
of them, and no prefetch job, evicts an entry.
-/
namespace RemoteCache

namespace CacheManager

variable (cfg : Config)

/-- The path has an entry that has been evicted. -/
def gone (m : CacheManager) (path : Str) : Bool := (m.entries.lookup path).any (·.evicted)

/-- A call that evicts nothing and changes only files that are its own. -/
structure Leaves (own : Path → Prop) (m m' : CacheManager) : Prop where
  gone : ∀ q, m'.gone q = m.gone q
  files : ∀ at_, ¬own at_ → m'.files at_ = m.files at_

/-- The data parts of an object. -/
def PartOf (d : Digest) (at_ : Path) : Prop := ∃ k, at_ = cfg.dataPart d k

variable {cfg} {m m' m'' : CacheManager} {own : Path → Prop}

theorem gone_eq_true {path : Str} :
    m.gone path = true ↔ ∃ ce, m.entries.lookup path = some ce ∧ ce.evicted = true := by
  simp [gone, Option.any_eq_true]

theorem gone_congr (entries : m'.entries = m.entries) (q : Str) : m'.gone q = m.gone q := by
  rw [gone, gone, entries]

variable (cfg) in
theorem entry_evicted (m : CacheManager) (path : Str) :
    (m.entry cfg path).2.evicted = m.gone path := by
  rw [entry_snd, gone]
  cases m.entries.lookup path <;> rfl

theorem Leaves.of_same (entries : m'.entries = m.entries) (files : m'.files = m.files) :
    Leaves own m m' :=
  ⟨gone_congr entries, fun _ _ => by rw [files]⟩

theorem Leaves.refl (m : CacheManager) : Leaves own m m := .of_same rfl rfl

theorem Leaves.trans (first : Leaves own m m') (second : Leaves own m' m'') : Leaves own m m'' :=
  ⟨fun q => (second.gone q).trans (first.gone q),
    fun at_ other => (second.files at_ other).trans (first.files at_ other)⟩

theorem leaves_entry (m : CacheManager) (path : Str) : Leaves own m (m.entry cfg path).1 := by
  refine ⟨fun q => ?_, fun _ _ => by rw [entry_files]⟩
  -- A fresh entry is not evicted, and an absent one counts as not gone.
  by_cases same : q = path
  · rw [same, ← entry_evicted cfg m path, gone, entry_lookup]
    rfl
  · rw [gone, entry_lookup_other cfg m same, gone]

theorem store_other (d : Digest) (blk : ℕ) (data : Bytes) {at_ : Path} (other : ¬PartOf cfg d at_) :
    (m.store cfg d blk data).files at_ = m.files at_ :=
  Files.pwrite_other m.files data _ .done fun same => other ⟨_, same⟩

theorem leaves_ready {env : Env} {path : Str} {p : Piece} {s : ReadState} {block : Bytes}
    {mgr : CacheManager} (ready : Ready cfg env path p s block mgr) :
    Leaves (PartOf cfg s.ce.hashHex) s.mgr mgr := by
  cases ready with
  | hit => exact .refl _
  | fill miss got fetched => exact ⟨gone_congr rfl, fun _ other => store_other _ _ _ other⟩

/-- The end of a pass puts back an entry that has not been evicted. -/
theorem leaves_finish (path : Str) (p : Piece) (block : Bytes) (s : ReadState)
    (live : s.ce.evicted = false) (there : s.mgr.gone path = false) :
    Leaves own s.mgr (finish path p block s).mgr := by
  refine ⟨fun q => ?_, fun _ _ => by rw [finish_files]⟩
  by_cases same : q = path
  · rw [same, there, gone, finish_entries, AList.lookup_insert]
    exact live
  · rw [gone, finish_entries, AList.lookup_insert_ne same, gone]

theorem read_leaves (m : CacheManager) (env : Env) (path : Str) (len off : ℕ) :
    Leaves (PartOf cfg (m.entry cfg path).2.hashHex) m (m.read cfg env path len off).1 := by
  have entered : Leaves (PartOf cfg (m.entry cfg path).2.hashHex) m (m.entry cfg path).1 :=
    leaves_entry m path
  by_cases refused : (m.entry cfg path).2.evicted = true
  · rw [read_evicted cfg refused]
    exact entered
  · have live : (m.entry cfg path).2.evicted = false := by simpa using refused
    refine read_rule cfg
      (fun s => Leaves (PartOf cfg (m.entry cfg path).2.hashHex) m s.mgr ∧
        s.ce.hashHex = (m.entry cfg path).2.hashHex ∧ s.ce.evicted = false)
      (fun m' _ => Leaves (PartOf cfg (m.entry cfg path).2.hashHex) m m') live
      ⟨entered, rfl, live⟩ ?_ ?_ ?_
    -- The pass puts its own copy of the entry back, with the flag as it was.
    · rintro s p block mgr ⟨leaves, hash, live'⟩ _ _ ready
      have stored := leaves.trans (hash ▸ leaves_ready ready)
      refine ⟨stored.trans (leaves_finish path p block { s with mgr } live' ?_), hash, live'⟩
      rw [stored.gone, ← entry_evicted cfg, live]
    · exact fun s p inv _ _ _ _ => inv.1
    · exact fun s inv _ => inv.1

theorem passed_leaves (m : CacheManager) (path : Str) (d : Digest) (p : Piece) (chunk : Bytes)
    (answer : Answer × Answer) :
    Leaves (fun at_ => PartOf cfg d at_ ∨ at_ = cfg.copy path) m
      (m.passed cfg path d p chunk answer) := by
  refine ⟨gone_congr rfl, fun at_ other => ?_⟩
  rw [not_or] at other
  exact (Files.pwrite_other _ _ _ _ other.2).trans
    (Files.pwrite_other _ _ _ _ fun same => other.1 ⟨_, same⟩)

variable (cfg) in
theorem write_leaves_any (answers : ℕ → Answer × Answer) (m : CacheManager) (path : Str)
    (data : Bytes) (off : ℕ) :
    Leaves (fun at_ => PartOf cfg (m.entry cfg path).2.hashHex at_ ∨ at_ = cfg.copy path) m
      (m.write cfg answers path data off).1 := by
  by_cases refused : (m.entry cfg path).2.evicted = true
  · rw [write_evicted cfg refused]
    exact leaves_entry m path
  · exact (write_rule_any cfg (fun s => Leaves _ m s.mgr) answers (by simpa using refused)
      (leaves_entry m path) fun s p leaves _ _ => leaves.trans (passed_leaves _ _ _ _ _ _)).1

variable (cfg) in
theorem write_leaves (m : CacheManager) (path : Str) (data : Bytes) (off : ℕ) :
    Leaves (fun at_ => PartOf cfg (m.entry cfg path).2.hashHex at_ ∨ at_ = cfg.copy path) m
      (m.write cfg succeed path data off).1 :=
  write_leaves_any cfg succeed m path data off

variable (cfg) in
/-- A write removes no file. -/
theorem write_keeps (answers : ℕ → Answer × Answer) (m : CacheManager) (path : Str) (data : Bytes)
    (off : ℕ) {at_ : Path} (there : (m.files at_).isSome) :
    ((m.write cfg answers path data off).1.files at_).isSome := by
  by_cases refused : (m.entry cfg path).2.evicted = true
  · rw [write_evicted cfg refused, entry_files]
    exact there
  · refine (write_rule_any cfg (fun s => (s.mgr.files at_).isSome) answers (by simpa using refused)
      (by rwa [entry_files]) fun s p stays _ _ => ?_).1
    exact Files.isSome_pwrite _ _ _ _ _ _ (Files.isSome_pwrite _ _ _ _ _ _ stays)

/-- A write that is not refused leaves a copy, unless there is nothing to write. -/
theorem write_copied (m : CacheManager) (path : Str) (data : Bytes) (off : ℕ)
    (live : m.gone path = false) (some : 0 < data.size) :
    (m.write cfg succeed path data off).1.files (cfg.copy path) ≠ none :=
  (write_rule cfg (fun s => 0 < s.done → s.mgr.files (cfg.copy path) ≠ none)
    ((entry_evicted cfg m path).trans live) (fun absurd => (Nat.lt_irrefl 0 absurd).elim)
    fun _ _ _ _ _ _ => by simp [wrote]).1 some

/-- A write to a path whose entry has been evicted is refused, and only such a write. -/
theorem write_refused (m : CacheManager) (path : Str) (data : Bytes) (off : ℕ) :
    (m.write cfg succeed path data off).2 =
      if m.gone path then -(ENOENT : ℤ) else (data.size : ℤ) := by
  rw [← entry_evicted cfg]
  by_cases refused : (m.entry cfg path).2.evicted = true
  · rw [write_evicted cfg refused, if_pos refused]
  -- Nothing is carried from pass to pass: the count is what the rule ends with.
  · rw [if_neg refused]
    exact (write_rule cfg (fun _ => True) (by simpa using refused) trivial
      fun _ _ _ _ _ => trivial).2

theorem prefetch_leaves (m : CacheManager) (backend : Backend) (i : ℕ) (job : Job) :
    Leaves (PartOf cfg job.ce.hashHex) m (m.prefetch cfg backend i job).1 := by
  refine runJob_rule cfg (fun _ s => Leaves (PartOf cfg job.ce.hashHex) m s.1) backend job
    (.of_same rfl rfl) fun i s _ leaves => ?_
  -- A pass stores into the parts of its own object or does nothing.
  rcases prefetchPass_cases cfg backend job s i with ⟨_, eq⟩ | ⟨got, _, _, eq⟩
  · rw [eq]
    exact leaves
  · rw [eq]
    exact leaves.trans ⟨gone_congr rfl, fun _ other => store_other _ _ _ other⟩

/-! ### Dirty bits -/

theorem read_bitmap (m : CacheManager) (env : Env) (path : Str) (len off : ℕ) :
    (m.read cfg env path len off).1.bitmap = m.bitmap := by
  by_cases refused : (m.entry cfg path).2.evicted = true
  · rw [read_evicted cfg refused, entry_bitmap]
  · refine read_rule cfg (fun s => s.mgr.bitmap = m.bitmap) (fun m' _ => m'.bitmap = m.bitmap)
      (by simpa using refused) (entry_bitmap cfg m path) ?_ ?_ ?_
    · rintro s p block mgr same _ _ ready
      rw [finish_bitmap]
      cases ready <;> exact same
    · exact fun s p same _ _ _ _ => same
    · exact fun s same _ => same

variable (cfg) in
theorem prefetch_same (m : CacheManager) (backend : Backend) (i : ℕ) (job : Job) :
    (m.prefetch cfg backend i job).1.bitmap = m.bitmap ∧
      (m.prefetch cfg backend i job).1.entries = m.entries := by
  refine runJob_rule cfg (fun _ s => s.1.bitmap = m.bitmap ∧ s.1.entries = m.entries) backend job
    ⟨rfl, rfl⟩ fun i s _ same => ?_
  rcases prefetchPass_cases cfg backend job s i with ⟨_, eq⟩ | ⟨got, _, _, eq⟩
  · rw [eq]
    exact same
  · rw [eq]
    exact same

end CacheManager

end RemoteCache
