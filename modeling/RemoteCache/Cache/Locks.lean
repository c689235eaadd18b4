import RemoteCache.Cache.PoolSafety
import RemoteCache.Cache.Manager
import RemoteCache.Lib.Potential

/-!
# The locks of the process

Calls of the manager hold its mutex `mu_` to their end. Within it a read locks
the backend's mutex `g_mtx` for a download, and the pool's mutex when it
schedules a prefetch job. The workers lock the pool's mutex to take a job, and
the job locks `g_mtx` for its downloads. What the calls and the jobs do besides
is left open: where the source branches, both branches are steps.

## Main result

`calls_return`: the steps of a run are bounded by the calls that are made, their
passes and the wake-ups for no reason; and where no step is left but such new
ones, all calls have returned, all mutexes are free and every job has run.

## Proof strategy

`mu_` is taken before the other two, and who holds one of these goes on without
waiting for any other mutex. So a holder of the pool's mutex, then one of
`g_mtx`, then one of `mu_` can always take a step. Each step brings a party
nearer to its end, and what a call may still put in the queue is paid for when
it is made.
-/
namespace RemoteCache

/-- Where a call of `read`, `write`, `flush_all`, `has_valid_entry` or `get_entry` stands, with the
passes of its loop that are left. Only `read` downloads and schedules, and only `read` and `write`
have passes. -/
inductive ManagerPhase where
  | lock (left : ℕ)
  | loop (left : ℕ)
  | fetch (left : ℕ)
  | download (left : ℕ)
  | stored (left : ℕ)
  | enqueue (left call : ℕ)
  | unlock
  | returned
  deriving DecidableEq

/-- Where a prefetch job stands in its pass `i`. -/
inductive PrefetchPhase where
  | probe (i : ℕ)
  | fetch (i : ℕ)
  | download (i : ℕ)
  deriving DecidableEq

/-- A step of a call that has to do with no mutex. -/
inductive ManagerPhase.Moves : ManagerPhase → ManagerPhase → Prop where
  -- The entry is evicted, or the loop is over.
  | leave (left : ℕ) : Moves (.loop left) .unlock
  -- The block is in the store, or the pass writes it.
  | hit (left : ℕ) : Moves (.loop (left + 1)) (.stored left)
  | miss (left : ℕ) : Moves (.loop (left + 1)) (.fetch left)
  | next (left : ℕ) : Moves (.stored left) (.loop left)

inductive PrefetchPhase.Moves : PrefetchPhase → PrefetchPhase → Prop where
  | hit (i : ℕ) (more : i < PREFETCH_WINDOW) : Moves (.probe i) (.probe (i + 1))
  | miss (i : ℕ) (more : i < PREFETCH_WINDOW) : Moves (.probe i) (.fetch i)

/-- The mutexes, the calls so far and the jobs of the workers. -/
structure Process (n : ℕ) where
  pool : ThreadPool n
  mu : Option ℕ
  gMtx : Option (ℕ ⊕ Fin n)
  calls : List ManagerPhase
  jobs : Fin n → PrefetchPhase

/-- What a step is paid for: a new call, or a worker that wakes up for no reason. -/
inductive Urge where
  | call (left : ℕ)
  | wake
  | none
  deriving DecidableEq

namespace ThreadPool

variable {n : ℕ}

/-- A step between two states is one of the workers or of calls of `enqueue` that are under way: it
starts or ends no job, makes no call and wakes up nobody for no reason. -/
structure Internal (s s' : ThreadPool n) : Prop where
  destructor : s'.destructor = s.destructor
  callers : s'.callers.length = s.callers.length
  running : ∀ w job call, s'.workers w = .running job call ↔ s.workers w = .running job call
  asleep : s'.callers = s.callers → ∀ w, s.workers w = .waiting → s'.workers w = .waiting

end ThreadPool

namespace Process

/-- Before the first call. -/
def new (numThreads : ℕ) : Process (ThreadPool.workerCount numThreads) :=
  ⟨.new numThreads, none, none, [], fun _ => .probe PREFETCH_WINDOW⟩

variable {n : ℕ}

/-- The call moves on to a phase. -/
def setCall (s : Process n) (c : ℕ) (phase : ManagerPhase) : Process n :=
  { s with calls := s.calls.set c phase }

/-- The job of a worker moves on to a phase. -/
def setJob (s : Process n) (w : Fin n) (phase : PrefetchPhase) : Process n :=
  { s with jobs := Function.update s.jobs w phase }

inductive Step : Process n → Urge → Note → Process n → Prop where
  -- The pool, and its jobs
  | pool (s : Process n) (note : Note) (pool : ThreadPool n)
      (step : ThreadPool.Step s.pool note pool) (own : s.pool.Internal pool) :
      Step s .none note { s with pool }
  | wake (s : Process n) (w : Fin n) (waits : s.pool.workers w = .waiting) :
      Step s .wake .silent { s with pool := s.pool.goto w .woken }
  | start (s : Process n) (w : Fin n) (job : ℕ) (here : s.pool.workers w = .ready job) :
      Step s .none (.started job)
        { s.setJob w (.probe 0) with pool := s.pool.goto w (.running job .returned) }
  | job (s : Process n) (w : Fin n) (job : ℕ) (runs : s.pool.workers w = .running job .returned)
      (phase : PrefetchPhase) (moves : (s.jobs w).Moves phase) :
      Step s .none .silent (s.setJob w phase)
  | jobLock (s : Process n) (w : Fin n) (job i : ℕ)
      (runs : s.pool.workers w = .running job .returned) (here : s.jobs w = .fetch i)
      (free : s.gMtx = none) :
      Step s .none .silent { s.setJob w (.download i) with gMtx := some (.inr w) }
  -- The mutex is given up with the download; storing the block ends the pass.
  | jobUnlock (s : Process n) (w : Fin n) (job i : ℕ)
      (runs : s.pool.workers w = .running job .returned) (here : s.jobs w = .download i) :
      Step s .none .silent { s.setJob w (.probe (i + 1)) with gMtx := none }
  | finish (s : Process n) (w : Fin n) (job : ℕ)
      (runs : s.pool.workers w = .running job .returned)
      (done : s.jobs w = .probe PREFETCH_WINDOW) :
      Step s .none (.finished job) { s with pool := s.pool.goto w .lock }
  -- Calls of the manager
  | call (s : Process n) (left : ℕ) :
      Step s (.call left) .silent { s with calls := s.calls ++ [.lock left] }
  | lock (s : Process n) (c left : ℕ) (here : s.calls[c]? = some (.lock left))
      (free : s.mu = none) : Step s .none .silent { s.setCall c (.loop left) with mu := some c }
  | move (s : Process n) (c : ℕ) (before after : ManagerPhase) (here : s.calls[c]? = some before)
      (moves : before.Moves after) : Step s .none .silent (s.setCall c after)
  | fetchLock (s : Process n) (c left : ℕ) (here : s.calls[c]? = some (.fetch left))
      (free : s.gMtx = none) :
      Step s .none .silent { s.setCall c (.download left) with gMtx := some (.inl c) }
  -- Without a block from anywhere the read returns.
  | fetchUnlock (s : Process n) (c left : ℕ) (here : s.calls[c]? = some (.download left))
      (after : ManagerPhase) (fetched : after = .stored left ∨ after = .unlock) :
      Step s .none .silent { s.setCall c after with gMtx := none }
  | schedule (s : Process n) (c left : ℕ) (here : s.calls[c]? = some (.stored left)) :
      Step s .none .silent
        { s.setCall c (.enqueue left s.pool.callers.length) with
          pool := { s.pool with callers := s.pool.callers ++ [.lock] } }
  | scheduled (s : Process n) (c left call : ℕ) (here : s.calls[c]? = some (.enqueue left call))
      (back : s.pool.callers[call]? = some .returned) :
      Step s .none .silent (s.setCall c (.loop left))
  | unlock (s : Process n) (c : ℕ) (here : s.calls[c]? = some .unlock) :
      Step s .none .silent { s.setCall c .returned with mu := none }

def Steps (s : Process n) (urge : Urge) (note : Note) (s' : Process n) : Prop := Step s urge note s'

end Process

/-! ### How far a party is from its end -/

/-- The most steps that a prefetch job takes. -/
def jobSteps : ℕ := 3 * PREFETCH_WINDOW

def PrefetchPhase.cost : PrefetchPhase → ℕ
  | .probe i => 3 * (PREFETCH_WINDOW - i)
  | .fetch i => 3 * (PREFETCH_WINDOW - (i + 1)) + 2
  | .download i => 3 * (PREFETCH_WINDOW - (i + 1)) + 1

/-- How far a worker is from waiting. -/
def WorkerPhase.toWait : WorkerPhase → ℕ
  | .exited => 0
  | .waiting => 0
  | .block => 1
  | .front => 2
  | .predicate => 3
  | .lock => 4
  | .woken => 4
  | .running _ _ => 5
  | .ready _ => 6 + jobSteps
  | .took _ => 7 + jobSteps

/-- How far a call of `enqueue` is from its end, with the job that it puts in the queue and the
worker that it wakes. -/
def CallPhase.toReturn : CallPhase → ℕ
  | .returned => 0
  | .notify => 5
  | .unlock => 6
  | .emplace => 13 + jobSteps
  | .lock => 14 + jobSteps

/-- What a pass of a read may take, up to the job that it puts in the queue. -/
def passSteps : ℕ := 19 + jobSteps

def ManagerPhase.cost : ManagerPhase → ℕ
  | .returned => 0
  | .unlock => 1
  | .loop left => 2 + passSteps * left
  | .lock left => 3 + passSteps * left
  | .enqueue left _ => 3 + passSteps * left
  | .stored left => 18 + jobSteps + passSteps * left
  | .download left => 19 + jobSteps + passSteps * left
  | .fetch left => 20 + jobSteps + passSteps * left

/-- What a step is paid for. -/
def Urge.cost : Urge → ℕ
  | .call left => 4 + passSteps * left
  | .wake => 5
  | .none => 0

theorem ManagerPhase.Moves.uses {before after : ManagerPhase} (moves : before.Moves after) :
    after.cost + 1 ≤ before.cost := by
  cases moves <;> simp only [ManagerPhase.cost, passSteps, Nat.mul_succ] <;> omega

theorem PrefetchPhase.Moves.uses {before after : PrefetchPhase} (moves : before.Moves after) :
    after.cost + 1 ≤ before.cost := by
  cases moves <;> simp only [PrefetchPhase.cost] <;> omega

namespace ThreadPool

variable {n : ℕ}

/-- The work that the pool has left. -/
def load (s : ThreadPool n) : ℕ :=
  (6 + jobSteps) * s.tasks.length + (∑ w, (s.workers w).toWait) +
    (s.callers.map CallPhase.toReturn).sum

theorem load_goto {s : ThreadPool n} {w : Fin n} {before : WorkerPhase}
    (here : s.workers w = before) (phase : WorkerPhase) :
    (s.goto w phase).load + before.toWait = s.load + phase.toWait := by
  have sum := Potential.sum_update WorkerPhase.toWait s.workers w phase
  rw [here] at sum
  simp only [load, goto]
  omega

theorem load_callers (s : ThreadPool n) {c : ℕ} {call : CallPhase}
    (here : s.callers[c]? = some call) (next : CallPhase) :
    ({ s with callers := s.callers.set c next } : ThreadPool n).load + call.toReturn =
      s.load + next.toReturn := by
  have sum := Potential.sum_set CallPhase.toReturn here next
  simp only [load]
  omega

/-- Only a call from outside can move on if no job does. -/
theorem Internal.caller {s s' : ThreadPool n} (own : s.Internal s') {me : Party n}
    {call : CallPhase} (here : s.inCall me = some call) (next : CallPhase) (onward : next ≠ call)
    (workers : ∀ w job, (s.setCall me next).workers w = .running job next →
      s'.workers w = .running job next) :
    ∃ c, me = .caller c ∧ s.callers[c]? = some call ∧
      s.setCall me next = { s with callers := s.callers.set c next } := by
  rcases call_cases here next with ⟨w, job, rfl, runs, eq⟩ | outside
  · have after := workers w job (by rw [eq]; simp [goto])
    have before := (own.running w job next).mp after
    rw [runs] at before
    cases before
    exact absurd rfl onward
  · exact outside

/-- Every step of the pool that is paid for by nobody uses up work. -/
theorem Internal.load {s s' : ThreadPool n} {note : Note} (own : s.Internal s') (safe : Safe s)
    (alive : s.destructor = .alive) (step : Step s note s') : s'.load + 1 ≤ s.load := by
  have uses : ∀ {w : Fin n} {before : WorkerPhase} (phase : WorkerPhase), s.workers w = before →
      phase.toWait + 1 ≤ before.toWait → (s.goto w phase).load + 1 ≤ s.load := by
    intro w before phase here less
    have sum := load_goto here phase
    omega
  cases step with
  | lock w top free =>
    rcases top with top | top
    · exact uses .predicate top (Nat.le_refl _)
    · exact uses .predicate top (Nat.le_refl _)
  | pass w here => exact uses .front here (Nat.le_refl _)
  | fail w here => exact uses .block here (by decide)
  | block w here => exact uses .waiting here (Nat.le_refl _)
  | unlock w job here => exact uses (.ready job) here (Nat.le_refl _)
  | pop w here job rest first =>
    have sum : _ + 2 = _ + (7 + jobSteps) := load_goto here (.took job)
    simp only [ThreadPool.load, goto, first, List.length_cons, Nat.mul_succ] at sum ⊢
    omega
  | spurious w here =>
    have asleep := own.asleep rfl w here
    simp [goto] at asleep
  | leave w here done => exact absurd alive (safe.started done.1)
  | start w job here =>
    have before := (own.running w job .returned).mp (by simp [goto])
    rw [here] at before
    cases before
  | finish w job here =>
    have after := (own.running w job .returned).mpr here
    simp [goto] at after
  | submit w job here =>
    have after := (own.running w job .returned).mpr here
    simp [goto] at after
  | call early =>
    have length := own.callers
    simp at length
  | callLock me here free =>
    obtain ⟨c, rfl, found, eq⟩ := own.caller here .emplace (by simp) fun w job runs => runs
    have sum := load_callers s found .emplace
    rw [eq]
    simp only [ThreadPool.load, CallPhase.toReturn] at sum ⊢
    omega
  | emplace me here =>
    obtain ⟨c, rfl, found, eq⟩ := own.caller here .unlock (by simp) fun w job runs => runs
    have sum := load_callers s found .unlock
    rw [eq]
    simp only [ThreadPool.load, CallPhase.toReturn, List.length_append, List.length_singleton,
      Nat.mul_succ] at sum ⊢
    omega
  | callUnlock me here =>
    obtain ⟨c, rfl, found, eq⟩ := own.caller here .notify (by simp) fun w job runs => runs
    have sum := load_callers s found .notify
    rw [eq]
    simp only [ThreadPool.load, CallPhase.toReturn] at sum ⊢
    omega
  | notifyOne me here w waits =>
    obtain ⟨c, rfl, found, eq⟩ := own.caller here .returned (by simp) fun w' job runs => by
      have other : w' ≠ w := by
        rintro rfl
        simp [setCall, waits] at runs
      simpa [goto, other] using runs
    have sum : _ + 5 = _ + 0 := load_callers s found .returned
    have woken : _ + 0 = _ + 4 :=
      load_goto (s := { s with callers := s.callers.set c .returned }) waits .woken
    rw [eq]
    omega
  | notifyNone me here none =>
    obtain ⟨c, rfl, found, eq⟩ := own.caller here .returned (by simp) fun w job runs => runs
    have sum : _ + 5 = _ + 0 := load_callers s found .returned
    rw [eq]
    omega
  | destroy here => simpa [here] using own.destructor
  | destroyLock here => simpa [here] using own.destructor
  | destroyStop here => simpa [here] using own.destructor
  | destroyUnlock here => simpa [here] using own.destructor
  | notifyAll here => simpa [here] using own.destructor
  | join i here => simp [here] at alive

/-- A worker with no job moves on. -/
theorem internal_goto {s s' : ThreadPool n} {w : Fin n} {before after : WorkerPhase}
    (here : s.workers w = before) (workers : s'.workers = Function.update s.workers w after)
    (callers : s'.callers = s.callers) (destructor : s'.destructor = s.destructor)
    (idle : ∀ job call, before ≠ .running job call ∧ after ≠ .running job call)
    (up : before ≠ .waiting) : s.Internal s' := by
  refine ⟨destructor, by rw [callers], fun w' job call => ?_, fun _ w' waits => ?_⟩
  · rw [workers]
    by_cases own : w' = w
    · subst own
      rw [Function.update_self, here]
      exact iff_of_false (idle job call).2 (idle job call).1
    · rw [Function.update_of_ne own]
  · have other : w' ≠ w := by
      rintro rfl
      exact up (here.symm.trans waits)
    rw [workers, Function.update_of_ne other, waits]

/-- A call of `enqueue` from outside moves on. -/
theorem internal_call {s s' : ThreadPool n} {c : ℕ} {next : CallPhase}
    (workers : s'.workers = s.workers) (callers : s'.callers = s.callers.set c next)
    (destructor : s'.destructor = s.destructor) : s.Internal s' :=
  ⟨destructor, by rw [callers, List.length_set], fun w job call => by rw [workers],
    fun _ w waits => by rw [workers, waits]⟩

/-- A notification comes with the end of a call. -/
theorem internal_notify {s : ThreadPool n} {c : ℕ} (found : s.callers[c]? = some .notify)
    {w : Fin n} (waits : s.workers w = .waiting) :
    s.Internal
      (({ s with callers := s.callers.set c .returned } : ThreadPool n).goto w .woken) := by
  refine ⟨rfl, List.length_set, fun w' job call => ?_, fun same => ?_⟩
  · by_cases own : w' = w
    · subst own
      simp [goto, waits]
    · simp [goto, own]
  · have last : (s.callers.set c .returned)[c]? = some .notify := by
      rw [← found]
      exact congrArg (·[c]?) same
    rw [List.getElem?_set_self (List.getElem?_eq_some_iff.mp found).1] at last
    cases last

end ThreadPool

/-! ### What every reachable state is like -/

/-- The call holds `mu_`. -/
def ManagerPhase.inside : ManagerPhase → Bool
  | .lock _ => false
  | .returned => false
  | _ => true

def ManagerPhase.downloads : ManagerPhase → Bool
  | .download _ => true
  | _ => false

def PrefetchPhase.downloads : PrefetchPhase → Bool
  | .download _ => true
  | _ => false

/-- A pass that has begun is one of the window. -/
def PrefetchPhase.Within : PrefetchPhase → Prop
  | .probe i => i ≤ PREFETCH_WINDOW
  | .fetch i => i < PREFETCH_WINDOW
  | .download i => i < PREFETCH_WINDOW

theorem ManagerPhase.Moves.same {before after : ManagerPhase} (moves : before.Moves after) :
    before.inside = true ∧ after.inside = true ∧ before.downloads = false ∧
      after.downloads = false := by
  cases moves <;> exact ⟨rfl, rfl, rfl, rfl⟩

theorem PrefetchPhase.Moves.same {before after : PrefetchPhase} (moves : before.Moves after) :
    before.downloads = false ∧ after.downloads = false ∧ after.Within := by
  cases moves with
  | hit i more => exact ⟨rfl, rfl, more⟩
  | miss i more => exact ⟨rfl, rfl, more⟩

namespace Process

variable {n : ℕ}

/-- Whether a call or the job of a worker holds `g_mtx`. -/
def downloads (s : Process n) : ℕ ⊕ Fin n → Bool
  | .inl c => (s.calls[c]?).any ManagerPhase.downloads
  | .inr w => (s.jobs w).downloads

structure Regular (s : Process n) : Prop where
  alive : s.pool.destructor = .alive
  safe : s.pool.Safe
  inside : Exclusive s.mu fun c => (s.calls[c]?).any ManagerPhase.inside = true
  fetching : Exclusive s.gMtx fun p => s.downloads p = true
  -- No job of the process calls `enqueue`.
  plain : ∀ w job call, s.pool.workers w = .running job call → call = .returned
  busy : ∀ w, s.jobs w = .probe PREFETCH_WINDOW ∨ ∃ job, s.pool.workers w = .running job .returned
  passes : ∀ w, (s.jobs w).Within
  scheduled : ∀ c left call : ℕ, s.calls[c]? = some (.enqueue left call) →
    call < s.pool.callers.length

/-- A worker that runs no job is through with the one before. -/
theorem Regular.through {s : Process n} (regular : Regular s) {w : Fin n}
    (idle : ∀ job, s.pool.workers w ≠ .running job .returned) :
    s.jobs w = .probe PREFETCH_WINDOW :=
  (regular.busy w).resolve_right fun ⟨job, runs⟩ => idle job runs

theorem regular_new (numThreads : ℕ) : Regular (new numThreads) := by
  refine ⟨rfl, .new numThreads, fun c => by simp [new], fun p => ?_, by simp [new, ThreadPool.new],
    fun w => .inl rfl, fun w => Nat.le_refl _, by simp [new]⟩
  cases p <;> simp [new, downloads, PrefetchPhase.downloads]

/-- What a step of the process is to the pool. -/
theorem step_pool {s s' : Process n} {urge : Urge} {note : Note}
    (alive : s.pool.destructor = .alive) (step : Step s urge note s') :
    ThreadPool.Step s.pool note s'.pool ∨ (s'.pool = s.pool ∧ note = .silent) := by
  cases step with
  | pool note pool step own => exact .inl step
  | wake w waits => exact .inl (.spurious _ w waits)
  | start w job here => exact .inl (.start _ w job here)
  | finish w job runs => exact .inl (.finish _ w job runs)
  | schedule c left here => exact .inl (.call _ alive)
  | job | jobLock | jobUnlock | call | lock | move | fetchLock | fetchUnlock | scheduled | unlock =>
    exact .inr ⟨rfl, rfl⟩

/-- A call moves on, and with it `mu_`. -/
theorem turn_call {s : Process n} {mu : Option ℕ} {c : ℕ} {before after : ManagerPhase}
    (inside : Exclusive s.mu fun c => (s.calls[c]?).any ManagerPhase.inside = true)
    (here : s.calls[c]? = some before)
    (mutex : (s.mu = none ∧ mu = some c ∧ after.inside = true) ∨
      (before.inside = true ∧ mu = none ∧ after.inside = false) ∨
      (mu = s.mu ∧ after.inside = before.inside)) :
    Exclusive mu fun c' => ((s.calls.set c after)[c']?).any ManagerPhase.inside = true := by
  obtain ⟨old, new, others⟩ := any_set here after ManagerPhase.inside
  refine inside.turn c (fun p other => by rw [others p other]) ?_
  rw [old, new]
  simpa using mutex

/-- A call moves on, and with it `g_mtx`. -/
theorem fetch_call {s s' : Process n} (fetching : Exclusive s.gMtx fun p => s.downloads p = true)
    {c : ℕ} {before after : ManagerPhase} (here : s.calls[c]? = some before)
    (calls : s'.calls = s.calls.set c after) (jobs : s'.jobs = s.jobs)
    (mutex : (s.gMtx = none ∧ s'.gMtx = some (.inl c) ∧ after.downloads = true) ∨
      (before.downloads = true ∧ s'.gMtx = none ∧ after.downloads = false) ∨
      (s'.gMtx = s.gMtx ∧ after.downloads = before.downloads)) :
    Exclusive s'.gMtx fun p => s'.downloads p = true := by
  obtain ⟨old, new, others⟩ := any_set here after ManagerPhase.downloads
  refine fetching.turn (.inl c) (fun p other => ?_) ?_
  · cases p with
    | inl c' =>
      have apart : c' ≠ c := fun same => other (by rw [same])
      rw [downloads, downloads, calls, others c' apart]
    | inr w => rw [downloads, downloads, jobs]
  · simp only [downloads, calls, old, new]
    simpa using mutex

/-- The job of a worker moves on, and with it `g_mtx`. -/
theorem fetch_job {s s' : Process n} (fetching : Exclusive s.gMtx fun p => s.downloads p = true)
    {w : Fin n} {after : PrefetchPhase} (calls : s'.calls = s.calls)
    (jobs : s'.jobs = Function.update s.jobs w after)
    (mutex : (s.gMtx = none ∧ s'.gMtx = some (.inr w) ∧ after.downloads = true) ∨
      ((s.jobs w).downloads = true ∧ s'.gMtx = none ∧ after.downloads = false) ∨
      (s'.gMtx = s.gMtx ∧ after.downloads = (s.jobs w).downloads)) :
    Exclusive s'.gMtx fun p => s'.downloads p = true := by
  refine fetching.turn (.inr w) (fun p other => ?_) ?_
  · cases p with
    | inl c => rw [downloads, downloads, calls]
    | inr w' =>
      have apart : w' ≠ w := fun same => other (by rw [same])
      rw [downloads, downloads, jobs, Function.update_of_ne apart]
  · simp only [downloads, jobs, Function.update_self]
    simpa using mutex

theorem step_inside {s s' : Process n} {urge : Urge} {note : Note} (step : Step s urge note s')
    (inside : Exclusive s.mu fun c => (s.calls[c]?).any ManagerPhase.inside = true) :
    Exclusive s'.mu fun c => (s'.calls[c]?).any ManagerPhase.inside = true := by
  cases step with
  | pool | wake | start | job | jobLock | jobUnlock | finish => exact inside
  | call left =>
    refine inside.keep fun c => ?_
    by_cases old : c < s.calls.length
    · rw [List.getElem?_append_left old]
    · rw [List.getElem?_append_right (Nat.not_lt.mp old),
        List.getElem?_eq_none (Nat.not_lt.mp old)]
      cases c - s.calls.length <;> simp [ManagerPhase.inside]
  | lock c left here free => exact turn_call inside here (.inl ⟨free, rfl, rfl⟩)
  | move c before after here moves =>
    exact turn_call inside here
      (.inr (.inr ⟨rfl, moves.same.2.1.trans moves.same.1.symm⟩))
  | fetchLock c left here free => exact turn_call inside here (.inr (.inr ⟨rfl, rfl⟩))
  | fetchUnlock c left here after fetched =>
    refine turn_call inside here (.inr (.inr ⟨rfl, ?_⟩))
    rcases fetched with rfl | rfl <;> rfl
  | schedule c left here => exact turn_call inside here (.inr (.inr ⟨rfl, rfl⟩))
  | scheduled c left call here => exact turn_call inside here (.inr (.inr ⟨rfl, rfl⟩))
  | unlock c here => exact turn_call inside here (.inr (.inl ⟨rfl, rfl, rfl⟩))

theorem step_fetching {s s' : Process n} {urge : Urge} {note : Note} (regular : Regular s)
    (step : Step s urge note s') : Exclusive s'.gMtx fun p => s'.downloads p = true := by
  have fetching := regular.fetching
  cases step with
  | pool | wake | finish => exact fetching
  | start w job here =>
    have ended := regular.through (w := w) (by simp [here])
    exact fetch_job fetching rfl rfl (.inr (.inr ⟨rfl, by rw [ended]; rfl⟩))
  | job w job runs phase moves =>
    exact fetch_job fetching rfl rfl
      (.inr (.inr ⟨rfl, moves.same.2.1.trans moves.same.1.symm⟩))
  | jobLock w job i runs here free =>
    exact fetch_job fetching rfl rfl (.inl ⟨free, rfl, rfl⟩)
  | jobUnlock w job i runs here =>
    exact fetch_job fetching rfl rfl (.inr (.inl ⟨by rw [here]; rfl, rfl, rfl⟩))
  | call left =>
    refine fetching.keep fun p => ?_
    cases p with
    | inl c =>
      by_cases old : c < s.calls.length
      · simp only [downloads, List.getElem?_append_left old]
      · simp only [downloads, List.getElem?_append_right (Nat.not_lt.mp old),
          List.getElem?_eq_none (Nat.not_lt.mp old)]
        cases c - s.calls.length <;> simp [ManagerPhase.downloads]
    | inr w => rfl
  | lock c left here free => exact fetch_call fetching here rfl rfl (.inr (.inr ⟨rfl, rfl⟩))
  | move c before after here moves =>
    exact fetch_call fetching here rfl rfl
      (.inr (.inr ⟨rfl, moves.same.2.2.2.trans moves.same.2.2.1.symm⟩))
  | fetchLock c left here free => exact fetch_call fetching here rfl rfl (.inl ⟨free, rfl, rfl⟩)
  | fetchUnlock c left here after fetched =>
    refine fetch_call fetching here rfl rfl (.inr (.inl ⟨rfl, rfl, ?_⟩))
    rcases fetched with rfl | rfl <;> rfl
  | schedule c left here => exact fetch_call fetching here rfl rfl (.inr (.inr ⟨rfl, rfl⟩))
  | scheduled c left call here => exact fetch_call fetching here rfl rfl (.inr (.inr ⟨rfl, rfl⟩))
  | unlock c here => exact fetch_call fetching here rfl rfl (.inr (.inr ⟨rfl, rfl⟩))

/-! ### Workers and their jobs -/

theorem step_plain {s s' : Process n} {urge : Urge} {note : Note} (step : Step s urge note s')
    (plain : ∀ w job call, s.pool.workers w = .running job call → call = .returned)
    {w : Fin n} {job : ℕ} {call : CallPhase} (runs : s'.pool.workers w = .running job call) :
    call = .returned := by
  have moved : ∀ {w' : Fin n} {phase : WorkerPhase},
      (∀ job' call', phase = .running job' call' → call' = .returned) →
      Function.update s.pool.workers w' phase w = .running job call → call = .returned := by
    intro w' phase back runs
    by_cases own : w = w'
    · subst own
      rw [Function.update_self] at runs
      exact back job call runs
    · rw [Function.update_of_ne own] at runs
      exact plain w job call runs
  cases step with
  | pool note pool step own => exact plain w job call ((own.running w job call).mp runs)
  | wake w' => exact moved (by simp) runs
  | start w' => exact moved (by simp) runs
  | finish w' => exact moved (by simp) runs
  | job | jobLock | jobUnlock | call | lock | move | fetchLock | fetchUnlock | schedule | scheduled
  | unlock => exact plain w job call runs

theorem step_busy {s s' : Process n} {urge : Urge} {note : Note} (step : Step s urge note s')
    (busy : ∀ w, s.jobs w = .probe PREFETCH_WINDOW ∨
      ∃ job, s.pool.workers w = .running job .returned) (w : Fin n) :
    s'.jobs w = .probe PREFETCH_WINDOW ∨ ∃ job, s'.pool.workers w = .running job .returned := by
  -- Another worker moves on, or this one.
  have moved : ∀ {w' : Fin n} {phase : WorkerPhase},
      (w = w' → s'.jobs w = .probe PREFETCH_WINDOW ∨ ∃ job, phase = .running job .returned) →
      (w ≠ w' → s'.jobs w = s.jobs w) → s'.pool.workers = Function.update s.pool.workers w' phase →
      s'.jobs w = .probe PREFETCH_WINDOW ∨ ∃ job, s'.pool.workers w = .running job .returned := by
    intro w' phase self others workers
    rw [workers]
    by_cases own : w = w'
    · rw [own, Function.update_self, ← own]
      exact self own
    · rw [Function.update_of_ne own, others own]
      exact busy w
  -- The job of a worker moves on, which is running.
  have worked : ∀ {w' : Fin n} {job : ℕ}, s.pool.workers w' = .running job .returned →
      (w ≠ w' → s'.jobs w = s.jobs w) → s'.pool = s.pool →
      s'.jobs w = .probe PREFETCH_WINDOW ∨ ∃ job, s'.pool.workers w = .running job .returned := by
    intro w' job runs others pool
    rw [pool]
    by_cases own : w = w'
    · exact .inr ⟨job, own ▸ runs⟩
    · rw [others own]
      exact busy w
  cases step with
  | pool note pool step own =>
    exact (busy w).imp_right fun ⟨job, runs⟩ => ⟨job, (own.running w job _).mpr runs⟩
  | wake w' waits =>
    refine moved (fun same => .inl ((busy w).resolve_right ?_)) (fun _ => rfl) rfl
    rintro ⟨job, runs⟩
    rw [same, waits] at runs
    cases runs
  | start w' job here =>
    exact moved (fun _ => .inr ⟨job, rfl⟩) (fun other => Function.update_of_ne other _ _) rfl
  | job w' job runs => exact worked runs (fun other => Function.update_of_ne other _ _) rfl
  | jobLock w' job i runs => exact worked runs (fun other => Function.update_of_ne other _ _) rfl
  | jobUnlock w' job i runs => exact worked runs (fun other => Function.update_of_ne other _ _) rfl
  | finish w' job runs done => exact moved (fun same => .inl (same ▸ done)) (fun _ => rfl) rfl
  | call | lock | move | fetchLock | fetchUnlock | schedule | scheduled | unlock => exact busy w

theorem step_passes {s s' : Process n} {urge : Urge} {note : Note} (step : Step s urge note s')
    (passes : ∀ w, (s.jobs w).Within) (w : Fin n) : (s'.jobs w).Within := by
  have moved : ∀ {w' : Fin n} {phase : PrefetchPhase}, phase.Within →
      (Function.update s.jobs w' phase w).Within := by
    intro w' phase within
    by_cases own : w = w'
    · subst own
      rwa [Function.update_self]
    · rw [Function.update_of_ne own]
      exact passes w
  cases step with
  | start w' => exact moved (Nat.zero_le _)
  | job w' job runs phase moves => exact moved moves.same.2.2
  | jobLock w' job i runs here =>
    have within := passes w'
    rw [here] at within
    exact moved within
  | jobUnlock w' job i runs here =>
    have within := passes w'
    rw [here] at within
    exact moved (Nat.succ_le_of_lt within)
  | pool | wake | finish | call | lock | move | fetchLock | fetchUnlock | schedule | scheduled
  | unlock => exact passes w

theorem step_scheduled {s s' : Process n} {urge : Urge} {note : Note} (step : Step s urge note s')
    (scheduled : ∀ c left call : ℕ, s.calls[c]? = some (.enqueue left call) →
      call < s.pool.callers.length) {c left call : ℕ}
    (here : s'.calls[c]? = some (.enqueue left call)) : call < s'.pool.callers.length := by
  have moved : ∀ {c' : ℕ} {after : ManagerPhase}, (∀ left call, after ≠ .enqueue left call) →
      (s.calls.set c' after)[c]? = some (.enqueue left call) → call < s.pool.callers.length := by
    intro c' after other found
    rw [List.getElem?_set] at found
    split at found
    · split at found
      · exact absurd (Option.some.inj found) (other left call)
      · cases found
    · exact scheduled c left call found
  cases step with
  | pool note pool step own => rw [own.callers]; exact scheduled c left call here
  | wake | start | job | jobLock | jobUnlock | finish => exact scheduled c left call here
  | call left' =>
    rw [List.getElem?_append] at here
    split at here
    · exact scheduled c left call here
    · generalize c - s.calls.length = k at here
      cases k <;> simp at here
  | lock c' => exact moved (by simp) here
  | move c' before after here' moves =>
    refine moved (fun left call same => ?_) here
    subst same
    cases moves
  | fetchLock c' => exact moved (by simp) here
  | fetchUnlock c' left' here' after fetched =>
    refine moved (fun left call same => ?_) here
    rcases fetched with rfl | rfl <;> cases same
  | schedule c' left' here' =>
    rw [setCall, List.getElem?_set] at here
    simp only [List.length_append, List.length_singleton]
    split at here
    · split at here
      · cases here
        exact Nat.lt_succ_self _
      · cases here
    · exact Nat.lt_succ_of_lt (scheduled c left call here)
  | scheduled c' => exact moved (by simp) here
  | unlock c' => exact moved (by simp) here

theorem Regular.step {s s' : Process n} (positive : 0 < n) {urge : Urge} {note : Note}
    (regular : Regular s) (step : Step s urge note s') : Regular s' where
  alive := by
    cases step with
    | pool note pool step own => exact own.destructor.trans regular.alive
    | _ => exact regular.alive
  safe := by
    rcases step_pool regular.alive step with moved | ⟨same, _⟩
    · exact regular.safe.step positive moved
    · exact same ▸ regular.safe
  inside := step_inside step regular.inside
  fetching := step_fetching regular step
  plain := fun _ _ _ => step_plain step regular.plain
  busy := step_busy step regular.busy
  passes := step_passes step regular.passes
  scheduled := fun _ _ _ => step_scheduled step regular.scheduled

theorem Regular.not_stopped {s : Process n} (regular : Regular s) : s.pool.stop = false := by
  by_contra stop
  exact regular.safe.started (by simpa using stop) regular.alive

/-! ### Every run ends -/

/-- The work that is left, if nobody makes another call or wakes up for no reason. -/
def work (s : Process n) : ℕ :=
  s.pool.load + (s.calls.map ManagerPhase.cost).sum + ∑ w, (s.jobs w).cost

theorem work_setCall {s : Process n} {c : ℕ} {before : ManagerPhase}
    (here : s.calls[c]? = some before) (after : ManagerPhase) :
    (s.setCall c after).work + before.cost = s.work + after.cost := by
  have sum := Potential.sum_set ManagerPhase.cost here after
  simp only [work, setCall]
  omega

theorem work_setJob {s : Process n} {w : Fin n} {before : PrefetchPhase} (here : s.jobs w = before)
    (after : PrefetchPhase) : (s.setJob w after).work + before.cost = s.work + after.cost := by
  have sum := Potential.sum_update PrefetchPhase.cost s.jobs w after
  rw [here] at sum
  simp only [work, setJob]
  omega

/-- Every step uses up work, or what it is paid for. -/
theorem step_work {s s' : Process n} {urge : Urge} {note : Note} (regular : Regular s)
    (step : Step s urge note s') : s'.work + 1 ≤ s.work + urge.cost := by
  have calls : ∀ {c : ℕ} {before : ManagerPhase} (after : ManagerPhase),
      s.calls[c]? = some before → after.cost + 1 ≤ before.cost →
      (s.setCall c after).work + 1 ≤ s.work := by
    intro c before after here less
    have sum := work_setCall here after
    omega
  have jobs : ∀ {w : Fin n} {before : PrefetchPhase} (after : PrefetchPhase),
      s.jobs w = before → after.cost + 1 ≤ before.cost → (s.setJob w after).work + 1 ≤ s.work := by
    intro w before after here less
    have sum := work_setJob here after
    omega
  cases step with
  | pool note pool step own =>
    have used := own.load regular.safe regular.alive step
    simp only [work, Urge.cost]
    omega
  | wake w waits =>
    have woken : _ + 0 = _ + 4 := ThreadPool.load_goto waits .woken
    simp only [work, Urge.cost]
    omega
  | start w job here =>
    -- The steps of the job were paid for while it was in the queue.
    have ended := regular.through (w := w) (by simp [here])
    have started : _ + (6 + jobSteps) = _ + 5 :=
      ThreadPool.load_goto here (.running job .returned)
    have begun : _ + 0 = _ + jobSteps := work_setJob ended (.probe 0)
    simp only [work, setJob, Urge.cost] at begun ⊢
    omega
  | job w job runs phase moves => exact jobs phase rfl moves.uses
  | jobLock w job i runs here => exact jobs (.download i) here (Nat.le_refl _)
  | jobUnlock w job i runs here => exact jobs (.probe (i + 1)) here (Nat.le_refl _)
  | finish w job runs =>
    have finished : _ + 5 = _ + 4 := ThreadPool.load_goto runs .lock
    simp only [work, Urge.cost]
    omega
  | call left =>
    simp only [work, List.map_append, List.map_singleton, List.sum_append, List.sum_singleton,
      ManagerPhase.cost, Urge.cost]
    omega
  | lock c left here => exact calls (.loop left) here (by simp only [ManagerPhase.cost]; omega)
  | move c before after here moves => exact calls after here moves.uses
  | fetchLock c left here =>
    exact calls (.download left) here (by simp only [ManagerPhase.cost]; omega)
  | fetchUnlock c left here after fetched =>
    refine calls after here ?_
    rcases fetched with rfl | rfl <;> simp only [ManagerPhase.cost] <;> omega
  | schedule c left here =>
    have sum := work_setCall here (.enqueue left s.pool.callers.length)
    simp only [work, setCall, ThreadPool.load, List.map_append, List.map_singleton,
      List.sum_append, List.sum_singleton, ManagerPhase.cost, CallPhase.toReturn,
      Urge.cost] at sum ⊢
    omega
  | scheduled c left call here =>
    exact calls (.loop left) here (by simp only [ManagerPhase.cost]; omega)
  | unlock c here => exact calls .returned here (Nat.le_refl _)

/-! ### Nobody is left behind -/

/-- Nothing can happen but new calls and workers that wake up for no reason. -/
def Quiet (s : Process n) : Prop := ∀ urge note s', Step s urge note s' → urge ≠ .none

namespace Quiet

variable {s : Process n} (quiet : Quiet s) (regular : Regular s)

include quiet

theorem not_pool {note : Note} {pool : ThreadPool n} (step : ThreadPool.Step s.pool note pool) :
    ¬s.pool.Internal pool := fun own => quiet _ _ _ (.pool s note pool step own) rfl

/-- A worker with no job cannot go on. -/
theorem not_goto {note : Note} {pool : ThreadPool n} (step : ThreadPool.Step s.pool note pool)
    {w : Fin n} {before after : WorkerPhase} (here : s.pool.workers w = before)
    (idle : ∀ job call, before ≠ .running job call ∧ after ≠ .running job call)
    (up : before ≠ .waiting) (workers : pool.workers = Function.update s.pool.workers w after)
    (callers : pool.callers = s.pool.callers) (destructor : pool.destructor = s.pool.destructor) :
    False :=
  quiet.not_pool step (ThreadPool.internal_goto here workers callers destructor idle up)

theorem not_caller {note : Note} {pool : ThreadPool n} (step : ThreadPool.Step s.pool note pool)
    {c : ℕ} {next : CallPhase} (workers : pool.workers = s.pool.workers)
    (callers : pool.callers = s.pool.callers.set c next)
    (destructor : pool.destructor = s.pool.destructor) : False :=
  quiet.not_pool step (ThreadPool.internal_call workers callers destructor)

include regular

theorem running (w : Fin n) (job : ℕ) (call : CallPhase)
    (runs : s.pool.workers w = .running job call) (free : s.gMtx = none) : False := by
  cases regular.plain w job call runs
  have within := regular.passes w
  cases here : s.jobs w with
  | probe i =>
    rw [here] at within
    rcases Nat.lt_or_eq_of_le within with more | rfl
    · exact quiet _ _ _ (.job s w job runs _ (by rw [here]; exact .hit i more)) rfl
    · exact quiet _ _ _ (.finish s w job runs here) rfl
  | fetch i => exact quiet _ _ _ (.jobLock s w job i runs here free) rfl
  | download i => exact quiet _ _ _ (.jobUnlock s w job i runs here) rfl

/-- Who downloads can go on. -/
theorem not_downloading : s.gMtx = none := by
  by_contra held
  obtain ⟨p, owner⟩ := Option.ne_none_iff_exists'.mp held
  have downloads : s.downloads p = true := (regular.fetching p).mpr owner
  cases p with
  | inl c =>
    obtain ⟨call, here, within⟩ := (Option.any_eq_true _ _).mp downloads
    cases call with
    | download left => exact quiet _ _ _ (.fetchUnlock s c left here .unlock (.inr rfl)) rfl
    | _ => cases within
  | inr w =>
    cases here : s.jobs w with
    | download i =>
      obtain ended | ⟨job, runs⟩ := regular.busy w
      · rw [here] at ended
        cases ended
      · exact quiet _ _ _ (.jobUnlock s w job i runs here) rfl
    | _ => simp [Process.downloads, here, PrefetchPhase.downloads] at downloads

/-- Who holds the pool's mutex can go on. -/
theorem pool_free : s.pool.mu = none := by
  by_contra held
  obtain ⟨p, owner⟩ := Option.ne_none_iff_exists'.mp held
  have inside : s.pool.inside p = true := (regular.safe.exclusive p).mpr owner
  have stop := regular.not_stopped
  cases p with
  | worker w =>
    rw [ThreadPool.inside] at inside
    generalize here : s.pool.workers w = phase at inside
    cases phase with
    | predicate =>
      by_cases ready : s.pool.tasks = []
      · exact quiet.not_goto (.fail _ w here ⟨stop, ready⟩) here (by simp) (by simp) rfl rfl rfl
      · exact quiet.not_goto (.pass _ w here (.inr ready)) here (by simp) (by simp) rfl rfl rfl
    | block => exact quiet.not_goto (.block _ w here) here (by simp) (by simp) rfl rfl rfl
    | front =>
      cases queue : s.pool.tasks with
      | nil =>
        rcases regular.safe.ready w here with up | some
        · rw [stop] at up
          cases up
        · exact some queue
      | cons job rest =>
        exact quiet.not_goto (.pop _ w here job rest queue) here (by simp) (by simp) rfl rfl rfl
    | took job => exact quiet.not_goto (.unlock _ w job here) here (by simp) (by simp) rfl rfl rfl
    | running job call =>
      cases regular.plain w job call here
      cases inside
    | lock | waiting | woken | ready | exited => cases inside
  | caller c =>
    obtain ⟨call, found, within⟩ := (Option.any_eq_true _ _).mp inside
    have at_ : s.pool.inCall (.caller c) = some call := found
    cases call with
    | emplace =>
      obtain ⟨_, _, ⟨⟩, _⟩ | ⟨_, ⟨⟩, _, eq⟩ := ThreadPool.call_cases at_ .unlock
      exact quiet.not_caller (.emplace _ _ at_) (by rw [eq]) rfl rfl
    | unlock =>
      obtain ⟨_, _, ⟨⟩, _⟩ | ⟨_, ⟨⟩, _, eq⟩ := ThreadPool.call_cases at_ .notify
      exact quiet.not_caller (.callUnlock _ _ at_) (by rw [eq]) rfl rfl
    | lock | notify | returned => cases within
  | destructor =>
    rw [ThreadPool.inside, regular.alive] at inside
    cases inside

theorem waits (w : Fin n) : s.pool.workers w = .waiting := by
  have free := quiet.pool_free regular
  have outside : (s.pool.workers w).inside = false := by
    rw [Bool.eq_false_iff]
    intro inside
    have owner := (regular.safe.exclusive (.worker w)).mp inside
    rw [free] at owner
    cases owner
  cases here : s.pool.workers w with
  | waiting => rfl
  | lock =>
    exact (quiet.not_goto (.lock _ w (.inl here) free) here (by simp) (by simp) rfl rfl rfl).elim
  | woken =>
    exact (quiet.not_goto (.lock _ w (.inr here) free) here (by simp) (by simp) rfl rfl rfl).elim
  | ready job => exact absurd rfl (quiet _ _ _ (.start s w job here))
  | running job call =>
    exact (quiet.running regular w job call here (quiet.not_downloading regular)).elim
  | exited =>
    have stop := regular.safe.stopped w here
    rw [regular.not_stopped] at stop
    cases stop
  | predicate | block | front | took =>
    rw [here] at outside
    cases outside

/-- With the pool's mutex free, a call of `enqueue` can go on until it returns. -/
theorem enqueued {call : CallPhase} (member : call ∈ s.pool.callers) : call = .returned := by
  obtain ⟨c, found⟩ := List.mem_iff_getElem?.mp member
  have free := quiet.pool_free regular
  have at_ : s.pool.inCall (.caller c) = some call := found
  have outside : call.inside = false := by
    rw [Bool.eq_false_iff]
    intro inside
    have held : s.pool.inside (.caller c) = true := by
      rw [ThreadPool.inside, found]
      exact inside
    have owner := (regular.safe.exclusive _).mp held
    rw [free] at owner
    cases owner
  cases call with
  | returned => rfl
  | lock =>
    obtain ⟨_, _, ⟨⟩, _⟩ | ⟨_, ⟨⟩, _, eq⟩ := ThreadPool.call_cases at_ .emplace
    exact (quiet.not_caller (.callLock _ _ at_ free) (by rw [eq]) rfl rfl).elim
  | notify =>
    obtain ⟨_, _, ⟨⟩, _⟩ | ⟨_, ⟨⟩, _, eq⟩ := ThreadPool.call_cases at_ .returned
    by_cases asleep : ∃ w, s.pool.workers w = .waiting
    · obtain ⟨w, waits⟩ := asleep
      have own : s.pool.Internal ((s.pool.setCall (.caller c) .returned).goto w .woken) := by
        rw [eq]
        exact ThreadPool.internal_notify found waits
      exact absurd own (quiet.not_pool (.notifyOne _ _ at_ w waits))
    · exact (quiet.not_caller (.notifyNone _ _ at_ (not_exists.mp asleep)) (by rw [eq]) rfl
        rfl).elim
  | emplace | unlock => cases outside

/-- Who holds `mu_` can go on, and then whoever wants it. -/
theorem returned : s.mu = none ∧ ∀ call ∈ s.calls, call = .returned := by
  have outside : s.mu = none := by
    by_contra held
    obtain ⟨c, owner⟩ := Option.ne_none_iff_exists'.mp held
    obtain ⟨call, here, within⟩ := (Option.any_eq_true _ _).mp ((regular.inside c).mpr owner)
    cases call with
    | loop left => exact quiet _ _ _ (.move s c _ _ here (.leave left)) rfl
    | fetch left =>
      exact quiet _ _ _ (.fetchLock s c left here (quiet.not_downloading regular)) rfl
    | download left => exact quiet _ _ _ (.fetchUnlock s c left here .unlock (.inr rfl)) rfl
    | stored left => exact quiet _ _ _ (.move s c _ _ here (.next left)) rfl
    | enqueue left call =>
      have inside := regular.scheduled c left call here
      have back := quiet.enqueued regular (List.getElem_mem inside)
      refine quiet _ _ _ (.scheduled s c left call here ?_) rfl
      rw [List.getElem?_eq_getElem inside, back]
    | unlock => exact quiet _ _ _ (.unlock s c here) rfl
    | lock | returned => cases within
  refine ⟨outside, fun call member => ?_⟩
  obtain ⟨c, here⟩ := List.mem_iff_getElem?.mp member
  cases call with
  | returned => rfl
  | lock left => exact absurd rfl (quiet _ _ _ (.lock s c left here outside))
  | _ =>
    have held : (s.calls[c]?).any ManagerPhase.inside = true := by rw [here]; rfl
    have owner := (regular.inside c).mp held
    rw [outside] at owner
    cases owner

theorem drained : s.pool.tasks = [] := by
  by_contra some
  rcases regular.safe.served some with ⟨w, active⟩ | ⟨call, member, phase⟩
  · exact active.1 (quiet.waits regular w)
  · rw [quiet.enqueued regular member] at phase
    rcases phase with phase | phase <;> cases phase

end Quiet

/-- What happened to the jobs. -/
def notes (history : List (Urge × Note)) : ThreadPool.History :=
  history.map fun entry => ((), entry.2)

/-- After any run the process is regular, and its jobs are accounted for. -/
theorem run_regular {numThreads : ℕ} {history : List (Urge × Note)}
    {s : Process (ThreadPool.workerCount numThreads)}
    (run : Run Steps (new numThreads) history s) :
    Regular s ∧ ThreadPool.Accounts (notes history) s.pool := by
  induction run with
  | refl => exact ⟨regular_new numThreads, .new numThreads⟩
  | @next s s' history urge note _ taken ih =>
    obtain ⟨regular, accounts⟩ := ih
    refine ⟨regular.step (ThreadPool.workerCount_pos numThreads) taken, ?_⟩
    rw [notes, List.map_append]
    rcases step_pool regular.alive taken with moved | ⟨same, rfl⟩
    · exact accounts.step (ThreadPool.step_effect moved)
    · exact accounts.step (.silent (by rw [same]) (by rw [same]) (by rw [same]))

theorem work_new (numThreads : ℕ) :
    (new numThreads).work = 4 * ThreadPool.workerCount numThreads := by
  simp [work, new, ThreadPool.load, ThreadPool.new, WorkerPhase.toWait, PrefetchPhase.cost,
    Nat.mul_comm]

/-- In every interleaving at most one call is inside `mu_` and at most one download goes on; the
steps are bounded by what the calls and the wake-ups are good for; and where nothing is left but
such new ones, every call has returned, every mutex is free and every job has run. -/
theorem calls_return (numThreads : ℕ) (history : List (Urge × Note))
    (s : Process (ThreadPool.workerCount numThreads))
    (run : Run Steps (new numThreads) history s) :
    (∀ c c' : ℕ, (s.calls[c]?).any ManagerPhase.inside = true →
      (s.calls[c']?).any ManagerPhase.inside = true → c = c') ∧
    (∀ p p', s.downloads p = true → s.downloads p' = true → p = p') ∧
    history.length ≤
      4 * ThreadPool.workerCount numThreads + (history.map fun entry => entry.1.cost).sum ∧
    (s.Quiet → (∀ call ∈ s.calls, call = .returned) ∧
      s.mu = none ∧ s.gMtx = none ∧ s.pool.mu = none ∧
      (∀ w, s.pool.workers w = .waiting) ∧ s.pool.tasks = [] ∧
      ∀ job ∈ ThreadPool.enqueued (notes history),
        job ∈ ThreadPool.finished (notes history)) := by
  obtain ⟨regular, accounts⟩ := run_regular run
  refine ⟨fun c c' => regular.inside.alone, fun p p' => regular.fetching.alone, ?_, fun quiet => ?_⟩
  · have bound := run.length_le Regular work (fun entry => entry.1.cost) (regular_new numThreads)
      (fun regular taken => regular.step (ThreadPool.workerCount_pos numThreads) taken)
      (fun regular taken => step_work regular taken)
    rw [work_new] at bound
    omega
  · obtain ⟨free, returned⟩ := quiet.returned regular
    have waits := quiet.waits regular
    have drained := quiet.drained regular
    refine ⟨returned, free, quiet.not_downloading regular, quiet.pool_free regular, waits, drained,
      fun job member => ?_⟩
    rw [accounts.order, drained, List.append_nil] at member
    apply (accounts.whole job member).resolve_right
    rintro ⟨w, begun, held⟩
    simp [ThreadPool.hand, waits w, WorkerPhase.hand] at held

/-- A read downloads a block and schedules a job, which finds its four blocks in the store. -/
theorem calls_return_read :
    ∃ (history : List (Urge × Note)) (s : Process (ThreadPool.workerCount 1)),
      s.calls = [.returned] ∧ ThreadPool.finished (notes history) = [0] ∧
      (∀ c c' : ℕ, (s.calls[c]?).any ManagerPhase.inside = true →
        (s.calls[c']?).any ManagerPhase.inside = true → c = c') ∧
      (∀ p p', s.downloads p = true → s.downloads p' = true → p = p') ∧
      history.length ≤
        4 * ThreadPool.workerCount 1 + (history.map fun entry => entry.1.cost).sum ∧
      (s.Quiet → (∀ call ∈ s.calls, call = .returned) ∧
        s.mu = none ∧ s.gMtx = none ∧ s.pool.mu = none ∧
        (∀ w, s.pool.workers w = .waiting) ∧ s.pool.tasks = [] ∧
        ∀ job ∈ ThreadPool.enqueued (notes history),
          job ∈ ThreadPool.finished (notes history)) := by
  let w : Fin (ThreadPool.workerCount 1) := ⟨0, by decide⟩
  have called : Run Steps (new 1) [(.call 1, .silent)] _ := .next (.refl _) (.call _ 1)
  have locked := called.next (e := Urge.none) (.lock _ 0 1 rfl rfl)
  have missed := locked.next (e := Urge.none) (.move _ 0 _ _ rfl (.miss 0))
  have fetching := missed.next (e := Urge.none) (.fetchLock _ 0 0 rfl rfl)
  have stored := fetching.next (e := Urge.none) (.fetchUnlock _ 0 0 rfl (.stored 0) (.inl rfl))
  have scheduling := stored.next (e := Urge.none) (.schedule _ 0 0 rfl)
  -- The call of `enqueue`, within that of the read
  have begun : Run Steps (new 1) _
      ⟨⟨none, [], false, fun _ => .lock, [.lock], .alive, 0⟩, some 0, none, [.enqueue 0 0],
        fun _ => .probe 4⟩ := scheduling
  have entered := begun.next (e := Urge.none)
    (.pool _ _ _ (.callLock _ (.caller 0) rfl rfl) (ThreadPool.internal_call rfl rfl rfl))
  have queued := entered.next (e := Urge.none)
    (.pool _ _ _ (.emplace _ (.caller 0) rfl) (ThreadPool.internal_call rfl rfl rfl))
  have unlocked := queued.next (e := Urge.none)
    (.pool _ _ _ (.callUnlock _ (.caller 0) rfl) (ThreadPool.internal_call rfl rfl rfl))
  have pending : Run Steps (new 1) _
      ⟨⟨none, [0], false, fun _ => .lock, [.notify], .alive, 1⟩, some 0, none, [.enqueue 0 0],
        fun _ => .probe 4⟩ := unlocked
  have notified := pending.next (e := Urge.none)
    (.pool _ _ _ (.notifyNone _ (.caller 0) rfl nofun) (ThreadPool.internal_call rfl rfl rfl))
  have scheduled := notified.next (e := Urge.none) (.scheduled _ 0 0 0 rfl rfl)
  have ended := scheduled.next (e := Urge.none) (.move _ 0 _ _ rfl (.leave 0))
  have returned := ended.next (e := Urge.none) (.unlock _ 0 rfl)
  -- The worker and the job
  have idle : Run Steps (new 1) _
      ⟨⟨none, [0], false, fun _ => .lock, [.returned], .alive, 1⟩, none, none, [.returned],
        fun _ => .probe 4⟩ := returned
  have awake := idle.next (e := Urge.none) (.pool _ _ _ (.lock _ w (.inl rfl) rfl)
    (ThreadPool.internal_goto (show _ = .lock from rfl) rfl rfl rfl (by simp) (by simp)))
  have passed := awake.next (e := Urge.none)
    (.pool _ _ _ (.pass _ w rfl (.inr (List.cons_ne_nil 0 [])))
      (ThreadPool.internal_goto (show _ = .predicate from rfl) rfl rfl rfl (by simp) (by simp)))
  have popped := passed.next (e := Urge.none) (.pool _ _ _ (.pop _ w rfl 0 [] rfl)
    (ThreadPool.internal_goto (show _ = .front from rfl) rfl rfl rfl (by simp) (by simp)))
  have left := popped.next (e := Urge.none) (.pool _ _ _ (.unlock _ w 0 rfl)
    (ThreadPool.internal_goto (show _ = .took 0 from rfl) rfl rfl rfl (by simp) (by simp)))
  have started := left.next (e := Urge.none) (.start _ w 0 rfl)
  have first := started.next (e := Urge.none) (.job _ w 0 rfl _ (.hit 0 (by decide)))
  have second := first.next (e := Urge.none) (.job _ w 0 rfl _ (.hit 1 (by decide)))
  have third := second.next (e := Urge.none) (.job _ w 0 rfl _ (.hit 2 (by decide)))
  have fourth := third.next (e := Urge.none) (.job _ w 0 rfl _ (.hit 3 (by decide)))
  have finished := fourth.next (e := Urge.none) (.finish _ w 0 rfl rfl)
  exact ⟨_, _, rfl, rfl, calls_return 1 _ _ finished⟩

end Process

end RemoteCache
