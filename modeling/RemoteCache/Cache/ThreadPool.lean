import RemoteCache.Lib.Mutex
import Mathlib.Data.Fintype.Basic
import Mathlib.Logic.Function.Basic

/-!
# The thread pool

Workers, outside threads that call `enqueue`, jobs that call it themselves and
the destructor share a mutex, a queue, a stop flag and a condition variable. A
step is one access to these by one of the parties, in any order. A job is named
by the number of jobs that were put in the queue before it.

Waiting on the condition variable may end without a notification. A
notification wakes one waiting worker if there is any, and is lost otherwise.
-/
namespace RemoteCache

/-- Where a call of `enqueue` stands. -/
inductive CallPhase where
  | lock
  | emplace
  | unlock
  | notify
  | returned
  deriving DecidableEq

/-- Where a worker stands in `worker_loop`; a running job may be in a call of `enqueue`. -/
inductive WorkerPhase where
  | lock
  | predicate
  | block
  | waiting
  | woken
  | front
  | took (job : ℕ)
  | ready (job : ℕ)
  | running (job : ℕ) (call : CallPhase)
  | exited
  deriving DecidableEq

/-- Where the destructor stands; it joins the workers one after the other. -/
inductive DestructorPhase where
  | alive
  | lock
  | stop
  | unlock
  | notify
  | join (i : ℕ)
  deriving DecidableEq

inductive Party (n : ℕ) where
  | worker (w : Fin n)
  | caller (c : ℕ)
  | destructor
  deriving DecidableEq

/-- `made` counts the jobs put in the queue so far. -/
structure ThreadPool (n : ℕ) where
  mu : Option (Party n)
  tasks : List ℕ
  stop : Bool
  workers : Fin n → WorkerPhase
  callers : List CallPhase
  destructor : DestructorPhase
  made : ℕ

/-- What a step does to a job. -/
inductive Note where
  | silent
  | enqueued (job : ℕ)
  | popped (job : ℕ)
  | started (job : ℕ)
  | finished (job : ℕ)
  deriving DecidableEq

namespace ThreadPool

/-- The number of workers, at least one. -/
def workerCount (numThreads : ℕ) : ℕ := if numThreads = 0 then 1 else numThreads

def new (numThreads : ℕ) : ThreadPool (workerCount numThreads) :=
  ⟨none, [], false, fun _ => .lock, [], .alive, 0⟩

variable {n : ℕ}

/-- The worker moves on to a phase. -/
def goto (s : ThreadPool n) (w : Fin n) (phase : WorkerPhase) : ThreadPool n :=
  { s with workers := Function.update s.workers w phase }

/-- Where the call of `enqueue` stands that the party is in. -/
def inCall (s : ThreadPool n) : Party n → Option CallPhase
  | .worker w =>
    match s.workers w with
    | .running _ call => some call
    | _ => none
  | .caller c => s.callers[c]?
  | .destructor => none

/-- The party's call of `enqueue` moves on to a phase. -/
def setCall (s : ThreadPool n) (me : Party n) (call : CallPhase) : ThreadPool n :=
  { s with
    workers := fun w =>
      match s.workers w with
      | .running job old => .running job (if me = .worker w then call else old)
      | phase => phase
    callers :=
      match me with
      | .caller c => s.callers.set c call
      | _ => s.callers }

inductive Step : ThreadPool n → Note → ThreadPool n → Prop where
  -- `worker_loop`
  | lock (s : ThreadPool n) (w : Fin n) (top : s.workers w = .lock ∨ s.workers w = .woken)
      (free : s.mu = none) : Step s .silent { s.goto w .predicate with mu := some (.worker w) }
  -- `wait` tests its predicate under the lock.
  | pass (s : ThreadPool n) (w : Fin n) (here : s.workers w = .predicate)
      (ready : s.stop = true ∨ s.tasks ≠ []) : Step s .silent (s.goto w .front)
  | fail (s : ThreadPool n) (w : Fin n) (here : s.workers w = .predicate)
      (idle : s.stop = false ∧ s.tasks = []) : Step s .silent (s.goto w .block)
  -- Going to sleep and giving up the lock is one step.
  | block (s : ThreadPool n) (w : Fin n) (here : s.workers w = .block) :
      Step s .silent { s.goto w .waiting with mu := none }
  | spurious (s : ThreadPool n) (w : Fin n) (here : s.workers w = .waiting) :
      Step s .silent (s.goto w .woken)
  -- The test `stop_ && tasks_.empty()` after the wait.
  | leave (s : ThreadPool n) (w : Fin n) (here : s.workers w = .front)
      (done : s.stop = true ∧ s.tasks = []) :
      Step s .silent { s.goto w .exited with mu := none }
  | pop (s : ThreadPool n) (w : Fin n) (here : s.workers w = .front) (job : ℕ) (rest : List ℕ)
      (first : s.tasks = job :: rest) :
      Step s (.popped job) { s.goto w (.took job) with tasks := rest }
  -- The scope of the lock ends before the job runs.
  | unlock (s : ThreadPool n) (w : Fin n) (job : ℕ) (here : s.workers w = .took job) :
      Step s .silent { s.goto w (.ready job) with mu := none }
  | start (s : ThreadPool n) (w : Fin n) (job : ℕ) (here : s.workers w = .ready job) :
      Step s (.started job) (s.goto w (.running job .returned))
  | finish (s : ThreadPool n) (w : Fin n) (job : ℕ) (here : s.workers w = .running job .returned) :
      Step s (.finished job) (s.goto w .lock)
  -- `enqueue`, called by a running job, or from outside before the destructor has started.
  | submit (s : ThreadPool n) (w : Fin n) (job : ℕ) (here : s.workers w = .running job .returned) :
      Step s .silent (s.goto w (.running job .lock))
  | call (s : ThreadPool n) (early : s.destructor = .alive) :
      Step s .silent { s with callers := s.callers ++ [.lock] }
  | callLock (s : ThreadPool n) (me : Party n) (here : s.inCall me = some .lock)
      (free : s.mu = none) : Step s .silent { s.setCall me .emplace with mu := some me }
  | emplace (s : ThreadPool n) (me : Party n) (here : s.inCall me = some .emplace) :
      Step s (.enqueued s.made)
        { s.setCall me .unlock with tasks := s.tasks ++ [s.made], made := s.made + 1 }
  | callUnlock (s : ThreadPool n) (me : Party n) (here : s.inCall me = some .unlock) :
      Step s .silent { s.setCall me .notify with mu := none }
  | notifyOne (s : ThreadPool n) (me : Party n) (here : s.inCall me = some .notify) (w : Fin n)
      (waits : s.workers w = .waiting) : Step s .silent ((s.setCall me .returned).goto w .woken)
  -- A notification that nobody waits for is lost.
  | notifyNone (s : ThreadPool n) (me : Party n) (here : s.inCall me = some .notify)
      (none : ∀ w, s.workers w ≠ .waiting) : Step s .silent (s.setCall me .returned)
  -- `~ThreadPool`, which starts when all calls from outside have put their jobs in the queue.
  | destroy (s : ThreadPool n) (here : s.destructor = .alive)
      (quiet : ∀ call ∈ s.callers, call ≠ .lock ∧ call ≠ .emplace) :
      Step s .silent { s with destructor := .lock }
  | destroyLock (s : ThreadPool n) (here : s.destructor = .lock) (free : s.mu = none) :
      Step s .silent { s with destructor := .stop, mu := some .destructor }
  | destroyStop (s : ThreadPool n) (here : s.destructor = .stop) :
      Step s .silent { s with destructor := .unlock, stop := true }
  | destroyUnlock (s : ThreadPool n) (here : s.destructor = .unlock) :
      Step s .silent { s with destructor := .notify, mu := none }
  | notifyAll (s : ThreadPool n) (here : s.destructor = .notify) :
      Step s .silent
        { s with
          destructor := .join 0
          workers := fun w => if s.workers w = .waiting then .woken else s.workers w }
  | join (s : ThreadPool n) (i : Fin n) (here : s.destructor = .join i)
      (exited : s.workers i = .exited) : Step s .silent { s with destructor := .join (i + 1) }

end ThreadPool

end RemoteCache
