import RemoteCache.Cache.PoolSafety
import RemoteCache.Lib.Potential
import Mathlib.Algebra.GroupWithZero.Nat
import Mathlib.Algebra.Order.BigOperators.Group.Finset

/-!
# The destructor returns

## Main result

`shutdown_completes`: once the stop flag is up, a run is bounded by the work that
is left and by the jobs that are still put in the queue; and where no step is left
but waking up for no reason, the destructor has joined every worker, the queue is
empty and every job has run.

## Proof strategy

Every step after the stop flag brings its party nearer to its end, and putting a
job in the queue adds the steps that it takes to run it. A party that holds the
mutex can always go on, and without it only a worker that waits cannot; but no
worker waits once the destructor has notified them all.
-/
namespace RemoteCache

/-- How many steps a party is from its end, at most, if nothing is put in the queue. -/
def CallPhase.cost : CallPhase → ℕ
  | .lock => 5
  | .emplace => 4
  | .unlock => 8
  | .notify => 7
  | .returned => 6

def WorkerPhase.cost : WorkerPhase → ℕ
  | .exited => 0
  | .front => 1
  | .predicate => 2
  | .lock => 3
  | .woken => 3
  | .waiting => 4
  | .block => 5
  | .ready _ => 7
  | .took _ => 8
  | .running _ call => call.cost

def DestructorPhase.cost (n : ℕ) : DestructorPhase → ℕ
  | .join i => n - i
  | .notify => n + 1
  | .unlock => n + 2
  | .stop => n + 3
  | .lock => n + 4
  | .alive => n + 5

/-- The job that a step puts in the queue is paid for. -/
def Note.cost : Note → ℕ
  | .enqueued _ => 13
  | .silent => 0
  | .popped _ => 0
  | .started _ => 0
  | .finished _ => 0

namespace ThreadPool

variable {n : ℕ}

/-- The work that is left. -/
def work (s : ThreadPool n) : ℕ :=
  8 * s.tasks.length + (∑ w, (s.workers w).cost) + (s.callers.map CallPhase.cost).sum +
    s.destructor.cost n

@[simp] theorem work_mu (s : ThreadPool n) (mu : Option (Party n)) :
    ({ s with mu } : ThreadPool n).work = s.work := rfl

/-! ### What a step does to the work -/

section cost

variable (s : ThreadPool n)

theorem work_goto (w : Fin n) (phase : WorkerPhase) :
    (s.goto w phase).work + (s.workers w).cost = s.work + phase.cost := by
  have sum := Potential.sum_update WorkerPhase.cost s.workers w phase
  simp only [work, goto]
  omega

theorem goto_uses {s : ThreadPool n} {w : Fin n} {before phase : WorkerPhase}
    (here : s.workers w = before) (less : phase.cost + 1 ≤ before.cost) :
    (s.goto w phase).work + 1 ≤ s.work := by
  have sum := work_goto s w phase
  rw [here] at sum
  omega

theorem work_setCall {s : ThreadPool n} {me : Party n} {call : CallPhase}
    (here : s.inCall me = some call) (next : CallPhase) :
    (s.setCall me next).work + call.cost = s.work + next.cost := by
  rcases call_cases here next with ⟨w, job, _, phase, moved⟩ | ⟨c, _, found, moved⟩
  · have sum := work_goto s w (.running job next)
    rwa [phase, ← moved] at sum
  · have sum := Potential.sum_set CallPhase.cost found next
    rw [moved]
    simp only [work]
    omega

theorem call_uses {s : ThreadPool n} {me : Party n} {call next : CallPhase}
    (here : s.inCall me = some call) (less : next.cost + 1 ≤ call.cost) :
    (s.setCall me next).work + 1 ≤ s.work := by
  have sum := work_setCall here next
  omega

end cost

/-! ### The destructor -/

/-- How far the destructor is, once the stop flag is up. -/
structure Staged (s : ThreadPool n) : Prop where
  stopped : s.stop = true ↔
    s.destructor = .unlock ∨ s.destructor = .notify ∨ ∃ i, s.destructor = .join i
  awake : ∀ i, s.destructor = .join i → ∀ w, s.workers w ≠ .waiting
  joined : ∀ i, s.destructor = .join i → i ≤ n ∧ ∀ w : Fin n, w < i → s.workers w = .exited

/-- What the destructor does in a step, and the stop flag with it. -/
inductive DestructorMove (s s' : ThreadPool n) : DestructorPhase → DestructorPhase → Prop where
  | stay (phase : DestructorPhase) (stop : s'.stop = s.stop) : DestructorMove s s' phase phase
  | destroy (stop : s'.stop = s.stop) : DestructorMove s s' .alive .lock
  | lock (stop : s'.stop = s.stop) : DestructorMove s s' .lock .stop
  | stop (stop : s'.stop = true) : DestructorMove s s' .stop .unlock
  | unlock (stop : s'.stop = s.stop) : DestructorMove s s' .unlock .notify
  | notify (stop : s'.stop = s.stop) (awake : ∀ w, s'.workers w ≠ .waiting) :
      DestructorMove s s' .notify (.join 0)
  | join (i : Fin n) (stop : s'.stop = s.stop) (exited : s.workers i = .exited) :
      DestructorMove s s' (.join i) (.join (i + 1))

theorem step_destructor {s s' : ThreadPool n} {note : Note} (step : Step s note s') :
    DestructorMove s s' s.destructor s'.destructor := by
  cases step with
  | destroy here => exact here ▸ .destroy rfl
  | destroyLock here => exact here ▸ .lock rfl
  | destroyStop here => exact here ▸ .stop rfl
  | destroyUnlock here => exact here ▸ .unlock rfl
  | notifyAll here =>
    rw [here]
    refine .notify rfl fun w => ?_
    dsimp only
    split
    · simp
    next other => exact other
  | join i here exited => exact here ▸ .join i rfl exited
  | _ => exact .stay _ rfl

theorem staged_new (numThreads : ℕ) : Staged (new numThreads) :=
  ⟨by simp [new], by simp [new], by simp [new]⟩

theorem Staged.step {s s' : ThreadPool n} {note : Note} (staged : Staged s) (safe : Safe s)
    (step : Step s note s') : Staged s' := by
  -- Nobody falls asleep under the stop flag, and who has exited stays out.
  have sleepless : ∀ i, s.destructor = .join i → ∀ w, s'.workers w ≠ .waiting := by
    intro i joins w waits
    have stop : s.stop = true := staged.stopped.mpr (.inr (.inr ⟨i, joins⟩))
    have move := step_workers step w
    rw [waits] at move
    generalize before : s.workers w = phase at move
    cases move with
    | stay => exact staged.awake i joins w before
    | sleep =>
      rw [(safe.blocked w before).1] at stop
      cases stop
  have exits : ∀ w, s.workers w = .exited → s'.workers w = .exited := by
    intro w exited
    have move := step_workers step w
    rw [exited] at move
    generalize after : s'.workers w = phase at move
    cases move with
    | stay => rfl
    | lock _ top => rcases top with top | top <;> cases top
  have move := step_destructor step
  obtain ⟨stopped, awake, joined⟩ := staged
  generalize before : s.destructor = phase at move stopped awake joined sleepless
  generalize after : s'.destructor = phase' at move
  refine ⟨?_, ?_, ?_⟩ <;> rw [after]
  · cases move with
    | stay _ stop => rw [stop]; exact stopped
    | stop stop => simp [stop]
    | destroy stop | lock stop | unlock stop | notify stop | join i stop =>
      rw [stop, stopped]
      simp
  · intro i joins
    cases move with
    | stay => exact sleepless i joins
    | notify _ notified => exact notified
    | join i => exact sleepless i rfl
    | _ => cases joins
  · intro i joins
    cases move with
    | stay => exact ⟨(joined i joins).1, fun w below => exits w ((joined i joins).2 w below)⟩
    | notify =>
      cases joins
      exact ⟨Nat.zero_le n, fun w below => absurd below (Nat.not_lt_zero _)⟩
    | join i _ exited =>
      cases joins
      refine ⟨i.isLt, fun w below => exits w ?_⟩
      rcases Nat.lt_succ_iff_lt_or_eq.mp below with earlier | same
      · exact (joined i rfl).2 w earlier
      · exact Fin.ext same ▸ exited
    | _ => cases joins

/-! ### Every run ends -/

/-- Under the stop flag every step uses up work. -/
theorem step_work {s s' : ThreadPool n} {note : Note} (safe : Safe s) (staged : Staged s)
    (stop : s.stop = true) (step : Step s note s') : s'.work + 1 ≤ s.work + note.cost := by
  have late := staged.stopped.mp stop
  cases step with
  | lock w top free =>
    rw [work_mu]
    rcases top with top | top
    · exact goto_uses top (Nat.le_refl _)
    · exact goto_uses top (Nat.le_refl _)
  | pass w here => exact goto_uses here (Nat.le_refl _)
  | spurious w here => exact goto_uses here (Nat.le_refl _)
  | leave w here done =>
    rw [work_mu]
    exact goto_uses here (Nat.le_refl _)
  | unlock w job here =>
    rw [work_mu]
    exact goto_uses here (Nat.le_refl _)
  | start w job here => exact goto_uses here (Nat.le_refl _)
  | finish w job here => exact goto_uses here (by simp [WorkerPhase.cost, CallPhase.cost])
  | submit w job here => exact goto_uses here (Nat.le_refl _)
  | pop w here job rest first =>
    have used := work_goto s w (.took job)
    rw [here] at used
    simp only [work, goto, first, List.length_cons, WorkerPhase.cost] at used ⊢
    omega
  | fail w here idle =>
    rw [idle.1] at stop
    cases stop
  | block w here =>
    rw [(safe.blocked w here).1] at stop
    cases stop
  | call early => exact absurd early (safe.started stop)
  | callLock me here free =>
    rw [work_mu]
    exact call_uses here (Nat.le_refl _)
  | emplace me here =>
    have used := work_setCall here .unlock
    simp only [work, setCall, List.length_append, List.length_singleton, CallPhase.cost,
      Note.cost] at used ⊢
    omega
  | callUnlock me here =>
    rw [work_mu]
    exact call_uses here (Nat.le_refl _)
  | notifyOne me here w waits =>
    have called : (s.setCall me .returned).work + 1 ≤ s.work := call_uses here (Nat.le_refl _)
    have waits' : (s.setCall me .returned).workers w = .waiting := by simp [setCall, waits]
    have woken : ((s.setCall me .returned).goto w .woken).work + 1 ≤
        (s.setCall me .returned).work := goto_uses waits' (Nat.le_refl _)
    simp only [Note.cost]
    omega
  | notifyNone me here none => exact call_uses here (Nat.le_refl _)
  | destroy here | destroyLock here | destroyStop here => simp [here] at late
  | destroyUnlock here =>
    simp only [work, here, DestructorPhase.cost, Note.cost]
    omega
  | notifyAll here =>
    have woken : (∑ w, (if s.workers w = .waiting then WorkerPhase.woken else s.workers w).cost) ≤
        ∑ w, (s.workers w).cost := by
      refine Finset.sum_le_sum fun w _ => ?_
      split
      next waits =>
        rw [waits]
        decide
      · exact Nat.le_refl _
    simp only [work, here, DestructorPhase.cost, Note.cost]
    omega
  | join i here exited =>
    have below := i.isLt
    simp only [work, here, DestructorPhase.cost, Note.cost]
    omega

/-! ### Nobody is left behind -/

/-- The step wakes up a worker that waits, as may happen for no reason. -/
def Wakes (s s' : ThreadPool n) : Prop := ∃ w, s.workers w = .waiting ∧ s' = s.goto w .woken

theorem Wakes.same {s s' : ThreadPool n} (wakes : Wakes s s') :
    s'.mu = s.mu ∧ s'.tasks = s.tasks ∧ s'.callers = s.callers ∧ s'.destructor = s.destructor := by
  obtain ⟨w, _, rfl⟩ := wakes
  exact ⟨rfl, rfl, rfl, rfl⟩

theorem Wakes.worker {s s' : ThreadPool n} (wakes : Wakes s s') {w : Fin n}
    (up : s.workers w ≠ .waiting) : s'.workers w = s.workers w := by
  obtain ⟨w', waits, rfl⟩ := wakes
  have other : w ≠ w' := fun same => up (same ▸ waits)
  exact Function.update_of_ne other _ _

/-- Nothing can happen but that a worker wakes up for no reason. -/
def Stuck (s : ThreadPool n) : Prop := ∀ note s', Step s note s' → Wakes s s'

namespace Stuck

variable {s : ThreadPool n} (stuck : Stuck s)

include stuck

theorem still {note : Note} {s' : ThreadPool n} (step : Step s note s') {w : Fin n}
    {phase : WorkerPhase} (here : s.workers w = phase) (up : phase ≠ .waiting) :
    s'.workers w = phase :=
  ((stuck note s' step).worker (here ▸ up)).trans here

/-- Who holds the mutex can go on, so nobody does. -/
theorem free (safe : Safe s) (staged : Staged s) (stop : s.stop = true) : s.mu = none := by
  by_contra held
  obtain ⟨p, owner⟩ := Option.ne_none_iff_exists'.mp held
  have inside : s.inside p = true := (safe.exclusive p).mpr owner
  have late := staged.stopped.mp stop
  cases p with
  | worker w =>
    rw [ThreadPool.inside] at inside
    generalize here : s.workers w = phase at inside
    cases phase with
    | predicate =>
      have same := stuck.still (.pass s w here (.inl stop)) here (by simp)
      simp [goto] at same
    | block =>
      rw [(safe.blocked w here).1] at stop
      cases stop
    | front =>
      cases queue : s.tasks with
      | nil =>
        have same := stuck.still (.leave s w here ⟨stop, queue⟩) here (by simp)
        simp [goto] at same
      | cons job rest =>
        have same := stuck.still (.pop s w here job rest queue) here (by simp)
        simp [goto] at same
    | took job =>
      have same := stuck.still (.unlock s w job here) here (by simp)
      simp [goto] at same
    | running job call =>
      have at_ : s.inCall (.worker w) = some call := by simp [inCall, here]
      cases call with
      | emplace =>
        have same := stuck.still (.emplace s _ at_) here (by simp)
        simp [setCall, here] at same
      | unlock =>
        have same := stuck.still (.callUnlock s _ at_) here (by simp)
        simp [setCall, here] at same
      | lock | notify | returned => simp [WorkerPhase.inside, CallPhase.inside] at inside
    | lock | waiting | woken | ready | exited => simp [WorkerPhase.inside] at inside
  | caller c =>
    obtain ⟨call, found, within⟩ := (Option.any_eq_true _ _).mp inside
    have at_ : s.inCall (.caller c) = some call := found
    cases call with
    | emplace =>
      -- Outside calls have put their jobs in the queue before the destructor starts.
      have settled := safe.settled (safe.started stop) _ (List.mem_of_getElem? found)
      exact settled.2 rfl
    | unlock =>
      have same := (stuck _ _ (.callUnlock s _ at_)).same.1
      rw [owner] at same
      cases same
    | lock | notify | returned => cases within
  | destructor =>
    rw [ThreadPool.inside] at inside
    rcases late with here | here | ⟨i, here⟩
    · have same := (stuck _ _ (.destroyUnlock s here)).same.1
      rw [owner] at same
      cases same
    · simp [here, DestructorPhase.inside] at inside
    · simp [here, DestructorPhase.inside] at inside

/-- With the mutex free, whoever does not wait can go on until it exits. -/
theorem rests (safe : Safe s) (free : s.mu = none) (w : Fin n) :
    s.workers w = .waiting ∨ s.workers w = .exited := by
  have outside : (s.workers w).inside = false := by
    rw [Bool.eq_false_iff]
    intro inside
    have owner := (safe.exclusive (.worker w)).mp inside
    rw [free] at owner
    cases owner
  generalize here : s.workers w = phase at outside
  cases phase with
  | waiting => exact .inl rfl
  | exited => exact .inr rfl
  | lock =>
    have same := (stuck _ _ (.lock s w (.inl here) free)).same.1
    rw [free] at same
    cases same
  | woken =>
    have same := (stuck _ _ (.lock s w (.inr here) free)).same.1
    rw [free] at same
    cases same
  | ready job =>
    have same := stuck.still (.start s w job here) here (by simp)
    simp [goto] at same
  | running job call =>
    have at_ : s.inCall (.worker w) = some call := by simp [inCall, here]
    cases call with
    | lock =>
      have same := (stuck _ _ (.callLock s _ at_ free)).same.1
      rw [free] at same
      cases same
    | notify =>
      by_cases asleep : ∃ w', s.workers w' = .waiting
      · obtain ⟨w', waits⟩ := asleep
        have other : w ≠ w' := by
          rintro rfl
          rw [here] at waits
          cases waits
        have same := stuck.still (.notifyOne s _ at_ w' waits) here (by simp)
        simp [goto, other, setCall, here] at same
      · have same := stuck.still (.notifyNone s _ at_ (not_exists.mp asleep)) here (by simp)
        simp [setCall, here] at same
    | returned =>
      have same := stuck.still (.finish s w job here) here (by simp)
      simp [goto] at same
    | emplace | unlock => cases outside
  | predicate | block | front | took => cases outside

theorem joined (safe : Safe s) (staged : Staged s) (stop : s.stop = true) :
    s.destructor = .join n := by
  have free := stuck.free safe staged stop
  rcases staged.stopped.mp stop with here | here | ⟨i, here⟩
  · have same := (stuck _ _ (.destroyUnlock s here)).same.2.2.2
    rw [here] at same
    cases same
  · have same := (stuck _ _ (.notifyAll s here)).same.2.2.2
    rw [here] at same
    cases same
  · by_cases last : i = n
    · rw [here, last]
    · have below : i < n := lt_of_le_of_ne (staged.joined i here).1 last
      -- All have been notified, so the next worker to be joined has exited.
      have exited : s.workers ⟨i, below⟩ = .exited :=
        (stuck.rests safe free ⟨i, below⟩).resolve_left (staged.awake i here _)
      have same := (stuck _ _ (.join s ⟨i, below⟩ here exited)).same.2.2.2
      rw [here] at same
      simp at same

end Stuck

/-- After any run the pool is safe, and its jobs are accounted for. -/
theorem run_keeps {numThreads : ℕ} {history : History} {s : ThreadPool (workerCount numThreads)}
    (run : Run Steps (new numThreads) history s) : Safe s ∧ Staged s ∧ Accounts history s := by
  induction run with
  | refl => exact ⟨.new numThreads, staged_new numThreads, .new numThreads⟩
  | next _ taken ih =>
    obtain ⟨safe, staged, accounts⟩ := ih
    exact ⟨safe.step (workerCount_pos numThreads) taken, staged.step safe taken,
      accounts.step (step_effect taken)⟩

theorem sum_paid (trace : History) :
    (trace.map fun entry => entry.2.cost).sum = 13 * (enqueued trace).length := by
  induction trace with
  | nil => rfl
  | cons entry trace ih =>
    obtain ⟨_, note⟩ := entry
    rw [List.map_cons, List.sum_cons, ih]
    cases note with
    | enqueued job =>
      simp only [Note.cost, enqueued, List.filterMap_cons, List.length_cons]
      omega
    | silent | popped job | started job | finished job => exact Nat.zero_add _

/-- Once the stop flag is up, a run takes no more steps than the work that is left allows, and
thirteen more for each job that is put in the queue. Where nothing is left but waking up for no
reason, the destructor has joined every worker and every job has run. -/
theorem shutdown_completes (numThreads : ℕ) (history : History)
    (s : ThreadPool (workerCount numThreads)) (run : Run Steps (new numThreads) history s)
    (stop : s.stop = true) (trace : History) (t : ThreadPool (workerCount numThreads))
    (rest : Run Steps s trace t) :
    trace.length ≤ s.work + 13 * (enqueued trace).length ∧
      (t.Stuck → t.destructor = .join (workerCount numThreads) ∧ (∀ w, t.workers w = .exited) ∧
        t.tasks = [] ∧ ∀ job ∈ enqueued (history ++ trace), job ∈ finished (history ++ trace)) := by
  have reached := run_keeps run
  constructor
  · have bound := rest.length_le (fun s => Safe s ∧ Staged s ∧ s.stop = true) work
      (fun entry => entry.2.cost) ⟨reached.1, reached.2.1, stop⟩
      (fun inv taken => ⟨inv.1.step (workerCount_pos numThreads) taken,
        inv.2.1.step inv.1 taken, (step_orderly taken).stays inv.2.2⟩)
      (fun inv taken => step_work inv.1 inv.2.1 inv.2.2 taken)
    rw [sum_paid] at bound
    omega
  · intro stuck
    obtain ⟨safe, staged, accounts⟩ := run_keeps (run.append rest)
    have stopped : t.stop = true := rest.keeps (P := fun s => s.stop = true) stop
      fun _ stop taken => (step_orderly taken).stays stop
    have last := stuck.joined safe staged stopped
    have exited : ∀ w, t.workers w = .exited := fun w => (staged.joined _ last).2 w w.isLt
    refine ⟨last, exited, safe.drained exited, fun job member => ?_⟩
    rw [accounts.order, safe.drained exited, List.append_nil] at member
    apply (accounts.whole job member).resolve_right
    rintro ⟨w, begun, held⟩
    simp [hand, exited w, WorkerPhase.hand] at held

/-- A pool of one worker is destroyed with a job in its queue, which runs before the worker is
joined. -/
theorem shutdown_completes_queued :
    ∃ (history trace : History) (s t : ThreadPool (workerCount 1)),
      s.stop = true ∧ s.tasks = [0] ∧ finished trace = [0] ∧ t.destructor = .join 1 ∧
      trace.length ≤ s.work + 13 * (enqueued trace).length ∧
      (t.Stuck → t.destructor = .join (workerCount 1) ∧ (∀ w, t.workers w = .exited) ∧
        t.tasks = [] ∧ ∀ job ∈ enqueued (history ++ trace), job ∈ finished (history ++ trace)) := by
  let w : Fin (workerCount 1) := ⟨0, by decide⟩
  -- A call from outside puts a job in the queue, and then the destructor starts.
  have called : Run Steps (new 1) [((), .silent)] _ := .next (.refl _) (.call _ rfl)
  have locked := called.next (e := ()) (.callLock _ (.caller 0) rfl rfl)
  have queued := locked.next (e := ()) (.emplace _ (.caller 0) rfl)
  have unlocked := queued.next (e := ()) (.callUnlock _ (.caller 0) rfl)
  have returned := unlocked.next (e := ()) (.notifyNone _ (.caller 0) rfl (by simp [new, setCall]))
  have started := returned.next (e := ()) (.destroy _ rfl (by simp [new, setCall]))
  have stopping := started.next (e := ()) (.destroyLock _ rfl rfl)
  let s : ThreadPool (workerCount 1) :=
    ⟨some .destructor, [0], true, fun _ => .lock, [.returned], .unlock, 1⟩
  have stopped : Run Steps (new 1) _ s := stopping.next (e := ()) (.destroyStop _ rfl)
  -- The one worker runs the job, sees the flag, and is joined.
  have released : Run Steps s [((), .silent)] _ := .next (.refl s) (.destroyUnlock s rfl)
  have notified := released.next (e := ()) (.notifyAll _ rfl)
  have entered := notified.next (e := ()) (.lock _ w (.inl rfl) rfl)
  have passed := entered.next (e := ()) (.pass _ w rfl (.inl rfl))
  have popped := passed.next (e := ()) (.pop _ w rfl 0 [] rfl)
  have left := popped.next (e := ()) (.unlock _ w 0 rfl)
  have began := left.next (e := ()) (.start _ w 0 rfl)
  have ended := began.next (e := ()) (.finish _ w 0 rfl)
  have again := ended.next (e := ()) (.lock _ w (.inl rfl) rfl)
  have woken := again.next (e := ()) (.pass _ w rfl (.inl rfl))
  have exited := woken.next (e := ()) (.leave _ w rfl ⟨rfl, rfl⟩)
  have joined := exited.next (e := ()) (.join _ w rfl rfl)
  exact ⟨_, _, _, _, rfl, rfl, rfl, rfl, shutdown_completes 1 _ _ stopped rfl _ _ joined⟩

end ThreadPool

end RemoteCache
