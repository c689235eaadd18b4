import RemoteCache.Cache.ThreadPool
import RemoteCache.Lib.Transition

/-!
# No job is lost, repeated or stranded

## Main result

`jobs_run_once`: in every interleaving each job is in exactly one place and is
started at most once, jobs leave the queue in order, and a job in the queue has
somebody to run it.

## Proof strategy

Only the party that holds the mutex touches the queue and the stop flag, so what
a worker has seen of them is still true when it blocks, exits or pops. Workers
exit with the stop flag up and an empty queue; later jobs come from jobs that
still run, whose workers look at the queue again.
-/
namespace RemoteCache

/-- The call holds the mutex. -/
def CallPhase.inside : CallPhase → Bool
  | .emplace => true
  | .unlock => true
  | _ => false

def WorkerPhase.inside : WorkerPhase → Bool
  | .predicate => true
  | .block => true
  | .front => true
  | .took _ => true
  | .running _ call => call.inside
  | _ => false

def DestructorPhase.inside : DestructorPhase → Bool
  | .stop => true
  | .unlock => true
  | _ => false

/-- The job in a worker's hands, and whether it has been started. -/
def WorkerPhase.hand : WorkerPhase → Option (ℕ × Bool)
  | .took job => some (job, false)
  | .ready job => some (job, false)
  | .running job _ => some (job, true)
  | _ => none

namespace ThreadPool

variable {n : ℕ}

/-- The party holds the mutex. -/
def inside (s : ThreadPool n) : Party n → Bool
  | .worker w => (s.workers w).inside
  | .caller c => (s.callers[c]?).any CallPhase.inside
  | .destructor => s.destructor.inside

/-! ### Calls -/

/-- A call is that of a running job or one from outside. -/
theorem call_cases {s : ThreadPool n} {me : Party n} {call : CallPhase}
    (here : s.inCall me = some call) (next : CallPhase) :
    (∃ w job, me = .worker w ∧ s.workers w = .running job call ∧
      s.setCall me next = s.goto w (.running job next)) ∨
    (∃ c, me = .caller c ∧ s.callers[c]? = some call ∧
      s.setCall me next = { s with callers := s.callers.set c next }) := by
  have same : ∀ w, me ≠ .worker w → (s.setCall me next).workers w = s.workers w := by
    intro w other
    cases phase : s.workers w <;> simp [setCall, phase, other]
  cases me with
  | worker w =>
    refine .inl ?_
    cases phase : s.workers w <;> simp [inCall, phase] at here
    next job _ =>
      subst here
      refine ⟨w, job, rfl, phase, ?_⟩
      have workers : (s.setCall (.worker w) next).workers =
          Function.update s.workers w (.running job next) := by
        funext w'
        by_cases own : w' = w
        · subst own
          simp [setCall, phase]
        · rw [same w' (by simpa using Ne.symm own), Function.update_of_ne own]
      rw [goto, ← workers]
      rfl
  | caller c =>
    refine .inr ⟨c, rfl, here, ?_⟩
    have workers : (s.setCall (.caller c) next).workers = s.workers :=
      funext fun w => same w (by simp)
    calc s.setCall (.caller c) next
        = { s with callers := s.callers.set c next
                   workers := (s.setCall (.caller c) next).workers } := rfl
      _ = _ := by rw [workers]
  | destructor => simp [inCall] at here

/-! ### Turns -/

/-- What a step makes of the mutex: one party takes it, or gives it back, or neither; and
only a party that is inside touches the queue and the stop flag. -/
structure Turn (me : Party n) (s s' : ThreadPool n) : Prop where
  others : ∀ p, p ≠ me → s'.inside p = s.inside p
  mutex : (s.mu = none ∧ s'.mu = some me ∧ s'.inside me = true) ∨
    (s.inside me = true ∧ s'.mu = none ∧ s'.inside me = false) ∨
    (s'.mu = s.mu ∧ s'.inside me = s.inside me)
  guarded : (s'.tasks = s.tasks ∧ s'.stop = s.stop) ∨ (s.inside me = true ∧
    ∀ w, me = .worker w → s'.workers w ≠ .block ∧ s'.workers w ≠ .front)

theorem Turn.exclusive {me : Party n} {s s' : ThreadPool n} (turn : Turn me s s')
    (exclusive : Exclusive s.mu fun p => s.inside p = true) :
    Exclusive s'.mu fun p => s'.inside p = true :=
  Exclusive.turn exclusive me (fun p other => by rw [turn.others p other])
    (turn.mutex.imp_right <| .imp (fun left => ⟨left.1, left.2.1, by simp [left.2.2]⟩)
      fun kept => ⟨kept.1, by rw [kept.2]⟩)

section turns

variable (s : ThreadPool n) (w : Fin n) (phase : WorkerPhase) (mu : Option (Party n))
  (tasks : List ℕ) (made : ℕ)

/-- A worker moves on. -/
theorem turn_goto
    (mutex : (s.mu = none ∧ mu = some (.worker w) ∧ phase.inside = true) ∨
      ((s.workers w).inside = true ∧ mu = none ∧ phase.inside = false) ∨
      (mu = s.mu ∧ phase.inside = (s.workers w).inside))
    (guarded : tasks = s.tasks ∨
      ((s.workers w).inside = true ∧ phase ≠ .block ∧ phase ≠ .front)) :
    Turn (.worker w) s { s.goto w phase with mu, tasks, made } := by
  have self : ({ s.goto w phase with mu, tasks, made } : ThreadPool n).inside (.worker w) =
      phase.inside := by simp [inside, goto]
  refine ⟨fun p other => ?_, self ▸ mutex, ?_⟩
  · cases p with
    | worker w' =>
      have apart : w' ≠ w := fun same => other (by rw [same])
      simp [inside, goto, apart]
    | caller c => rfl
    | destructor => rfl
  · refine guarded.imp (fun same => ⟨same, rfl⟩) fun ⟨held, away⟩ => ⟨held, ?_⟩
    rintro _ ⟨⟩
    simpa [goto] using away

/-- A call of `enqueue` moves on. -/
theorem turn_call {me : Party n} {call : CallPhase} (here : s.inCall me = some call)
    (next : CallPhase)
    (mutex : (s.mu = none ∧ mu = some me ∧ next.inside = true) ∨
      (call.inside = true ∧ mu = none ∧ next.inside = false) ∨
      (mu = s.mu ∧ next.inside = call.inside))
    (guarded : tasks = s.tasks ∨ call.inside = true) :
    Turn me s { s.setCall me next with mu, tasks, made } := by
  rcases call_cases here next with ⟨w, job, rfl, phase, eq⟩ | ⟨c, rfl, phase, eq⟩
  · rw [eq]
    exact turn_goto s w (.running job next) mu tasks made (by rw [phase]; exact mutex)
      (by rw [phase]; exact guarded.imp_right fun held => ⟨held, by simp, by simp⟩)
  · have inside : s.inside (.caller c) = call.inside := by simp [ThreadPool.inside, phase]
    have self : ({ s with callers := s.callers.set c next, mu, tasks, made } :
        ThreadPool n).inside (.caller c) = next.inside := by
      simp [ThreadPool.inside, (List.getElem?_eq_some_iff.mp phase).1]
    rw [eq]
    refine ⟨fun p other => ?_, by simpa only [self, inside] using mutex, ?_⟩
    · cases p with
      | worker w' => rfl
      | caller c' =>
        have apart : c ≠ c' := fun same => other (by rw [same])
        simp [ThreadPool.inside, apart]
      | destructor => rfl
    · refine guarded.imp (fun same => ⟨same, rfl⟩) fun held => ⟨by rw [inside, held], ?_⟩
      rintro _ ⟨⟩

/-- A waiting worker may be woken along the way. -/
theorem Turn.wake {s s' : ThreadPool n} {me : Party n} (turn : Turn me s s') {w : Fin n}
    (waits : s'.workers w = .waiting) : Turn me s (s'.goto w .woken) := by
  have same : ∀ p, (s'.goto w .woken).inside p = s'.inside p := by
    intro p
    cases p with
    | worker w' =>
      by_cases woken : w' = w
      · subst woken
        simp [inside, goto, waits, WorkerPhase.inside]
      · simp [inside, goto, woken]
    | caller c => rfl
    | destructor => rfl
  refine ⟨fun p other => by rw [same, turn.others p other], by rw [same]; exact turn.mutex,
    turn.guarded.imp_right fun ⟨held, away⟩ => ⟨held, fun w' own => ?_⟩⟩
  by_cases woken : w' = w
  · subst woken
    simp [goto]
  · simpa [goto, woken] using away w' own

/-- The destructor moves on. -/
theorem turn_destructor (next : DestructorPhase) (stop : Bool)
    (mutex : (s.mu = none ∧ mu = some .destructor ∧ next.inside = true) ∨
      (s.destructor.inside = true ∧ mu = none ∧ next.inside = false) ∨
      (mu = s.mu ∧ next.inside = s.destructor.inside))
    (guarded : stop = s.stop ∨ s.destructor.inside = true) :
    Turn .destructor s { s with destructor := next, mu, stop } := by
  refine ⟨fun p other => ?_, mutex, guarded.imp (fun same => ⟨rfl, same⟩) fun held => ⟨held, ?_⟩⟩
  · cases p with
    | worker w' => rfl
    | caller c => rfl
    | destructor => exact absurd rfl other
  · rintro _ ⟨⟩

end turns

theorem step_turn {s s' : ThreadPool n} {note : Note} (step : Step s note s') :
    ∃ me, Turn me s s' := by
  cases step with
  | lock w top free =>
    exact ⟨_, turn_goto s w .predicate _ _ _ (.inl ⟨free, rfl, rfl⟩) (.inl rfl)⟩
  -- Moves of a worker: it takes the lock, keeps it, or gives it up.
  | pass w here _ =>
    exact ⟨_, turn_goto s w .front _ _ _ (.inr (.inr ⟨rfl, by rw [here]; rfl⟩)) (.inl rfl)⟩
  | fail w here _ =>
    exact ⟨_, turn_goto s w .block _ _ _ (.inr (.inr ⟨rfl, by rw [here]; rfl⟩)) (.inl rfl)⟩
  | block w here =>
    exact ⟨_, turn_goto s w .waiting _ _ _ (.inr (.inl ⟨by rw [here]; rfl, rfl, rfl⟩)) (.inl rfl)⟩
  | spurious w here =>
    exact ⟨_, turn_goto s w .woken _ _ _ (.inr (.inr ⟨rfl, by rw [here]; rfl⟩)) (.inl rfl)⟩
  | leave w here _ =>
    exact ⟨_, turn_goto s w .exited _ _ _ (.inr (.inl ⟨by rw [here]; rfl, rfl, rfl⟩)) (.inl rfl)⟩
  | pop w here job rest _ =>
    exact ⟨_, turn_goto s w (.took job) _ _ _ (.inr (.inr ⟨rfl, by rw [here]; rfl⟩))
      (.inr ⟨by rw [here]; rfl, by simp, by simp⟩)⟩
  | unlock w job here =>
    exact ⟨_, turn_goto s w (.ready job) _ _ _ (.inr (.inl ⟨by rw [here]; rfl, rfl, rfl⟩))
      (.inl rfl)⟩
  | start w job here =>
    exact ⟨_, turn_goto s w (.running job .returned) _ _ _
      (.inr (.inr ⟨rfl, by rw [here]; rfl⟩)) (.inl rfl)⟩
  | finish w job here =>
    exact ⟨_, turn_goto s w .lock _ _ _ (.inr (.inr ⟨rfl, by rw [here]; rfl⟩)) (.inl rfl)⟩
  | submit w job here =>
    exact ⟨_, turn_goto s w (.running job .lock) _ _ _ (.inr (.inr ⟨rfl, by rw [here]; rfl⟩))
      (.inl rfl)⟩
  | call early =>
    -- The new call is the party that moves; it holds nothing yet.
    refine ⟨.caller s.callers.length, fun p other => ?_, .inr (.inr ⟨rfl, ?_⟩), .inl ⟨rfl, rfl⟩⟩
    · cases p with
      | worker w => rfl
      | caller c =>
        have apart : c ≠ s.callers.length := fun same => other (by rw [same])
        rcases Nat.lt_or_gt_of_ne apart with old | past
        · simp [inside, List.getElem?_append_left old]
        · simp [inside, List.getElem?_eq_none (show s.callers.length ≤ c by omega),
            List.getElem?_eq_none (show (s.callers ++ [CallPhase.lock]).length ≤ c by
              rw [List.length_append, List.length_singleton]; omega)]
      | destructor => rfl
    · simp [inside, CallPhase.inside]
  -- Moves of a call, which holds the lock while it puts its job in the queue.
  | callLock me here free =>
    exact ⟨me, turn_call s _ _ _ here .emplace (.inl ⟨free, rfl, rfl⟩) (.inl rfl)⟩
  | emplace me here =>
    exact ⟨me, turn_call s _ _ _ here .unlock (.inr (.inr ⟨rfl, rfl⟩)) (.inr rfl)⟩
  | callUnlock me here =>
    exact ⟨me, turn_call s _ _ _ here .notify (.inr (.inl ⟨rfl, rfl, rfl⟩)) (.inl rfl)⟩
  | notifyOne me here w waits =>
    exact ⟨me, (turn_call s s.mu s.tasks s.made here .returned (.inr (.inr ⟨rfl, rfl⟩))
      (.inl rfl)).wake (by simp [setCall, waits])⟩
  | notifyNone me here none =>
    exact ⟨me, turn_call s _ _ _ here .returned (.inr (.inr ⟨rfl, rfl⟩)) (.inl rfl)⟩
  | destroy here _ =>
    exact ⟨_, turn_destructor s _ .lock _ (.inr (.inr ⟨rfl, by rw [here]; rfl⟩)) (.inl rfl)⟩
  -- The flag goes up under the lock; the notification comes after it.
  | destroyLock here free =>
    exact ⟨_, turn_destructor s _ .stop _ (.inl ⟨free, rfl, rfl⟩) (.inl rfl)⟩
  | destroyStop here =>
    exact ⟨_, turn_destructor s _ .unlock _ (.inr (.inr ⟨rfl, by rw [here]; rfl⟩))
      (.inr (by rw [here]; rfl))⟩
  | destroyUnlock here =>
    exact ⟨_, turn_destructor s _ .notify _ (.inr (.inl ⟨by rw [here]; rfl, rfl, rfl⟩)) (.inl rfl)⟩
  -- Waking up takes nobody into the critical section or out of it.
  | notifyAll here =>
    refine ⟨.destructor, fun p other => ?_, .inr (.inr ⟨rfl, by simp [inside, here]; rfl⟩),
      .inl ⟨rfl, rfl⟩⟩
    cases p with
    | worker w =>
      by_cases waits : s.workers w = .waiting
      · simp [inside, waits, WorkerPhase.inside]
      · simp [inside, waits]
    | caller c => rfl
    | destructor => exact absurd rfl other
  | join i here exited =>
    exact ⟨_, turn_destructor s _ (.join (i + 1)) _ (.inr (.inr ⟨rfl, by rw [here]; rfl⟩))
      (.inl rfl)⟩

/-! ### Moves -/

/-- How a worker's phase may change in a step, and what the step has seen then. -/
inductive WorkerMove (s s' : ThreadPool n) : WorkerPhase → WorkerPhase → Prop where
  | stay (phase : WorkerPhase) : WorkerMove s s' phase phase
  | wake : WorkerMove s s' .waiting .woken
  | lock (phase : WorkerPhase) (top : phase = .lock ∨ phase = .woken) :
      WorkerMove s s' phase .predicate
  | pass (ready : s.stop = true ∨ s.tasks ≠ []) (same : s'.tasks = s.tasks ∧ s'.stop = s.stop) :
      WorkerMove s s' .predicate .front
  | fail (idle : s.stop = false ∧ s.tasks = []) (same : s'.tasks = s.tasks ∧ s'.stop = s.stop) :
      WorkerMove s s' .predicate .block
  | sleep : WorkerMove s s' .block .waiting
  | leave (done : s.stop = true ∧ s.tasks = []) (same : s'.tasks = s.tasks ∧ s'.stop = s.stop) :
      WorkerMove s s' .front .exited
  | pop (job : ℕ) : WorkerMove s s' .front (.took job)
  | unlock (job : ℕ) : WorkerMove s s' (.took job) (.ready job)
  | start (job : ℕ) : WorkerMove s s' (.ready job) (.running job .returned)
  | finish (job : ℕ) : WorkerMove s s' (.running job .returned) .lock
  | call (job : ℕ) (call next : CallPhase) :
      WorkerMove s s' (.running job call) (.running job next)

theorem goto_moves {s s' : ThreadPool n} (w : Fin n) {before after : WorkerPhase}
    (here : s.workers w = before) (own : WorkerMove s s' before after)
    (workers : s'.workers = Function.update s.workers w after) (w' : Fin n) :
    WorkerMove s s' (s.workers w') (s'.workers w') := by
  rw [workers]
  by_cases same : w' = w
  · subst same
    rw [here, Function.update_self]
    exact own
  · rw [Function.update_of_ne same]
    exact .stay _

theorem call_moves {s s' : ThreadPool n} (me : Party n) (next : CallPhase)
    (w : Fin n) : WorkerMove s s' (s.workers w) ((s.setCall me next).workers w) := by
  cases phase : s.workers w <;> simp only [setCall, phase] <;> constructor

theorem step_workers {s s' : ThreadPool n} {note : Note} (step : Step s note s') (w : Fin n) :
    WorkerMove s s' (s.workers w) (s'.workers w) := by
  cases step with
  | lock w' top free => exact goto_moves w' rfl (.lock _ top) rfl w
  | pass w' here ready => exact goto_moves w' here (.pass ready (by exact ⟨rfl, rfl⟩)) rfl w
  | fail w' here idle => exact goto_moves w' here (.fail idle (by exact ⟨rfl, rfl⟩)) rfl w
  | block w' here => exact goto_moves w' here .sleep rfl w
  | spurious w' here => exact goto_moves w' here .wake rfl w
  | leave w' here done => exact goto_moves w' here (.leave done (by exact ⟨rfl, rfl⟩)) rfl w
  | pop w' here job rest first => exact goto_moves w' here (.pop job) rfl w
  | unlock w' job here => exact goto_moves w' here (.unlock job) rfl w
  | start w' job here => exact goto_moves w' here (.start job) rfl w
  | finish w' job here => exact goto_moves w' here (.finish job) rfl w
  | submit w' job here => exact goto_moves w' here (.call job _ _) rfl w
  | callLock me | emplace me | callUnlock me | notifyNone me => exact call_moves me _ w
  | notifyOne me here w' waits =>
    by_cases same : w = w'
    · subst same
      simpa [goto, waits] using .wake
    · have moved : WorkerMove s ((s.setCall me .returned).goto w' .woken) (s.workers w)
          ((s.setCall me .returned).workers w) := call_moves me .returned w
      simpa [goto, same] using moved
  | notifyAll here =>
    by_cases waits : s.workers w = .waiting
    · simpa [waits] using .wake
    · simpa [waits] using .stay _
  | call | destroy | destroyLock | destroyStop | destroyUnlock | join => exact .stay _

/-- What the parties outside the pool do in a step: nobody calls `enqueue` from outside once the
destructor has started, and the stop flag stays up. -/
structure Orderly (s s' : ThreadPool n) : Prop where
  stays : s.stop = true → s'.stop = true
  marks : s'.stop = true → s.stop = true ∨ s'.destructor ≠ .alive
  late : s.destructor ≠ .alive → s'.destructor ≠ .alive
  settled : (s.destructor ≠ .alive → ∀ call ∈ s.callers, call ≠ .lock ∧ call ≠ .emplace) →
    s'.destructor ≠ .alive → ∀ call ∈ s'.callers, call ≠ .lock ∧ call ≠ .emplace

theorem orderly_same {s s' : ThreadPool n} (stop : s'.stop = s.stop)
    (callers : s'.callers = s.callers) (destructor : s'.destructor = s.destructor) :
    Orderly s s' := by
  refine ⟨by rw [stop]; exact id, by rw [stop]; exact .inl, by rw [destructor]; exact id, ?_⟩
  rw [callers, destructor]
  exact id

theorem orderly_call {s s' : ThreadPool n} {me : Party n} {call next : CallPhase}
    (here : s.inCall me = some call)
    (onward : call ≠ .lock ∧ call ≠ .emplace → next ≠ .lock ∧ next ≠ .emplace)
    (stop : s'.stop = s.stop) (callers : s'.callers = (s.setCall me next).callers)
    (destructor : s'.destructor = s.destructor) : Orderly s s' := by
  refine ⟨by rw [stop]; exact id, by rw [stop]; exact .inl, by rw [destructor]; exact id, ?_⟩
  rw [callers, destructor]
  intro settled started other member
  rcases call_cases here next with ⟨w, job, rfl, _, _⟩ | ⟨c, rfl, found, _⟩
  · exact settled started other member
  · rcases List.mem_or_eq_of_mem_set member with old | rfl
    · exact settled started other old
    · exact onward (settled started call (List.mem_of_getElem? found))

theorem orderly_destructor {s s' : ThreadPool n} (stays : s.stop = true → s'.stop = true)
    (started : s'.destructor ≠ .alive) (callers : s'.callers = s.callers)
    (quiet : s.destructor = .alive → ∀ call ∈ s.callers, call ≠ .lock ∧ call ≠ .emplace) :
    Orderly s s' := by
  refine ⟨stays, fun _ => .inr started, fun _ => started, fun settled _ => ?_⟩
  rw [callers]
  by_cases alive : s.destructor = .alive
  · exact quiet alive
  · exact settled alive

theorem step_orderly {s s' : ThreadPool n} {note : Note} (step : Step s note s') :
    Orderly s s' := by
  cases step with
  | lock | pass | fail | block | spurious | leave | pop | unlock | start | finish | submit =>
    exact orderly_same rfl rfl rfl
  | call early =>
    exact ⟨id, .inl, fun late => absurd early late, fun _ late => absurd early late⟩
  | callLock me here => exact orderly_call here (fun past => absurd rfl past.1) rfl rfl rfl
  | emplace me here => exact orderly_call here (fun past => absurd rfl past.2) rfl rfl rfl
  | callUnlock me here => exact orderly_call here (fun _ => ⟨by simp, by simp⟩) rfl rfl rfl
  | notifyOne me here | notifyNone me here =>
    exact orderly_call here (fun _ => ⟨by simp, by simp⟩) rfl rfl rfl
  | destroy here quiet => exact orderly_destructor id (by simp) rfl fun _ => quiet
  | destroyStop here => exact orderly_destructor (fun _ => rfl) (by simp) rfl (by simp [here])
  | destroyLock here | destroyUnlock here | notifyAll here | join i here =>
    exact orderly_destructor id (by simp) rfl (by simp [here])

/-! ### Jobs -/

def hand (s : ThreadPool n) (w : Fin n) : Option (ℕ × Bool) := (s.workers w).hand

/-- What a step does to the jobs, as its note says. -/
inductive Effect (s s' : ThreadPool n) : Note → Prop where
  | silent (tasks : s'.tasks = s.tasks) (made : s'.made = s.made) (hands : s'.hand = s.hand) :
      Effect s s' .silent
  | enqueued (tasks : s'.tasks = s.tasks ++ [s.made]) (made : s'.made = s.made + 1)
      (hands : s'.hand = s.hand) (caller : (∃ w job, s'.workers w = .running job .unlock) ∨
        (.emplace ∈ s.callers ∧ .unlock ∈ s'.callers)) : Effect s s' (.enqueued s.made)
  | popped (w : Fin n) (job : ℕ) (tasks : s.tasks = job :: s'.tasks) (made : s'.made = s.made)
      (before : s.hand w = none)
      (hands : s'.hand = Function.update s.hand w (some (job, false))) : Effect s s' (.popped job)
  | started (w : Fin n) (job : ℕ) (tasks : s'.tasks = s.tasks) (made : s'.made = s.made)
      (before : s.hand w = some (job, false))
      (hands : s'.hand = Function.update s.hand w (some (job, true))) : Effect s s' (.started job)
  | finished (w : Fin n) (job : ℕ) (tasks : s'.tasks = s.tasks) (made : s'.made = s.made)
      (before : s.hand w = some (job, true))
      (hands : s'.hand = Function.update s.hand w none) : Effect s s' (.finished job)

theorem hand_update {s s' : ThreadPool n} {w : Fin n} {phase : WorkerPhase}
    {held : Option (ℕ × Bool)} (workers : s'.workers = Function.update s.workers w phase)
    (own : phase.hand = held) : s'.hand = Function.update s.hand w held := by
  subst own
  funext w'
  simp only [hand, workers]
  by_cases same : w' = w
  · subst same
    simp
  · simp [same, hand]

/-- A worker that moves on with the same in its hands. -/
theorem hand_same {s s' : ThreadPool n} {w : Fin n} {before after : WorkerPhase}
    (here : s.workers w = before) (workers : s'.workers = Function.update s.workers w after)
    (same : after.hand = before.hand) : s'.hand = s.hand := by
  rw [hand_update workers same, ← here]
  exact Function.update_eq_self w s.hand

theorem hand_call (s : ThreadPool n) (me : Party n) (next : CallPhase) :
    (s.setCall me next).hand = s.hand := by
  funext w
  simp only [hand]
  cases phase : s.workers w <;> simp [setCall, phase, WorkerPhase.hand]

theorem step_effect {s s' : ThreadPool n} {note : Note} (step : Step s note s') :
    Effect s s' note := by
  cases step with
  | lock w top free =>
    refine .silent rfl rfl (hand_same rfl rfl ?_)
    rcases top with top | top <;> rw [top] <;> rfl
  | pass w here | fail w here | block w here | spurious w here | leave w here =>
    exact .silent rfl rfl (hand_same here rfl rfl)
  | unlock w job here | submit w job here => exact .silent rfl rfl (hand_same here rfl rfl)
  | pop w here job rest first =>
    exact .popped w job first rfl (by rw [hand, here]; rfl) (hand_update rfl rfl)
  | start w job here =>
    exact .started w job rfl rfl (by rw [hand, here]; rfl) (hand_update rfl rfl)
  | finish w job here =>
    exact .finished w job rfl rfl (by rw [hand, here]; rfl) (hand_update rfl rfl)
  | callLock me | callUnlock me | notifyNone me => exact .silent rfl rfl (hand_call s me _)
  | emplace me here =>
    refine .enqueued rfl rfl (hand_call s me _) ?_
    -- The caller is left after the `emplace`, with its notification to come.
    rcases call_cases here .unlock with ⟨w, job, rfl, _, eq⟩ | ⟨c, rfl, found, eq⟩ <;> rw [eq]
    · exact .inl ⟨w, job, by simp [goto]⟩
    · refine .inr ⟨List.mem_of_getElem? found, List.mem_iff_getElem?.mpr ⟨c, ?_⟩⟩
      simp [(List.getElem?_eq_some_iff.mp found).1]
  | notifyOne me here w waits =>
    have waiting : (s.setCall me .returned).workers w = .waiting := by simp [setCall, waits]
    have woken : ((s.setCall me .returned).goto w .woken).hand = (s.setCall me .returned).hand :=
      hand_same waiting rfl rfl
    exact .silent rfl rfl (woken.trans (hand_call s me .returned))
  | notifyAll here =>
    refine .silent rfl rfl (funext fun w => ?_)
    by_cases waits : s.workers w = .waiting
    · simp [hand, waits, WorkerPhase.hand]
    · simp [hand, waits]
  | call | destroy | destroyLock | destroyStop | destroyUnlock | join => exact .silent rfl rfl rfl

/-- A notification that is due stays due, or wakes a worker, or finds nobody waiting. -/
theorem step_due {s s' : ThreadPool n} {note : Note} (step : Step s note s')
    (due : ∃ call ∈ s.callers, call = .unlock ∨ call = .notify) :
    (∃ call ∈ s'.callers, call = .unlock ∨ call = .notify) ∨ (∃ w, s'.workers w = .woken) ∨
      ∀ w, s.workers w ≠ .waiting := by
  obtain ⟨call, member, phase⟩ := id due
  -- A call of another party, or this one a step on.
  have others : ∀ (me : Party n) (here next : CallPhase), s.inCall me = some here →
      (here = call → next = .unlock ∨ next = .notify) →
      ∃ call ∈ (s.setCall me next).callers, call = .unlock ∨ call = .notify := by
    intro me here next now onward
    rcases call_cases now next with ⟨w, job, rfl, _, _⟩ | ⟨c, rfl, found, _⟩
    · exact due
    · obtain ⟨c', at_⟩ := List.mem_iff_getElem?.mp member
      by_cases same : c = c'
      · subst same
        rw [found] at at_
        refine ⟨next, List.mem_iff_getElem?.mpr ⟨c, ?_⟩, onward (Option.some.inj at_)⟩
        simp [setCall, (List.getElem?_eq_some_iff.mp found).1]
      · refine ⟨call, List.mem_iff_getElem?.mpr ⟨c', ?_⟩, phase⟩
        simpa [setCall, same] using at_
  cases step with
  | lock | pass | fail | block | spurious | leave | pop | unlock | start | finish | submit =>
    exact .inl due
  | call early => exact .inl ⟨call, List.mem_append_left _ member, phase⟩
  | callLock me here =>
    exact .inl (others me _ _ here fun same => by rw [← same] at phase; simp at phase)
  | emplace me here => exact .inl (others me _ _ here fun _ => .inl rfl)
  | callUnlock me here => exact .inl (others me _ _ here fun _ => .inr rfl)
  | notifyOne me here w waits => exact .inr (.inl ⟨w, by simp [goto]⟩)
  | notifyNone me here none => exact .inr (.inr none)
  | destroy | destroyLock | destroyStop | destroyUnlock | notifyAll | join => exact .inl due

/-! ### Safety -/

/-- Neither waiting nor exited. -/
def Active (phase : WorkerPhase) : Prop := phase ≠ .waiting ∧ phase ≠ .exited

/-- A call from outside has put its job in the queue and has yet to notify. -/
def Due (s : ThreadPool n) : Prop := ∃ call ∈ s.callers, call = .unlock ∨ call = .notify

structure Safe (s : ThreadPool n) : Prop where
  exclusive : Exclusive s.mu fun p => s.inside p = true
  blocked : ∀ w, s.workers w = .block → s.stop = false ∧ s.tasks = []
  ready : ∀ w, s.workers w = .front → s.stop = true ∨ s.tasks ≠ []
  stopped : ∀ w, s.workers w = .exited → s.stop = true
  started : s.stop = true → s.destructor ≠ .alive
  settled : s.destructor ≠ .alive → ∀ call ∈ s.callers, call ≠ .lock ∧ call ≠ .emplace
  drained : (∀ w, s.workers w = .exited) → s.tasks = []
  served : s.tasks ≠ [] → (∃ w, Active (s.workers w)) ∨ s.Due

namespace Safe

variable {s s' : ThreadPool n} {note : Note}

/-- While a worker that holds the mutex stays where it is, the queue and the flag stay as well. -/
theorem still (safe : Safe s) (step : Step s note s') {w : Fin n}
    (inside : (s.workers w).inside = true)
    (stays : s'.workers w = .block ∨ s'.workers w = .front) :
    s'.tasks = s.tasks ∧ s'.stop = s.stop := by
  obtain ⟨me, turn⟩ := step_turn step
  apply turn.guarded.resolve_right
  rintro ⟨held, away⟩
  have own : me = .worker w := safe.exclusive.alone held inside
  rcases stays with block | front
  · exact (away w own).1 block
  · exact (away w own).2 front

theorem blocked_step (safe : Safe s) (step : Step s note s') {w : Fin n}
    (here : s'.workers w = .block) : s'.stop = false ∧ s'.tasks = [] := by
  have move := step_workers step w
  rw [here] at move
  generalize before : s.workers w = phase at move
  cases move with
  -- Nobody else had the lock meanwhile; or the worker has just looked.
  | stay =>
    obtain ⟨tasks, stop⟩ := safe.still step (by rw [before]; rfl) (.inl here)
    rw [tasks, stop]
    exact safe.blocked w before
  | fail idle same =>
    rw [same.1, same.2]
    exact idle

theorem ready_step (safe : Safe s) (step : Step s note s') {w : Fin n}
    (here : s'.workers w = .front) : s'.stop = true ∨ s'.tasks ≠ [] := by
  have move := step_workers step w
  rw [here] at move
  generalize before : s.workers w = phase at move
  cases move with
  | stay =>
    obtain ⟨tasks, stop⟩ := safe.still step (by rw [before]; rfl) (.inr here)
    rw [tasks, stop]
    exact safe.ready w before
  | pass ready same =>
    rw [same.1, same.2]
    exact ready

theorem stopped_step (safe : Safe s) (step : Step s note s') {w : Fin n}
    (here : s'.workers w = .exited) : s'.stop = true := by
  have move := step_workers step w
  rw [here] at move
  generalize before : s.workers w = phase at move
  cases move with
  | stay => exact (step_orderly step).stays (safe.stopped w before)
  | leave done same =>
    rw [same.2]
    exact done.1

/-- No worker falls asleep or exits while there is a job in the queue. -/
theorem active_step (safe : Safe s) (step : Step s note s') (some : s.tasks ≠ []) {w : Fin n}
    (active : Active (s.workers w)) : Active (s'.workers w) := by
  have move := step_workers step w
  generalize before : s.workers w = phase at move active
  generalize s'.workers w = phase' at move
  cases move with
  | stay => exact active
  -- What a worker saw before it blocks or leaves is still true.
  | sleep => exact absurd (safe.blocked w before).2 some
  | leave done => exact absurd done.2 some
  | _ => exact ⟨by simp, by simp⟩

theorem drained_step (positive : 0 < n) (safe : Safe s) (step : Step s note s')
    (all : ∀ w, s'.workers w = .exited) : s'.tasks = [] := by
  -- Each worker had exited before or exits now, having seen an empty queue.
  have moves : ∀ w, s.workers w = .exited ∨ (s.stop = true ∧ s.tasks = []) := by
    intro w
    have move := step_workers step w
    rw [all w] at move
    generalize s.workers w = phase at move
    cases move with
    | stay => exact .inl rfl
    | leave done => exact .inr done
  have empty : s.tasks = [] := by
    by_cases gone : ∀ w, s.workers w = .exited
    · exact safe.drained gone
    · obtain ⟨w, there⟩ := not_forall.mp gone
      exact ((moves w).resolve_left there).2
  have stop : s.stop = true := (moves ⟨0, positive⟩).elim (safe.stopped _) And.left
  have hands : ∀ w, s'.hand w = none := fun w => by rw [hand, all w]; rfl
  cases step_effect step with
  | silent tasks => rw [tasks, empty]
  | enqueued _ _ _ caller =>
    -- The destructor has started, and no running job is left.
    rcases caller with ⟨w, job, running⟩ | ⟨outside, _⟩
    · rw [all w] at running
      cases running
    · exact absurd rfl (safe.settled (safe.started stop) _ outside).2
  | popped w job tasks => rw [empty] at tasks; cases tasks
  | started w job tasks => rw [tasks, empty]
  | finished w job tasks => rw [tasks, empty]

theorem served_step (safe : Safe s) (step : Step s note s') (some : s'.tasks ≠ []) :
    (∃ w, Active (s'.workers w)) ∨ s'.Due := by
  -- With the queue as it was, the worker or the notification is still there.
  have waits : s'.tasks = s.tasks → (∃ w, Active (s'.workers w)) ∨ s'.Due := by
    intro same
    rw [same] at some
    rcases safe.served some with ⟨w, active⟩ | due
    · exact .inl ⟨w, safe.active_step step some active⟩
    · rcases step_due step due with still | ⟨w, woken⟩ | none
      · exact .inr still
      · exact .inl ⟨w, by simp [Active, woken]⟩
      -- The notification finds nobody waiting, so a worker that has not exited is up.
      · have left : ¬∀ w, s.workers w = .exited := fun all => some (safe.drained all)
        obtain ⟨w, there⟩ := not_forall.mp left
        exact .inl ⟨w, safe.active_step step some ⟨none w, there⟩⟩
  cases step_effect step with
  | silent tasks => exact waits tasks
  | enqueued _ _ _ caller =>
    rcases caller with ⟨w, job, running⟩ | ⟨_, outside⟩
    · exact .inl ⟨w, by simp [Active, running]⟩
    · exact .inr ⟨_, outside, .inl rfl⟩
  | popped w job _ _ _ hands =>
    have holds : s'.hand w = Option.some (job, false) := by simp [hands]
    refine .inl ⟨w, fun waiting => ?_, fun exited => ?_⟩
    · simp [hand, waiting, WorkerPhase.hand] at holds
    · simp [hand, exited, WorkerPhase.hand] at holds
  | started w job tasks => exact waits tasks
  | finished w job tasks => exact waits tasks

theorem new (numThreads : ℕ) : Safe (ThreadPool.new numThreads) := by
  refine ⟨fun p => ?_, by simp [ThreadPool.new], by simp [ThreadPool.new], by simp [ThreadPool.new],
    by simp [ThreadPool.new], by simp [ThreadPool.new], fun _ => rfl, by simp [ThreadPool.new]⟩
  cases p <;> simp [ThreadPool.new, inside, WorkerPhase.inside, DestructorPhase.inside]

theorem step (positive : 0 < n) (safe : Safe s) (step : Step s note s') : Safe s' := by
  have orderly := step_orderly step
  obtain ⟨me, turn⟩ := step_turn step
  exact {
    exclusive := turn.exclusive safe.exclusive
    blocked := fun _ => safe.blocked_step step
    ready := fun _ => safe.ready_step step
    stopped := fun _ => safe.stopped_step step
    started := fun stop => (orderly.marks stop).elim (orderly.late ∘ safe.started) id
    settled := orderly.settled safe.settled
    drained := safe.drained_step positive step
    served := safe.served_step step }

end Safe

/-! ### Histories -/

/-- The schedule is not recorded, only what happens to the jobs. -/
abbrev History := List (Unit × Note)

def Steps (s : ThreadPool n) (_ : Unit) (note : Note) (s' : ThreadPool n) : Prop := Step s note s'

/-- The jobs put in the queue, in order. -/
def enqueued (history : History) : List ℕ :=
  history.filterMap fun entry =>
    match entry.2 with
    | .enqueued job => some job
    | _ => none

def popped (history : History) : List ℕ :=
  history.filterMap fun entry =>
    match entry.2 with
    | .popped job => some job
    | _ => none

def started (history : History) : List ℕ :=
  history.filterMap fun entry =>
    match entry.2 with
    | .started job => some job
    | _ => none

def finished (history : History) : List ℕ :=
  history.filterMap fun entry =>
    match entry.2 with
    | .finished job => some job
    | _ => none

/-- The places of the jobs, and the order in which they got there. -/
structure Accounts (history : History) (s : ThreadPool n) : Prop where
  named : enqueued history = List.range s.made
  order : enqueued history = popped history ++ s.tasks
  held : ∀ w job begun, s.hand w = some (job, begun) →
    job ∈ popped history ∧ job ∉ finished history
  alone : ∀ w w' job begun begun', s.hand w = some (job, begun) →
    s.hand w' = some (job, begun') → w = w'
  whole : ∀ job ∈ popped history,
    job ∈ finished history ∨ ∃ w begun, s.hand w = some (job, begun)
  ended : ∀ job ∈ finished history, job ∈ popped history
  once : (started history).Nodup
  begun : ∀ job ∈ started history, job ∈ finished history ∨ ∃ w, s.hand w = some (job, true)

namespace Accounts

variable {s s' : ThreadPool n} {history : History}

theorem nodup (accounts : Accounts history s) : (popped history ++ s.tasks).Nodup := by
  rw [← accounts.order, accounts.named]
  exact List.nodup_range

theorem new (numThreads : ℕ) : Accounts [] (ThreadPool.new numThreads) := by
  refine ⟨rfl, rfl, fun w job begun held => ?_, fun w _ job begun _ held => ?_, by simp [popped],
    by simp [finished], by simp [started], by simp [started]⟩ <;>
    simp [hand, ThreadPool.new, WorkerPhase.hand] at held

/-- A step that moves no job to or from a worker. -/
theorem of_hands {history' : History} (accounts : Accounts history s) (hands : s'.hand = s.hand)
    (pop : popped history' = popped history) (start : started history' = started history)
    (finish : finished history' = finished history)
    (named : enqueued history' = List.range s'.made)
    (order : enqueued history' = popped history' ++ s'.tasks) : Accounts history' s' where
  named := named
  order := order
  held := by rw [hands, pop, finish]; exact accounts.held
  alone := by rw [hands]; exact accounts.alone
  whole := by rw [hands, pop, finish]; exact accounts.whole
  ended := by rw [pop, finish]; exact accounts.ended
  once := by rw [start]; exact accounts.once
  begun := by rw [hands, start, finish]; exact accounts.begun

theorem popped_step (accounts : Accounts history s) {w : Fin n} {job : ℕ}
    (tasks : s.tasks = job :: s'.tasks) (made : s'.made = s.made) (before : s.hand w = none)
    (hands : s'.hand = Function.update s.hand w (some (job, false))) :
    Accounts (history ++ [((), .popped job)]) s' := by
  have apart := accounts.nodup
  rw [tasks, List.nodup_append] at apart
  -- The names in the queue and those popped are all different.
  have fresh : job ∉ popped history := fun member =>
    apart.2.2 job member job List.mem_cons_self rfl
  have others : ∀ w' held, w' ≠ w → (s'.hand w' = held ↔ s.hand w' = held) := by
    intro w' held other
    rw [hands, Function.update_of_ne other]
  have own : s'.hand w = some (job, false) := by simp [hands]
  have more : popped (history ++ [((), .popped job)]) = popped history ++ [job] := by
    simp [popped]
  have same : finished (history ++ [((), .popped job)]) = finished history := by simp [finished]
  have busy : ∀ {w' held}, s.hand w' = some held → w' ≠ w := by
    rintro w' held full rfl
    rw [before] at full
    cases full
  refine ⟨?_, ?_, fun w' job' begun held => ?_, fun w₁ w₂ job' b₁ b₂ first second => ?_,
    fun job' member => ?_, fun job' member => ?_, ?_, fun job' member => ?_⟩
  · simpa [enqueued, made] using accounts.named
  · have order := accounts.order
    rw [tasks] at order
    rw [more, List.append_assoc, List.singleton_append, ← order]
    simp [enqueued]
  · rw [more, same]
    by_cases here : w' = w
    · rw [here, own] at held
      cases held
      exact ⟨by simp, fun done => fresh (accounts.ended _ done)⟩
    · obtain ⟨member, open_⟩ := accounts.held w' job' begun ((others w' _ here).mp held)
      exact ⟨List.mem_append_left _ member, open_⟩
  -- Only this worker has the job, and no other worker changes hands.
  · have new : ∀ w' b, s'.hand w' = some (job, b) → w' = w := fun w' b held => by
      by_contra other
      exact fresh (accounts.held w' job b ((others w' _ other).mp held)).1
    by_cases here : job' = job
    · subst here
      rw [new w₁ b₁ first, new w₂ b₂ second]
    · have away : ∀ w' b, s'.hand w' = some (job', b) → w' ≠ w := by
        rintro w' b held rfl
        rw [own] at held
        cases held
        exact here rfl
      exact accounts.alone w₁ w₂ job' b₁ b₂ ((others w₁ _ (away w₁ b₁ first)).mp first)
        ((others w₂ _ (away w₂ b₂ second)).mp second)
  · rw [more] at member
    rw [same]
    rcases List.mem_append.mp member with old | last
    · apply (accounts.whole job' old).imp_right
      rintro ⟨w', b, held⟩
      exact ⟨w', b, (others w' _ (busy held)).mpr held⟩
    · exact .inr ⟨w, false, by rw [own, List.mem_singleton.mp last]⟩
  · rw [same] at member
    rw [more]
    exact List.mem_append_left _ (accounts.ended job' member)
  · simpa [started] using accounts.once
  · have member : job' ∈ started history := by simpa [started] using member
    rw [same]
    apply (accounts.begun job' member).imp_right
    rintro ⟨w', held⟩
    exact ⟨w', (others w' _ (busy held)).mpr held⟩

theorem started_step (accounts : Accounts history s) {w : Fin n} {job : ℕ}
    (tasks : s'.tasks = s.tasks) (made : s'.made = s.made) (before : s.hand w = some (job, false))
    (hands : s'.hand = Function.update s.hand w (some (job, true))) :
    Accounts (history ++ [((), .started job)]) s' := by
  have own : s'.hand w = some (job, true) := by simp [hands]
  -- The jobs in hands are those of before, only one of them has begun.
  have before' : ∀ w' job' b, s'.hand w' = some (job', b) → ∃ b', s.hand w' = some (job', b') := by
    intro w' job' b held
    by_cases here : w' = w
    · rw [here, own] at held
      cases held
      exact ⟨false, here ▸ before⟩
    · rw [hands, Function.update_of_ne here] at held
      exact ⟨b, held⟩
  have after : ∀ w' job' b, s.hand w' = some (job', b) →
      s'.hand w' = some (job', b) ∨ s'.hand w' = some (job', true) := by
    intro w' job' b held
    by_cases here : w' = w
    · rw [here, before] at held
      cases held
      exact .inr (here ▸ own)
    · exact .inl (by rw [hands, Function.update_of_ne here, held])
  have finish : finished (history ++ [((), .started job)]) = finished history := by simp [finished]
  have pop : popped (history ++ [((), .started job)]) = popped history := by simp [popped]
  have list : started (history ++ [((), .started job)]) = started history ++ [job] := by
    simp [started]
  -- A job in a worker's hands that has not been started there has never been.
  have fresh : job ∉ started history := by
    intro member
    rcases accounts.begun job member with done | ⟨w', running⟩
    · exact (accounts.held w job false before).2 done
    · have same := accounts.alone w' w job true false running before
      rw [same, before] at running
      cases running
  refine ⟨?_, ?_, fun w' job' b held => ?_, fun w₁ w₂ job' b₁ b₂ first second => ?_,
    fun job' member => ?_, by rw [finish, pop]; exact accounts.ended, ?_, fun job' member => ?_⟩
  · simpa [enqueued, made] using accounts.named
  · simpa [enqueued, popped, tasks] using accounts.order
  · obtain ⟨b', held'⟩ := before' w' job' b held
    rw [finish, pop]
    exact accounts.held w' job' b' held'
  · obtain ⟨_, first⟩ := before' w₁ job' b₁ first
    obtain ⟨_, second⟩ := before' w₂ job' b₂ second
    exact accounts.alone w₁ w₂ job' _ _ first second
  · rw [finish]
    rw [pop] at member
    apply (accounts.whole job' member).imp_right
    rintro ⟨w', b, held⟩
    rcases after w' job' b held with same | begun
    · exact ⟨w', b, same⟩
    · exact ⟨w', true, begun⟩
  · rw [list]
    exact List.Nodup.append accounts.once (List.nodup_singleton job) (by simpa using fresh)
  · rw [finish]
    rw [list] at member
    rcases List.mem_append.mp member with old | last
    · apply (accounts.begun job' old).imp_right
      rintro ⟨w', held⟩
      exact ⟨w', (after w' job' true held).elim id id⟩
    · exact .inr ⟨w, List.mem_singleton.mp last ▸ own⟩

theorem finished_step (accounts : Accounts history s) {w : Fin n} {job : ℕ}
    (tasks : s'.tasks = s.tasks) (made : s'.made = s.made) (before : s.hand w = some (job, true))
    (hands : s'.hand = Function.update s.hand w none) :
    Accounts (history ++ [((), .finished job)]) s' := by
  have own : s'.hand w = none := by simp [hands]
  -- The job leaves the hands of this worker and no others.
  have before' : ∀ w' job' b, s'.hand w' = some (job', b) →
      w' ≠ w ∧ s.hand w' = some (job', b) := by
    intro w' job' b held
    have other : w' ≠ w := by
      rintro rfl
      rw [own] at held
      cases held
    rw [hands, Function.update_of_ne other] at held
    exact ⟨other, held⟩
  have after : ∀ w' job' b, s.hand w' = some (job', b) →
      job' = job ∨ s'.hand w' = some (job', b) := by
    intro w' job' b held
    by_cases here : w' = w
    · rw [here, before] at held
      cases held
      exact .inl rfl
    · exact .inr (by rw [hands, Function.update_of_ne here, held])
  have list : finished (history ++ [((), .finished job)]) = finished history ++ [job] := by
    simp [finished]
  have pop : popped (history ++ [((), .finished job)]) = popped history := by simp [popped]
  have start : started (history ++ [((), .finished job)]) = started history := by simp [started]
  refine ⟨?_, ?_, fun w' job' b held => ?_, fun w₁ w₂ job' b₁ b₂ first second => ?_,
    fun job' member => ?_, fun job' member => ?_, by rw [start]; exact accounts.once,
    fun job' member => ?_⟩
  · simpa [enqueued, made] using accounts.named
  · simpa [enqueued, popped, tasks] using accounts.order
  · obtain ⟨other, held⟩ := before' w' job' b held
    obtain ⟨member, open_⟩ := accounts.held w' job' b held
    rw [list, pop]
    refine ⟨member, fun done => ?_⟩
    rcases List.mem_append.mp done with old | last
    · exact open_ old
    · rw [List.mem_singleton.mp last] at held
      exact other (accounts.alone w' w job b true held before)
  · exact accounts.alone w₁ w₂ job' b₁ b₂ (before' w₁ job' b₁ first).2 (before' w₂ job' b₂ second).2
  · rw [pop] at member
    rw [list]
    rcases accounts.whole job' member with done | ⟨w', b, held⟩
    · exact .inl (List.mem_append_left _ done)
    · rcases after w' job' b held with rfl | still
      · exact .inl (by simp)
      · exact .inr ⟨w', b, still⟩
  · rw [pop]
    rw [list] at member
    rcases List.mem_append.mp member with old | last
    · exact accounts.ended job' old
    · exact List.mem_singleton.mp last ▸ (accounts.held w job true before).1
  · rw [start] at member
    rw [list]
    rcases accounts.begun job' member with done | ⟨w', held⟩
    · exact .inl (List.mem_append_left _ done)
    · rcases after w' job' true held with rfl | still
      · exact .inl (by simp)
      · exact .inr ⟨w', still⟩

theorem step (accounts : Accounts history s) {note : Note} (effect : Effect s s' note) :
    Accounts (history ++ [((), note)]) s' := by
  cases effect with
  | silent tasks made hands =>
    have enqueue : enqueued (history ++ [((), .silent)]) = enqueued history := by simp [enqueued]
    have pop : popped (history ++ [((), .silent)]) = popped history := by simp [popped]
    refine accounts.of_hands hands pop (by simp [started]) (by simp [finished]) ?_ ?_
    · rw [enqueue, made]
      exact accounts.named
    · rw [enqueue, pop, tasks]
      exact accounts.order
  | enqueued tasks made hands =>
    have enqueue : enqueued (history ++ [((), .enqueued s.made)]) =
        enqueued history ++ [s.made] := by simp [enqueued]
    have pop : popped (history ++ [((), .enqueued s.made)]) = popped history := by simp [popped]
    refine accounts.of_hands hands pop (by simp [started]) (by simp [finished]) ?_ ?_
    · rw [enqueue, accounts.named, made, List.range_succ]
    · rw [enqueue, accounts.order, pop, tasks, List.append_assoc]
  | popped w job tasks made before hands => exact accounts.popped_step tasks made before hands
  | started w job tasks made before hands => exact accounts.started_step tasks made before hands
  | finished w job tasks made before hands => exact accounts.finished_step tasks made before hands

end Accounts

/-- Where a job can be. -/
inductive Place (n : ℕ) where
  | queue
  | hands (w : Fin n)
  | done

/-- The job is in that place. -/
def Lies (s : ThreadPool n) (history : History) (job : ℕ) : Place n → Prop
  | .queue => job ∈ s.tasks
  | .hands w => ∃ begun, s.hand w = some (job, begun)
  | .done => job ∈ finished history

theorem Accounts.place {s : ThreadPool n} {history : History} (accounts : Accounts history s)
    {job : ℕ} (member : job ∈ enqueued history) : ∃! place, s.Lies history job place := by
  have apart := List.disjoint_of_nodup_append accounts.nodup
  rw [accounts.order] at member
  -- A job waits, or was popped and then is in hands or done; never two of these.
  rcases List.mem_append.mp member with gone | waits
  · rcases accounts.whole job gone with done | ⟨w, begun, held⟩
    · refine ⟨.done, done, fun place lies => ?_⟩
      cases place with
      | queue => exact absurd lies (apart gone)
      | hands w =>
        obtain ⟨begun, held⟩ := lies
        exact absurd done (accounts.held w job begun held).2
      | done => rfl
    · refine ⟨.hands w, ⟨begun, held⟩, fun place lies => ?_⟩
      cases place with
      | queue => exact absurd lies (apart gone)
      | hands w' =>
        obtain ⟨begun', held'⟩ := lies
        rw [accounts.alone w' w job begun' begun held' held]
      | done => exact absurd lies (accounts.held w job begun held).2
  · refine ⟨.queue, waits, fun place lies => ?_⟩
    cases place with
    | queue => rfl
    | hands w =>
      obtain ⟨begun, held⟩ := lies
      exact absurd waits (apart (accounts.held w job begun held).1)
    | done => exact absurd waits (apart (accounts.ended job lies))

theorem workerCount_pos (numThreads : ℕ) : 0 < workerCount numThreads := by
  unfold workerCount
  split <;> omega

/-- In every interleaving: each job put in the queue is in exactly one place and is started at
most once, jobs leave the queue in the order in which they came, a job in the queue means that
some worker is up or that a notification is due, and when all workers have exited the queue is
empty and every job has run. -/
theorem jobs_run_once (numThreads : ℕ) (history : History)
    (s : ThreadPool (workerCount numThreads)) (run : Run Steps (new numThreads) history s) :
    (enqueued history).Nodup ∧ (∀ job ∈ enqueued history, ∃! place, s.Lies history job place) ∧
    (started history).Nodup ∧ enqueued history = popped history ++ s.tasks ∧
    (s.tasks ≠ [] → (∃ w, Active (s.workers w)) ∨ s.Due) ∧
    ((∀ w, s.workers w = .exited) →
      s.tasks = [] ∧ ∀ job ∈ enqueued history, job ∈ finished history) := by
  have reached : Safe s ∧ Accounts history s := by
    induction run with
    | refl => exact ⟨.new numThreads, .new numThreads⟩
    | next _ taken ih =>
      exact ⟨ih.1.step (workerCount_pos numThreads) taken, ih.2.step (step_effect taken)⟩
  obtain ⟨safe, accounts⟩ := reached
  refine ⟨accounts.named ▸ List.nodup_range, fun job => accounts.place, accounts.once,
    accounts.order, safe.served, fun all => ⟨safe.drained all, fun job member => ?_⟩⟩
  rw [accounts.order, safe.drained all, List.append_nil] at member
  apply (accounts.whole job member).resolve_right
  rintro ⟨w, begun, held⟩
  simp [hand, all w, WorkerPhase.hand] at held

/-- One worker takes the one job that was put in the queue from outside. -/
theorem jobs_run_once_popped :
    ∃ (history : History) (s : ThreadPool (workerCount 1)), popped history = [0] ∧
      (enqueued history).Nodup ∧ (∀ job ∈ enqueued history, ∃! place, s.Lies history job place) ∧
      (started history).Nodup ∧ enqueued history = popped history ++ s.tasks ∧
      (s.tasks ≠ [] → (∃ w, Active (s.workers w)) ∨ s.Due) ∧
      ((∀ w, s.workers w = .exited) →
        s.tasks = [] ∧ ∀ job ∈ enqueued history, job ∈ finished history) := by
  let w : Fin (workerCount 1) := ⟨0, by decide⟩
  have called : Run Steps (new 1) [((), .silent)] _ := .next (.refl _) (.call _ rfl)
  have locked := called.next (e := ()) (.callLock _ (.caller 0) rfl rfl)
  have queued := locked.next (e := ()) (.emplace _ (.caller 0) rfl)
  have unlocked := queued.next (e := ()) (.callUnlock _ (.caller 0) rfl)
  have entered := unlocked.next (e := ()) (.lock _ w (.inl rfl) rfl)
  have passed := entered.next (e := ()) (.pass _ w (by simp [goto]) (.inr (List.cons_ne_nil 0 [])))
  have taken := passed.next (e := ()) (.pop _ w (by simp [goto]) 0 [] rfl)
  exact ⟨_, _, rfl, jobs_run_once 1 _ _ taken⟩

end ThreadPool

end RemoteCache
