import Mathlib.Algebra.GroupWithZero.Nat
import Mathlib.Data.List.Induction

/-!
# Runs of labelled transition systems

A run records every event with the output it produced. Invariants may speak
about the record so far, which is how a safety property refers to the past.
-/
namespace RemoteCache

variable {S E O : Type}

inductive Run (step : S → E → O → S → Prop) : S → List (E × O) → S → Prop where
  | refl (s) : Run step s [] s
  | next {s t u : S} {trace : List (E × O)} {e : E} {o : O} :
      Run step s trace t → step t e o u → Run step s (trace ++ [(e, o)]) u

/-- A list of events, one after the other, where the step is a function. -/
def exec (step : S → E → Option (S × O)) : S → List E → Option (S × List (E × O))
  | s, [] => some (s, [])
  | s, e :: es =>
    match step s e with
    | none => none
    | some (t, o) => (exec step t es).map fun rest => (rest.1, (e, o) :: rest.2)

namespace Run

variable {step : S → E → O → S → Prop}

theorem append {s t u : S} {first second : List (E × O)} (head : Run step s first t)
    (tail : Run step t second u) : Run step s (first ++ second) u := by
  induction tail with
  | refl => simpa using head
  | next _ last ih => simpa only [List.append_assoc] using Run.next ih last

theorem mono {step' : S → E → O → S → Prop} {s t : S} {trace : List (E × O)}
    (run : Run step s trace t) (more : ∀ s e o t, step s e o t → step' s e o t) :
    Run step' s trace t := by
  induction run with
  | refl => exact .refl _
  | next _ taken ih => exact .next ih (more _ _ _ _ taken)

/-- A run splits at every point of its record. -/
theorem split {s u : S} (first second : List (E × O)) (run : Run step s (first ++ second) u) :
    ∃ t, Run step s first t ∧ Run step t second u := by
  induction second using List.reverseRecOn generalizing u with
  | nil => exact ⟨u, by simpa using run, .refl u⟩
  | append_singleton second last ih =>
    rw [← List.append_assoc] at run
    generalize record : first ++ second ++ [last] = trace at run
    cases run with
    | refl => simp at record
    | next before taken =>
      obtain ⟨rfl, rfl⟩ := List.append_inj' record rfl |>.imp id (fun h => by simpa using h)
      obtain ⟨t, head, tail⟩ := ih before
      exact ⟨t, head, .next tail taken⟩

/-- The single step behind one entry of the record. -/
theorem step_at {s u : S} {first second : List (E × O)} {e : E} {o : O}
    (run : Run step s (first ++ (e, o) :: second) u) :
    ∃ t v, Run step s first t ∧ step t e o v ∧ Run step v second u := by
  rw [← List.singleton_append, ← List.append_assoc] at run
  obtain ⟨v, head, tail⟩ := split _ _ run
  generalize record : first ++ [(e, o)] = trace at head
  cases head with
  | refl => simp at record
  | next before taken =>
    obtain ⟨rfl, same⟩ := List.append_inj' record rfl
    obtain ⟨rfl, rfl⟩ : e = _ ∧ o = _ := by simpa using same
    exact ⟨_, v, before, taken, tail⟩

theorem eq_of_nil {s t : S} (run : Run step s [] t) : s = t := by
  generalize record : ([] : List (E × O)) = trace at run
  cases run with
  | refl => rfl
  | next => simp at record

/-- A run of one event is one step. -/
theorem single {s u : S} {e : E} {o : O} (run : Run step s [(e, o)] u) : step s e o u := by
  have run : Run step s ([] ++ (e, o) :: []) u := run
  obtain ⟨t, v, before, taken, after⟩ := run.step_at
  rw [before.eq_of_nil, ← after.eq_of_nil]
  exact taken

theorem of_exec {next : S → E → Option (S × O)} {s t : S} {es : List E} {trace : List (E × O)}
    (done : exec next s es = some (t, trace)) :
    Run (fun s e o t => next s e = some (t, o)) s trace t := by
  induction es generalizing s trace with
  | nil =>
    cases done
    exact .refl _
  | cons e es ih =>
    unfold exec at done
    split at done
    · cases done
    next u o taken =>
      obtain ⟨⟨_, rest⟩, tail, same⟩ := Option.map_eq_some_iff.mp done
      cases same
      exact (Run.next (.refl _) taken).append (ih tail)

theorem exec_events {next : S → E → Option (S × O)} {s t : S} {es : List E}
    {trace : List (E × O)} (done : exec next s es = some (t, trace)) : trace.map (·.1) = es := by
  induction es generalizing s trace with
  | nil =>
    cases done
    rfl
  | cons e es ih =>
    unfold exec at done
    split at done
    · cases done
    next u o taken =>
      obtain ⟨⟨_, rest⟩, tail, same⟩ := Option.map_eq_some_iff.mp done
      cases same
      rw [List.map_cons, ih tail]

/-- Where every event of a list takes related states to related ones, with the same output, both
systems go through the list and record the same. -/
theorem exec_simulates {S' : Type} {next : S → E → Option (S × O)}
    {next' : S' → E → Option (S' × O)} {R : S → S' → Prop} {es : List E}
    (each : ∀ e ∈ es, ∀ s s', R s s' →
      ∃ t t' o, next s e = some (t, o) ∧ next' s' e = some (t', o) ∧ R t t')
    {s : S} {s' : S'} (start : R s s') :
    ∃ t t' trace, exec next s es = some (t, trace) ∧ exec next' s' es = some (t', trace) ∧
      R t t' := by
  induction es generalizing s s' with
  | nil => exact ⟨s, s', [], rfl, rfl, start⟩
  | cons e es ih =>
    obtain ⟨t, t', o, first, second, related⟩ := each e List.mem_cons_self s s' start
    obtain ⟨u, u', trace, rest, rest', ends⟩ :=
      ih (fun e member => each e (List.mem_cons_of_mem _ member)) related
    exact ⟨u, u', (e, o) :: trace, by simp only [exec, first, rest, Option.map_some],
      by simp only [exec, second, rest', Option.map_some], ends⟩

/-- What holds at the start and survives every step holds of every reachable state. -/
theorem invariant {s t : S} {trace : List (E × O)} {Inv : List (E × O) → S → Prop}
    (run : Run step s trace t) (initial : Inv [] s)
    (preserved : ∀ {before t e o u}, Run step s before t → Inv before t → step t e o u →
      Inv (before ++ [(e, o)]) u) : Inv trace t := by
  induction run with
  | refl => exact initial
  | next before taken ih => exact preserved before ih taken

/-- Where a function of the state takes every step of a record to a step of another system, it takes
the run to a run. -/
theorem map {S' : Type} {step' : S' → E → O → S' → Prop} (f : S → S') {s t : S}
    {trace : List (E × O)} (run : Run step s trace t)
    (each : ∀ {s e o t}, (e, o) ∈ trace → step s e o t → step' (f s) e o (f t)) :
    Run step' (f s) trace (f t) := by
  induction run with
  | refl => exact .refl _
  | next _ taken ih =>
    exact .next (ih fun member => each (List.mem_append_left _ member))
      (each (List.mem_append_right _ (List.mem_singleton_self _)) taken)

/-- What every step of a record keeps is kept by the run. -/
theorem keeps {s t : S} {trace : List (E × O)} {P : S → Prop} (run : Run step s trace t)
    (initial : P s) (each : ∀ {s e o t}, (e, o) ∈ trace → P s → step s e o t → P t) : P t := by
  induction run with
  | refl => exact initial
  | next _ taken ih =>
    exact each (List.mem_append_right _ (List.mem_singleton_self _))
      (ih fun member => each (List.mem_append_left _ member)) taken

end Run

end RemoteCache
