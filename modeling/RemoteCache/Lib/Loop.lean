import Mathlib.Tactic.Common

/-!
# Loops with an early return

`loop cond body fuel s` is `while (cond s) body`, where one pass of the body
either continues or leaves the enclosing function with a result. The fuel is a
bound on the number of passes; `loop_rule` asks for a measure that stays below it.
-/
namespace RemoteCache

variable {σ τ ρ π : Type}

def loop (cond : σ → Bool) (body : σ → Except ρ σ) : Nat → σ → Except ρ σ
  | 0, s => .ok s
  | fuel + 1, s =>
    if cond s then
      match body s with
      | .error r => .error r
      | .ok s' => loop cond body fuel s'
    else .ok s

/-- What holds of the result of a pass or of a loop: `early` if it left the
function, `on` if it did not. -/
def Ends (early : ρ → Prop) (on : σ → Prop) : Except ρ σ → Prop
  | .error r => early r
  | .ok s => on s

/-- The invariant rule, with a measure that bounds the passes still to come. -/
theorem loop_rule (cond : σ → Bool) (body : σ → Except ρ σ) (Inv : σ → Prop) (early : ρ → Prop)
    (rest : σ → Nat) (live : ∀ s, Inv s → cond s = true → 0 < rest s)
    (pass : ∀ s, Inv s → cond s = true →
      Ends early (fun s' => Inv s' ∧ rest s' < rest s) (body s))
    (fuel : Nat) (s : σ) (initial : Inv s) (enough : rest s ≤ fuel) :
    Ends early (fun s' => Inv s' ∧ cond s' = false) (loop cond body fuel s) := by
  induction fuel generalizing s with
  | zero =>
    refine ⟨initial, ?_⟩
    by_contra on
    have := live s initial (by simpa using on)
    omega
  | succ fuel ih =>
    unfold loop
    by_cases on : cond s = true
    · have passed := pass s initial on
      rw [if_pos on]
      cases h : body s with
      | error r => simpa only [h, Ends] using passed
      | ok s' =>
        rw [h] at passed
        exact ih s' passed.1 (by have := passed.2; omega)
    · rw [if_neg on]
      exact ⟨initial, by simpa using on⟩

/-- Two results of the same kind, related. -/
def Matches (early : ρ → π → Prop) (on : σ → τ → Prop) : Except ρ σ → Except π τ → Prop
  | .error r, .error r' => early r r'
  | .ok s, .ok s' => on s s'
  | _, _ => False

theorem Matches.ok {early : ρ → π → Prop} {on : σ → τ → Prop} {r : Except ρ σ} {t : τ}
    (matched : Matches early on r (.ok t)) : ∃ s, r = .ok s ∧ on s t := by
  cases r with
  | error left => exact matched.elim
  | ok s => exact ⟨s, rfl, matched⟩

theorem Matches.cases {early : ρ → π → Prop} {on : σ → τ → Prop} {r : Except ρ σ}
    {r' : Except π τ} (matched : Matches early on r r') :
    (∃ left left', r = .error left ∧ r' = .error left' ∧ early left left') ∨
      ∃ s t, r = .ok s ∧ r' = .ok t ∧ on s t := by
  cases r' with
  | error left' =>
    cases r with
    | error left => exact .inl ⟨left, left', rfl, rfl, matched⟩
    | ok s => exact matched.elim
  | ok t =>
    obtain ⟨s, rfl, alike⟩ := matched.ok
    exact .inr ⟨s, t, rfl, rfl, alike⟩

/-- Two loops in lockstep. -/
theorem loop_matches (cond : σ → Bool) (body : σ → Except ρ σ) (cond' : τ → Bool)
    (body' : τ → Except π τ) (on : σ → τ → Prop) (early : ρ → π → Prop)
    (same : ∀ s t, on s t → cond s = cond' t)
    (pass : ∀ s t, on s t → cond s = true → Matches early on (body s) (body' t))
    (fuel : Nat) (s : σ) (t : τ) (initial : on s t) :
    Matches early on (loop cond body fuel s) (loop cond' body' fuel t) := by
  induction fuel generalizing s t with
  | zero => exact initial
  | succ fuel ih =>
    unfold loop
    rw [← same s t initial]
    by_cases active : cond s = true
    · have passed := pass s t initial active
      rw [if_pos active, if_pos active]
      cases h : body s <;> cases h' : body' t <;> rw [h, h'] at passed
      · exact passed
      · exact False.elim passed
      · exact False.elim passed
      · exact ih _ _ passed
    · rw [if_neg active, if_neg active]
      exact initial

/-! ### The passes of a loop -/

/-- The states in which the passes of a loop begin. -/
def passes (cond : σ → Bool) (body : σ → Except ρ σ) : Nat → σ → List σ
  | 0, _ => []
  | fuel + 1, s =>
    if cond s then
      s :: match body s with
        | .error _ => []
        | .ok s' => passes cond body fuel s'
    else []

theorem cond_of_mem_passes {cond : σ → Bool} {body : σ → Except ρ σ} {fuel : Nat} {s t : σ}
    (member : t ∈ passes cond body fuel s) : cond t = true := by
  induction fuel generalizing s with
  | zero => cases member
  | succ fuel ih =>
    rw [passes] at member
    split at member
    next active =>
      rcases List.mem_cons.mp member with rfl | later
      · exact active
      · split at later
        · cases later
        · exact ih later
    · cases member

/-- What two loops in lockstep show of the states they go through. -/
theorem passes_matches {α : Type} (cond : σ → Bool) (body : σ → Except ρ σ) (cond' : τ → Bool)
    (body' : τ → Except π τ) (on : σ → τ → Prop) (early : ρ → π → Prop)
    (same : ∀ s t, on s t → cond s = cond' t)
    (pass : ∀ s t, on s t → cond s = true → Matches early on (body s) (body' t))
    (f : σ → α) (g : τ → α) (shown : ∀ s t, on s t → cond s = true → f s = g t)
    (fuel : Nat) (s : σ) (t : τ) (initial : on s t) :
    (passes cond body fuel s).map f = (passes cond' body' fuel t).map g := by
  induction fuel generalizing s t with
  | zero => rfl
  | succ fuel ih =>
    unfold passes
    rw [← same s t initial]
    by_cases active : cond s = true
    · have passed := pass s t initial active
      rw [if_pos active, if_pos active, List.map_cons, List.map_cons, shown s t initial active]
      congr 1
      cases h : body s <;> cases h' : body' t <;> rw [h, h'] at passed
      · rfl
      · exact False.elim passed
      · exact False.elim passed
      · exact ih _ _ passed
    · rw [if_neg active, if_neg active]
      rfl

end RemoteCache
