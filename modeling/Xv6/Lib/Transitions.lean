import Mathlib

/-!
# Runs of a transition system

A system is a partial function `step` from a state and a label to the next state: the
label says which part of the system moves and resolves its choices, and a label that is
not possible has no next state.  `exec` takes a list of labels one after the other, so
that a run is an equation and a concrete one can be evaluated.

The rules say that what every step keeps holds at the end of a run.  `Meets` restricts a
run to steps that meet a condition: `run_meets_invariant` is the rule for properties that
only such steps keep, and `meets_iff` the one for conditions that are equivalent along runs.
-/

namespace Transitions

variable {σ ℓ : Type*} {step : σ → ℓ → Option σ} {s s' : σ} {l : ℓ} {ls : List ℓ}
  {cond : σ → ℓ → Prop} {P : σ → Prop}

/-- The state after a list of steps, when each of them is possible. -/
def exec (step : σ → ℓ → Option σ) (s : σ) : List ℓ → Option σ
  | [] => some s
  | l :: ls => (step s l).bind fun s' => exec step s' ls

/-- Every step of a run meets a condition. -/
def Meets (step : σ → ℓ → Option σ) (cond : σ → ℓ → Prop) (s : σ) : List ℓ → Prop
  | [] => True
  | l :: ls => cond s l ∧ ∀ s', step s l = some s' → Meets step cond s' ls

instance instDecidableMeets {cond : σ → ℓ → Prop} [∀ s l, Decidable (cond s l)] (s : σ) :
    (ls : List ℓ) → Decidable (Meets step cond s ls)
  | [] => isTrue trivial
  | l :: ls =>
    match taken : step s l with
    | none => decidable_of_iff (cond s l) (by simp [Meets, taken])
    | some s' =>
      have : Decidable (Meets step cond s' ls) := instDecidableMeets s' ls
      decidable_of_iff (cond s l ∧ Meets step cond s' ls) (by simp [Meets, taken])

theorem exec_cons (run : exec step s (l :: ls) = some s') :
    ∃ s₁, step s l = some s₁ ∧ exec step s₁ ls = some s' :=
  Option.bind_eq_some_iff.1 run

/-- A run and one more step. -/
theorem exec_snoc {s₁ : σ} (run : exec step s ls = some s₁) (last : step s₁ l = some s') :
    exec step s (ls ++ [l]) = some s' := by
  induction ls generalizing s with
  | nil =>
    cases run
    simp [exec, last]
  | cons l ls ih =>
    obtain ⟨s₂, first, rest⟩ := exec_cons run
    exact Option.bind_eq_some_iff.2 ⟨s₂, first, ih rest⟩

/-- What every step that meets a condition keeps, a run of such steps keeps. -/
theorem run_meets_invariant (inv : σ → Prop)
    (keeps : ∀ s l s', inv s → cond s l → step s l = some s' → inv s') (start : inv s)
    (meets : Meets step cond s ls) (run : exec step s ls = some s') : inv s' := by
  induction ls generalizing s with
  | nil =>
    cases run
    exact start
  | cons l ls ih =>
    obtain ⟨s₁, first, rest⟩ := exec_cons run
    exact ih (keeps s l s₁ start meets.1 first) (meets.2 s₁ first) rest

/-- Two conditions that an invariant makes equivalent restrict runs alike, when steps that
meet them keep the invariant. -/
theorem meets_iff {cond' : σ → ℓ → Prop} (inv : σ → Prop)
    (same : ∀ s l, inv s → (cond s l ↔ cond' s l))
    (keeps : ∀ s l s', inv s → cond s l → step s l = some s' → inv s') (start : inv s) :
    Meets step cond s ls ↔ Meets step cond' s ls := by
  induction ls generalizing s with
  | nil => exact Iff.rfl
  | cons l ls ih =>
    constructor
    · rintro ⟨here, rest⟩
      exact ⟨(same s l start).1 here, fun s' taken =>
        (ih (keeps s l s' start here taken)).1 (rest s' taken)⟩
    · rintro ⟨here, rest⟩
      have met := (same s l start).2 here
      exact ⟨met, fun s' taken => (ih (keeps s l s' start met taken)).2 (rest s' taken)⟩

theorem meets_true : Meets step (fun _ _ => True) s ls := by
  induction ls generalizing s with
  | nil => trivial
  | cons l ls ih => exact ⟨trivial, fun _ _ => ih⟩

/-- A run that is evaluated, to a state that passes a test. -/
theorem exists_exec (test : σ → Prop) [DecidablePred test]
    (pass : (exec step s ls).any (fun s => test s) = true)
    (rest : ∀ s', exec step s ls = some s' → test s' → P s') :
    ∃ s', exec step s ls = some s' ∧ P s' := by
  obtain ⟨s', run, passed⟩ := (Option.any_eq_true _ _).1 pass
  exact ⟨s', run, rest s' run (of_decide_eq_true passed)⟩

/-- The same for a state of which only a run is asked for. -/
theorem exists_reached (ls : List ℓ) (test : σ → Prop) [DecidablePred test]
    (pass : (exec step s ls).any (fun s => test s) = true)
    (rest : ∀ s', (∃ ls, exec step s ls = some s') → test s' → P s') :
    ∃ s', (∃ ls, exec step s ls = some s') ∧ P s' := by
  obtain ⟨s', run, holds⟩ := exists_exec test pass fun s' run => rest s' ⟨ls, run⟩
  exact ⟨s', ⟨ls, run⟩, holds⟩

/-- What every step keeps, a run keeps. -/
theorem run_invariant (inv : σ → Prop) (keeps : ∀ s l s', inv s → step s l = some s' → inv s')
    (start : inv s) (run : exec step s ls = some s') : inv s' :=
  run_meets_invariant inv (fun s l s' holds _ => keeps s l s' holds) start meets_true run

end Transitions
