import Mathlib

/-!
# Computations that can fail

Inversions of `Except` computations that succeeded, the rules by which a computation
succeeds, the invariant rule for a loop over a list, and tests of a result that can be
evaluated.
-/

namespace Fallible

variable {ε α β σ : Type}

/-- A sequence of two computations succeeds through a result of the first. -/
theorem of_bind_ok {x : Except ε α} {f : α → Except ε β} {b : β} (ok : (x >>= f) = .ok b) :
    ∃ a, x = .ok a ∧ f a = .ok b := by
  cases x with
  | error e => cases ok
  | ok a => exact ⟨a, rfl, ok⟩

/-- A computation whose second result is dropped. -/
theorem of_fst_ok {x : Except ε (α × β)} {a : α} (ok : (x >>= fun y => pure y.1) = .ok a) :
    ∃ b, x = .ok (a, b) := by
  obtain ⟨⟨a', b⟩, first, last⟩ := of_bind_ok ok
  cases last
  exact ⟨b, first⟩

/-- A loop over a list that succeeds keeps an invariant of its body. -/
theorem foldlM_invariant {f : σ → α → Except ε σ} {l : List α} {s t : σ} (inv : σ → Prop)
    (step : ∀ a ∈ l, ∀ s t, inv s → f s a = .ok t → inv t) (start : inv s)
    (run : l.foldlM f s = .ok t) : inv t := by
  induction l generalizing s with
  | nil =>
    cases run
    exact start
  | cons a l ih =>
    rw [List.foldlM_cons] at run
    obtain ⟨s', first, rest⟩ := of_bind_ok run
    exact ih (fun b mem => step b (List.mem_cons_of_mem _ mem))
      (step a List.mem_cons_self s s' start first) rest

/-- Every round of a loop that succeeds has succeeded. -/
theorem foldlM_each {f : σ → α → Except ε σ} {l : List α} {s t : σ} (run : l.foldlM f s = .ok t)
    {a : α} (mem : a ∈ l) : ∃ s' t', f s' a = .ok t' := by
  induction l generalizing s with
  | nil => cases mem
  | cons b l ih =>
    rw [List.foldlM_cons] at run
    obtain ⟨s', first, rest⟩ := of_bind_ok run
    rcases List.mem_cons.1 mem with rfl | later
    · exact ⟨s, s', first⟩
    · exact ih rest later

/-- The computation succeeds. -/
def Succeeds (x : Except ε α) : Prop := ∃ a, x = .ok a

theorem Succeeds.ok (a : α) : Succeeds (.ok a : Except ε α) := ⟨a, rfl⟩

/-- A sequence succeeds if its second part does after every result of the first. -/
theorem Succeeds.bind {x : Except ε α} {f : α → Except ε β} (first : Succeeds x)
    (rest : ∀ a, x = .ok a → Succeeds (f a)) : Succeeds (x >>= f) := by
  obtain ⟨a, rfl⟩ := first
  exact rest a rfl

/-- The computation succeeds, with a result that has a property. -/
def Returns (x : Except ε α) (Q : α → Prop) : Prop := ∃ a, x = .ok a ∧ Q a

section Returns

variable {x : Except ε α} {f : α → Except ε β} {P : α → Prop} {Q : β → Prop}

theorem Returns.ok {a : α} (holds : P a) : Returns (.ok a : Except ε α) P := ⟨a, rfl, holds⟩

/-- The rule for a sequence; its second part may use the run of the first. -/
theorem Returns.bind (first : Returns x P) (rest : ∀ a, x = .ok a → P a → Returns (f a) Q) :
    Returns (x >>= f) Q := by
  obtain ⟨a, rfl, holds⟩ := first
  exact rest a rfl holds

theorem Succeeds.next (first : Succeeds x) (rest : ∀ a, x = .ok a → Returns (f a) Q) :
    Returns (x >>= f) Q := by
  obtain ⟨a, rfl⟩ := first
  exact rest a rfl

theorem Returns.result {a : α} (returns : Returns x P) (run : x = .ok a) : P a := by
  obtain ⟨b, again, holds⟩ := returns
  rw [run] at again
  cases again
  exact holds

/-- The computation succeeds with a property, or fails with one error, for which there is a
cause. -/
def ReturnsOr (why : ε) (cause : Prop) (x : Except ε α) (Q : α → Prop) : Prop :=
  Returns x Q ∨ (x = .error why ∧ cause)

theorem ReturnsOr.ok {why : ε} {cause : Prop} {a : α} (holds : P a) :
    ReturnsOr why cause (.ok a) P := .inl (.ok holds)

theorem ReturnsOr.bind {why : ε} {cause : Prop} (first : ReturnsOr why cause x P)
    (rest : ∀ a, P a → ReturnsOr why cause (f a) Q) : ReturnsOr why cause (x >>= f) Q := by
  rcases first with ⟨a, rfl, holds⟩ | ⟨rfl, because⟩
  · exact rest a holds
  · exact .inr ⟨rfl, because⟩

end Returns

/-- The computation succeeds with a result that passes a test. -/
def yields (x : Except ε α) (test : α → Bool) : Bool :=
  match x with
  | .ok a => test a
  | .error _ => false

theorem of_yields {x : Except ε α} {test : α → Bool} (pass : yields x test = true) :
    ∃ a, x = .ok a ∧ test a = true := by
  cases x with
  | error e => cases pass
  | ok a => exact ⟨a, rfl, pass⟩

/-- The computation fails with an error. -/
def raises [DecidableEq ε] (x : Except ε α) (e : ε) : Bool :=
  match x with
  | .ok _ => false
  | .error e' => e' = e

theorem of_raises [DecidableEq ε] {x : Except ε α} {e : ε} (pass : raises x e = true) :
    x = .error e := by
  cases x with
  | ok a => cases pass
  | error e' => rw [of_decide_eq_true pass]

end Fallible
