import Mathlib

/-!
# Counters without a lock

An increment `n++` of a shared variable is a load and a store, and threads may come between the
two: a store writes back what was loaded before, plus one, and undoes the increments in between.
`Quiet` says that no thread is in between; when every load is made in a quiet state, a store adds
one to the value the counter has.
-/

namespace RacyCounter

open Function

variable {T : Type*} [DecidableEq T] {w : Nat}

/-- A variable of `w` bits, and what each thread that is in an increment has loaded. -/
structure Counter (T : Type*) (w : Nat) where
  value : BitVec w
  loaded : T → Option (BitVec w)

namespace Counter

def init : Counter T w := ⟨0, fun _ => none⟩

/-- The first half of `n++`. -/
def load (n : Counter T w) (t : T) : Counter T w :=
  ⟨n.value, Function.update n.loaded t (some n.value)⟩

/-- The second half of `n++`. -/
def store (n : Counter T w) (t : T) : Counter T w :=
  match n.loaded t with
  | some v => ⟨v + 1, Function.update n.loaded t none⟩
  | none => n

/-- No thread is in an increment. -/
def Quiet (n : Counter T w) : Prop := ∀ t, n.loaded t = none

/-- At most one thread is in an increment, and it has the current value. -/
def Alone (n : Counter T w) : Prop :=
  ∀ t v, n.loaded t = some v → v = n.value ∧ ∀ u, u ≠ t → n.loaded u = none

variable {n : Counter T w} {t u : T} {v : BitVec w}

omit [DecidableEq T] in
theorem Quiet.alone (quiet : n.Quiet) : n.Alone := by
  intro t v loaded
  rw [quiet t] at loaded
  cases loaded

theorem load_loaded : (n.load t).loaded t = some n.value := update_self ..

theorem load_loaded_ne (ne : u ≠ t) : (n.load t).loaded u = n.loaded u :=
  update_of_ne ne ..

theorem load_alone (quiet : n.Quiet) : (n.load t).Alone := by
  intro u v loaded
  rcases eq_or_ne u t with rfl | ne
  · rw [load_loaded] at loaded
    refine ⟨(Option.some.inj loaded).symm, fun r other => ?_⟩
    rw [load_loaded_ne other]
    exact quiet r
  · rw [load_loaded_ne ne, quiet u] at loaded
    cases loaded

/-- A thread that is alone adds one. -/
theorem store_value (alone : n.Alone) (loaded : n.loaded t = some v) :
    (n.store t).value = n.value + 1 := by
  rw [store, loaded, (alone t v loaded).1]

theorem store_loaded (loaded : n.loaded t = some v) :
    (n.store t).loaded = update n.loaded t none := by
  rw [store, loaded]

theorem store_quiet (alone : n.Alone) (loaded : n.loaded t = some v) : (n.store t).Quiet := by
  intro u
  rw [store_loaded loaded]
  rcases eq_or_ne u t with rfl | ne
  · rw [update_self]
  · rw [update_of_ne ne]
    exact (alone t v loaded).2 u ne

end Counter

end RacyCounter
