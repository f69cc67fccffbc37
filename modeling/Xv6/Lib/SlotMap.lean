import Mathlib

/-!
# A finite map in a table of slots

A table has a number of slots, each free or with a key and a value.  If no key is in two slots the
table is a finite map: a key is looked up by a scan, a binding is added in a free slot or after the
last one, and taken away by freeing its slot.
-/

namespace SlotMap

open Function Option

@[ext]
structure Table (K V : Type) where
  count : Nat
  slot : Nat → Option (K × V)

namespace Table

variable {K V : Type} [DecidableEq K] {t : Table K V} {i j : Nat} {k k' : K} {v w : V}

/-- The first slot with a key. -/
def find (t : Table K V) (k : K) : Option Nat :=
  (List.range t.count).find? fun i => (t.slot i).any fun binding => decide (binding.1 = k)

/-- The map that the table stands for. -/
def get (t : Table K V) (k : K) : Option V := (t.find k).bind fun i => (t.slot i).map Prod.snd

/-- A slot is filled; it may be the one after the last. -/
def put (t : Table K V) (i : Nat) (k : K) (v : V) : Table K V :=
  ⟨max t.count (i + 1), Function.update t.slot i (some (k, v))⟩

/-- A slot is freed. -/
def clear (t : Table K V) (i : Nat) : Table K V := ⟨t.count, Function.update t.slot i none⟩

/-- No key is in two slots. -/
def Unique (t : Table K V) : Prop :=
  ∀ i < t.count, ∀ j < t.count, ∀ k v w, t.slot i = some (k, v) → t.slot j = some (k, w) → i = j

theorem of_find (found : t.find k = some i) : i < t.count ∧ ∃ v, t.slot i = some (k, v) := by
  have mem := List.mem_of_find?_eq_some found
  have test := List.find?_some found
  obtain ⟨⟨k', v⟩, here, same⟩ := (any_eq_true _ _).1 test
  cases of_decide_eq_true same
  exact ⟨List.mem_range.1 mem, v, here⟩

theorem find_none : t.find k = none ↔ ∀ i < t.count, ∀ v, t.slot i ≠ some (k, v) := by
  unfold find
  rw [List.find?_eq_none]
  constructor
  · intro absent i lt v here
    apply absent i (List.mem_range.2 lt)
    rw [here]
    simp
  · intro absent i mem test
    obtain ⟨⟨k', v⟩, here, same⟩ := (any_eq_true _ _).1 test
    cases of_decide_eq_true same
    exact absent i (List.mem_range.1 mem) v here

theorem get_none : t.get k = none ↔ t.find k = none := by
  unfold get
  cases found : t.find k with
  | none => simp
  | some i =>
    obtain ⟨-, v, here⟩ := of_find found
    simp [here]

section

variable (unique : t.Unique)
include unique

/-- With unique keys the scan finds the binding, wherever it is. -/
theorem get_some : t.get k = some v ↔ ∃ i < t.count, t.slot i = some (k, v) := by
  constructor
  · intro found
    cases place : t.find k with
    | none => rw [get, place] at found; cases found
    | some i =>
      obtain ⟨lt, w, here⟩ := of_find place
      rw [get, place, bind_some, here] at found
      cases found
      exact ⟨i, lt, here⟩
  · rintro ⟨i, lt, here⟩
    cases place : t.find k with
    | none => exact absurd here (find_none.1 place i lt v)
    | some j =>
      obtain ⟨ltj, w, there⟩ := of_find place
      obtain rfl := unique i lt j ltj k v w here there
      rw [get, place, bind_some, here]
      rfl

theorem Unique.put (absent : t.get k = none) (le : i ≤ t.count) : (t.put i k v).Unique := by
  have nowhere := find_none.1 (get_none.1 absent)
  have elsewhere : ∀ j, j ≠ i → (t.put i k v).slot j = t.slot j := fun j ne =>
    update_of_ne ne _ _
  have here : (t.put i k v).slot i = some (k, v) := update_self _ _ _
  have inside : ∀ j, j < (t.put i k v).count → j ≠ i → j < t.count := by
    intro j lt ne
    have lt : j < max t.count (i + 1) := lt
    omega
  intro a lta b ltb key x y atA atB
  rcases eq_or_ne a i with rfl | neA
  · rcases eq_or_ne b a with rfl | neB
    · rfl
    · rw [elsewhere b neB] at atB
      rw [here] at atA
      cases atA
      exact absurd atB (nowhere b (inside b ltb neB) y)
  · rw [elsewhere a neA] at atA
    rcases eq_or_ne b i with rfl | neB
    · rw [here] at atB
      cases atB
      exact absurd atA (nowhere a (inside a lta neA) x)
    · rw [elsewhere b neB] at atB
      exact unique a (inside a lta neA) b (inside b ltb neB) key x y atA atB

/-- A binding is added; the slot is the one after the last, or it is free. -/
theorem get_put (absent : t.get k = none) (le : i ≤ t.count)
    (free : i < t.count → t.slot i = none) :
    (t.put i k v).get = update t.get k (some v) := by
  have unique' := unique.put (v := v) absent le
  have here : (t.put i k v).slot i = some (k, v) := update_self _ _ _
  have last : i < (t.put i k v).count := lt_of_lt_of_le (Nat.lt_succ_self i) (le_max_right _ _)
  funext k'
  rcases eq_or_ne k' k with rfl | ne
  · rw [update_self]
    exact (get_some unique').2 ⟨i, last, here⟩
  · rw [update_of_ne ne]
    apply ext
    intro w
    rw [get_some unique', get_some unique]
    constructor
    · rintro ⟨j, lt, there⟩
      rcases eq_or_ne j i with rfl | other
      · rw [here] at there
        cases there
        exact absurd rfl ne
      · rw [show (t.put i k v).slot j = t.slot j from update_of_ne other _ _] at there
        have lt : j < max t.count (i + 1) := lt
        exact ⟨j, by omega, there⟩
    · rintro ⟨j, lt, there⟩
      have other : j ≠ i := by
        rintro rfl
        rw [free lt] at there
        cases there
      refine ⟨j, lt_of_lt_of_le lt (le_max_left _ _), ?_⟩
      exact (update_of_ne other _ _).trans there

omit [DecidableEq K] in
theorem Unique.clear (i : Nat) : (t.clear i).Unique := by
  have still : ∀ j b, (t.clear i).slot j = some b → t.slot j = some b := by
    intro j b here
    rcases eq_or_ne j i with rfl | ne
    · rw [show (t.clear j).slot j = none from update_self _ _ _] at here
      cases here
    · exact (update_of_ne ne _ _).symm.trans here
  intro a lta b ltb key x y atA atB
  exact unique a lta b ltb key x y (still a _ atA) (still b _ atB)

/-- The binding in a slot is taken away. -/
theorem get_clear (lt : i < t.count) (here : t.slot i = some (k, v)) :
    (t.clear i).get = update t.get k none := by
  have unique' := unique.clear i
  funext k'
  apply ext
  intro w
  rw [get_some unique']
  rcases eq_or_ne k' k with rfl | ne
  · rw [update_self]
    constructor
    · rintro ⟨j, ltj, there⟩
      rcases eq_or_ne j i with rfl | other
      · rw [show (t.clear j).slot j = none from update_self _ _ _] at there
        cases there
      · rw [show (t.clear i).slot j = t.slot j from update_of_ne other _ _] at there
        exact absurd (unique j ltj i lt k' w v there here) other
    · intro nothing
      cases nothing
  · rw [update_of_ne ne, get_some unique]
    constructor
    · rintro ⟨j, ltj, there⟩
      rcases eq_or_ne j i with rfl | other
      · rw [show (t.clear j).slot j = none from update_self _ _ _] at there
        cases there
      · exact ⟨j, ltj, (update_of_ne other _ _).symm.trans there⟩
    · rintro ⟨j, ltj, there⟩
      have other : j ≠ i := by
        rintro rfl
        rw [here] at there
        cases there
        exact ne rfl
      exact ⟨j, ltj, (update_of_ne other _ _).trans there⟩

end

end Table

end SlotMap
