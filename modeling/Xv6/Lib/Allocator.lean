import Mathlib

/-!
# A bitmap allocator and its slots

Units are numbered; those below `lo` are never handed out and those from `hi` on do not exist.  A
map `used` marks the units that are taken.  A unit is taken by storing its number in a slot, where
zero means that the slot is empty.  In between a unit can be marked and in no slot: it waits in
the list `pending` for a slot.

`Exact` says that the marks are right and that no unit is in two slots.  The rules say how it moves
when a unit is marked and when it is stored in a slot.
-/

namespace Allocator

variable {ι : Type} {lo hi b : Nat} {used used' : Nat → Bool} {slot slot' : ι → Nat} {x y : ι}
  {pending : List Nat}

/-- A unit is in at most one place, and it is marked exactly when it is in one. -/
structure Exact (lo hi : Nat) (used : Nat → Bool) (slot : ι → Nat) (pending : List Nat) : Prop where
  positive : 0 < lo
  range : ∀ x, slot x ≠ 0 → lo ≤ slot x ∧ slot x < hi
  unique : ∀ x y, slot x ≠ 0 → slot x = slot y → x = y
  waits : ∀ b ∈ pending, lo ≤ b ∧ b < hi ∧ ∀ x, slot x ≠ b
  nodup : pending.Nodup
  marked : ∀ b < hi, used b = true ↔ b < lo ∨ (∃ x, slot x = b) ∨ b ∈ pending

namespace Exact

section

variable (exact : Exact lo hi used slot pending)
include exact

theorem pos_of_waits (mem : b ∈ pending) : b ≠ 0 := by
  have := exact.positive
  have := (exact.waits b mem).1
  omega

/-- A unit without a mark can be handed out and is in no slot. -/
theorem of_free (lt : b < hi) (free : used b = false) :
    lo ≤ b ∧ (∀ x, slot x ≠ b) ∧ b ∉ pending := by
  have none : ¬ (b < lo ∨ (∃ x, slot x = b) ∨ b ∈ pending) := by
    intro taken
    rw [(exact.marked b lt).2 taken] at free
    cases free
  rw [not_or, not_or, not_exists] at none
  exact ⟨Nat.le_of_not_lt none.1, none.2.1, none.2.2⟩

theorem congr (marks : ∀ c < hi, used' c = used c) (slots : ∀ x, slot' x = slot x) :
    Exact lo hi used' slot' pending := by
  obtain rfl : slot' = slot := funext slots
  refine ⟨exact.positive, exact.range, exact.unique, exact.waits, exact.nodup, ?_⟩
  intro c lt
  rw [marks c lt]
  exact exact.marked c lt

/-- A unit without a mark is marked. -/
theorem alloc (lt : b < hi) (free : used b = false)
    (mark : ∀ c < hi, used' c = (decide (c = b) || used c)) :
    Exact lo hi used' slot (b :: pending) := by
  obtain ⟨low, unslotted, fresh⟩ := exact.of_free lt free
  refine ⟨exact.positive, exact.range, exact.unique, ?_, List.nodup_cons.2 ⟨fresh, exact.nodup⟩, ?_⟩
  · intro c mem
    rcases List.mem_cons.1 mem with rfl | mem
    · exact ⟨low, lt, unslotted⟩
    · exact exact.waits c mem
  · intro c inside
    rw [mark c inside, Bool.or_eq_true, decide_eq_true_eq, exact.marked c inside, List.mem_cons]
    tauto

end

/-- A marked unit is stored in an empty slot. -/
theorem attach [DecidableEq ι] (exact : Exact lo hi used slot (b :: pending)) (empty : slot x = 0) :
    Exact lo hi used (Function.update slot x b) pending := by
  obtain ⟨low, high, fresh⟩ := exact.waits b List.mem_cons_self
  obtain ⟨once, nodup⟩ := List.nodup_cons.1 exact.nodup
  have place (y : ι) : Function.update slot x b y = if y = x then b else slot y :=
    Function.update_apply ..
  have waits (c : Nat) (mem : c ∈ pending) := exact.waits c (List.mem_cons_of_mem b mem)
  refine ⟨exact.positive, ?_, ?_, ?_, nodup, fun c lt => ?_⟩
  · grind [exact.range]
  · grind [exact.unique]
  · grind
  · have moved : (∃ y, Function.update slot x b y = c) ↔ c = b ∨ ∃ y, y ≠ x ∧ slot y = c := by
      grind
    rw [moved, exact.marked c lt]
    grind [exact.positive]

end Exact

end Allocator
