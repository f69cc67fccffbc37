import Mathlib

/-!
# Locks that are taken in an order

Threads that wait for locks held by others cannot wait in a circle when everyone waits only
for locks below those it holds.
-/

namespace LockOrder

variable {T ι : Type*} (waits : T → Option ι) (holder : ι → Option T)

/-- One thread waits for a lock that the other holds. -/
def Blocked (t u : T) : Prop := ∃ i, waits t = some i ∧ holder i = some u

variable {waits holder}

/-- Along a chain of blocked threads the locks that they wait for descend. -/
theorem descends [Preorder ι] (order : ∀ t i j, waits t = some i → holder j = some t → i < j)
    {t u : T} (chain : Relation.TransGen (Blocked waits holder) t u) :
    ∃ i, waits t = some i ∧ ∀ j, waits u = some j → j < i := by
  induction chain with
  | single blocked =>
    obtain ⟨i, waiting, held⟩ := blocked
    exact ⟨i, waiting, fun j next => order _ j i next held⟩
  | tail _ blocked ih =>
    obtain ⟨i, waiting, below⟩ := ih
    obtain ⟨k, waiting', held⟩ := blocked
    exact ⟨i, waiting, fun j next => (order _ j k next held).trans (below k waiting')⟩

theorem no_cycle [Preorder ι] (order : ∀ t i j, waits t = some i → holder j = some t → i < j)
    (t : T) : ¬ Relation.TransGen (Blocked waits holder) t t := by
  intro cycle
  obtain ⟨i, waiting, below⟩ := descends order cycle
  exact lt_irrefl i (below i waiting)

end LockOrder
