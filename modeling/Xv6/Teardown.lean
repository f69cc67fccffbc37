import Xv6.PageCount

/-!
# Tearing a page table down

`freewalk` looks at all 512 slots of every table, also at those of the root that lead to
addresses from `MAXVA` on.  No function of `vm.c` fills these (`LowHalf`), so a page table
that maps no page below `MAXVA` is freed without a panic.
-/

namespace Xv6

open Ownership Fallible

variable {k k' : Kmem} {pt pt' : PageTable} {excl shared : Multiset Nat} {v va pa n : Nat}
  {perm : Pte} {found doFree : Bool} {r : Int}

/-! ## The upper half of the root -/

/-- No table hangs below a slot for addresses from `MAXVA` on. -/
def LowHalf (pt : PageTable) : Prop := ∀ i : Fin 512, 256 ≤ i.val → pt.slot i = none

theorem px_low (lt : va < maxva) : (px 2 va).val < 256 := by
  simp only [px, maxva] at *
  omega

namespace LowHalf

section

variable (low : LowHalf pt)
include low

theorem set {i : Fin 512} (below : i.val < 256) (x : Option (Node (Option (Node Pte)))) :
    LowHalf (Node.set pt i x) := by
  intro j above
  have ne : j ≠ i := by
    rintro rfl
    omega
  simp only [Node.set, Function.update_of_ne ne]
  exact low j above

theorem store (va : Nat) (e : Pte) : LowHalf (pt.store va e) := by
  unfold PageTable.store
  split
  · exact low
  · rename_i l1 there
    split
    · exact low
    · refine low.set ?_ _
      by_contra above
      rw [low _ (Nat.le_of_not_lt above)] at there
      cases there

theorem walkAlloc (run : walkAlloc k pt va = .ok (k', pt', found)) : LowHalf pt' := by
  obtain ⟨lt, ⟨-, rfl, -⟩ | ⟨k₁, l1, -, ⟨-, rfl, -⟩ | ⟨l0, -, rfl, -⟩⟩⟩ := walkAlloc_cases run
  · exact low
  · exact low.set (px_low lt) _
  · exact low.set (px_low lt) _

theorem mapOne (run : mapOne k pt va pa perm = .ok (k', pt', found)) : LowHalf pt' := by
  obtain ⟨pt₁, walked, ⟨-, rfl⟩ | ⟨-, -, rfl⟩⟩ := mapOne_cases run
  · exact low.walkAlloc walked
  · exact (low.walkAlloc walked).store _ _

theorem mapLoop {a : Nat} (run : mapLoop n k pt a pa perm = .ok (k', pt', r)) : LowHalf pt' := by
  induction n generalizing k pt a pa with
  | zero =>
    unfold Xv6.mapLoop at run
    obtain ⟨⟨k₁, pt₁, found⟩, one, last⟩ := of_bind_ok run
    cases found <;> cases last <;> exact low.mapOne one
  | succ n ih =>
    unfold Xv6.mapLoop at run
    obtain ⟨⟨k₁, pt₁, found⟩, one, last⟩ := of_bind_ok run
    cases found with
    | false =>
      cases last
      exact low.mapOne one
    | true => exact ih (low.mapOne one) last

theorem mappages {size : Nat} (run : mappages k pt va size pa perm = .ok (k', pt', r)) :
    LowHalf pt' := by
  unfold Xv6.mappages at run
  split at run
  · cases run
  · exact low.mapLoop run

theorem unmapLoop {v : Nat} (run : unmapLoop doFree n k pt (v * pgsize) = .ok (k', pt')) :
    LowHalf pt' := by
  induction n generalizing k pt v with
  | zero =>
    cases run
    exact low
  | succ n ih =>
    obtain ⟨k₁, -, -, -, -, rest⟩ := unmapLoop_cases run
    exact ih (low.store _ _) rest

theorem uvmunmap (run : uvmunmap k pt va n doFree = .ok (k', pt')) : LowHalf pt' := by
  unfold Xv6.uvmunmap at run
  split at run
  · cases run
  · next aligned =>
    rw [← Nat.div_mul_cancel (Nat.dvd_of_mod_eq_zero (not_not.1 aligned))] at run
    exact low.unmapLoop run

end

end LowHalf

/-! ## Freeing the tables -/

section FreeWalk

variable {α : Type} {below : α → Multiset Nat} {freeSlot : Kmem → α → Except String Kmem}

theorem Frees.loop_succeeds (frees : Frees below freeSlot) {l : List α}
    (each : ∀ x ∈ l, ∀ k excl shared, Holds k (below x + excl) shared → Succeeds (freeSlot k x))
    (holds : Holds k ((l.map below).sum + excl) shared) : Succeeds (l.foldlM freeSlot k) := by
  induction l generalizing k with
  | nil => exact .ok k
  | cons x l ih =>
    rw [List.map_cons, List.sum_cons, add_assoc] at holds
    rw [List.foldlM_cons]
    refine (each x List.mem_cons_self _ _ _ holds).bind fun k₁ first => ?_
    exact ih (fun y mem => each y (List.mem_cons_of_mem _ mem)) (frees _ _ _ _ _ first holds).1

/-- A table page is freed if every slot of it is. -/
theorem Frees.node_succeeds (frees : Frees below freeSlot) {t : Node α}
    (each : ∀ i k excl shared, Holds k (below (t.slot i) + excl) shared →
      Succeeds (freeSlot k (t.slot i)))
    (holds : Holds k (t.pages below + excl) shared) : Succeeds (freeNode freeSlot k t) := by
  rw [freeNode_slots]
  refine (frees.loop_succeeds (fun x mem => ?_) holds.slots).bind fun k₁ loop => ?_
  · obtain ⟨i, -, rfl⟩ := List.mem_map.1 mem
    exact each i
  · obtain ⟨holds₁, -⟩ := frees.loop loop holds.slots
    obtain ⟨k₂, freed, -⟩ := kfree_excl holds₁
    exact ⟨k₂, freed⟩

/-- A slot of the two upper levels is freed if the table it leads to is. -/
theorem freeTable_succeeds {slot : Option (Node α)}
    (node : ∀ t, slot = some t → Succeeds (freeNode freeSlot k t)) :
    Succeeds (freeTable freeSlot k slot) := by
  cases slot with
  | none => exact .ok k
  | some t => exact node t rfl

/-- The virtual page with these three indices. -/
def pageOf (i2 i1 i0 : Fin 512) : Nat := (i2.val * 512 + i1.val) * 512 + i0.val

theorem px_pageOf (i2 i1 i0 : Fin 512) :
    px 2 (pageOf i2 i1 i0 * pgsize) = i2 ∧ px 1 (pageOf i2 i1 i0 * pgsize) = i1 ∧
      px 0 (pageOf i2 i1 i0 * pgsize) = i0 := by
  have h2 := i2.isLt
  have h1 := i1.isLt
  have h0 := i0.isLt
  simp only [px, pageOf, pgsize, Fin.ext_iff]
  omega

section

variable (low : LowHalf pt) (empty : ∀ v, v * pgsize < maxva → (pt.leaf v).has pteV = false)
include low empty

/-- Where no page below `MAXVA` is mapped, no slot of a lowest table is valid. -/
theorem LowHalf.slot_invalid {i2 i1 : Fin 512} {l1 : Node (Option (Node Pte))} {l0 : Node Pte}
    (there1 : pt.slot i2 = some l1) (there0 : l1.slot i1 = some l0) (i0 : Fin 512) :
    (l0.slot i0).has pteV = false := by
  have inHalf : i2.val < 256 := by
    by_contra above
    rw [low i2 (Nat.le_of_not_lt above)] at there1
    cases there1
  have lt : pageOf i2 i1 i0 * pgsize < maxva := by
    have h1 := i1.isLt
    have h0 := i0.isLt
    simp only [pageOf, pgsize, maxva]
    omega
  have invalid := empty _ lt
  obtain ⟨eq2, eq1, eq0⟩ := px_pageOf i2 i1 i0
  unfold PageTable.leaf PageTable.lookup at invalid
  rw [eq2, eq1, eq0, there1, Option.bind_some, there0] at invalid
  exact invalid

/-- `freewalk` does not panic on a page table that maps no page. -/
theorem freewalk_succeeds (holds : Holds k (pt.tables + excl) shared) :
    Succeeds (freewalk k pt) := by
  refine freeLeaf_frees.table.table.node_succeeds (fun i2 k2 excl2 shared2 holds2 => ?_) holds
  refine freeTable_succeeds fun l1 there1 => ?_
  rw [there1] at holds2
  refine freeLeaf_frees.table.node_succeeds (fun i1 k1 excl1 shared1 holds1 => ?_) holds2
  refine freeTable_succeeds fun l0 there0 => ?_
  rw [there0] at holds1
  refine freeLeaf_frees.node_succeeds (fun i0 k0 excl0 shared0 _ => ?_) holds1
  unfold freeLeaf
  rw [if_neg (by rw [Bool.not_eq_true]; exact low.slot_invalid empty there1 there0 i0)]
  exact .ok k0

end

end FreeWalk

end Xv6
