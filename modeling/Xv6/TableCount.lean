import Xv6.PageTable

/-!
# How many table pages a mapping needs

`walk` with `alloc` set takes one page from the free list for every table missing on
its way, and fails exactly when the free list is too short.
-/

namespace Xv6

open Fallible Function Option

/-- The tables that `walk` has to allocate on its way to `va`. -/
def PageTable.missing (pt : PageTable) (va : Nat) : Nat :=
  match pt.slot (px 2 va) with
  | none => 2
  | some l1 => if (l1.slot (px 1 va)).isSome then 0 else 1

variable {k k' : Kmem} {pt pt' : PageTable} {va : Nat} {found : Bool} {α : Type} {zero : α}
  {t : Node α} {slot : Option (Node α)}

theorem kalloc_length {pa : Nat} (alloc : kalloc k = (k', some pa)) :
    k.freelist.length = k'.freelist.length + 1 := by
  unfold kalloc at alloc
  split at alloc
  · cases alloc
  · rename_i r rest list
    cases alloc
    rw [list]
    rfl

theorem newTable_length (new : newTable k zero = (k', some t)) :
    k.freelist.length = k'.freelist.length + 1 := by
  unfold newTable at new
  split at new
  · cases new
  · rename_i alloc
    have taken := kalloc_length alloc
    cases new
    exact taken

theorem nextTable_length (next : nextTable k zero slot = (k', some t)) :
    k.freelist.length = k'.freelist.length + if slot.isSome then 0 else 1 := by
  cases slot with
  | some t' =>
    cases next
    rfl
  | none => exact newTable_length next

/-- `walk` takes one page for every missing table, or runs out of pages. -/
theorem walkAlloc_length (run : walkAlloc k pt va = .ok (k', pt', found)) :
    if found then k.freelist.length = k'.freelist.length + pt.missing va
    else k'.freelist = [] ∧ k.freelist.length < pt.missing va := by
  unfold PageTable.missing
  obtain ⟨-, ⟨rfl, -, rfl, none, empty⟩ | ⟨k₁, l1, next2, rest⟩⟩ := walkAlloc_cases run
  · simp [none, empty]
  · have taken := nextTable_length next2
    have slots := nextTable_slots next2
    rcases rest with ⟨rfl, -, rfl, none, empty⟩ | ⟨l0, next1, -, rfl⟩
    · rcases slots with old | ⟨old, -⟩
      · simp only [old, none, isSome_some, if_true] at taken ⊢
        simp [empty] at taken ⊢
        exact taken
      · simp only [old, isSome_none] at taken ⊢
        simp [empty] at taken ⊢
        omega
    · have taken' := nextTable_length next1
      rcases slots with old | ⟨old, fresh⟩
      · simp only [old, isSome_some, if_true] at taken ⊢
        omega
      · simp only [old, isSome_none, fresh] at taken taken' ⊢
        simp at taken taken' ⊢
        omega

/-- `walk` below `MAXVA` does not panic. -/
theorem walkAlloc_ok (k : Kmem) (pt : PageTable) (lt : va < maxva) :
    ∃ r, walkAlloc k pt va = .ok r := by
  unfold walkAlloc
  rw [if_neg (Nat.not_le.2 lt)]
  split
  · exact ⟨_, rfl⟩
  · split
    · exact ⟨_, rfl⟩
    · exact ⟨_, rfl⟩

/-- The tables on the way to `va` are there afterwards, and the others as before. -/
theorem walkAlloc_missing (run : walkAlloc k pt va = .ok (k', pt', true)) (vb : Nat) :
    pt'.missing vb =
      if px 2 vb = px 2 va then if px 1 vb = px 1 va then 0 else min 1 (pt.missing vb)
      else pt.missing vb := by
  obtain ⟨-, ⟨-, -, ⟨⟩, -⟩ | ⟨k₁, l1, next2, ⟨-, -, ⟨⟩, -⟩ | ⟨l0, next1, rfl, -⟩⟩⟩ :=
    walkAlloc_cases run
  unfold PageTable.missing Node.set
  by_cases same2 : px 2 vb = px 2 va
  · rw [if_pos same2]
    simp only [same2, update_self]
    by_cases same1 : px 1 vb = px 1 va
    · simp only [same1, update_self, if_true, isSome_some]
    · simp only [update_of_ne same1, if_neg same1]
      rcases nextTable_slots next2 with old | ⟨old, fresh⟩
      · simp only [old]
        split <;> rfl
      · simp [old, fresh]
  · simp only [if_neg same2, update_of_ne same2]

theorem store_missing (pt : PageTable) (va vb : Nat) (e : Pte) :
    (pt.store va e).missing vb = pt.missing vb := by
  unfold PageTable.store
  split
  · rfl
  · rename_i l1 slot2
    split
    · rfl
    · rename_i l0 slot1
      unfold PageTable.missing Node.set
      by_cases same2 : px 2 vb = px 2 va
      · simp only [same2, update_self, slot2]
        by_cases same1 : px 1 vb = px 1 va
        · simp only [same1, update_self, slot1, isSome_some]
        · simp only [update_of_ne same1]
      · simp only [update_of_ne same2]

/-! ## Mapping one page -/

section MapOne

variable {v w pa : Nat} {perm : Pte}

/-- Mapping a page that is not mapped does not panic. -/
theorem mapOne_ok (lt : v * pgsize < maxva) (absent : (pt.leaf v).has pteV = false) :
    ∃ r, mapOne k pt (v * pgsize) pa perm = .ok r := by
  obtain ⟨⟨k₁, pt₁, found⟩, walked⟩ := walkAlloc_ok k pt lt
  unfold mapOne
  rw [walked]
  have leaf := walkAlloc_leaf walked v
  cases found with
  | false => exact ⟨_, rfl⟩
  | true =>
    have entry : (pt₁.lookup (v * pgsize)).getD 0 = pt₁.leaf v := rfl
    refine ⟨(k₁, pt₁.store (v * pgsize) (pa2pte pa ||| perm ||| pteV), true), ?_⟩
    simp only [bind, Except.bind, entry, leaf, absent, if_true]
    rfl

/-- Mapping a page takes one page for every missing table, or runs out of pages. -/
theorem mapOne_length (run : mapOne k pt (v * pgsize) pa perm = .ok (k', pt', found)) :
    if found then k.freelist.length = k'.freelist.length + pt.missing (v * pgsize)
    else k.freelist.length < pt.missing (v * pgsize) := by
  obtain ⟨pt₁, walked, -⟩ := mapOne_cases run
  have length := walkAlloc_length walked
  cases found with
  | true => exact length
  | false => exact length.2

/-- The tables that page `v` uses are there afterwards. -/
theorem mapOne_missing (ltV : v * pgsize < maxva) (ltW : w * pgsize < maxva)
    (run : mapOne k pt (v * pgsize) pa perm = .ok (k', pt', true)) : pt'.missing (w * pgsize) =
      if w / 2 ^ 18 = v / 2 ^ 18 then
        if w / 2 ^ 9 = v / 2 ^ 9 then 0 else min 1 (pt.missing (w * pgsize))
      else pt.missing (w * pgsize) := by
  obtain ⟨pt₁, walked, ⟨no, -⟩ | ⟨-, -, rfl⟩⟩ := mapOne_cases run
  · cases no
  · rw [store_missing, walkAlloc_missing walked]
    have upper : px 2 (w * pgsize) = px 2 (v * pgsize) ↔ w / 2 ^ 18 = v / 2 ^ 18 := by
      simp only [px, Fin.mk.injEq, pgsize, maxva] at *
      omega
    have lower (same : w / 2 ^ 18 = v / 2 ^ 18) :
        px 1 (w * pgsize) = px 1 (v * pgsize) ↔ w / 2 ^ 9 = v / 2 ^ 9 := by
      simp only [px, Fin.mk.injEq, pgsize, maxva] at *
      omega
    by_cases same2 : w / 2 ^ 18 = v / 2 ^ 18
    · simp only [upper.2 same2, same2, lower same2, if_true]
    · simp only [upper, same2, if_false]

end MapOne

/-! ## The tables of a page table -/

theorem Node.card_pages (below : α → Multiset Nat) (t : Node α) (i : Fin 512) :
    (below (t.slot i)).card + 1 ≤ (t.pages below).card := by
  have here : below (t.slot i) ≤ ∑ j, below (t.slot j) :=
    Finset.single_le_sum (f := fun j => below (t.slot j)) (fun _ _ => Multiset.zero_le _)
      (Finset.mem_univ i)
  have := Multiset.card_le_card here
  rw [Node.pages_eq, Multiset.card_add, Multiset.card_singleton]
  omega

/-- A page table with an entry for an address has a table of every level. -/
theorem PageTable.three_tables {e : Pte} (found : pt.lookup va = some e) : 3 ≤ pt.tables.card := by
  unfold lookup at found
  cases there1 : pt.slot (px 2 va) with
  | none => simp [there1] at found
  | some l1 =>
    cases there0 : l1.slot (px 1 va) with
    | none => simp [there1, there0] at found
    | some l0 =>
      have low := l0.card_pages (fun _ => 0) (px 0 va)
      have middle := l1.card_pages lowPages (px 1 va)
      have high := Node.card_pages (slotPages lowPages) pt (px 2 va)
      rw [there0] at middle
      rw [there1] at high
      unfold tables
      simp only [slotPages] at middle high
      omega

end Xv6
