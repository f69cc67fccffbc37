import Xv6.TableCount
import Xv6.UserTable

/-!
# What dup_pg leaves

A private copy is writable.  On the page table of a process `dup_pg` does not panic.
-/

namespace Xv6

open Ownership Fallible PageTable

variable {k k' : Kmem} {pt pt' : PageTable} {excl shared : Multiset Nat} {va sz : Nat}

/-- The entry of an address lets the user store there. -/
def Writable (pt : PageTable) (va : Nat) : Prop :=
  va < maxva ∧ (pt.leaf (va / pgsize)).has pteV = true ∧ (pt.leaf (va / pgsize)).has pteU = true ∧
    (pt.leaf (va / pgsize)).has pteW = true

instance : Decidable (Writable pt va) := inferInstanceAs (Decidable (_ ∧ _ ∧ _ ∧ _))

theorem dupEntry_writable (pa : Nat) :
    (dupEntry pa).has pteU = true ∧ (dupEntry pa).has pteW = true := by
  constructor
  · rw [dupEntry, Pte.has_and_of_subset (by decide)]
    simp only [Pte.has_or, Bool.or_eq_true]
    simp [show pteU.has pteU = true by decide]
  · rw [dupEntry, Pte.has_and_of_subset (by decide)]
    simp only [Pte.has_or, Bool.or_eq_true]
    simp [show pteW.has pteW = true by decide]

theorem leaf_dup {e : Pte} (below : va < maxva) (mapped : pt.entry (va / pgsize) = some e)
    (e' : Pte) : (pt.store va e').leaf (va / pgsize) = e' := by
  have lt : va / pgsize * pgsize < maxva := (Nat.div_mul_le_self _ _).trans_lt below
  rw [store_page, leaf_store _ lt lt (lookup_isSome mapped), if_pos rfl]

/-- `dup_pg` does not panic on the page table of a process: a marked page has a holder to lose. -/
theorem dupPg_total (table : UserTable pt sz) (owned : Owned k pt excl shared) (va : Nat) :
    ∃ k' pt' r, dupPg k pt va = .ok (k', pt', r) := by
  unfold dupPg
  split
  · exact ⟨_, _, _, rfl⟩
  · rename_i range
    rw [walk, if_neg (by omega)]
    cases look : pt.lookup va with
    | none => exact ⟨_, _, _, rfl⟩
    | some e =>
      have leaf := leaf_of_lookup look
      simp only [bind, Except.bind, Bool.not_eq_true']
      split_ifs with plain system invalid
      · exact ⟨_, _, _, rfl⟩
      · exact ⟨_, _, _, rfl⟩
      · exact ⟨_, _, _, rfl⟩
      · simp only [Bool.not_eq_false] at plain system invalid
        have mapped := entry_of_valid invalid leaf
        have below : va / pgsize * pgsize < maxva :=
          (Nat.div_mul_le_self _ _).trans_lt (by omega)
        have user : va / pgsize < userPages := by
          by_contra above
          rw [(table.top _ e (Nat.le_of_not_lt above) below mapped).1] at plain
          cases plain
        cases alloc : kalloc k with
        | mk k₁ new =>
          cases new with
          | none => exact ⟨_, _, _, rfl⟩
          | some newpa =>
            obtain ⟨owned₁, -⟩ := kalloc_owned owned alloc
            have held : pte2pa e ∈ pt.cows + shared := by
              refine Multiset.mem_add.2 (.inl (mem_mapped user ?_))
              rw [leaf, (privOf_cow invalid plain).2]
              exact Multiset.mem_singleton_self _
            obtain ⟨rest, split⟩ := Multiset.exists_cons_of_mem held
            have holds : Holds { k₁ with mem := memmove k₁.mem newpa (pte2pa e) pgsize }
                (pt.tables + (pt.privs + newpa ::ₘ excl)) (pte2pa e ::ₘ rest) := by
              rw [← split]
              exact owned₁.setMem _
            obtain ⟨k₂, freed, -⟩ := kfree_shared holds
            simp only [freed]
            exact ⟨_, _, _, rfl⟩

end Xv6
