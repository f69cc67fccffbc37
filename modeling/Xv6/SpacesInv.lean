import Xv6.Spaces
import Xv6.TableCount

/-!
# The invariant of the address spaces

Ownership of pages is exact over all address spaces together, and every page table has
the shape of a user table.  Each call keeps this, changes the address spaces it works
on and leaves the memory of all others as it was.
-/

namespace Xv6

open Ownership Fallible Finset

/-- The pages one address space owns. -/
def spaceExcl : Option Space → Multiset Nat
  | none => 0
  | some sp => sp.pagetable.tables + sp.pagetable.privs

/-- The pages one address space shares. -/
def spaceShared : Option Space → Multiset Nat
  | none => 0
  | some sp => sp.pagetable.cows

namespace Machine

/-- The owned pages of some address spaces, and those the kernel holds. -/
def exclOf (m : Machine) (s : Finset SpaceId) : Multiset Nat :=
  ∑ id ∈ s, spaceExcl (m.space id) + m.held

/-- The shared pages of some address spaces, one occurrence for every mapping. -/
def sharedOf (m : Machine) (s : Finset SpaceId) : Multiset Nat :=
  ∑ id ∈ s, spaceShared (m.space id)

theorem exclOf_eq (m : Machine) (s : Finset SpaceId) :
    m.exclOf s = ∑ id ∈ s, spaceExcl (m.space id) + m.held := rfl

theorem sharedOf_eq (m : Machine) (s : Finset SpaceId) :
    m.sharedOf s = ∑ id ∈ s, spaceShared (m.space id) := rfl

attribute [irreducible] exclOf sharedOf

/-- All address spaces. -/
abbrev all : Finset SpaceId := Finset.univ

structure Inv (m : Machine) : Prop where
  holds : Holds m.kmem (m.exclOf all) (m.sharedOf all)
  table : ∀ id sp, m.space id = some sp → UserTable sp.pagetable sp.sz

variable {m m' : Machine} {id j : SpaceId} {s : Finset SpaceId} {sp : Space} {k : Kmem}
  {pt : PageTable} {sz v : Nat}

theorem exclOf_split (mem : id ∈ s) :
    m.exclOf s = spaceExcl (m.space id) + m.exclOf (s.erase id) := by
  rw [exclOf_eq, exclOf_eq, ← add_sum_erase s _ mem, add_assoc]

theorem sharedOf_split (mem : id ∈ s) :
    m.sharedOf s = spaceShared (m.space id) + m.sharedOf (s.erase id) := by
  rw [sharedOf_eq, sharedOf_eq, ← add_sum_erase s _ mem]

section

variable (o : Option Space)

include o

theorem put_space : (m.put id k o).space id = o := by
  simp [put]

theorem put_other (other : j ≠ id) : (m.put id k o).space j = m.space j := by
  simp [put, Function.update_of_ne other]

theorem exclOf_put (out : id ∉ s) : (m.put id k o).exclOf s = m.exclOf s := by
  rw [exclOf_eq, exclOf_eq]
  congr 1
  refine sum_congr rfl fun j mem => ?_
  rw [put_other o (by rintro rfl; exact out mem)]

theorem sharedOf_put (out : id ∉ s) :
    (m.put id k o).sharedOf s = m.sharedOf s := by
  rw [sharedOf_eq, sharedOf_eq]
  refine sum_congr rfl fun j mem => ?_
  rw [put_other o (by rintro rfl; exact out mem)]

end

/-- One page table next to the rest of the system. -/
theorem Inv.owned (inv : m.Inv) (space : m.space id = some sp) :
    Owned m.kmem sp.pagetable (m.exclOf (all.erase id)) (m.sharedOf (all.erase id)) := by
  have holds := inv.holds
  rw [exclOf_split (mem_univ id), sharedOf_split (mem_univ id), space] at holds
  unfold Owned
  rwa [spaceExcl, spaceShared, add_assoc] at holds

theorem Inv.putAny {o : Option Space} (inv : m.Inv)
    (holds : Holds k (spaceExcl o + m.exclOf (all.erase id))
      (spaceShared o + m.sharedOf (all.erase id)))
    (table : ∀ sp, o = some sp → UserTable sp.pagetable sp.sz) : (m.put id k o).Inv := by
  refine ⟨?_, fun j sp space => ?_⟩
  · rw [exclOf_split (mem_univ id), sharedOf_split (mem_univ id), put_space,
      exclOf_put _ (notMem_erase id _), sharedOf_put _ (notMem_erase id _)]
    exact holds
  · by_cases here : j = id
    · subst here
      rw [put_space] at space
      exact table sp space
    · rw [put_other _ here] at space
      exact inv.table j sp space

/-- Putting a page table back. -/
theorem Inv.put (inv : m.Inv)
    (owned : Owned k pt (m.exclOf (all.erase id)) (m.sharedOf (all.erase id)))
    (table : UserTable pt sz) : (m.put id k (some ⟨pt, sz⟩)).Inv := by
  refine inv.putAny ?_ (by rintro _ ⟨⟩; exact table)
  rw [spaceExcl, spaceShared, add_assoc]
  exact owned

/-- Removing an address space whose pages have been given back. -/
theorem Inv.remove (inv : m.Inv)
    (holds : Holds k (m.exclOf (all.erase id)) (m.sharedOf (all.erase id))) :
    (m.put id k none).Inv :=
  inv.putAny (by rwa [spaceExcl, spaceShared, zero_add, zero_add]) (by rintro _ ⟨⟩)

/-- The user pages of an address space are among the pages of the system. -/
theorem mem_pages {e : Pte} (mem : j ∈ s) (space : m.space j = some sp) (user : v < userPages)
    (mapped : sp.pagetable.entry v = some e) : pte2pa e ∈ m.exclOf s + m.sharedOf s := by
  have held := PageTable.mem_kept_of_entry 0 0 user mapped
  rw [exclOf_split mem, sharedOf_split mem, space, spaceExcl, spaceShared]
  simp only [PageTable.kept, Multiset.mem_add, add_zero] at held ⊢
  rcases held with held | held
  · exact .inl (.inl (.inr held))
  · exact .inr (.inl held)

/-- Memory moved, and the address spaces other than those in `ids` show the same bytes. -/
structure Touches (m m' : Machine) (ids : Set SpaceId) : Prop where
  inv : m'.Inv
  others : ∀ j ∉ ids, m'.space j = m.space j
  bytes : ∀ j ∉ ids, ∀ sp, m.space j = some sp → ∀ v < userPages, (sp.pagetable.entry v).isSome →
    SameBytes m.kmem sp.pagetable m'.kmem sp.pagetable v

theorem sameBytes_of_framed (framed : Framed m.kmem k (m.exclOf s + m.sharedOf s)) (mem : j ∈ s)
    (space : m.space j = some sp) (user : v < userPages) (mapped : (sp.pagetable.entry v).isSome) :
    SameBytes m.kmem sp.pagetable k sp.pagetable v := by
  obtain ⟨e, entry⟩ := Option.isSome_iff_exists.1 mapped
  refine framed.sameBytes ?_ rfl
  rw [(PageTable.entry_eq_some.1 entry).1]
  exact mem_pages mem space user entry

/-- A call that works on one page table. -/
theorem Inv.touches (inv : m.Inv)
    (owned : Owned k pt (m.exclOf (all.erase id)) (m.sharedOf (all.erase id)))
    (framed : Framed m.kmem k (m.exclOf (all.erase id) + m.sharedOf (all.erase id)))
    (table : UserTable pt sz) : Touches m (m.put id k (some ⟨pt, sz⟩)) {id} := by
  refine ⟨inv.put owned table, fun j other => put_other _ other, fun j other sp space v => ?_⟩
  exact sameBytes_of_framed framed (mem_erase.2 ⟨other, mem_univ j⟩) space

/-- A call that gives an address space back. -/
theorem Inv.touches_none (inv : m.Inv)
    (holds : Holds k (m.exclOf (all.erase id)) (m.sharedOf (all.erase id)))
    (framed : Framed m.kmem k (m.exclOf (all.erase id) + m.sharedOf (all.erase id))) :
    Touches m (m.put id k none) {id} := by
  refine ⟨inv.remove holds, fun j other => put_other _ other, fun j other sp space v => ?_⟩
  exact sameBytes_of_framed framed (mem_erase.2 ⟨other, mem_univ j⟩) space

end Machine

end Xv6
