import Xv6.Riscv
import Xv6.Lib.Ownership

/-!
# The physical page allocator

`kalloc.c`: the free list, the per-page count of copy-on-write references beyond
the first, and the two operations that move pages between the free list and
their holders.  A panic of the kernel is the error of `Except String`.

The free list is threaded through the free pages themselves in the source; here
it is the list of their addresses, first page first.  The locks are not modelled:
each operation is one step.

`Holds k excl shared` is the ledger of `Xv6.Lib.Ownership` at this allocator: the
pages in `excl` have one owner each, the pages in `shared` one holder for every
occurrence, and every other page of the pool is free.
-/

namespace Xv6

open Ownership Multiset Ledger

/-- The allocator's state, with the memory it manages and the two addresses the
linker provides: `end`, the first address after the kernel, and `trampoline`. -/
structure Kmem where
  kend : Nat
  trampoline : Nat
  freelist : List Nat
  cowrefs : Nat → Nat
  mem : Mem

namespace Kmem

/-- The addresses of the pages the allocator manages. -/
def IsPage (k : Kmem) (pa : Nat) : Prop := pa % pgsize = 0 ∧ k.kend ≤ pa ∧ pa < phystop

instance (k : Kmem) (pa : Nat) : Decidable (k.IsPage pa) :=
  inferInstanceAs (Decidable (_ ∧ _ ∧ _))

/-- `pg_cowrefs[pa / PGSIZE].count`. -/
def refs (k : Kmem) (pa : Nat) : Nat := k.cowrefs (pa / pgsize)

/-- `pg_cowrefs[pa / PGSIZE].count = n`. -/
def setRefs (k : Kmem) (pa n : Nat) : Kmem :=
  { k with cowrefs := Function.update k.cowrefs (pa / pgsize) n }

end Kmem

/-- `kfree`.  The test for a negative count never succeeds, the count being
unsigned. -/
def kfree (k : Kmem) (pa : Nat) : Except String Kmem :=
  if pa % pgsize ≠ 0 ∨ pa < k.kend ∨ phystop ≤ pa then .error "kfree"
  else if 0 < k.refs pa then .ok (k.setRefs pa (k.refs pa - 1))
  else .ok { k with mem := memset k.mem pa 1 pgsize, freelist := pa :: k.freelist }

/-- `kalloc`; a null result is `none`. -/
def kalloc (k : Kmem) : Kmem × Option Nat :=
  match k.freelist with
  | [] => (k, none)
  | r :: rest =>
    let k := { k with freelist := rest }
    let k := k.setRefs r 0
    ({ k with mem := memset k.mem r 5 pgsize }, some r)

/-- `freerange(pa_start, pa_end)`. -/
def freerange (k : Kmem) (paStart paEnd : Nat) : Except String Kmem :=
  (List.range ((paEnd - pgroundup paStart) / pgsize)).foldlM
    (fun k i => kfree k (pgroundup paStart + i * pgsize)) k

/-- `kinit`, from memory holding `mem`; the counts start at zero. -/
def kinit (kend trampoline : Nat) (mem : Mem) : Except String Kmem :=
  freerange ⟨kend, trampoline, [], fun _ => 0, mem⟩ kend phystop

/-! ## Ownership of pages -/

/-- The bookkeeping of the allocator is exact for these holders. -/
def Holds (k : Kmem) (excl shared : Multiset Nat) : Prop :=
  Ledger k.IsPage k.freelist k.refs excl shared

/-- Memory moved from `k` to `k'` without touching the pages in `kept`. -/
structure Framed (k k' : Kmem) (kept : Multiset Nat) : Prop where
  kend : k'.kend = k.kend
  trampoline : k'.trampoline = k.trampoline
  same : ∀ pa ∈ kept, SamePage k.mem k'.mem pa

namespace Framed

variable {k k₁ k₂ : Kmem} {kept kept' : Multiset Nat}

theorem refl (k : Kmem) (kept : Multiset Nat) : Framed k k kept :=
  ⟨rfl, rfl, fun _ _ => SamePage.refl _ _⟩

theorem trans (first : Framed k k₁ kept) (second : Framed k₁ k₂ kept) : Framed k k₂ kept :=
  ⟨second.kend.trans first.kend, second.trampoline.trans first.trampoline,
    fun pa mem => (first.same pa mem).trans (second.same pa mem)⟩

theorem mono (framed : Framed k k₁ kept) (sub : ∀ pa ∈ kept', pa ∈ kept) : Framed k k₁ kept' :=
  ⟨framed.kend, framed.trampoline, fun pa mem => framed.same pa (sub pa mem)⟩

theorem isPage (framed : Framed k k₁ kept) : k₁.IsPage = k.IsPage := by
  funext pa
  simp only [Kmem.IsPage, framed.kend]

end Framed

/-- Memory moved from `k` to `k'`: of the pages held in `before`, those in `after` are
still held and untouched. -/
structure Passes (k k' : Kmem) (before after : Multiset Nat) : Prop where
  framed : Framed k k' after
  sub : ∀ pa ∈ after, pa ∈ before

namespace Passes

variable {k k₁ k₂ : Kmem} {a b c : Multiset Nat}

theorem refl (k : Kmem) (a : Multiset Nat) : Passes k k a a := ⟨.refl _ _, fun _ mem => mem⟩

theorem trans (first : Passes k k₁ a b) (second : Passes k₁ k₂ b c) : Passes k k₂ a c :=
  ⟨(first.framed.mono second.sub).trans second.framed,
    fun pa mem => first.sub pa (second.sub pa mem)⟩

end Passes

variable {k k' : Kmem} {excl shared : Multiset Nat} {pa : Nat}

theorem Kmem.IsPage.aligned (page : k.IsPage pa) : pa % pgsize = 0 := page.1

/-- A page address fits the address part of a page-table entry. -/
theorem Kmem.IsPage.lt (page : k.IsPage pa) : pa < 2 ^ 56 := by
  have := page.2.2
  simp only [phystop, kernbase] at this
  omega

/-- The counts are kept per page. -/
theorem Kmem.setRefs_refs {n pb : Nat} (page : k.IsPage pa) (other : k.IsPage pb) :
    (k.setRefs pa n).refs pb = Function.update k.refs pa n pb := by
  have alignedA := page.aligned
  have alignedB := other.aligned
  by_cases same : pb = pa
  · subst same
    simp [Kmem.refs, Kmem.setRefs]
  · have : pb / pgsize ≠ pa / pgsize := by
      simp only [pgsize] at *
      omega
    simp [Kmem.refs, Kmem.setRefs, Function.update_of_ne this, Function.update_of_ne same]

/-- `kalloc` takes a page nobody holds, fills it with junk and changes no held page. -/
theorem kalloc_some (holds : Holds k excl shared) (alloc : kalloc k = (k', some pa)) :
    Holds k' (pa ::ₘ excl) shared ∧ Framed k k' (excl + shared) ∧ k.IsPage pa ∧
      (pa ∉ excl ∧ pa ∉ shared) ∧ k.freelist = pa :: k'.freelist := by
  unfold kalloc at alloc
  split at alloc
  · cases alloc
  · rename_i r rest list
    simp only [Prod.mk.injEq, Option.some.injEq] at alloc
    obtain ⟨rfl, rfl⟩ := alloc
    have free : r ∈ k.freelist := by rw [list]; exact List.mem_cons_self
    have page : k.IsPage r := univ_of_free holds free
    have notExcl := not_excl_of_free holds free
    have notShared := not_shared_of_free holds free
    refine ⟨?_, ⟨rfl, rfl, ?_⟩, page, ⟨notExcl, notShared⟩, list⟩
    · have ledger : Ledger k.IsPage (r :: rest) k.refs excl shared := by
        rw [← list]
        exact holds
      exact ledger.take.congr_extra fun pb other => Kmem.setRefs_refs (n := 0) page other
    · intro pb mem
      have ne : pb ≠ r := by
        rintro rfl
        exact (mem_add.1 mem).elim notExcl notShared
      have other : k.IsPage pb := (mem_add.1 mem).elim (univ_of_excl holds) (univ_of_shared holds)
      exact SamePage.memset other.aligned page.aligned ne le_rfl

theorem kalloc_none (alloc : kalloc k = (k', none)) : k' = k ∧ k.freelist = [] := by
  unfold kalloc at alloc
  split at alloc
  · rename_i list
    simp only [Prod.mk.injEq, and_true] at alloc
    exact ⟨alloc.symm, list⟩
  · simp at alloc

theorem kfree_inRange (page : k.IsPage pa) :
    kfree k pa = if 0 < k.refs pa then .ok (k.setRefs pa (k.refs pa - 1))
      else .ok { k with mem := memset k.mem pa 1 pgsize, freelist := pa :: k.freelist } := by
  rw [kfree, if_neg]
  obtain ⟨aligned, low, high⟩ := page
  omega

/-- Filling a page that leaves its holders keeps the pages still held. -/
theorem framed_memset {kept : Multiset Nat} {c : UInt8} (page : k.IsPage pa)
    (pages : ∀ pb ∈ kept, k.IsPage pb) (left : pa ∉ kept) (list : List Nat) :
    Framed k { k with mem := memset k.mem pa c pgsize, freelist := list } kept := by
  refine ⟨rfl, rfl, fun pb mem => SamePage.memset (pages pb mem).aligned page.aligned ?_ le_rfl⟩
  rintro rfl
  exact left mem

/-- `kfree` by the owner of a page puts it back on the free list. -/
theorem kfree_excl (holds : Holds k (pa ::ₘ excl) shared) :
    ∃ k', kfree k pa = .ok k' ∧ Holds k' excl shared ∧ Framed k k' (excl + shared) ∧
      k'.freelist = pa :: k.freelist := by
  have held : pa ∈ pa ::ₘ excl := mem_cons_self _ _
  have page : k.IsPage pa := univ_of_excl holds held
  have unshared := not_shared_of_excl holds held
  have zero : k.refs pa = 0 := extra_of_excl holds held
  have alone : pa ∉ excl := by
    have := excl_nodup holds
    exact (nodup_cons.1 this).1
  have dropped := drop_excl holds
  refine ⟨{ k with mem := memset k.mem pa 1 pgsize, freelist := pa :: k.freelist },
    by rw [kfree_inRange page, if_neg (by omega)], dropped, ?_, rfl⟩
  refine framed_memset page (fun pb mem => ?_) (fun mem => ?_) _
  · exact (mem_add.1 mem).elim (fun m => univ_of_excl dropped m) (fun m => univ_of_shared dropped m)
  · exact (mem_add.1 mem).elim alone unshared

/-- `kfree` by one sharer of a page lowers its count, or puts the page back on
the free list when that sharer was the last. -/
theorem kfree_shared (holds : Holds k excl (pa ::ₘ shared)) :
    ∃ k', kfree k pa = .ok k' ∧ Holds k' excl shared ∧ Framed k k' (excl + shared) := by
  have held : pa ∈ pa ::ₘ shared := mem_cons_self _ _
  have page : k.IsPage pa := univ_of_shared holds held
  by_cases more : 0 < k.refs pa
  · refine ⟨k.setRefs pa (k.refs pa - 1), by rw [kfree_inRange page, if_pos more], ?_,
      rfl, rfl, fun _ _ => SamePage.refl _ _⟩
    exact (drop_shared holds more).congr_extra fun pb other =>
      Kmem.setRefs_refs page other
  · have last : k.refs pa = 0 := by omega
    have dropped := drop_last holds last
    have count := extra_of_shared holds held
    refine ⟨{ k with mem := memset k.mem pa 1 pgsize, freelist := pa :: k.freelist },
      by rw [kfree_inRange page, if_neg more], dropped, ?_⟩
    have unshared : pa ∉ shared := by
      rw [last, count_cons_self] at count
      exact count_eq_zero.1 (by omega)
    refine framed_memset page (fun pb mem => ?_) (fun mem => ?_) _
    · exact (mem_add.1 mem).elim (fun m => univ_of_excl dropped m)
        (fun m => univ_of_shared dropped m)
    · rcases mem_add.1 mem with mem | mem
      · exact not_shared_of_excl holds mem held
      · exact unshared mem

section

variable (holds : Holds k excl shared)
include holds

/-- One more holder of a shared page, as `cowmappage` counts it. -/
theorem setRefs_join (mem : pa ∈ shared) :
    Holds (k.setRefs pa (k.refs pa + 1)) excl (pa ::ₘ shared) :=
  (join holds mem).congr_extra fun _ other =>
    Kmem.setRefs_refs (univ_of_shared holds mem) other

theorem Holds.isPage_excl (mem : pa ∈ excl) : k.IsPage pa :=
  univ_of_excl holds mem

theorem Holds.isPage_shared (mem : pa ∈ shared) : k.IsPage pa :=
  univ_of_shared holds mem

/-- Writing to memory moves no page between holders. -/
theorem Holds.setMem (mem : Mem) : Holds { k with mem := mem } excl shared :=
  holds

end

/-- Pages that leave their owner are on the free list afterwards, each of them once. -/
theorem freed_once {freed : Multiset Nat} (before : Holds k (freed + excl) shared)
    (after : Holds k' excl shared) (kend : k'.kend = k.kend) :
    (k'.freelist : Multiset Nat) = freed + k.freelist := by
  ext pa
  rw [count_add, coe_count, coe_count]
  have pages : k'.IsPage pa ↔ k.IsPage pa := by
    unfold Kmem.IsPage
    rw [kend]
  by_cases page : k.IsPage pa
  · have one := before.one_state pa page
    have one' := after.one_state pa (pages.2 page)
    rw [count_add] at one
    omega
  · have no : pa ∉ k.freelist := fun mem => page (before.univ_of_free mem)
    have no' : pa ∉ k'.freelist := fun mem => page (pages.1 (after.univ_of_free mem))
    have none : pa ∉ freed := fun mem => page (before.univ_of_excl (mem_add.2 (.inl mem)))
    rw [List.count_eq_zero.2 no, List.count_eq_zero.2 no', count_eq_zero.2 none]

end Xv6
