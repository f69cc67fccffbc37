import Xv6.SpacesStep

/-!
# Every page is accounted for

In every state that any interleaving of the kernel's calls reaches from `kinit`, a page
is free, or owned by one part of the kernel, or mapped by user entries, and its
copy-on-write count is one less than the number of those.
-/

namespace Xv6

open Ownership Fallible PageTable Multiset Finset List

/-! ## The pages after `kinit` -/

/-- `freerange` on pages that are all owned by the boot code. -/
theorem freeLoop_holds {l : List Nat} {k k' : Kmem} {start : Nat}
    (run : l.foldlM (fun k i => kfree k (start + i * pgsize)) k = .ok k')
    (holds : Holds k ((l.map fun i => start + i * pgsize : List Nat) : Multiset Nat) 0) :
    Holds k' 0 0 := by
  induction l generalizing k with
  | nil =>
    cases run
    exact holds
  | cons i l ih =>
    rw [foldlM_cons] at run
    obtain ⟨k₁, freed, rest⟩ := of_bind_ok run
    rw [List.map_cons, ← cons_coe] at holds
    obtain ⟨k₂, freed', holds', -, -⟩ := kfree_excl holds
    rw [freed] at freed'
    cases freed'
    exact ih rest holds'

/-- `freerange` frees pages of the pool only. -/
theorem freeLoop_isPage {l : List Nat} {k k' : Kmem} {start : Nat}
    (run : l.foldlM (fun k i => kfree k (start + i * pgsize)) k = .ok k') :
    ∀ i ∈ l, k.IsPage (start + i * pgsize) := by
  induction l generalizing k with
  | nil =>
    intro i mem
    cases mem
  | cons j l ih =>
    rw [foldlM_cons] at run
    obtain ⟨k₁, freed, rest⟩ := of_bind_ok run
    have page : k.IsPage (start + j * pgsize) ∧ k₁.kend = k.kend := by
      unfold kfree at freed
      split at freed
      · cases freed
      · rename_i range
        refine ⟨⟨by omega, by omega, by omega⟩, ?_⟩
        split at freed <;>
          · cases freed
            rfl
    intro i mem
    rcases mem_cons.1 mem with rfl | later
    · exact page.1
    · have := ih rest i later
      unfold Kmem.IsPage at this ⊢
      rwa [page.2] at this

/-- The pages from `start` to `PHYSTOP`, as `freerange` enumerates them. -/
def rangePages (start : Nat) : List Nat :=
  (List.range ((phystop - start) / pgsize)).map fun i => start + i * pgsize

theorem rangePages_nodup (start : Nat) : (rangePages start).Nodup := by
  refine List.Nodup.map (fun i j same => ?_) List.nodup_range
  simp only [pgsize] at same
  omega

/-- After `kinit` every page is free. -/
theorem kinit_holds {kend trampoline : Nat} {mem : Mem} {k : Kmem}
    (run : kinit kend trampoline mem = .ok k) : Holds k 0 0 := by
  unfold kinit freerange at run
  refine freeLoop_holds run ?_
  have inPool (pa : Nat) : (⟨kend, trampoline, [], fun _ => 0, mem⟩ : Kmem).IsPage pa ↔
      pa ∈ rangePages (pgroundup kend) := by
    simp only [rangePages, List.mem_map, List.mem_range]
    constructor
    · rintro ⟨aligned, low, high⟩
      refine ⟨(pa - pgroundup kend) / pgsize, ?_, ?_⟩ <;>
        simp only [pgroundup, pgsize, phystop, kernbase] at * <;> omega
    · rintro ⟨i, lt, rfl⟩
      exact freeLoop_isPage run i (List.mem_range.2 lt)
  refine ⟨fun pa page => ?_, fun pa mem => ?_, fun pa _ => rfl⟩
  · have once := count_eq_one_of_mem (rangePages_nodup _) ((inPool pa).1 page)
    rw [count_nil, count_zero, coe_count]
    simpa [rangePages] using once
  · rcases mem with mem | mem | mem
    · cases mem
    · exact (inPool pa).2 (mem_coe.1 mem)
    · cases notMem_zero pa mem

/-! ## Counting mappings -/

/-- The number of user entries of an address space that map `pa`. -/
def Space.mappings (sp : Space) (pa : Nat) : Nat :=
  ((Finset.range (npages sp.sz)).filter fun v =>
    (sp.pagetable.entry v).any fun e => pte2pa e == pa).card

namespace Machine

/-- The user entries that map `pa`, over all address spaces. -/
def mapCount (m : Machine) (pa : Nat) : Nat :=
  ∑ id ∈ all, match m.space id with
    | none => 0
    | some sp => sp.mappings pa

/-- A page with another owner in the kernel: a table page, or one that it holds. -/
def KernelOwned (m : Machine) (pa : Nat) : Prop :=
  pa ∈ m.held ∨ ∃ id sp, m.space id = some sp ∧ pa ∈ sp.pagetable.tables

end Machine

/-- An entry counts once, as a private page or as a shared one. -/
theorem count_entry (pt : PageTable) (v pa : Nat) :
    (privOf (pt.leaf v)).count pa + (cowOf (pt.leaf v)).count pa =
      if (pt.entry v).any fun e => pte2pa e == pa then 1 else 0 := by
  unfold entry
  cases valid : (pt.leaf v).has pteV with
  | false => simp [privOf_invalid valid, cowOf_invalid valid]
  | true =>
    cases marked : (pt.leaf v).has pteCow with
    | false =>
      obtain ⟨priv, cow⟩ := privOf_private valid marked
      by_cases same : pa = pte2pa (pt.leaf v)
      · simp [priv, cow, same]
      · simp [priv, cow, same, Ne.symm same]
    | true =>
      obtain ⟨priv, cow⟩ := privOf_cow valid marked
      by_cases same : pa = pte2pa (pt.leaf v)
      · simp [priv, cow, same]
      · simp [priv, cow, same, Ne.symm same]

theorem Space.mappings_eq {sp : Space} (table : UserTable sp.pagetable sp.sz) (pa : Nat) :
    sp.mappings pa = sp.pagetable.privs.count pa + sp.pagetable.cows.count pa := by
  have pages := npages_le_userPages table.small
  have sum : sp.pagetable.privs.count pa + sp.pagetable.cows.count pa = ∑ v ∈ range userPages,
        if (sp.pagetable.entry v).any fun e => pte2pa e == pa then 1 else 0 := by
    rw [privs, cows, mapped_eq, mapped_eq, count_sum', count_sum', ← sum_add_distrib]
    exact sum_congr rfl fun v _ => count_entry _ v pa
  have short : ∑ v ∈ range (npages sp.sz),
        (if (sp.pagetable.entry v).any (fun e => pte2pa e == pa) then 1 else 0) =
      ∑ v ∈ range userPages,
        if (sp.pagetable.entry v).any fun e => pte2pa e == pa then 1 else 0 := by
    refine sum_subset (range_mono pages) fun v user out => ?_
    rw [table.entry_above (by simpa using out) (Finset.mem_range.1 user)]
    simp
  rw [sum, ← short, Space.mappings, Finset.card_filter]

namespace Machine

variable {m : Machine} {pa : Nat}

/-- Occurrences of `pa` among some of the pages of an address space. -/
def pagesCount (pages : PageTable → Multiset Nat) (pa : Nat) : Option Space → Nat
  | none => 0
  | some sp => (pages sp.pagetable).count pa

/-- What the owned pages are: pages of the kernel, and private user pages. -/
theorem exclOf_count (m : Machine) (pa : Nat) :
    (m.exclOf all).count pa = ∑ id ∈ all, pagesCount tables pa (m.space id) +
      m.held.count pa + ∑ id ∈ all, pagesCount privs pa (m.space id) := by
  have each (o : Option Space) : (spaceExcl o).count pa =
      pagesCount tables pa o + pagesCount privs pa o := by
    cases o with
    | none => rfl
    | some sp => exact count_add pa _ _
  rw [exclOf_eq, count_add, count_sum', coe_count]
  simp only [each, sum_add_distrib]
  omega

theorem mapCount_eq (inv : m.Inv) (pa : Nat) :
    m.mapCount pa = ∑ id ∈ all, pagesCount privs pa (m.space id) + (m.sharedOf all).count pa := by
  rw [sharedOf_eq, count_sum', mapCount, ← sum_add_distrib]
  refine sum_congr rfl fun id _ => ?_
  cases space : m.space id with
  | none => rfl
  | some sp => exact Space.mappings_eq (inv.table id sp space) pa

theorem kernelOwned_iff (m : Machine) (pa : Nat) : m.KernelOwned pa ↔
      0 < ∑ id ∈ all, pagesCount tables pa (m.space id) + m.held.count pa := by
  have tables : (∃ id sp, m.space id = some sp ∧ pa ∈ sp.pagetable.tables) ↔
      0 < ∑ id ∈ all, pagesCount tables pa (m.space id) := by
    rw [sum_pos_iff]
    constructor
    · rintro ⟨id, sp, space, mem⟩
      refine ⟨id, mem_univ _, ?_⟩
      rw [space]
      exact count_pos.2 mem
    · rintro ⟨id, -, pos⟩
      cases space : m.space id with
      | none =>
        rw [space] at pos
        exact absurd pos (Nat.lt_irrefl 0)
      | some sp =>
        rw [space] at pos
        exact ⟨id, sp, space, count_pos.1 pos⟩
  rw [KernelOwned, tables, ← count_pos_iff]
  omega

theorem boot_inv {kend trampoline : Nat} {mem : Mem} {k : Kmem}
    (init : kinit kend trampoline mem = .ok k) : (boot k).Inv := by
  refine ⟨?_, fun id sp space => by cases space⟩
  have excl : (boot k).exclOf all = 0 := by
    rw [exclOf_eq]
    simp [boot, spaceExcl]
  have shared : (boot k).sharedOf all = 0 := by
    rw [sharedOf_eq]
    simp [boot, spaceShared]
  rw [excl, shared]
  exact kinit_holds init

theorem Reachable.inv (reach : m.Reachable) : m.Inv := by
  obtain ⟨kend, trampoline, mem, k, init, run⟩ := reach
  exact run.inv (boot_inv init)

theorem Inv.isPage_of_mapped (inv : m.Inv) (mapped : 1 ≤ m.mapCount pa) : m.kmem.IsPage pa := by
  rw [mapCount_eq inv] at mapped
  have count := exclOf_count m pa
  rcases Nat.eq_zero_or_pos ((m.sharedOf all).count pa) with zero | pos
  · exact inv.holds.isPage_excl (count_pos.1 (by omega))
  · exact inv.holds.isPage_shared (count_pos.1 pos)

theorem Inv.isPage_of_owned (inv : m.Inv) (owned : m.KernelOwned pa) : m.kmem.IsPage pa := by
  rw [kernelOwned_iff] at owned
  have count := exclOf_count m pa
  exact inv.holds.isPage_excl (count_pos.1 (by omega))

/-- The three states of a page of the pool. -/
theorem Inv.page_state (inv : m.Inv) (page : m.kmem.IsPage pa) :
    (pa ∈ m.kmem.freelist ∧ m.mapCount pa = 0 ∧ ¬ m.KernelOwned pa ∧ m.kmem.refs pa = 0) ∨
      (pa ∉ m.kmem.freelist ∧ m.mapCount pa = 0 ∧ m.KernelOwned pa ∧ m.kmem.refs pa = 0) ∨
      (pa ∉ m.kmem.freelist ∧ 1 ≤ m.mapCount pa ∧ ¬ m.KernelOwned pa ∧
        m.kmem.refs pa = m.mapCount pa - 1) := by
  have one := inv.holds.one_state pa page
  have count := inv.holds.extra_eq pa page
  rw [exclOf_count] at one
  rw [mapCount_eq inv, kernelOwned_iff, ← count_pos_iff]
  omega

end Machine

/-- Every page is free, owned by one part of the kernel with count zero, or mapped by
user entries with a count one less than their number; a page of the pool is free exactly
when nobody maps or owns it. -/
theorem page_accounting {m : Machine} (reach : m.Reachable) :
    m.kmem.freelist.Nodup ∧
      (∀ pa ∈ m.kmem.freelist, m.mapCount pa = 0 ∧ ¬ m.KernelOwned pa) ∧
      (∀ pa, 1 ≤ m.mapCount pa → m.kmem.refs pa = m.mapCount pa - 1) ∧
      (∀ pa, m.KernelOwned pa → m.kmem.refs pa = 0 ∧ m.mapCount pa = 0) ∧
      ∀ pa, m.kmem.IsPage pa →
        (pa ∈ m.kmem.freelist ↔ m.mapCount pa = 0 ∧ ¬ m.KernelOwned pa) := by
  have inv := reach.inv
  refine ⟨Ledger.free_nodup inv.holds, fun pa free => ?_, fun pa mapped => ?_, fun pa owned => ?_,
    fun pa page => ?_⟩
  · obtain ⟨-, zero, unowned, -⟩ | ⟨no, -⟩ | ⟨no, -⟩ :=
      inv.page_state (Ledger.univ_of_free inv.holds free)
    · exact ⟨zero, unowned⟩
    · exact absurd free no
    · exact absurd free no
  · obtain ⟨-, zero, -⟩ | ⟨-, zero, -⟩ | ⟨-, -, -, count⟩ :=
      inv.page_state (inv.isPage_of_mapped mapped)
    · omega
    · omega
    · exact count
  · obtain ⟨-, -, no, -⟩ | ⟨-, zero, -, count⟩ | ⟨-, -, no, -⟩ :=
      inv.page_state (inv.isPage_of_owned owned)
    · exact absurd owned no
    · exact ⟨count, zero⟩
    · exact absurd owned no
  · obtain ⟨free, zero, unowned, -⟩ | ⟨no, -, owned, -⟩ | ⟨no, some, -⟩ := inv.page_state page
    · exact ⟨fun _ => ⟨zero, unowned⟩, fun _ => free⟩
    · exact ⟨fun free => absurd free no, fun unowned => absurd owned unowned.2⟩
    · exact ⟨fun free => absurd free no, fun none => by omega⟩

/-- The calls of a process that gets one page of memory and forks. -/
def forkCalls : List Call :=
  [.kalloc, .procPagetable (.proc 0) (phystop - pgsize), .uvmalloc (.proc 0) pgsize pteW,
    .kalloc, .procPagetable (.proc 1) (phystop - 8 * pgsize), .uvmcowpy (.proc 0) (.proc 1)]

/-- After the fork the page is mapped twice and has a count of one. -/
theorem page_accounting_fork : ∃ m : Machine, m.Reachable ∧
    m.mapCount (phystop - 5 * pgsize) = 2 ∧ m.kmem.refs (phystop - 5 * pgsize) = 1 := by
  have pass : yields (bootCalls 16 forkCalls)
      (fun m => m.mapCount (phystop - 5 * pgsize) == 2) = true := by
    decide +kernel
  obtain ⟨m, made, test⟩ := of_yields pass
  have twice := eq_of_beq test
  have reach := reachable_of_bootCalls made
  refine ⟨m, reach, twice, ?_⟩
  rw [(page_accounting reach).2.2.1 _ (by omega), twice]

end Xv6
