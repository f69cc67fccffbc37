import Xv6.PageAccounting
import Xv6.Radix.FreeWalk
import Xv6.Radix.Map

/-!
# A page table is a finite map

`Built k root excl shared`: memory `k` is what calls of `uvmcreate`, `walk`, `mappages` and
`uvmunmap` on the page table at `root` have left, with any other work of the kernel between them
that keeps its hands off the table pages.  `excl` and `shared` are the pages that the rest of the
kernel owns and shares.  In every such memory the page table is a map from virtual pages to
entries, and the calls change it where they say and nowhere else.
-/

namespace Xv6.Radix

open Ownership Fallible

variable {k k' : Kmem} {pt : PageTable} {excl shared excl' shared' : Multiset Nat}
  {root va v n : Nat}

/-! ## The pages of the tables -/

section Tables

variable {α : Type} {rep : Mem → Nat → α → Prop} {below : α → Multiset Nat} {level : Nat}

/-- The table pages found in memory are those of the tree, one level further up. -/
theorem tables_node {t : Node (Option (Node α))} (slots : NodeRep (tableRep rep) k.mem t)
    (pages : ∀ pa ∈ t.pages (slotPages below), k.IsPage pa)
    (each : ∀ c : Node α, NodeRep rep k.mem c → (∀ pa ∈ c.pages below, k.IsPage pa) →
      tables k.mem level c.page = c.pages below) :
    tables k.mem (level + 1) t.page = t.pages (slotPages below) := by
  have slot (i : Fin 512) : (if (readPte k.mem (slotAt t.page i)).has pteV then
      tables k.mem level (pte2pa (readPte k.mem (slotAt t.page i))) else 0) =
      slotPages below (t.slot i) := by
    have there := slots i
    cases slot : t.slot i with
    | none =>
      rw [slot] at there
      rw [if_neg]
      · rfl
      · rw [show (readPte k.mem (slotAt t.page i)).has pteV = false from there]
        exact Bool.false_ne_true
    | some c =>
      rw [slot] at there
      have under : ∀ pa ∈ c.pages below, k.IsPage pa := fun pa mem =>
        pages pa (mem_pages_of_slot (i := i) (by rw [slot]; exact mem))
      rw [there.1, if_pos, pte2pa_table (under _ (page_mem_pages below c))]
      · exact each c there.2 under
      · rw [table_has (by decide)]
        rfl
  rw [tables, Node.pages_eq]
  simp only [slot]

end Tables

theorem Tree.tables_eq (tree : Tree k root pt excl shared) : tables k.mem 2 root = pt.tables := by
  rw [← tree.at_root]
  refine tables_node tree.rep (fun pa mem => isPage_of_table tree.holds mem)
    fun l1 rep1 pages1 => ?_
  refine tables_node rep1 pages1 fun l0 _ _ => ?_
  rw [pages_low]
  rfl

/-! ## Page tables that the kernel builds -/

/-- `uvmcreate` makes an empty page table. -/
theorem uvmcreate_tree (holds : Holds k excl shared) (run : uvmcreate k = (k', some root)) :
    ∃ pt, Tree k' root pt excl shared ∧ ∀ v, pt.leaf v = 0 := by
  unfold uvmcreate at run
  cases alloc : kalloc k with
  | mk ka o =>
    cases o with
    | none =>
      rw [alloc] at run
      cases run
    | some pa =>
      rw [alloc] at run
      cases run
      obtain ⟨held, -⟩ := kalloc_some holds alloc
      refine ⟨⟨root, fun _ => none⟩, ⟨rfl, fun i => ?_, ?_, fun _ _ => rfl⟩, fun v => rfl⟩
      · change (readPte (memset ka.mem root 0 pgsize) (slotAt root i)).has pteV = false
        rw [readPte_memset]
        decide
      · have page : PageTable.tables ⟨root, fun _ => none⟩ = {root} := by
          rw [PageTable.tables, Node.pages_eq]
          simp only [slotPages, Finset.sum_const_zero, add_zero]
        rw [page, Multiset.singleton_add]
        exact held

/-- A page table built by `uvmcreate`, `walk`, `mappages` and `uvmunmap`. -/
inductive Built : Kmem → Nat → Multiset Nat → Multiset Nat → Prop
  | create {k k' : Kmem} {root : Nat} {excl shared : Multiset Nat} (holds : Holds k excl shared)
      (run : uvmcreate k = (k', some root)) : Built k' root excl shared
  | walk {k k' : Kmem} {root va : Nat} {excl shared : Multiset Nat} {r : Option Nat}
      (prior : Built k root excl shared) (run : walk k root va true = .ok (k', r)) :
      Built k' root excl shared
  | mappages {k k' : Kmem} {root va size pa : Nat} {perm : Pte} {excl shared : Multiset Nat}
      {r : Int} (prior : Built k root excl shared)
      (run : mappages k root va size pa perm = .ok (k', r)) : Built k' root excl shared
  -- with `do_free` the caller gives up the pages that were mapped
  | uvmunmap {k k' : Kmem} {root va npages : Nat} {doFree : Bool}
      {excl shared excl' shared' : Multiset Nat} (prior : Built k root excl shared)
      (run : uvmunmap k root va npages doFree = .ok k')
      (released : Released
        (if doFree then frames k root (va / pgsize) (unmapRounds va npages) else [])
        excl shared excl' shared') : Built k' root excl' shared'
  -- whatever else the kernel does with memory
  | others {k k' : Kmem} {root : Nat} {excl shared excl' shared' : Multiset Nat}
      (prior : Built k root excl shared) (holds : Holds k' (tables k.mem 2 root + excl') shared')
      (same : ∀ pa ∈ tables k.mem 2 root, SamePage k.mem k'.mem pa) : Built k' root excl' shared'

/-- `mappages` from the page of `va` on. -/
theorem mappages_eq {size pa : Nat} {perm : Pte} (some' : size ≠ 0) :
    mappages k root va size pa perm =
      mapLoop root perm
        ((pgrounddown ((va + size - 1) % 2 ^ 64) + 2 ^ 64 - pgrounddown va) % 2 ^ 64 /
        pgsize) k (va / pgsize * pgsize) pa := by
  unfold mappages
  rw [if_neg some']
  rfl

/-- `uvmunmap` from page `v` on. -/
theorem uvmunmap_page {doFree : Bool} (v n : Nat) : uvmunmap k root (v * pgsize) n doFree =
    unmapLoop root doFree (unmapRounds (v * pgsize) n) k (v * pgsize) := by
  unfold uvmunmap
  rw [if_neg]
  rw [Nat.mul_mod_left]
  exact fun no => no rfl

theorem unmapRounds_eq (small : (v + n) * pgsize < 2 ^ 64) : unmapRounds (v * pgsize) n = n := by
  unfold unmapRounds
  rw [← Nat.add_mul, Nat.mod_eq_of_lt small, ← Nat.sub_mul, Nat.add_sub_cancel_left,
    Nat.mul_div_cancel _ (by decide)]

theorem next_page_small (below : v * pgsize < maxva) : (v + 1) * pgsize < 2 ^ 64 := by
  rw [Nat.succ_mul]
  exact lt_trans (Nat.add_lt_add_right below pgsize) (by decide)

/-- `uvmunmap` returns only at a page boundary. -/
theorem uvmunmap_aligned {doFree : Bool} (run : uvmunmap k root va n doFree = .ok k') :
    ∃ v, va = v * pgsize := by
  unfold uvmunmap at run
  split at run
  · cases run
  · rename_i aligned
    refine ⟨va / pgsize, ?_⟩
    simp only [pgsize] at *
    omega

/-- Every page table that is built is a tree of pages of its own. -/
theorem Built.tree (built : Built k root excl shared) : ∃ pt, Tree k root pt excl shared := by
  induction built with
  | create holds run =>
    obtain ⟨pt, tree, -⟩ := uvmcreate_tree holds run
    exact ⟨pt, tree⟩
  | @walk k k' root va excl shared r prior run ih =>
    obtain ⟨pt, tree⟩ := ih
    rcases Nat.lt_or_ge va maxva with lt | ge
    · obtain ⟨k₁, pt₁, r₁, walked, tree₁, -⟩ := tree.alloc lt
      rw [walked] at run
      cases run
      exact ⟨pt₁, tree₁⟩
    · unfold Radix.walk at run
      rw [if_pos ge] at run
      cases run
  | @mappages k k' root va size pa perm excl shared r prior run ih =>
    obtain ⟨pt, tree⟩ := ih
    by_cases none : size = 0
    · unfold Radix.mappages at run
      rw [if_pos none] at run
      cases run
    · rw [mappages_eq none] at run
      obtain ⟨pt', -, tree', -⟩ := tree.mapLoop_mapped run
      exact ⟨pt', tree'⟩
  | uvmunmap prior run released ih =>
    obtain ⟨pt, tree⟩ := ih
    obtain ⟨v, rfl⟩ := uvmunmap_aligned run
    rw [uvmunmap_page] at run
    rw [Nat.mul_div_cancel _ (by decide)] at released
    exact (tree.unmapLoop_unmapped run released).1
  | others prior holds same ih =>
    obtain ⟨pt, tree⟩ := ih
    rw [tree.tables_eq] at holds same
    exact ⟨pt, tree.pass holds same⟩

/-- The pages of `[va, va + size)`, as the loop of `mappages` counts them. -/
theorem map_rounds {size : Nat} (some' : size ≠ 0) (fits : va + size ≤ 2 ^ 64) :
    (pgrounddown ((va + size - 1) % 2 ^ 64) + 2 ^ 64 - pgrounddown va) % 2 ^ 64 / pgsize =
      (va + size - 1) / pgsize - va / pgsize := by
  simp only [pgrounddown, pgsize]
  omega

/-- The flags of a new entry are those given to `mappages`, and the valid bit. -/
theorem pteFlags_mapEntry {pa : Nat} {perm : Pte} (flags : perm.toNat < 1024) :
    pteFlags (mapEntry pa perm) = perm ||| pteV := by
  have address : pa2pte pa &&& 0x3FF#64 = 0#64 := by
    have none := Pte.has_pa2pte (m := 0x3FF#64) pa (by decide)
    unfold Pte.has at none
    simpa using none
  have low : perm &&& 0x3FF#64 = perm := by
    refine BitVec.eq_of_toNat_eq ?_
    rw [BitVec.toNat_and]
    exact Nat.and_two_pow_sub_one_of_lt_two_pow (n := 10) flags
  have bit : pteV &&& 0x3FF#64 = pteV := by decide
  rw [pteFlags, mapEntry, BitVec.and_comm, BitVec.and_or_distrib_left, BitVec.and_or_distrib_left,
    BitVec.and_comm, address, BitVec.and_comm _ perm, low, BitVec.and_comm _ pteV, bit,
    BitVec.zero_or]

/-! ## The map -/

/-- The page table at `root` is a finite map from virtual pages to entries, and the functions of
`vm.c` are its operations. -/
structure FiniteMap (k : Kmem) (root : Nat) (excl shared : Multiset Nat) : Prop where
  /-- `walk(pagetable, va, 0)` looks up the page of `va` and changes nothing. -/
  lookup : ∀ va < maxva, ∃ r, walk k root va false = .ok (k, r) ∧
    (r.bind fun pte => valid (readPte k.mem pte)) = entry k root (va / pgsize)
  /-- Making tables changes no translation. -/
  alloc : ∀ va < maxva, ∃ k' r, walk k root va true = .ok (k', r) ∧
    ∀ w, entry k' root w = entry k root w
  /-- `mappages` adds the pages of `[va, va + size)`, or those before page `stop` when it finds
  no page for a table there. -/
  adds : ∀ va size pa perm k' r, va + size ≤ 2 ^ 64 →
    mappages k root va size pa perm = .ok (k', r) → ∃ stop,
      (r = 0 ∧ va + size ≤ stop * pgsize ∨ r = -1 ∧ stop * pgsize < va + size) ∧
      (∀ w, va / pgsize ≤ w → w < stop → w * pgsize < va + size → entry k root w = none) ∧
      ∀ w, entry k' root w = if va / pgsize ≤ w ∧ w < stop ∧ w * pgsize < va + size
        then some (mapEntry (pa + (w - va / pgsize) * pgsize) perm) else entry k root w
  /-- It does not panic on pages that are not mapped. -/
  adds_returns : ∀ va size pa perm, 0 < size → va + size ≤ maxva →
    (∀ w, va / pgsize ≤ w → w * pgsize < va + size → entry k root w = none) →
    Succeeds (mappages k root va size pa perm)
  /-- The entry of a page holds its address and the flags. -/
  holds : ∀ pa perm, pa % pgsize = 0 → pa < 2 ^ 56 → perm.toNat < 1024 →
    pte2pa (mapEntry pa perm) = pa ∧ pteFlags (mapEntry pa perm) = perm ||| pteV
  /-- `uvmunmap` removes the `npages` pages from `va` on. -/
  removes : ∀ va npages doFree k' excl' shared', va + npages * pgsize < 2 ^ 64 →
    Released (if doFree then frames k root (va / pgsize) npages else []) excl shared excl' shared' →
    uvmunmap k root va npages doFree = .ok k' → ∀ w, entry k' root w =
      if va / pgsize ≤ w ∧ w < va / pgsize + npages then none else entry k root w
  /-- It does not panic on pages that are mapped. -/
  removes_returns : ∀ v npages doFree excl' shared',
    (∀ w, v ≤ w → w < v + npages → ∃ e, entry k root w = some e ∧ pteFlags e ≠ pteV) →
    Released (if doFree then frames k root v npages else []) excl shared excl' shared' →
    Succeeds (uvmunmap k root (v * pgsize) npages doFree)
  /-- `freewalk` of an empty map returns, with each table page on the free list once. -/
  frees : (∀ w, entry k root w = none) → ∀ fuel ≥ 3, ∃ k', freewalk fuel k root = .ok k' ∧
    (tables k.mem 2 root).Nodup ∧
    (k'.freelist : Multiset Nat) = tables k.mem 2 root + k.freelist

namespace Tree

variable {size pa : Nat} {perm : Pte} {r : Int} {doFree : Bool}

section

variable (tree : Tree k root pt excl shared)
include tree

theorem lookup (lt : va < maxva) : ∃ r, walk k root va false = .ok (k, r) ∧
      (r.bind fun pte => valid (readPte k.mem pte)) = entry k root (va / pgsize) := by
  refine ⟨_, tree.walk_read lt, ?_⟩
  have page : va / pgsize * pgsize < maxva := lt_of_le_of_lt (Nat.div_mul_le_self _ _) lt
  rw [tree.entry_eq page, ← PageTable.lookup_getD, lookup_eq tree.rep]
  cases pteAddr pt va with
  | none => exact valid_zero.symm
  | some a => rfl

theorem mappages_adds (fits : va + size ≤ 2 ^ 64)
    (run : mappages k root va size pa perm = .ok (k', r)) : ∃ stop,
      (r = 0 ∧ va + size ≤ stop * pgsize ∨ r = -1 ∧ stop * pgsize < va + size) ∧
      (∀ w, va / pgsize ≤ w → w < stop → w * pgsize < va + size → entry k root w = none) ∧
      ∀ w, entry k' root w = if va / pgsize ≤ w ∧ w < stop ∧ w * pgsize < va + size
        then some (mapEntry (pa + (w - va / pgsize) * pgsize) perm) else entry k root w := by
  have some' : size ≠ 0 := by
    rintro rfl
    cases run
  rw [mappages_eq some', map_rounds some' fits] at run
  obtain ⟨-, j, -, ended, mapped⟩ := tree.mapLoop_mapped run
  have within (w : Nat) (low : va / pgsize ≤ w) (high : w < va / pgsize + j) :
      w * pgsize < va + size := by
    simp only [pgsize] at *
    omega
  refine ⟨va / pgsize + j, ?_, fun w low high _ => mapped.absent w low high, fun w => ?_⟩
  · rcases ended with ⟨rfl, all⟩ | ⟨rfl, part⟩
    · refine .inl ⟨rfl, ?_⟩
      simp only [pgsize] at *
      omega
    · refine .inr ⟨rfl, ?_⟩
      simp only [pgsize] at *
      omega
  · rw [mapped.entries]
    refine if_congr ⟨fun both => ⟨both.1, both.2, within w both.1 both.2⟩, fun three => ?_⟩ rfl rfl
    exact ⟨three.1, three.2.1⟩

theorem mappages_succeeds (pos : 0 < size) (fits : va + size ≤ maxva)
    (absent : ∀ w, va / pgsize ≤ w → w * pgsize < va + size → entry k root w = none) :
    Succeeds (mappages k root va size pa perm) := by
  have some' : size ≠ 0 := Nat.ne_of_gt pos
  have small : va + size ≤ 2 ^ 64 := le_trans fits (by decide)
  have within (w : Nat) (low : va / pgsize ≤ w)
      (high : w ≤ va / pgsize + ((va + size - 1) / pgsize - va / pgsize)) :
      w * pgsize < va + size := by
    simp only [pgsize] at *
    omega
  rw [mappages_eq some', map_rounds some' small]
  exact tree.mapLoop_succeeds (fun w low high => lt_of_lt_of_le (within w low high) fits)
    fun w low high => absent w low (within w low high)

theorem uvmunmap_removes (small : va + n * pgsize < 2 ^ 64)
    (released : Released (if doFree then frames k root (va / pgsize) n else []) excl shared excl'
      shared') (run : uvmunmap k root va n doFree = .ok k') (w : Nat) : entry k' root w =
      if va / pgsize ≤ w ∧ w < va / pgsize + n then none else entry k root w := by
  obtain ⟨v, rfl⟩ := uvmunmap_aligned run
  rw [← Nat.add_mul] at small
  rw [page_div] at released ⊢
  rw [uvmunmap_page, unmapRounds_eq small] at run
  exact (tree.unmapLoop_unmapped run released).2 w

theorem uvmunmap_succeeds
    (mapped : ∀ w, v ≤ w → w < v + n → ∃ e, entry k root w = some e ∧ pteFlags e ≠ pteV)
    (released : Released (if doFree then frames k root v n else []) excl shared excl' shared') :
    Succeeds (uvmunmap k root (v * pgsize) n doFree) := by
  have rounds : unmapRounds (v * pgsize) n = n := by
    cases n with
    | zero =>
      have le : v * pgsize % 2 ^ 64 ≤ v * pgsize := Nat.mod_le _ _
      rw [unmapRounds, Nat.zero_mul, Nat.add_zero, Nat.sub_eq_zero_of_le le, Nat.zero_div]
    | succ n =>
      obtain ⟨e, last, -⟩ := mapped (v + n) (by omega) (by omega)
      exact unmapRounds_eq (next_page_small (entry_lt last))
  rw [uvmunmap_page, rounds]
  exact tree.unmapLoop_succeeds mapped released

theorem freewalk_frees (empty : ∀ w, entry k root w = none) {fuel : Nat} (deep : 3 ≤ fuel) :
    ∃ k', Radix.freewalk fuel k root = .ok k' ∧
      (tables k.mem 2 root).Nodup ∧
      (k'.freelist : Multiset Nat) = tables k.mem 2 root + k.freelist := by
  have invalid : ∀ v, v * pgsize < maxva → (pt.leaf v).has pteV = false := by
    intro v lt
    have none := empty v
    rwa [tree.entry_eq lt, valid_eq_none] at none
  obtain ⟨k', run, holds, framed⟩ := tree.freewalk invalid deep
  rw [tree.tables_eq]
  exact ⟨k', run, tables_nodup tree.holds, freed_once tree.holds holds framed.kend⟩

end

end Tree

/-- A page table that the kernel has built is a finite map. -/
theorem page_table_finite_map (built : Built k root excl shared) :
    FiniteMap k root excl shared := by
  obtain ⟨pt, tree⟩ := built.tree
  constructor
  · intro va lt
    exact tree.lookup lt
  · intro va lt
    obtain ⟨k', -, r, run, -, same, -⟩ := tree.alloc lt
    exact ⟨k', r, run, same⟩
  · intro va size pa perm k' r fits run
    exact tree.mappages_adds fits run
  · intro va size pa perm pos fits absent
    exact tree.mappages_succeeds pos fits absent
  · intro pa perm aligned lt flags
    exact ⟨mapEntry_pa aligned lt flags, pteFlags_mapEntry flags⟩
  · intro va npages doFree k' excl' shared' small released run
    exact tree.uvmunmap_removes small released run
  · intro v npages doFree excl' shared' mapped released
    exact tree.uvmunmap_succeeds mapped released
  · intro empty fuel deep
    exact tree.freewalk_frees empty deep

/-- Two pages at the end of the address space and one at its start, in a page table made right
after `kinit`. -/
theorem page_table_three_pages : ∃ k root, Built k root 0 0 ∧ FiniteMap k root 0 0 ∧
    (∀ w ∈ [0, 2 ^ 26 - 2, 2 ^ 26 - 1], (entry k root w).isSome) ∧ entry k root 1 = none := by
  have pass : yields (kinit (phystop - 24 * pgsize) kernbase fun _ => 0) (fun k₀ =>
      (uvmcreate k₀).2.any fun root =>
        yields (mappages (uvmcreate k₀).1 root (maxva - 2 * pgsize) (2 * pgsize) kernbase pteR)
          fun d₂ => yields (mappages d₂.1 root 0 1 kernbase (pteR ||| pteW)) fun d₃ =>
            ([0, 2 ^ 26 - 2, 2 ^ 26 - 1].all fun w => (entry d₃.1 root w).isSome) &&
              (entry d₃.1 root 1).isNone) = true := by
    decide +kernel
  obtain ⟨k₀, init, pass⟩ := of_yields pass
  obtain ⟨root, made, pass⟩ := (Option.any_eq_true _ _).1 pass
  obtain ⟨⟨k₂, r₂⟩, top, pass⟩ := of_yields pass
  obtain ⟨⟨k₃, r₃⟩, bottom, pass⟩ := of_yields pass
  rw [Bool.and_eq_true_iff, List.all_eq_true, Option.isNone_iff_eq_none] at pass
  have created : Built (uvmcreate k₀).1 root 0 0 :=
    .create (kinit_holds init) (Prod.ext rfl made)
  have built : Built k₃ root 0 0 := .mappages (.mappages created top) bottom
  exact ⟨k₃, root, built, page_table_finite_map built, pass.1, pass.2⟩

end Xv6.Radix
