import Xv6.Teardown
import Xv6.Radix.Represents

/-!
# Walking and writing the tree in memory

`Tree k root pt excl shared`: the words from `root` on are the tree `pt`, and the allocator
knows its table pages as owned, next to the pages `excl` and `shared` of the rest of the system.
`walk` with allocation, a write through the pointer it returns and the release of a page that is
not a table keep this, and act on the tree as their counterparts of `Xv6.PageTable` do.
-/

namespace Xv6.Radix

open Ownership Fallible PageTable Multiset

variable {k k' : Kmem} {pt pt' : PageTable} {excl shared : Multiset Nat} {root va a p pa : Nat}
  {e : Pte} {i : Fin 512} {l1 : Node (Option (Node Pte))} {l0 : Node Pte}

/-! ## One level -/

/-- A page that is held next to the page `p` is another one. -/
theorem apart_of_cons (holds : Holds k (p ::ₘ excl) shared) (mem : pa ∈ excl + shared) :
    pa % pgsize = 0 ∧ pa ≠ p := by
  have held := mem_cons_self p excl
  rcases mem_add.1 mem with mem | mem
  · refine ⟨(holds.isPage_excl (mem_cons_of_mem mem)).aligned, ?_⟩
    rintro rfl
    exact (nodup_cons.1 (Ledger.excl_nodup holds)).1 mem
  · refine ⟨(holds.isPage_shared mem).aligned, ?_⟩
    rintro rfl
    exact Ledger.not_shared_of_excl holds held mem

section Level

variable {α : Type} {rep : Mem → Nat → α → Prop} {below : α → Multiset Nat}

/-- What one level of `walk` does to memory: `o` is what slot `i` of the table `p` leads to
now, and the other slots and the pages `kept` stay. -/
structure Grown (rep : Mem → Nat → α → Prop) (k k' : Kmem) (p : Nat) (i : Fin 512)
    (o : Option (Node α)) (kept : Multiset Nat) : Prop where
  framed : Framed k k' kept
  words : ∀ j ≠ i, readPte k'.mem (slotAt p j) = readPte k.mem (slotAt p j)
  there : ∀ t, o = some t → tableRep rep k'.mem (slotAt p i) (some t)

theorem Grown.rfl_of {o : Option (Node α)} {kept : Multiset Nat}
    (there : ∀ t, o = some t → tableRep rep k.mem (slotAt p i) (some t)) :
    Grown rep k k p i o kept :=
  ⟨Framed.refl _ _, fun _ _ => rfl, there⟩

/-- A table page taken from the allocator, cleared and entered in slot `i` of the table `p`. -/
theorem newTable_grown {zero : α} (zeroRep : ∀ mem a, readPte mem a = 0 → rep mem a zero)
    (holds : Holds k (p ::ₘ excl) shared) (alloc : kalloc k = (k', some pa)) : Grown rep k
      { k' with mem := writePte (memset k'.mem pa 0 pgsize) (slotAt p i) (pa2pte pa ||| pteV) } p i
      (some ⟨pa, fun _ => zero⟩) (excl + shared) := by
  obtain ⟨-, framed, page, ⟨fresh, freshShared⟩, -⟩ := kalloc_some holds alloc
  have held := mem_cons_self p excl
  have own := holds.isPage_excl held
  have other : p ≠ pa := by
    rintro rfl
    exact fresh held
  -- the page of the slot itself, before its word is written
  have cleared : ∀ pb ∈ (p ::ₘ excl) + shared, SamePage k.mem (memset k'.mem pa 0 pgsize) pb := by
    intro pb mem
    have aligned : pb % pgsize = 0 := by
      rcases mem_add.1 mem with mem | mem
      · exact (holds.isPage_excl mem).aligned
      · exact (holds.isPage_shared mem).aligned
    refine (framed.same pb mem).trans (SamePage.memset aligned page.aligned ?_ le_rfl)
    rintro rfl
    exact (mem_add.1 mem).elim fresh freshShared
  refine ⟨⟨framed.kend, framed.trampoline, fun pb mem => ?_⟩, fun j ne => ?_, fun t same => ?_⟩
  · obtain ⟨aligned, apart⟩ := apart_of_cons holds mem
    refine (cleared pb ?_).trans (samePage_writePte own.aligned aligned apart _ i _)
    rw [cons_add]
    exact mem_cons_of_mem mem
  · change readPte (writePte _ (slotAt p i) _) _ = _
    rw [readPte_writePte_other own.aligned own.aligned (.inr (Ne.symm ne))]
    exact readPte_samePage (cleared p (mem_add.2 (.inl held))) j
  · cases same
    refine ⟨readPte_writePte _ _ _, fun j => zeroRep _ _ ?_⟩
    change readPte (writePte _ (slotAt p i) _) (slotAt pa j) = 0
    rw [readPte_writePte_other own.aligned page.aligned (.inl other)]
    exact readPte_memset _ pa j

theorem kalloc_setMem (k : Kmem) (m : Mem) : ∃ m', kalloc { k with mem := m } =
    ({ (kalloc k).1 with mem := m' }, (kalloc k).2) := by
  obtain ⟨kend, trampoline, list, refs, mem⟩ := k
  cases list with
  | nil => exact ⟨m, rfl⟩
  | cons r rest => exact ⟨_, rfl⟩

/-- One level of `walk` with allocation follows the slot of the tree, or adds an empty table. -/
theorem nextTable_grown (zero : α) {slot : Option (Node α)}
    (zeroRep : ∀ mem a, readPte mem a = 0 → rep mem a zero) (empty : below zero = 0)
    (there : tableRep rep k.mem (slotAt p i) slot)
    (holds : Holds k (slotPages below slot + (p ::ₘ excl)) shared) :
    ∃ o k', nextTable k (slotAt p i) true = (k', o.map Node.page) ∧
      (∀ m, ∃ m', Xv6.nextTable { k with mem := m } zero slot = ({ k' with mem := m' }, o)) ∧
      (o = none → k' = k) ∧
      (∀ t, o = some t → Holds k' (t.pages below + (p ::ₘ excl)) shared) ∧
      Grown rep k k' p i o (excl + shared) := by
  cases slot with
  | some t =>
    have page := holds.isPage_excl (mem_add.2 (.inl (page_mem_pages below t)))
    refine ⟨some t, k, nextTable_some there page, fun m => ⟨m, rfl⟩, ?_, ?_, Grown.rfl_of ?_⟩
    · intro no
      cases no
    · intro t' same
      cases same
      exact holds
    · intro t' same
      cases same
      exact there
  | none =>
    rw [slotPages, zero_add] at holds
    cases alloc : kalloc k with
    | mk ka o =>
      have spec (m : Mem) := kalloc_setMem k m
      rw [alloc] at spec
      cases o with
      | none =>
        obtain ⟨rfl, -⟩ := kalloc_none alloc
        refine ⟨none, ka, nextTable_null there alloc, fun m => ?_, fun _ => rfl, ?_,
          Grown.rfl_of ?_⟩
        · obtain ⟨m', run⟩ := spec m
          exact ⟨m', by rw [Xv6.nextTable, newTable, run]⟩
        · intro t no
          cases no
        · intro t no
          cases no
      | some pa =>
        refine ⟨some ⟨pa, fun _ => zero⟩, _, nextTable_new there alloc, fun m => ?_, ?_, ?_,
          newTable_grown zeroRep holds alloc⟩
        · obtain ⟨m', run⟩ := spec m
          exact ⟨_, by rw [Xv6.nextTable, newTable, run]⟩
        · intro no
          cases no
        · intro t same
          cases same
          obtain ⟨held, -⟩ := kalloc_some holds alloc
          rw [Node.pages_eq]
          simp only [empty, Finset.sum_const_zero, add_zero, singleton_add]
          exact held

end Level

/-! ## The tree -/

/-- The words from `root` on are the tree `pt`, whose pages are owned. -/
structure Tree (k : Kmem) (root : Nat) (pt : PageTable) (excl shared : Multiset Nat) : Prop where
  at_root : pt.page = root
  rep : Represents k.mem pt
  holds : Holds k (pt.tables + excl) shared
  low : LowHalf pt

namespace Tree

theorem walk_read (tree : Tree k root pt excl shared) (lt : va < maxva) :
    walk k root va false = .ok (k, pteAddr pt va) := by
  rw [← tree.at_root]
  exact Radix.walk_read tree.rep tree.holds lt

/-- `walk` with allocation does what it does to the tree, and changes no other page. -/
theorem walk_alloc (tree : Tree k root pt excl shared) (lt : va < maxva) :
    ∃ k' pt' found ka, walk k root va true = .ok (k', if found then pteAddr pt' va else none) ∧
      walkAlloc k pt va = .ok (ka, pt', found) ∧ Tree k' root pt' excl shared ∧
      Framed k k' (excl + shared) := by
  have holds := tree.holds
  rw [PageTable.tables, pages_at _ pt (px 2 va), add_assoc, Multiset.cons_add] at holds
  obtain ⟨o2, k2, run2, spec2, null2, holds2, grown2⟩ :=
    nextTable_grown none (fun mem a zero => by rw [tableRep, zero]; decide) rfl
      (tree.rep (px 2 va)) holds
  obtain ⟨m2, spec2⟩ := spec2 k.mem
  have low2 (x) := tree.low.set (px_low lt) x
  unfold walk walkAlloc
  rw [if_neg (Nat.not_le.2 lt), if_neg (Nat.not_le.2 lt), ← tree.at_root]
  simp only [walkLoop, run2, spec2]
  cases o2 with
  | none =>
    cases null2 rfl
    exact ⟨k, pt, false, _, rfl, rfl, ⟨rfl, tree.rep, tree.holds, tree.low⟩, .refl _ _⟩
  | some l1 =>
    have holds2 := holds2 l1 rfl
    have there2 := grown2.there l1 rfl
    have rep2 := midLocal.set tree.rep there2 grown2.words fun pa mem =>
      grown2.framed.same pa (mem_add.2 (.inl (mem_add.2 (.inl mem))))
    have holds1 := holds2
    rw [pages_at _ l1 (px 1 va), add_assoc, cons_add] at holds1
    obtain ⟨o1, k1, run1, spec1, null1, holds1, grown1⟩ :=
      nextTable_grown (0 : Pte) (fun mem a zero => zero) rfl (there2.2 (px 1 va)) holds1
    obtain ⟨m1, spec1⟩ := spec1 m2
    simp only [Option.map_some, run1, spec1]
    have keep2 : Framed k k2 (excl + shared) := grown2.framed.mono fun pa mem => by
      simp only [mem_add] at mem ⊢
      tauto
    cases o1 with
    | none =>
      cases null1 rfl
      refine ⟨k2, _, false, _, rfl, rfl, ⟨rfl, rep2, ?_, low2 _⟩, keep2⟩
      rw [PageTable.tables, pages_set, add_assoc, Multiset.cons_add]
      exact holds2
    | some l0 =>
      have there1 := grown1.there l0 rfl
      have rep1 := lowLocal.set there2.2 there1 grown1.words fun pa mem =>
        grown1.framed.same pa (mem_add.2 (.inl (mem_add.2 (.inl mem))))
      have keep1 {pa : Nat} (mem : pa ∈ (pt.page ::ₘ others (slotPages lowPages) pt (px 2 va)) +
          excl + shared) : SamePage k2.mem k1.mem pa := by
        refine grown1.framed.same pa ?_
        simp only [mem_add, mem_cons] at mem ⊢
        tauto
      refine ⟨k1, _, true, _, ?_, rfl, ⟨rfl, ?_, ?_, low2 _⟩, ?_⟩
      · simp [pteAddr, Node.set]
      · refine midLocal.set tree.rep ⟨?_, rep1⟩ (fun j ne => ?_) fun pa mem => ?_
        · have own := keep1 (mem_add.2 (.inl (mem_add.2 (.inl (mem_cons_self _ _)))))
          rw [readPte_samePage own, there2.1]
          rfl
        · have own := keep1 (mem_add.2 (.inl (mem_add.2 (.inl (mem_cons_self _ _)))))
          rw [readPte_samePage own, grown2.words j ne]
        · refine (grown2.framed.same pa ?_).trans (keep1 ?_)
          · simp only [mem_add]
            tauto
          · simp only [mem_add, mem_cons]
            tauto
      · rw [PageTable.tables, pages_set, slotPages, pages_set, add_assoc, add_assoc,
          cons_add, cons_add]
        exact holds1 l0 rfl
      · refine keep2.trans (grown1.framed.mono fun pa mem => ?_)
        simp only [mem_add, mem_cons] at mem ⊢
        tauto

/-! ## Writing an entry -/

/-- The table pages, seen from the table that holds an entry. -/
theorem tables_at {i j : Fin 512} (there1 : pt.slot i = some l1) (there0 : l1.slot j = some l0) :
    pt.tables = l0.page ::ₘ ((l1.page ::ₘ others lowPages l1 j) +
      (pt.page ::ₘ others (slotPages lowPages) pt i)) := by
  have low : lowPages (l1.slot j) = {l0.page} := by
    rw [there0]
    exact pages_low l0
  have mid : slotPages lowPages (pt.slot i) = {l0.page} + (l1.page ::ₘ others lowPages l1 j) := by
    rw [there1, ← low]
    exact pages_at _ l1 j
  rw [PageTable.tables, pages_at _ pt i, mid, add_assoc, Multiset.singleton_add]

/-- A write to the word of a leaf changes the leaf in the tree. -/
theorem store_rep (rep : Represents k.mem pt) (holds : Holds k (pt.tables + excl) shared)
    (there1 : pt.slot (px 2 va) = some l1) (there0 : l1.slot (px 1 va) = some l0) (e : Pte) :
    Represents (writePte k.mem (slotAt l0.page (px 0 va)) e)
      (pt.set (px 2 va) (some (l1.set (px 1 va) (some (l0.set (px 0 va) e))))) := by
  have pages := tables_at there1 there0
  have once := tables_nodup holds
  rw [pages, nodup_cons] at once
  have aligned : l0.page % pgsize = 0 :=
    (isPage_of_table holds (mem_tables_low there1 there0)).aligned
  -- every other table page is left alone
  have same {pa : Nat} (mem : pa ∈ (l1.page ::ₘ others lowPages l1 (px 1 va)) +
      (pt.page ::ₘ others (slotPages lowPages) pt (px 2 va))) :
      SamePage k.mem (writePte k.mem (slotAt l0.page (px 0 va)) e) pa := by
    have table : pa ∈ pt.tables := by
      rw [pages]
      exact mem_cons_of_mem mem
    refine samePage_writePte aligned (isPage_of_table holds table).aligned ?_ _ _ _
    rintro rfl
    exact once.1 mem
  simp only [mem_add, mem_cons] at same
  have mid := rep (px 2 va)
  rw [there1] at mid
  have low := mid.2 (px 1 va)
  rw [there0] at low
  have leaf : NodeRep leafRep _ (l0.set (px 0 va) e) :=
    leafRep_local.set low.2 (readPte_writePte k.mem (slotAt l0.page (px 0 va)) e)
      (fun j ne => readPte_writePte_other aligned aligned (.inr (Ne.symm ne)))
      (fun pa mem => absurd mem (by simp [others_leaf]))
  have level1 := leafRep_local.descend (d := l0.set (px 0 va) e) mid.2 there0 rfl leaf
    (same (.inl (.inl rfl))) fun pa mem => same (.inl (.inr mem))
  exact lowLocal.descend (d := l1.set (px 1 va) _) rep there1 rfl level1
    (same (.inr (.inl rfl))) fun pa mem => same (.inr (.inr mem))

/-- `*pte = e` through the pointer that `walk` returned. -/
theorem write (tree : Tree k root pt excl shared) (found : pteAddr pt va = some a) (e : Pte) :
    Tree { k with mem := writePte k.mem a e } root (pt.store va e) excl shared := by
  obtain ⟨l1, there1, l0, there0, rfl⟩ := pteAddr_some found
  have stored : pt.store va e =
      pt.set (px 2 va) (some (l1.set (px 1 va) (some (l0.set (px 0 va) e)))) := by
    simp only [store, there1, there0]
  refine ⟨?_, ?_, ?_, tree.low.store va e⟩
  · rw [stored]
    exact tree.at_root
  · rw [stored]
    exact store_rep tree.rep tree.holds there1 there0 e
  · rw [tables_store]
    exact tree.holds

/-- Pages that are not tables change hands. -/
theorem pass {excl' shared' : Multiset Nat} (tree : Tree k root pt excl shared)
    (holds : Holds k' (pt.tables + excl') shared')
    (same : ∀ pa ∈ pt.tables, SamePage k.mem k'.mem pa) :
    Tree k' root pt excl' shared' :=
  ⟨tree.at_root, tree.rep.frame same, holds, tree.low⟩

end Tree

end Xv6.Radix
