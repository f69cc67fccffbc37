import Xv6.PageTable

/-!
# What a page table owns

A page table owns its table pages and the pages it maps for the user without the
copy-on-write mark, and it is one holder of every page it maps with the mark.
`Owned k pt excl shared` says so in the ledger of the allocator, next to the pages
that the rest of the system owns (`excl`) and shares (`shared`).

Each operation on a page table moves `Owned` along and leaves the pages of the
rest of the system, and those it still maps itself, as they were.
-/

namespace Xv6

open Ownership Fallible PageTable Multiset

/-- The pages of `pt`, in a system whose other pages are `excl` and `shared`. -/
def Owned (k : Kmem) (pt : PageTable) (excl shared : Multiset Nat) : Prop :=
  Holds k (pt.tables + (pt.privs + excl)) (pt.cows + shared)

/-- The user pages of `pt` and the pages of the rest of the system. -/
abbrev PageTable.kept (pt : PageTable) (excl shared : Multiset Nat) : Multiset Nat :=
  (pt.privs + excl) + (pt.cows + shared)

theorem PageTable.rest_kept (pt : PageTable) {excl shared : Multiset Nat} {pa : Nat}
    (mem : pa ∈ excl + shared) : pa ∈ pt.kept excl shared := by
  simp only [kept, mem_add] at *
  tauto

theorem privOf_invalid {e : Pte} (invalid : e.has pteV = false) : privOf e = 0 := by
  simp [privOf, invalid]

theorem cowOf_invalid {e : Pte} (invalid : e.has pteV = false) : cowOf e = 0 := by
  simp [cowOf, invalid]

theorem privOf_private {e : Pte} (valid : e.has pteV = true) (plain : e.has pteCow = false) :
    privOf e = {pte2pa e} ∧ cowOf e = 0 := by
  simp [privOf, cowOf, valid, plain]

theorem privOf_cow {e : Pte} (valid : e.has pteV = true) (marked : e.has pteCow = true) :
    privOf e = 0 ∧ cowOf e = {pte2pa e} := by
  simp [privOf, cowOf, valid, marked]

section Entries

variable {k k' : Kmem} {pt pt' : PageTable} {excl shared : Multiset Nat} {v : Nat} {found : Bool}

/-- The owned pages, split at the entry of one user page. -/
theorem PageTable.split_at (user : v < userPages) (found : (pt.lookup (v * pgsize)).isSome) :
    ∃ privRest cowRest, pt.privs = privOf (pt.leaf v) + privRest ∧
      pt.cows = cowOf (pt.leaf v) + cowRest ∧
      ∀ e, (pt.store (v * pgsize) e).privs = privOf e + privRest ∧
        (pt.store (v * pgsize) e).cows = cowOf e + cowRest := by
  obtain ⟨privRest, priv, privStore⟩ := pt.mapped_split privOf user found
  obtain ⟨cowRest, cow, cowStore⟩ := pt.mapped_split cowOf user found
  exact ⟨privRest, cowRest, priv, cow, fun e => ⟨privStore e, cowStore e⟩⟩

section

variable (owned : Owned k pt excl shared)
include owned

/-- A private user page is owned by nobody else and shared by nobody. -/
theorem Owned.isPage_priv {pa : Nat} (mem : pa ∈ pt.privs) : k.IsPage pa :=
  Holds.isPage_excl owned (by simp [mem])

theorem Owned.isPage_cow {pa : Nat} (mem : pa ∈ pt.cows) : k.IsPage pa :=
  Holds.isPage_shared owned (by simp [mem])

/-- Every valid user entry maps a page of the allocator. -/
theorem Owned.isPage_leaf (user : v < userPages)
    (valid : (pt.leaf v).has pteV = true) : k.IsPage (pte2pa (pt.leaf v)) := by
  cases marked : (pt.leaf v).has pteCow with
  | false =>
    refine owned.isPage_priv (mem_mapped user ?_)
    rw [(privOf_private valid marked).1]
    exact mem_singleton_self _
  | true =>
    refine owned.isPage_cow (mem_mapped user ?_)
    rw [(privOf_cow valid marked).2]
    exact mem_singleton_self _

end

theorem walkAlloc_owned {va : Nat} (run : walkAlloc k pt va = .ok (k', pt', found))
    (owned : Owned k pt excl shared) :
    Owned k' pt' excl shared ∧ Framed k k' (pt.kept excl shared) := by
  have same := walkAlloc_leaf run
  unfold Owned at owned ⊢
  rw [privs, cows, mapped_congr same, mapped_congr same]
  exact walkAlloc_holds run owned

/-! ## Mapping -/

variable {pa n : Nat} {perm : Pte} {k₂ : Kmem} {pt₂ : PageTable} {doFree : Bool}

/-- `mappages` of one page either runs out of table pages, or writes one entry. -/
theorem mapOne_mapped (run : mapOne k pt (v * pgsize) pa perm = .ok (k', pt', true)) :
    ∃ pt₁, walkAlloc k pt (v * pgsize) = .ok (k', pt₁, true) ∧ (pt₁.leaf v).has pteV = false ∧
      pt' = pt₁.store (v * pgsize) (mapEntry pa perm) := by
  obtain ⟨pt₁, walked, ⟨no, -⟩ | ⟨-, invalid, eq⟩⟩ := mapOne_cases run
  · cases no
  · rw [page_div] at invalid
    exact ⟨pt₁, walked, invalid, eq⟩

theorem mapOne_leaf (lt : v * pgsize < maxva)
    (run : mapOne k pt (v * pgsize) pa perm = .ok (k', pt', found)) :
    (found = false ∧ ∀ w, pt'.leaf w = pt.leaf w) ∨
      (found = true ∧ (pt.leaf v).has pteV = false ∧
        ∀ w, w * pgsize < maxva →
          pt'.leaf w = if w = v then mapEntry pa perm else pt.leaf w) := by
  cases found with
  | false =>
    obtain ⟨pt₁, walked, ⟨-, rfl⟩ | ⟨yes, -, -⟩⟩ := mapOne_cases run
    · exact .inl ⟨rfl, walkAlloc_leaf walked⟩
    · cases yes
  | true =>
    obtain ⟨pt₁, walked, invalid, rfl⟩ := mapOne_mapped run
    rw [walkAlloc_leaf walked] at invalid
    refine .inr ⟨rfl, invalid, fun w ltW => ?_⟩
    rw [leaf_store _ lt ltW (walkAlloc_found walked), walkAlloc_leaf walked]

/-- Without a slot nothing but the new tables changes hands. -/
theorem mapOne_null (run : mapOne k pt (v * pgsize) pa perm = .ok (k', pt', false))
    (owned : Owned k pt excl shared) :
    Owned k' pt' excl shared ∧ Framed k k' (pt.kept excl shared) := by
  obtain ⟨pt₁, walked, ⟨-, rfl⟩ | ⟨yes, -, -⟩⟩ := mapOne_cases run
  · exact walkAlloc_owned walked owned
  · cases yes

section

variable (user : v < userPages) (run : mapOne k pt (v * pgsize) pa perm = .ok (k', pt', true))
  (flags : perm.toNat < 1024)
include user run flags

/-- Mapping a page without the mark passes it from its owner to the page table. -/
theorem mapOne_priv (plain : perm.has pteCow = false) (owned : Owned k pt (pa ::ₘ excl) shared) :
    Owned k' pt' excl shared ∧ Framed k k' (pt.kept (pa ::ₘ excl) shared) := by
  obtain ⟨pt₁, walked, invalid, rfl⟩ := mapOne_mapped run
  obtain ⟨owned₁, framed⟩ := walkAlloc_owned walked owned
  refine ⟨?_, framed⟩
  have isPage : k'.IsPage pa := Holds.isPage_excl owned₁ (by simp)
  have entry := privOf_private (mapEntry_valid pa perm) (mapEntry_cow.trans plain)
  rw [mapEntry_pa isPage.aligned isPage.lt flags] at entry
  obtain ⟨privRest, cowRest, priv, cow, stored⟩ :=
    split_at user (walkAlloc_found walked)
  unfold Owned at owned₁ ⊢
  rw [priv, cow, privOf_invalid invalid, cowOf_invalid invalid] at owned₁
  rw [tables_store, (stored _).1, (stored _).2, entry.1, entry.2]
  convert owned₁ using 2
  rw [← singleton_add]
  abel

/-- Mapping a shared page with the mark makes the page table one more holder. -/
theorem mapOne_cow (marked : perm.has pteCow = true) (owned : Owned k pt excl shared)
    (mem : pa ∈ shared) : Owned (k'.setRefs pa (k'.refs pa + 1)) pt' excl shared ∧
      Framed k (k'.setRefs pa (k'.refs pa + 1)) (pt.kept excl shared) ∧
      pt'.privs = pt.privs ∧ pt'.cows = pa ::ₘ pt.cows := by
  obtain ⟨pt₁, walked, invalid, rfl⟩ := mapOne_mapped run
  obtain ⟨owned₁, framed⟩ := walkAlloc_owned walked owned
  have isPage : k'.IsPage pa := Holds.isPage_shared owned₁ (by simp [mem])
  have entry := privOf_cow (mapEntry_valid pa perm) (mapEntry_cow.trans marked)
  rw [mapEntry_pa isPage.aligned isPage.lt flags] at entry
  obtain ⟨privRest, cowRest, priv, cow, stored⟩ :=
    split_at user (walkAlloc_found walked)
  rw [privOf_invalid invalid, zero_add] at priv
  rw [cowOf_invalid invalid, zero_add] at cow
  obtain ⟨privs', cows'⟩ := stored (mapEntry pa perm)
  rw [entry.1, zero_add, ← priv] at privs'
  rw [entry.2, ← cow, singleton_add] at cows'
  have joined := setRefs_join owned₁ (mem_add.2 (.inr mem))
  refine ⟨?_, ⟨framed.kend, framed.trampoline, framed.same⟩, ?_, ?_⟩
  · unfold Owned
    rw [tables_store, privs', cows', cons_add]
    exact joined
  · rw [privs', privs, mapped_congr (walkAlloc_leaf walked)]
  · rw [cows', cows, mapped_congr (walkAlloc_leaf walked)]

end

/-! ## Unmapping -/

theorem unmapLoop_cases (run : unmapLoop doFree (n + 1) k pt (v * pgsize) = .ok (k₂, pt₂)) :
    ∃ k₁, v * pgsize < maxva ∧ (pt.lookup (v * pgsize)).isSome ∧ (pt.leaf v).has pteV = true ∧
      kfreeIf doFree k (pte2pa (pt.leaf v)) = .ok k₁ ∧
      unmapLoop doFree n k₁ (pt.store (v * pgsize) 0) ((v + 1) * pgsize) = .ok (k₂, pt₂) := by
  unfold unmapLoop at run
  obtain ⟨entry, walked, run⟩ := of_bind_ok run
  unfold walk at walked
  split at walked
  · cases walked
  · rename_i below
    cases walked
    cases lookup : pt.lookup (v * pgsize) with
    | none =>
      rw [lookup] at run
      cases run
    | some e =>
      have leafV := leaf_of_lookup lookup
      rw [lookup] at run
      rw [page_div] at leafV
      simp only at run
      split at run
      · cases run
      · rename_i valid
        split at run
        · cases run
        · obtain ⟨k₁, freed, rest⟩ := of_bind_ok run
          rw [← Nat.succ_mul] at rest
          rw [leafV]
          exact ⟨k₁, Nat.lt_of_not_le below, rfl, by simpa using valid, freed, rest⟩

/-- Dropping a mapping and freeing its page returns the page table's share. -/
theorem unmap_owned (user : v < userPages) (found : (pt.lookup (v * pgsize)).isSome)
    (valid : (pt.leaf v).has pteV = true) (owned : Owned k pt excl shared) :
    ∃ k', kfree k (pte2pa (pt.leaf v)) = .ok k' ∧
      Owned k' (pt.store (v * pgsize) 0) excl shared ∧
      Framed k k' ((pt.store (v * pgsize) 0).kept excl shared) := by
  obtain ⟨privRest, cowRest, priv, cow, stored⟩ := split_at user found
  have gone : privOf 0 = 0 ∧ cowOf 0 = 0 :=
    ⟨privOf_invalid (by decide), cowOf_invalid (by decide)⟩
  obtain ⟨privs', cows'⟩ := stored 0
  rw [gone.1, zero_add] at privs'
  rw [gone.2, zero_add] at cows'
  unfold Owned at owned
  cases marked : (pt.leaf v).has pteCow with
  | false =>
    obtain ⟨isPriv, notCow⟩ := privOf_private valid marked
    rw [priv, cow, isPriv, notCow, zero_add] at owned
    have held : Holds k (pte2pa (pt.leaf v) ::ₘ (pt.tables + (privRest + excl)))
        (cowRest + shared) := by
      convert owned using 1
      rw [← singleton_add]
      abel
    obtain ⟨k', freed, holds, framed, -⟩ := kfree_excl held
    refine ⟨k', freed, ?_, framed.mono fun pa mem => ?_⟩
    · unfold Owned
      rw [tables_store, privs', cows']
      exact holds
    · rw [kept, privs', cows'] at mem
      rw [add_assoc]
      exact mem_add.2 (.inr mem)
  | true =>
    obtain ⟨notPriv, isCow⟩ := privOf_cow valid marked
    rw [priv, cow, notPriv, isCow, zero_add, add_assoc, singleton_add] at owned
    obtain ⟨k', freed, holds, framed⟩ := kfree_shared owned
    refine ⟨k', freed, ?_, framed.mono fun pa mem => ?_⟩
    · unfold Owned
      rw [tables_store, privs', cows']
      exact holds
    · rw [kept, privs', cows'] at mem
      rw [add_assoc]
      exact mem_add.2 (.inr mem)

/-- The entries after `uvmunmap` of `n` pages from `v` on. -/
theorem unmapLoop_leaf {n : Nat} {k₂ : Kmem} {pt₂ : PageTable}
    (run : unmapLoop doFree n k pt (v * pgsize) = .ok (k₂, pt₂)) :
    (∀ w, v ≤ w → w < v + n → (pt.leaf w).has pteV = true ∧ w * pgsize < maxva) ∧
      (∀ w, w * pgsize < maxva →
        pt₂.leaf w = if v ≤ w ∧ w < v + n then 0 else pt.leaf w) ∧
      pt₂.tables = pt.tables := by
  induction n generalizing k pt v with
  | zero =>
    cases run
    refine ⟨fun w low high => by omega, fun w _ => ?_, rfl⟩
    rw [if_neg (by omega)]
  | succ n ih =>
    obtain ⟨k₁, lt, found, valid, -, rest⟩ := unmapLoop_cases run
    obtain ⟨valids, leaves, tables⟩ := ih rest
    refine ⟨fun w low high => ?_, fun w ltW => ?_, tables.trans (tables_store ..)⟩
    · by_cases first : w = v
      · subst first
        exact ⟨valid, lt⟩
      · have later := valids w (by omega) (by omega)
        rw [leaf_store _ lt later.2 found, if_neg first] at later
        exact later
    · rw [leaves w ltW, leaf_store _ lt ltW found]
      by_cases first : w = v
      · simp [first]
      · by_cases later : v + 1 ≤ w ∧ w < v + 1 + n
        · rw [if_pos later, if_pos (by omega)]
        · rw [if_neg later, if_neg first, if_neg (by omega)]

/-- A page table only loses user pages when entries of it are cleared. -/
theorem PageTable.mem_kept_of_store {pa : Nat} (user : v < userPages)
    (found : (pt.lookup (v * pgsize)).isSome)
    (mem : pa ∈ (pt.store (v * pgsize) 0).kept excl shared) : pa ∈ pt.kept excl shared := by
  obtain ⟨privRest, cowRest, priv, cow, stored⟩ := split_at user found
  obtain ⟨privs', cows'⟩ := stored 0
  rw [privOf_invalid (by decide), zero_add] at privs'
  rw [cowOf_invalid (by decide), zero_add] at cows'
  rw [kept, privs', cows'] at mem
  rw [kept, priv, cow]
  simp only [mem_add] at mem ⊢
  tauto

/-- `uvmunmap` of user pages with `do_free`: the page table drops its share of each. -/
theorem unmapLoop_owned (user : v + n ≤ userPages)
    (run : unmapLoop true n k pt (v * pgsize) = .ok (k₂, pt₂)) (owned : Owned k pt excl shared) :
    Owned k₂ pt₂ excl shared ∧ Passes k k₂ (pt.kept excl shared) (pt₂.kept excl shared) := by
  induction n generalizing k pt v with
  | zero =>
    cases run
    exact ⟨owned, .refl _ _⟩
  | succ n ih =>
    obtain ⟨k₁, lt, found, valid, freed, rest⟩ := unmapLoop_cases run
    obtain ⟨k', freed', owned₁, framed₁⟩ := unmap_owned (by omega) found valid owned
    rw [kfreeIf, if_pos rfl, freed'] at freed
    cases freed
    obtain ⟨owned₂, passes⟩ := ih (by omega) rest owned₁
    have first : Passes k k₁ (pt.kept excl shared) _ :=
      ⟨framed₁, fun pa mem => mem_kept_of_store (by omega) found mem⟩
    exact ⟨owned₂, first.trans passes⟩

/-- `uvmunmap` without `do_free`, above user memory: no page changes hands. -/
theorem unmapLoop_keep (above : userPages ≤ v)
    (run : unmapLoop false n k pt (v * pgsize) = .ok (k₂, pt₂)) :
    k₂ = k ∧ pt₂.privs = pt.privs ∧ pt₂.cows = pt.cows := by
  induction n generalizing k pt v with
  | zero =>
    cases run
    exact ⟨rfl, rfl, rfl⟩
  | succ n ih =>
    obtain ⟨k₁, lt, found, -, freed, rest⟩ := unmapLoop_cases run
    cases freed
    obtain ⟨rfl, privs', cows'⟩ := ih (by omega) rest
    exact ⟨rfl, privs'.trans (mapped_store_of_ge _ above lt found),
      cows'.trans (mapped_store_of_ge _ above lt found)⟩

end Entries

/-! ## Freeing the tables -/

section FreeWalk

variable {α : Type} {below : α → Multiset Nat} {freeSlot : Kmem → α → Except String Kmem}
  {excl shared : Multiset Nat} {k k' : Kmem} {t : Node α} {pt : PageTable}

/-- `freeSlot` gives back the pages below a slot. -/
def Frees (below : α → Multiset Nat) (freeSlot : Kmem → α → Except String Kmem) : Prop :=
  ∀ k k' x excl shared, freeSlot k x = .ok k' → Holds k (below x + excl) shared →
    Holds k' excl shared ∧ Framed k k' (excl + shared)

theorem Frees.loop (frees : Frees below freeSlot) {l : List α} (run : l.foldlM freeSlot k = .ok k')
    (holds : Holds k ((l.map below).sum + excl) shared) :
    Holds k' excl shared ∧ Framed k k' (excl + shared) := by
  induction l generalizing k with
  | nil =>
    cases run
    exact ⟨by simpa using holds, .refl _ _⟩
  | cons x l ih =>
    rw [List.foldlM_cons] at run
    obtain ⟨k₁, first, rest⟩ := of_bind_ok run
    rw [List.map_cons, List.sum_cons, add_assoc] at holds
    obtain ⟨holds₁, framed₁⟩ := frees _ _ _ _ _ first holds
    obtain ⟨holds₂, framed₂⟩ := ih rest holds₁
    refine ⟨holds₂, (framed₁.mono fun pa mem => ?_).trans framed₂⟩
    rw [add_assoc]
    exact mem_add.2 (.inr mem)

/-- The slots of a table page, as the list that the loop of `freewalk` goes over. -/
def Node.slots (t : Node α) : List α := (List.finRange 512).map t.slot

theorem freeNode_slots (k : Kmem) (t : Node α) :
    freeNode freeSlot k t = t.slots.foldlM freeSlot k >>= fun k => kfree k t.page := by
  unfold freeNode Node.slots
  rw [List.foldlM_map]

/-- The pages below a table page are those below its slots, and the page itself. -/
theorem Holds.slots (holds : Holds k (t.pages below + excl) shared) :
    Holds k ((t.slots.map below).sum + (t.page ::ₘ excl)) shared := by
  have sum : ∑ i, below (t.slot i) = (t.slots.map below).sum := by
    rw [Fin.sum_univ_def, Node.slots, List.map_map]
    rfl
  convert holds using 1
  rw [Node.pages_eq, sum, ← singleton_add]
  abel

theorem Frees.node (frees : Frees below freeSlot) :
    Frees (Node.pages below) (freeNode freeSlot) := by
  intro k k' t excl shared run holds
  rw [freeNode_slots] at run
  obtain ⟨k₁, loop, last⟩ := of_bind_ok run
  obtain ⟨holds₁, framed₁⟩ := frees.loop loop holds.slots
  obtain ⟨k₂, freed, holds₂, framed₂, -⟩ := kfree_excl holds₁
  rw [freed] at last
  cases last
  refine ⟨holds₂, (framed₁.mono fun pa mem => ?_).trans framed₂⟩
  rw [cons_add]
  exact mem_cons_of_mem mem

theorem Frees.table (frees : Frees below freeSlot) :
    Frees (slotPages below) (freeTable freeSlot) := by
  intro k k' slot excl shared run holds
  cases slot with
  | none =>
    cases run
    exact ⟨by simpa [slotPages] using holds, .refl _ _⟩
  | some t => exact frees.node _ _ _ _ _ run holds

theorem freeLeaf_frees : Frees (fun _ => 0) freeLeaf := by
  intro k k' pte excl shared run holds
  unfold freeLeaf at run
  split at run
  · cases run
  · cases run
    exact ⟨by simpa using holds, .refl _ _⟩

/-- `freewalk` gives back every table page. -/
theorem freewalk_holds (run : freewalk k pt = .ok k') (holds : Holds k (pt.tables + excl) shared) :
    Holds k' excl shared ∧ Framed k k' (excl + shared) :=
  freeLeaf_frees.table.table.node _ _ _ _ _ run holds

/-- Every slot of a table page that `freewalk` accepts is accepted. -/
theorem freeNode_slot (run : freeNode freeSlot k t = .ok k') (i : Fin 512) :
    ∃ s s', freeSlot s (t.slot i) = .ok s' := by
  unfold freeNode at run
  obtain ⟨k₁, loop, -⟩ := of_bind_ok run
  exact foldlM_each loop (List.mem_finRange i)

/-- `freewalk` accepts only page tables without leaves. -/
theorem freewalk_leaf (run : freewalk k pt = .ok k') (v : Nat) : (pt.leaf v).has pteV = false := by
  obtain ⟨s2, s2', run2⟩ := freeNode_slot run (px 2 (v * pgsize))
  unfold leaf lookup
  cases hl1 : pt.slot (px 2 (v * pgsize)) with
  | none => exact Pte.has_zero _
  | some l1 =>
    rw [hl1] at run2
    obtain ⟨s1, s1', run1⟩ := freeNode_slot run2 (px 1 (v * pgsize))
    cases hl0 : l1.slot (px 1 (v * pgsize)) with
    | none => simpa [hl0] using Pte.has_zero _
    | some l0 =>
      rw [hl0] at run1
      obtain ⟨s0, s0', run0⟩ := freeNode_slot run1 (px 0 (v * pgsize))
      unfold freeLeaf at run0
      split at run0
      · cases run0
      · rename_i invalid
        simpa [hl0] using invalid

end FreeWalk

end Xv6
