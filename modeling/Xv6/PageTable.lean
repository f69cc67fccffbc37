import Xv6.Kalloc
import Xv6.Lib.Fallible

/-!
# Three-level page tables

`walk`, `mappages`, `uvmunmap` and `freewalk` of `vm.c`.  A page table is the tree
of its pages: a table page holds 512 slots, and a slot of the two upper levels
either is invalid (`none`) or leads to the table page its entry points at.  Each
table page carries its physical address, so that allocating and freeing tables
goes through `kalloc` and `kfree`.

`leaf pt v` is the entry for virtual page `v` (zero where a table is missing);
`tables pt` are the pages of the tree; `privs pt` and `cows pt` are the physical
pages its valid user entries map, without and with the copy-on-write mark.
-/

namespace Xv6

open Ownership Fallible Function Finset

/-- A page of a page table: its address and its 512 slots. -/
structure Node (α : Type) where
  page : Nat
  slot : Fin 512 → α

def Node.set {α : Type} (t : Node α) (i : Fin 512) (x : α) : Node α :=
  { t with slot := Function.update t.slot i x }

/-- `pagetable_t`. -/
abbrev PageTable : Type := Node (Option (Node (Option (Node Pte))))

/-- `PX(level, va)`. -/
def px (level va : Nat) : Fin 512 := ⟨va / 2 ^ (12 + 9 * level) % 512, Nat.mod_lt _ (by decide)⟩

namespace PageTable

/-- The entry `walk(pagetable, va, 0)` points at. -/
def lookup (pt : PageTable) (va : Nat) : Option Pte :=
  (pt.slot (px 2 va)).bind fun l1 => (l1.slot (px 1 va)).map fun l0 => l0.slot (px 0 va)

/-- `*pte = e` through the pointer that `walk` returned for `va`. -/
def store (pt : PageTable) (va : Nat) (e : Pte) : PageTable :=
  match pt.slot (px 2 va) with
  | none => pt
  | some l1 =>
    match l1.slot (px 1 va) with
    | none => pt
    | some l0 => pt.set (px 2 va) (some (l1.set (px 1 va) (some (l0.set (px 0 va) e))))

/-- The entry for virtual page `v`, zero when there is no table for it. -/
def leaf (pt : PageTable) (v : Nat) : Pte := (pt.lookup (v * pgsize)).getD 0

end PageTable

/-- `walk(pagetable, va, 0)`. -/
def walk (pt : PageTable) (va : Nat) : Except String (Option Pte) :=
  if maxva ≤ va then .error "walk" else .ok (pt.lookup va)

/-- Allocate a zeroed table page. -/
def newTable {α : Type} (k : Kmem) (zero : α) : Kmem × Option (Node α) :=
  match kalloc k with
  | (k, none) => (k, none)
  | (k, some pa) => ({ k with mem := memset k.mem pa 0 pgsize }, some ⟨pa, fun _ => zero⟩)

/-- One level of `walk` with `alloc` set: follow a valid slot, or allocate a table. -/
def nextTable {α : Type} (k : Kmem) (zero : α) (slot : Option (Node α)) : Kmem × Option (Node α) :=
  match slot with
  | some t => (k, some t)
  | none => newTable k zero

/-- `walk(pagetable, va, 1)`; the flag says whether the result is not null. -/
def walkAlloc (k : Kmem) (pt : PageTable) (va : Nat) : Except String (Kmem × PageTable × Bool) :=
  if maxva ≤ va then .error "walk" else
  match nextTable k none (pt.slot (px 2 va)) with
  | (k, none) => .ok (k, pt, false)
  | (k, some l1) =>
    match nextTable k 0 (l1.slot (px 1 va)) with
    | (k, none) => .ok (k, pt.set (px 2 va) (some l1), false)
    | (k, some l0) => .ok (k, pt.set (px 2 va) (some (l1.set (px 1 va) (some l0))), true)

/-- One round of the loop of `mappages`; the flag says whether `walk` found a slot. -/
def mapOne (k : Kmem) (pt : PageTable) (a pa : Nat) (perm : Pte) :
    Except String (Kmem × PageTable × Bool) := do
  let (k, pt, found) ← walkAlloc k pt a
  if found then
    if ((pt.lookup a).getD 0).has pteV then .error "mappages: remap"
    else .ok (k, pt.store a (pa2pte pa ||| perm ||| pteV), true)
  else .ok (k, pt, false)

/-- The loop of `mappages`, with `n` pages to go after the one at `a`. -/
def mapLoop : Nat → Kmem → PageTable → Nat → Nat → Pte → Except String (Kmem × PageTable × Int)
  | n, k, pt, a, pa, perm => do
      let (k, pt, found) ← mapOne k pt a pa perm
      if found then
        match n with
        | 0 => .ok (k, pt, 0)
        | n + 1 => mapLoop n k pt (a + pgsize) (pa + pgsize) perm
      else .ok (k, pt, -1)

/-- `mappages`. -/
def mappages (k : Kmem) (pt : PageTable) (va size pa : Nat) (perm : Pte) :
    Except String (Kmem × PageTable × Int) :=
  if size = 0 then .error "mappages: size" else
  let a := pgrounddown va
  let last := pgrounddown ((va + size - 1) % 2 ^ 64)
  mapLoop ((last + 2 ^ 64 - a) % 2 ^ 64 / pgsize) k pt a pa perm

/-- `if(do_free) kfree(pa)`. -/
def kfreeIf (doFree : Bool) (k : Kmem) (pa : Nat) : Except String Kmem :=
  if doFree then kfree k pa else .ok k

/-- The loop of `uvmunmap`, over `n` pages from `a` on. -/
def unmapLoop (doFree : Bool) :
    Nat → Kmem → PageTable → Nat → Except String (Kmem × PageTable)
  | 0, k, pt, _ => .ok (k, pt)
  | n + 1, k, pt, a => do
      match ← walk pt a with
      | none => .error "uvmunmap: walk"
      | some pte =>
        if !pte.has pteV then .error "uvmunmap: not mapped"
        else if pteFlags pte = pteV then .error "uvmunmap: not a leaf"
        else
          let k ← kfreeIf doFree k (pte2pa pte)
          unmapLoop doFree n k (pt.store a 0) (a + pgsize)

/-- `uvmunmap`. -/
def uvmunmap (k : Kmem) (pt : PageTable) (va npages : Nat) (doFree : Bool) :
    Except String (Kmem × PageTable) :=
  if va % pgsize ≠ 0 then .error "uvmunmap: not aligned" else unmapLoop doFree npages k pt va

/-- `freewalk` on one table page, given what it does with a slot. -/
def freeNode {α : Type} (freeSlot : Kmem → α → Except String Kmem) (k : Kmem) (t : Node α) :
    Except String Kmem := do
  let k ← (List.finRange 512).foldlM (fun k i => freeSlot k (t.slot i)) k
  kfree k t.page

/-- `freewalk` at a slot of the two upper levels. -/
def freeTable {α : Type} (freeSlot : Kmem → α → Except String Kmem) (k : Kmem) :
    Option (Node α) → Except String Kmem
  | none => .ok k
  | some t => freeNode freeSlot k t

/-- `freewalk` at a slot of the lowest level.  The source would follow a valid entry
without permissions as if it pointed at a further table; the model stops there. -/
def freeLeaf (k : Kmem) (pte : Pte) : Except String Kmem :=
  if pte.has pteV then .error "freewalk: leaf" else .ok k

/-- `freewalk`. -/
def freewalk (k : Kmem) (pt : PageTable) : Except String Kmem :=
  freeNode (freeTable (freeTable freeLeaf)) k pt

/-! ## Virtual pages and their slots -/

theorem px_page (level va : Nat) : px level va = px level (va / pgsize * pgsize) := by
  have exact : va / pgsize * pgsize / pgsize = va / pgsize :=
    Nat.mul_div_cancel _ (by decide)
  have split (w : Nat) : w / 2 ^ (12 + 9 * level) = w / pgsize / 2 ^ (9 * level) := by
    rw [Nat.pow_add, ← Nat.div_div_eq_div_mul]
  simp only [px, split, exact]

/-- Pages below the top of the address space are told apart by their three indices. -/
theorem page_eq_of_px {v w : Nat} (ltV : v * pgsize < maxva) (ltW : w * pgsize < maxva)
    (h2 : px 2 (v * pgsize) = px 2 (w * pgsize)) (h1 : px 1 (v * pgsize) = px 1 (w * pgsize))
    (h0 : px 0 (v * pgsize) = px 0 (w * pgsize)) : v = w := by
  simp only [px, Fin.mk.injEq, pgsize, maxva] at *
  omega

namespace PageTable

theorem lookup_page (pt : PageTable) (va : Nat) :
    pt.lookup va = pt.lookup (va / pgsize * pgsize) := by
  unfold lookup
  rw [px_page 2, px_page 1, px_page 0]

theorem store_page (pt : PageTable) (va : Nat) (e : Pte) :
    pt.store va e = pt.store (va / pgsize * pgsize) e := by
  unfold store
  rw [px_page 2, px_page 1, px_page 0]

theorem leaf_of_lookup {pt : PageTable} {va : Nat} {e : Pte} (found : pt.lookup va = some e) :
    pt.leaf (va / pgsize) = e := by
  rw [leaf, ← lookup_page, found]
  rfl

theorem lookup_getD (pt : PageTable) (va : Nat) :
    (pt.lookup va).getD 0 = pt.leaf (va / pgsize) := by
  rw [leaf, ← lookup_page]

/-- Writing the entry of a page that has a slot changes that entry only. -/
theorem leaf_store {pt : PageTable} {v w : Nat} (e : Pte) (ltV : v * pgsize < maxva)
    (ltW : w * pgsize < maxva) (found : (pt.lookup (v * pgsize)).isSome) :
    (pt.store (v * pgsize) e).leaf w = if w = v then e else pt.leaf w := by
  unfold lookup at found
  cases hl1 : pt.slot (px 2 (v * pgsize)) with
  | none => simp [hl1] at found
  | some l1 =>
    cases hl0 : l1.slot (px 1 (v * pgsize)) with
    | none => simp [hl1, hl0] at found
    | some l0 =>
      simp only [leaf, lookup, store, hl1, hl0, Node.set]
      by_cases h2 : px 2 (w * pgsize) = px 2 (v * pgsize)
      · rw [h2, update_self]
        by_cases h1 : px 1 (w * pgsize) = px 1 (v * pgsize)
        · rw [h1]
          by_cases h0 : px 0 (w * pgsize) = px 0 (v * pgsize)
          · rw [h0, if_pos (page_eq_of_px ltW ltV h2 h1 h0)]
            simp
          · have ne : w ≠ v := by rintro rfl; exact h0 rfl
            simp [hl1, hl0, update_of_ne h0, ne]
        · have ne : w ≠ v := by rintro rfl; exact h1 rfl
          simp [hl1, update_of_ne h1, ne]
      · have ne : w ≠ v := by rintro rfl; exact h2 rfl
        simp [update_of_ne h2, ne]

end PageTable

/-! ## The pages of a page table -/

/-- The pages below one table page, given those below each slot. -/
def Node.pages {α : Type} (below : α → Multiset Nat) (t : Node α) : Multiset Nat :=
  {t.page} + ∑ i, below (t.slot i)

theorem Node.pages_eq {α : Type} (below : α → Multiset Nat) (t : Node α) :
    t.pages below = {t.page} + ∑ i, below (t.slot i) := rfl

-- Unfolding the sum over 512 slots is never what a unification wants.
attribute [irreducible] Node.pages

/-- The pages below a slot of the two upper levels. -/
def slotPages {α : Type} (below : α → Multiset Nat) : Option (Node α) → Multiset Nat
  | none => 0
  | some t => t.pages below

/-- The pages below an upper-level slot of a last-level table: the table itself. -/
abbrev lowPages : Option (Node Pte) → Multiset Nat := slotPages fun _ => 0

/-- The table pages of a page table. -/
def PageTable.tables (pt : PageTable) : Multiset Nat := pt.pages (slotPages lowPages)

/-- The pages of a table page, apart from those below one of its slots. -/
theorem Node.pages_split {α : Type} (below : α → Multiset Nat) (t : Node α) (i : Fin 512) :
    ∃ rest, t.pages below = below (t.slot i) + rest ∧
      ∀ x, (t.set i x).pages below = below x + rest := by
  have here := add_sum_erase univ (fun j => below (t.slot j)) (mem_univ i)
  refine ⟨{t.page} + ∑ j ∈ univ.erase i, below (t.slot j), ?_, fun x => ?_⟩
  · rw [Node.pages_eq, ← here]
    abel
  · have change := sum_change (f := fun j => below (t.slot j))
      (g := fun j => below ((t.set i x).slot j)) (mem_univ i) fun j _ ne => by
        simp only [Node.set, update_of_ne ne]
    have new : (t.set i x).slot i = x := by simp [Node.set]
    have page : (t.set i x).page = t.page := rfl
    rw [new, ← here] at change
    apply add_right_cancel (b := below (t.slot i))
    rw [Node.pages_eq, add_assoc, change, page]
    abel

/-- Replacing a table by one with the same pages keeps the pages above it. -/
theorem Node.pages_set_eq {α : Type} {below : α → Multiset Nat} {t : Node α} {i : Fin 512} {x : α}
    (same : below x = below (t.slot i)) : (t.set i x).pages below = t.pages below := by
  obtain ⟨rest, before, after⟩ := t.pages_split below i
  rw [after, before, same]

theorem PageTable.tables_store (pt : PageTable) (va : Nat) (e : Pte) :
    (pt.store va e).tables = pt.tables := by
  unfold PageTable.store
  cases hl1 : pt.slot (px 2 va) with
  | none => rfl
  | some l1 =>
    cases hl0 : l1.slot (px 1 va) with
    | none => simp [hl0]
    | some l0 =>
      simp only [hl0]
      have low : lowPages (some (l0.set (px 0 va) e)) = lowPages (l1.slot (px 1 va)) := by
        rw [hl0]
        simp [slotPages, Node.pages_eq, Node.set]
      refine Node.pages_set_eq ?_
      rw [hl1]
      exact Node.pages_set_eq low

/-! ## Walking with allocation -/

section NextTable

variable {α : Type} {k k' : Kmem} {zero : α} {slot : Option (Node α)} {t : Node α}
  {below : α → Multiset Nat} {excl shared : Multiset Nat}

theorem newTable_null (new : newTable k zero = (k', none)) : k' = k ∧ k.freelist = [] := by
  unfold newTable at new
  split at new
  · rename_i alloc
    cases new
    exact kalloc_none alloc
  · cases new

theorem newTable_slots (new : newTable k zero = (k', some t)) (i : Fin 512) : t.slot i = zero := by
  unfold newTable at new
  split at new
  · cases new
  · cases new
    rfl

/-- A fresh table is taken from the free list, and no held page is touched. -/
theorem newTable_holds (below : α → Multiset Nat) (new : newTable k zero = (k', some t))
    (empty : below zero = 0) (holds : Holds k excl shared) :
    Holds k' (t.pages below + excl) shared ∧ Framed k k' (excl + shared) := by
  unfold newTable at new
  split at new
  · cases new
  · rename_i k₁ pa alloc
    cases new
    obtain ⟨taken, framed, page, ⟨notExcl, notShared⟩, -⟩ := kalloc_some holds alloc
    have pages : Node.pages below ⟨pa, fun _ => zero⟩ = {pa} := by
      simp [Node.pages_eq, empty]
    rw [pages, Multiset.singleton_add]
    refine ⟨taken.setMem _, framed.trans ?_⟩
    refine framed_memset ?_ (fun pb mem => ?_) (fun mem => ?_) k₁.freelist
    · rw [framed.isPage]
      exact page
    · rw [framed.isPage]
      exact (Multiset.mem_add.1 mem).elim holds.isPage_excl holds.isPage_shared
    · exact (Multiset.mem_add.1 mem).elim notExcl notShared

theorem nextTable_null (next : nextTable k zero slot = (k', none)) :
    k' = k ∧ slot = none ∧ k.freelist = [] := by
  cases slot with
  | some t => cases next
  | none => exact ⟨(newTable_null next).1, rfl, (newTable_null next).2⟩

/-- The next table is the one the slot leads to, or a fresh zeroed one. -/
theorem nextTable_slots (next : nextTable k zero slot = (k', some t)) :
    slot = some t ∨ slot = none ∧ ∀ i, t.slot i = zero := by
  cases slot with
  | some t' =>
    cases next
    exact .inl rfl
  | none => exact .inr ⟨rfl, newTable_slots next⟩

theorem nextTable_holds (next : nextTable k zero slot = (k', some t)) (empty : below zero = 0)
    (holds : Holds k (slotPages below slot + excl) shared) :
    Holds k' (slotPages below (some t) + excl) shared ∧ Framed k k' (excl + shared) := by
  cases slot with
  | some t' =>
    cases next
    exact ⟨holds, .refl _ _⟩
  | none =>
    rw [slotPages, zero_add] at holds
    exact newTable_holds below next empty holds

end NextTable

section WalkAlloc

variable {k k' : Kmem} {pt pt' : PageTable} {va : Nat} {found : Bool}

section

variable (run : walkAlloc k pt va = .ok (k', pt', found))
include run

/-- The ways `walk` with `alloc` set can go: no first table, no second one, or a slot. -/
theorem walkAlloc_cases : va < maxva ∧
      ((k' = k ∧ pt' = pt ∧ found = false ∧ pt.slot (px 2 va) = none ∧ k.freelist = []) ∨
      ∃ k₁ l1, nextTable k none (pt.slot (px 2 va)) = (k₁, some l1) ∧
        ((k' = k₁ ∧ pt' = pt.set (px 2 va) (some l1) ∧ found = false ∧
            l1.slot (px 1 va) = none ∧ k₁.freelist = []) ∨
          ∃ l0, nextTable k₁ 0 (l1.slot (px 1 va)) = (k', some l0) ∧
            pt' = pt.set (px 2 va) (some (l1.set (px 1 va) (some l0))) ∧ found = true)) := by
  unfold walkAlloc at run
  split at run
  · cases run
  · rename_i below
    refine ⟨Nat.lt_of_not_le below, ?_⟩
    cases next2 : nextTable k none (pt.slot (px 2 va)) with
    | mk k₁ r₁ =>
      rw [next2] at run
      cases r₁ with
      | none =>
        cases run
        exact .inl ⟨(nextTable_null next2).1, rfl, rfl, (nextTable_null next2).2⟩
      | some l1 =>
        refine .inr ⟨k₁, l1, rfl, ?_⟩
        cases next1 : nextTable k₁ 0 (l1.slot (px 1 va)) with
        | mk k₂ r₂ =>
          simp only [next1] at run
          cases r₂ with
          | none =>
            cases run
            exact .inl ⟨(nextTable_null next1).1, rfl, rfl, (nextTable_null next1).2⟩
          | some l0 =>
            cases run
            exact .inr ⟨l0, rfl, rfl, rfl⟩

/-- The new tables belong to the page table, and no held page is touched. -/
theorem walkAlloc_holds {excl shared : Multiset Nat} (holds : Holds k (pt.tables + excl) shared) :
    Holds k' (pt'.tables + excl) shared ∧ Framed k k' (excl + shared) := by
  obtain ⟨-, ⟨rfl, rfl, -⟩ | ⟨k₁, l1, next2, rest⟩⟩ := walkAlloc_cases run
  · exact ⟨holds, .refl _ _⟩
  · obtain ⟨above, split2, set2⟩ := pt.pages_split (slotPages lowPages) (px 2 va)
    have tables2 : pt.tables = slotPages lowPages (pt.slot (px 2 va)) + above := split2
    rw [tables2, add_assoc] at holds
    obtain ⟨holds₁, framed₁⟩ := nextTable_holds next2 rfl holds
    rcases rest with ⟨rfl, rfl, -⟩ | ⟨l0, next1, rfl, -⟩
    · rw [PageTable.tables, set2]
      refine ⟨by rwa [add_assoc], framed₁.mono fun pa mem => ?_⟩
      rw [add_assoc]
      exact Multiset.mem_add.2 (.inr mem)
    · obtain ⟨beside, split1, set1⟩ := l1.pages_split lowPages (px 1 va)
      have tables1 : slotPages lowPages (some l1) = lowPages (l1.slot (px 1 va)) + beside := split1
      have tables1' : slotPages lowPages (some (l1.set (px 1 va) (some l0))) =
          lowPages (some l0) + beside := set1 _
      rw [tables1, add_assoc] at holds₁
      obtain ⟨holds₂, framed₂⟩ := nextTable_holds next1 rfl holds₁
      rw [PageTable.tables, set2, tables1']
      refine ⟨by rwa [add_assoc, add_assoc], (framed₁.mono ?_).trans (framed₂.mono ?_)⟩
      · intro pa mem
        rw [add_assoc]
        exact Multiset.mem_add.2 (.inr mem)
      · intro pa mem
        rw [add_assoc, add_assoc]
        exact Multiset.mem_add.2 (.inr (Multiset.mem_add.2 (.inr mem)))

/-- Creating tables changes no translation. -/
theorem walkAlloc_leaf (v : Nat) : pt'.leaf v = pt.leaf v := by
  obtain ⟨-, ⟨-, rfl, -⟩ | ⟨k₁, l1, next2, rest⟩⟩ := walkAlloc_cases run
  · rfl
  · have slots2 := nextTable_slots next2
    rcases rest with ⟨-, rfl, -⟩ | ⟨l0, next1, rfl, -⟩
    · simp only [PageTable.leaf, PageTable.lookup, Node.set]
      by_cases h2 : px 2 (v * pgsize) = px 2 va
      · rw [h2, update_self]
        rcases slots2 with old | ⟨old, fresh⟩
        · rw [old]
        · simp [old, fresh]
      · rw [update_of_ne h2]
    · have slots1 := nextTable_slots next1
      simp only [PageTable.leaf, PageTable.lookup, Node.set]
      by_cases h2 : px 2 (v * pgsize) = px 2 va
      · rw [h2, update_self]
        by_cases h1 : px 1 (v * pgsize) = px 1 va
        · rcases slots2 with old | ⟨old, fresh⟩
          · rcases slots1 with old' | ⟨old', fresh'⟩
            · simp [old, h1, old']
            · simp [old, h1, old', fresh']
          · rcases slots1 with old' | ⟨old', fresh'⟩
            · simp [fresh] at old'
            · simp [old, h1, fresh']
        · rcases slots2 with old | ⟨old, fresh⟩
          · simp [old, update_of_ne h1]
          · simp [old, update_of_ne h1, fresh]
      · rw [update_of_ne h2]

end

/-- A walk that finds a slot leaves one for its address. -/
theorem walkAlloc_found (run : walkAlloc k pt va = .ok (k', pt', true)) :
    (pt'.lookup va).isSome := by
  obtain ⟨-, ⟨-, -, ⟨⟩, -⟩ | ⟨k₁, l1, next2, ⟨-, -, ⟨⟩, -⟩ | ⟨l0, next1, rfl, -⟩⟩⟩ :=
    walkAlloc_cases run
  simp [PageTable.lookup, Node.set]

/-- A walk to an address that has a slot finds it. -/
theorem walkAlloc_existing (run : walkAlloc k pt va = .ok (k', pt', found))
    (slot : (pt.lookup va).isSome) : found = true := by
  unfold PageTable.lookup at slot
  cases hl1 : pt.slot (px 2 va) with
  | none => simp [hl1] at slot
  | some l1 =>
    cases hl0 : l1.slot (px 1 va) with
    | none => simp [hl1, hl0] at slot
    | some l0 =>
      unfold walkAlloc at run
      split at run
      · cases run
      · simp only [hl1, hl0, nextTable] at run
        cases run
        rfl

end WalkAlloc

/-! ## Physical pages mapped for the user -/

/-- The page a valid entry without the copy-on-write mark maps. -/
def privOf (e : Pte) : Multiset Nat := if e.has pteV && !e.has pteCow then {pte2pa e} else 0

/-- The page a valid entry with the copy-on-write mark maps. -/
def cowOf (e : Pte) : Multiset Nat := if e.has pteV && e.has pteCow then {pte2pa e} else 0

namespace PageTable

/-- The pages of one kind that the user entries map. -/
def mapped (kind : Pte → Multiset Nat) (pt : PageTable) : Multiset Nat :=
  ∑ v ∈ range userPages, kind (pt.leaf v)

theorem mapped_eq (kind : Pte → Multiset Nat) (pt : PageTable) :
    pt.mapped kind = ∑ v ∈ range userPages, kind (pt.leaf v) := rfl

attribute [irreducible] mapped

abbrev privs (pt : PageTable) : Multiset Nat := pt.mapped privOf

abbrev cows (pt : PageTable) : Multiset Nat := pt.mapped cowOf

variable {kind : Pte → Multiset Nat} {pt pt' : PageTable} {v : Nat}

theorem mapped_congr (same : ∀ w, pt'.leaf w = pt.leaf w) : pt'.mapped kind = pt.mapped kind := by
  simp only [mapped_eq, same]

theorem userPage_lt (user : v < userPages) : v * pgsize < maxva := by
  simp only [userPages_eq, maxva, pgsize] at *
  omega

theorem mem_mapped {pa : Nat} (user : v < userPages) (mem : pa ∈ kind (pt.leaf v)) :
    pa ∈ pt.mapped kind := by
  rw [mapped_eq]
  exact Multiset.mem_sum.2 ⟨v, mem_range.2 user, mem⟩

/-- The pages of a kind, apart from the one at a given user page. -/
theorem mapped_split (kind : Pte → Multiset Nat) (user : v < userPages)
    (found : (pt.lookup (v * pgsize)).isSome) : ∃ rest, pt.mapped kind = kind (pt.leaf v) + rest ∧
      ∀ e, (pt.store (v * pgsize) e).mapped kind = kind e + rest := by
  have mem : v ∈ range userPages := mem_range.2 user
  have here := add_sum_erase _ (fun w => kind (pt.leaf w)) mem
  refine ⟨_, by rw [mapped_eq]; exact here.symm, fun e => ?_⟩
  have new : (pt.store (v * pgsize) e).leaf v = e := by
    rw [leaf_store e (userPage_lt user) (userPage_lt user) found, if_pos rfl]
  rw [mapped_eq, ← add_sum_erase _ _ mem, new]
  congr 1
  refine sum_congr rfl fun w other => ?_
  rw [leaf_store e (userPage_lt user)
    (userPage_lt (mem_range.1 (mem_of_mem_erase other))) found,
    if_neg (ne_of_mem_erase other)]

/-- Entries above user memory map no user page. -/
theorem mapped_store_of_ge (e : Pte) (above : userPages ≤ v) (lt : v * pgsize < maxva)
    (found : (pt.lookup (v * pgsize)).isSome) :
    (pt.store (v * pgsize) e).mapped kind = pt.mapped kind := by
  rw [mapped_eq, mapped_eq]
  refine sum_congr rfl fun w mem => ?_
  have user := mem_range.1 mem
  rw [leaf_store e lt (userPage_lt user) found, if_neg (by omega)]

end PageTable

/-! ## Mapping a page -/

section MapOne

variable {k k' : Kmem} {pt pt' : PageTable} {a pa : Nat} {perm : Pte} {found : Bool}

/-- The entry `mappages` writes. -/
abbrev mapEntry (pa : Nat) (perm : Pte) : Pte := pa2pte pa ||| perm ||| pteV

theorem mapEntry_has {m : Pte} (flag : m.toNat < 1024) :
    (mapEntry pa perm).has m = (perm.has m || pteV.has m) := by
  rw [mapEntry, Pte.has_or, Pte.has_or, Pte.has_pa2pte pa flag, Bool.false_or]

theorem mapEntry_valid (pa : Nat) (perm : Pte) : (mapEntry pa perm).has pteV = true := by
  rw [mapEntry_has (by decide), show pteV.has pteV = true by decide, Bool.or_true]

theorem mapEntry_cow : (mapEntry pa perm).has pteCow = perm.has pteCow := by
  rw [mapEntry_has (by decide), show pteV.has pteCow = false by decide, Bool.or_false]

theorem mapEntry_pa (aligned : pa % pgsize = 0) (lt : pa < 2 ^ 56) (flags : perm.toNat < 1024) :
    pte2pa (mapEntry pa perm) = pa := by
  rw [mapEntry, Pte.pte2pa_or _ _ (by decide), Pte.pte2pa_or _ _ flags,
    Pte.pte2pa_pa2pte aligned lt]

theorem mapOne_cases (run : mapOne k pt a pa perm = .ok (k', pt', found)) :
    ∃ pt₁, walkAlloc k pt a = .ok (k', pt₁, found) ∧
      ((found = false ∧ pt' = pt₁) ∨
        (found = true ∧ (pt₁.leaf (a / pgsize)).has pteV = false ∧
          pt' = pt₁.store a (mapEntry pa perm))) := by
  unfold mapOne at run
  obtain ⟨⟨k₁, pt₁, b⟩, walked, run⟩ := of_bind_ok run
  rw [walked]
  cases b with
  | false =>
    cases run
    exact ⟨_, rfl, .inl ⟨rfl, rfl⟩⟩
  | true =>
    simp only [if_true, PageTable.lookup_getD] at run
    split at run
    · cases run
    · rename_i invalid
      cases run
      exact ⟨pt₁, rfl, .inr ⟨rfl, by simpa using invalid, rfl⟩⟩

theorem pgrounddown_page (v : Nat) : pgrounddown (v * pgsize) = v * pgsize := by
  simp only [pgrounddown, pgsize]
  omega

/-- Mapping one aligned page is one round. -/
theorem mappages_page {v : Nat} (lt : v * pgsize < maxva) :
    mappages k pt (v * pgsize) pgsize pa perm = (do
      let (k, pt, found) ← mapOne k pt (v * pgsize) pa perm
      .ok (k, pt, if found then 0 else -1)) := by
  have last : pgrounddown ((v * pgsize + pgsize - 1) % 2 ^ 64) = v * pgsize := by
    simp only [pgrounddown, pgsize, maxva] at *
    omega
  have rounds : (v * pgsize + 2 ^ 64 - v * pgsize) % 2 ^ 64 / pgsize = 0 := by
    simp only [pgsize]
    omega
  rw [mappages, if_neg (by decide)]
  simp only [last, pgrounddown_page, rounds]
  unfold mapLoop
  congr 1
  funext ⟨k₁, pt₁, found⟩
  cases found <;> rfl

end MapOne

end Xv6
