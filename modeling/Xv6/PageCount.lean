import Xv6.TableCount
import Xv6.UserTable

/-!
# How many pages a child needs

`proc_pagetable` takes three pages: the root and the two tables above the trampoline and
the trapframe.  `uvmcowpy` takes no page for user memory, only for the child's tables;
it needs `tablePages n` of them for `n` pages, whatever the parent's pages are, and fails
exactly when the free list is shorter.  Neither panics on a parent that has all its pages.
-/

namespace Xv6

open Ownership Fallible PageTable

/-- The table pages for the user pages below `n`: one for every `2 ^ 18` pages and one for
every `2 ^ 9`, except the last of each, which the trapframe shares. -/
def tablePages (n : Nat) : Nat :=
  min ((n + (2 ^ 18 - 1)) / 2 ^ 18) (2 ^ 8 - 1) + min ((n + (2 ^ 9 - 1)) / 2 ^ 9) (2 ^ 17 - 1)

/-- The tables for the pages below `v` and for the trapframe are there, and no others. -/
def TablesBelow (pt : PageTable) (v : Nat) : Prop :=
  ∀ w, v ≤ w → w * pgsize < maxva → pt.missing (w * pgsize) =
    if w / 2 ^ 9 * 2 ^ 9 < v ∨ w / 2 ^ 9 = 2 ^ 17 - 1 then 0
    else if w / 2 ^ 18 * 2 ^ 18 < v ∨ w / 2 ^ 18 = 2 ^ 8 - 1 then 1
    else 2

variable {k k' : Kmem} {pt pt' : PageTable} {excl shared : Multiset Nat} {v n pa : Nat}

theorem page_lt_maxva {w : Nat} : w * pgsize < maxva ↔ w < 2 ^ 26 := by
  simp only [pgsize, maxva]
  omega

/-- Page `v` needs the tables by which the count grows. -/
theorem TablesBelow.missing (tables : TablesBelow pt v) (lt : v * pgsize < maxva) :
    tablePages (v + 1) = tablePages v + pt.missing (v * pgsize) := by
  rw [tables v le_rfl lt]
  rw [page_lt_maxva] at lt
  unfold tablePages
  split
  · omega
  · split
    · omega
    · omega

theorem TablesBelow.step {perm : Pte} (tables : TablesBelow pt v) (lt : v * pgsize < maxva)
    (run : mapOne k pt (v * pgsize) pa perm = .ok (k', pt', true)) : TablesBelow pt' (v + 1) := by
  intro w le ltW
  rw [mapOne_missing lt ltW run, tables w (by omega) ltW]
  rw [page_lt_maxva] at lt ltW
  split_ifs <;> omega

/-! ## The page table of a new process -/

theorem newTable_some {α : Type} {zero : α} (room : 0 < k.freelist.length) :
    ∃ k' t, newTable k zero = (k', some t) := by
  unfold newTable kalloc
  cases list : k.freelist with
  | nil =>
    rw [list] at room
    exact absurd room (Nat.lt_irrefl 0)
  | cons pa rest => exact ⟨_, _, rfl⟩

theorem uvmcreate_missing (create : uvmcreate k = (k', some pt)) (va : Nat) :
    pt.missing va = 2 := by
  unfold missing
  rw [newTable_slots create]

theorem top_pages : (2 ^ 26 - 1) * pgsize = trampolineVa ∧ (2 ^ 26 - 2) * pgsize = trapframeVa := by
  decide

/-- Mapping a page that is not mapped, with pages for the tables it needs. -/
theorem mappages_count (k : Kmem) (pa : Nat) (perm : Pte) (lt : v * pgsize < maxva)
    (absent : (pt.leaf v).has pteV = false) (room : pt.missing (v * pgsize) ≤ k.freelist.length) :
    ∃ k' pt', mapOne k pt (v * pgsize) pa perm = .ok (k', pt', true) ∧
      mappages k pt (v * pgsize) pgsize pa perm = .ok (k', pt', 0) ∧
      k.freelist.length = k'.freelist.length + pt.missing (v * pgsize) := by
  obtain ⟨⟨k', pt', found⟩, one⟩ := mapOne_ok (k := k) lt absent
  have length := mapOne_length one
  cases found with
  | false =>
    simp only [Bool.false_eq_true, if_false] at length
    omega
  | true =>
    refine ⟨k', pt', one, ?_, length⟩
    rw [mappages_page lt, one]
    rfl

/-- `proc_pagetable` succeeds with three pages. -/
theorem procPagetable_count (trapframe : Nat) (room : 3 ≤ k.freelist.length) :
    ∃ k' pt, procPagetable k trapframe = .ok (k', some pt) ∧
      k.freelist.length = k'.freelist.length + 3 ∧ TablesBelow pt 0 := by
  obtain ⟨k₁, pt₁, create⟩ : ∃ k₁ pt₁, uvmcreate k = (k₁, some pt₁) := newTable_some (by omega)
  have taken := newTable_length create
  have none₁ := uvmcreate_missing create
  have lt₁ : (2 ^ 26 - 1) * pgsize < maxva := by decide
  have lt₂ : (2 ^ 26 - 2) * pgsize < maxva := by decide
  obtain ⟨k₂, pt₂, one₁, mapped₁, length₁⟩ := mappages_count k₁ k₁.trampoline (pteR ||| pteX) lt₁
    (by rw [uvmcreate_leaf create, Pte.has_zero]) (by rw [none₁]; omega)
  have missing₂ (w : Nat) (ltW : w * pgsize < maxva) := mapOne_missing lt₁ ltW one₁
  have zero₂ : pt₂.missing ((2 ^ 26 - 2) * pgsize) = 0 := by
    rw [missing₂ _ lt₂, if_pos (by decide), if_pos (by decide)]
  have absent₂ : (pt₂.leaf (2 ^ 26 - 2)).has pteV = false := by
    obtain ⟨no, -⟩ | ⟨-, -, leaf⟩ := mapOne_leaf lt₁ one₁
    · cases no
    · rw [leaf _ lt₂, if_neg (by decide), uvmcreate_leaf create, Pte.has_zero]
  obtain ⟨k₃, pt₃, one₂, mapped₂, length₂⟩ := mappages_count k₂ trapframe (pteR ||| pteW) lt₂
    absent₂ (by rw [zero₂]; exact Nat.zero_le _)
  rw [none₁] at length₁
  rw [zero₂] at length₂
  refine ⟨k₃, pt₃, ?_, by omega, fun w _ ltW => ?_⟩
  · rw [top_pages.1] at mapped₁
    rw [top_pages.2] at mapped₂
    unfold procPagetable
    simp only [create, mapped₁, mapped₂, bind, Except.bind, Int.lt_irrefl, if_false]
  · rw [mapOne_missing lt₂ ltW one₂, missing₂ w ltW, none₁]
    rw [page_lt_maxva] at ltW
    split_ifs <;> omega

/-- A page table that `proc_pagetable` made took three pages. -/
theorem procPagetable_room {trapframe : Nat} (run : procPagetable k trapframe = .ok (k', some pt)) :
    3 ≤ k.freelist.length := by
  unfold procPagetable at run
  cases create : uvmcreate k with
  | mk k₁ new =>
  rw [create] at run
  cases new with
  | none => cases run
  | some pt₁ =>
    have taken := newTable_length create
    obtain ⟨⟨k₂, pt₂, r₂⟩, mapped, run⟩ := of_bind_ok run
    rw [← top_pages.1, mappages_page (by decide)] at mapped
    obtain ⟨⟨k₃, pt₃, found⟩, one, last⟩ := of_bind_ok mapped
    cases last
    have length := mapOne_length one
    rw [uvmcreate_missing create] at length
    cases found with
    | true =>
      simp only [if_true] at length
      omega
    | false =>
      simp only [Bool.false_eq_true, if_false] at run
      rw [if_pos (by decide)] at run
      obtain ⟨k₄, -, last⟩ := of_bind_ok run
      cases last

/-! ## Dropping the child's pages -/

/-- `uvmunmap` of pages that are mapped, by entries with a flag besides `PTE_V`. -/
theorem unmapLoop_ok (user : v + n ≤ userPages)
    (mapped : ∀ w, v ≤ w → w < v + n → ∃ e, pt.entry w = some e ∧ pteFlags e ≠ pteV)
    (owned : Owned k pt excl shared) : ∃ r, unmapLoop true n k pt (v * pgsize) = .ok r := by
  induction n generalizing k pt v with
  | zero => exact ⟨_, rfl⟩
  | succ n ih =>
    obtain ⟨e, entry, flags⟩ := mapped v le_rfl (by omega)
    obtain ⟨leaf, valid⟩ := entry_eq_some.1 entry
    have look := lookup_of_entry entry
    have userV : v < userPages := by omega
    have lt := userPage_lt userV
    have found : (pt.lookup (v * pgsize)).isSome := by
      rw [look]
      rfl
    obtain ⟨k₁, freed, owned₁, -⟩ := unmap_owned userV found (by rw [leaf, valid]) owned
    rw [leaf] at freed
    have next : v * pgsize + pgsize = (v + 1) * pgsize := by ring
    have later : ∀ w, v + 1 ≤ w → w < v + 1 + n →
        ∃ e, (pt.store (v * pgsize) 0).entry w = some e ∧ pteFlags e ≠ pteV := by
      intro w low high
      obtain ⟨e', entry', flags'⟩ := mapped w (by omega) (by omega)
      have ltW := userPage_lt (show w < userPages by omega)
      have same : (pt.store (v * pgsize) 0).leaf w = pt.leaf w := by
        rw [leaf_store _ lt ltW found, if_neg (by omega)]
      exact ⟨e', by rw [entry_congr same, entry'], flags'⟩
    obtain ⟨r, rest⟩ := ih (by omega) later owned₁
    refine ⟨r, ?_⟩
    unfold unmapLoop walk
    simp only [if_neg (Nat.not_le.2 lt), look, valid, if_neg flags, bind, Except.bind, kfreeIf,
      if_true, freed, next, rest, Bool.not_true, Bool.false_eq_true, if_false]

/-! ## Copying the parent's page table -/

theorem cowmappage_ok (perm : Pte) (lt : v * pgsize < maxva) (page : k.IsPage pa)
    (absent : (pt.leaf v).has pteV = false) :
    ∃ r, cowmappage k pt (v * pgsize) pgsize pa perm = .ok r := by
  obtain ⟨⟨k₁, pt₁, found⟩, one⟩ := mapOne_ok (k := k) lt absent
  obtain ⟨aligned, low, high⟩ := page
  unfold cowmappage
  rw [if_neg (by omega), mappages_page lt, one]
  cases found with
  | true => exact ⟨_, rfl⟩
  | false => exact ⟨_, rfl⟩

theorem childEntry_flags (e : Pte) : pteFlags (childEntry e) ≠ pteV := by
  intro same
  have marked : (childEntry e).has pteCow = true := by
    rw [childEntry, mapEntry_cow, (cowFlags e).2]
  rw [← Pte.has_pteFlags (by decide), same] at marked
  revert marked
  decide

theorem tablePages_mono {a b : Nat} (le : a ≤ b) : tablePages a ≤ tablePages b := by
  unfold tablePages
  omega

/-- The loop of `uvmcowpy` from page `v` on: it does not panic, and succeeds exactly when
there are pages for the tables that are still missing. -/
theorem cowLoop_count {old new : PageTable} (user : v + n ≤ userPages)
    (full : ∀ w, v ≤ w → w < v + n → (old.entry w).isSome)
    (empty : ∀ w, v ≤ w → w < v + n → new.entry w = none)
    (below : ∀ w < v, ∃ e, new.entry w = some e ∧ pteFlags e ≠ pteV) (tables : TablesBelow new v)
    (owned : PairOwned k old new excl shared) :
    ∃ k' old' new' r, cowLoop n k old new (v * pgsize) = .ok (k', old', new', r) ∧
      (r = 0 ↔ tablePages (v + n) ≤ k.freelist.length + tablePages v) := by
  induction n generalizing k old new v with
  | zero => exact ⟨k, old, new, 0, rfl, by simp⟩
  | succ n ih =>
    obtain ⟨e, mapped⟩ := Option.isSome_iff_exists.1 (full v le_rfl (by omega))
    obtain ⟨leaf, valid⟩ := entry_eq_some.1 mapped
    have look := lookup_of_entry mapped
    have userV : v < userPages := by omega
    have lt := userPage_lt userV
    have absent := entry_eq_none.1 (empty v le_rfl (by omega))
    have page : k.IsPage (pte2pa e) := by
      have held := owned.swap.isPage_leaf userV
      rw [leaf] at held
      exact held valid
    have next : v * pgsize + pgsize = (v + 1) * pgsize := by ring
    have count := tables.missing lt
    obtain ⟨⟨k₁, new₁, r₁⟩, round⟩ :=
      cowmappage_ok (pteFlags (cowEntry e)) lt page absent
    obtain ⟨owned₁, -, result⟩ := cowRound_spec userV mapped round owned
    obtain ⟨k₂, found, one, ⟨rfl, rfl, rfl⟩ | ⟨rfl, rfl, rfl⟩⟩ := cowmappage_cases lt round
    · obtain ⟨-, -, entries⟩ | ⟨no, -⟩ := result
      · have length := mapOne_length one
        simp only [if_true] at length
        have oldLater (w : Nat) (low : v + 1 ≤ w) (high : w < v + 1 + n) :
            ((old.store (v * pgsize) (cowEntry e)).entry w).isSome := by
          have ltW := userPage_lt (show w < userPages by omega)
          rw [(mark_leaf userV mapped ltW).1, if_neg (by omega)]
          exact full w (by omega) (by omega)
        have newLater (w : Nat) (low : v + 1 ≤ w) (high : w < v + 1 + n) : new₁.entry w = none := by
          rw [entries w (userPage_lt (by omega)), if_neg (by omega)]
          exact empty w (by omega) (by omega)
        have newBelow (w : Nat) (low : w < v + 1) :
            ∃ e, new₁.entry w = some e ∧ pteFlags e ≠ pteV := by
          rw [entries w (userPage_lt (by omega))]
          by_cases here : w = v
          · rw [if_pos here]
            exact ⟨_, rfl, childEntry_flags e⟩
          · rw [if_neg here]
            exact below w (by omega)
        obtain ⟨k', old', new', r, rest, enough⟩ := ih (by omega) oldLater newLater newBelow
          (tables.step lt one) owned₁
        refine ⟨k', old', new', r, ?_, ?_⟩
        · unfold cowLoop walk
          simp only [if_neg (Nat.not_le.2 lt), look, valid, cowEntry_pa, round, next, rest, bind,
            Except.bind, Bool.not_true, Bool.false_eq_true, if_false, Int.lt_irrefl]
        · rw [enough, show v + 1 + n = v + (n + 1) by omega]
          have same : (k₂.setRefs (pte2pa e) (k₂.refs (pte2pa e) + 1)).freelist = k₂.freelist :=
            rfl
          rw [same]
          omega
      · exact absurd no (by decide)
    · obtain ⟨no, -⟩ | ⟨-, leaves⟩ := result
      · exact absurd no (by decide)
      · have length := mapOne_length one
        simp only [Bool.false_eq_true, if_false] at length
        have mapped₁ (w : Nat) (low : 0 ≤ w) (high : w < 0 + v) :
            ∃ e, new₁.entry w = some e ∧ pteFlags e ≠ pteV := by
          rw [entry_congr (leaves w)]
          exact below w (by omega)
        obtain ⟨⟨k', new'⟩, unmapped⟩ := unmapLoop_ok (by omega) mapped₁ owned₁
        rw [Nat.zero_mul] at unmapped
        refine ⟨k', old.store (v * pgsize) (cowEntry e), new', negOne, ?_, ?_⟩
        · unfold cowLoop walk uvmunmap
          simp only [if_neg (Nat.not_le.2 lt), look, valid, cowEntry_pa, round, bind, Except.bind,
            Bool.not_true, Bool.false_eq_true, if_false, page_div, unmapped, Nat.zero_mod, ne_eq,
            not_true_eq_false]
          rfl
        · have more := tablePages_mono (show v + 1 ≤ v + (n + 1) by omega)
          constructor
          · intro no
            exact absurd no (by decide)
          · intro enough
            omega

end Xv6
