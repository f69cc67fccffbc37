import Xv6.PageOwners
import Xv6.Radix.Memory

/-!
# The tree in memory

`Represents mem pt`: the words of memory, read from the page of the root on, are the page table
`pt`.  The entry of a slot that leads nowhere is invalid, and one that leads to a table holds the
address of its page and no permission.  What a table represents depends on its own words and on
the pages below it only (`Local`), and these pages are different ones.
-/

namespace Xv6.Radix

open Ownership Fallible Multiset Option

section Node

variable {α : Type} {rep : Mem → Nat → α → Prop} {below : α → Multiset Nat} {t : Node α}
  {mem mem' : Mem} {i j : Fin 512} {pa : Nat}

/-- The words of a table page represent its slots. -/
def NodeRep (rep : Mem → Nat → α → Prop) (mem : Mem) (t : Node α) : Prop :=
  ∀ i, rep mem (slotAt t.page i) (t.slot i)

/-- A slot of the lowest level is its entry. -/
def leafRep (mem : Mem) (a : Nat) (e : Pte) : Prop := readPte mem a = e

/-- A slot of the two upper levels. -/
def tableRep (rep : Mem → Nat → α → Prop) (mem : Mem) (a : Nat) : Option (Node α) → Prop
  | none => (readPte mem a).has pteV = false
  | some t => readPte mem a = pa2pte t.page ||| pteV ∧ NodeRep rep mem t

/-- What a slot represents depends on its word and on the pages below it. -/
def Local (below : α → Multiset Nat) (rep : Mem → Nat → α → Prop) : Prop :=
  ∀ mem mem' a x, readPte mem' a = readPte mem a → (∀ pa ∈ below x, SamePage mem mem' pa) →
    rep mem a x → rep mem' a x

theorem page_mem_pages (below : α → Multiset Nat) (t : Node α) : t.page ∈ t.pages below := by
  rw [Node.pages_eq, mem_add]
  exact .inl (mem_singleton_self _)

theorem mem_pages_of_slot (mem : pa ∈ below (t.slot i)) : pa ∈ t.pages below := by
  rw [Node.pages_eq, mem_add, mem_sum]
  exact .inr ⟨i, Finset.mem_univ i, mem⟩

/-- The pages below the other slots of a table. -/
def others (below : α → Multiset Nat) (t : Node α) (i : Fin 512) : Multiset Nat :=
  ∑ j ∈ Finset.univ.erase i, below (t.slot j)

theorem mem_others (other : j ≠ i) (mem : pa ∈ below (t.slot j)) : pa ∈ others below t i := by
  rw [others, mem_sum]
  exact ⟨j, Finset.mem_erase.2 ⟨other, Finset.mem_univ j⟩, mem⟩

section

variable (below t i)

theorem others_set (x : α) : others below (t.set i x) i = others below t i := by
  unfold others
  refine Finset.sum_congr rfl fun j mem => ?_
  simp only [Node.set, Function.update_of_ne (Finset.mem_erase.1 mem).1]

/-- The pages of a table, seen from one slot. -/
theorem pages_at : t.pages below = below (t.slot i) + (t.page ::ₘ others below t i) := by
  have here := Finset.add_sum_erase Finset.univ (fun j => below (t.slot j)) (Finset.mem_univ i)
  rw [Node.pages_eq, ← here, ← singleton_add, add_left_comm]
  rfl

theorem pages_set (x : α) : (t.set i x).pages below = below x + (t.page ::ₘ others below t i) := by
  rw [pages_at below _ i, others_set]
  simp only [Node.set, Function.update_self]

end

/-- A table of the lowest level is its page. -/
theorem pages_low (t : Node α) : t.pages (fun _ => 0) = {t.page} := by
  rw [Node.pages_eq, Finset.sum_const_zero, add_zero]

theorem others_leaf (t : Node α) (i : Fin 512) : others (fun _ => 0) t i = 0 :=
  Finset.sum_const_zero

attribute [irreducible] others

theorem leafRep_local : Local (fun _ => 0) leafRep := by
  intro mem mem' a e word _ rep
  exact word.trans rep

section

variable (loc : Local below rep)
include loc

theorem Local.node (same : ∀ pa ∈ t.pages below, SamePage mem mem' pa)
    (old : NodeRep rep mem t) : NodeRep rep mem' t := by
  intro i
  have own := same _ (page_mem_pages below t)
  exact loc _ _ _ _ (readPte_samePage own i) (fun pa mem => same pa (mem_pages_of_slot mem)) (old i)

theorem Local.table : Local (slotPages below) (tableRep rep) := by
  intro mem mem' a slot word same rep
  cases slot with
  | none =>
    unfold tableRep at rep ⊢
    rw [word]
    exact rep
  | some t => exact ⟨word.trans rep.1, loc.node same rep.2⟩

/-- One slot of a table changes. -/
theorem Local.set {x : α} (old : NodeRep rep mem t) (here : rep mem' (slotAt t.page i) x)
    (words : ∀ j ≠ i, readPte mem' (slotAt t.page j) = readPte mem (slotAt t.page j))
    (same : ∀ pa ∈ others below t i, SamePage mem mem' pa) : NodeRep rep mem' (t.set i x) := by
  intro j
  by_cases this : j = i
  · subst this
    simpa [Node.set] using here
  · have slot : (t.set i x).slot j = t.slot j := by simp [Node.set, Function.update_of_ne this]
    rw [slot]
    exact loc _ _ _ _ (words j this) (fun pa mem => same pa (mem_others this mem)) (old j)

/-- The table below one slot changes. -/
theorem Local.descend {t : Node (Option (Node α))} {c d : Node α}
    (old : NodeRep (tableRep rep) mem t) (there : t.slot i = some c) (page : d.page = c.page)
    (child : NodeRep rep mem' d) (own : SamePage mem mem' t.page)
    (same : ∀ pa ∈ others (slotPages below) t i, SamePage mem mem' pa) :
    NodeRep (tableRep rep) mem' (t.set i (some d)) := by
  have here := old i
  rw [there] at here
  refine loc.table.set old ⟨?_, child⟩ (fun j _ => readPte_samePage own j) same
  rw [readPte_samePage own, here.1, page]

end

end Node

/-- The words of memory from the root on are the page table. -/
abbrev Represents (mem : Mem) (pt : PageTable) : Prop :=
  NodeRep (tableRep (tableRep leafRep)) mem pt

theorem lowLocal : Local lowPages (tableRep leafRep) := leafRep_local.table

theorem midLocal : Local (slotPages lowPages) (tableRep (tableRep leafRep)) := lowLocal.table

/-- The words of a page table stay where its pages are not touched. -/
theorem Represents.frame {mem mem' : Mem} {pt : PageTable} (rep : Represents mem pt)
    (same : ∀ pa ∈ pt.tables, SamePage mem mem' pa) : Represents mem' pt :=
  midLocal.node same rep

/-! ## Addresses of entries -/

/-- The address of the entry for `va`, where there is a table for it. -/
def pteAddr (pt : PageTable) (va : Nat) : Option Nat :=
  (pt.slot (px 2 va)).bind fun l1 => (l1.slot (px 1 va)).map fun l0 => slotAt l0.page (px 0 va)

variable {k k' : Kmem} {pt : PageTable} {va a : Nat} {excl shared : Multiset Nat}
  {l1 : Node (Option (Node Pte))}

theorem pteAddr_some (found : pteAddr pt va = some a) :
    ∃ l1, pt.slot (px 2 va) = some l1 ∧ ∃ l0, l1.slot (px 1 va) = some l0 ∧
      a = slotAt l0.page (px 0 va) := by
  obtain ⟨l1, there1, found⟩ := bind_eq_some_iff.1 found
  obtain ⟨l0, there0, at'⟩ := map_eq_some_iff.1 found
  exact ⟨l1, there1, l0, there0, at'.symm⟩

/-- The word at the address of an entry is the entry of the tree. -/
theorem lookup_eq (rep : Represents k.mem pt) :
    pt.lookup va = (pteAddr pt va).map (readPte k.mem) := by
  unfold pteAddr PageTable.lookup
  cases there1 : pt.slot (px 2 va) with
  | none => rfl
  | some l1 =>
    have mid := rep (px 2 va)
    rw [there1] at mid
    simp only [bind_some]
    cases there0 : l1.slot (px 1 va) with
    | none => rfl
    | some l0 =>
      have low := mid.2 (px 1 va)
      rw [there0] at low
      simp only [map_some, some.injEq]
      exact (low.2 (px 0 va)).symm

section Pages

variable (holds : Holds k (pt.tables + excl) shared)
include holds

theorem isPage_of_table {pa : Nat} (mem : pa ∈ pt.tables) : k.IsPage pa :=
  holds.isPage_excl (mem_add.2 (.inl mem))

theorem tables_nodup : pt.tables.Nodup :=
  (nodup_add.1 (Ledger.excl_nodup holds)).1

end Pages

/-- An entry that leads to a table holds its address. -/
theorem pte2pa_table {pa : Nat} (page : k.IsPage pa) : pte2pa (pa2pte pa ||| pteV) = pa := by
  rw [Pte.pte2pa_or _ _ (by decide), Pte.pte2pa_pa2pte page.aligned page.lt]

theorem table_has {pa : Nat} {m : Pte} (flag : m.toNat < 1024) :
    (pa2pte pa ||| pteV).has m = pteV.has m := by
  rw [Pte.has_or, Pte.has_pa2pte pa flag, Bool.false_or]

section Levels

variable {α : Type} {rep : Mem → Nat → α → Prop} {t : Node α} {alloc : Bool}

theorem nextTable_some (there : tableRep rep k.mem a (some t)) (page : k.IsPage t.page) :
    nextTable k a alloc = (k, some t.page) := by
  unfold nextTable
  simp only [there.1, table_has (show pteV.toNat < 1024 by decide), pte2pa_table page]
  rfl

section

variable (there : tableRep rep k.mem a none)
include there

theorem nextTable_absent : nextTable k a false = (k, none) := by
  unfold nextTable
  have invalid : (readPte k.mem a).has pteV = false := there
  simp only [invalid]
  rfl

theorem nextTable_null (alloc : kalloc k = (k', none)) : nextTable k a true = (k', none) := by
  unfold nextTable
  have invalid : (readPte k.mem a).has pteV = false := there
  simp only [invalid, alloc]
  rfl

theorem nextTable_new {pa : Nat}
    (alloc : kalloc k = (k', some pa)) :
    nextTable k a true =
      ({ k' with mem := writePte (memset k'.mem pa 0 pgsize) a (pa2pte pa ||| pteV) },
        some pa) := by
  unfold nextTable
  have invalid : (readPte k.mem a).has pteV = false := there
  simp only [invalid, alloc]
  rfl

end

end Levels

/-- The pages of the tables below a slot of the root. -/
theorem mem_tables_mid {i : Fin 512} (there : pt.slot i = some l1) : l1.page ∈ pt.tables := by
  refine mem_pages_of_slot (i := i) ?_
  rw [there]
  exact page_mem_pages _ l1

theorem mem_tables_low {l0 : Node Pte} {i j : Fin 512} (there : pt.slot i = some l1)
    (below : l1.slot j = some l0) : l0.page ∈ pt.tables := by
  refine mem_pages_of_slot (i := i) ?_
  rw [there]
  refine mem_pages_of_slot (i := j) ?_
  rw [below]
  exact page_mem_pages _ l0

/-- `walk` without allocation finds the entry of the tree, and writes nothing. -/
theorem walk_read (rep : Represents k.mem pt) (holds : Holds k (pt.tables + excl) shared)
    (lt : va < maxva) : walk k pt.page va false = .ok (k, pteAddr pt va) := by
  unfold walk
  rw [if_neg (Nat.not_le.2 lt)]
  unfold walkLoop pteAddr
  have rep1 := rep (px 2 va)
  cases there1 : pt.slot (px 2 va) with
  | none =>
    rw [there1] at rep1
    rw [nextTable_absent rep1]
    rfl
  | some l1 =>
    rw [there1] at rep1
    rw [nextTable_some rep1 (isPage_of_table holds (mem_tables_mid there1))]
    unfold walkLoop
    have rep0 := rep1.2 (px 1 va)
    cases there0 : l1.slot (px 1 va) with
    | none =>
      rw [there0] at rep0
      simp only [nextTable_absent rep0, bind_some, there0, map_none]
    | some l0 =>
      rw [there0] at rep0
      have page := isPage_of_table holds (mem_tables_low there1 there0)
      simp only [nextTable_some rep0 page, bind_some, there0, map_some, walkLoop]

end Xv6.Radix
