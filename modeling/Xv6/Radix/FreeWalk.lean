import Xv6.Radix.Walk

/-!
# `freewalk` in memory

`freewalk` finds the tables below a page through the words it is about to clear.  Freeing what one
slot leads to leaves the words of the other slots and the tables below them as they were
(`FreesSlot`), so the loop over the 512 entries meets each table once, and three levels down it
meets no further table.
-/

namespace Xv6.Radix

open Ownership Fallible Multiset List

variable {α : Type} {rep : Mem → Nat → α → Prop} {below : α → Multiset Nat}
  {free : Kmem → Nat → Except String Kmem} {k : Kmem} {excl shared : Multiset Nat} {t : Node α}
  {fuel : Nat}

/-- `free`, called with the address of a slot that represents `x`, gives back the pages below
it; `p` is the page of the slot. -/
def FreesSlot (rep : Mem → Nat → α → Prop) (below : α → Multiset Nat)
    (free : Kmem → Nat → Except String Kmem) (x : α) : Prop :=
  ∀ k p i excl shared, rep k.mem (slotAt p i) x → Holds k (below x + (p ::ₘ excl)) shared →
    ∃ k', free k (slotAt p i) = .ok k' ∧ Holds k' (p ::ₘ excl) shared ∧
      Framed k k' (excl + shared) ∧
      ∀ j ≠ i, readPte k'.mem (slotAt p j) = readPte k.mem (slotAt p j)

/-- `free`, called with a page that represents the table `t`, gives back its pages. -/
def FreesNode (rep : Mem → Nat → α → Prop) (below : α → Multiset Nat)
    (free : Kmem → Nat → Except String Kmem) (t : Node α) : Prop :=
  ∀ k excl shared, NodeRep rep k.mem t → Holds k (t.pages below + excl) shared →
    ∃ k', free k t.page = .ok k' ∧ Holds k' excl shared ∧ Framed k k' (excl + shared)

/-- The loop over the entries of one table; the slots still to come are as they were. -/
theorem FreesSlot.loop (loc : Local below rep) (each : ∀ i, FreesSlot rep below free (t.slot i))
    {l : List (Fin 512)} (once : l.Nodup) (slots : ∀ i ∈ l, rep k.mem (slotAt t.page i) (t.slot i))
    (holds : Holds k ((l.map fun i => below (t.slot i)).sum + (t.page ::ₘ excl)) shared) :
    ∃ k', l.foldlM (fun k i => free k (slotAt t.page i)) k = .ok k' ∧
      Holds k' (t.page ::ₘ excl) shared ∧ Framed k k' (excl + shared) := by
  induction l generalizing k with
  | nil => exact ⟨k, rfl, by simpa using holds, .refl _ _⟩
  | cons i l ih =>
    rw [List.nodup_cons] at once
    rw [List.map_cons, List.sum_cons, add_assoc, add_cons] at holds
    obtain ⟨k₁, first, holds₁, framed₁, words⟩ :=
      each i k t.page i _ _ (slots i mem_cons_self) holds
    rw [← add_cons] at holds₁
    have rest : ∀ j ∈ l, rep k₁.mem (slotAt t.page j) (t.slot j) := by
      intro j mem
      have other : j ≠ i := by
        rintro rfl
        exact once.1 mem
      refine loc _ _ _ _ (words j other) (fun pa under => framed₁.same pa ?_)
        (slots j (mem_cons_of_mem _ mem))
      have summed := single_le_sum (l := l.map fun i => below (t.slot i))
        (fun _ _ => zero_le _) _ (mem_map_of_mem mem)
      exact mem_add.2 (.inl (mem_add.2 (.inl (mem_of_le summed under))))
    obtain ⟨k', run, holds', framed'⟩ := ih once.2 rest holds₁
    refine ⟨k', ?_, holds', (framed₁.mono fun pa mem => ?_).trans framed'⟩
    · rw [foldlM_cons, first]
      exact run
    · rw [add_assoc]
      exact mem_add.2 (.inr mem)

/-- A table: its slots, then its own page. -/
theorem FreesSlot.node (loc : Local below rep)
    (each : ∀ i, FreesSlot rep below (freeEntry (freewalk fuel)) (t.slot i)) :
    FreesNode rep below (freewalk (fuel + 1)) t := by
  intro k excl shared slots holds
  have pages := holds.slots
  rw [Node.slots, List.map_map] at pages
  obtain ⟨k₁, loop, holds₁, framed₁⟩ :=
    FreesSlot.loop loc each (nodup_finRange 512) (fun i _ => slots i) pages
  obtain ⟨k₂, freed, holds₂, framed₂, -⟩ := kfree_excl holds₁
  refine ⟨k₂, ?_, holds₂, framed₁.trans framed₂⟩
  unfold freewalk
  rw [loop]
  exact freed

/-- A slot of the lowest level without a valid entry. -/
theorem freesSlot_leaf {e : Pte} (invalid : e.has pteV = false) :
    FreesSlot leafRep (fun _ => 0) (freeEntry free) e := by
  intro k p i excl shared word holds
  rw [zero_add] at holds
  refine ⟨k, ?_, holds, .refl _ _, fun _ _ => rfl⟩
  unfold freeEntry
  rw [show readPte k.mem (slotAt p i) = e from word]
  simp only [invalid]
  rfl

/-- A slot of the two upper levels, given what happens to the table it leads to. -/
theorem freesSlot_table {slot : Option (Node α)}
    (node : ∀ t, slot = some t → FreesNode rep below free t) :
    FreesSlot (tableRep rep) (slotPages below) (freeEntry free) slot := by
  intro k p i excl shared there holds
  cases slot with
  | none =>
    rw [slotPages, zero_add] at holds
    have invalid : (readPte k.mem (slotAt p i)).has pteV = false := there
    refine ⟨k, ?_, holds, .refl _ _, fun _ _ => rfl⟩
    unfold freeEntry
    simp only [invalid]
    rfl
  | some t =>
    have page := holds.isPage_excl (mem_add.2 (.inl (page_mem_pages below t)))
    obtain ⟨k₁, freed, holds₁, framed₁⟩ := node t rfl k _ _ there.2 holds
    have own := holds₁.isPage_excl (mem_cons_self p excl)
    have kept := framed₁.same p (mem_add.2 (.inl (mem_cons_self p excl)))
    refine ⟨{ k₁ with mem := writePte k₁.mem (slotAt p i) 0 }, ?_, holds₁, ?_, fun j ne => ?_⟩
    · unfold freeEntry
      simp only [there.1, table_has (show pteV.toNat < 1024 by decide),
        table_has (show (pteR ||| pteW ||| pteX).toNat < 1024 by decide), pte2pa_table page, freed]
      rfl
    · refine ⟨framed₁.kend, framed₁.trampoline, fun pa mem => ?_⟩
      have held : pa ∈ (p ::ₘ excl) + shared := by
        rw [cons_add]
        exact mem_cons_of_mem mem
      obtain ⟨aligned, apart⟩ := apart_of_cons holds₁ mem
      exact (framed₁.same pa held).trans (samePage_writePte own.aligned aligned apart _ i _)
    · change readPte (writePte _ (slotAt p i) _) _ = _
      rw [readPte_writePte_other own.aligned own.aligned (.inr (Ne.symm ne))]
      exact readPte_samePage kept j

/-- `freewalk` of a tree without leaves, with enough fuel for three levels. -/
theorem Tree.freewalk {root : Nat} {pt : PageTable} (tree : Tree k root pt excl shared)
    (empty : ∀ v, v * pgsize < maxva → (pt.leaf v).has pteV = false) (deep : 3 ≤ fuel) :
    ∃ k', freewalk fuel k root = .ok k' ∧ Holds k' excl shared ∧ Framed k k' (excl + shared) := by
  obtain ⟨f, rfl⟩ := Nat.exists_eq_add_of_le' deep
  rw [← tree.at_root]
  refine FreesSlot.node midLocal (fun i2 => ?_) k excl shared tree.rep tree.holds
  refine freesSlot_table fun l1 there1 => ?_
  refine FreesSlot.node lowLocal fun i1 => ?_
  refine freesSlot_table fun l0 there0 => ?_
  refine FreesSlot.node leafRep_local fun i0 => ?_
  exact freesSlot_leaf (tree.low.slot_invalid empty there1 there0 i0)

end Xv6.Radix
