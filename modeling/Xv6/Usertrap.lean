import Xv6.DupPg

/-!
# Store page faults

`usertrap` for every cause but a system call.  A store page fault goes to `dup_pg`, and only the
result `-1` makes the process a killed one: `0` is also the answer for every entry without the
mark, valid or not, and `-2` the one when memory is exhausted.
-/

namespace Xv6

open Fallible

variable {k k' : Kmem} {pt pt' : PageTable} {killed killed' : Bool} {va dev : Nat}

/-- The result of `devintr`. -/
def devintr (scause : BitVec 64) : Nat :=
  if scause &&& 0x8000000000000000#64 ≠ 0 ∧ scause &&& 0xff#64 = 9 then 1
  else if scause = 0x8000000000000001#64 then 2
  else 0

/-- `usertrap` up to the test for `killed`, for a trap that is not a system call: the memory, the
page table, `p->killed` and `which_dev`. -/
def usertrap (scause : BitVec 64) (stval : Nat) (k : Kmem) (pt : PageTable) (killed : Bool) :
    Except String (Kmem × PageTable × Bool × Nat) := do
  let (k, pt, copied) ←
    if scause = 15 then do
      let (k, pt, r) ← dupPg k pt stval
      .ok (k, pt, decide (r ≠ -1))
    else .ok (k, pt, false)
  if copied then .ok (k, pt, killed, 0)
  else if devintr scause ≠ 0 then .ok (k, pt, killed, devintr scause)
  else .ok (k, pt, true, 0)

/-- An address whose fault is fatal, or whose entry is marked with a page free for the copy, or
whose entry is writable already. -/
def Resolves (k : Kmem) (pt : PageTable) (killed : Bool) (va : Nat) : Prop :=
  killed = true ∨ Refused pt va ∨ (pt.leaf (va / pgsize)).has pteCow = true ∧ k.freelist ≠ [] ∨
    Writable pt va

/-- When `usertrap` returns from a store fault, the process is killed or may store, exactly if it
was killed before, or `dup_pg` refuses the address, has a marked page and memory to copy it, or
finds the page writable already. -/
theorem store_fault_resolved_iff
    (trapped : usertrap 15 va k pt killed = .ok (k', pt', killed', dev)) :
    (killed' = true ∨ Writable pt' va) ↔ Resolves k pt killed va := by
  obtain ⟨⟨k₁, pt₁, r⟩, dup, run⟩ := of_bind_ok trapped
  unfold Resolves
  cases dupPg_ends dup with
  | refused closed =>
    cases run
    exact iff_of_true (.inl rfl) (.inr (.inl closed))
  | plain accepted plain =>
    cases run
    simp [accepted, plain]
  | empty accepted marked empty =>
    cases run
    simp [accepted, empty]
  | @copied e _ _ newpa accepted mapped marked user alloc =>
    cases run
    have below := (accepted_lt accepted).2
    refine iff_of_true (.inr ⟨below, ?_⟩) (.inr (.inr (.inl ⟨?_, kalloc_nonempty alloc⟩)))
    · rw [leaf_dup below mapped]
      exact ⟨dupEntry_valid newpa, dupEntry_writable newpa⟩
    · rwa [(PageTable.entry_eq_some.1 mapped).1]

/-- A table with one entry, for the page at `pgsize`. -/
def oneEntry (e : Pte) : PageTable :=
  ⟨0, fun i => if i = 0 then some ⟨0, fun j => if j = 0 then some ⟨0, fun l =>
    if l = 1 then e else 0⟩ else none⟩ else none⟩

/-- A store to a marked page, with one page free: the entry is writable afterwards. -/
theorem store_fault_resolved_marked : ∃ k' pt' killed' dev,
    usertrap 15 pgsize ⟨kernbase, 0, [kernbase], fun _ => 0, fun _ => 0⟩
      (oneEntry (pa2pte (kernbase + pgsize) ||| pteV ||| pteR ||| pteU ||| pteCow)) false =
        .ok (k', pt', killed', dev) ∧ (killed' = true ∨ Writable pt' pgsize) := by
  obtain ⟨⟨k', pt', killed', dev⟩, trapped⟩ : ∃ r,
      usertrap 15 pgsize ⟨kernbase, 0, [kernbase], fun _ => 0, fun _ => 0⟩
        (oneEntry (pa2pte (kernbase + pgsize) ||| pteV ||| pteR ||| pteU ||| pteCow)) false =
          .ok r := ⟨_, rfl⟩
  refine ⟨k', pt', killed', dev, trapped, ?_⟩
  refine (store_fault_resolved_iff trapped).2 (.inr (.inr (.inl ⟨?_, by simp⟩)))
  decide +kernel

/-- A store to a page with this entry, without memory: the process is not killed and the entry not
writable. -/
def FaultsAgain (e : Pte) : Prop :=
  ∃ k' pt', usertrap 15 pgsize ⟨kernbase, 0, [], fun _ => 0, fun _ => 0⟩ (oneEntry e) false =
    .ok (k', pt', false, 0) ∧ ¬Writable pt' pgsize

/-- Stores to a page of the text, to the guard page below the stack, to an unmapped page and to a
marked page. -/
theorem store_fault_repeats : FaultsAgain (pteV ||| pteR ||| pteX ||| pteU) ∧
    FaultsAgain (pteV ||| pteR ||| pteW) ∧ FaultsAgain 0 ∧
    FaultsAgain (pteV ||| pteR ||| pteU ||| pteCow) := by
  refine ⟨⟨_, _, rfl, ?_⟩, ⟨_, _, rfl, ?_⟩, ⟨_, _, rfl, ?_⟩, ⟨_, _, rfl, ?_⟩⟩
  all_goals decide +kernel

end Xv6
