import Xv6.CowIsolation

/-!
# Fork when memory runs out

`uvmcowpy` returns `-1` as a `uint64`, and `fork` asks whether that is less than zero.  It
never is, so that a child whose page table could not be built becomes `RUNNABLE` with the
size of its parent and no page mapped.  This happens exactly when memory suffices for
`allocproc` and not for the tables of the child.
-/

namespace Xv6

open Ownership Fallible Machine

theorem tablePages_zero : tablePages 0 = 0 := by decide

/-- `uvmcowpy` into a fresh address space succeeds when there are pages for the tables. -/
theorem Machine.uvmcowpy_count {m : Machine} {parent child : SpaceId} {old new : PageTable}
    {sz : Nat} (inv : m.Inv) (distinct : parent ≠ child) (space : m.space parent = some ⟨old, sz⟩)
    (full : ∀ v < npages sz, (old.entry v).isSome) (empty : m.space child = some ⟨new, 0⟩)
    (tables : TablesBelow new 0) : ∃ m' r, m.uvmcowpy parent child = .ok (m', r) ∧
      (r = 0 ↔ tablePages (npages sz) ≤ m.kmem.freelist.length) := by
  have owned := inv.pairOwned distinct space empty
  have childTable : UserTable new 0 := inv.table child _ empty
  have small : npages sz ≤ userPages := npages_le_userPages (inv.table parent _ space).small
  obtain ⟨k', old', new', r, run, enough⟩ := cowLoop_count (v := 0) (n := npages sz) (by omega)
    (fun w _ high => full w (by omega))
    (fun w _ high => childTable.entry_above (Nat.zero_le w) (by omega))
    (fun w low => absurd low (Nat.not_lt_zero w)) tables owned
  rw [Nat.zero_mul] at run
  rw [Nat.zero_add, tablePages_zero, Nat.add_zero] at enough
  refine ⟨(m.put parent k' (some ⟨old', sz⟩)).put child k' (some ⟨new', sz⟩), r, ?_, enough⟩
  unfold uvmcowpy get Xv6.uvmcowpy
  simp only [space, empty, bind, Except.bind, run]

namespace Kernel

variable {s s' : Kernel} {p q np : Fin nproc} {sp : Space}

/-- The pages on the free list. -/
def free (s : Kernel) : Nat := s.machine.kmem.freelist.length

/-- The page table of a process maps every page of `[0, sz)`. -/
def Full (s : Kernel) (q : Fin nproc) : Prop :=
  ∀ sp, s.machine.space (.proc q) = some sp → ∀ v < npages sp.sz, (sp.pagetable.entry v).isSome

/-- A page that `uvmcowpy` needs for the page table of the child cannot be allocated. -/
def Exhausted (s : Kernel) (p : Fin nproc) : Prop :=
  ∃ s' np r, s.forkCopy p = .ok (s', some (np, r)) ∧ r ≠ 0

/-- The pages of a process have the same contents and reference counts in both states. -/
def SamePages (s s' : Kernel) (p : Fin nproc) : Prop :=
  ∀ sp, s.machine.space (.proc p) = some sp → ∃ sp', s'.machine.space (.proc p) = some sp' ∧
    sp'.sz = sp.sz ∧ ∀ v < npages sp.sz,
      SameBytes s.machine.kmem sp.pagetable s'.machine.kmem sp'.pagetable v ∧
      s'.machine.kmem.refs (pte2pa (sp'.pagetable.leaf v)) =
        s.machine.kmem.refs (pte2pa (sp.pagetable.leaf v))

/-- `fork` is atomic: when memory runs out in `uvmcowpy` it fails and leaves nothing
behind, and every process that can run has all its pages. -/
def ForkAtomic (s : Kernel) (p : Fin nproc) : Prop :=
  ∀ s' r, s.fork p = .ok (s', r) →
    (s.Exhausted p → r = -1 ∧ (∀ np, s.unusedSlot = some np → (s'.proc np).state = .unused) ∧
      SamePages s s' p ∧ s'.machine.kmem.freelist.Perm s.machine.kmem.freelist) ∧
    ∀ q, (s'.proc q).state = .runnable → s'.Full q

/-- With a free slot and four pages `allocproc` succeeds. -/
theorem allocproc_count (slot : s.unusedSlot = some np) (room : 4 ≤ s.free) :
    ∃ s' pt, s.allocproc = .ok (s', some np) ∧ s'.machine.space (.proc np) = some ⟨pt, 0⟩ ∧
      TablesBelow pt 0 ∧ s.free = s'.free + 4 := by
  unfold free at room
  obtain ⟨m₁, pa, alloc, first⟩ : ∃ m₁ pa, s.machine.kalloc = (m₁, some pa) ∧
      s.machine.kmem.freelist.length = m₁.kmem.freelist.length + 1 := by
    unfold Machine.kalloc
    cases alloc : Xv6.kalloc s.machine.kmem with
    | mk k₁ r =>
      cases r with
      | none =>
        obtain ⟨-, empty⟩ := kalloc_none alloc
        rw [empty] at room
        exact absurd room (by decide)
      | some pa => exact ⟨_, pa, rfl, kalloc_length alloc⟩
  obtain ⟨k₂, pt, made, length, tables⟩ :=
    procPagetable_count (k := m₁.kmem) pa (by omega)
  have run : s.allocproc = .ok ((({ s.claim np with
      machine := m₁.put (.proc np) k₂ (some ⟨pt, 0⟩) } : Kernel).setTrapframe np pa).modify np
        fun q => q.started s.ticks, some np) := by
    unfold allocproc Machine.procPagetable
    simp only [slot, alloc, made, bind, Except.bind, if_true]
    rfl
  refine ⟨_, pt, run, ?_, tables, ?_⟩
  · exact put_space _
  · show s.machine.kmem.freelist.length = k₂.freelist.length + 4
    omega

section

variable (inv : s.Inv) (full : s.Full p) (used : (s.proc p).state ≠ .unused)
  (space : s.machine.space (.proc p) = some sp)
include inv full used space

/-- What happens up to `uvmcowpy`, for a parent that has all its pages. -/
theorem forkCopy_count (slot : s.unusedSlot = some np) (room : 4 ≤ s.free) :
    ∃ s' r, s.forkCopy p = .ok (s', some (np, r)) ∧
      (r = 0 ↔ 4 + tablePages (npages sp.sz) ≤ s.free) := by
  obtain ⟨s₁, pt, alloc, made, tables, length⟩ := allocproc_count slot room
  have allocated := allocproc_spec inv alloc
  cases allocated with
  | @made _ _ pa _ touches _ held fresh frame state others =>
  have ne : p ≠ np := by
    rintro rfl
    exact used (unusedSlot_unused slot)
  have space₁ : s₁.machine.space (.proc p) = some ⟨sp.pagetable, sp.sz⟩ := by
    rw [touches.others _ (by simp [ne]), space]
  obtain ⟨m', r, run, enough⟩ := uvmcowpy_count touches.inv (by simp [ne]) space₁
    (full sp space) made tables
  refine ⟨{ s₁ with machine := m' }, r, ?_, ?_⟩
  · unfold forkCopy
    simp only [alloc, run, bind, Except.bind]
  · rw [enough]
    unfold free at length ⊢
    omega

/-- Memory runs out in `uvmcowpy` exactly between the pages that `allocproc` needs and
those that the whole child needs. -/
theorem exhausted_iff : s.Exhausted p ↔
      s.unusedSlot.isSome ∧ 4 ≤ s.free ∧ s.free < 4 + tablePages (npages sp.sz) := by
  constructor
  · rintro ⟨s', child, r, copy, nonzero⟩
    have copied := copy
    unfold forkCopy at copied
    obtain ⟨⟨s₁, found⟩, alloc, copied⟩ := of_bind_ok copied
    cases found with
    | none => cases copied
    | some np =>
      have length := allocproc_pages alloc
      have allocated := allocproc_spec inv alloc
      cases allocated with
      | @made _ _ pa slot touches _ held fresh frame state others =>
      have room : 4 ≤ s.free := by
        unfold free
        omega
      obtain ⟨s₂, r₂, copy₂, enough⟩ := forkCopy_count inv full used space slot room
      rw [copy] at copy₂
      cases copy₂
      refine ⟨by rw [slot]; rfl, room, ?_⟩
      by_contra more
      exact nonzero (enough.2 (by omega))
  · rintro ⟨there, room, less⟩
    obtain ⟨np, slot⟩ := Option.isSome_iff_exists.1 there
    obtain ⟨s₂, r, copy, enough⟩ := forkCopy_count inv full used space slot room
    refine ⟨s₂, np, r, copy, fun zero => ?_⟩
    have := enough.1 zero
    omega

end

/-- The reference machine with the memory that the processes show. -/
def shownImages (s : Kernel) : Eager :=
  ⟨fun q => (s.machine.space (.proc q)).map fun sp => ⟨sp.sz, shown s.machine.kmem sp.pagetable⟩⟩

theorem mirrors_shownImages (full : ∀ q, s.Full q) : s.Mirrors s.shownImages := by
  intro q
  simp only [shownImages]
  cases space : s.machine.space (.proc q) with
  | none => exact space
  | some sp => exact ⟨sp.pagetable, sp.sz, space, rfl, full q sp space, fun _ _ => rfl⟩

theorem Mirrors.full {e : Eager} (mirrors : s.Mirrors e) : s.Full q := by
  intro sp space v lt
  obtain ⟨im, image⟩ := mirrors.image (p := q) (by rw [space]; rfl)
  obtain ⟨pt, sz, space', shows⟩ := mirrors.shows image
  rw [space] at space'
  cases space'
  exact shows.full v lt

end Kernel

open Kernel in
/-- On a parent that has all its pages `fork` is atomic, unless memory runs out between
`allocproc` and the last table of the child. -/
theorem fork_atomic_iff {s : Kernel} {p : Fin nproc} {sp : Space} (inv : s.Inv)
    (full : ∀ q, s.Full q) (running : (s.proc p).state = .runnable)
    (space : s.machine.space (.proc p) = some sp) :
    s.ForkAtomic p ↔
      ¬ (s.unusedSlot.isSome ∧ 4 ≤ s.free ∧ s.free < 4 + tablePages (npages sp.sz)) := by
  have used : (s.proc p).state ≠ .unused := by
    rw [running]
    rintro ⟨⟩
  rw [← exhausted_iff inv (full p) used space]
  constructor
  · intro atomic exhausted
    obtain ⟨s₁, np, r, copy, -⟩ := id exhausted
    -- the test on the result of `uvmcowpy` does not see the failure
    have forked : ∃ s', s.fork p = .ok (s', ((s₁.proc np).pid : Int)) := by
      unfold fork
      simp only [copy, bind, Except.bind, Nat.not_lt_zero, if_false]
      exact ⟨_, rfl⟩
    obtain ⟨s', run⟩ := forked
    obtain ⟨failed, -⟩ := (atomic s' _ run).1 exhausted
    omega
  · intro enough s' r run
    refine ⟨fun exhausted => absurd exhausted enough, fun q _ => ?_⟩
    have copies (s' : Kernel) (np : Fin nproc) (r : Nat)
        (copy : s.forkCopy p = .ok (s', some (np, r))) : r = 0 := by
      by_contra nonzero
      exact enough ⟨s', np, r, copy, nonzero⟩
    have mirrors := mirrors_shownImages full
    obtain ⟨im, image⟩ := mirrors.image (p := p) (by rw [space]; rfl)
    rcases fork_simulates inv mirrors used image copies run with
      ⟨-, -, mirrors'⟩ | ⟨np, -, -, -, mirrors'⟩
    · exact mirrors'.full
    · exact mirrors'.full

/-- After boot with sixteen pages the first process forks atomically. -/
theorem fork_atomic_booted : ∃ s : Kernel, s.Booted ∧ s.ForkAtomic 0 := by
  have pass : Kernel.boots 16 (fun s =>
      decide ((s.proc 0).state = .runnable ∧ 6 ≤ s.free) &&
        (s.machine.space (.proc 0)).any fun sp => decide (tablePages (npages sp.sz) ≤ 2)) =
      true := by
    decide +kernel
  obtain ⟨s, booted, test⟩ := Kernel.of_boots pass
  obtain ⟨state, test⟩ := Bool.and_eq_true_iff.1 test
  obtain ⟨running, pages⟩ := of_decide_eq_true state
  obtain ⟨sp, space, tables⟩ := (Option.any_eq_true _ _).1 test
  have few := of_decide_eq_true tables
  obtain ⟨inv, mirrors⟩ := Kernel.booted_simulates booted
  refine ⟨s, booted, (fork_atomic_iff inv (fun q => mirrors.full) running space).2 ?_⟩
  rintro ⟨-, -, less⟩
  omega

/-- After boot with eleven pages memory runs out in `uvmcowpy`: `fork` returns the pid of
a child that is `RUNNABLE`, has the size of its parent and does not map its only page. -/
theorem fork_exhausted_runnable : ∃ (s s' : Kernel) (sp : Space), s.Booted ∧ s.Exhausted 0 ∧
    s.fork 0 = .ok (s', 2) ∧ (s'.proc 1).state = .runnable ∧
    s'.machine.space (.proc 1) = some sp ∧ sp.sz = pgsize ∧ sp.pagetable.entry 0 = none := by
  have pass : Kernel.boots 11 (fun s =>
      (yields (s.forkCopy 0) fun copy => copy.2.any fun child => decide (child.2 ≠ 0)) &&
        yields (s.fork 0) fun forked =>
          decide (forked.2 = 2 ∧ (forked.1.proc 1).state = .runnable) &&
            (forked.1.machine.space (.proc 1)).any fun sp =>
              decide (sp.sz = pgsize) && (sp.pagetable.entry 0).isNone) = true := by
    decide +kernel
  obtain ⟨s, booted, test⟩ := Kernel.of_boots pass
  obtain ⟨copies, test⟩ := Bool.and_eq_true_iff.1 test
  obtain ⟨⟨s₁, copy⟩, made, copyTest⟩ := of_yields copies
  obtain ⟨⟨np, r⟩, found, nonzero⟩ := (Option.any_eq_true _ _).1 copyTest
  obtain ⟨⟨s', pid⟩, forked, test⟩ := of_yields test
  obtain ⟨result, test⟩ := Bool.and_eq_true_iff.1 test
  obtain ⟨rfl, running⟩ := of_decide_eq_true result
  obtain ⟨sp, space, test⟩ := (Option.any_eq_true _ _).1 test
  obtain ⟨size, unmapped⟩ := Bool.and_eq_true_iff.1 test
  refine ⟨s, s', sp, booted, ⟨s₁, np, r, ?_, ?_⟩,
    forked, running, space, of_decide_eq_true size, Option.isNone_iff_eq_none.1 unmapped⟩
  · rw [made]
    simp only at found
    rw [found]
  · exact of_decide_eq_true nonzero

end Xv6
