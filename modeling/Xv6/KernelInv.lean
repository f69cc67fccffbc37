import Xv6.ExecShows

/-!
# The process table and the machine

The invariant between system calls: slots in use are those with an address space and a
trapframe page, every trapframe page is held by the kernel and belongs to one slot, and
no image is under construction.  `freeproc` and `allocproc` take a slot from one state to
the other.
-/

namespace Xv6

open Ownership Fallible Machine

namespace Kernel

structure Inv (s : Kernel) : Prop where
  machine : s.machine.Inv
  image : ∀ p, s.machine.space (.image p) = none
  held : ∀ p pa, (s.proc p).trapframe = some pa → pa ∈ s.machine.held
  distinct : ∀ p q pa, (s.proc p).trapframe = some pa → (s.proc q).trapframe = some pa → p = q
  unused : ∀ p, (s.proc p).state = .unused →
    s.machine.space (.proc p) = none ∧ (s.proc p).trapframe = none
  inUse : ∀ p, (s.proc p).state ≠ .unused →
    (s.machine.space (.proc p)).isSome ∧ ((s.proc p).trapframe).isSome

variable {s s' : Kernel} {p q : Fin nproc} {m' m : Machine}

@[simp] theorem modify_proc_self (s : Kernel) (p : Fin nproc) (f : Proc → Proc) :
    (s.modify p f).proc p = f (s.proc p) := by
  simp [modify]

theorem modify_proc_other (s : Kernel) (f : Proc → Proc) (other : q ≠ p) :
    (s.modify p f).proc q = s.proc q := by
  simp [modify, Function.update_of_ne other]

section

variable (inv : s.Inv)

include inv

/-- A step that keeps trapframes, and neither frees nor takes a slot. -/
theorem Inv.alter (machine : s'.machine.Inv)
    (images : ∀ q, s'.machine.space (.image q) = none)
    (there : ∀ q, (s'.machine.space (.proc q)).isSome = (s.machine.space (.proc q)).isSome)
    (held : ∀ pa ∈ s.machine.held, pa ∈ s'.machine.held)
    (frames : ∀ q, (s'.proc q).trapframe = (s.proc q).trapframe)
    (states : ∀ q, (s'.proc q).state = .unused ↔ (s.proc q).state = .unused) : s'.Inv := by
  refine ⟨machine, images, fun q pa frame => ?_, fun q r pa first second => ?_, fun q unused => ?_,
    fun q used => ?_⟩
  · rw [frames] at frame
    exact held pa (inv.held q pa frame)
  · rw [frames] at first second
    exact inv.distinct q r pa first second
  · obtain ⟨none, frame⟩ := inv.unused q ((states q).1 unused)
    have same := there q
    rw [none, Option.isSome_none, Option.isSome_eq_false_iff, Option.isNone_iff_eq_none] at same
    exact ⟨same, by rw [frames, frame]⟩
  · rw [there, frames]
    exact inv.inUse q fun unused => used ((states q).2 unused)

/-- Changes of the process table. -/
theorem Inv.congr (machine : s'.machine = s.machine)
    (frames : ∀ q, (s'.proc q).trapframe = (s.proc q).trapframe)
    (states : ∀ q, (s'.proc q).state = .unused ↔ (s.proc q).state = .unused) : s'.Inv := by
  refine inv.alter ?_ (fun q => ?_) (fun q => ?_) (fun pa => ?_) frames states <;> rw [machine]
  · exact inv.machine
  · exact inv.image q
  · exact id

theorem Inv.modify {f : Proc → Proc}
    (frame : (f (s.proc p)).trapframe = (s.proc p).trapframe)
    (state : (f (s.proc p)).state = .unused ↔ (s.proc p).state = .unused) : (s.modify p f).Inv := by
  refine inv.congr rfl (fun q => ?_) fun q => ?_ <;> by_cases here : q = p
  · rw [here, modify_proc_self, frame]
  · rw [modify_proc_other _ _ here]
  · rw [here, modify_proc_self, state]
  · rw [modify_proc_other _ _ here]

/-- A call that works on address spaces of processes and leaves them in place. -/
theorem Inv.works {ids : Set SpaceId} (works : Works s.machine m' ids)
    (images : ∀ q, m'.space (.image q) = none)
    (there : ∀ q, (m'.space (.proc q)).isSome = (s.machine.space (.proc q)).isSome) :
    ({ s with machine := m' } : Kernel).Inv :=
  inv.alter works.touches.inv images there (fun pa mem => by rwa [works.held]) (fun _ => rfl)
    fun _ => .rfl

/-- A call that works on the address space of one process. -/
theorem Inv.works_proc (works : Works s.machine m' {.proc p})
    (before : (s.machine.space (.proc p)).isSome) (after : (m'.space (.proc p)).isSome) :
    ({ s with machine := m' } : Kernel).Inv := by
  refine inv.works works (fun q => ?_) fun q => ?_
  · rw [works.touches.others _ (by rintro ⟨⟩)]
    exact inv.image q
  · by_cases here : q = p
    · rw [here, before, after]
    · rw [works.touches.others _ fun same => here (by cases same; rfl)]

end

/-! ## Freeing a slot -/

/-- The pages the kernel holds after the trapframe page of a slot is freed. -/
def heldWithout (held : List Nat) : Option Nat → List Nat
  | some pa => held.erase pa
  | none => held

theorem freeTrapframe_spec {m' : Machine} {frame : Option Nat} (inv : m.Inv)
    (held : ∀ pa, frame = some pa → pa ∈ m.held) (run : m.freeTrapframe frame = .ok m') :
    Touches m m' ∅ ∧ m'.space = m.space ∧ m'.held = heldWithout m.held frame := by
  cases frame with
  | none =>
    cases run
    exact ⟨(Works.refl inv ∅).touches, rfl, rfl⟩
  | some pa =>
    obtain ⟨touches, spaces⟩ := kfree_touches inv (held pa rfl) run
    refine ⟨touches, spaces, ?_⟩
    simp only [Machine.freeTrapframe, Machine.kfree] at run
    obtain ⟨k, -, last⟩ := of_bind_ok run
    cases last
    rfl

theorem freePagetable_spec {m' : Machine} {id : SpaceId} (inv : m.Inv)
    (run : m.freePagetable id = .ok m') : Works m m' {id} ∧ m'.space id = none := by
  unfold freePagetable at run
  cases space : m.space id with
  | none =>
    rw [space] at run
    cases run
    exact ⟨.refl inv _, space⟩
  | some sp =>
    rw [space] at run
    obtain ⟨touches, none, held⟩ := procFreepagetable_touches inv run
    exact ⟨⟨touches, held⟩, none⟩

theorem freeproc_spec (machine : s.machine.Inv)
    (held : ∀ pa, (s.proc p).trapframe = some pa → pa ∈ s.machine.held)
    (run : s.freeproc p = .ok s') :
    Touches s.machine s'.machine {.proc p} ∧ s'.machine.space (.proc p) = none ∧
      s'.machine.held = heldWithout s.machine.held (s.proc p).trapframe ∧
      s' = { s with machine := s'.machine }.modify p Proc.freed := by
  unfold freeproc at run
  obtain ⟨m₁, first, run⟩ := of_bind_ok run
  obtain ⟨m₂, second, last⟩ := of_bind_ok run
  cases last
  obtain ⟨touches₁, -, held₁⟩ := freeTrapframe_spec machine held first
  obtain ⟨works₂, none⟩ := freePagetable_spec touches₁.inv second
  exact ⟨(touches₁.mono (Set.empty_subset _)).trans works₂.touches, none,
    works₂.held.trans held₁, rfl⟩

/-- Freeing a slot keeps the invariant. -/
theorem Inv.freeproc (inv : s.Inv) (run : s.freeproc p = .ok s') : s'.Inv := by
  obtain ⟨touches, none, held, eq⟩ := freeproc_spec inv.machine (inv.held p) run
  have self : s'.proc p = (s.proc p).freed := by
    rw [eq]
    exact modify_proc_self _ _ _
  have other (q : Fin nproc) (ne : q ≠ p) : s'.proc q = s.proc q := by
    rw [eq]
    exact modify_proc_other _ _ ne
  have noFrame : (s'.proc p).trapframe = Option.none := by
    rw [self]
    rfl
  refine ⟨touches.inv, fun q => ?_, fun q pa frame => ?_, fun q r pa first second => ?_,
    fun q unused => ?_, fun q used => ?_⟩
  · rw [touches.others _ (by rintro ⟨⟩)]
    exact inv.image q
  · have ne : q ≠ p := by
      rintro rfl
      rw [noFrame] at frame
      cases frame
    rw [other q ne] at frame
    rw [held]
    have mem := inv.held q pa frame
    cases mine : (s.proc p).trapframe with
    | none => exact mem
    | some pb =>
      refine (List.mem_erase_of_ne ?_).2 mem
      rintro rfl
      exact ne (inv.distinct q p pa frame mine)
  · have neQ : q ≠ p := by
      rintro rfl
      rw [noFrame] at first
      cases first
    have neR : r ≠ p := by
      rintro rfl
      rw [noFrame] at second
      cases second
    rw [other q neQ] at first
    rw [other r neR] at second
    exact inv.distinct q r pa first second
  · by_cases here : q = p
    · rw [here]
      exact ⟨none, noFrame⟩
    · rw [other q here] at unused ⊢
      rw [touches.others _ fun same => here (by cases same; rfl)]
      exact inv.unused q unused
  · have ne : q ≠ p := by
      rintro rfl
      apply used
      rw [self]
      rfl
    rw [other q ne] at used ⊢
    rw [touches.others _ fun same => ne (by cases same; rfl)]
    exact inv.inUse q used

/-! ## Taking a slot -/

/-- What `allocproc` leaves: a slot with an empty address space, or the invariant and
everything that address spaces show. -/
inductive Allocated (s s' : Kernel) : Option (Fin nproc) → Prop
  | failed (inv : s'.Inv) (touches : Machine.Touches s.machine s'.machine ∅)
      (procs : ∀ q, (s.proc q).state ≠ .unused → s'.proc q = s.proc q) : Allocated s s' none
  | made {p : Fin nproc} {pt : PageTable} {pa : Nat} (slot : s.unusedSlot = some p)
      (touches : Machine.Touches s.machine s'.machine {.proc p})
      (space : s'.machine.space (.proc p) = some ⟨pt, 0⟩)
      (held : s'.machine.held = pa :: s.machine.held) (fresh : pa ∉ s.machine.held)
      (frame : (s'.proc p).trapframe = some pa) (state : (s'.proc p).state = .used)
      (others : ∀ q ≠ p, s'.proc q = s.proc q) : Allocated s s' (some p)

theorem unusedSlot_unused (slot : s.unusedSlot = some p) : (s.proc p).state = .unused := by
  have found := List.find?_some slot
  simpa using found

/-- A slot that was unused and is unused again. -/
theorem Allocated.released (inv : s.Inv) (unused : (s.proc p).state = .unused)
    (touches : Touches s.machine s'.machine {.proc p})
    (none : s'.machine.space (.proc p) = none) (held : s'.machine.held = s.machine.held)
    (others : ∀ q ≠ p, s'.proc q = s.proc q) (state : (s'.proc p).state = .unused)
    (frame : (s'.proc p).trapframe = Option.none) : Allocated s s' Option.none := by
  obtain ⟨noSpace, noFrame⟩ := inv.unused p unused
  have spaces (j : SpaceId) : s'.machine.space j = s.machine.space j := by
    by_cases here : j = .proc p
    · rw [here, none, noSpace]
    · exact touches.others j here
  have frames (q : Fin nproc) : (s'.proc q).trapframe = (s.proc q).trapframe := by
    by_cases here : q = p
    · rw [here, frame, noFrame]
    · rw [others q here]
  have states (q : Fin nproc) : (s'.proc q).state = (s.proc q).state := by
    by_cases here : q = p
    · rw [here, state, unused]
    · rw [others q here]
  refine .failed (inv.alter touches.inv (fun q => ?_) (fun q => ?_) (fun pa mem => ?_) frames
    fun q => ?_) ⟨touches.inv, fun j _ => spaces j, fun j _ sp space => ?_⟩ fun q used =>
      others q ?_
  · rw [spaces, inv.image]
  · rw [spaces]
  · rwa [held]
  · rw [states]
  · refine touches.bytes j (fun here => ?_) sp space
    rw [here, noSpace] at space
    cases space
  · rintro rfl
    exact used unused

theorem claim_frame (s : Kernel) (p : Fin nproc) :
    ((s.claim p).proc p).trapframe = (s.proc p).trapframe := by
  simp [claim, modify]

theorem claim_state (s : Kernel) (p : Fin nproc) : ((s.claim p).proc p).state = .used := by
  simp [claim, modify]

theorem claim_other (s : Kernel) (other : q ≠ p) : (s.claim p).proc q = s.proc q := by
  simp [claim, modify, Function.update_of_ne other]

/-- A page that the allocator hands out is not one the kernel holds already. -/
theorem kalloc_fresh {m' : Machine} {pa : Nat} (inv : m.Inv) (run : m.kalloc = (m', some pa)) :
    m'.held = pa :: m.held ∧ pa ∉ m.held := by
  have inv' := (kalloc_touches inv run).1.inv
  unfold Machine.kalloc at run
  split at run
  · cases run
  · cases run
    refine ⟨rfl, fun mem => ?_⟩
    have once := Ledger.excl_nodup inv'.holds
    rw [exclOf_held, Multiset.nodup_cons, exclOf_eq] at once
    exact once.1 (Multiset.mem_add.2 (.inr (Multiset.mem_coe.2 mem)))

theorem kalloc_none_held {m' : Machine} (run : m.kalloc = (m', none)) : m'.held = m.held := by
  unfold Machine.kalloc at run
  split at run
  · cases run
    rfl
  · cases run

theorem allocproc_spec {r : Option (Fin nproc)} (inv : s.Inv) (run : s.allocproc = .ok (s', r)) :
    Allocated s s' r := by
  unfold allocproc at run
  cases slot : s.unusedSlot with
  | none =>
    rw [slot] at run
    cases run
    exact .failed inv (Works.refl inv.machine ∅).touches fun _ _ => rfl
  | some p =>
    rw [slot] at run
    have unused := unusedSlot_unused slot
    obtain ⟨noSpace, noFrame⟩ := inv.unused p unused
    cases alloc : s.machine.kalloc with
    | mk m₁ r₁ =>
    simp only [alloc] at run
    obtain ⟨touches₁, spaces₁⟩ := kalloc_touches inv.machine alloc
    have touches₁ := touches₁.mono (Set.empty_subset {.proc p})
    cases r₁ with
    | none =>
      obtain ⟨s₂, freed, last⟩ := of_bind_ok run
      cases last
      have noFrame₁ : ((s.claim p).proc p).trapframe = none := by
        rw [claim_frame, noFrame]
      obtain ⟨touches₂, none, held₂, eq⟩ := freeproc_spec touches₁.inv
        (fun pa frame => by rw [noFrame₁] at frame; cases frame) freed
      simp only [noFrame₁, heldWithout] at held₂
      refine .released inv unused (touches₁.trans touches₂) none
        (held₂.trans (kalloc_none_held alloc)) (fun q ne => ?_) ?_ ?_
      · rw [eq, modify_proc_other _ _ ne]
        exact claim_other s ne
      · rw [eq, modify_proc_self]
        rfl
      · rw [eq, modify_proc_self]
        rfl
    | some pa =>
      obtain ⟨held₁, fresh⟩ := kalloc_fresh inv.machine alloc
      obtain ⟨⟨m₂, done⟩, made, run⟩ := of_bind_ok run
      obtain ⟨touches₂, -, empty, held₂⟩ :=
        procPagetable_touches touches₁.inv (by rw [spaces₁, noSpace]) made
      have touches := touches₁.trans touches₂
      have others (q : Fin nproc) (ne : q ≠ p) :
          (({ s.claim p with machine := m₂ } : Kernel).setTrapframe p pa).proc q = s.proc q :=
        (modify_proc_other _ _ ne).trans (claim_other s ne)
      have frame : ((({ s.claim p with machine := m₂ } : Kernel).setTrapframe p pa).proc
          p).trapframe = some pa := by
        simp [setTrapframe]
      simp only at run
      cases done with
      | true =>
        simp only [if_true] at run
        cases run
        obtain ⟨pt, space, -⟩ := empty rfl
        refine .made slot touches space (held₂.trans held₁) fresh ?_ ?_ fun q ne => ?_
        · rw [modify_proc_self]
          exact frame
        · rw [modify_proc_self]
          simp [Proc.started, setTrapframe, claim_state]
        · rw [modify_proc_other _ _ ne]
          exact others q ne
      | false =>
        simp only [Bool.false_eq_true, if_false] at run
        obtain ⟨s₃, freed, last⟩ := of_bind_ok run
        cases last
        obtain ⟨touches₃, none, held₃, eq⟩ := freeproc_spec touches₂.inv (fun pb frame' => by
            rw [frame] at frame'
            cases frame'
            rw [show (setTrapframe _ p pa).machine = m₂ from rfl, held₂, held₁]
            exact List.mem_cons_self) freed
        rw [frame] at held₃
        refine .released inv unused (touches.trans touches₃) none ?_ (fun q ne => ?_) ?_ ?_
        · rw [held₃]
          simp only [heldWithout]
          rw [show (setTrapframe _ p pa).machine = m₂ from rfl, held₂, held₁, List.erase_cons_head]
        · rw [eq, modify_proc_other _ _ ne]
          exact others q ne
        · rw [eq, modify_proc_self]
          rfl
        · rw [eq, modify_proc_self]
          rfl

end Kernel

end Xv6
