import Xv6.KernelInv
import Xv6.PageAccounting
import Xv6.PageCount

/-!
# Copy-on-write isolation

The kernel simulates the machine without sharing: after every run, every process sees the
memory it would have if `fork` had given it a copy of its own.
-/

namespace Xv6

open Ownership Fallible Function Machine

/-- An address space shows an image, or is not there. -/
def Machine.ShowsOption (m : Machine) (id : SpaceId) : Option Image → Prop
  | none => m.space id = none
  | some im => m.Shows id im

theorem Machine.Touches.showsOption {m m' : Machine} {ids : Set SpaceId} {id : SpaceId}
    {o : Option Image} (touches : Touches m m' ids) (inv : m.Inv) (out : id ∉ ids)
    (shows : m.ShowsOption id o) : m'.ShowsOption id o := by
  cases o with
  | none => exact (touches.others id out).trans shows
  | some im => exact touches.shows inv out shows

namespace Kernel

variable {s s' : Kernel} {e : Eager} {p q : Fin nproc} {im : Image} {m' : Machine} {r : Int}
  {src : List UInt8}

/-- Every process shows its image in the reference machine. -/
def Mirrors (s : Kernel) (e : Eager) : Prop :=
  ∀ p, s.machine.ShowsOption (.proc p) (e.image p)

section

variable (mirrors : s.Mirrors e)
include mirrors

theorem Mirrors.shows (image : e.image p = some im) : s.machine.Shows (.proc p) im := by
  have here := mirrors p
  rwa [image] at here

theorem Mirrors.absent (image : e.image p = none) : s.machine.space (.proc p) = none := by
  have here := mirrors p
  rwa [image] at here

/-- A process in use has an image. -/
theorem Mirrors.image (space : (s.machine.space (.proc p)).isSome) : ∃ im, e.image p = some im := by
  cases image : e.image p with
  | none =>
    rw [mirrors.absent image] at space
    cases space
  | some im => exact ⟨im, rfl⟩

/-- One process changed, and the others are not touched. -/
theorem Mirrors.put {ids : Set SpaceId} {o : Option Image} (inv : s.machine.Inv)
    (touches : Touches s.machine s'.machine ids) (ids_proc : ∀ q, .proc q ∈ ids → q = p)
    (here : s'.machine.ShowsOption (.proc p) o) : s'.Mirrors (e.put p o) := by
  intro q
  by_cases same : q = p
  · subst same
    simp only [Eager.put, update_self]
    exact here
  · simp only [Eager.put, update_of_ne same]
    exact touches.showsOption inv (fun mem => same (ids_proc q mem)) (mirrors q)

end

theorem mem_proc {p q : Fin nproc} (mem : SpaceId.proc q ∈ ({.proc p} : Set SpaceId)) : q = p := by
  cases mem
  rfl

theorem Mirrors.change {f : Image → Image} (mirrors : s.Mirrors (e.put p (some (f im))))
    (image : e.image p = some im) : s.Mirrors (e.change p f) := by
  unfold Eager.change
  rw [image]
  exact mirrors

theorem put_self (image : e.image p = some im) : e.put p (some im) = e := by
  unfold Eager.put
  rw [← image, update_eq_self]

theorem shows_isSome {m : Machine} {id : SpaceId} (shows : m.Shows id im) :
    (m.space id).isSome := by
  obtain ⟨pt, sz, space, -⟩ := shows
  rw [space]
  rfl

/-- A call that works on the memory of `p`. -/
theorem step_works {im' : Image} (inv : s.Inv) (mirrors : s.Mirrors e) (image : e.image p = some im)
    (works : Works s.machine m' {.proc p}) (shows : m'.Shows (.proc p) im') :
    ({ s with machine := m' } : Kernel).Inv ∧
      ({ s with machine := m' } : Kernel).Mirrors (e.put p (some im')) := by
  have before := shows_isSome (mirrors.shows image)
  exact ⟨inv.works_proc works before (shows_isSome shows),
    mirrors.put inv.machine works.touches (fun q => mem_proc) shows⟩

/-! ## Each operation -/

section

variable (inv : s.Inv) (mirrors : s.Mirrors e)
include inv mirrors

theorem copyout_simulates {dstva : Nat} (image : e.image p = some im)
    (run : s.copyout p dstva src = .ok (s', r)) :
    s'.Inv ∧ s'.proc = s.proc ∧ Works s.machine s'.machine {.proc p} ∧
      ∃ n ≤ src.length, s'.Mirrors (e.put p (some (im.write dstva (src.take n)))) ∧
        ((r = 0 ∧ n = src.length) ∨ r = -1) := by
  unfold copyout at run
  obtain ⟨⟨m₁, r₁⟩, copied, last⟩ := of_bind_ok run
  cases last
  obtain ⟨works, n, le, shows, result⟩ := copyout_shows inv.machine (mirrors.shows image) copied
  obtain ⟨inv', mirrors'⟩ := step_works inv mirrors image works shows
  exact ⟨inv', rfl, works, n, le, mirrors', result⟩

theorem exit_simulates {status : Int} (state : (s.proc p).state ≠ .unused)
    (run : s.exit p status = .ok s') : s'.Inv ∧ s'.Mirrors e ∧ s'.machine = s.machine := by
  unfold exit at run
  split at run
  · cases run
  · cases run
    refine ⟨inv.congr rfl (fun q => ?_) fun q => ?_, mirrors, rfl⟩
    · by_cases here : q = p
      · subst here
        rw [modify_proc_self]
        simp only [reparent]
        split <;> rfl
      · rw [modify_proc_other _ _ here]
        simp only [reparent]
        split <;> rfl
    · by_cases here : q = p
      · subst here
        rw [modify_proc_self]
        simp [state]
      · rw [modify_proc_other _ _ here]
        simp only [reparent]
        split <;> rfl

theorem store_simulates {va : Nat} {r : Stored} (state : (s.proc p).state ≠ .unused)
    (image : e.image p = some im) (fits : va % pgsize + src.length ≤ pgsize)
    (run : s.store p va src = .ok (s', r)) :
    s'.Inv ∧ s'.Mirrors (if r = .done then e.put p (some (im.write va src)) else e) := by
  obtain ⟨pt, sz, space, shown⟩ := mirrors.shows image
  unfold store at run
  replace run := of_get_ok space run
  split at run
  · rename_i hit
    obtain ⟨m₁, written, last⟩ := of_bind_ok run
    cases last
    obtain ⟨entry, user, mapped, plain⟩ :=
      (inv.machine.table _ _ space).writable hit.1 hit.2
    obtain ⟨works, shows⟩ :=
      write_shows inv.machine space shown user mapped plain fits written
    rw [if_pos rfl]
    exact step_works inv mirrors image works shows
  · obtain ⟨⟨m₁, r₁⟩, dup, run⟩ := of_bind_ok run
    obtain ⟨works, shows⟩ := dupPg_shows inv.machine (mirrors.shows image) dup
    obtain ⟨inv₁, mirrors₁⟩ := step_works inv mirrors image works shows
    rw [put_self image] at mirrors₁
    simp only at run
    split at run
    · cases run
      exact ⟨inv₁, mirrors₁⟩
    · obtain ⟨s₂, exited, last⟩ := of_bind_ok run
      cases last
      have inv₂ : (({ s with machine := m₁ } : Kernel).modify p
          fun q => { q with killed := true }).Inv := inv₁.modify rfl .rfl
      obtain ⟨inv₃, mirrors₃, -⟩ := exit_simulates inv₂ mirrors₁
        (by rw [modify_proc_self]; exact state) exited
      exact ⟨inv₃, mirrors₃⟩

theorem sbrk_simulates {n : Int} (image : e.image p = some im) (run : s.sbrk p n = .ok (s', r)) :
    s'.Inv ∧ s'.Mirrors (if r = -1 then e else e.put p (some (im.sbrk n))) := by
  obtain ⟨pt, sz, space, shown⟩ := mirrors.shows image
  have size : sz = im.sz := shown.size
  unfold sbrk at run
  replace run := of_get_ok space run
  simp only at run
  unfold Image.sbrk
  rw [← size]
  simp only
  have old : ((sz : Int) = -1) = False := by
    simp only [eq_iff_iff, iff_false]
    omega
  split at run
  · rename_i grows
    rw [if_pos grows]
    obtain ⟨⟨m₁, r₁⟩, grown, run⟩ := of_bind_ok run
    obtain ⟨works, failed, done⟩ :=
      uvmalloc_shows inv.machine (by decide) (mirrors.shows image) grown
    simp only at run
    split at run
    · rename_i zero
      cases run
      rw [if_pos rfl]
      have stepped := step_works inv mirrors image works (failed zero)
      rwa [put_self image] at stepped
    · rename_i nonzero
      cases run
      simp only [old, if_false]
      exact step_works inv mirrors image works (done nonzero).2
  · rename_i not
    rw [if_neg not]
    split at run
    · rename_i shrinks
      rw [if_pos shrinks]
      obtain ⟨⟨m₁, r₁⟩, shrunk, run⟩ := of_bind_ok run
      obtain ⟨works, shows⟩ := uvmdealloc_shows inv.machine (mirrors.shows image) shrunk
      cases run
      simp only [old, if_false]
      exact step_works inv mirrors image works shows
    · rename_i zero
      cases run
      simp only [old, zero, if_false]
      rw [put_self image]
      exact ⟨inv, mirrors⟩

theorem freeproc_simulates (run : s.freeproc q = .ok s') : s'.Inv ∧ s'.Mirrors (e.put q none) := by
  obtain ⟨touches, none, -⟩ := freeproc_spec inv.machine (inv.held q) run
  exact ⟨inv.freeproc run, mirrors.put inv.machine touches (fun r => mem_proc) none⟩

end

theorem Mirrors.untouched (mirrors : s.Mirrors e) (inv : s.machine.Inv)
    (touches : Touches s.machine s'.machine ∅) : s'.Mirrors e :=
  fun q => touches.showsOption inv (Set.notMem_empty _) (mirrors q)

/-- A state with a slot that `allocproc` has handed out. -/
theorem Allocated.inv {s₁ : Kernel} {child : Fin nproc} (inv : s.Inv)
    (allocated : Allocated s s₁ (some child)) (machine : s'.machine.Inv)
    (images : ∀ q, s'.machine.space (.image q) = none)
    (there : ∀ q, (s'.machine.space (.proc q)).isSome =
      (decide (q = child) || (s.machine.space (.proc q)).isSome))
    (kept : s'.machine.held = s₁.machine.held) (procs : ∀ q ≠ child, s'.proc q = s₁.proc q)
    (frames : (s'.proc child).trapframe = (s₁.proc child).trapframe)
    (used : (s'.proc child).state ≠ .unused) : s'.Inv := by
  cases allocated with
  | @made _ pt pa slot touches space held fresh frame state others =>
  rw [frame] at frames
  have same (q : Fin nproc) (ne : q ≠ child) : s'.proc q = s.proc q :=
    (procs q ne).trans (others q ne)
  have fromOld (q : Fin nproc) (pb : Nat) (ne : q ≠ child)
      (mine : (s'.proc q).trapframe = some pb) : pb ∈ s.machine.held := by
    rw [same q ne] at mine
    exact inv.held q pb mine
  refine ⟨machine, images, fun q pb mine => ?_, fun q r pb first second => ?_,
    fun q unused => ?_, fun q inUse => ?_⟩
  · rw [kept, held]
    by_cases ne : q = child
    · rw [ne, frames] at mine
      cases mine
      exact List.mem_cons_self
    · exact List.mem_cons_of_mem _ (fromOld q pb ne mine)
  · by_cases neQ : q = child
    · by_cases neR : r = child
      · rw [neQ, neR]
      · rw [neQ, frames] at first
        cases first
        exact absurd (fromOld r pa neR second) fresh
    · by_cases neR : r = child
      · rw [neR, frames] at second
        cases second
        exact absurd (fromOld q pa neQ first) fresh
      · rw [same q neQ] at first
        rw [same r neR] at second
        exact inv.distinct q r pb first second
  · have ne : q ≠ child := by
      rintro rfl
      exact used unused
    rw [same q ne] at unused ⊢
    obtain ⟨none, frame⟩ := inv.unused q unused
    have absent := there q
    rw [none, decide_eq_false ne] at absent
    exact ⟨by simpa using absent, frame⟩
  · rw [there]
    by_cases ne : q = child
    · rw [ne, frames]
      exact ⟨by simp, rfl⟩
    · rw [same q ne] at inUse ⊢
      obtain ⟨space, frame⟩ := inv.inUse q inUse
      exact ⟨by rw [space, Bool.or_true], frame⟩

section

variable (inv : s.Inv) (mirrors : s.Mirrors e)
include inv mirrors

theorem fork_simulates (used : (s.proc p).state ≠ .unused) (image : e.image p = some im)
    (copies : ∀ s' np r, s.forkCopy p = .ok (s', some (np, r)) → r = 0)
    (run : s.fork p = .ok (s', r)) : (r = -1 ∧ s'.Inv ∧ s'.Mirrors e) ∨
      ∃ np, s.unusedSlot = some np ∧ r ≠ -1 ∧ s'.Inv ∧ s'.Mirrors (e.put np (some im)) := by
  unfold fork at run
  obtain ⟨⟨s₁, o⟩, copied, run⟩ := of_bind_ok run
  have zero := copies s₁
  rw [copied] at zero
  unfold forkCopy at copied
  obtain ⟨⟨s₂, child⟩, alloc, copied⟩ := of_bind_ok copied
  have allocated := allocproc_spec inv alloc
  cases child with
  | none =>
    cases copied
    cases run
    obtain ⟨inv', touches, -⟩ := allocated
    exact .inl ⟨rfl, inv', mirrors.untouched inv.machine touches⟩
  | some np =>
    obtain ⟨⟨m₃, r₃⟩, cow, last⟩ := of_bind_ok copied
    cases last
    cases zero np r₃ rfl
    have made := allocated
    cases allocated with
    | @made _ pt pa slot touches space =>
    have ne : p ≠ np := by
      rintro rfl
      exact used (unusedSlot_unused slot)
    have shows₂ : s₂.machine.Shows (.proc p) im :=
      touches.shows inv.machine (by simp [ne]) (mirrors.shows image)
    obtain ⟨works, parent, child⟩ :=
      uvmcowpy_shows touches.inv (by simp [ne]) shows₂ space cow
    simp only [Nat.not_lt_zero, if_false] at run
    cases run
    refine .inr ⟨np, slot, by omega, ?_, fun q => ?_⟩
    · refine made.inv inv works.touches.inv (fun q => ?_) (fun q => ?_) works.held
        (fun q => modify_proc_other _ _) (by rw [modify_proc_self])
        (by rw [modify_proc_self]; rintro ⟨⟩)
      · exact (works.touches.others _ (by simp)).trans
          ((touches.others _ (by simp)).trans (inv.image q))
      · by_cases isChild : q = np
        · simp [isChild, modify, shows_isSome child]
        · by_cases isParent : q = p
          · simp [isParent, ne, modify, shows_isSome parent, shows_isSome (mirrors.shows image)]
          · simp [isChild, modify, works.touches.others _, isParent, touches.others _]
    · show m₃.ShowsOption (.proc q) _
      by_cases isChild : q = np
      · rw [isChild]
        simp only [Eager.put, update_self]
        exact child
      · simp only [Eager.put, update_of_ne isChild]
        by_cases isParent : q = p
        · rw [isParent, image]
          exact parent
        · exact works.touches.showsOption touches.inv (by simp [isParent, isChild])
            (touches.showsOption inv.machine (by simp [isChild]) (mirrors q))

theorem exec_simulates {path : List UInt8} {file : Option (List UInt8)} {argv : List (List UInt8)}
    (image : e.image p = some im) (uint : ∀ f, file = some f → f.length < 2 ^ 32)
    (run : s.exec p path file argv = .ok (s', r)) :
    (r = -1 ∧ s'.Inv ∧ s'.Mirrors e) ∨ (r ≠ -1 ∧ s'.Inv ∧ ∃ f im', file = some f ∧
      Image.exec f argv = some im' ∧ s'.Mirrors (e.put p (some im'))) := by
  have before := shows_isSome (mirrors.shows image)
  unfold exec at run
  split at run
  · cases run
    exact .inl ⟨rfl, inv, mirrors⟩
  · cases run
  · rename_i f trapframe _
    obtain ⟨⟨m₁, result⟩, built, run⟩ := of_bind_ok run
    obtain ⟨works₁, shows₁⟩ :=
      buildImage_shows inv.machine (inv.image p) (uint f rfl) built
    have images₁ (q : Fin nproc) (ne : q ≠ p) : m₁.space (.image q) = none := by
      rw [works₁.touches.others _ (by simp [ne])]
      exact inv.image q
    have procs₁ (q : Fin nproc) : m₁.space (.proc q) = s.machine.space (.proc q) :=
      works₁.touches.others _ (by simp)
    cases result with
    | none =>
      obtain ⟨m₂, freed, last⟩ := of_bind_ok run
      cases last
      obtain ⟨works₂, none⟩ := freePagetable_spec works₁.touches.inv freed
      have works := works₁.trans works₂
      refine .inl ⟨rfl, inv.works works (fun q => ?_) fun q => ?_,
        fun q => works.touches.showsOption inv.machine (by simp) (mirrors q)⟩
      · by_cases here : q = p
        · rw [here, none]
        · rw [works₂.touches.others _ (by simp [here]), images₁ q here]
      · rw [works.touches.others _ (by simp)]
    | some image' =>
      obtain ⟨elf, sp⟩ := image'
      obtain ⟨m₂, committed, last⟩ := of_bind_ok run
      cases last
      obtain ⟨im', executed, shown, -⟩ := shows₁ elf sp rfl
      obtain ⟨works₂, shows₂, none⟩ := commit_shows works₁.touches.inv shown committed
      have works : Works s.machine m₂ {.proc p, .image p} :=
        .trans ⟨works₁.touches.mono fun _ => .inr, works₁.held⟩ works₂
      have inv₂ : ({ s with machine := m₂ } : Kernel).Inv := by
        refine inv.works works (fun q => ?_) fun q => ?_
        · by_cases here : q = p
          · rw [here, none]
          · rw [works₂.touches.others _ (by simp [here]), images₁ q here]
        · by_cases here : q = p
          · rw [here, before, shows_isSome shows₂]
          · rw [works.touches.others _ (by simp [here])]
      refine .inr ⟨by omega, inv₂.modify rfl .rfl, f, im', rfl, executed, ?_⟩
      refine mirrors.put inv.machine works.touches (fun q mem => ?_) shows₂
      simpa using mem

theorem wait_simulates {addr : Nat} {r : Option Int} (image : e.image p = some im)
    (run : s.wait p addr = .ok (s', r)) : match s.zombieChild p with
    | none => s'.Inv ∧ s'.Mirrors e
    | some q =>
      let status := if addr = 0 then [] else intBytes (s.proc q).xstate
      (r = some (-1) ∧ s'.Inv ∧ ∃ n ≤ status.length,
        s'.Mirrors (e.put p (some (im.write addr (status.take n))))) ∨
      (r ≠ some (-1) ∧ s'.Inv ∧
        s'.Mirrors ((e.put p (some (im.write addr status))).put q none)) := by
  unfold wait at run
  cases found : s.zombieChild p with
  | none =>
    simp only [found] at run
    split at run
    · cases run
      exact ⟨inv, mirrors⟩
    · cases run
      exact ⟨inv, mirrors⟩
  | some q =>
    simp only [found] at run ⊢
    by_cases zero : addr = 0
    · simp only [if_pos zero] at run ⊢
      obtain ⟨s₁, freed, last⟩ := of_bind_ok run
      cases last
      obtain ⟨inv₁, mirrors₁⟩ := freeproc_simulates inv mirrors freed
      refine .inr ⟨by simp, inv₁, ?_⟩
      rwa [Image.write_nil, put_self image]
    · simp only [if_neg zero] at run ⊢
      obtain ⟨⟨s₁, r₁⟩, copied, run⟩ := of_bind_ok run
      obtain ⟨inv₁, -, -, n, le, mirrors₁, result⟩ := copyout_simulates inv mirrors image copied
      simp only at run
      split at run
      · cases run
        exact .inl ⟨rfl, inv₁, n, le, mirrors₁⟩
      · rename_i done
        obtain ⟨s₂, freed, last⟩ := of_bind_ok run
        cases last
        obtain ⟨inv₂, mirrors₂⟩ := freeproc_simulates inv₁ mirrors₁ freed
        refine .inr ⟨by simp, inv₂, ?_⟩
        rwa [List.take_of_length_le (by omega)] at mirrors₂

/-- Every operation is a step of the reference machine. -/
theorem perform_simulates {op : Op} {out : Outcome} (allowed : s.Allows op)
    (run : s.perform op = .ok (s', out)) : s'.Inv ∧ ∃ e', e.Step op out e' ∧ s'.Mirrors e' := by
  obtain ⟨state, fits, copies⟩ := allowed
  have used : (s.proc op.actor).state ≠ .unused := by
    rw [state]
    rintro ⟨⟩
  obtain ⟨im, image⟩ := mirrors.image (inv.inUse _ used).1
  cases op with
  | fork p =>
    obtain ⟨⟨s₁, r⟩, forked, last⟩ := of_bind_ok run
    rcases fork_simulates inv mirrors used image (copies p rfl) forked with
      ⟨rfl, inv', mirrors'⟩ | ⟨np, slot, done, inv', mirrors'⟩
    · have failed : (s₁, Outcome.failed) = (s', out) := by
        cases slot : s.unusedSlot with
        | none =>
          simp only [slot] at last
          cases last
          rfl
        | some np =>
          simp only [slot, if_true] at last
          cases last
          rfl
      cases failed
      exact ⟨inv', e, rfl, mirrors'⟩
    · simp only [slot, if_neg done] at last
      cases last
      refine ⟨inv', _, rfl, ?_⟩
      rw [show e.image p = some im from image]
      exact mirrors'
  | store p va src =>
    obtain ⟨⟨s₁, r⟩, stored, last⟩ := of_bind_ok run
    obtain ⟨inv', mirrors'⟩ := store_simulates inv mirrors used image fits stored
    cases r with
    | done =>
      cases last
      exact ⟨inv', _, rfl, mirrors'.change image⟩
    | retry =>
      cases last
      exact ⟨inv', e, rfl, mirrors'⟩
    | killed =>
      cases last
      exact ⟨inv', e, rfl, mirrors'⟩
  | copyout p dstva src =>
    obtain ⟨⟨s₁, r⟩, copied, last⟩ := of_bind_ok run
    obtain ⟨inv', -, -, n, le, mirrors', result⟩ := copyout_simulates inv mirrors image copied
    rcases result with ⟨rfl, rfl⟩ | rfl
    · cases last
      rw [List.take_length] at mirrors'
      exact ⟨inv', _, rfl, mirrors'.change image⟩
    · cases last
      exact ⟨inv', _, ⟨n, le, rfl⟩, mirrors'.change image⟩
  | sbrk p n =>
    obtain ⟨⟨s₁, r⟩, resized, last⟩ := of_bind_ok run
    obtain ⟨inv', mirrors'⟩ := sbrk_simulates inv mirrors image resized
    by_cases failed : r = -1
    · simp only [if_pos failed] at last mirrors'
      cases last
      exact ⟨inv', e, rfl, mirrors'⟩
    · simp only [if_neg failed] at last mirrors'
      cases last
      exact ⟨inv', _, rfl, mirrors'.change image⟩
  | exec p path file argv =>
    obtain ⟨⟨s₁, r⟩, executed, last⟩ := of_bind_ok run
    have uint (f : List UInt8) (eq : file = some f) : f.length < 2 ^ 32 := by
      subst eq
      exact fits
    rcases exec_simulates inv mirrors image uint executed with
      ⟨rfl, inv', mirrors'⟩ | ⟨done, inv', f, im', rfl, built, mirrors'⟩
    · cases last
      refine ⟨inv', e, ?_, mirrors'⟩
      cases file <;> rfl
    · simp only [if_neg done] at last
      cases last
      exact ⟨inv', _, ⟨im', built, rfl⟩, mirrors'⟩
  | exit p status =>
    obtain ⟨s₁, exited, last⟩ := of_bind_ok run
    cases last
    obtain ⟨inv', mirrors', -⟩ := exit_simulates inv mirrors used exited
    exact ⟨inv', e, rfl, mirrors'⟩
  | wait p addr =>
    obtain ⟨⟨s₁, r⟩, waited, last⟩ := of_bind_ok run
    replace image : e.image p = some im := image
    have result := wait_simulates inv mirrors image waited
    cases found : s.zombieChild p with
    | none =>
      simp only [found] at last result
      obtain ⟨inv', mirrors'⟩ := result
      cases last
      refine ⟨inv', e, ?_, mirrors'⟩
      split <;> rfl
    | some q =>
      simp only [found] at last result
      rcases result with ⟨rfl, inv', n, le, mirrors'⟩ | ⟨done, inv', mirrors'⟩
      · simp only [if_true] at last
        cases last
        exact ⟨inv', _, ⟨n, le, rfl⟩, mirrors'.change image⟩
      · simp only [if_neg done] at last
        cases last
        refine ⟨inv', _, rfl, ?_⟩
        unfold Eager.change
        rw [image]
        exact mirrors'

end

/-! ## Boot -/

theorem boot_inv {kend trampoline : Nat} {mem : Mem} {k : Kmem}
    (init : kinit kend trampoline mem = .ok k) : (boot k).Inv :=
  ⟨Machine.boot_inv init, fun _ => rfl, by rintro _ _ ⟨⟩, by rintro _ _ _ ⟨⟩, fun _ _ => ⟨rfl, rfl⟩,
    fun _ used => absurd rfl used⟩

/-- A slot that `allocproc` hands out has cost four pages. -/
theorem allocproc_pages (run : s.allocproc = .ok (s', some p)) :
    s.machine.kmem.freelist.length = s'.machine.kmem.freelist.length + 4 := by
  unfold allocproc at run
  cases slot : s.unusedSlot with
  | none =>
    rw [slot] at run
    cases run
  | some q =>
    simp only [slot] at run
    cases alloc : s.machine.kalloc with
    | mk m₁ r₁ =>
    simp only [alloc] at run
    cases r₁ with
    | none =>
      obtain ⟨s₂, -, last⟩ := of_bind_ok run
      cases last
    | some pa =>
      obtain ⟨⟨m₂, done⟩, made, run⟩ := of_bind_ok run
      cases done with
      | false =>
        obtain ⟨s₃, -, last⟩ := of_bind_ok run
        cases last
      | true =>
        cases run
        have first : s.machine.kmem.freelist.length = m₁.kmem.freelist.length + 1 := by
          unfold Machine.kalloc at alloc
          split at alloc
          · cases alloc
          · rename_i taken
            cases alloc
            exact kalloc_length taken
        unfold Machine.procPagetable at made
        obtain ⟨⟨k₂, result⟩, created, last⟩ := of_bind_ok made
        cases result with
        | none => cases last
        | some pt =>
          cases last
          obtain ⟨k₃, pt₃, created', length, -⟩ :=
            procPagetable_count pa (procPagetable_room created)
          rw [created] at created'
          cases created'
          show _ = k₂.freelist.length + 4
          omega

theorem booted_simulates (booted : s.Booted) : s.Inv ∧ s.Mirrors (.booted s.initproc) := by
  obtain ⟨kend, trampoline, mem, k, init, room, run⟩ := booted
  have inv := boot_inv init
  unfold userinit at run
  obtain ⟨⟨s₁, slot⟩, alloc, run⟩ := of_bind_ok run
  have allocated := allocproc_spec inv alloc
  cases slot with
  | none => cases run
  | some p =>
    have pages := allocproc_pages alloc
    have made := allocated
    cases allocated with
    | @made _ pt pa slot touches space held fresh frame state others =>
    obtain ⟨m₂, first, last⟩ := of_bind_ok run
    cases last
    obtain ⟨works, shows⟩ := uvmfirst_shows touches.inv space
      (by have : (boot k).machine.kmem.freelist.length = k.freelist.length := rfl; omega) first
    have noSpace (q : Fin nproc) (ne : q ≠ p) : m₂.space (.proc q) = none := by
      rw [works.touches.others _ (by simp [ne]), touches.others _ (by simp [ne])]
      rfl
    refine ⟨made.inv inv works.touches.inv (fun q => ?_) (fun q => ?_) works.held
      (fun q => modify_proc_other _ _) (by rw [modify_proc_self])
      (by rw [modify_proc_self]; rintro ⟨⟩), fun q => ?_⟩
    · exact (works.touches.others _ (by simp)).trans (touches.others _ (by simp))
    · by_cases here : q = p
      · simp [here, modify, shows_isSome shows]
      · simp [here, modify, noSpace q here, boot, Machine.boot]
    · show m₂.ShowsOption (.proc q) ((Eager.booted p).image q)
      simp only [Eager.booted]
      by_cases here : q = p
      · rw [if_pos here, here]
        exact shows
      · rw [if_neg here]
        exact noSpace q here

/-! ## Runs -/

theorem run_simulates {ops : List (Op × Outcome)} (run : s.Run ops s') (inv : s.Inv)
    (mirrors : s.Mirrors e) : s'.Inv ∧ ∃ e', e.Run ops e' ∧ s'.Mirrors e' := by
  induction run with
  | refl => exact ⟨inv, e, .refl, mirrors⟩
  | step _ allowed performed ih =>
    obtain ⟨inv₁, e₁, run₁, mirrors₁⟩ := ih
    obtain ⟨inv₂, e₂, step, mirrors₂⟩ := perform_simulates inv₁ mirrors₁ allowed performed
    exact ⟨inv₂, e₂, run₁.step step, mirrors₂⟩

/-- The bytes of a process whose address space shows an image. -/
theorem byteAt_of_shows {p : Fin nproc} {im : Image} (shows : s.machine.Shows (.proc p) im)
    (a : Nat) :
    s.byteAt p a = im.byteAt a := by
  obtain ⟨pt, sz, space, shows⟩ := shows
  have size : sz = im.sz := shows.size
  unfold Kernel.byteAt
  simp only [space, Image.byteAt]
  by_cases inside : a < sz
  · have small : a < npages sz * pgsize := by
      simp only [npages, pgsize]
      omega
    rw [if_pos ⟨inside, shows.full _ (page_lt small)⟩, if_pos (by omega)]
    exact congrArg some (shows.bytes a small)
  · rw [if_neg (by omega), if_neg (by omega)]

/-- A kernel that mirrors the reference machine shows its bytes. -/
theorem Mirrors.byteAt (mirrors : s.Mirrors e) (p : Fin nproc) (a : Nat) :
    s.byteAt p a = e.byteAt p a := by
  have here := mirrors p
  unfold Eager.byteAt
  cases image : e.image p with
  | none =>
    rw [image] at here
    unfold Kernel.byteAt
    rw [show s.machine.space (.proc p) = none from here]
    rfl
  | some im =>
    rw [image] at here
    exact byteAt_of_shows here a

/-- A state that is evaluated, after a boot and a run, and passes a test. -/
theorem of_ran (pages : Nat) (ops : List Op) (test : Kernel → Bool) (pass : boots pages (fun s₀ =>
      yields (s₀.performAll ops) fun done => test done.2) = true) :
    ∃ s : Kernel, s.Inv ∧ test s := by
  obtain ⟨s₀, booted, ran⟩ := of_boots pass
  obtain ⟨⟨done, s⟩, performed, passed⟩ := of_yields ran
  obtain ⟨inv₀, mirrors₀⟩ := booted_simulates booted
  exact ⟨s, (run_simulates (run_of_performAll performed) inv₀ mirrors₀).1, passed⟩

/-- The bytes of a process after `src` was written at `va` in its memory. -/
theorem Eager.byteAt_write (e : Eager) (p q : Fin nproc) (va a : Nat) (src : List UInt8) :
    (e.change p (·.write va src)).byteAt q a = (e.byteAt q a).map fun b =>
        if q = p ∧ va ≤ a ∧ a < va + src.length then src.getD (a - va) 0 else b := by
  unfold Eager.byteAt Eager.change Eager.put
  by_cases here : q = p
  · subst here
    simp only [update_self, true_and]
    cases e.image q with
    | none => rfl
    | some im =>
      simp only [Option.map_some, Option.bind_some, Image.byteAt, Image.write, memput]
      split <;> rfl
  · simp only [update_of_ne here, here, false_and, if_false, Option.map_id']

end Kernel

open Kernel in
/-- Every run of the kernel is a run of the reference machine in which `fork` copies, and
every process sees the memory it has there.  In particular a store or a `copyout` that
completes changes the addressed bytes of its process and no other byte of any process. -/
theorem cow_isolation {s₀ s : Kernel} {ops : List (Op × Outcome)} (booted : s₀.Booted)
    (run : s₀.Run ops s) :
    (∃ e, (Eager.booted s₀.initproc).Run ops e ∧ ∀ p a, s.byteAt p a = e.byteAt p a) ∧
      ∀ p va src op, op = .store p va src ∨ op = .copyout p va src → s.Allows op →
        ∀ s', s.perform op = .ok (s', .done) → ∀ q a, s'.byteAt q a = (s.byteAt q a).map fun b =>
          if q = p ∧ va ≤ a ∧ a < va + src.length then src.getD (a - va) 0 else b := by
  obtain ⟨inv₀, mirrors₀⟩ := booted_simulates booted
  obtain ⟨inv, e, eager, mirrors⟩ := run_simulates run inv₀ mirrors₀
  refine ⟨⟨e, eager, mirrors.byteAt⟩, fun p va src op which allowed s' performed q a => ?_⟩
  obtain ⟨-, e', step, mirrors'⟩ := perform_simulates inv mirrors allowed performed
  have changed : e' = e.change p (·.write va src) := by
    rcases which with rfl | rfl
    · exact step
    · exact step
  rw [mirrors'.byteAt, mirrors.byteAt, changed, Eager.byteAt_write]

/-- A fork, and a store of the parent that faults, is retried and completes. -/
def forkStoreOps : List Op := [.fork 0, .store 0 100 [7], .store 0 100 [7]]

/-- The parent sees its store, and the child the byte from before the fork. -/
theorem cow_isolation_store : ∃ (s₀ s : Kernel) (ops : List (Op × Outcome)),
    s₀.Booted ∧ s₀.Run ops s ∧ s.byteAt 0 100 = some 7 ∧ s.byteAt 1 100 = some 0 ∧
      ∃ e, (Eager.booted s₀.initproc).Run ops e ∧ ∀ p a, s.byteAt p a = e.byteAt p a := by
  have pass : Kernel.boots 24 (fun s₀ =>
      yields (s₀.performAll forkStoreOps) fun done =>
        decide (done.2.byteAt 0 100 = some 7 ∧ done.2.byteAt 1 100 = some 0)) = true := by
    decide +kernel
  obtain ⟨s₀, booted, test⟩ := Kernel.of_boots pass
  obtain ⟨⟨ops, s⟩, performed, test⟩ := of_yields test
  obtain ⟨parent, child⟩ := of_decide_eq_true test
  have run := Kernel.run_of_performAll performed
  exact ⟨s₀, s, ops, booted, run, parent, child, (cow_isolation booted run).1⟩

end Xv6
