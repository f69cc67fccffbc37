import Xv6.Sched.OneCpu

/-!
# Dynamic priorities

The documented priority of a process is `min (SP + RBI) 100` for a static priority `SP`.
`scheduleProcess` writes that value back into `SP`, so that the next one starts from it:
the behaviour of earlier runs stays in the priority, and `setpriority` for a process that is
not running replaces the whole value.  The formula holds exactly as long as no such
leftover counts.
-/

namespace Xv6.Sched

open Function (update_apply)

/-- The static priority that was last assigned to a slot; the newest event comes first. -/
def staticPriority : List Event → Fin nproc → UInt32
  | [], _ => 0
  | .created q n :: es, p | .prioritized q n :: es, p => if q = p then n else staticPriority es p
  | _ :: es, p => staticPriority es p

/-- What `calculate_rbi` gave at the last switch-out of the process in a slot. -/
def recentRbi : List Event → Fin nproc → Option Int32
  | [], _ => none
  | .created q _ :: es, p => if q = p then none else recentRbi es p
  | .switchedOut q r :: es, p => if q = p then some r else recentRbi es p
  | _ :: es, p => recentRbi es p

/-- The documented priority. -/
def documented (static : UInt32) (rbi : Int32) : Int := min (static.toNat + rbi.toInt) 100

/-- Every comparison of a process that has run used the documented priority. -/
def DocumentedPriority (es : List Event) : Prop :=
  ∀ p n older r, .compared p n :: older <:+ es → recentRbi older p = some r →
    (n.toNat : Int) = documented (staticPriority older p) r

theorem DocumentedPriority.cons {e : Event} {es : List Event} (past : DocumentedPriority es)
    (other : ∀ p n, e ≠ .compared p n) : DocumentedPriority (e :: es) := by
  intro p n older r suffix here
  rcases List.suffix_cons_iff.1 suffix with eq | suffix
  · cases eq
    exact absurd rfl (other p n)
  · exact past p n older r suffix here

theorem toInt_toInt32 {x : UInt32} (small : x.toNat < 2 ^ 31) : x.toInt32.toInt = x.toNat := by
  change x.toBitVec.toInt = x.toBitVec.toNat
  rw [BitVec.toInt_eq_toNat_cond]
  have : x.toBitVec.toNat < 2 ^ 31 := small
  split <;> omega

theorem toNat_toUInt32 {x : Int32} (nonneg : 0 ≤ x.toInt) : (x.toUInt32.toNat : Int) = x.toInt := by
  change (x.toBitVec.toNat : Int) = x.toBitVec.toInt
  replace nonneg : 0 ≤ x.toBitVec.toInt := nonneg
  rw [BitVec.toInt_eq_toNat_cond] at nonneg ⊢
  have := x.toBitVec.isLt
  split_ifs at nonneg ⊢ <;> omega

namespace Proc

theorem calculateRbi_nonneg (p : Proc) : 0 ≤ p.calculateRbi.toInt := by
  unfold calculateRbi
  simp only
  split_ifs with pos
  · exact (Int32.lt_iff_toInt_lt.1 pos).le
  · exact le_rfl

/-- `clampDP` changes nothing between 0 and 100. -/
theorem clampDP_self {x : Int32} (nonneg : 0 ≤ x.toInt) (small : x.toInt ≤ 100) :
    clampDP x = x := by
  have hundred : (100 : Int32).toInt = 100 := rfl
  have zero : (0 : Int32).toInt = 0 := rfl
  unfold clampDP
  rw [if_neg, if_neg]
  · rw [Int32.lt_iff_toInt_lt]
    omega
  · rw [gt_iff_lt, Int32.lt_iff_toInt_lt]
    omega

/-- The priority after a switch-out, when the sum is no overflow. -/
theorem switchedOut_SP (p : Proc) (startTime ticks : UInt32) (small : p.SP.toNat ≤ 100)
    (bound : (p.ran startTime ticks).calculateRbi.toInt + 100 < 2 ^ 31) :
    ((p.switchedOut startTime ticks).SP.toNat : Int) =
      documented p.SP (p.ran startTime ticks).calculateRbi := by
  unfold switchedOut updateDp documented
  simp only
  generalize rbi : (p.ran startTime ticks).calculateRbi = r
  have nonneg : 0 ≤ r.toInt := rbi ▸ calculateRbi_nonneg _
  rw [rbi] at bound
  have word := toNat_toUInt32 nonneg
  have temp : ((p.ran startTime ticks).SP + r.toUInt32).toInt32.toInt = p.SP.toNat + r.toInt := by
    have sum : ((p.ran startTime ticks).SP + r.toUInt32).toNat = p.SP.toNat + r.toUInt32.toNat := by
      simp only [ran]
      rw [UInt32.toNat_add, Nat.mod_eq_of_lt (by omega)]
    rw [toInt_toInt32 (by omega), sum]
    omega
  generalize ((p.ran startTime ticks).SP + r.toUInt32).toInt32 = t at temp
  have hundred : (100 : Int32).toInt = 100 := rfl
  have same (x : Int32) : x.toUInt32.toInt32 = x := rfl
  rw [same]
  split_ifs with less
  · rw [Int32.lt_iff_toInt_lt] at less
    rw [clampDP_self (by omega) (by omega), toNat_toUInt32 (by omega)]
    omega
  · rw [Int32.lt_iff_toInt_lt] at less
    rw [clampDP_self (by decide) (by decide), toNat_toUInt32 (by decide)]
    omega

end Proc

namespace State

variable {C : Type} {policy : Policy} {hart0 : C} {s s' : State C} {l : Label C} {c : C}
  {p q : Fin nproc} {f : Proc → Proc} {pc : Pc} {ok : Bool}

/-- The value of `calculate_rbi` when the scheduler gets a process back. -/
def nextRbi (s : State C) (p : Fin nproc) (startTime : UInt32) : Int32 :=
  ((s.proc p).ran startTime s.ticks).calculateRbi

/-- No leftover of an earlier run counts at a switch-out: the priority of the process is its
static one, or the new value is at its limit anyway. -/
def OutMemoryless (s : State C) : CpuPc → Prop
  | .returned p startTime =>
    (s.nextRbi p startTime).toInt + 100 < 2 ^ 31 ∧
      ((s.proc p).SP = staticPriority s.events p ∨
        100 ≤ (staticPriority s.events p).toNat + (s.nextRbi p startTime).toInt)
  | _ => True

/-- A new static priority does not drop a recent behaviour that counts: the process has not
run, or is running, or its recent behaviour adds nothing. -/
def AssignMemoryless (s : State C) : Pc → Prop
  | .prioritize n q =>
    (s.proc q).state ≠ .running → ∀ r ∈ recentRbi s.events q, r = 0 ∨ n = 100
  | _ => True

/-- The conditions on a step. -/
def Memoryless (s : State C) : Label C → Prop
  | .scheduler c => s.OutMemoryless (s.cpu c).pc
  | .proc c _ => ∀ p ∈ (s.current c).map Prod.fst, s.AssignMemoryless (s.thread p).pc
  | _ => True

instance (s : State C) : (pc : CpuPc) → Decidable (s.OutMemoryless pc)
  | .returned p startTime =>
    inferInstanceAs (Decidable ((s.nextRbi p startTime).toInt + 100 < 2 ^ 31 ∧
      ((s.proc p).SP = staticPriority s.events p ∨
        100 ≤ (staticPriority s.events p).toNat + (s.nextRbi p startTime).toInt)))
  | .scan _ | .select _ _ _ | .selected _ | .running _ _ => isTrue trivial

instance (s : State C) : (pc : Pc) → Decidable (s.AssignMemoryless pc)
  | .prioritize n q => inferInstanceAs (Decidable ((s.proc q).state ≠ .running →
      ∀ r ∈ recentRbi s.events q, r = 0 ∨ n = 100))
  | .user | .alloc _ | .adopt _ _ | .start _ _ | .exit _ | .reparent _ _ | .wakeInit _ _ _
  | .wakeParent _ _ | .zombie _ | .wait _ | .scan _ _ _ | .scanned _ _ | .sleep _ | .wakeup _ _
  | .kill _ _ | .setpriority _ _ _ | .yield => isTrue trivial

instance (s : State C) : (l : Label C) → Decidable (s.Memoryless l)
  | .scheduler c => inferInstanceAs (Decidable (s.OutMemoryless (s.cpu c).pc))
  | .proc c _ => inferInstanceAs (Decidable (∀ p ∈ (s.current c).map Prod.fst,
      s.AssignMemoryless (s.thread p).pc))
  | .interrupt _ _ | .handler _ | .call _ _ | .preempt _ => isTrue trivial

structure PrioInv (s : State C) : Prop where
  pcs : ∀ p n, (s.thread p).pc.priority = some n → n.toNat ≤ 100
  /-- The priority is between the static one and 100. -/
  bounds : ∀ q, (s.proc q).state ≠ .unused →
    (staticPriority s.events q).toNat ≤ (s.proc q).SP.toNat ∧ (s.proc q).SP.toNat ≤ 100
  /-- A process that has run and is not on a CPU has the documented priority. -/
  out : ∀ q, (s.proc q).state ≠ .unused → (∀ c, (s.cpu c).pc.occupant ≠ some q) →
    ∀ r, recentRbi s.events q = some r →
      ((s.proc q).SP.toNat : Int) = documented (staticPriority s.events q) r
  nonneg : ∀ q r, recentRbi s.events q = some r → 0 ≤ r.toInt
  past : DocumentedPriority s.events

namespace PrioInv

/-- A step that changes no priority and takes no process off its CPU. -/
theorem quiet (prio : s.PrioInv) (pcs : ∀ p n, (s'.thread p).pc.priority = some n → n.toNat ≤ 100)
    (slots : ∀ q, (s'.proc q).state = .unused ∨
      (s.proc q).state ≠ .unused ∧ (s'.proc q).SP = (s.proc q).SP)
    (occupied : ∀ c q, (s.cpu c).pc.occupant = some q → ∃ c', (s'.cpu c').pc.occupant = some q)
    (events : s'.events = s.events) : s'.PrioInv := by
  refine ⟨pcs, fun q used => ?_, fun q used out r recent => ?_, events ▸ prio.nonneg,
    events ▸ prio.past⟩
  · obtain unused | ⟨before, same⟩ := slots q
    · exact absurd unused used
    · rw [same, events]
      exact prio.bounds q before
  · obtain unused | ⟨before, same⟩ := slots q
    · exact absurd unused used
    · rw [events] at recent
      rw [same, events]
      refine prio.out q before (fun c here => ?_) r recent
      obtain ⟨c', there⟩ := occupied c q here
      exact out c' there

theorem modify (prio : s.PrioInv) (slot : (f (s.proc q)).state = .unused ∨
      (s.proc q).state ≠ .unused ∧ (f (s.proc q)).SP = (s.proc q).SP) : (s.modify q f).PrioInv := by
  refine prio.quiet prio.pcs (fun r => ?_) (fun c r here => ⟨c, here⟩) rfl
  simp only [State.modify]
  by_cases same : r = q
  · subst same
    rwa [Function.update_self]
  · rw [Function.update_of_ne same]
    by_cases unused : (s.proc r).state = .unused
    · exact .inl unused
    · exact .inr ⟨unused, rfl⟩

theorem small_of_none (none : pc.priority = none) (n : UInt32) (eq : pc.priority = some n) :
    n.toNat ≤ 100 := by
  rw [none] at eq
  cases eq

section

variable (prio : s.PrioInv)
include prio

theorem goto (small : ∀ n, pc.priority = some n → n.toNat ≤ 100) : (s.goto p pc).PrioInv := by
  refine prio.quiet (fun r n here => ?_) (fun r => ?_) (fun c r here => ⟨c, here⟩) rfl
  · simp only [State.goto, setThread, update_apply] at here
    split_ifs at here
    · exact small n here
    · exact prio.pcs r n here
  · by_cases unused : (s.proc r).state = .unused
    · exact .inl unused
    · exact .inr ⟨unused, rfl⟩

/-- A change of a slot that is not about priorities and takes no free slot. -/
theorem edit (same : (f (s.proc q)).SP = (s.proc q).SP)
    (free : (s.proc q).state = .unused → (f (s.proc q)).state = .unused) :
    (s.modify q f).PrioInv := by
  refine prio.modify ?_
  by_cases unused : (s.proc q).state = .unused
  · exact .inl (free unused)
  · exact .inr ⟨unused, same⟩

theorem setWaitLock (holder : Option (Fin nproc)) :
    (s.setWaitLock holder).PrioInv := ⟨prio.pcs, prio.bounds, prio.out, prio.nonneg, prio.past⟩

/-- An event that is not about priorities. -/
theorem record {e : Event}
    (static : ∀ q, staticPriority (e :: s.events) q = staticPriority s.events q)
    (recent : ∀ q, recentRbi (e :: s.events) q = recentRbi s.events q)
    (other : ∀ p n, e ≠ .compared p n) : (s.record e).PrioInv := by
  refine ⟨prio.pcs, fun q used => ?_, fun q used out r here => ?_, fun q r here => ?_,
    prio.past.cons other⟩
  · rw [State.record, static]
    exact prio.bounds q used
  · rw [State.record, recent] at here
    rw [State.record, static]
    exact prio.out q used out r here
  · rw [State.record, recent] at here
    exact prio.nonneg q r here

theorem wakeSlot {me : Option (Fin nproc)} {chan : Option Chan}
    (wake : s.wakeSlot me chan q = some s') : s'.PrioInv := by
  obtain ⟨-, rfl⟩ | ⟨-, -, rfl⟩ := wakeSlot_cases wake
  · exact prio
  · refine prio.edit ?_ fun unused => ?_
    · unfold Proc.woken
      split_ifs <;> rfl
    · unfold Proc.woken
      rw [if_neg (by rw [unused]; simp)]
      exact unused

/-- The scheduler compares a process with the documented priority. -/
theorem compared (used : (s.proc p).state ≠ .unused) (out : ∀ c, (s.cpu c).pc.occupant ≠ some p) :
    (s.record (.compared p (s.proc p).SP)).PrioInv := by
  refine ⟨prio.pcs, prio.bounds, prio.out, prio.nonneg, fun q n older r suffix here => ?_⟩
  rcases List.suffix_cons_iff.1 suffix with eq | suffix
  · cases eq
    exact prio.out p used out r here
  · exact prio.past q n older r suffix here

theorem waitSlot {w : Wait} : (s.waitSlot p q w ok).PrioInv := by
  have free := ((prio.record (e := .reaped p (s.proc q).pid (s.proc q).xstate) (fun _ => rfl)
    (fun _ => rfl) (by rintro _ _ ⟨⟩)).modify (q := q) (f := Proc.freed)
      (.inl rfl)).setWaitLock none
  unfold State.waitSlot
  split_ifs
  · exact (prio.setWaitLock _).goto (small_of_none rfl)
  · exact (free.goto (small_of_none rfl)).record (fun _ => rfl) (fun _ => rfl) (by rintro _ _ ⟨⟩)
  · exact free.goto (small_of_none rfl)
  · exact prio.goto (small_of_none rfl)

/-- A process begins to use the slot that `allocproc` found. -/
theorem alloc (unused : (s.proc q).state = .unused) : (s.allocSlot p q ok).PrioInv := by
  unfold allocSlot
  split_ifs
  · refine ⟨fun r n here => ?_, fun r used => ?_, fun r used out rbi here => ?_,
      fun r rbi here => ?_, prio.past.cons (by rintro _ _ ⟨⟩)⟩
    · simp only [State.record, State.goto, setThread, State.modify, update_apply] at here
      split_ifs at here
      all_goals first | cases here | exact prio.pcs r n here
    all_goals simp only [State.record, State.goto, setThread, State.modify] at *
    · rw [update_apply] at used ⊢
      split_ifs at used ⊢ with same
      · subst same
        simp only [staticPriority, if_true, Proc.started]
        decide
      · simp only [staticPriority, Ne.symm same, if_false]
        exact prio.bounds r used
    · rw [update_apply] at used ⊢
      split_ifs at used ⊢ with same
      · subst same
        simp only [recentRbi, if_true] at here
        cases here
      · simp only [recentRbi, staticPriority, Ne.symm same, if_false] at here ⊢
        exact prio.out r used out rbi here
    · simp only [recentRbi] at here
      split_ifs at here
      exact prio.nonneg r rbi here
  · exact (PrioInv.modify (s := { s with nextpid := s.nextpid + 1 })
      ⟨prio.pcs, prio.bounds, prio.out, prio.nonneg, prio.past⟩ (.inl rfl)).goto (small_of_none rfl)

/-- A new static priority. -/
theorem prioritize {n : UInt32} (inv : s.Inv) (pcs : (s.thread p).pc = .prioritize n q)
    (memoryless : s.AssignMemoryless (s.thread p).pc) (done : pc.priority = none) :
    (((s.modify q fun r => r.prioritized n).goto p pc).record (.prioritized q n)).PrioInv := by
  have small := prio.pcs p n (by rw [pcs]; rfl)
  rw [pcs] at memoryless
  refine ⟨fun r m here => ?_, fun r used => ?_, fun r used out rbi here => ?_, prio.nonneg,
    prio.past.cons (by rintro _ _ ⟨⟩)⟩
  · simp only [State.record, State.goto, setThread, State.modify, update_apply] at here
    split_ifs at here
    · exact small_of_none done m here
    · exact prio.pcs r m here
  all_goals simp only [State.record, State.goto, setThread, State.modify] at *
  · rw [update_apply] at used ⊢
    split_ifs at used ⊢ with same
    · subst same
      obtain ⟨_, _, eq⟩ := Proc.prioritized_frame (s.proc r) n
      simp only [eq, staticPriority, if_true]
      exact ⟨le_rfl, small⟩
    · simp only [staticPriority, Ne.symm same, if_false]
      exact prio.bounds r used
  · rw [update_apply] at used ⊢
    split_ifs at used ⊢ with same
    · subst same
      obtain ⟨_, _, eq⟩ := Proc.prioritized_frame (s.proc r) n
      simp only [eq, staticPriority, if_true]
      -- it is not on a CPU, so it is not running
      have stopped : (s.proc r).state ≠ .running := by
        intro running
        obtain ⟨c, runs⟩ := inv.placed r running
        exact out c (CpuPc.occupant_of_runs runs)
      have rbiNonneg := prio.nonneg r rbi here
      have hundred : (100 : UInt32).toNat = 100 := rfl
      have zero : (0 : Int32).toInt = 0 := rfl
      unfold documented
      rcases memoryless stopped rbi here with rfl | rfl
      · omega
      · omega
    · simp only [recentRbi, staticPriority, Ne.symm same, if_false] at here ⊢
      exact prio.out r used out rbi here

end

section

variable [DecidableEq C] {st : UInt32}

section

variable (prio : s.PrioInv)
include prio

/-- The scheduler or a handler moves on, and no process leaves its CPU. -/
theorem setCpu {cpu : Cpu} (same : ∀ q, (s.cpu c).pc.occupant = some q → cpu.pc.occupant = some q) :
    (s.setCpu c cpu).PrioInv := by
  refine prio.quiet prio.pcs (fun r => ?_) (fun c' r here => ⟨c', ?_⟩) rfl
  · by_cases unused : (s.proc r).state = .unused
    · exact .inl unused
    · exact .inr ⟨unused, rfl⟩
  · simp only [State.setCpu, update_apply]
    split_ifs with at_
    · subst at_
      exact same r here
    · exact here

omit [DecidableEq C] in
theorem release : (s.release p).PrioInv := by
  refine ⟨fun r n here => prio.pcs r n ?_, prio.bounds, prio.out, prio.nonneg, prio.past⟩
  simp only [State.release, setThread, setLock, update_apply] at here
  split_ifs at here with same
  · subst same
    exact here
  · exact here

theorem switchFrom {how : Switch} (same : (f (s.proc p)).SP = (s.proc p).SP)
    (runs : (s.cpu c).pc = .running p st) (used : (s.proc p).state ≠ .unused)
    (small : ∀ n, pc.priority = some n → n.toNat ≤ 100) :
    ((s.modify p f).switchFrom c p st how pc).PrioInv := by
  have edited := prio.edit (q := p) (f := f) same fun unused => absurd unused used
  have moved : ((s.modify p f).setCpu c { s.cpu c with pc := .returned p st }).PrioInv :=
    edited.setCpu (fun q here => by
      have here' : (s.cpu c).pc.occupant = some q := here
      rw [runs] at here'
      exact here')
  refine moved.quiet (fun r n here => ?_) (fun r => ?_) (fun c' r here => ⟨c', here⟩) rfl
  · simp only [State.switchFrom, setThread, update_apply] at here
    split_ifs at here
    · exact small n here
    · exact prio.pcs r n here
  · by_cases unused : ((s.modify p f).proc r).state = .unused
    · exact .inl unused
    · exact .inr ⟨unused, rfl⟩

omit [DecidableEq C] in
/-- The priority that the scheduler computes at a switch-out. -/
theorem next_priority (used : (s.proc p).state ≠ .unused)
    (memoryless : s.OutMemoryless (.returned p st)) :
    (((s.proc p).switchedOut st s.ticks).SP.toNat : Int) =
        documented (staticPriority s.events p) (s.nextRbi p st) ∧
      (staticPriority s.events p).toNat ≤ ((s.proc p).switchedOut st s.ticks).SP.toNat ∧
      ((s.proc p).switchedOut st s.ticks).SP.toNat ≤ 100 := by
  obtain ⟨bound, enough⟩ := memoryless
  obtain ⟨least, most⟩ := prio.bounds p used
  have rbiNonneg : 0 ≤ (s.nextRbi p st).toInt := Proc.calculateRbi_nonneg _
  have next : (((s.proc p).switchedOut st s.ticks).SP.toNat : Int) =
      documented (s.proc p).SP (s.nextRbi p st) := Proc.switchedOut_SP _ _ _ most bound
  unfold documented at next ⊢
  rcases enough with eq | more
  · rw [eq] at next least most
    omega
  · omega

/-- The scheduler computes the new priority and lets go of the process. -/
theorem switchedOut (before : (s.cpu c).pc = .returned p st)
    (memoryless : s.OutMemoryless (s.cpu c).pc) :
    (((s.modify p fun q => q.switchedOut st s.ticks).leave c p CpuPc.restart).record
      (.switchedOut p (s.nextRbi p st))).PrioInv := by
  rw [before] at memoryless
  have same : ((s.proc p).switchedOut st s.ticks).state = (s.proc p).state := by
    obtain ⟨_, _, _, _, eq⟩ := Proc.switchedOut_frame (s.proc p) st s.ticks
    rw [eq]
  refine ⟨prio.pcs, fun r used => ?_, fun r used out rbi here => ?_, fun r rbi here => ?_,
    prio.past.cons (by rintro _ _ ⟨⟩)⟩
  all_goals simp only [State.record, State.leave, State.modify, State.setCpu, setLock] at *
  · rw [update_apply] at used ⊢
    simp only [staticPriority]
    split_ifs at used ⊢ with at_
    · subst at_
      rw [same] at used
      exact (prio.next_priority used memoryless).2
    · exact prio.bounds r used
  · rw [update_apply] at used ⊢
    simp only [staticPriority, recentRbi] at here ⊢
    split_ifs at used here ⊢ with at_ at' at'
    · subst at_
      cases here
      rw [same] at used
      exact (prio.next_priority used memoryless).1
    · exact absurd at_.symm at'
    · exact absurd at'.symm at_
    · refine prio.out r used (fun c' occupied => ?_) rbi here
      have free := out c'
      rw [update_apply] at free
      split_ifs at free with here'
      · subst here'
        rw [before] at occupied
        cases occupied
        exact at_ rfl
      · exact free occupied
  · simp only [recentRbi] at here
    split_ifs at here
    · cases here
      exact Proc.calculateRbi_nonneg _
    · exact prio.nonneg r rbi here

end

end

end PrioInv

variable [DecidableEq C] {st : UInt32}

theorem ThreadStep.prio (run : s.ThreadStep c p st s') (runs : (s.cpu c).pc = .running p st)
    (inv : s.Inv) (prio : s.PrioInv) (memoryless : s.AssignMemoryless (s.thread p).pc) :
    s'.PrioInv := by
  have none {pc : Pc} (plain : pc.priority = Option.none) := PrioInv.small_of_none plain
  have used : (s.proc p).state ≠ .unused := by
    rw [inv.running c p (by rw [runs]; rfl)]
    decide
  cases run with
  | @move pc before after priority stays =>
    refine prio.goto fun n here => ?_
    rcases priority with eq | eq
    · exact none eq n here
    · exact prio.pcs p n (eq ▸ here)
  | alloc pc lock unused => exact prio.alloc unused
  | adopt | reparent => exact (prio.edit rfl id).goto (none rfl)
  | @start np pid pc lock =>
    refine ((prio.edit rfl fun unused => ?_).goto (none rfl)).record (fun _ => rfl) (fun _ => rfl)
      (by rintro _ _ ⟨⟩)
    rw [inv.child p np (by rw [pc]; rfl)] at unused
    cases unused
  | exit | wait | failed => exact (prio.setWaitLock _).goto (none rfl)
  | reparentNext | reparentEnd | wakeInitEnd | wakeParentEnd | scanNext | scanEnd | scanned =>
    exact prio.goto (none rfl)
  | wakeInit _ wake | wakeParent _ wake | wakeup _ wake =>
    exact (prio.wakeSlot wake).goto (none rfl)
  | @zombie status pc lock =>
    exact ((prio.switchFrom (f := fun q => q.exited status s.ticks) rfl runs used
      (none rfl)).setWaitLock _).record (fun _ => rfl) (fun _ => rfl) (by rintro _ _ ⟨⟩)
  | scan pc child lock => exact prio.waitSlot
  | sleep pc lock =>
    exact (prio.switchFrom (f := fun q => q.asleep (.proc p)) rfl runs used
      (none rfl)).setWaitLock _
  | @kill q pc lock =>
    refine (prio.edit rfl fun unused => ?_).goto (none rfl)
    simp only [Proc.marked]
    rw [if_neg (by rw [unused]; decide)]
    exact unused
  | prioritize before after lock =>
    exact prio.prioritize inv before memoryless (by rcases after with rfl | rfl <;> rfl)
  | yield pc lock => exact prio.switchFrom rfl runs used (none rfl)

theorem Effect.prio (effect : Effect .pbs hart0 s l s') (inv : s.Inv) (prio : s.PrioInv)
    (memoryless : s.Memoryless l) : s'.PrioInv := by
  have idle {c : C} {cpu : Cpu} (before : (s.cpu c).pc.occupant = none) (q : Fin nproc)
      (here : (s.cpu c).pc.occupant = some q) : cpu.pc.occupant = some q := by
    rw [before] at here
    cases here
  have used {c : C} {p : Fin nproc} {st : UInt32} (cur : s.current c = some (p, st)) :
      (s.proc p).state ≠ .unused := by
    rw [current_running inv cur]
    decide
  cases effect with
  | idle off before after proc handler => exact prio.setCpu (idle before)
  | @compared c cpu p off before after proc handler lock runnable =>
    have moved : (s.setCpu c cpu).PrioInv := prio.setCpu (idle before)
    have stopped : (s.proc p).state ≠ .running := by
      rw [runnable]
      decide
    refine moved.compared (by rw [setCpu, runnable]; decide) fun c' => ?_
    simp only [setCpu, update_apply]
    split_ifs
    · rw [after]
      rintro ⟨⟩
    · exact not_occupied inv lock stopped c'
  | @dispatch c p f off before lock runnable how =>
    have same : (f (s.proc p)).SP = (s.proc p).SP := by rcases how with rfl | rfl <;> rfl
    have edited := prio.edit (q := p) (f := f) same fun unused => by
      rw [runnable] at unused
      cases unused
    have moved : ((s.modify p f).setCpu c
        { s.cpu c with proc := some p, pc := .running p s.ticks }).PrioInv :=
      edited.setCpu (idle before)
    exact ⟨moved.pcs, moved.bounds, moved.out, moved.nonneg, moved.past⟩
  | leave off rr before => cases rr
  | @switchedOut c p st off pbs before => exact prio.switchedOut before memoryless
  | @tick c on here =>
    have moved : (s.setCpu c { s.cpu c with handler := some (.updateTime 0) }).PrioInv :=
      prio.setCpu fun _ same => same
    exact ⟨moved.pcs, moved.bounds, moved.out, moved.nonneg, moved.past⟩
  | timer => exact prio
  | @updateTime c q at_ lock =>
    have same : (s.proc q).updateStats.SP = (s.proc q).SP := by
      unfold Proc.updateStats
      split <;> rfl
    exact (prio.edit same fun unused => (Proc.updateStats_state _).trans unused).setCpu
      fun _ same => same
  | handlerWake at_ wake =>
    refine (prio.wakeSlot wake).setCpu fun q here => ?_
    rwa [wakeSlot_cpu wake] at here
  | device | updated | handled => exact prio.setCpu fun _ same => same
  | call cur active user plain exit priority => exact prio.goto priority
  | @sleep c chan p st cur active user lock =>
    exact prio.switchFrom rfl (current_some cur).2 (used cur) (PrioInv.small_of_none rfl)
  | trap cur active user lock => exact prio.edit rfl id
  | resume => exact prio.release
  | awake => exact (prio.edit rfl id).release
  | @thread c ok p st t cur active run =>
    exact run.prio (current_some cur).2 inv prio (memoryless p (by rw [cur]; rfl))
  | @preempt c p st cur active unheld lock =>
    exact prio.switchFrom rfl (current_some cur).2 (used cur) fun n here => prio.pcs p n here

omit [DecidableEq C] in
theorem PrioInv.boot : (boot C policy).PrioInv := by
  have fresh (q : Fin nproc) : recentRbi (Sched.boot C policy).events q = none := by
    simp only [Sched.boot, recentRbi, ite_self]
  refine ⟨by rintro _ _ ⟨⟩, fun q used => ?_, fun q _ _ r here => ?_, fun q r here => ?_,
    fun q n older r suffix => ?_⟩
  · simp only [Sched.boot, update_apply, staticPriority] at used ⊢
    by_cases first : q = initproc
    · subst first
      simp only [if_true]
      decide
    · rw [if_neg first] at used
      exact absurd rfl used
  · rw [fresh] at here
    cases here
  · rw [fresh] at here
    cases here
  · rcases List.suffix_cons_iff.1 suffix with eq | suffix
    · cases eq
    · exact absurd (List.suffix_nil.1 suffix) (by simp)

end State

open State Transitions List

/-- In every run of the PBS kernel whose steps are memoryless, the scheduler compares every
process that has run with the documented priority. -/
theorem documented_priority {C : Type} [DecidableEq C] {hart0 : C} {ls : List (Label C)}
    {s : State C} (memoryless : Meets (step .pbs hart0) Memoryless (boot C .pbs) ls)
    (run : exec (step .pbs hart0) (boot C .pbs) ls = some s) : DocumentedPriority s.events := by
  have kept := run_meets_invariant (fun s => s.Inv ∧ s.PrioInv) (fun s l s' inv memoryless taken =>
      ⟨(step_effect taken).inv inv.1, (step_effect taken).prio inv.1 inv.2 memoryless⟩)
    ⟨.boot .pbs, .boot⟩ memoryless run
  exact kept.2.past

/-- CPU `c` dispatches the first process, which runs for a tick and is preempted; the scheduler
starts to select again. -/
def tickRun {C : Type} (hart0 c : C) : List (Label C) :=
  flatten [replicate 66 (.scheduler c),
    [.proc c true, .interrupt hart0 .timer, .preempt c, .scheduler c, .scheduler c]]

/-- After its first run the first process is compared with the documented priority. -/
theorem documented_priority_tick : ∃ (s : State (Fin 2)) (older : List Event),
    exec (step .pbs 0) (boot (Fin 2) .pbs) (tickRun 0 1) = some s ∧
    s.events = .compared initproc 100 :: older ∧ recentRbi older initproc = some 50 ∧
    DocumentedPriority s.events := by
  obtain ⟨s, run, head, recent⟩ : ∃ s, exec (step .pbs (0 : Fin 2)) (boot (Fin 2) .pbs)
      (tickRun 0 1) = some s ∧ s.events.head? = some (.compared initproc 100) ∧
        recentRbi s.events.tail initproc = some 50 :=
    exists_exec _ (by decide +kernel) fun _ _ => id
  exact ⟨s, s.events.tail, run, eq_cons_of_mem_head? head, recent,
    documented_priority (by decide +kernel) run⟩

/-- It runs once more, for no tick. -/
def secondRun {C : Type} (hart0 c : C) : List (Label C) :=
  flatten [tickRun hart0 c, replicate 65 (.scheduler c),
    [.proc c true, .preempt c, .scheduler c, .scheduler c]]

/-- After its second run the first process is compared with priority 100, although its
static priority is 50 and its recent behaviour index is 0: that of its first run is still
in its priority. -/
theorem priority_keeps_first_run : ∃ (s : State (Fin 2)) (older : List Event),
    exec (step .pbs 0) (boot (Fin 2) .pbs) (secondRun 0 1) = some s ∧
    s.events = .compared initproc 100 :: older ∧ staticPriority older initproc = 50 ∧
    recentRbi older initproc = some 0 ∧ ¬ DocumentedPriority s.events := by
  obtain ⟨s, run, head, static, recent⟩ : ∃ s, exec (step .pbs (0 : Fin 2)) (boot (Fin 2) .pbs)
      (secondRun 0 1) = some s ∧ s.events.head? = some (.compared initproc 100) ∧
        staticPriority s.events.tail initproc = 50 ∧ recentRbi s.events.tail initproc = some 0 :=
    exists_exec _ (by decide +kernel) fun _ _ => id
  have events := eq_cons_of_mem_head? head
  refine ⟨s, s.events.tail, run, events, static, recent, fun all => ?_⟩
  have wrong := all initproc 100 s.events.tail 0 (by rw [← events]) recent
  rw [static] at wrong
  exact absurd wrong (by decide)

end Xv6.Sched
