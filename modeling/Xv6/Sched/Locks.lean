import Xv6.Lib.LockOrder
import Xv6.Sched.OneCpu

/-!
# The order of the process locks

A second look at the same system, in which the sections under `p->lock` are no longer
single steps: a CPU enters a section, acquires its locks one after the other, runs the body
and releases the locks again, and the other CPUs go on in between.  From `acquire` on the
interrupts of the CPU are off.

Only `selectHigherPriorityProcess` acquires a process lock while its CPU has another: the
scan of the scheduler is at a slot and the process that was selected before is in a lower
one.  So all nested locks are taken in descending order and no circle can close.
-/

namespace Xv6.Sched

open State Option List Label Transitions

variable {C : Type}

/-- The CPU that moves. -/
def Label.cpu : Label C → C
  | .scheduler c | .interrupt c _ | .handler c | .call c _ | .proc c _ | .preempt c => c

namespace State

/-- The lock that `selectHigherPriorityProcess` takes when the scan is at a slot. -/
def contender (s : State C) (p : Fin nproc) (lowest : UInt32) (selected : Option (Fin nproc)) :
    List (Fin nproc) :=
  if (s.proc p).state = .runnable ∧ (s.proc p).SP = lowest then
    match selected with
    | some q => if q = p then [] else [q]
    | none => []
  else []

/-- The locks that a section of the scheduler acquires, in this order; none is listed when
the CPU is not at such a section. -/
def schedulerLocks (s : State C) : CpuPc → Option (List (Fin nproc))
  | .scan i => some (slot i).toList
  | .select i lowest selected =>
    match slot i with
    | some p => some (p :: s.contender p lowest selected)
    | none => some []
  | .selected p => some [p]
  | .running _ _ => none
  | .returned _ _ => some []

/-- The lock that `wakeup` takes at a slot: not that of the caller. -/
def wakeupLocks (me : Option (Fin nproc)) (i : Nat) : List (Fin nproc) :=
  (slot i).toList.filter fun q => me ≠ some q

def handlerLocks (me : Option (Fin nproc)) : Handler → List (Fin nproc)
  | .updateTime i => (slot i).toList
  | .wakeup _ i => wakeupLocks me i

def callLocks (p : Fin nproc) : Call → List (Fin nproc)
  | .sleep _ | .trap => [p]
  | _ => []

/-- The lock that the thread of `p` takes next; `wait` looks at the flag of its own process
with `killed`, which takes its lock, `waitx` without. -/
def threadLocks (s : State C) (p : Fin nproc) : Pc → Option (List (Fin nproc))
  | .user => none
  | .alloc i | .kill _ i => some (slot i).toList
  | .start np _ => some [np]
  | .prioritize _ q => some [q]
  | .wakeInit _ _ j | .wakeParent _ j | .wakeup _ j => some (wakeupLocks (some p) j)
  | .scan _ i _ => some ((slot i).toList.filter fun q => (s.proc q).parent = some p)
  | .scanned w havekids => some (if havekids ∧ !w.x then [p] else [])
  | .zombie _ | .sleep _ | .yield => some [p]
  | .adopt .. | .exit _ | .reparent .. | .wait _ | .setpriority .. => some []

/-- The locks that a section acquires. -/
def locks (s : State C) : Label C → Option (List (Fin nproc))
  | .scheduler c => if (s.cpu c).handler.isNone then s.schedulerLocks (s.cpu c).pc else none
  | .interrupt c _ => if s.interruptible c then some [] else none
  | .handler c => (s.cpu c).handler.map (handlerLocks (s.cpu c).proc)
  | .call c op =>
    (s.current c).bind fun (p, _) =>
      if (s.thread p).switch.isNone ∧ (s.thread p).pc = .user then some (callLocks p op) else none
  | .proc c _ =>
    (s.current c).bind fun (p, _) =>
      if (s.thread p).switch.isSome then some [] else s.threadLocks p (s.thread p).pc
  | .preempt c =>
    (s.current c).bind fun (p, _) =>
      if (s.thread p).switch.isNone ∧ !(s.thread p).pc.holdsWaitLock then some [p] else none

end State

/-- A section that a CPU is in: the locks that it has acquired and not yet released, the
first one first, and whether its body has run. -/
structure Critical (C : Type) where
  label : Label C
  held : List (Fin nproc)
  done : Bool

/-- The system with its process locks.  The locks of `base` are those that are handed over
by a switch. -/
structure Locked (C : Type) where
  base : State C
  lock : Fin nproc → Option C
  sect : C → Option (Critical C)

inductive Move (C : Type)
  | enter (l : Label C)
  | acquire (c : C)
  | body (c : C)
  | release (c : C)

namespace Locked

/-- The lock that a CPU waits for in `acquire`. -/
def waits (s : Locked C) (c : C) : Option (Fin nproc) :=
  match s.sect c with
  | some ⟨l, held, false⟩ => (s.base.locks l).bind fun locks => locks[held.length]?
  | _ => none

variable [DecidableEq C]

def setSect (s : Locked C) (c : C) (k : Option (Critical C)) : Locked C :=
  { s with sect := Function.update s.sect c k }

def setLock (s : Locked C) (q : Fin nproc) (holder : Option C) : Locked C :=
  { s with lock := Function.update s.lock q holder }

/-- The body of a section has led to `t`.  A lock that is now handed over by a switch stays
with the CPU, and one that was and is no longer has been released. -/
def ran (s : Locked C) (c : C) (k : Critical C) (t : State C) : Locked C :=
  { base := t
    lock := fun q => if s.base.lock q = some c ∧ t.lock q = none then none else s.lock q
    sect := Function.update s.sect c
      (some { k with held := k.held.filter fun q => t.lock q ≠ some c, done := true }) }

def step (policy : Policy) (hart0 : C) (s : Locked C) : Move C → Option (Locked C)
  | .enter l =>
    if (s.sect l.cpu).isNone ∧ (s.base.locks l).isSome then
      some (s.setSect l.cpu (some ⟨l, [], false⟩))
    else none
  | .acquire c =>
    (s.sect c).bind fun k =>
      (s.waits c).bind fun q =>
        if s.lock q = none then
          some ((s.setLock q (some c)).setSect c (some { k with held := k.held ++ [q] }))
        else none
  | .body c =>
    (s.sect c).bind fun k =>
      if !k.done ∧ (s.waits c).isNone then
        (s.base.step policy hart0 k.label).map (s.ran c k)
      else none
  | .release c =>
    (s.sect c).bind fun k =>
      if k.done then
        match k.held.getLast? with
        | some q => some ((s.setLock q none).setSect c (some { k with held := k.held.dropLast }))
        | none => some (s.setSect c none)
      else none

end Locked

/-- After boot: no lock is held. -/
def Locked.boot (C : Type) (policy : Policy) : Locked C :=
  ⟨Sched.boot C policy, fun _ => none, fun _ => none⟩

/-- A state that the kernel reaches after boot, with its locks. -/
def Locked.Reachable [DecidableEq C] (policy : Policy) (hart0 : C) (s : Locked C) : Prop :=
  ∃ ms, exec (Locked.step policy hart0) (Locked.boot C policy) ms = some s

namespace State

variable {policy : Policy} {hart0 : C} {s s' : State C} {l : Label C} {c d : C} {q r p : Fin nproc}
  {locks : List (Fin nproc)} {lowest : UInt32} {i : Nat} {selected : Option (Fin nproc)}

/-- What a CPU is doing: a handler runs only where no lock is held, and the process that a
scan has selected is in a slot that the scan has passed. -/
structure Descending (s : State C) : Prop where
  handler : ∀ c h q, (s.cpu c).handler = some h → s.lock q ≠ some c
  selected : ∀ c i lowest q, (s.cpu c).pc = .select i lowest (some q) → q.val < i

theorem wakeSlot_lock {me : Option (Fin nproc)} {chan : Option Chan}
    (wake : s.wakeSlot me chan q = some s') : s'.lock = s.lock ∧ s'.cpu = s.cpu := by
  obtain ⟨-, rfl⟩ | ⟨-, -, rfl⟩ := wakeSlot_cases wake <;> exact ⟨rfl, rfl⟩

/-- A CPU that holds a lock after a switch acquires none before it releases it. -/
theorem locks_of_holder (inv : s.Inv) (desc : s.Descending) (held : s.lock r = some l.cpu)
    (wants : s.locks l = some locks) : locks = [] := by
  have occupied := inv.holder r l.cpu held
  have off : (s.cpu l.cpu).handler = none := by
    by_contra on
    obtain ⟨h, on⟩ := ne_none_iff_exists'.1 on
    exact desc.handler l.cpu h r on held
  -- the thread on the CPU is one that has not come back from its switch
  have suspended {p : Fin nproc} {st : UInt32} (cur : s.current l.cpu = some (p, st)) :
      (s.thread p).switch ≠ none := by
    have runs : (s.cpu l.cpu).pc.runs = some p := by rw [(current_some cur).2]; rfl
    have same := CpuPc.occupant_of_runs runs
    rw [occupied] at same
    cases same
    rw [Ne, ← inv.active l.cpu r runs, held]
    rintro ⟨⟩
  cases l with
  | scheduler c =>
    simp only [State.locks, Label.cpu] at wants occupied off
    rw [off] at wants
    cases pc : (s.cpu c).pc with
    | scan | select | selected => rw [pc] at occupied; cases occupied
    | running => rw [pc] at wants; cases wants
    | returned =>
      rw [pc] at wants
      cases wants
      rfl
  | interrupt c i =>
    simp only [State.locks] at wants
    split_ifs at wants
    cases wants
    rfl
  | handler c =>
    simp only [State.locks, Label.cpu] at wants off
    rw [off] at wants
    cases wants
  | call | preempt =>
    obtain ⟨⟨p, st⟩, cur, wants⟩ := bind_eq_some_iff.1 wants
    simp only [isNone_iff_eq_none] at wants
    rw [if_neg (fun both => suspended cur both.1)] at wants
    cases wants
  | proc c ok =>
    obtain ⟨⟨p, st⟩, cur, wants⟩ := bind_eq_some_iff.1 wants
    simp only at wants
    rw [if_pos (isSome_iff_ne_none.2 (suspended cur))] at wants
    cases wants
    rfl

theorem length_slot (i : Nat) : (slot i).toList.length ≤ 1 := by
  cases slot i <;> simp

theorem length_filter_slot (i : Nat) (f : Fin nproc → Bool) :
    ((slot i).toList.filter f).length ≤ 1 :=
  (length_filter_le _ _).trans (length_slot i)

theorem length_threadLocks {pc : Pc} (wants : s.threadLocks p pc = some locks) :
    locks.length ≤ 1 := by
  cases pc with
  | user => cases wants
  | alloc i | kill pid i =>
    cases wants
    exact length_slot i
  | wakeInit status i j | wakeParent status j | wakeup chan j =>
    cases wants
    exact length_filter_slot j _
  | scan w i kids =>
    cases wants
    exact length_filter_slot i _
  | scanned w kids =>
    cases wants
    split_ifs <;> simp
  | start | prioritize | zombie | sleep | yield | adopt | exit | reparent | wait | setpriority =>
    cases wants
    simp

theorem contender_cases (s : State C) (p : Fin nproc) (lowest : UInt32)
    (selected : Option (Fin nproc)) : s.contender p lowest selected = [] ∨
      ∃ q, selected = some q ∧ s.contender p lowest selected = [q] := by
  unfold contender
  split_ifs
  · split
    · split_ifs
      · exact .inl rfl
      · exact .inr ⟨_, rfl, rfl⟩
    · exact .inl rfl
  · exact .inl rfl

/-- The scan takes the lock of the slot it is at first. -/
theorem first_lock (wants : s.locks (.scheduler c) = some locks)
    (pc : (s.cpu c).pc = .select i lowest selected) : locks[0]? = slot i := by
  simp only [State.locks] at wants
  split_ifs at wants
  rw [pc, schedulerLocks] at wants
  split at wants
  · rename_i p found
    cases wants
    rw [found]
    rfl
  · rename_i found
    cases wants
    rw [found]
    rfl

/-- Only the scan of the PBS scheduler takes a second lock: that of the selected process,
while it has that of the slot it is at. -/
theorem second_lock {k : Nat} (wants : s.locks l = some locks) (some_ : locks[k]? = some q)
    (pos : k ≠ 0) :
    k = 1 ∧ ∃ i lowest, l = .scheduler l.cpu ∧ (s.cpu l.cpu).pc = .select i lowest (some q) := by
  have lt : k < locks.length := (List.getElem?_eq_some_iff.1 some_).1
  have long : ¬ locks.length ≤ 1 := by omega
  cases l with
  | scheduler c =>
    simp only [State.locks] at wants
    split_ifs at wants
    cases pc : (s.cpu c).pc with
    | select i lowest selected =>
      rw [pc, schedulerLocks] at wants
      split at wants
      · cases wants
        rcases contender_cases s _ lowest selected with none | ⟨q', rfl, eq⟩
        · rw [none] at long
          exact absurd le_rfl long
        · rw [eq] at some_ lt
          obtain rfl : k = 1 := by
            simp only [length_cons, length_nil] at lt
            omega
          cases some_
          exact ⟨rfl, i, lowest, rfl, pc⟩
      · cases wants
        exact absurd (Nat.zero_le _) long
    | scan i =>
      rw [pc] at wants
      cases wants
      exact absurd (length_slot i) long
    | selected p =>
      rw [pc] at wants
      cases wants
      exact absurd le_rfl long
    | running => rw [pc] at wants; cases wants
    | returned =>
      rw [pc] at wants
      cases wants
      exact absurd (Nat.zero_le _) long
  | interrupt c i =>
    simp only [State.locks] at wants
    split_ifs at wants
    cases wants
    exact absurd (Nat.zero_le _) long
  | handler c =>
    obtain ⟨h, at_, rfl⟩ := map_eq_some_iff.1 wants
    cases h with
    | updateTime i => exact absurd (length_slot i) long
    | wakeup chan i => exact absurd (length_filter_slot i _) long
  | call c op =>
    obtain ⟨⟨p, st⟩, cur, wants⟩ := bind_eq_some_iff.1 wants
    simp only at wants
    split_ifs at wants
    cases wants
    cases op <;> exact absurd (by simp [callLocks]) long
  | proc c ok =>
    obtain ⟨⟨p, st⟩, cur, wants⟩ := bind_eq_some_iff.1 wants
    simp only at wants
    split_ifs at wants
    · cases wants
      exact absurd (Nat.zero_le _) long
    · exact absurd (length_threadLocks wants) long
  | preempt c =>
    obtain ⟨⟨p, st⟩, cur, wants⟩ := bind_eq_some_iff.1 wants
    simp only at wants
    split_ifs at wants
    cases wants
    exact absurd le_rfl long

section

/-- The thread that comes back from a switch finds its lock held by its CPU. -/
theorem lock_of_suspended {st : UInt32} {how : Switch} (inv : s.Inv)
    (cur : s.current c = some (p, st)) (inactive : (s.thread p).switch = some how) :
    s.lock p = some c := by
  have runs : (s.cpu c).pc.runs = some p := by rw [(current_some cur).2]; rfl
  cases held : s.lock p with
  | none =>
    rw [(inv.active c p runs).1 held] at inactive
    cases inactive
  | some d => rw [inv.unique d c p (inv.holder p d held) (CpuPc.occupant_of_runs runs)]

/-- Where interrupts are on, the CPU holds no lock. -/
theorem interruptible_unlocked (inv : s.Inv) (on : s.interruptible c) : s.lock q ≠ some c := by
  intro held
  have occupied := inv.holder q c held
  simp only [interruptible, Bool.and_eq_true] at on
  cases pc : (s.cpu c).pc with
  | scan | select | selected => rw [pc] at occupied; cases occupied
  | returned => rw [pc] at on; cases on.2
  | running p st =>
    rw [pc] at on occupied
    cases occupied
    simp only [Bool.and_eq_true, isNone_iff_eq_none] at on
    have free := (inv.active c q (by rw [pc]; rfl)).2 on.2.1
    rw [free] at held
    cases held

/-- The scan passes a slot: what it has selected is that slot or an earlier choice. -/
theorem compare_selected {next : UInt32 × Option (Fin nproc)}
    (run : s.compare p lowest selected = some next) (chosen : next.2 = some q) :
    q = p ∨ selected = some q := by
  unfold compare at run
  split_ifs at run
  · split at run
    · split_ifs at run
      all_goals cases run; simp_all
    · cases run
      cases chosen
      exact .inl rfl
  · cases run
    cases chosen
    exact .inl rfl
  · cases run
    exact .inr chosen

theorem Descending.boot : (boot C policy).Descending := by
  refine ⟨by rintro _ _ _ ⟨⟩, fun c i lowest q pc => ?_⟩
  cases policy <;> cases pc

variable [DecidableEq C]

/-- A step of one CPU leaves the others where they are. -/
theorem Effect.cpu_other (run : Effect policy hart0 s l s') (other : d ≠ l.cpu) :
    s'.cpu d = s.cpu d := by
  have set {t : State C} {c : C} {cpu : Cpu} (ne : d ≠ c) : (t.setCpu c cpu).cpu d = t.cpu d :=
    Function.update_of_ne ne _ _
  cases run with
  | idle | compared | dispatch | leave | switchedOut | tick | device | updateTime | updated
  | handled | sleep | preempt => exact set other
  | handlerWake at_ wake => exact (set other).trans (by rw [(wakeSlot_lock wake).2])
  | thread cur active run =>
    cases run with
    | zombie | sleep | yield => exact set other
    | @alloc np ok => cases ok <;> rfl
    | @scan w q kids ok =>
      unfold waitSlot
      split_ifs <;> rfl
    | wakeInit pc wake | wakeParent pc wake | wakeup pc wake =>
      exact congrFun (wakeSlot_lock wake).2 d
    | _ => rfl
  | _ => rfl

/-- How a step changes a lock: its CPU takes it when it is free, or gives it up. -/
theorem Effect.lock (run : Effect policy hart0 s l s') (inv : s.Inv) (q : Fin nproc) :
    s'.lock q = s.lock q ∨ s.lock q = none ∧ s'.lock q = some l.cpu ∨
      s.lock q = some l.cpu ∧ s'.lock q = none := by
  have sets {p : Fin nproc} {holder : Option C} (change : s.lock p = none ∧ holder = some l.cpu ∨
      s.lock p = some l.cpu ∧ holder = none) (eq : s'.lock = Function.update s.lock p holder) :
      s'.lock q = s.lock q ∨ s.lock q = none ∧ s'.lock q = some l.cpu ∨
        s.lock q = some l.cpu ∧ s'.lock q = none := by
    rw [eq, Function.update_apply]
    split_ifs with same
    · rw [same]
      exact .inr change
    · exact .inl rfl
  cases run with
  | dispatch _ _ lock | sleep _ _ _ lock | preempt _ _ _ lock => exact sets (.inl ⟨lock, rfl⟩) rfl
  | leave _ _ before | switchedOut _ _ before =>
    exact sets (.inr ⟨inv.returned _ _ _ before, rfl⟩) rfl
  | handlerWake at_ wake => exact .inl (congrFun (wakeSlot_lock wake).1 q)
  | resume cur inactive | awake cur inactive =>
    exact sets (.inr ⟨lock_of_suspended inv cur inactive, rfl⟩) rfl
  | thread cur active run =>
    cases run with
    | zombie _ lock | sleep _ lock | yield _ lock => exact sets (.inl ⟨lock, rfl⟩) rfl
    | @alloc np ok => cases ok <;> exact .inl rfl
    | @scan w q kids ok =>
      unfold waitSlot
      split_ifs <;> exact .inl rfl
    | wakeInit pc wake | wakeParent pc wake | wakeup pc wake =>
      exact .inl (congrFun (wakeSlot_lock wake).1 q)
    | _ => exact .inl rfl
  | _ => exact .inl rfl

theorem scheduler_selected (desc : s.Descending) (run : s.scheduler policy c = some s')
    (pc : (s'.cpu c).pc = .select i lowest (some q)) : q.val < i := by
  have own {t : State C} {cpu : Cpu} : (t.setCpu c cpu).cpu c = cpu := Function.update_self ..
  unfold scheduler at run
  split at run
  case h_2 j lowest' selected at_ =>
    split at run
    case h_1 p found =>
      obtain rfl := slot_some found
      have earlier (chosen : selected = some q) : q.val < p.val := by
        rw [chosen] at at_
        exact desc.selected c _ _ q at_
      split_ifs at run
      · obtain ⟨next, compared, rfl⟩ := map_eq_some_iff.1 run
        simp only [record, own, CpuPc.select.injEq] at pc
        obtain ⟨rfl, -, chosen⟩ := pc
        rcases compare_selected compared chosen with rfl | before
        · omega
        · have := earlier before
          omega
      · cases run
        simp only [own, CpuPc.select.injEq] at pc
        obtain ⟨rfl, -, chosen⟩ := pc
        have := earlier chosen
        omega
    case h_2 =>
      split at run <;> cases run <;> simp [own, CpuPc.restart] at pc
  -- no other step leads to a scan that has selected a process
  all_goals
    repeat' split at run
    all_goals cases run
    all_goals simp [record, leave, switchTo, own, CpuPc.restart] at pc

/-- What a step changes at its own CPU: only the steps of a handler and its start leave one
there. -/
theorem Effect.cpu_self (run : Effect policy hart0 s l s') :
    (l = .scheduler l.cpu ∧ (s'.cpu l.cpu).handler = none) ∨
      ((s.cpu l.cpu).handler = none ∧ (s'.cpu l.cpu = s.cpu l.cpu ∨
        ∃ p st, s'.cpu l.cpu = { s.cpu l.cpu with pc := .returned p st })) ∨
      ∃ h, s'.cpu l.cpu = { s.cpu l.cpu with handler := h } ∧ s'.lock = s.lock ∧
        (s.interruptible l.cpu ∨ (s.cpu l.cpu).handler ≠ none) := by
  have own {t : State C} {c : C} {cpu : Cpu} : (t.setCpu c cpu).cpu c = cpu :=
    Function.update_self ..
  cases run with
  | idle _ _ _ _ handler | compared _ _ _ _ handler =>
    exact .inl ⟨rfl, (congrArg Cpu.handler own).trans handler⟩
  | dispatch off | leave off | switchedOut off =>
    exact .inl ⟨rfl, (congrArg Cpu.handler own).trans off⟩
  | updateTime at_ | updated at_ | handled at_ =>
    exact .inr (.inr ⟨_, own, rfl, .inr (by rw [Label.cpu, at_]; rintro ⟨⟩)⟩)
  | handlerWake at_ wake =>
    exact .inr (.inr ⟨_, own, (wakeSlot_lock wake).1, .inr (by
      rw [Label.cpu, at_]
      rintro ⟨⟩)⟩)
  | tick on | device on => exact .inr (.inr ⟨_, own, rfl, .inl on⟩)
  | timer on => exact .inr (.inl ⟨interruptible_off on, .inl rfl⟩)
  | sleep cur | preempt cur =>
    exact .inr (.inl ⟨(current_some cur).1, .inr ⟨_, _, own⟩⟩)
  | call cur | trap cur | resume cur | awake cur =>
    exact .inr (.inl ⟨(current_some cur).1, .inl rfl⟩)
  | thread cur active run =>
    refine .inr (.inl ⟨(current_some cur).1, ?_⟩)
    cases run with
    | zombie | sleep | yield => exact .inr ⟨_, _, own⟩
    | @alloc np ok => cases ok <;> exact .inl rfl
    | @scan w q kids ok =>
      unfold waitSlot
      split_ifs <;> exact .inl rfl
    | wakeInit _ wake | wakeParent _ wake | wakeup _ wake =>
      exact .inl (congrFun (wakeSlot_lock wake).2 _)
    | _ => exact .inl rfl

/-- A CPU that runs a handler neither has nor gets a lock. -/
theorem Descending.handler_step {h : Handler} (desc : s.Descending) (inv : s.Inv)
    (run : Effect policy hart0 s l s') (on : (s'.cpu c).handler = some h) (q : Fin nproc) :
    s'.lock q ≠ some c := by
  by_cases mine : c = l.cpu
  · subst mine
    rcases run.cpu_self with ⟨-, none⟩ | ⟨none, same | ⟨p, st, eq⟩⟩ | ⟨h', eq, lock, was⟩
    · rw [none] at on
      cases on
    · rw [same, none] at on
      cases on
    · rw [eq, none] at on
      cases on
    · rw [lock]
      rcases was with on' | was
      · exact interruptible_unlocked inv on'
      · obtain ⟨h'', was⟩ := ne_none_iff_exists'.1 was
        exact desc.handler l.cpu h'' q was
  · rw [run.cpu_other mine] at on
    rcases run.lock inv q with same | ⟨-, taken⟩ | ⟨-, free⟩
    · rw [same]
      exact desc.handler c h q on
    · rw [taken]
      exact fun eq => mine (some.inj eq).symm
    · rw [free]
      rintro ⟨⟩

theorem Descending.step (desc : s.Descending) (inv : s.Inv)
    (taken : s.step policy hart0 l = some s') : s'.Descending := by
  have run := step_effect taken
  refine ⟨fun c h q on => desc.handler_step inv run on q, fun c i lowest q pc => ?_⟩
  by_cases mine : c = l.cpu
  · subst mine
    rcases run.cpu_self with ⟨eq, -⟩ | ⟨-, same | ⟨p, st, eq⟩⟩ | ⟨h', eq, -, -⟩
    · rw [eq] at taken
      simp only [State.step] at taken
      split_ifs at taken
      exact scheduler_selected desc taken pc
    · rw [same] at pc
      exact desc.selected _ _ _ q pc
    · rw [eq] at pc
      cases pc
    · rw [eq] at pc
      exact desc.selected _ _ _ q pc
  · rw [run.cpu_other mine] at pc
    exact desc.selected _ _ _ q pc

end

end State

namespace Locked

variable {policy : Policy} {hart0 : C} {s s' : Locked C} {c d : C} {q r : Fin nproc}
  {k : Critical C}

/-- The locks that a CPU holds are those of its section and one that a switch has handed
over; the scan of the scheduler has the lock of its slot first. -/
structure Inv (s : Locked C) : Prop where
  base : s.base.Inv
  desc : s.base.Descending
  cpu : ∀ c k, s.sect c = some k → k.label.cpu = c
  holder : ∀ q c, s.lock q = some c →
    s.base.lock q = some c ∨ ∃ k, s.sect c = some k ∧ q ∈ k.held
  scan : ∀ c k i lowest selected, s.sect c = some k → k.done = false →
    k.label = .scheduler c → (s.base.cpu c).pc = .select i lowest selected →
    k.held = [] ∨ k.held.head? = slot i

theorem waits_some (waits : s.waits c = some q) :
    ∃ k locks, s.sect c = some k ∧ k.done = false ∧ s.base.locks k.label = some locks ∧
      locks[k.held.length]? = some q := by
  unfold Locked.waits at waits
  split at waits
  · rename_i l held sect
    obtain ⟨locks, wants, next⟩ := bind_eq_some_iff.1 waits
    exact ⟨_, locks, sect, rfl, wants, next⟩
  · cases waits

/-- A CPU waits for a lock only below those it holds. -/
theorem Inv.descends (inv : s.Inv) (waits : s.waits c = some q) (held : s.lock r = some c) :
    q < r := by
  obtain ⟨k, locks, sect, open_, wants, next⟩ := waits_some waits
  have mine := inv.cpu c k sect
  rcases inv.holder r c held with handed | ⟨k', sect', inside⟩
  · rw [← mine] at handed
    rw [locks_of_holder inv.base inv.desc handed wants] at next
    cases next
  · rw [sect] at sect'
    cases sect'
    have pos : k.held.length ≠ 0 := by
      rw [Ne, length_eq_zero_iff]
      exact ne_nil_of_mem inside
    obtain ⟨one, i, lowest, scheduler, pc⟩ := second_lock wants next pos
    rw [mine] at scheduler pc
    rcases inv.scan c k i lowest (some q) sect open_ scheduler pc with none | first
    · rw [none] at inside
      cases inside
    · obtain ⟨p, eq⟩ := length_eq_one_iff.1 one
      rw [eq] at first inside
      rw [mem_singleton.1 inside]
      have below := inv.desc.selected c i lowest q pc
      rw [slot_some first.symm] at below
      exact below

section

theorem Inv.boot : (boot C policy).Inv :=
  ⟨.boot policy, .boot, by rintro _ _ ⟨⟩, by rintro _ _ ⟨⟩, by rintro _ _ _ _ _ ⟨⟩⟩

variable [DecidableEq C]

/-- A move of one CPU that is no step of the coarser system, from what it does to the section of
that CPU and to its locks. -/
theorem Inv.move {k' : Option (Critical C)} (inv : s.Inv) (base : s'.base = s.base)
    (sect : s'.sect = Function.update s.sect c k') (cpu : ∀ k, k' = some k → k.label.cpu = c)
    (own : ∀ q, s'.lock q = some c → s.base.lock q = some c ∨ ∃ k, k' = some k ∧ q ∈ k.held)
    (others : ∀ q d, d ≠ c → s'.lock q = some d → s.lock q = some d)
    (scan : ∀ k i lowest selected, k' = some k → k.done = false → k.label = .scheduler c →
      (s.base.cpu c).pc = .select i lowest selected → k.held = [] ∨ k.held.head? = slot i) :
    s'.Inv := by
  rw [funext_iff] at sect
  simp only [Function.update_apply] at sect
  refine ⟨by rw [base]; exact inv.base, by rw [base]; exact inv.desc, ?_, fun q d held => ?_, ?_⟩
  · grind [inv.cpu]
  · rw [base]
    by_cases mine : d = c
    · grind
    · have before := inv.holder q d (others q d mine held)
      grind
  · rw [base]
    grind [inv.scan]

theorem Inv.enter {l : Label C} (inv : s.Inv) (idle : s.sect l.cpu = none) :
    (s.setSect l.cpu (some ⟨l, [], false⟩)).Inv := by
  refine inv.move rfl rfl (by rintro k ⟨⟩; rfl) (fun q held => ?_) (fun _ _ _ held => held)
    (by rintro k i lowest selected ⟨⟩ - - -; exact .inl rfl)
  have before := inv.holder q l.cpu held
  grind

section

variable (inv : s.Inv) (here : s.sect c = some k)
include inv here

theorem Inv.acquire (waits : s.waits c = some q) :
    ((s.setLock q (some c)).setSect c (some { k with held := k.held ++ [q] })).Inv := by
  have lock (r : Fin nproc) : ((s.setLock q (some c)).setSect c
      (some { k with held := k.held ++ [q] })).lock r = if r = q then some c else s.lock r :=
    Function.update_apply ..
  refine inv.move rfl rfl (by rintro k' ⟨⟩; exact inv.cpu c k here) (fun r held => ?_)
    (fun r d other held => by grind) fun k' i lowest selected eq open_ scheduler pc => .inr ?_
  · have before := inv.holder r c
    grind
  · cases eq
    obtain ⟨k', locks, there, -, wants, next⟩ := waits_some waits
    rw [here] at there
    cases there
    replace scheduler : k.label = .scheduler c := scheduler
    by_cases none : k.held = []
    · rw [scheduler] at wants
      rw [none] at next ⊢
      rw [← first_lock wants pc]
      exact next.symm
    · have first := (inv.scan c k i lowest selected here open_ scheduler pc).resolve_left none
      rw [← first]
      exact head?_append_of_ne_nil _ none

theorem Inv.body {t : State C} (run : s.base.step policy hart0 k.label = some t) :
    (s.ran c k t).Inv := by
  have at_ (d : C) : (s.ran c k t).sect d = if d = c then
      some { k with held := k.held.filter fun q => t.lock q ≠ some c, done := true }
      else s.sect d := Function.update_apply ..
  have mine := inv.cpu c k here
  have effect := step_effect run
  refine ⟨effect.inv inv.base, inv.desc.step inv.base run, ?_, fun r d held => ?_,
    fun d k' i lowest selected here' open_ scheduler pc => ?_⟩
  · grind [inv.cpu]
  · -- a lock that a switch had handed over is still held, or has been released
    have held' : (if s.base.lock r = some c ∧ t.lock r = none then none else s.lock r) = some d :=
      held
    have base : (s.ran c k t).base = t := rfl
    have change := effect.lock inv.base r
    have before := inv.holder r d
    grind
  · have pc' : (t.cpu d).pc = .select i lowest selected := pc
    have before := inv.scan d k' i lowest selected
    have other : d ≠ k.label.cpu → t.cpu d = s.base.cpu d := effect.cpu_other
    grind

theorem Inv.release (last : k.held.getLast? = some q) :
    ((s.setLock q none).setSect c (some { k with held := k.held.dropLast, done := true })).Inv := by
  have lock (r : Fin nproc) : ((s.setLock q none).setSect c
      (some { k with held := k.held.dropLast, done := true })).lock r =
      if r = q then none else s.lock r := Function.update_apply ..
  refine inv.move rfl rfl (by rintro k' ⟨⟩; exact inv.cpu c k here) (fun r held => ?_)
    (fun r d other held => by grind) (by rintro k' i lowest selected ⟨⟩ ⟨⟩)
  obtain ⟨front, eq⟩ := getLast?_eq_some_iff.1 last
  have before := inv.holder r c
  have rest : k.held.dropLast = front := by rw [eq, dropLast_concat]
  grind

theorem Inv.exit (none_ : k.held = []) : (s.setSect c none).Inv := by
  refine inv.move rfl rfl (by rintro k' ⟨⟩) (fun r held => ?_) (fun _ _ _ held => held)
    (by rintro k' i lowest selected ⟨⟩)
  have before := inv.holder r c held
  grind

end

/-- Every move keeps the invariant, and is a step of the coarser system or none. -/
theorem Inv.step {m : Move C} (inv : s.Inv) (run : s.step policy hart0 m = some s') :
    s'.Inv ∧ (s'.base = s.base ∨ ∃ l, s.base.step policy hart0 l = some s'.base) := by
  cases m with
  | enter l =>
    simp only [Locked.step] at run
    split_ifs at run with idle
    cases run
    exact ⟨inv.enter (isNone_iff_eq_none.1 idle.1), .inl rfl⟩
  | acquire c =>
    obtain ⟨k, here, run⟩ := bind_eq_some_iff.1 run
    obtain ⟨q, waits, run⟩ := bind_eq_some_iff.1 run
    split_ifs at run
    cases run
    exact ⟨inv.acquire here waits, .inl rfl⟩
  | body c =>
    obtain ⟨k, here, run⟩ := bind_eq_some_iff.1 run
    split_ifs at run
    obtain ⟨t, taken, rfl⟩ := map_eq_some_iff.1 run
    exact ⟨inv.body here taken, .inr ⟨k.label, taken⟩⟩
  | release c =>
    obtain ⟨k, here, run⟩ := bind_eq_some_iff.1 run
    split_ifs at run with done
    split at run
    · rename_i q last
      cases run
      have released := inv.release here last
      rw [show ({ k with held := k.held.dropLast, done := true } : Critical C) =
        { k with held := k.held.dropLast } by rw [← done]] at released
      exact ⟨released, .inl rfl⟩
    · rename_i last
      cases run
      exact ⟨inv.exit here (getLast?_eq_none_iff.1 last), .inl rfl⟩

/-- The system with its locks refines the one whose sections are single steps. -/
theorem Reachable.refines (reach : Reachable policy hart0 s) :
    s.Inv ∧ Sched.Reachable policy hart0 s.base := by
  obtain ⟨ms, run⟩ := reach
  refine run_invariant (fun s : Locked C => s.Inv ∧ Sched.Reachable policy hart0 s.base)
    (fun s m s' both taken => ?_) ⟨Inv.boot, [], rfl⟩ run
  obtain ⟨inv, same | ⟨l, step⟩⟩ := both.1.step taken
  · exact ⟨inv, by rw [same]; exact both.2⟩
  · obtain ⟨ls, path⟩ := both.2
    exact ⟨inv, ls ++ [l], exec_snoc path step⟩

end

end Locked

/-- No CPU waits for a process lock that it has itself, and there is no circle of CPUs that
each hold a process lock and wait for one that the next holds. -/
theorem no_lock_cycle [DecidableEq C] {policy : Policy} {hart0 : C} {s : Locked C}
    (reach : Locked.Reachable policy hart0 s) :
    (∀ c q, s.waits c = some q → s.lock q ≠ some c) ∧
    ∀ c, ¬ Relation.TransGen (LockOrder.Blocked s.waits s.lock) c c := by
  have inv := reach.refines.1
  refine ⟨fun c q waits held => lt_irrefl q (inv.descends waits held), ?_⟩
  exact LockOrder.no_cycle fun c q r waits held => inv.descends waits held

/-- A CPU goes through a section that acquires one number of locks and releases another. -/
def Label.moves (l : Label C) (acquired released : Nat) : List (Move C) :=
  .enter l :: List.replicate acquired (.acquire l.cpu) ++
    .body l.cpu :: List.replicate (released + 1) (.release l.cpu)

/-- CPU `c` selects and runs the first process, which forks and is preempted; the next scan
has selected it when it comes to the child, while CPU `d` has begun a scan. -/
def contendRun (c d : C) : List (Move C) :=
  List.flatten [(List.replicate 64 ((Label.scheduler c).moves 1 1)).flatten,
    (Label.scheduler c).moves 0 0, (Label.scheduler c).moves 1 0, (Label.proc c true).moves 0 0,
    (Label.call c .fork).moves 0 0, (Label.proc c true).moves 1 1, (Label.proc c true).moves 1 1,
    (Label.proc c true).moves 0 0, (Label.proc c true).moves 1 1, (Label.preempt c).moves 1 0,
    (Label.scheduler c).moves 0 0, (Label.scheduler c).moves 1 1,
    [.enter (.scheduler c), .acquire c, .enter (.scheduler d), .acquire d]]

/-- One CPU has the lock of slot 1 and waits for that of slot 0, which another CPU has. -/
theorem no_lock_cycle_contended : ∃ s : Locked (Fin 2), Locked.Reachable .pbs 0 s ∧
    s.lock 1 = some 0 ∧ s.waits 0 = some 0 ∧ s.lock 0 = some 1 ∧
    ∀ c, ¬ Relation.TransGen (LockOrder.Blocked s.waits s.lock) c c := by
  exact exists_reached (contendRun 0 1)
    (fun s => s.lock 1 = some 0 ∧ s.waits 0 = some 0 ∧ s.lock 0 = some 1) (by decide +kernel)
    fun s reach ⟨outer, waits, inner⟩ => ⟨outer, waits, inner, (no_lock_cycle reach).2⟩

end Xv6.Sched
