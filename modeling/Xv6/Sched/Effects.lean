import Xv6.Sched.System

/-!
# What a step does

The inversions of the step functions: each constructor of `Effect` is one kind of step,
with the conditions under which it is taken and the state it leads to.  The invariants are
proved over these.
-/

namespace Xv6.Sched

open Option

variable {C : Type}

/-- The process that a CPU runs or whose lock it has got back from. -/
def CpuPc.occupant : CpuPc → Option (Fin nproc)
  | .running p _ | .returned p _ => some p
  | _ => none

/-- The process that a CPU runs. -/
def CpuPc.runs : CpuPc → Option (Fin nproc)
  | .running p _ => some p
  | _ => none

/-- The slot that `fork` has taken for a child that is not yet `RUNNABLE`. -/
def Pc.child : Pc → Option (Fin nproc)
  | .adopt np _ | .start np _ => some np
  | _ => none

/-- The priority that `sys_setpriority` is about to assign. -/
def Pc.priority : Pc → Option UInt32
  | .setpriority _ priority _ | .prioritize priority _ => some priority
  | _ => none

/-- The thread has neither `wait_lock` nor a child that it is creating. -/
def Pc.plain (pc : Pc) : Bool := !pc.holdsWaitLock && pc.child.isNone

namespace State

variable {s s' : State C} {c : C} {p q : Fin nproc} {st : UInt32} {i : Nat}

theorem slot_some (found : slot i = some q) : i = q := by
  unfold slot at found
  split_ifs at found
  cases found
  rfl

theorem slot_none (ended : slot i = none) : nproc ≤ i := by
  unfold slot at ended
  split_ifs at ended with lt
  omega

theorem wakeSlot_cases {me : Option (Fin nproc)} {chan : Option Chan}
    (wake : s.wakeSlot me chan q = some s') : me = some q ∧ s' = s ∨
      me ≠ some q ∧ s.lock q = none ∧ s' = s.modify q fun p => p.woken chan := by
  unfold wakeSlot at wake
  split_ifs at wake with self lock
  · cases wake
    exact .inl ⟨self, rfl⟩
  · cases wake
    exact .inr ⟨self, lock, rfl⟩

theorem current_some (cur : s.current c = some (p, st)) :
    (s.cpu c).handler = none ∧ (s.cpu c).pc = .running p st := by
  unfold current at cur
  split at cur
  · cases cur
    exact ⟨by assumption, by assumption⟩
  · cases cur

theorem interruptible_off (on : s.interruptible c) : (s.cpu c).handler = none := by
  simp only [interruptible, Bool.and_eq_true, isNone_iff_eq_none] at on
  exact on.1

theorem goto_self (s : State C) (p : Fin nproc) : s.goto p (s.thread p).pc = s := by
  unfold goto setThread
  rw [Function.update_eq_self]

variable [DecidableEq C]

/-- The steps of the thread of `p` inside a call, on CPU `c`. -/
inductive ThreadStep (s : State C) (c : C) (p : Fin nproc) (st : UInt32) : State C → Prop
  | move {pc : Pc} (before : (s.thread p).pc.plain) (after : pc.plain)
      (priority : pc.priority = none ∨ pc.priority = (s.thread p).pc.priority)
      (stays : ∀ status, pc ≠ .exit status) :
      ThreadStep s c p st (s.goto p pc)
  | alloc {np : Fin nproc} {ok : Bool} (pc : (s.thread p).pc.plain) (lock : s.lock np = none)
      (unused : (s.proc np).state = .unused) : ThreadStep s c p st (s.allocSlot p np ok)
  | adopt {np : Fin nproc} {pid : Int} (pc : (s.thread p).pc = .adopt np pid)
      (free : s.waitLock = none) :
      ThreadStep s c p st
        ((s.modify np fun q => { q with parent := some p }).goto p (.start np pid))
  | start {np : Fin nproc} {pid : Int} (pc : (s.thread p).pc = .start np pid)
      (lock : s.lock np = none) :
      ThreadStep s c p st (((s.modify np fun q => { q with state := .runnable }).goto p
        .user).record (.forked p pid))
  | exit {status : Int} (pc : (s.thread p).pc = .exit status) (free : s.waitLock = none) :
      ThreadStep s c p st ((s.setWaitLock (some p)).goto p (.reparent status 0))
  | reparent {status : Int} {q : Fin nproc} (pc : (s.thread p).pc = .reparent status q)
      (child : (s.proc q).parent = some p) :
      ThreadStep s c p st ((s.modify q fun r => { r with parent := some initproc }).goto p
        (.wakeInit status q 0))
  | reparentNext {status : Int} {q : Fin nproc} (pc : (s.thread p).pc = .reparent status q)
      (other : (s.proc q).parent ≠ some p) :
      ThreadStep s c p st (s.goto p (.reparent status (q + 1)))
  | reparentEnd {status : Int} {i : Nat} (pc : (s.thread p).pc = .reparent status i)
      (last : nproc ≤ i) : ThreadStep s c p st (s.goto p (.wakeParent status 0))
  | wakeInit {status : Int} {i : Nat} {q : Fin nproc} {s₁ : State C}
      (pc : (s.thread p).pc = .wakeInit status i q)
      (wake : s.wakeSlot (some p) (some (.proc initproc)) q = some s₁) :
      ThreadStep s c p st (s₁.goto p (.wakeInit status i (q + 1)))
  | wakeInitEnd {status : Int} {i j : Nat} (pc : (s.thread p).pc = .wakeInit status i j)
      (last : nproc ≤ j) : ThreadStep s c p st (s.goto p (.reparent status (i + 1)))
  | wakeParent {status : Int} {q : Fin nproc} {s₁ : State C}
      (pc : (s.thread p).pc = .wakeParent status q)
      (wake : s.wakeSlot (some p) ((s.proc p).parent.map .proc) q = some s₁) :
      ThreadStep s c p st (s₁.goto p (.wakeParent status (q + 1)))
  | wakeParentEnd {status : Int} {j : Nat} (pc : (s.thread p).pc = .wakeParent status j)
      (last : nproc ≤ j) : ThreadStep s c p st (s.goto p (.zombie status))
  | zombie {status : Int} (pc : (s.thread p).pc = .zombie status) (lock : s.lock p = none) :
      ThreadStep s c p st ((((s.modify p fun q => q.exited status s.ticks).setWaitLock
        none).switchFrom c p st .exit .user).record (.exited (s.proc p).pid status))
  | wait {w : Wait} (pc : (s.thread p).pc = .wait w) (free : s.waitLock = none) :
      ThreadStep s c p st ((s.setWaitLock (some p)).goto p (.scan w 0 false))
  | scan {w : Wait} {q : Fin nproc} {havekids ok : Bool} (pc : (s.thread p).pc = .scan w q havekids)
      (child : (s.proc q).parent = some p) (lock : s.lock q = none) :
      ThreadStep s c p st (s.waitSlot p q w ok)
  | scanNext {w : Wait} {q : Fin nproc} {havekids : Bool}
      (pc : (s.thread p).pc = .scan w q havekids)
      (other : (s.proc q).parent ≠ some p) :
      ThreadStep s c p st (s.goto p (.scan w (q + 1) havekids))
  | scanEnd {w : Wait} {i : Nat} {havekids : Bool} (pc : (s.thread p).pc = .scan w i havekids)
      (last : nproc ≤ i) : ThreadStep s c p st (s.goto p (.scanned w havekids))
  | failed {w : Wait} {havekids : Bool} (pc : (s.thread p).pc = .scanned w havekids) :
      ThreadStep s c p st ((s.setWaitLock none).goto p .user)
  | scanned {w : Wait} {havekids : Bool} (pc : (s.thread p).pc = .scanned w havekids) :
      ThreadStep s c p st (s.goto p (.sleep w))
  | sleep {w : Wait} (pc : (s.thread p).pc = .sleep w) (lock : s.lock p = none) :
      ThreadStep s c p st (((s.modify p fun q => q.asleep (.proc p)).setWaitLock none).switchFrom
        c p st .sleep (.wait w))
  | wakeup {chan : Chan} {q : Fin nproc} {s₁ : State C} (pc : (s.thread p).pc = .wakeup chan q)
      (wake : s.wakeSlot (some p) (some chan) q = some s₁) :
      ThreadStep s c p st (s₁.goto p (.wakeup chan (q + 1)))
  | kill {q : Fin nproc} (pc : (s.thread p).pc = .kill (s.proc q).pid q) (lock : s.lock q = none) :
      ThreadStep s c p st ((s.modify q Proc.marked).goto p .user)
  | prioritize {priority : UInt32} {q : Fin nproc} {pc : Pc}
      (before : (s.thread p).pc = .prioritize priority q) (after : pc = .user ∨ pc = .yield)
      (lock : s.lock q = none) :
      ThreadStep s c p st (((s.modify q fun r => r.prioritized priority).goto p pc).record
        (.prioritized q priority))
  | yield (pc : (s.thread p).pc = .yield) (lock : s.lock p = none) :
      ThreadStep s c p st ((s.modify p fun q => { q with state := .runnable }).switchFrom c p st
        .yield .user)

theorem continue_threadStep {ok : Bool} (run : s.continue_ c p st ok = some s') :
    ThreadStep s c p st s' := by
  unfold continue_ at run
  split at run
  case h_1 => cases run
  case h_2 i pc =>
    split at run
    case h_1 np at_ =>
      split_ifs at run with lock state
      · cases run
        exact .alloc (by rw [pc]; rfl) lock state
      · cases run
        exact .move (by rw [pc]; rfl) rfl (.inl rfl) (by rintro _ ⟨⟩)
    case h_2 =>
      cases run
      exact .move (by rw [pc]; rfl) rfl (.inl rfl) (by rintro _ ⟨⟩)
  case h_3 np pid pc =>
    split_ifs at run with free
    cases run
    exact .adopt pc free
  case h_4 np pid pc =>
    split_ifs at run with lock
    cases run
    exact .start pc lock
  case h_5 status pc =>
    split_ifs at run with free
    cases run
    exact .exit pc free
  case h_6 status i pc =>
    split at run
    case h_1 q at_ =>
      obtain rfl := slot_some at_
      split_ifs at run with child
      · cases run
        exact .reparent pc child
      · cases run
        exact .reparentNext pc child
    case h_2 ended =>
      cases run
      exact .reparentEnd pc (slot_none ended)
  case h_7 status i j pc =>
    split at run
    case h_1 q at_ =>
      obtain rfl := slot_some at_
      obtain ⟨s₁, wake, rfl⟩ := map_eq_some_iff.1 run
      exact .wakeInit pc wake
    case h_2 ended =>
      cases run
      exact .wakeInitEnd pc (slot_none ended)
  case h_8 status j pc =>
    split at run
    case h_1 q at_ =>
      obtain rfl := slot_some at_
      obtain ⟨s₁, wake, rfl⟩ := map_eq_some_iff.1 run
      exact .wakeParent pc wake
    case h_2 ended =>
      cases run
      exact .wakeParentEnd pc (slot_none ended)
  case h_9 status pc =>
    split_ifs at run with lock
    cases run
    exact .zombie pc lock
  case h_10 w pc =>
    split_ifs at run with free
    cases run
    exact .wait pc free
  case h_11 w i havekids pc =>
    split at run
    case h_1 q at_ =>
      obtain rfl := slot_some at_
      split_ifs at run with child lock
      · cases run
        exact .scan pc child lock
      · cases run
        exact .scanNext pc child
    case h_2 ended =>
      cases run
      exact .scanEnd pc (slot_none ended)
  case h_12 w havekids pc =>
    split_ifs at run with none
    · cases run
      exact .failed pc
    · cases run
      exact .scanned pc
  case h_13 w pc =>
    split_ifs at run with lock
    cases run
    exact .sleep pc lock
  case h_14 chan i pc =>
    split at run
    case h_1 q at_ =>
      obtain rfl := slot_some at_
      obtain ⟨s₁, wake, rfl⟩ := map_eq_some_iff.1 run
      exact .wakeup pc wake
    case h_2 ended =>
      cases run
      exact .move (by rw [pc]; rfl) rfl (.inl rfl) (by rintro _ ⟨⟩)
  case h_15 pid i pc =>
    split at run
    case h_1 q at_ =>
      obtain rfl := slot_some at_
      split_ifs at run with lock match_
      · cases run
        subst match_
        exact .kill pc lock
      · cases run
        exact .move (by rw [pc]; rfl) rfl (.inl rfl) (by rintro _ ⟨⟩)
    case h_2 =>
      cases run
      exact .move (by rw [pc]; rfl) rfl (.inl rfl) (by rintro _ ⟨⟩)
  case h_16 pid priority i pc =>
    split at run
    case h_1 q at_ =>
      split_ifs at run with match_
      · cases run
        exact .move (by rw [pc]; rfl) rfl (.inr (by rw [pc]; rfl)) (by rintro _ ⟨⟩)
      · cases run
        exact .move (by rw [pc]; rfl) rfl (.inr (by rw [pc]; rfl)) (by rintro _ ⟨⟩)
    case h_2 =>
      cases run
      exact .move (by rw [pc]; rfl) rfl (.inl rfl) (by rintro _ ⟨⟩)
  case h_17 priority q pc =>
    split_ifs at run with lock
    · cases run
      exact .prioritize pc (.inr rfl) lock
    · cases run
      exact .prioritize pc (.inl rfl) lock
  case h_18 pc =>
    unfold yield at run
    split_ifs at run with lock
    cases run
    exact .yield pc lock

/-- The steps of the system. -/
inductive Effect (policy : Policy) (hart0 : C) (s : State C) : Label C → State C → Prop
  | idle {c : C} {cpu : Cpu} (off : (s.cpu c).handler = none)
      (before : (s.cpu c).pc.occupant = none) (after : cpu.pc.occupant = none)
      (proc : cpu.proc = (s.cpu c).proc ∨ cpu.proc = none) (handler : cpu.handler = none) :
      Effect policy hart0 s (.scheduler c) (s.setCpu c cpu)
  | compared {c : C} {cpu : Cpu} {p : Fin nproc} (off : (s.cpu c).handler = none)
      (before : (s.cpu c).pc.occupant = none) (after : cpu.pc.occupant = none)
      (proc : cpu.proc = (s.cpu c).proc) (handler : cpu.handler = none) (lock : s.lock p = none)
      (runnable : (s.proc p).state = .runnable) :
      Effect policy hart0 s (.scheduler c) ((s.setCpu c cpu).record (.compared p (s.proc p).SP))
  | dispatch {c : C} {p : Fin nproc} {f : Proc → Proc} (off : (s.cpu c).handler = none)
      (before : (s.cpu c).pc.occupant = none) (lock : s.lock p = none)
      (runnable : (s.proc p).state = .runnable)
      (how : f = (fun q => { q with state := .running }) ∨ f = Proc.dispatched) :
      Effect policy hart0 s (.scheduler c) ((s.modify p f).switchTo c p)
  | leave {c : C} {p : Fin nproc} {startTime : UInt32} (off : (s.cpu c).handler = none)
      (rr : policy = .rr) (before : (s.cpu c).pc = .returned p startTime) :
      Effect policy hart0 s (.scheduler c) (s.leave c p (.scan (p + 1)))
  | switchedOut {c : C} {p : Fin nproc} {startTime : UInt32} (off : (s.cpu c).handler = none)
      (pbs : policy = .pbs) (before : (s.cpu c).pc = .returned p startTime) :
      Effect policy hart0 s (.scheduler c)
        (((s.modify p fun q => q.switchedOut startTime s.ticks).leave c p CpuPc.restart).record
          (.switchedOut p ((s.proc p).ran startTime s.ticks).calculateRbi))
  | tick {c : C} (on : s.interruptible c) (here : c = hart0) :
      Effect policy hart0 s (.interrupt c .timer)
        { s.setCpu c { s.cpu c with handler := some (.updateTime 0) } with ticks := s.ticks + 1 }
  | timer {c : C} (on : s.interruptible c) : Effect policy hart0 s (.interrupt c .timer) s
  | device {c : C} {chan : Nat} (on : s.interruptible c) :
      Effect policy hart0 s (.interrupt c (.device chan))
        (s.setCpu c { s.cpu c with handler := some (.wakeup (.addr chan) 0) })
  | updateTime {c : C} {q : Fin nproc} (at_ : (s.cpu c).handler = some (.updateTime q))
      (lock : s.lock q = none) :
      Effect policy hart0 s (.handler c) ((s.modify q Proc.updateStats).setCpu c
        { s.cpu c with handler := some (.updateTime (q + 1)) })
  | handlerWake {c : C} {q : Fin nproc} {chan : Chan} {s₁ : State C}
      (at_ : (s.cpu c).handler = some (.wakeup chan q))
      (wake : s.wakeSlot (s.cpu c).proc (some chan) q = some s₁) :
      Effect policy hart0 s (.handler c)
        (s₁.setCpu c { s.cpu c with handler := some (.wakeup chan (q + 1)) })
  | updated {c : C} {i : Nat} (at_ : (s.cpu c).handler = some (.updateTime i))
      (last : nproc ≤ i) :
      Effect policy hart0 s (.handler c)
        (s.setCpu c { s.cpu c with handler := some (.wakeup (.addr ticksAddr) 0) })
  | handled {c : C} {chan : Chan} {i : Nat} (at_ : (s.cpu c).handler = some (.wakeup chan i)) :
      Effect policy hart0 s (.handler c) (s.setCpu c { s.cpu c with handler := none })
  | call {c : C} {op : Call} {p : Fin nproc} {startTime : UInt32} {pc : Pc}
      (cur : s.current c = some (p, startTime)) (active : (s.thread p).switch = none)
      (user : (s.thread p).pc = .user) (plain : pc.plain)
      (exit : ∀ status, pc = .exit status → p ≠ initproc)
      (priority : ∀ n, pc.priority = some n → n.toNat ≤ 100) :
      Effect policy hart0 s (.call c op) (s.goto p pc)
  | sleep {c : C} {chan : Nat} {p : Fin nproc} {startTime : UInt32}
      (cur : s.current c = some (p, startTime)) (active : (s.thread p).switch = none)
      (user : (s.thread p).pc = .user) (lock : s.lock p = none) :
      Effect policy hart0 s (.call c (.sleep chan))
        ((s.modify p fun q => q.asleep (.addr chan)).switchFrom c p startTime .sleep .user)
  | trap {c : C} {p : Fin nproc} {startTime : UInt32}
      (cur : s.current c = some (p, startTime)) (active : (s.thread p).switch = none)
      (user : (s.thread p).pc = .user) (lock : s.lock p = none) :
      Effect policy hart0 s (.call c .trap) (s.modify p fun q => { q with killed := true })
  | resume {c : C} {ok : Bool} {p : Fin nproc} {startTime : UInt32} {how : Switch}
      (cur : s.current c = some (p, startTime)) (inactive : (s.thread p).switch = some how) :
      Effect policy hart0 s (.proc c ok) (s.release p)
  | awake {c : C} {ok : Bool} {p : Fin nproc} {startTime : UInt32} {how : Switch}
      (cur : s.current c = some (p, startTime)) (inactive : (s.thread p).switch = some how) :
      Effect policy hart0 s (.proc c ok) ((s.modify p fun q => { q with chan := none }).release p)
  | thread {c : C} {ok : Bool} {p : Fin nproc} {startTime : UInt32} {t : State C}
      (cur : s.current c = some (p, startTime)) (active : (s.thread p).switch = none)
      (run : ThreadStep s c p startTime t) : Effect policy hart0 s (.proc c ok) t
  | preempt {c : C} {p : Fin nproc} {startTime : UInt32}
      (cur : s.current c = some (p, startTime)) (active : (s.thread p).switch = none)
      (unheld : (s.thread p).pc.holdsWaitLock = false) (lock : s.lock p = none) :
      Effect policy hart0 s (.preempt c)
        ((s.modify p fun q => { q with state := .runnable }).switchFrom c p startTime .yield
          (s.thread p).pc)

variable {policy : Policy} {hart0 : C}

theorem scheduler_effect (off : (s.cpu c).handler = none)
    (run : s.scheduler policy c = some s') : Effect policy hart0 s (.scheduler c) s' := by
  unfold scheduler at run
  split at run
  case h_1 i pc =>
    have before : (s.cpu c).pc.occupant = none := by rw [pc]; rfl
    split at run
    case h_1 p at_ =>
      split_ifs at run with lock state
      · cases run
        exact .dispatch off before lock state (.inl rfl)
      · cases run
        exact .idle off before rfl (.inl rfl) off
    case h_2 =>
      cases run
      exact .idle off before rfl (.inl rfl) off
  case h_2 i lowest selected pc =>
    have before : (s.cpu c).pc.occupant = none := by rw [pc]; rfl
    split at run
    case h_1 p at_ =>
      split_ifs at run with lock state
      · obtain ⟨next, -, rfl⟩ := map_eq_some_iff.1 run
        exact .compared off before rfl rfl off lock state
      · cases run
        exact .idle off before rfl (.inl rfl) off
    case h_2 =>
      split at run
      · cases run
        exact .idle off before rfl (.inl rfl) off
      · cases run
        exact .idle off before rfl (.inr rfl) off
  case h_3 p pc =>
    have before : (s.cpu c).pc.occupant = none := by rw [pc]; rfl
    split_ifs at run with lock state
    · cases run
      exact .dispatch off before lock state (.inr rfl)
    · cases run
      exact .idle off before rfl (.inr rfl) off
  case h_4 => cases run
  case h_5 p st pc =>
    split at run
    · cases run
      exact .leave off rfl pc
    · cases run
      exact .switchedOut off rfl pc

theorem handler_effect {h : Handler} (at_ : (s.cpu c).handler = some h)
    (run : s.handler c h = some s') : Effect policy hart0 s (.handler c) s' := by
  unfold handler at run
  split at run
  case h_1 i =>
    split at run
    case h_1 q found =>
      obtain rfl := slot_some found
      split_ifs at run with lock
      cases run
      exact .updateTime at_ lock
    case h_2 ended =>
      cases run
      exact .updated at_ (slot_none ended)
  case h_2 chan i =>
    split at run
    case h_1 q found =>
      obtain rfl := slot_some found
      obtain ⟨s₁, wake, rfl⟩ := map_eq_some_iff.1 run
      exact .handlerWake at_ wake
    case h_2 ended =>
      cases run
      exact .handled at_

theorem call_effect {op : Call} (cur : s.current c = some (p, st))
    (active : (s.thread p).switch = none) (user : (s.thread p).pc = .user)
    (run : s.call c p st op = some s') : Effect policy hart0 s (.call c op) s' := by
  have move {pc : Pc} (plain : pc.plain) (other : ∀ status, pc ≠ .exit status)
      (priority : ∀ n, pc.priority = some n → n.toNat ≤ 100) :
      Effect policy hart0 s (.call c op) (s.goto p pc) :=
    .call cur active user plain (fun status eq => absurd eq (other status)) priority
  cases op with
  | fork | wait w | kill pid | wakeup chan =>
    cases run
    exact move rfl (by rintro _ ⟨⟩) (by rintro _ ⟨⟩)
  | exit status =>
    simp only [call] at run
    split_ifs at run with first
    cases run
    exact .call cur active user rfl (fun _ _ => first) (by rintro _ ⟨⟩)
  | sleep chan =>
    simp only [call] at run
    split_ifs at run with lock
    cases run
    exact .sleep cur active user lock
  | setpriority pid priority =>
    simp only [call] at run
    split_ifs at run with bad
    · cases run
      have stays := goto_self s p
      rw [user] at stays
      have here := @move .user rfl (by rintro _ ⟨⟩) (by rintro _ ⟨⟩)
      rwa [stays] at here
    · cases run
      refine move rfl (by rintro _ ⟨⟩) ?_
      rintro _ ⟨⟩
      rw [UInt32.toNat_ofNat']
      omega
  | trap =>
    simp only [call] at run
    split_ifs at run with lock
    cases run
    exact .trap cur active user lock

/-- Every step is one of the effects. -/
theorem step_effect {l : Label C} (run : s.step policy hart0 l = some s') :
    Effect policy hart0 s l s' := by
  cases l with
  | scheduler c =>
    simp only [step] at run
    split_ifs at run with off
    exact scheduler_effect (isNone_iff_eq_none.1 off) run
  | interrupt c i =>
    simp only [step] at run
    split_ifs at run with on
    cases run
    unfold interrupt
    split
    · split_ifs with here
      · exact .tick on here
      · exact .timer on
    · exact .device on
  | handler c =>
    obtain ⟨h, at_, run⟩ := bind_eq_some_iff.1 run
    exact handler_effect at_ run
  | call c op =>
    obtain ⟨⟨p, st⟩, cur, run⟩ := bind_eq_some_iff.1 run
    simp only at run
    split_ifs at run with there
    exact call_effect cur (isNone_iff_eq_none.1 there.1) there.2 run
  | proc c ok =>
    obtain ⟨⟨p, st⟩, cur, run⟩ := bind_eq_some_iff.1 run
    simp only at run
    split at run
    case h_1 how inactive =>
      cases how <;> cases run
      · exact .resume cur inactive
      · exact .resume cur inactive
      · exact .awake cur inactive
    · exact .thread cur (by assumption) (continue_threadStep run)
  | preempt c =>
    obtain ⟨⟨p, st⟩, cur, run⟩ := bind_eq_some_iff.1 run
    simp only [yield] at run
    split_ifs at run with there lock
    cases run
    simp only [isNone_iff_eq_none, Bool.not_eq_true'] at there
    exact .preempt cur there.1 there.2 lock

end State
end Xv6.Sched
