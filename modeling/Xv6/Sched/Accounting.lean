import Xv6.Sched.OneCpu
import Xv6.Sched.Slots

/-!
# Running times

`clockintr` counts a tick and then goes through the slots; meanwhile the other CPUs go on.
A process that is created after the tick has been counted and is running when its slot is
reached is charged a tick of which it has not lived any part.  When it exits before the next
tick its `rtime` is larger than `etime - ctime`, and `waitx` reports a waiting time near
`2 ^ 32`.
-/

namespace Xv6.Sched

namespace State

variable {C : Type} {policy : Policy} {hart0 c : C} {s s' : State C} {l : Label C} {q : Fin nproc}

/-- The current tick has been counted, and the slot has not been reached yet. -/
def pending (hart0 : C) (s : State C) (q : Fin nproc) : Bool :=
  match (s.cpu hart0).handler with
  | some (.updateTime i) => decide (i ≤ q)
  | _ => false

/-- How long a process has existed, in ticks. -/
def age (s : State C) (q : Fin nproc) : Nat := (s.ticks - (s.proc q).ctime).toNat

/-- The slot holds a process that has not exited. -/
def Alive (r : Proc) : Prop := r.state ≠ .unused ∧ r.state ≠ .zombie

instance (r : Proc) : Decidable (Alive r) :=
  inferInstanceAs (Decidable (r.state ≠ .unused ∧ r.state ≠ .zombie))

/-- A running process that the handler is about to charge was created before the tick. -/
def ChargesOlder (s : State C) : Option Handler → Prop
  | some (.updateTime i) =>
    ∀ q, slot i = some q → (s.proc q).state = .running → (s.proc q).ctime ≠ s.ticks
  | _ => True

instance (s : State C) : (h : Option Handler) → Decidable (s.ChargesOlder h)
  | some (.updateTime i) => inferInstanceAs (Decidable (∀ q, slot i = some q →
      (s.proc q).state = .running → (s.proc q).ctime ≠ s.ticks))
  | some (.wakeup _ _) => isTrue trivial
  | none => isTrue trivial

/-- The conditions on a step: a running process that is charged for a tick was created
before it, and no process gets `2 ^ 32` ticks old. -/
def Timely (s : State C) : Label C → Prop
  | .handler c => s.ChargesOlder (s.cpu c).handler
  | .interrupt _ .timer => ∀ q, Alive (s.proc q) → s.age q + 1 < 2 ^ 32
  | _ => True

instance (s : State C) : (l : Label C) → Decidable (s.Timely l)
  | .handler c => inferInstanceAs (Decidable (s.ChargesOlder (s.cpu c).handler))
  | .interrupt _ .timer =>
    inferInstanceAs (Decidable (∀ q, Alive (s.proc q) → s.age q + 1 < 2 ^ 32))
  | .interrupt _ (.device _) | .scheduler _ | .call _ _ | .proc _ _ | .preempt _ => isTrue trivial

/-- Every zombie was charged for no more ticks than it has lived. -/
def ZombieTimes (s : State C) : Prop :=
  ∀ q, (s.proc q).state = .zombie →
    (s.proc q).rtime ≤ (s.proc q).etime - (s.proc q).ctime ∧
    (s.proc q).waitTimes.2.toNat =
      ((s.proc q).etime - (s.proc q).ctime).toNat - (s.proc q).rtime.toNat

/-- A process that exists has been charged for no more ticks than it has lived, counting
the one that it is still to be charged for. -/
structure TimeInv (hart0 : C) (s : State C) : Prop where
  clock : ∀ c i, (s.cpu c).handler = some (.updateTime i) → c = hart0
  live : ∀ q, Alive (s.proc q) → (s.proc q).rtime.toNat +
    (if s.pending hart0 q ∧ (s.proc q).ctime ≠ s.ticks then 1 else 0) ≤ s.age q
  dead : ∀ q, (s.proc q).state = .zombie →
    (s.proc q).rtime ≤ (s.proc q).etime - (s.proc q).ctime

/-- What a change of a slot does to its times: nothing, unless a process is created, exits
or is charged. -/
inductive Charge (s : State C) (q : Fin nproc) : Proc → Prop
  | none {r : Proc} (rtime : r.rtime = (s.proc q).rtime) (ctime : r.ctime = (s.proc q).ctime)
      (alive : Alive r → Alive (s.proc q))
      (zombie : r.state = .zombie → (s.proc q).state = .zombie ∧ r.etime = (s.proc q).etime) :
      Charge s q r
  | free {r : Proc} (unused : r.state = .unused) : Charge s q r
  | created {r : Proc} (rtime : r.rtime = 0) (ctime : r.ctime = s.ticks) (used : r.state = .used) :
      Charge s q r
  | exited {r : Proc} (rtime : r.rtime = (s.proc q).rtime) (ctime : r.ctime = (s.proc q).ctime)
      (alive : Alive (s.proc q)) (zombie : r.state = .zombie) (etime : r.etime = s.ticks) :
      Charge s q r

theorem alive_of_running (running : (s.proc q).state = .running) : Alive (s.proc q) := by
  rw [Alive, running]
  decide

theorem Edit.charge {r : Proc} (inv : s.Inv) (edit : Edit policy s q l r)
    (other : ∀ c, l = .handler c → (s.cpu c).handler ≠ some (.updateTime q)) : Charge s q r := by
  have runs {c : C} {st : UInt32} (cur : s.current c = some (q, st)) : Alive (s.proc q) :=
    alive_of_running (current_running inv cur)
  have runnable (state : (s.proc q).state = .runnable) : Alive (s.proc q) := by
    rw [Alive, state]
    decide
  cases edit with
  | same | parent => exact .none rfl rfl id fun zombie => ⟨zombie, rfl⟩
  | run state | dispatched state => exact .none rfl rfl (fun _ => runnable state) (by rintro ⟨⟩)
  | asleep cur | yielded cur => exact .none rfl rfl (fun _ => runs cur) (by rintro ⟨⟩)
  | awake cur | trapped cur => exact .none rfl rfl id fun zombie => ⟨zombie, rfl⟩
  | switchedOut =>
    obtain ⟨_, _, _, _, eq⟩ := Proc.switchedOut_frame (s.proc q) _ _
    rw [eq]
    exact .none rfl rfl id fun zombie => ⟨zombie, rfl⟩
  | prioritized =>
    obtain ⟨_, _, eq⟩ := Proc.prioritized_frame (s.proc q) _
    rw [eq]
    exact .none rfl rfl id fun zombie => ⟨zombie, rfl⟩
  | updateStats handler => exact absurd handler (other _ rfl)
  | woken lock =>
    unfold Proc.woken
    split_ifs with asleep
    · exact .none rfl rfl (fun _ => by rw [Alive, asleep.1]; decide) (by rintro ⟨⟩)
    · exact .none rfl rfl id fun zombie => ⟨zombie, rfl⟩
  | created => exact .created rfl rfl rfl
  | refused | freed => exact .free rfl
  | start pc =>
    exact .none rfl rfl (fun _ => by rw [Alive, inv.child _ q (by rw [pc]; rfl)]; decide)
      (by rintro ⟨⟩)
  | exited cur => exact .exited rfl rfl (runs cur) rfl rfl
  | marked =>
    unfold Proc.marked
    split_ifs with asleep
    · exact .none rfl rfl (fun _ => by rw [Alive, asleep]; decide) (by rintro ⟨⟩)
    · exact .none rfl rfl id fun zombie => ⟨zombie, rfl⟩

theorem TimeInv.quiet (time : s.TimeInv hart0) (ticks : s'.ticks = s.ticks)
    (handlers : ∀ c i, (s'.cpu c).handler = some (.updateTime i) →
      (s.cpu c).handler = some (.updateTime i))
    (pending : ∀ q, s'.pending hart0 q → s.pending hart0 q)
    (charge : ∀ q, Charge s q (s'.proc q)) : s'.TimeInv hart0 := by
  refine ⟨fun c i at_ => time.clock c i (handlers c i at_), fun q alive => ?_, fun q zombie => ?_⟩
  · have held := pending q
    unfold age
    rw [ticks]
    cases charge q with
    | none rtime ctime live _ =>
      have bound := time.live q (live alive)
      unfold age at bound
      rw [rtime, ctime]
      split_ifs with owed
      · rwa [if_pos ⟨held owed.1, owed.2⟩] at bound
      · omega
    | free unused => exact absurd unused alive.1
    | created rtime ctime used =>
      rw [rtime, ctime, if_neg (by simp)]
      simp
    | exited rtime ctime live zombie => exact absurd zombie alive.2
  · cases charge q with
    | none rtime ctime live dead =>
      obtain ⟨before, etime⟩ := dead zombie
      rw [rtime, ctime, etime]
      exact time.dead q before
    | free unused => exact absurd (unused.symm.trans zombie) (by decide)
    | created rtime ctime used => exact absurd (used.symm.trans zombie) (by decide)
    | exited rtime ctime live _ etime =>
      have bound := time.live q live
      rw [rtime, ctime, etime, UInt32.le_iff_toNat_le]
      unfold age at bound
      omega

/-- The tick is counted. -/
theorem TimeInv.tick (time : s.TimeInv hart0) (ticks : s'.ticks = s.ticks + 1)
    (handlers : ∀ c i, (s'.cpu c).handler = some (.updateTime i) → c = hart0 ∨
      (s.cpu c).handler = some (.updateTime i)) (procs : s'.proc = s.proc)
    (young : ∀ q, Alive (s.proc q) → s.age q + 1 < 2 ^ 32) : s'.TimeInv hart0 := by
  refine ⟨fun c i at_ => (handlers c i at_).elim id (time.clock c i), fun q alive => ?_,
    fun q zombie => ?_⟩
  · rw [procs] at alive
    have bound := time.live q alive
    have older := young q alive
    have grown : s'.age q = s.age q + 1 := by
      unfold age at older ⊢
      rw [procs, ticks]
      simp only [UInt32.toNat_sub, UInt32.toNat_add] at older ⊢
      have := (s.proc q).ctime.toNat_lt
      have := s.ticks.toNat_lt
      have one : (1 : UInt32).toNat = 1 := rfl
      omega
    rw [grown, procs]
    split_ifs at bound ⊢ <;> omega
  · rw [procs] at zombie ⊢
    exact time.dead q zombie

variable [DecidableEq C]

/-- What a step does to the clock. -/
inductive ClockStep (hart0 : C) (s s' : State C) : Label C → Prop
  | quiet {l : Label C} (ticks : s'.ticks = s.ticks)
      (handlers : ∀ c i, (s'.cpu c).handler = some (.updateTime i) →
        (s.cpu c).handler = some (.updateTime i))
      (pending : ∀ q, s'.pending hart0 q → s.pending hart0 q)
      (other : ∀ c (q : Fin nproc), l = .handler c → (s.cpu c).handler ≠ some (.updateTime q)) :
      ClockStep hart0 s s' l
  | tick (ticks : s'.ticks = s.ticks + 1)
      (handlers : ∀ c i, (s'.cpu c).handler = some (.updateTime i) → c = hart0 ∨
        (s.cpu c).handler = some (.updateTime i))
      (procs : s'.proc = s.proc) : ClockStep hart0 s s' (.interrupt hart0 .timer)
  | update {c : C} {q : Fin nproc} (at_ : (s.cpu c).handler = some (.updateTime q))
      (result : s' = (s.modify q Proc.updateStats).setCpu c
        { s.cpu c with handler := some (.updateTime (q + 1)) }) :
      ClockStep hart0 s s' (.handler c)

/-- A step after which every handler that charges a tick is where it was. -/
theorem clock_quiet (ticks : s'.ticks = s.ticks)
    (handlers : ∀ c, (s'.cpu c).handler = (s.cpu c).handler)
    (other : ∀ c, l ≠ .handler c) : ClockStep hart0 s s' l := by
  refine .quiet ticks (fun c i at_ => ?_) (fun q held => ?_) fun c q eq => absurd eq (other c)
  · rwa [handlers] at at_
  · rw [pending, handlers] at held
    exact held

/-- A step of a handler that charges no slot. -/
theorem clock_handler {h : Option Handler} (ticks : s'.ticks = s.ticks)
    (cpu : s'.cpu = Function.update s.cpu c { s.cpu c with handler := h })
    (after : ∀ i, h ≠ some (.updateTime i))
    (before : ∀ q : Fin nproc, (s.cpu c).handler ≠ some (.updateTime q))
    (label : ∀ c', l = .handler c' → c' = c) : ClockStep hart0 s s' l := by
  refine .quiet ticks (fun c' i at_ => ?_) (fun q held => ?_) fun c' q eq => label c' eq ▸ before q
  · rw [cpu, Function.update_apply] at at_
    split_ifs at at_ with here
    · exact absurd at_ (after i)
    · exact at_
  · rw [pending, cpu, Function.update_apply] at held
    split_ifs at held with here
    · cases h with
      | none => cases held
      | some h =>
        cases h with
        | updateTime i => exact absurd rfl (after i)
        | wakeup chan i => cases held
    · exact held

omit [DecidableEq C] in
theorem wakeSlot_ticks {me : Option (Fin nproc)} {chan : Option Chan}
    (wake : s.wakeSlot me chan q = some s') : s'.ticks = s.ticks ∧ s'.cpu = s.cpu := by
  obtain ⟨-, rfl⟩ | ⟨-, -, rfl⟩ := wakeSlot_cases wake <;> exact ⟨rfl, rfl⟩

theorem update_handler {c' : C} {cpu : Cpu} (same : cpu.handler = (s.cpu c).handler) :
    (Function.update s.cpu c cpu c').handler = (s.cpu c').handler := by
  rw [Function.update_apply]
  split_ifs with here
  · rw [same, here]
  · rfl

theorem ThreadStep.clock {p : Fin nproc} {st : UInt32} (run : s.ThreadStep c p st s') :
    s'.ticks = s.ticks ∧ ∀ c', (s'.cpu c').handler = (s.cpu c').handler := by
  cases run with
  | @alloc np ok => cases ok <;> exact ⟨rfl, fun _ => rfl⟩
  | wakeInit pc wake | wakeParent pc wake | wakeup pc wake =>
    obtain ⟨ticks, cpu⟩ := wakeSlot_ticks wake
    exact ⟨ticks, fun c' => by rw [← cpu]; rfl⟩
  | scan =>
    unfold waitSlot
    split_ifs <;> exact ⟨rfl, fun _ => rfl⟩
  | zombie | sleep | yield => exact ⟨rfl, fun _ => update_handler rfl⟩
  | _ => exact ⟨rfl, fun _ => rfl⟩

theorem Effect.clock (effect : Effect policy hart0 s l s') : ClockStep hart0 s s' l := by
  cases effect with
  | idle off _ _ _ handler | compared off _ _ _ handler =>
    exact clock_quiet rfl (fun _ => update_handler (handler.trans off.symm)) (by rintro _ ⟨⟩)
  | dispatch | leave | switchedOut | sleep | preempt =>
    exact clock_quiet rfl (fun _ => update_handler rfl) (by rintro _ ⟨⟩)
  | tick on here =>
    subst here
    refine .tick rfl (fun c' i at_ => ?_) rfl
    simp only [setCpu, Function.update_apply] at at_
    split_ifs at at_ with here
    · exact .inl here
    · exact .inr at_
  | device on =>
    exact clock_handler rfl rfl (by rintro _ ⟨⟩) (by simp [interruptible_off on]) (by rintro _ ⟨⟩)
  | updateTime at_ lock => exact .update at_ rfl
  | handlerWake at_ wake =>
    obtain ⟨ticks, cpu⟩ := wakeSlot_ticks wake
    refine clock_handler ticks (by rw [← cpu]; rfl) (by rintro _ ⟨⟩) (by simp [at_]) ?_
    rintro _ ⟨⟩
    rfl
  | @updated c i at_ last =>
    refine clock_handler rfl rfl (by rintro _ ⟨⟩) (fun q at' => ?_) ?_
    · rw [at_] at at'
      cases at'
      omega
    · rintro _ ⟨⟩
      rfl
  | handled at_ =>
    refine clock_handler rfl rfl (by rintro _ ⟨⟩) (by simp [at_]) ?_
    rintro _ ⟨⟩
    rfl
  | timer | call | trap | resume | awake => exact clock_quiet rfl (fun _ => rfl) (by rintro _ ⟨⟩)
  | thread cur active run =>
    obtain ⟨ticks, handlers⟩ := run.clock
    exact clock_quiet ticks handlers (by rintro _ ⟨⟩)

omit [DecidableEq C] in
/-- Only a running process is charged. -/
theorem Proc.updateStats_times (r : Proc) :
    r.updateStats.ctime = r.ctime ∧ r.updateStats.etime = r.etime ∧
      (r.state ≠ .running → r.updateStats.rtime = r.rtime) := by
  unfold Proc.updateStats
  split
  · exact ⟨rfl, rfl, fun stopped => absurd ‹_› stopped⟩
  all_goals exact ⟨rfl, rfl, fun _ => rfl⟩

/-- A slot is charged for the tick. -/
theorem TimeInv.update {q : Fin nproc} (time : s.TimeInv hart0)
    (at_ : (s.cpu c).handler = some (.updateTime q))
    (older : (s.proc q).state = .running → (s.proc q).ctime ≠ s.ticks) :
    ((s.modify q Proc.updateStats).setCpu c
      { s.cpu c with handler := some (.updateTime (q + 1)) }).TimeInv hart0 := by
  obtain rfl := time.clock c q at_
  generalize result : (s.modify q Proc.updateStats).setCpu c
    { s.cpu c with handler := some (.updateTime (q + 1)) } = s'
  have before (r : Fin nproc) : s.pending c r = decide (q ≤ r) := by
    rw [pending, at_]
    rfl
  have after (r : Fin nproc) : s'.pending c r = decide (q.val + 1 ≤ r) := by
    simp [← result, pending, setCpu]
  have self : s'.proc q = (s.proc q).updateStats := by simp [← result, setCpu, modify]
  have others (r : Fin nproc) (other : r ≠ q) : s'.proc r = s.proc r := by
    simp [← result, setCpu, modify, other]
  have ticks : s'.ticks = s.ticks := by rw [← result]; rfl
  obtain ⟨ctime, etime, uncharged⟩ := Proc.updateStats_times (s.proc q)
  refine ⟨fun c' i at' => ?_, fun r alive => ?_, fun r zombie => ?_⟩
  · by_contra other
    simp only [← result, setCpu, modify, Function.update_of_ne other] at at'
    exact other (time.clock c' i at')
  · rw [after, age, ticks]
    by_cases here : r = q
    · subst here
      rw [self, Alive, Proc.updateStats_state] at alive
      have bound := time.live r alive
      rw [before, age] at bound
      rw [self, ctime, if_neg (by simp)]
      by_cases running : (s.proc r).state = .running
      · -- the charge that was still owed
        rw [if_pos ⟨by simp, older running⟩] at bound
        have charged : (s.proc r).updateStats.rtime = (s.proc r).rtime + 1 := by
          simp [Proc.updateStats, running]
        have one : (1 : UInt32).toNat = 1 := rfl
        rw [charged, UInt32.toNat_add]
        omega
      · rw [uncharged running]
        omega
    · rw [others r here] at alive ⊢
      have bound := time.live r alive
      rw [before, age] at bound
      split_ifs at bound ⊢ with later now
      · exact bound
      · have slot := of_decide_eq_true later.1
        exact absurd ⟨decide_eq_true (Fin.le_def.2 (by omega)), later.2⟩ now
      · omega
      · exact bound
  · by_cases here : r = q
    · subst here
      rw [self, Proc.updateStats_state] at zombie
      rw [self, ctime, etime, uncharged (by rw [zombie]; decide)]
      exact time.dead r zombie
    · rw [others r here] at zombie ⊢
      exact time.dead r zombie

theorem TimeInv.step (time : s.TimeInv hart0) (inv : s.Inv) (timely : s.Timely l)
    (taken : s.step policy hart0 l = some s') : s'.TimeInv hart0 := by
  have effect := step_effect taken
  cases effect.clock with
  | quiet ticks handlers pending other =>
    exact time.quiet ticks handlers pending fun q =>
      (effect.edit q).charge inv fun c eq => other c q eq
  | tick ticks handlers procs => exact time.tick ticks handlers procs timely
  | @update c q at_ result =>
    rw [result]
    refine time.update at_ ?_
    rw [Timely, at_] at timely
    exact timely q (by simp [slot])

omit [DecidableEq C]

theorem TimeInv.boot : (boot C policy).TimeInv hart0 := by
  refine ⟨by rintro _ _ ⟨⟩, fun q alive => ?_, fun q zombie => ?_⟩
  · have none : ((Sched.boot C policy).proc q).rtime = 0 := by
      rw [boot_proc]
      split_ifs <;> rfl
    rw [none]
    exact Nat.zero_le _
  · rw [boot_proc] at zombie
    split_ifs at zombie
    cases zombie

theorem TimeInv.zombieTimes (time : s.TimeInv hart0) : s.ZombieTimes := by
  intro q zombie
  have bound := time.dead q zombie
  refine ⟨bound, ?_⟩
  simp only [Proc.waitTimes]
  exact UInt32.toNat_sub_of_le _ _ bound

end State

open State Transitions

/-- In every run after boot whose steps are timely, the times of every zombie add up. -/
theorem zombie_times {C : Type} [DecidableEq C] {policy : Policy} {hart0 : C}
    {ls : List (Label C)} {s : State C}
    (timely : Meets (step policy hart0) Timely (boot C policy) ls)
    (run : exec (step policy hart0) (boot C policy) ls = some s) : s.ZombieTimes := by
  have kept := run_meets_invariant (fun s => s.Inv ∧ s.TimeInv hart0)
    (fun s l s' inv timely taken =>
      ⟨(step_effect taken).inv inv.1, inv.2.step inv.1 timely taken⟩)
    ⟨.boot policy, .boot⟩ timely run
  exact kept.2.zombieTimes

section

variable {C : Type}

/-- The process on CPU `c` takes `n` steps. -/
def goOn (c : C) (n : Nat) : List (Label C) := List.replicate n (.proc c true)

/-- The first process, on CPU `c`, forks; the child runs, is charged for a tick on hart 0 and
exits. -/
def chargedRun (hart0 c : C) : List (Label C) :=
  List.flatten [[.scheduler c, .proc c true, .call c .fork], goOn c 4,
    [.preempt c, .scheduler c, .scheduler c, .proc c true, .interrupt hart0 .timer, .handler hart0,
      .handler hart0, .call c (.exit 7)], goOn c 132]

/-- The same, when the tick is counted before the fork and reaches the slot after it. -/
def unbornRun (hart0 c : C) : List (Label C) :=
  List.flatten [[.scheduler c, .proc c true, .interrupt hart0 .timer, .handler hart0,
    .call c .fork],
    goOn c 4, [.preempt c, .scheduler c, .scheduler c, .proc c true, .handler hart0,
      .call c (.exit 7)],
    goOn c 132]

/-- The first process comes back and calls `waitx`. -/
def waitxRun (c : C) : List (Label C) :=
  List.flatten [List.replicate 65 (.scheduler c),
    [.proc c true, .call c (.wait ⟨false, true⟩)], goOn c 3]

end

/-- A process that has lived for the tick that it is charged for. -/
theorem zombie_times_charged : ∃ s : State (Fin 2),
    exec (step .rr 0) (boot (Fin 2) .rr) (chargedRun 0 1) = some s ∧ (s.proc 1).state = .zombie ∧
    (s.proc 1).rtime = 1 ∧ s.ZombieTimes := by
  exact exists_exec (fun s => (s.proc 1).state = .zombie ∧ (s.proc 1).rtime = 1)
    (by decide +kernel) fun s run ⟨zombie, rtime⟩ =>
      ⟨zombie, rtime, zombie_times (by decide +kernel) run⟩

/-- A process that is charged for a tick that was counted before it was created: `waitx`
reports a waiting time of `2 ^ 32 - 1`. -/
theorem charged_unborn : ∃ s s' : State (Fin 2),
    exec (step .rr 0) (boot (Fin 2) .rr) (unbornRun 0 1) = some s ∧ (s.proc 1).state = .zombie ∧
    ¬ (s.proc 1).rtime ≤ (s.proc 1).etime - (s.proc 1).ctime ∧
    exec (step .rr 0) s (waitxRun 1) = some s' ∧ .times 1 4294967295 ∈ s'.events := by
  have pass : (exec (step .rr (0 : Fin 2)) (boot (Fin 2) .rr) (unbornRun 0 1)).any (fun s =>
      decide ((s.proc 1).state = .zombie ∧
        ¬ (s.proc 1).rtime ≤ (s.proc 1).etime - (s.proc 1).ctime) &&
      (exec (step .rr 0) s (waitxRun 1)).any fun s' => .times 1 4294967295 ∈ s'.events) = true := by
    decide +kernel
  obtain ⟨s, run, test⟩ := (Option.any_eq_true _ _).1 pass
  obtain ⟨times, test⟩ := Bool.and_eq_true_iff.1 test
  obtain ⟨s', wait, test⟩ := (Option.any_eq_true _ _).1 test
  obtain ⟨zombie, more⟩ := of_decide_eq_true times
  exact ⟨s, s', run, zombie, more, wait, of_decide_eq_true test⟩

end Xv6.Sched
