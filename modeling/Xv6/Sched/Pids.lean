import Xv6.Sched.Lifecycle

/-!
# Pids, exits and waits

`nextpid` gives every process a pid of its own until it wraps.  The events of a run show the
end of a process: the `exit` that leaves a zombie with its status, and the `wait` or `waitx`
of its parent that frees the slot, after which the pid does not come back.
-/

namespace Xv6.Sched

open List

/-- A `wait` or `waitx` returned a pid. -/
def Event.reaps (pid : Int) : Event → Bool
  | .reaped _ n _ => n = pid
  | _ => false

/-- The event neither ends a process nor reports its end. -/
def Event.silent : Event → Bool
  | .exited .. | .reaped .. => false
  | _ => true

/-- Pids are distinct before the counter wraps. -/
theorem cInt_inj {m n : Nat} (hm : m < 2 ^ 32) (hn : n < 2 ^ 32) (eq : cInt m = cInt n) :
    m = n := by
  unfold cInt at eq
  have hm' := Int.bmod_emod (x := m) (m := 2 ^ 32)
  have hn' := Int.bmod_emod (x := n) (m := 2 ^ 32)
  rw [eq, hn'] at hm'
  omega

namespace State

variable {C : Type} {s s' : State C} {c : C} {p q np : Fin nproc} {st : UInt32}
  {me : Option (Fin nproc)} {chan : Option Chan} {e : Event} {status : Int}

/-- A pid that `allocpid` has returned. -/
def Issued (s : State C) (pid : Int) : Prop := ∃ n, n < s.nextpid ∧ pid = cInt n

/-- The invariant of pids and of the ends of processes. -/
structure Pids (s : State C) : Prop where
  issued : ∀ p, (s.proc p).state ≠ .unused → s.Issued (s.proc p).pid
  distinct : ∀ p q, (s.proc p).state ≠ .unused → (s.proc q).state ≠ .unused →
    (s.proc p).pid = (s.proc q).pid → p = q
  zombie : ∀ p, (s.proc p).state = .zombie →
    .exited (s.proc p).pid (s.proc p).xstate ∈ s.events
  exited_issued : ∀ pid status, .exited pid status ∈ s.events → s.Issued pid
  exited_zombie : ∀ p status, (s.proc p).state ≠ .unused →
    .exited (s.proc p).pid status ∈ s.events → (s.proc p).state = .zombie
  exited_once : ∀ pid status status', .exited pid status ∈ s.events →
    .exited pid status' ∈ s.events → status = status'
  reaped_exited : ∀ r pid status, .reaped r pid status ∈ s.events →
    .exited pid status ∈ s.events
  reaped_gone : ∀ r p status, (s.proc p).state ≠ .unused →
    .reaped r (s.proc p).pid status ∉ s.events
  reaped_once : ∀ pid, s.events.countP (Event.reaps pid) ≤ 1

/-- The process in a slot is the same and has not ended. -/
structure Keeps (r r' : Proc) : Prop where
  pid : r'.pid = r.pid
  xstate : r'.xstate = r.xstate
  unused : r'.state = .unused ↔ r.state = .unused
  zombie : r'.state = .zombie ↔ r.state = .zombie

/-- A step that issues no pid and ends no process. -/
structure Quiet (s s' : State C) : Prop where
  nextpid : s'.nextpid = s.nextpid
  events : s'.events = s.events ∨ ∃ e : Event, e.silent ∧ s'.events = e :: s.events
  slots : ∀ q, Keeps (s.proc q) (s'.proc q)

/-- `allocpid` for a slot, which is then in use or free again. -/
structure Allocs (s : State C) (np : Fin nproc) (s' : State C) : Prop where
  nextpid : s'.nextpid = s.nextpid + 1
  events : s'.events = s.events ∨ ∃ e : Event, e.silent ∧ s'.events = e :: s.events
  alive : (s'.proc np).state ≠ .zombie
  numbered : (s'.proc np).state ≠ .unused → (s'.proc np).pid = cInt s.nextpid
  others : ∀ q, q ≠ np → s'.proc q = s.proc q

/-- A process exits. -/
structure Exits (s : State C) (p : Fin nproc) (status : Int) (s' : State C) : Prop where
  running : (s.proc p).state = .running
  nextpid : s'.nextpid = s.nextpid
  events : s'.events = .exited (s.proc p).pid status :: s.events
  slot : (s'.proc p).pid = (s.proc p).pid ∧ (s'.proc p).xstate = status ∧
    (s'.proc p).state = .zombie
  others : ∀ q, q ≠ p → s'.proc q = s.proc q

/-- `wait` or `waitx` returns a zombie to its parent and frees its slot. -/
structure Reaps (s : State C) (p q : Fin nproc) (s' : State C) : Prop where
  zombie : (s.proc q).state = .zombie
  child : (s.proc q).parent = some p
  nextpid : s'.nextpid = s.nextpid
  events : s'.events = .reaped p (s.proc q).pid (s.proc q).xstate :: s.events ∨
    ∃ e : Event, e.silent ∧ s'.events = e :: .reaped p (s.proc q).pid (s.proc q).xstate :: s.events
  unused : (s'.proc q).state = .unused
  others : ∀ r, r ≠ q → s'.proc r = s.proc r

/-- What a step is to the pids. -/
inductive Turn (s s' : State C) : Prop
  | quiet (quiet : Quiet s s')
  | allocs (np : Fin nproc) (allocs : Allocs s np s')
  | exits (p : Fin nproc) (status : Int) (exits : Exits s p status s')
  | reaps {p q : Fin nproc} (reaps : Reaps s p q s')

theorem Keeps.refl (r : Proc) : Keeps r r := ⟨rfl, rfl, .rfl, .rfl⟩

/-- A process that is not ended stays so. -/
theorem Keeps.lives {r r' : Proc} (pid : r'.pid = r.pid) (xstate : r'.xstate = r.xstate)
    (before : Lives r) (after : Lives r') : Keeps r r' :=
  ⟨pid, xstate, by simp [before.1.1, after.1.1], by simp [before.2, after.2]⟩

theorem keeps_modify {f : Proc → Proc} (keeps : Keeps (s.proc q) (f (s.proc q))) (r : Fin nproc) :
    Keeps (s.proc r) ((s.modify q f).proc r) := by
  simp only [modify, Function.update_apply]
  split_ifs with same
  · subst same
    exact keeps
  · exact .refl _

theorem keeps_wakeSlot (wake : s.wakeSlot me chan q = some s') (r : Fin nproc) :
    Keeps (s.proc r) (s'.proc r) := by
  obtain ⟨-, rfl⟩ | ⟨-, -, rfl⟩ := wakeSlot_cases wake
  · exact .refl _
  · refine keeps_modify ?_ r
    rcases Proc.woken_cases (s.proc q) chan with eq | ⟨asleep, -, eq⟩
    · rw [eq]
      exact .refl _
    · rw [eq]
      exact .lives rfl rfl (by simp [Lives, Born, asleep]) (by simp [Lives, Born])

theorem wakeSlot_events (wake : s.wakeSlot me chan q = some s') :
    s'.nextpid = s.nextpid ∧ s'.events = s.events := by
  obtain ⟨-, rfl⟩ | ⟨-, -, rfl⟩ := wakeSlot_cases wake <;> exact ⟨rfl, rfl⟩

theorem countP_silent (silent : e.silent) (pid : Int) (es : List Event) :
    (e :: es).countP (Event.reaps pid) = es.countP (Event.reaps pid) := by
  refine countP_cons_of_neg ?_
  cases e with
  | exited | reaped => cases silent
  | forked | times | created | prioritized | switchedOut | compared => simp [Event.reaps]

section

variable {es es' : List Event} (added : es' = es ∨ ∃ x : Event, x.silent ∧ es' = x :: es)
include added

/-- The ends of processes among some events and at most one that is silent. -/
theorem mem_quiet (ends : e.silent = false) : e ∈ es' ↔ e ∈ es := by
  rcases added with rfl | ⟨x, silent, rfl⟩
  · rfl
  · have ne : e ≠ x := by
      rintro rfl
      rw [ends] at silent
      cases silent
    simp [ne]

theorem count_quiet (pid : Int) : es'.countP (Event.reaps pid) = es.countP (Event.reaps pid) := by
  rcases added with rfl | ⟨x, silent, rfl⟩
  · rfl
  · exact countP_silent silent pid es

end

attribute [local grind cases eager] Pids

namespace Pids

theorem quiet (pids : s.Pids) (quiet : Quiet s s') : s'.Pids := by
  have issued (pid : Int) : s'.Issued pid ↔ s.Issued pid := by rw [Issued, Issued, quiet.nextpid]
  have exits (pid status : Int) : .exited pid status ∈ s'.events ↔ .exited pid status ∈ s.events :=
    mem_quiet quiet.events rfl
  have reaps (r : Fin nproc) (pid status : Int) :
      .reaped r pid status ∈ s'.events ↔ .reaped r pid status ∈ s.events :=
        mem_quiet quiet.events rfl
  have pid (p : Fin nproc) := (quiet.slots p).pid
  have xstate (p : Fin nproc) := (quiet.slots p).xstate
  have unused (p : Fin nproc) := (quiet.slots p).unused
  have zombie (p : Fin nproc) := (quiet.slots p).zombie
  constructor
  case reaped_once =>
    intro pid
    rw [count_quiet quiet.events]
    exact pids.reaped_once pid
  all_goals grind

theorem allocs (pids : s.Pids) (few : s'.nextpid ≤ 2 ^ 32) (allocs : Allocs s np s') : s'.Pids := by
  obtain ⟨next, events, alive, numbered, others⟩ := allocs
  have fresh : ¬ s.Issued (cInt s.nextpid) := by
    rintro ⟨n, lt, eq⟩
    have := cInt_inj (by omega) (by omega) eq
    omega
  have new : s'.Issued (cInt s.nextpid) := ⟨s.nextpid, by omega, rfl⟩
  have issues (pid : Int) (before : s.Issued pid) : s'.Issued pid := by
    obtain ⟨n, lt, eq⟩ := before
    exact ⟨n, by omega, eq⟩
  have exits (pid status : Int) : .exited pid status ∈ s'.events ↔ .exited pid status ∈ s.events :=
    mem_quiet events rfl
  have reaps (r : Fin nproc) (pid status : Int) :
      .reaped r pid status ∈ s'.events ↔ .reaped r pid status ∈ s.events := mem_quiet events rfl
  constructor
  case reaped_once =>
    intro pid
    rw [count_quiet events]
    exact pids.reaped_once pid
  all_goals grind

theorem exits (pids : s.Pids) (exits : Exits s p status s') : s'.Pids := by
  obtain ⟨running, next, events, ⟨pid, xstate, zombie⟩, others⟩ := exits
  have issued (pid : Int) : s'.Issued pid ↔ s.Issued pid := by rw [Issued, Issued, next]
  have exits (n status' : Int) : .exited n status' ∈ s'.events ↔
      n = (s.proc p).pid ∧ status' = status ∨ .exited n status' ∈ s.events := by simp [events]
  have reaps (r : Fin nproc) (n status' : Int) :
      .reaped r n status' ∈ s'.events ↔ .reaped r n status' ∈ s.events := by simp [events]
  constructor
  case reaped_once =>
    intro n
    rw [events, countP_cons_of_neg (by simp [Event.reaps])]
    exact pids.reaped_once n
  all_goals grind

theorem reaps (pids : s.Pids) (reaps : Reaps s p q s') : s'.Pids := by
  obtain ⟨zombie, -, next, events, unused, others⟩ := reaps
  have issued (pid : Int) : s'.Issued pid ↔ s.Issued pid := by rw [Issued, Issued, next]
  have exits (pid status : Int) :
      .exited pid status ∈ s'.events ↔ .exited pid status ∈ s.events := by
    rw [mem_quiet events rfl]
    simp
  have reaps (r : Fin nproc) (pid status : Int) : .reaped r pid status ∈ s'.events ↔
      r = p ∧ pid = (s.proc q).pid ∧ status = (s.proc q).xstate ∨
        .reaped r pid status ∈ s.events := by
    rw [mem_quiet events rfl]
    simp
  have never : s.events.countP (Event.reaps (s.proc q).pid) = 0 := by
    rw [countP_eq_zero]
    intro e there reaps
    cases e with
    | reaped r pid status =>
      have eq : pid = (s.proc q).pid := by simpa [Event.reaps] using reaps
      rw [eq] at there
      exact pids.reaped_gone r q status (by rw [zombie]; decide) there
    | exited | forked | times | created | prioritized | switchedOut | compared => cases reaps
  constructor
  case reaped_once =>
    intro pid
    rw [count_quiet events, countP_cons]
    split_ifs with same
    · have eq : (s.proc q).pid = pid := by simpa [Event.reaps] using same
      rw [← eq, never]
    · exact pids.reaped_once pid
  all_goals grind

theorem boot (policy : Policy) : (boot C policy).Pids := by
  have slots := boot_proc C policy
  have live (p : Fin nproc) (used : ((Sched.boot C policy).proc p).state ≠ .unused) :
      p = initproc := by
    by_contra other
    rw [slots, if_neg other] at used
    exact used rfl
  constructor
  case issued =>
    intro p used
    rw [slots, if_pos (live p used)]
    exact ⟨1, Nat.lt_succ_self 1, rfl⟩
  case distinct => exact fun p q usedP usedQ _ => (live p usedP).trans (live q usedQ).symm
  case zombie =>
    intro p zombie
    rw [slots] at zombie
    split_ifs at zombie
    cases zombie
  all_goals simp [Sched.boot, Event.reaps]

end Pids

section

theorem Turn.still (next : s'.nextpid = s.nextpid) (events : s'.events = s.events)
    (slots : ∀ q, Keeps (s.proc q) (s'.proc q)) : Turn s s' :=
  .quiet ⟨next, .inl events, slots⟩

variable [DecidableEq C]

/-- What a step of a thread does to the processes. -/
theorem ThreadStep.turn (run : ThreadStep s c p st s') (inv : s.Inv)
    (running : (s.proc p).state = .running) : Turn s s' := by
  have lives := lives_of_running running
  cases run with
  | @alloc np ok pc lock unused =>
    cases ok with
    | true =>
      exact .allocs np ⟨rfl, .inr ⟨_, rfl, rfl⟩,
        by simp [allocSlot, modify, goto, setThread, record, Proc.claimed, Proc.started],
        fun _ => by
          simp [allocSlot, modify, goto, setThread, record, Proc.claimed, Proc.started],
        fun q ne => by simp [allocSlot, modify, goto, setThread, record, ne]⟩
    | false =>
      have gone : ((s.allocSlot p np false).proc np).state = .unused := by
        simp [allocSlot, modify, goto, setThread, Proc.freed]
      exact .allocs np ⟨rfl, .inl rfl, by rw [gone]; decide, fun used => absurd gone used,
        fun q ne => by simp [allocSlot, modify, goto, setThread, ne]⟩
  | @zombie status pc lock =>
    exact .exits p status ⟨running, rfl, rfl,
      by simp [record, switchFrom, setThread, setCpu, setLock, setWaitLock, modify, Proc.exited],
      fun q ne => by
        simp [record, switchFrom, setThread, setCpu, setLock, setWaitLock, modify, ne]⟩
  | @scan w q kids ok pc child lock =>
    unfold waitSlot
    split_ifs with zombie failed x
    · exact .still rfl rfl fun q => .refl _
    · exact .reaps ⟨zombie, child, rfl, .inr ⟨_, rfl, rfl⟩,
        by simp [record, goto, setThread, setWaitLock, modify, Proc.freed],
        fun r ne => by simp [record, goto, setThread, setWaitLock, modify, ne]⟩
    · exact .reaps ⟨zombie, child, rfl, .inl rfl,
        by simp [record, goto, setThread, setWaitLock, modify, Proc.freed],
        fun r ne => by simp [record, goto, setThread, setWaitLock, modify, ne]⟩
    · exact .still rfl rfl fun q => .refl _
  | @start np pid pc lock =>
    have used := inv.child p np (by rw [pc]; rfl)
    refine .quiet ⟨rfl, .inr ⟨_, rfl, rfl⟩, keeps_modify
      (f := fun q => { q with state := .runnable }) ⟨rfl, rfl, ?_, ?_⟩⟩
    · simp [used]
    · simp [used]
  | adopt =>
    exact .still rfl rfl (keeps_modify (f := fun q => { q with parent := some p })
      ⟨rfl, rfl, .rfl, .rfl⟩)
  | reparent =>
    exact .still rfl rfl (keeps_modify (f := fun q => { q with parent := some initproc })
      ⟨rfl, rfl, .rfl, .rfl⟩)
  | wakeInit pc wake | wakeParent pc wake | wakeup pc wake =>
    exact .still (wakeSlot_events wake).1 (wakeSlot_events wake).2 fun r => keeps_wakeSlot wake r
  | sleep =>
    exact .still rfl rfl (keeps_modify (f := fun q => q.asleep (.proc p))
      (.lives rfl rfl lives (by simp [Lives, Born, Proc.asleep])))
  | @kill q pc lock =>
    refine .still rfl rfl (keeps_modify (f := Proc.marked) ?_)
    by_cases asleep : (s.proc q).state = .sleeping
    · exact .lives rfl rfl (by simp [Lives, Born, asleep])
        (by simp [Lives, Born, Proc.marked, asleep])
    · exact ⟨rfl, rfl, by simp [Proc.marked, asleep], by simp [Proc.marked, asleep]⟩
  | @prioritize priority q pc before after lock =>
    obtain ⟨_, _, eq⟩ := Proc.prioritized_frame (s.proc q) priority
    exact .quiet ⟨rfl, .inr ⟨_, rfl, rfl⟩, keeps_modify (f := fun r => r.prioritized priority)
      ⟨by rw [eq], by rw [eq], by rw [eq], by rw [eq]⟩⟩
  | yield =>
    exact .still rfl rfl (keeps_modify (f := fun q => { q with state := .runnable })
      (.lives rfl rfl lives (by simp [Lives, Born])))
  | move | exit | reparentNext | reparentEnd | wakeInitEnd | wakeParentEnd | wait | scanNext
  | scanEnd | failed | scanned => exact .still rfl rfl fun q => .refl _

/-- What a step does to the processes. -/
theorem Effect.turn {policy : Policy} {hart0 : C} {l : Label C} (run : Effect policy hart0 s l s')
    (inv : s.Inv) : Turn s s' := by
  cases run with
  | idle | leave | tick | timer | device | updated | handled | call | resume =>
    exact .still rfl rfl fun q => .refl _
  | compared => exact .quiet ⟨rfl, .inr ⟨_, rfl, rfl⟩, fun q => .refl _⟩
  | @dispatch c p f off before lock runnable how =>
    refine .still rfl rfl (keeps_modify (f := f) ?_)
    rcases how with rfl | rfl
    · exact .lives rfl rfl (by simp [Lives, Born, runnable]) (by simp [Lives, Born])
    · exact .lives rfl rfl (by simp [Lives, Born, runnable])
        (by simp [Lives, Born, Proc.dispatched])
  | @switchedOut c p start off pbs before =>
    obtain ⟨_, _, _, _, eq⟩ := Proc.switchedOut_frame (s.proc p) start s.ticks
    exact .quiet ⟨rfl, .inr ⟨_, rfl, rfl⟩, keeps_modify (f := fun q => q.switchedOut start s.ticks)
      ⟨by rw [eq], by rw [eq], by rw [eq], by rw [eq]⟩⟩
  | @updateTime c q at_ lock =>
    refine .still rfl rfl (keeps_modify (f := Proc.updateStats) ?_)
    have state := Proc.updateStats_state (s.proc q)
    have stats : (s.proc q).updateStats.pid = (s.proc q).pid ∧
        (s.proc q).updateStats.xstate = (s.proc q).xstate := by
      unfold Proc.updateStats
      split <;> exact ⟨rfl, rfl⟩
    exact ⟨stats.1, stats.2, by rw [state], by rw [state]⟩
  | handlerWake at_ wake =>
    exact .still (wakeSlot_events wake).1 (wakeSlot_events wake).2 fun r => keeps_wakeSlot wake r
  | @sleep c chan p st cur active user lock =>
    exact .still rfl rfl (keeps_modify (f := fun q => q.asleep (.addr chan))
      (.lives rfl rfl (lives_of_running (current_running inv cur))
        (by simp [Lives, Born, Proc.asleep])))
  | trap =>
    exact .still rfl rfl (keeps_modify (f := fun q => { q with killed := true })
      ⟨rfl, rfl, .rfl, .rfl⟩)
  | awake =>
    exact .still rfl rfl (keeps_modify (f := fun q => { q with chan := none })
      ⟨rfl, rfl, .rfl, .rfl⟩)
  | thread cur active run => exact run.turn inv (current_running inv cur)
  | preempt cur active unheld lock =>
    exact .still rfl rfl (keeps_modify (f := fun q => { q with state := .runnable })
      (.lives rfl rfl (lives_of_running (current_running inv cur)) (by simp [Lives, Born])))

omit [DecidableEq C]

theorem Turn.pids (turn : Turn s s') (few : s'.nextpid ≤ 2 ^ 32) (pids : s.Pids) : s'.Pids := by
  cases turn with
  | quiet quiet => exact pids.quiet quiet
  | allocs _ allocs => exact pids.allocs few allocs
  | exits _ _ exits => exact pids.exits exits
  | reaps reaps => exact pids.reaps reaps

/-- `nextpid` only grows. -/
theorem Turn.nextpid_le (turn : Turn s s') : s.nextpid ≤ s'.nextpid := by
  cases turn with
  | quiet turn | exits _ _ turn | reaps turn => exact turn.nextpid.ge
  | allocs _ turn =>
    rw [turn.nextpid]
    exact Nat.le_succ _

/-- A pid is returned by `wait` or `waitx` only to the parent of the zombie that has it. -/
theorem Turn.reaped {es : List Event} {r : Fin nproc} {pid : Int} (turn : Turn s s')
    (new : s'.events = es ++ s.events) (reaped : .reaped r pid status ∈ es) :
    ∃ q, (s.proc q).state = .zombie ∧ (s.proc q).parent = some r ∧ (s.proc q).pid = pid ∧
      (s.proc q).xstate = status := by
  have added {l : List Event} (events : s'.events = l ++ s.events) : .reaped r pid status ∈ l := by
    rw [new, append_cancel_right_eq] at events
    exact events ▸ reaped
  have silent (events : s'.events = s.events ∨
      ∃ e : Event, e.silent ∧ s'.events = e :: s.events) : False := by
    rcases events with same | ⟨e, silent, one⟩
    · cases added (l := []) same
    · cases mem_singleton.1 (added (l := [e]) one)
      cases silent
  cases turn with
  | quiet turn | allocs _ turn => exact (silent turn.events).elim
  | exits _ _ turn => cases mem_singleton.1 (added (l := [_]) turn.events)
  | @reaps p q turn =>
    have here : Event.reaped r pid status = .reaped p (s.proc q).pid (s.proc q).xstate := by
      rcases turn.events with one | ⟨e, silent, two⟩
      · exact mem_singleton.1 (added (l := [_]) one)
      · rcases mem_cons.1 (added (l := [e, _]) two) with eq | here
        · rw [← eq] at silent
          cases silent
        · exact mem_singleton.1 here
    cases here
    exact ⟨q, turn.zombie, turn.child, rfl, rfl⟩

end

end State

open State

variable {C : Type} [DecidableEq C] {policy : Policy} {hart0 : C} {s : State C}

theorem Reachable.pids (reach : Reachable policy hart0 s) (few : s.nextpid ≤ 2 ^ 32) : s.Pids := by
  obtain ⟨ls, run⟩ := reach
  refine (Transitions.run_invariant (fun s : State C => s.Inv ∧ (s.nextpid ≤ 2 ^ 32 → s.Pids))
    (fun s l s' both step => ⟨(step_effect step).inv both.1, fun few => ?_⟩)
    ⟨Inv.boot policy, fun _ => Pids.boot policy⟩ run).2 few
  have turn := (step_effect step).turn both.1
  exact turn.pids few (both.2 (turn.nextpid_le.trans few))

/-- The life cycle of processes, as long as fewer than 2^31 forks have taken a pid: pids are
distinct; a process that has become `RUNNABLE` has a parent that is alive; each pid is
returned by at most one `wait` or `waitx`, which its current parent makes, with the status
that the process passed to `exit`; and while `wait_lock` is free nobody sleeps in `wait`
with a zombie child. -/
theorem life_cycle (reach : Reachable policy hart0 s) (few : s.nextpid - 2 < 2 ^ 31) :
    (∀ p q, (s.proc p).state ≠ .unused → (s.proc q).state ≠ .unused →
      (s.proc p).pid = (s.proc q).pid → p = q) ∧
    (∀ p, p ≠ initproc → Born (s.proc p) → ∃ r, (s.proc p).parent = some r ∧
      (s.proc r).state ≠ .unused ∧ (s.proc r).state ≠ .zombie) ∧
    (∀ pid, s.events.countP (Event.reaps pid) ≤ 1) ∧
    (∀ r pid status, .reaped r pid status ∈ s.events → .exited pid status ∈ s.events ∧
      ∀ status', .exited pid status' ∈ s.events → status' = status) ∧
    (∀ l s' es r pid status, s.step policy hart0 l = some s' → s'.events = es ++ s.events →
      .reaped r pid status ∈ es → ∃ q, (s.proc q).state = .zombie ∧
        (s.proc q).parent = some r ∧ (s.proc q).pid = pid ∧ (s.proc q).xstate = status) ∧
    (s.waitLock = none → ∀ p q, s.Waiting p → (s.proc q).parent = some p →
      (s.proc q).state ≠ .zombie) := by
  have family := reach.family
  have pids := reach.pids (by omega)
  refine ⟨pids.distinct, fun p other born => ?_, pids.reaped_once, fun r pid status reaped => ?_,
    fun l s' es r pid status step new => ((step_effect step).turn reach.inv).reaped new,
    fun free p q wait parent zombie => ?_⟩
  · obtain ⟨r, parent⟩ := Option.ne_none_iff_exists'.1 (family.has_parent p other born)
    exact ⟨r, parent, family.parent_alive p r parent⟩
  · have exited := pids.reaped_exited r pid status reaped
    exact ⟨exited, fun status' again => pids.exited_once pid status' status again exited⟩
  · obtain ⟨-, r, status, i, there⟩ := family.no_zombie p q wait parent zombie
    have held := family.holds r (by rw [there]; rfl)
    rw [free] at held
    cases held

/-- The first process forks, the child exits with status 7, and the parent waits for it. -/
def reapRun {C : Type} (c : C) : List (Label C) :=
  List.flatten [[.scheduler c, .proc c true, .call c .fork], List.replicate 4 (.proc c true),
    [.preempt c, .scheduler c, .scheduler c, .proc c true, .call c (.exit 7)],
    List.replicate 132 (.proc c true), List.replicate 65 (.scheduler c),
    [.proc c true, .call c (.wait ⟨true, false⟩)], List.replicate 3 (.proc c true)]

/-- The pid and the status come back from `wait`, once. -/
theorem life_cycle_reaped : ∃ s : State (Fin 1), Reachable .rr 0 s ∧
    .reaped 0 2 7 ∈ s.events ∧ s.events.countP (Event.reaps 2) ≤ 1 := by
  exact Transitions.exists_reached (reapRun 0)
    (fun s => .reaped 0 2 7 ∈ s.events ∧ s.nextpid = 3) (by decide +kernel)
    fun s reach ⟨reaped, few⟩ => ⟨reaped, (life_cycle reach (by omega)).2.2.1 2⟩

end Xv6.Sched
