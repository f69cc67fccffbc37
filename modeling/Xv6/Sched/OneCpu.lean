import Xv6.Sched.Effects

/-!
# One CPU per process

Which process a CPU runs, who holds the lock of a process and what state it is in fit
together in every state that the system reaches.  A choice of the PBS scheduler that has
become stale does no harm, since `scheduleProcess` looks at the state again under the lock.
-/

namespace Xv6.Sched

open Function (update_apply update_of_ne update_self)

variable {C : Type} {pc : CpuPc}

theorem CpuPc.occupant_of_runs {p : Fin nproc} (runs : pc.runs = some p) :
    pc.occupant = some p := by
  cases pc with
  | running q st => exact runs
  | scan | select | selected | returned => cases runs

theorem CpuPc.occupant_cases {p : Fin nproc} (occupied : pc.occupant = some p) :
    pc.runs = some p ∨ ∃ st, pc = .returned p st := by
  cases pc with
  | running q st => exact .inl occupied
  | returned q st =>
    cases occupied
    exact .inr ⟨st, rfl⟩
  | scan | select | selected => cases occupied

attribute [local grind =] update_apply
attribute [local grind →] CpuPc.occupant_of_runs CpuPc.occupant_cases

theorem Proc.woken_state (q : Proc) (chan : Option Chan) :
    (q.woken chan).state = q.state ∨ q.state = .sleeping ∧ (q.woken chan).state = .runnable := by
  unfold Proc.woken
  split_ifs with asleep
  · exact .inr ⟨asleep.1, rfl⟩
  · exact .inl rfl

theorem Proc.updateStats_state (q : Proc) : q.updateStats.state = q.state := by
  unfold Proc.updateStats
  split <;> simp_all

namespace State

variable {s s' : State C} {c c' : C} {p q np : Fin nproc} {st : UInt32} {f : Proc → Proc}
  {me : Option (Fin nproc)} {chan : Option Chan}

/-- How the CPUs, the locks, the threads and the states of the processes fit together. -/
structure Inv (s : State C) : Prop where
  /-- `c->proc` is the process that runs on `c`, until the scheduler has its lock back. -/
  cpu_proc : ∀ c, (s.cpu c).proc = (s.cpu c).pc.occupant
  unique : ∀ c c' p, (s.cpu c).pc.occupant = some p → (s.cpu c').pc.occupant = some p → c = c'
  running : ∀ c p, (s.cpu c).pc.runs = some p → (s.proc p).state = .running
  placed : ∀ p, (s.proc p).state = .running → ∃ c, (s.cpu c).pc.runs = some p
  /-- A lock that is held was handed over in a switch. -/
  holder : ∀ p c, s.lock p = some c → (s.cpu c).pc.occupant = some p
  returned : ∀ c p st, (s.cpu c).pc = .returned p st → s.lock p = some c
  active : ∀ c p, (s.cpu c).pc.runs = some p → (s.lock p = none ↔ (s.thread p).switch = none)
  suspended : ∀ p, (s.thread p).switch = none → (s.proc p).state = .running
  /-- A child that `fork` is creating stays `USED`. -/
  child : ∀ p np, (s.thread p).pc.child = some np → (s.proc np).state = .used
  forker : ∀ p q np, (s.thread p).pc.child = some np → (s.thread q).pc.child = some np → p = q

attribute [local grind cases eager] Inv

theorem current_running (inv : s.Inv) (cur : s.current c = some (q, st)) :
    (s.proc q).state = .running :=
  inv.running c q (by rw [(current_some cur).2]; rfl)

/-- A process that does not run and whose lock is free is on no CPU. -/
theorem not_occupied (inv : s.Inv) (lock : s.lock p = none) (stopped : (s.proc p).state ≠ .running)
    (c : C) : (s.cpu c).pc.occupant ≠ some p := by
  intro occupied
  rcases CpuPc.occupant_cases occupied with runs | ⟨st, returned⟩
  · exact stopped (inv.running c p runs)
  · have held := inv.returned c p st returned
    rw [lock] at held
    cases held

namespace Inv

theorem boot (policy : Policy) : (boot C policy).Inv := by
  have start : policy.start.occupant = none := by cases policy <;> rfl
  have stopped (c : C) (p : Fin nproc) : ((Sched.boot C policy).cpu c).pc.runs ≠ some p := by
    intro runs
    have occupied := CpuPc.occupant_of_runs runs
    exact absurd (start.symm.trans occupied) (by simp)
  have state (p : Fin nproc) : ((Sched.boot C policy).proc p).state ≠ .running := by
    rw [boot_proc]
    split_ifs <;> simp [Proc.empty]
  constructor
  case placed => exact fun p running => absurd running (state p)
  case running => exact fun c p runs => absurd runs (stopped c p)
  case active => exact fun c p runs => absurd runs (stopped c p)
  case returned =>
    intro c p st pc
    exact absurd (start.symm.trans (congrArg CpuPc.occupant pc)) (by simp [CpuPc.occupant])
  all_goals simp [Sched.boot, start, Pc.child]

section

variable (inv : s.Inv)
include inv

/-- A step after which every CPU and every lock is as before, and that changes the state
of a slot only by waking or freeing it. -/
theorem quiet (cpu : ∀ c, (s'.cpu c).proc = (s.cpu c).proc ∧ (s'.cpu c).pc = (s.cpu c).pc)
    (lock : s'.lock = s.lock) (switch : ∀ p, (s'.thread p).switch = (s.thread p).switch)
    (child : ∀ p np, (s'.thread p).pc.child = some np → (s.thread p).pc.child = some np)
    (state : ∀ p, (s'.proc p).state = (s.proc p).state ∨
      (s.proc p).state = .sleeping ∧ (s'.proc p).state = .runnable ∨
      (s.proc p).state = .zombie ∧ (s'.proc p).state = .unused) : s'.Inv := by
  constructor
  case placed =>
    intro p run
    obtain ⟨c, runs⟩ := inv.placed p (by grind)
    exact ⟨c, by rw [(cpu c).2, runs]⟩
  all_goals grind

theorem modify (state : (f (s.proc q)).state = (s.proc q).state ∨
      (s.proc q).state = .sleeping ∧ (f (s.proc q)).state = .runnable ∨
      (s.proc q).state = .zombie ∧ (f (s.proc q)).state = .unused) : (s.modify q f).Inv := by
  refine inv.quiet (fun _ => ⟨rfl, rfl⟩) rfl (fun _ => rfl) (fun _ _ same => same) fun p => ?_
  simp only [State.modify]
  by_cases same : p = q
  · subst same
    rwa [update_self]
  · exact .inl (by rw [update_of_ne same])

theorem goto {pc : Pc} (child : ∀ np, pc.child = some np → (s.thread p).pc.child = some np) :
    (s.goto p pc).Inv := by
  refine inv.quiet (fun _ => ⟨rfl, rfl⟩) rfl (fun r => ?_) (fun r => ?_) fun _ => .inl rfl
  · simp only [State.goto, setThread]
    grind
  · simp only [State.goto, setThread]
    grind

theorem setWaitLock (holder : Option (Fin nproc)) : (s.setWaitLock holder).Inv :=
  inv.quiet (fun _ => ⟨rfl, rfl⟩) rfl (fun _ => rfl) (fun _ _ same => same) fun _ => .inl rfl

theorem record (e : Event) : (s.record e).Inv :=
  inv.quiet (fun _ => ⟨rfl, rfl⟩) rfl (fun _ => rfl) (fun _ _ same => same) fun _ => .inl rfl

theorem wakeSlot (wake : s.wakeSlot me chan q = some s') : s'.Inv := by
  obtain ⟨-, rfl⟩ | ⟨-, -, rfl⟩ := wakeSlot_cases wake
  · exact inv
  · exact inv.modify ((Proc.woken_state _ _).imp_right .inl)

/-- `fork` takes a slot and gives it back when memory runs out. -/
theorem allocFail (unused : (s.proc np).state = .unused) : (s.allocSlot p np false).Inv := by
  refine inv.quiet (fun _ => ⟨rfl, rfl⟩) rfl (fun r => ?_) (fun r => ?_) fun r => .inl ?_
  all_goals simp only [allocSlot, State.modify, State.goto, setThread]
  all_goals grind [Pc.child, Proc.freed]

theorem waitSlot {w : Wait} {ok : Bool} : (s.waitSlot p q w ok).Inv := by
  have none (pc : Pc) (plain : pc.child = none) (np : Fin nproc) (eq : pc.child = some np) :
      (s.thread p).pc.child = some np := by
    rw [plain] at eq
    cases eq
  unfold State.waitSlot
  split_ifs with zombie failed x
  · exact (inv.setWaitLock _).goto (none _ rfl)
  · exact ((((inv.record _).modify (.inr (.inr ⟨zombie, rfl⟩))).setWaitLock _).goto
      (none _ rfl)).record _
  · exact (((inv.record _).modify (.inr (.inr ⟨zombie, rfl⟩))).setWaitLock _).goto (none _ rfl)
  · exact inv.goto (none _ rfl)

/-- A process releases the lock that the scheduler took. -/
theorem release (runs : (s.cpu c).pc = .running p st) : (s.release p).Inv := by
  constructor
  all_goals simp only [State.release, setLock, setThread]
  all_goals grind [CpuPc.occupant, CpuPc.runs]

/-- `fork` takes a slot for a child. -/
theorem alloc (runs : (s.cpu c).pc = .running p st) (unused : (s.proc np).state = .unused) :
    (s.allocSlot p np true).Inv := by
  have here := inv.running c p (by rw [runs]; rfl)
  constructor
  all_goals simp only [allocSlot, State.modify, State.goto, setThread, State.record, if_true]
  case placed =>
    intro q run
    exact inv.placed q (by grind [Proc.started, Proc.claimed])
  all_goals grind [Proc.started, Proc.claimed, Pc.child]

/-- `fork` makes the child `RUNNABLE`. -/
theorem start {pid : Int} (pc : (s.thread p).pc = .start np pid) :
    ((s.modify np fun q => { q with state := .runnable }).goto p .user).Inv := by
  have used := inv.child p np (by rw [pc]; rfl)
  constructor
  all_goals simp only [State.modify, State.goto, setThread]
  case placed =>
    intro q run
    exact inv.placed q (by grind)
  all_goals grind [Pc.child]

end

variable [DecidableEq C]

section

variable (inv : s.Inv)
include inv

/-- The scheduler moves on without a process. -/
theorem idle {cpu : Cpu} (before : (s.cpu c).pc.occupant = none) (after : cpu.pc.occupant = none)
    (proc : cpu.proc = (s.cpu c).proc ∨ cpu.proc = none) : (s.setCpu c cpu).Inv := by
  have free := inv.cpu_proc c
  constructor
  all_goals simp only [setCpu]
  case placed =>
    intro p run
    obtain ⟨c', runs⟩ := inv.placed p run
    refine ⟨c', ?_⟩
    rw [update_of_ne (by grind), runs]
  all_goals grind [CpuPc.occupant]

/-- An interrupt handler moves on. -/
theorem setHandler (h : Option Handler) : (s.setCpu c { s.cpu c with handler := h }).Inv := by
  refine inv.quiet (fun c' => ?_) rfl (fun _ => rfl) (fun _ _ same => same) fun _ => .inl rfl
  simp only [setCpu]
  grind

theorem dispatch (before : (s.cpu c).pc.occupant = none) (lock : s.lock p = none)
    (runnable : (s.proc p).state = .runnable) (state : (f (s.proc p)).state = .running) :
    ((s.modify p f).switchTo c p).Inv := by
  constructor
  all_goals simp only [State.modify, switchTo, setLock, setCpu]
  case placed =>
    intro q run
    by_cases same : q = p
    · subst same
      exact ⟨c, by rw [update_self]; rfl⟩
    · rw [update_of_ne same] at run
      obtain ⟨c', runs⟩ := inv.placed q run
      refine ⟨c', ?_⟩
      rw [update_of_ne (by grind), runs]
  all_goals grind [CpuPc.occupant, CpuPc.runs]

/-- The scheduler lets go of a process that has switched back to it. -/
theorem leave (before : (s.cpu c).pc = .returned p st) (after : pc.occupant = none) :
    (s.leave c p pc).Inv := by
  constructor
  all_goals simp only [State.leave, setLock, setCpu]
  case placed =>
    intro q run
    obtain ⟨c', runs⟩ := inv.placed q run
    refine ⟨c', ?_⟩
    rw [update_of_ne (by grind [CpuPc.runs]), runs]
  all_goals grind [CpuPc.occupant, CpuPc.runs]

/-- A process gives up its CPU. -/
theorem switchFrom {how : Switch} {pc : Pc} (runs : (s.cpu c).pc = .running p st)
    (state : (f (s.proc p)).state ≠ .running)
    (child : ∀ np, pc.child = some np → (s.thread p).pc.child = some np) :
    ((s.modify p f).switchFrom c p st how pc).Inv := by
  have here := inv.running c p (by rw [runs]; rfl)
  constructor
  all_goals simp only [State.modify, State.switchFrom, setLock, setCpu, setThread]
  case placed =>
    intro q run
    have other : q ≠ p := by grind
    rw [update_of_ne other] at run
    obtain ⟨c', runs'⟩ := inv.placed q run
    refine ⟨c', ?_⟩
    rw [update_of_ne (by grind [CpuPc.runs]), runs']
  all_goals grind [CpuPc.occupant, CpuPc.runs]

end

end Inv

variable [DecidableEq C] {policy : Policy} {hart0 : C} {l : Label C}

theorem ThreadStep.inv (run : s.ThreadStep c p st s') (runs : (s.cpu c).pc = .running p st)
    (inv : s.Inv) : s'.Inv := by
  have none (pc : Pc) (plain : pc.child = none) (np : Fin nproc) (eq : pc.child = some np) :
      (s.thread p).pc.child = some np := by
    rw [plain] at eq
    cases eq
  cases run with
  | @move pc before after priority stays =>
    exact inv.goto (none pc (by simpa [Pc.plain] using (Bool.and_eq_true_iff.1 after).2))
  | @alloc np ok pc lock unused =>
    cases ok with
    | true => exact inv.alloc runs unused
    | false => exact inv.allocFail unused
  | adopt pc free =>
    refine (inv.modify (.inl rfl)).goto fun np eq => ?_
    simp only [modify, pc]
    exact eq
  | start pc lock => exact (inv.start pc).record _
  | exit | wait | failed => exact (inv.setWaitLock _).goto (none _ rfl)
  | reparent pc child => exact (inv.modify (.inl rfl)).goto (none _ rfl)
  | reparentNext | reparentEnd | wakeInitEnd | wakeParentEnd | scanNext | scanEnd | scanned =>
    exact inv.goto (none _ rfl)
  | wakeInit _ wake | wakeParent _ wake | wakeup _ wake =>
    exact (inv.wakeSlot wake).goto (by rintro _ ⟨⟩)
  | @zombie status pc lock =>
    exact ((inv.switchFrom (f := fun q => q.exited status s.ticks) runs (by rintro ⟨⟩)
      (none _ rfl)).setWaitLock _).record _
  | scan pc child lock => exact inv.waitSlot
  | sleep pc lock =>
    exact (inv.switchFrom (f := fun q => q.asleep (.proc p)) runs (by rintro ⟨⟩)
      (none _ rfl)).setWaitLock _
  | @kill q pc lock =>
    refine (inv.modify ?_).goto (none _ rfl)
    simp only [Proc.marked]
    split_ifs with asleep
    · exact .inr (.inl ⟨asleep, rfl⟩)
    · exact .inl rfl
  | @prioritize priority q pc before after lock =>
    obtain ⟨_, _, eq⟩ := Proc.prioritized_frame (s.proc q) priority
    exact ((inv.modify (.inl (by rw [eq]))).goto (none pc (by
      rcases after with rfl | rfl <;> rfl))).record _
  | yield pc lock => exact inv.switchFrom runs (by rintro ⟨⟩) (none _ rfl)

theorem Effect.inv (effect : Effect policy hart0 s l s') (inv : s.Inv) : s'.Inv := by
  cases effect with
  | idle off before after proc handler => exact inv.idle before after proc
  | compared off before after proc handler lock runnable =>
    exact (inv.idle before after (.inl proc)).record _
  | dispatch off before lock runnable how =>
    refine inv.dispatch before lock runnable ?_
    rcases how with rfl | rfl <;> rfl
  | leave off rr before => exact inv.leave before rfl
  | @switchedOut c p st off pbs before =>
    obtain ⟨_, _, _, _, eq⟩ := Proc.switchedOut_frame (s.proc p) st s.ticks
    exact (Inv.leave (inv.modify (.inl (by rw [eq]))) before rfl).record _
  | tick =>
    exact (inv.setHandler _).quiet (fun _ => ⟨rfl, rfl⟩) rfl (fun _ => rfl) (fun _ _ same => same)
      fun _ => .inl rfl
  | timer => exact inv
  | updateTime at_ lock =>
    exact Inv.setHandler (inv.modify (.inl (Proc.updateStats_state _))) _
  | handlerWake at_ wake =>
    obtain ⟨-, rfl⟩ | ⟨-, -, rfl⟩ := wakeSlot_cases wake
    · exact inv.setHandler _
    · exact Inv.setHandler (inv.wakeSlot wake) _
  | device | updated | handled => exact inv.setHandler _
  | @call c op p st pc cur active user plain exit priority =>
    refine inv.goto fun np eq => ?_
    simp only [Pc.plain, eq, Bool.and_eq_true] at plain
    exact absurd plain.2 (by simp)
  | sleep cur active user lock =>
    exact inv.switchFrom (current_some cur).2 (by rintro ⟨⟩) (by rintro _ ⟨⟩)
  | trap cur active user lock => exact inv.modify (.inl rfl)
  | resume cur => exact inv.release (current_some cur).2
  | awake cur => exact Inv.release (inv.modify (.inl rfl)) (current_some cur).2
  | thread cur active run => exact run.inv (current_some cur).2 inv
  | preempt cur active unheld lock =>
    exact inv.switchFrom (current_some cur).2 (by rintro ⟨⟩) fun _ same => same

omit [DecidableEq C] in
theorem wakeSlot_cpu (wake : s.wakeSlot me chan q = some s') : s'.cpu = s.cpu := by
  obtain ⟨-, rfl⟩ | ⟨-, -, rfl⟩ := wakeSlot_cases wake <;> rfl

theorem setHandler_pc (h : Option Handler) (c' : C) :
    ((s.setCpu c { s.cpu c with handler := h }).cpu c').pc = (s.cpu c').pc := by
  simp only [setCpu, update_apply]
  split_ifs with same
  · rw [same]
  · rfl

theorem returned_runs (cpu : C → Cpu)
    (runs : (Function.update cpu c { cpu c with pc := .returned p st } c').pc.runs = some q) :
    (cpu c').pc.runs = some q := by
  rw [update_apply] at runs
  split_ifs at runs with same
  · cases runs
  · exact runs

theorem ThreadStep.runs (run : s.ThreadStep c p st s') (runs : (s'.cpu c').pc.runs = some q) :
    (s.cpu c').pc.runs = some q := by
  cases run with
  | @alloc np ok => cases ok <;> exact runs
  | wakeInit pc wake | wakeParent pc wake | wakeup pc wake =>
    rw [← wakeSlot_cpu wake]
    exact runs
  | scan =>
    unfold waitSlot at runs
    split_ifs at runs <;> exact runs
  | zombie | sleep | yield => exact returned_runs s.cpu runs
  | _ => exact runs

/-- A process begins to run only when it is `RUNNABLE`. -/
theorem Effect.dispatched (effect : Effect policy hart0 s l s')
    (after : (s'.cpu c).pc.runs = some p) (before : (s.cpu c).pc.runs ≠ some p) :
    (s.proc p).state = .runnable := by
  have same (pc : (s'.cpu c).pc.runs = (s.cpu c).pc.runs) : (s.proc p).state = .runnable :=
    absurd (pc ▸ after) before
  have idle (c' : C) (cpu : Cpu) (pc : cpu.pc.occupant = none)
      (eq : s'.cpu c = Function.update s.cpu c' cpu c) : (s.proc p).state = .runnable := by
    rw [update_apply] at eq
    split_ifs at eq with here
    · rw [eq] at after
      exact absurd (pc.symm.trans (CpuPc.occupant_of_runs after)) (by simp)
    · exact same (by rw [eq])
  cases effect with
  | idle off pc after' | compared off pc after' => exact idle _ _ after' rfl
  | @dispatch c' q f off pc lock runnable how =>
    by_cases here : c = c'
    · subst here
      simp only [switchTo, setLock, setCpu, modify, update_self, CpuPc.runs] at after
      cases after
      exact runnable
    · refine same ?_
      simp only [switchTo, setLock, setCpu, modify, update_of_ne here]
  | leave | switchedOut => exact idle _ _ rfl rfl
  | tick | device | updateTime | updated | handled =>
    exact same (congrArg CpuPc.runs (setHandler_pc _ c))
  | handlerWake at_ wake =>
    refine same (congrArg CpuPc.runs ?_)
    obtain ⟨-, rfl⟩ | ⟨-, -, rfl⟩ := wakeSlot_cases wake
    · exact setHandler_pc _ c
    · exact setHandler_pc (s := modify _ _ _) _ c
  | timer | call | trap | resume | awake => exact same rfl
  | thread cur active run => exact absurd (run.runs after) before
  | sleep | preempt => exact absurd (returned_runs s.cpu after) before

end State

open State

theorem Reachable.inv [DecidableEq C] {policy : Policy} {hart0 : C} {s : State C}
    (reach : Reachable policy hart0 s) : s.Inv := by
  obtain ⟨ls, run⟩ := reach
  exact Transitions.run_invariant State.Inv (fun s l s' inv step => (step_effect step).inv inv)
    (Inv.boot policy) run

/-- Whenever the lock of a process is free, it is `RUNNING` exactly when it is `c->proc` of
exactly one CPU, and otherwise of none; and only a `RUNNABLE` process is switched to. -/
theorem one_cpu {C : Type} [DecidableEq C] {policy : Policy} {hart0 : C} {s : State C}
    (reach : Reachable policy hart0 s) :
    (∀ p, s.lock p = none →
      ((s.proc p).state = .running ↔ ∃! c, (s.cpu c).proc = some p) ∧
      ((s.proc p).state ≠ .running → ∀ c, (s.cpu c).proc ≠ some p)) ∧
    ∀ l s' c p, s.step policy hart0 l = some s' → (s'.cpu c).pc.runs = some p →
      (s.cpu c).pc.runs ≠ some p → (s.proc p).state = .runnable := by
  have inv := reach.inv
  -- with the lock free, an occupant has not yet switched back
  have runs (p : Fin nproc) (free : s.lock p = none) (c : C) (proc : (s.cpu c).proc = some p) :
      (s.cpu c).pc.runs = some p := by
    rw [inv.cpu_proc] at proc
    rcases CpuPc.occupant_cases proc with runs | ⟨st, returned⟩
    · exact runs
    · have held := inv.returned c p st returned
      rw [free] at held
      cases held
  refine ⟨fun p free => ⟨⟨fun running => ?_, ?_⟩, fun stopped c proc => ?_⟩, ?_⟩
  · obtain ⟨c, here⟩ := inv.placed p running
    have occupied := CpuPc.occupant_of_runs here
    refine ⟨c, (inv.cpu_proc c).trans occupied, fun c' proc => ?_⟩
    exact inv.unique c' c p ((inv.cpu_proc c').symm.trans proc) occupied
  · rintro ⟨c, proc, -⟩
    exact inv.running c p (runs p free c proc)
  · exact stopped (inv.running c p (runs p free c proc))
  · intro l s' c p step after before
    exact (step_effect step).dispatched after before

/-- The first process, dispatched by one of two CPUs. -/
theorem one_cpu_first : ∃ s : State (Fin 2), Reachable .pbs 0 s ∧
    ∃! c, (s.cpu c).proc = some initproc := by
  exact Transitions.exists_reached (List.replicate 66 (.scheduler 1) ++ [.proc 1 true])
    (fun s => s.lock initproc = none ∧ (s.proc initproc).state = .running) (by decide +kernel)
    fun s reach ⟨free, running⟩ => ((one_cpu reach).1 initproc free).1.1 running

end Xv6.Sched
