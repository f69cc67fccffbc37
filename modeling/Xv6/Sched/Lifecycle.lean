import Xv6.Sched.Family

/-!
# The process tree in every run

Every step of the system keeps the invariant of the process tree: the steps that hold
`wait_lock` by the lemmas about their sections, the others because they leave the parents
alone and wake no one too late.
-/

namespace Xv6.Sched

namespace State

variable {C : Type} {s s' t : State C} {c : C} {p q r np : Fin nproc} {st : UInt32} {pc : Pc}
  {f : Proc → Proc} {status : Int}

theorem asserts_plain (plain : pc.plain) (other : ∀ status, pc ≠ .exit status) :
    s.Asserts p pc := by
  cases pc with
  | exit status => exact absurd rfl (other status)
  | adopt | start | reparent | wakeInit | wakeParent | zombie | scan | scanned | sleep =>
    cases plain
  | user | alloc | wait | wakeup | kill | setpriority | prioritize | yield => trivial

theorem unheld_of_plain (plain : pc.plain) : pc.holdsWaitLock = false := by
  simp only [Pc.plain, Bool.and_eq_true, Bool.not_eq_true'] at plain
  exact plain.1

section WakeSlot

variable {me : Option (Fin nproc)} {chan : Option Chan} (wake : s.wakeSlot me chan q = some s')
include wake

/-- `wakeup` at a slot leaves every process as it is, or makes one `RUNNABLE` that sleeps on the
channel. -/
theorem wakeSlot_slot (r : Fin nproc) :
    s'.proc r = s.proc r ∨ (s.proc r).state = .sleeping ∧ (s.proc r).chan = chan ∧
      s'.proc r = { s.proc r with state := .runnable } := by
  obtain ⟨-, rfl⟩ | ⟨-, -, rfl⟩ := wakeSlot_cases wake
  · exact .inl rfl
  · by_cases same : r = q
    · subst same
      simpa [modify] using Proc.woken_cases (s.proc r) chan
    · simp [modify, same]

theorem wakeSlot_running (running : (s.proc r).state = .running) :
    (s'.proc r).state = .running := by
  grind [wakeSlot_slot wake r]

/-- `wakeup` only wakes. -/
theorem wakeSlot_waiting (wait : s'.Waiting r) : s.Waiting r := by
  grind [wakeSlot_slot wake r, Waiting]

theorem wakeSlot_parent : (s'.proc r).parent = (s.proc r).parent := by
  grind [wakeSlot_slot wake r]

theorem wakeSlot_threads : s'.thread = s.thread ∧ s'.waitLock = s.waitLock := by
  obtain ⟨-, rfl⟩ | ⟨-, -, rfl⟩ := wakeSlot_cases wake <;> exact ⟨rfl, rfl⟩

end WakeSlot

/-- After `wakeup(q)` has passed slot `q`, the process there does not wait. -/
theorem wakeSlot_awake (wake : s.wakeSlot (some p) (some (.proc q)) q = some s')
    (running : (s.proc p).state = .running) : ¬ s'.Waiting q := by
  obtain ⟨me, rfl⟩ | ⟨-, -, rfl⟩ := wakeSlot_cases wake
  · cases me
    rintro ⟨asleep, -⟩
    rw [running] at asleep
    cases asleep
  · rintro ⟨asleep, chan⟩
    simp only [modify, Function.update_self] at asleep chan
    by_cases waits : (s.proc q).state = .sleeping ∧ (s.proc q).chan = some (.proc q)
    · rw [Proc.woken, if_pos waits] at asleep
      cases asleep
    · rw [Proc.woken, if_neg waits] at asleep chan
      exact waits ⟨asleep, chan⟩

namespace Family

section

variable (family : s.Family)
include family

/-- Only the slots, the places of the threads and `wait_lock` matter. -/
theorem congr (proc : t.proc = s.proc) (threads : ∀ r, (t.thread r).pc = (s.thread r).pc)
    (lock : t.waitLock = s.waitLock) : t.Family := by
  obtain ⟨holds, alive, hasParent, first, dead, noZombie, known⟩ := family
  constructor
  case asserts =>
    intro p
    rw [threads]
    exact (known p).frame (fun _ _ eq => by rwa [proc] at eq) (fun _ _ _ => by rw [proc])
      (fun _ eq => by rwa [proc] at eq) fun r wait => by rwa [Waiting, proc] at wait
  case no_zombie =>
    intro p q wait parent zombie
    rw [Waiting, proc] at wait
    rw [proc] at parent zombie
    obtain ⟨eq, r, status, i, there⟩ := noZombie p q wait parent zombie
    exact ⟨eq, r, status, i, by rw [threads, there]⟩
  all_goals
    simp only [proc, threads, lock]
    assumption

/-- A change that does not concern the process tree. -/
theorem quiet {f : Proc → Proc} (inv : s.Inv)
    (parent : (f (s.proc q)).parent = (s.proc q).parent)
    (state : (f (s.proc q)).state = (s.proc q).state)
    (chan : (f (s.proc q)).chan = (s.proc q).chan) : (s.modify q f).Family :=
  family.edit inv parent (.inl state) fun wait => by
    simpa [Waiting, modify, state, chan] using wait

/-- `kill` wakes the process it finds. -/
theorem marked (inv : s.Inv) : (s.modify q Proc.marked).Family := by
  by_cases asleep : (s.proc q).state = .sleeping
  · refine family.edit inv rfl (.inr ?_) fun wait => ?_
    · simp [Lives, Born, Proc.marked, asleep]
    · simp [Waiting, modify, Proc.marked, asleep] at wait
  · exact family.quiet inv rfl (by simp [Proc.marked, asleep]) rfl

/-- A thread with `wait_lock` moves on, from any place but one. -/
theorem within (running : (s.proc p).state = .running) (held : (s.thread p).pc.holdsWaitLock)
    (elsewhere : ∀ status i, (s.thread p).pc ≠ .wakeInit status i 0) (known : s.Asserts p pc) :
    (s.goto p pc).Family :=
  family.goto running (fun _ => family.holds p held) known fun status i here =>
    absurd here (elsewhere status i)

/-- A thread without `wait_lock` moves on. -/
theorem move (running : (s.proc p).state = .running)
    (before : (s.thread p).pc.holdsWaitLock = false) (after : pc.holdsWaitLock = false)
    (known : s.Asserts p pc) : (s.goto p pc).Family := by
  refine family.goto running (fun held => ?_) known fun status i here => ?_
  · rw [after] at held
    cases held
  · rw [here] at before
    cases before

end

section

variable [DecidableEq C]

/-- A thread without `wait_lock` gives up its CPU. -/
theorem switchFrom {how : Switch} (family : s.Family) (inv : s.Inv)
    (running : (s.proc p).state = .running) (before : (s.thread p).pc.holdsWaitLock = false)
    (after : pc.holdsWaitLock = false) (known : s.Asserts p pc)
    (child : ∀ np, pc.child = some np → (s.thread p).pc.child = some np)
    (parent : (f (s.proc p)).parent = (s.proc p).parent) (lives : Lives (f (s.proc p)))
    (waiting : ¬ (s.modify p f).Waiting p) : ((s.modify p f).switchFrom c p st how pc).Family := by
  have moved := family.move running before after known
  have edited := moved.edit (q := p) (f := f) (inv.goto child) parent
    (.inr ⟨lives_of_running running, lives⟩) fun wait => absurd wait waiting
  refine edited.congr rfl (fun r => ?_) rfl
  simp only [State.switchFrom, setThread, setCpu, setLock, modify, State.goto,
    Function.update_apply]
  split_ifs <;> rfl

end

end Family

section

variable (family : s.Family) (inv : s.Inv) (running : (s.proc p).state = .running)
include family inv running

/-- `exit` has handed a child to the first process and wakes it. -/
theorem Family.wakeInit {i : Nat} (at_ : (s.thread p).pc = .wakeInit status i q)
    (wake : s.wakeSlot (some p) (some (.proc initproc)) q = some s') :
    (s'.goto p (.wakeInit status i (q + 1))).Family := by
  have family' := family.wakeSlot inv wake
  obtain ⟨threads, lock⟩ := wakeSlot_threads wake
  have there : (s'.thread p).pc = .wakeInit status i q := by rw [threads, at_]
  have awake : ¬ s'.Waiting initproc := by
    by_cases here : q = initproc
    · rw [here] at wake
      exact wakeSlot_awake wake running
    · have known := family.asserts p
      rw [at_] at known
      have pos : 0 < q.val := by
        rw [Nat.pos_iff_ne_zero]
        exact fun zero => here (Fin.ext zero)
      exact fun wait => known.2.2 pos (wakeSlot_waiting wake wait)
  have known' := family'.asserts p
  rw [there] at known'
  refine family'.goto (wakeSlot_running wake running) (fun _ => ?_)
    ⟨known'.1, known'.2.1, fun _ => awake⟩ fun _ _ _ => awake
  exact family'.holds p (by rw [there]; rfl)

/-- `exit` wakes its parent. -/
theorem Family.wakeParent (at_ : (s.thread p).pc = .wakeParent status q)
    (wake : s.wakeSlot (some p) ((s.proc p).parent.map .proc) q = some s') :
    (s'.goto p (.wakeParent status (q + 1))).Family := by
  have family' := family.wakeSlot inv wake
  obtain ⟨threads, lock⟩ := wakeSlot_threads wake
  have there : (s'.thread p).pc = .wakeParent status q := by rw [threads, at_]
  have known := family'.asserts p
  rw [there] at known
  refine family'.goto (wakeSlot_running wake running) (fun _ => ?_)
    ⟨known.1, known.2.1, fun r parent lt => ?_⟩ fun status' i here => ?_
  · exact family'.holds p (by rw [there]; rfl)
  · by_cases here : r = q
    · rw [wakeSlot_parent wake, here] at parent
      rw [parent] at wake
      rw [here]
      exact wakeSlot_awake wake running
    · exact known.2.2 r parent (by omega)
  · rw [there] at here
    cases here

/-- The section of `wait` at a child. -/
theorem Family.waitSlot {w : Wait} {kids ok : Bool} (at_ : (s.thread p).pc = .scan w q kids)
    (child : (s.proc q).parent = some p) : (s.waitSlot p q w ok).Family := by
  have held : (s.thread p).pc.holdsWaitLock := by rw [at_]; rfl
  have other (status : Int) (i : Nat) : (s.thread p).pc ≠ .wakeInit status i 0 := by
    rw [at_]
    rintro ⟨⟩
  unfold State.waitSlot
  split_ifs with zombie failed x
  · exact family.release running held other rfl trivial
  -- `freeproc` and the release of `wait_lock`, with or without the times of `waitx`
  iterate 2
    have freed := family.free (f := Proc.freed) inv (.inl zombie) rfl rfl
    have ne : p ≠ q := by
      rintro rfl
      rw [running] at zombie
      cases zombie
    have still : ((s.modify q Proc.freed).proc p).state = .running := by
      simpa [modify, ne] using running
    have released : (((s.modify q Proc.freed).setWaitLock none).goto p .user).Family :=
      freed.release still held other rfl trivial
    exact released.congr rfl (fun _ => rfl) rfl
  · have known := family.asserts p
    rw [at_] at known
    refine family.goto running (fun _ => family.holds p held) (fun r lt parent => ?_)
      fun status i here => absurd here (other status i)
    by_cases here : r = q
    · rw [here]
      exact zombie
    · exact known r (by omega) parent

end

section

variable [DecidableEq C]

/-- The others are as before after `exit` and `sleep` in `wait` have called `sched`. -/
theorem section_switchFrom (f : Proc → Proc) (how : Switch) :
    Section s (((s.modify p f).setWaitLock none).switchFrom c p st how pc) p pc none p f := by
  constructor
  case lock => rfl
  all_goals
    simp +contextual [State.switchFrom, setThread, setCpu, setLock, modify, setWaitLock]

/-- A step of a thread keeps the process tree. -/
theorem ThreadStep.family (run : ThreadStep s c p st s') (inv : s.Inv) (family : s.Family)
    (running : (s.proc p).state = .running) : s'.Family := by
  have known := family.asserts p
  have lives := lives_of_running running
  cases run with
  | @move pc before after priority stays =>
    exact family.move running (unheld_of_plain before) (unheld_of_plain after)
      (asserts_plain after stays)
  | @alloc np ok pc lock unused =>
    cases ok with
    | true => exact family.alloc unused running (unheld_of_plain pc)
    | false =>
      have freed := family.free (f := fun q => (q.claimed s.nextpid).freed) inv (.inr unused)
        rfl rfl
      have ne : p ≠ np := by
        rintro rfl
        rw [running] at unused
        cases unused
      have moved : ((s.modify np fun q => (q.claimed s.nextpid).freed).goto p .user).Family :=
        freed.move (by simpa [modify, ne] using running) (unheld_of_plain pc) rfl trivial
      exact moved.congr rfl (fun _ => rfl) rfl
  | adopt pc free => exact family.adopt inv free pc running
  | start pc lock => exact (family.start inv pc).congr rfl (fun _ => rfl) rfl
  | exit pc free =>
    rw [pc] at known
    exact family.acquire running free ⟨known, fun _ lt => absurd lt (Nat.not_lt_zero _)⟩
  | reparent pc child => exact family.reparent pc running child
  | @reparentNext status q pc other =>
    rw [pc] at known
    refine family.within running (by rw [pc]; rfl) (by simp [pc]) ⟨known.1, fun r lt => ?_⟩
    by_cases here : r = q
    · rwa [here]
    · exact known.2 r (by omega)
  | reparentEnd pc last =>
    rw [pc] at known
    exact family.within running (by rw [pc]; rfl) (by simp [pc])
      ⟨known.1, fun r => known.2 r (by omega), fun _ _ lt => absurd lt (Nat.not_lt_zero _)⟩
  | wakeInit pc wake => exact family.wakeInit inv running pc wake
  | @wakeInitEnd status i j pc last =>
    rw [pc] at known
    refine family.within running (by rw [pc]; rfl) (fun status' i' here => ?_)
      ⟨known.1, fun r lt => known.2.1 r (by omega)⟩
    rw [pc] at here
    cases here
    exact absurd last (by decide)
  | wakeParent pc wake => exact family.wakeParent inv running pc wake
  | wakeParentEnd pc last =>
    rw [pc] at known
    exact family.within running (by rw [pc]; rfl) (by simp [pc])
      ⟨known.1, known.2.1, fun r parent => known.2.2 r parent (by omega)⟩
  | zombie pc lock =>
    exact (family.exit pc (f := fun q => q.exited _ s.ticks) rfl (section_switchFrom _ _)).congr
      rfl (fun _ => rfl) rfl
  | wait pc free => exact family.acquire running free fun _ lt => absurd lt (Nat.not_lt_zero _)
  | scan pc child lock => exact family.waitSlot inv running pc child
  | @scanNext w q kids pc other =>
    rw [pc] at known
    exact family.within running (by rw [pc]; rfl) (by simp [pc]) fun r lt parent =>
      known r (by grind) parent
  | scanEnd pc last =>
    rw [pc] at known
    exact family.within running (by rw [pc]; rfl) (by simp [pc]) fun r parent =>
      known r (by omega) parent
  | failed pc =>
    exact family.release running (by rw [pc]; rfl) (by simp [pc]) rfl trivial
  | scanned pc =>
    rw [pc] at known
    exact family.within running (by rw [pc]; rfl) (by simp [pc]) known
  | sleep pc lock =>
    exact family.sleep pc (f := fun q => q.asleep (.proc p)) rfl rfl (section_switchFrom _ _)
  | @wakeup chan q s₁ pc wake =>
    refine (family.wakeSlot inv wake).move (wakeSlot_running wake running) ?_ rfl trivial
    rw [(wakeSlot_threads wake).1, pc]
    rfl
  | @kill q pc lock =>
    refine (family.marked inv).move ?_ (by simp only [modify, pc]; rfl) rfl trivial
    by_cases same : p = q
    · subst same
      simp [modify, Proc.marked, running]
    · simpa [modify, same] using running
  | @prioritize priority q pc before after lock =>
    obtain ⟨_, _, eq⟩ := Proc.prioritized_frame (s.proc q) priority
    have edited := family.quiet (q := q) (f := fun r => r.prioritized priority) inv (by rw [eq])
      (by rw [eq]) (by rw [eq])
    have still : ((s.modify q fun r => r.prioritized priority).proc p).state = .running := by
      by_cases same : p = q
      · subst same
        simpa [modify, eq] using running
      · simpa [modify, same] using running
    have moved : ((s.modify q fun r => r.prioritized priority).goto p pc).Family := by
      refine edited.move still (by simp only [modify, before]; rfl) ?_ ?_
      · rcases after with rfl | rfl <;> rfl
      · rcases after with rfl | rfl <;> trivial
    exact moved.congr rfl (fun _ => rfl) rfl
  | yield pc lock =>
    refine family.switchFrom inv running (by rw [pc]; rfl) rfl trivial (by rintro _ ⟨⟩) rfl ?_ ?_
    · simp [Lives, Born]
    · simp [Waiting, modify]

/-- Every step keeps the process tree. -/
theorem Effect.family {policy : Policy} {hart0 : C} {l : Label C}
    (run : Effect policy hart0 s l s') (inv : s.Inv) (family : s.Family) : s'.Family := by
  have threads (t : State C) (p r : Fin nproc) : ((t.release p).thread r).pc = (t.thread r).pc := by
    simp only [State.release, setThread, setLock, Function.update_apply]
    split_ifs with same
    · rw [same]
    · rfl
  cases run with
  | idle | compared | leave | tick | device | updated | handled =>
    exact family.congr rfl (fun _ => rfl) rfl
  | timer => exact family
  | @dispatch c p f off before lock runnable how =>
    have edited : (s.modify p f).Family := by
      refine family.edit inv ?_ (.inr ⟨?_, ?_⟩) fun wait => ?_
      · rcases how with rfl | rfl <;> rfl
      · simp [Lives, Born, runnable]
      · rcases how with rfl | rfl <;> simp [Lives, Born, Proc.dispatched]
      · rcases how with rfl | rfl <;> simp [Waiting, modify, Proc.dispatched] at wait
    exact edited.congr rfl (fun _ => rfl) rfl
  | @switchedOut c p start off pbs before =>
    obtain ⟨_, _, _, _, eq⟩ := Proc.switchedOut_frame (s.proc p) start s.ticks
    have edited := family.quiet (q := p) (f := fun q => q.switchedOut start s.ticks) inv
      (by rw [eq]) (by rw [eq]) (by rw [eq])
    exact edited.congr rfl (fun _ => rfl) rfl
  | @updateTime c q at_ lock =>
    have stats (r : Proc) : r.updateStats.parent = r.parent ∧ r.updateStats.chan = r.chan := by
      unfold Proc.updateStats
      split <;> exact ⟨rfl, rfl⟩
    have edited := family.quiet (q := q) (f := Proc.updateStats) inv (stats _).1
      (Proc.updateStats_state _) (stats _).2
    exact edited.congr rfl (fun _ => rfl) rfl
  | handlerWake at_ wake => exact (family.wakeSlot inv wake).congr rfl (fun _ => rfl) rfl
  | @call c op p st pc cur active user plain exit priority =>
    refine family.move (current_running inv cur) (by rw [user]; rfl) (unheld_of_plain plain) ?_
    by_cases other : ∀ status, pc ≠ .exit status
    · exact asserts_plain plain other
    · push Not at other
      obtain ⟨status, rfl⟩ := other
      exact exit status rfl
  | sleep cur active user lock =>
    refine family.switchFrom inv (current_running inv cur) (by rw [user]; rfl) rfl trivial
      (by rintro _ ⟨⟩) rfl ?_ ?_
    · simp [Lives, Born, Proc.asleep]
    · simp [Waiting, modify, Proc.asleep]
  | trap cur active user lock => exact family.quiet inv rfl rfl rfl
  | resume => exact family.congr rfl (threads s _) rfl
  | @awake c ok p =>
    refine (family.edit (q := p) (f := fun q => { q with chan := none }) inv rfl (.inl rfl)
      fun wait => ?_).congr rfl (threads _ p) rfl
    simp [Waiting, modify] at wait
  | thread cur active run => exact run.family inv family (current_running inv cur)
  | preempt cur active unheld lock =>
    refine family.switchFrom inv (current_running inv cur) unheld unheld (family.asserts _)
      (fun _ eq => eq) rfl ?_ ?_
    · simp [Lives, Born]
    · simp [Waiting, modify]

omit [DecidableEq C] in
theorem Family.boot (policy : Policy) : (boot C policy).Family := by
  have slots := boot_proc C policy
  have parents (p : Fin nproc) : ((Sched.boot C policy).proc p).parent = none := by
    rw [slots]
    split_ifs <;> rfl
  constructor
  case holds => exact fun p held => by cases held
  case parent_alive =>
    intro q r parent
    rw [parents] at parent
    cases parent
  case has_parent => grind [Born, Proc.empty]
  case first =>
    refine ⟨?_, parents _⟩
    rw [slots, if_pos rfl]
    simp [Lives, Born]
  case dead => exact fun p _ => rfl
  case no_zombie =>
    intro p q _ parent
    rw [parents] at parent
    cases parent
  case asserts => exact fun p => trivial

end

end State

open State

/-- The process tree of every state that the system reaches. -/
theorem Reachable.family {C : Type} [DecidableEq C] {policy : Policy} {hart0 : C} {s : State C}
    (reach : Reachable policy hart0 s) : s.Family := by
  obtain ⟨ls, run⟩ := reach
  refine (Transitions.run_invariant (fun s : State C => s.Inv ∧ s.Family)
    (fun s l s' both step => ?_) ⟨Inv.boot policy, Family.boot policy⟩ run).2
  exact ⟨(step_effect step).inv both.1, (step_effect step).family both.1 both.2⟩

end Xv6.Sched
