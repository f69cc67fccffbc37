import Xv6.Sched.OneCpu
import Xv6.Sched.Slots

/-!
# Whom `kill` reaches

A free slot has pid 0, so that `kill(0)` finds one and marks it, and `allocproc` does not
clear the mark: the next process in that slot is killed from its start.  Nothing else goes
wrong with the flag.
-/

namespace Xv6.Sched

namespace State

variable {C : Type} {policy : Policy} {hart0 : C} {s s' : State C} {l : Label C} {q : Fin nproc}
  {r : Proc}

/-- What a step may do to the flag `killed` of slot `q`: a process that `allocproc` returns
is not marked, and a flag is set only for a process that exists, by a `kill` with its pid
or by its own trap. -/
def KillProper (s s' : State C) (l : Label C) (q : Fin nproc) : Prop :=
  ((s.proc q).state = .unused → (s'.proc q).state ≠ .unused → (s'.proc q).killed = false) ∧
  ((s.proc q).killed = false → (s'.proc q).killed = true →
    (s.proc q).state ≠ .unused ∧
      ((∃ c ok p st i, l = .proc c ok ∧ s.current c = some (p, st) ∧
          (s.thread p).pc = .kill (s.proc q).pid i) ∨
        ∃ c st, l = .call c .trap ∧ s.current c = some (q, st)))

/-- The slot that a `kill` marks in this step is not a free one. -/
def KillFindsProcess (s : State C) (l : Label C) : Prop :=
  ∀ c ok p st q, l = .proc c ok → s.current c = some (p, st) → (s.thread p).switch = none →
    (s.thread p).pc = .kill (s.proc q).pid q → s.lock q = none → (s.proc q).state ≠ .unused

/-- No free slot is marked. -/
def FreeUnmarked (s : State C) : Prop := ∀ q, (s.proc q).state = .unused → (s.proc q).killed = false

theorem Proc.woken_killed (q : Proc) (chan : Option Chan) : (q.woken chan).killed = q.killed := by
  unfold Proc.woken
  split_ifs <;> rfl

theorem Proc.updateStats_killed (q : Proc) : q.updateStats.killed = q.killed := by
  unfold Proc.updateStats
  split <;> rfl

/-- A change of a slot keeps the flag or clears it, unless it is by `kill` or by a trap. -/
theorem Edit.killed (edit : Edit policy s q l r) : r.killed = (s.proc q).killed ∨ r.killed = false ∨
      (∃ c ok p st, l = .proc c ok ∧ s.current c = some (p, st) ∧ (s.thread p).switch = none ∧
        (s.thread p).pc = .kill (s.proc q).pid q ∧ s.lock q = none) ∨
      ∃ c st, l = .call c .trap ∧ s.current c = some (q, st) := by
  cases edit with
  | woken lock => exact .inl (Proc.woken_killed _ _)
  | updateStats => exact .inl (Proc.updateStats_killed _)
  | refused | freed => exact .inr (.inl rfl)
  | marked cur active pc lock => exact .inr (.inr (.inl ⟨_, _, _, _, rfl, cur, active, pc, lock⟩))
  | trapped cur => exact .inr (.inr (.inr ⟨_, _, rfl, cur⟩))
  | switchedOut =>
    obtain ⟨_, _, _, _, eq⟩ := Proc.switchedOut_frame (s.proc q) _ _
    exact .inl (by rw [eq])
  | prioritized =>
    obtain ⟨_, _, eq⟩ := Proc.prioritized_frame (s.proc q) _
    exact .inl (by rw [eq])
  | _ => exact .inl rfl

/-- A slot that is no longer free has been set up by `allocproc`. -/
theorem Edit.created_of_unused (inv : s.Inv) (edit : Edit policy s q l r)
    (unused : (s.proc q).state = .unused) (used : r.state ≠ .unused) :
    r = ((s.proc q).claimed s.nextpid).started s.ticks := by
  have same (state : r.state = (s.proc q).state) : False := used (state.trans unused)
  have other {state : ProcState} (eq : (s.proc q).state = state) (ne : state ≠ .unused) : False :=
    ne (eq.symm.trans unused)
  cases edit with
  | created => rfl
  | same | parent => exact (same rfl).elim
  | switchedOut =>
    obtain ⟨_, _, _, _, eq⟩ := Proc.switchedOut_frame (s.proc q) _ _
    exact (same (by rw [eq])).elim
  | prioritized =>
    obtain ⟨_, _, eq⟩ := Proc.prioritized_frame (s.proc q) _
    exact (same (by rw [eq])).elim
  | run runnable | dispatched runnable => exact (other runnable (by decide)).elim
  | updateStats => exact (same (Proc.updateStats_state _)).elim
  | woken lock =>
    rcases Proc.woken_state (s.proc q) _ with eq | ⟨asleep, -⟩
    · exact (same eq).elim
    · exact (other asleep (by decide)).elim
  | asleep cur | awake cur | yielded cur | trapped cur | exited cur =>
    exact (other (current_running inv cur) (by decide)).elim
  | refused | freed => exact absurd rfl used
  | start pc => exact (other (inv.child _ q (by rw [pc]; rfl)) (by decide)).elim
  | marked =>
    refine (same ?_).elim
    simp only [Proc.marked]
    rw [if_neg (by rw [unused]; decide)]

/-- A slot that is free was free before, or `freeproc` has cleared it. -/
theorem Edit.of_unused (edit : Edit policy s q l r) (unused : r.state = .unused) :
    (s.proc q).state = .unused ∨ r.killed = false := by
  cases edit with
  | same | awake | trapped | parent => exact .inl unused
  | refused | freed => exact .inr rfl
  | run | dispatched | asleep | yielded | created | start | exited => cases unused
  | switchedOut =>
    obtain ⟨_, _, _, _, eq⟩ := Proc.switchedOut_frame (s.proc q) _ _
    rw [eq] at unused
    exact .inl unused
  | prioritized =>
    obtain ⟨_, _, eq⟩ := Proc.prioritized_frame (s.proc q) _
    rw [eq] at unused
    exact .inl unused
  | updateStats => exact .inl ((Proc.updateStats_state _).symm.trans unused)
  | woken lock =>
    rcases Proc.woken_state (s.proc q) _ with eq | ⟨-, eq⟩
    · exact .inl (eq.symm.trans unused)
    · cases eq.symm.trans unused
  | marked =>
    simp only [Proc.marked] at unused
    split_ifs at unused
    exact .inl unused

variable [DecidableEq C]

/-- A step that marks no free slot leaves none marked. -/
theorem FreeUnmarked.step (unmarked : s.FreeUnmarked) (inv : s.Inv) (finds : s.KillFindsProcess l)
    (taken : s.step policy hart0 l = some s') : s'.FreeUnmarked := by
  intro q unused
  have edit := (step_effect taken).edit q
  rcases edit.of_unused unused with before | cleared
  · rcases edit.killed with same | cleared | ⟨c, ok, p, st, rfl, cur, active, pc, lock⟩ |
      ⟨c, st, rfl, cur⟩
    · rw [same, unmarked q before]
    · exact cleared
    · exact absurd before (finds c ok p st q rfl cur active pc lock)
    · rw [current_running inv cur] at before
      cases before
  · exact cleared

omit [DecidableEq C] in
theorem FreeUnmarked.boot : (boot C policy).FreeUnmarked := by
  intro q _
  rw [boot_proc]
  split_ifs <;> rfl

/-- Where no free slot is marked, a step is proper exactly when it marks none. -/
theorem killProper_iff (inv : s.Inv) (unmarked : s.FreeUnmarked) :
    (∀ s', s.step policy hart0 l = some s' → ∀ q, s.KillProper s' l q) ↔ s.KillFindsProcess l := by
  constructor
  · rintro proper c ok p st q rfl cur active pc lock unused
    have taken : s.step policy hart0 (.proc c ok) =
        some ((s.modify q Proc.marked).goto p .user) := by
      simp only [step, cur, Option.bind_some, active, continue_, pc]
      simp [slot, lock]
    refine ((proper _ taken q).2 (unmarked q unused) ?_).1 unused
    simp [goto, setThread, modify, Proc.marked]
  · intro finds s' taken q
    have edit := (step_effect taken).edit q
    refine ⟨fun unused used => ?_, fun clear set => ?_⟩
    · rw [edit.created_of_unused inv unused used]
      exact unmarked q unused
    · rcases edit.killed with same | cleared | ⟨c, ok, p, st, rfl, cur, active, pc, lock⟩ |
        ⟨c, st, rfl, cur⟩
      · rw [same, clear] at set
        cases set
      · rw [cleared] at set
        cases set
      · exact ⟨finds c ok p st q rfl cur active pc lock, .inl ⟨c, ok, p, st, q, rfl, cur, pc⟩⟩
      · exact ⟨by rw [current_running inv cur]; decide, .inr ⟨c, st, rfl, cur⟩⟩

end State

open State Transitions

/-- In a run after boot the flag is handled properly in every step exactly when no step
marks a free slot. -/
theorem kill_lifetime_iff {C : Type} [DecidableEq C] (policy : Policy) (hart0 : C)
    (ls : List (Label C)) :
    Meets (step policy hart0)
        (fun s l => ∀ s', s.step policy hart0 l = some s' → ∀ q, s.KillProper s' l q)
        (boot C policy) ls ↔
      Meets (step policy hart0) KillFindsProcess (boot C policy) ls := by
  refine meets_iff (fun s => s.Inv ∧ s.FreeUnmarked) (fun s l inv => killProper_iff inv.1 inv.2)
    (fun s l s' inv proper taken => ?_) ⟨.boot policy, .boot⟩
  have finds := (killProper_iff inv.1 inv.2).1 proper
  exact ⟨(step_effect taken).inv inv.1, inv.2.step inv.1 finds taken⟩

/-- The first process calls `kill(0)`, and then `fork` up to its second slot. -/
def killZeroRun {C : Type} (c : C) : List (Label C) :=
  [.scheduler c, .proc c true, .call c (.kill 0), .proc c true, .proc c true, .call c .fork,
    .proc c true]

/-- After `kill(0)` the next process that `allocproc` returns is marked. -/
theorem kill_zero_marks_next : ∃ s s' : State (Fin 1),
    exec (step .rr 0) (boot (Fin 1) .rr) (killZeroRun 0) = some s ∧
    s.step .rr 0 (.proc 0 true) = some s' ∧ (s.proc 1).state = .unused ∧
    (s'.proc 1).state = .used ∧ (s'.proc 1).pid = 2 ∧ (s'.proc 1).killed = true := by
  have pass : (exec (step .rr (0 : Fin 1)) (boot (Fin 1) .rr) (killZeroRun 0)).any (fun s =>
      decide ((s.proc 1).state = .unused) && (s.step .rr 0 (.proc 0 true)).any fun s' =>
        (s'.proc 1).state = .used ∧ (s'.proc 1).pid = 2 ∧ (s'.proc 1).killed = true) = true := by
    decide +kernel
  obtain ⟨s, run, test⟩ := (Option.any_eq_true _ _).1 pass
  obtain ⟨unused, test⟩ := Bool.and_eq_true_iff.1 test
  obtain ⟨s', taken, test⟩ := (Option.any_eq_true _ _).1 test
  exact ⟨s, s', run, taken, of_decide_eq_true unused, of_decide_eq_true test⟩

end Xv6.Sched
