import Xv6.Sched.Effects

/-!
# What a step does to a slot

For properties of single processes the threads and CPUs matter only as far as they say who
may change a slot.  `Edit` lists the changes.
-/

namespace Xv6.Sched.State

variable {C : Type} {policy : Policy} {hart0 : C} {s s' : State C} {c : C}
  {p q : Fin nproc} {st : UInt32} {l : Label C}

/-- The values that a step can give to slot `q`. -/
inductive Edit (policy : Policy) (s : State C) (q : Fin nproc) : Label C → Proc → Prop
  | same {l : Label C} : Edit policy s q l (s.proc q)
  | run {c : C} (runnable : (s.proc q).state = .runnable) :
      Edit policy s q (.scheduler c) { s.proc q with state := .running }
  | dispatched {c : C} (runnable : (s.proc q).state = .runnable) :
      Edit policy s q (.scheduler c) (s.proc q).dispatched
  | switchedOut {c : C} {st : UInt32} (pbs : policy = .pbs)
      (pc : (s.cpu c).pc = .returned q st) :
      Edit policy s q (.scheduler c) ((s.proc q).switchedOut st s.ticks)
  | updateStats {c : C} (handler : (s.cpu c).handler = some (.updateTime q)) :
      Edit policy s q (.handler c) (s.proc q).updateStats
  | woken {l : Label C} {chan : Option Chan} (lock : s.lock q = none) :
      Edit policy s q l ((s.proc q).woken chan)
  | asleep {l : Label C} {c : C} {st : UInt32} {chan : Chan} (cur : s.current c = some (q, st)) :
      Edit policy s q l ((s.proc q).asleep chan)
  | awake {c : C} {ok : Bool} {st : UInt32} (cur : s.current c = some (q, st)) :
      Edit policy s q (.proc c ok) { s.proc q with chan := none }
  | yielded {l : Label C} {c : C} {st : UInt32} (cur : s.current c = some (q, st)) :
      Edit policy s q l { s.proc q with state := .runnable }
  | trapped {c : C} {st : UInt32} (cur : s.current c = some (q, st)) :
      Edit policy s q (.call c .trap) { s.proc q with killed := true }
  | created {c : C} {ok : Bool} (unused : (s.proc q).state = .unused) :
      Edit policy s q (.proc c ok) (((s.proc q).claimed s.nextpid).started s.ticks)
  | refused {c : C} {ok : Bool} (unused : (s.proc q).state = .unused) :
      Edit policy s q (.proc c ok) ((s.proc q).claimed s.nextpid).freed
  | parent {c : C} {ok : Bool} {p : Fin nproc} :
      Edit policy s q (.proc c ok) { s.proc q with parent := some p }
  | start {c : C} {ok : Bool} {p : Fin nproc} {pid : Int} (pc : (s.thread p).pc = .start q pid) :
      Edit policy s q (.proc c ok) { s.proc q with state := .runnable }
  | exited {c : C} {ok : Bool} {st : UInt32} {status : Int} (cur : s.current c = some (q, st)) :
      Edit policy s q (.proc c ok) ((s.proc q).exited status s.ticks)
  | freed {c : C} {ok : Bool} (zombie : (s.proc q).state = .zombie) :
      Edit policy s q (.proc c ok) (s.proc q).freed
  | marked {c : C} {ok : Bool} {p : Fin nproc} {st : UInt32} (cur : s.current c = some (p, st))
      (active : (s.thread p).switch = none) (pc : (s.thread p).pc = .kill (s.proc q).pid q)
      (lock : s.lock q = none) :
      Edit policy s q (.proc c ok) (s.proc q).marked
  | prioritized {c : C} {ok : Bool} {p : Fin nproc} {priority : UInt32}
      (pc : (s.thread p).pc = .prioritize priority q) :
      Edit policy s q (.proc c ok) ((s.proc q).prioritized priority)

/-- A step that changes at most slot `p`. -/
theorem edit_modify {f : Proc → Proc} (edit : Edit policy s p l (f (s.proc p))) (q : Fin nproc) :
    Edit policy s q l ((s.modify p f).proc q) := by
  simp only [modify, Function.update_apply]
  split_ifs with same
  · subst same
    exact edit
  · exact .same

theorem edit_wakeSlot {me : Option (Fin nproc)} {chan : Option Chan}
    (wake : s.wakeSlot me chan p = some s') (q : Fin nproc) : Edit policy s q l (s'.proc q) := by
  obtain ⟨-, rfl⟩ | ⟨-, lock, rfl⟩ := wakeSlot_cases wake
  · exact .same
  · exact edit_modify (.woken lock) q

variable [DecidableEq C]

theorem ThreadStep.edit {ok : Bool} (cur : s.current c = some (p, st))
    (active : (s.thread p).switch = none) (run : s.ThreadStep c p st s') (q : Fin nproc) :
    Edit policy s q (.proc c ok) (s'.proc q) := by
  cases run with
  | @alloc np ok pc lock unused =>
    cases ok with
    | true =>
      exact edit_modify (f := fun q => (q.claimed s.nextpid).started s.ticks) (.created unused) q
    | false => exact edit_modify (f := fun q => (q.claimed s.nextpid).freed) (.refused unused) q
  | adopt => exact edit_modify (f := fun q => { q with parent := some p }) .parent q
  | start pc lock => exact edit_modify (f := fun q => { q with state := .runnable }) (.start pc) q
  | reparent => exact edit_modify (f := fun q => { q with parent := some initproc }) .parent q
  | wakeInit pc wake | wakeParent pc wake | wakeup pc wake => exact edit_wakeSlot wake q
  | @zombie status =>
    exact edit_modify (f := fun q => q.exited status s.ticks) (.exited cur) q
  | @scan w r kids ok pc child lock =>
    unfold waitSlot
    split_ifs with zombie
    · exact .same
    · exact edit_modify (.freed zombie) q
    · exact edit_modify (.freed zombie) q
    · exact .same
  | sleep => exact edit_modify (f := fun q => q.asleep (.proc p)) (.asleep cur) q
  | kill pc lock => exact edit_modify (.marked cur active pc lock) q
  | @prioritize priority r pc before =>
    exact edit_modify (f := fun q => q.prioritized priority) (.prioritized before) q
  | yield => exact edit_modify (f := fun q => { q with state := .runnable }) (.yielded cur) q
  | _ => exact .same

theorem Effect.edit (effect : Effect policy hart0 s l s') (q : Fin nproc) :
    Edit policy s q l (s'.proc q) := by
  cases effect with
  | dispatch off before lock runnable how =>
    rcases how with rfl | rfl
    · exact edit_modify (f := fun q => { q with state := .running }) (.run runnable) q
    · exact edit_modify (.dispatched runnable) q
  | @switchedOut c p st off pbs before =>
    exact edit_modify (f := fun q => q.switchedOut st s.ticks) (.switchedOut pbs before) q
  | updateTime at_ lock => exact edit_modify (.updateStats at_) q
  | handlerWake at_ wake => exact edit_wakeSlot wake q
  | @sleep c chan p st cur =>
    exact edit_modify (f := fun q => q.asleep (.addr chan)) (.asleep cur) q
  | trap cur => exact edit_modify (f := fun q => { q with killed := true }) (.trapped cur) q
  | awake cur => exact edit_modify (f := fun q => { q with chan := none }) (.awake cur) q
  | thread cur active run => exact run.edit cur active q
  | preempt cur => exact edit_modify (f := fun q => { q with state := .runnable }) (.yielded cur) q
  | _ => exact .same

end Xv6.Sched.State
