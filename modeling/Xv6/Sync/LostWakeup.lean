import Xv6.Sync.SleepLock

/-!
# Sleep locks are exclusive and lose no wakeup

A process that has found the lock taken holds the spin lock inside until it has its own
`p->lock`, and its own `p->lock` until it is `SLEEPING`.  So whoever clears `locked` afterwards
comes to its slot in `wakeup` with the spin lock held, and finds it `SLEEPING` there.
-/

namespace Xv6.Sync

variable {n : Nat} {L : Type} {pid : Fin n ↪ Int} {s s' : Locks n L} {t u : Fin n} {l : L}
  {c : Chan L} {i : Nat}

namespace At

/-- The sleep lock whose spin lock a process holds. -/
@[grind] def inner : At n L → Option L
  | .test l | .sleep (.lock l) | .locked (.lock l) | .wakeup (.lock l) _ => some l
  | _ => none

/-- The process holds its own `p->lock`, or has left it to the scheduler. -/
@[grind] def locks : At n L → Bool
  | .locked _ | .released _ | .sched _ | .back _ => true
  | _ => false

/-- What a process is about to sleep on. -/
@[grind] def dozes : At n L → Option (Chan L)
  | .sleep c | .locked c | .released c | .sched c => some c
  | _ => none

/-- Places outside `sleep`, where a process holds no lock and does not release one. -/
def outside : At n L → Bool
  | .idle | .acquire _ | .holding _ | .returned _ | .kill _ _ | .wakeup (.addr _) _ => true
  | .sleep (.addr _) => true
  | _ => false

end At

namespace Locks

/-- The process has the sleep lock: it has not yet cleared `locked`. -/
def Owns (s : Locks n L) (t : Fin n) (l : L) : Prop := s.held t l = true ∨ s.pc t = .release l

/-- The process needs a wakeup, or will need one. -/
def Waits (s : Locks n L) (t : Fin n) (l : L) : Prop :=
  (s.pc t).dozes = some (.lock l) ∨
    s.pc t = .asleep (.lock l) ∧ (s.proc t).state = .sleeping

/-- A process in `wakeup` has the slot still before it. -/
def WillWake (s : Locks n L) (t : Fin n) (l : L) : Prop :=
  ∃ u i, s.pc u = .wakeup (.lock l) i ∧ i ≤ t

/-- A sleep lock is taken when a process has it, and by one process. -/
@[mk_iff] structure Owners (pid : Fin n ↪ Int) (s : Locks n L) : Prop where
  exists_ : ∀ l, (s.lock l).locked = true → ∃ t, s.Owns t l
  word : ∀ t l, s.Owns t l → (s.lock l).locked = true ∧ (s.lock l).pid = pid t
  alone : ∀ t u l, s.Owns t l → s.Owns u l → u = t

@[mk_iff] structure Inv (pid : Fin n ↪ Int) (s : Locks n L) : Prop where
  owners : s.Owners pid
  inner : ∀ t l, (s.pc t).inner = some l → (s.lock l).lk = some t
  locks : ∀ t, (s.pc t).locks = true → (s.proc t).lock = true
  sleeping : ∀ t, (s.proc t).state = .sleeping →
    ∃ c, (s.proc t).chan = some c ∧ (s.pc t = .sched c ∨ s.pc t = .asleep c)
  waits : ∀ t l, s.Waits t l → (s.lock l).locked = true ∨ s.WillWake t l
  given : ∀ t l, s.pc t = .release l → s.held t l = false

theorem Inv.boot : (Locks.boot n L).Inv pid where
  owners := ⟨by rintro l ⟨⟩, by rintro t l (⟨⟨⟩⟩ | ⟨⟨⟩⟩), by rintro t u l (⟨⟨⟩⟩ | ⟨⟨⟩⟩)⟩
  inner := by rintro t l ⟨⟩
  locks := by rintro t ⟨⟩
  sleeping := by rintro t ⟨⟩
  waits := by rintro t l (⟨⟨⟩⟩ | ⟨⟨⟩, -⟩)
  given := by rintro t l ⟨⟩

/-! What an update leaves of each field, for `simp` and `grind`. -/

section Fields

variable (s : Locks n L) (t u : Fin n) (l : L) (a : At n L) (f : Slot L → Slot L)

@[simp, grind =] theorem goto_pc : (s.goto t a).pc u = if u = t then a else s.pc u :=
  Function.update_apply ..

@[simp, grind =] theorem goto_lock : (s.goto t a).lock l = s.lock l := rfl

@[simp, grind =] theorem goto_proc : (s.goto t a).proc u = s.proc u := rfl

@[simp, grind =] theorem goto_held : (s.goto t a).held u l = s.held u l := rfl

@[simp, grind =] theorem modify_pc : (s.modify t f).pc u = s.pc u := rfl

@[simp, grind =] theorem modify_lock : (s.modify t f).lock l = s.lock l := rfl

@[simp, grind =] theorem modify_proc :
    (s.modify t f).proc u = if u = t then f (s.proc t) else s.proc u :=
  Function.update_apply ..

@[simp, grind =] theorem modify_held : (s.modify t f).held u l = s.held u l := rfl

variable [DecidableEq L] (m : L) (k : SleepLock n) (b : Bool)

@[simp, grind =] theorem setLock_pc : (s.setLock l k).pc u = s.pc u := rfl

@[simp, grind =] theorem setLock_lock : (s.setLock l k).lock m = if m = l then k else s.lock m :=
  Function.update_apply ..

@[simp, grind =] theorem setLock_proc : (s.setLock l k).proc u = s.proc u := rfl

@[simp, grind =] theorem setLock_held : (s.setLock l k).held u m = s.held u m := rfl

@[simp, grind =] theorem setHeld_pc : (s.setHeld t l b).pc u = s.pc u := rfl

@[simp, grind =] theorem setHeld_lock : (s.setHeld t l b).lock m = s.lock m := rfl

@[simp, grind =] theorem setHeld_proc : (s.setHeld t l b).proc u = s.proc u := rfl

@[simp, grind =] theorem setHeld_held :
    (s.setHeld t l b).held u m = if u = t ∧ m = l then b else s.held u m := by
  simp only [setHeld, Function.update_apply]
  split_ifs <;> grind

end Fields

attribute [grind] Slot.woken Slot.marked

/-- A process is not `SLEEPING` outside `sleep`. -/
theorem Inv.awake (inv : s.Inv pid) (sched : ∀ c, s.pc t ≠ .sched c)
    (asleep : ∀ c, s.pc t ≠ .asleep c) :
    (s.proc t).state ≠ .sleeping := by
  intro state
  obtain ⟨c, -, at_ | at_⟩ := inv.sleeping t state
  · exact sched c at_
  · exact asleep c at_

theorem At.outside_spec {a : At n L} (out : a.outside = true) : a.inner = none ∧ a.locks = false ∧
    (∀ l, a.dozes ≠ some (.lock l)) ∧ (∀ l, a ≠ .release l) := by
  cases a with
  | sleep c | wakeup c =>
    cases c
    · cases out
    · exact ⟨rfl, rfl, by rintro l ⟨⟩, by rintro l ⟨⟩⟩
  | idle | acquire | holding | returned | kill =>
    exact ⟨rfl, rfl, by rintro l ⟨⟩, by rintro l ⟨⟩⟩
  | _ => cases out

section

variable (inv : s.Inv pid)
include inv

/-- A process outside `sleep` goes on outside it. -/
theorem Inv.goto {a : At n L} (before : (s.pc t).outside = true) (after : a.outside = true) :
    (s.goto t a).Inv pid := by
  have awake : (s.proc t).state ≠ .sleeping := by
    refine inv.awake (fun c eq => ?_) fun c eq => ?_ <;> rw [eq] at before <;> cases before
  have before := At.outside_spec before
  have after := At.outside_spec after
  have wakes (l : L) (i : Nat) : s.pc t ≠ .wakeup (.lock l) i := by
    intro eq
    rw [eq] at before
    cases before.1
  simp only [inv_iff, owners_iff, Owns, Waits, WillWake] at *
  refine ⟨⟨?_, ?_, ?_⟩, ?_, ?_, ?_, ?_, ?_⟩ <;> simp
  all_goals grind -linarith

/-- A step inside `sleep` that changes the slot of the process. -/
theorem Inv.inSleep {a b : At n L} {f : Slot L → Slot L} (here : s.pc t = b)
    (out : ∀ l i, b ≠ .wakeup (.lock l) i) (owns : ∀ l, a ≠ .release l ∧ b ≠ .release l)
    (inner : ∀ l, a.inner = some l → b.inner = some l)
    (locks : a.locks = true → (f (s.proc t)).lock = true)
    (sleeping : (f (s.proc t)).state = .sleeping →
      ∃ c, (f (s.proc t)).chan = some c ∧ (a = .sched c ∨ a = .asleep c))
    (waits : ∀ l, a.dozes = some (.lock l) ∨ a = .asleep (.lock l) → b.dozes = some (.lock l)) :
    ((s.modify t f).goto t a).Inv pid := by
  subst here
  simp only [inv_iff, owners_iff, Owns, Waits, WillWake] at *
  refine ⟨⟨?_, ?_, ?_⟩, ?_, ?_, ?_, ?_, ?_⟩ <;> simp
  all_goals grind -linarith

/-- The lock is taken: the process will sleep, and has the spin lock. -/
theorem Inv.taken (here : s.pc t = .test l) (taken : (s.lock l).locked = true) :
    (s.goto t (.sleep (.lock l))).Inv pid := by
  simp only [inv_iff, owners_iff, Owns, Waits, WillWake] at *
  refine ⟨⟨?_, ?_, ?_⟩, ?_, ?_, ?_, ?_, ?_⟩ <;> simp
  all_goals grind -linarith

/-- A slot that a waker can lock does not doze: its process would have the `p->lock` or the spin
lock. -/
theorem Inv.not_dozes (here : s.pc t = .wakeup (.lock l) i) (other : u ≠ t)
    (free : (s.proc u).lock = false) : (s.pc u).dozes ≠ some (.lock l) := by
  intro doze
  have unlocked : (s.pc u).locks = false := by
    by_contra locks
    have := inv.locks u (by simpa using locks)
    rw [free] at this
    cases this
  have spin : (s.pc u).inner = some l := by
    cases at_ : s.pc u <;> rw [at_] at doze unlocked <;> cases doze <;> first | rfl | cases unlocked
  have mine := inv.inner t l (by rw [here]; rfl)
  exact other (Option.some.inj ((inv.inner u l spin).symm.trans mine))

/-- `wakeup` passes a slot whose process does not wait any more. -/
theorem Inv.pass {f : Slot L → Slot L} {q : Fin n} (here : s.pc t = .wakeup c i)
    (slot : (q : Nat) = i) (woken : ∀ l, c = .lock l → q ≠ t → ¬ ((s.pc q).dozes = some (.lock l) ∨
      s.pc q = .asleep (.lock l) ∧ (f (s.proc q)).state = .sleeping))
    (same : (f (s.proc q)).lock = (s.proc q).lock ∧ (f (s.proc q)).chan = (s.proc q).chan ∧
      ((f (s.proc q)).state = .sleeping → (s.proc q).state = .sleeping)) :
    ((s.modify q f).goto t (.wakeup c (i + 1))).Inv pid := by
  simp only [inv_iff, owners_iff, Owns, Waits, WillWake] at *
  cases c
  all_goals refine ⟨⟨?_, ?_, ?_⟩, ?_, ?_, ?_, ?_, ?_⟩ <;> simp
  all_goals grind -linarith

/-- A slot is woken, as `kill` does. -/
theorem Inv.marked (q : Fin n) : (s.modify q Slot.marked).Inv pid := by
  simp only [inv_iff, owners_iff, Owns, Waits, WillWake] at *
  refine ⟨⟨?_, ?_, ?_⟩, ?_, ?_, ?_, ?_, ?_⟩ <;> simp
  all_goals grind -linarith

theorem Inv.kill {victim : Int} (here : s.pc t = .kill victim i)
    (eq : s.kill pid t victim i = some s') : s'.Inv pid := by
  have out : (s.pc t).outside = true := by rw [here]; rfl
  unfold Locks.kill at eq
  simp only at eq
  split_ifs at eq with bound locked found <;> cases eq
  · exact (inv.marked _).goto out rfl
  · exact inv.goto out rfl
  · exact inv.goto out rfl

end

section Run

variable [DecidableEq L]

section

variable (inv : s.Inv pid)
include inv

theorem Inv.acquire (here : s.pc t = .acquire l) (free : (s.lock l).lk = none) :
    ((s.setLock l { s.lock l with lk := some t }).goto t (.test l)).Inv pid := by
  simp only [inv_iff, owners_iff, Owns, Waits, WillWake] at *
  refine ⟨⟨?_, ?_, ?_⟩, ?_, ?_, ?_, ?_, ?_⟩ <;> simp
  all_goals grind -linarith

/-- The lock is free: the process has it from now on, alone. -/
theorem Inv.take (here : s.pc t = .test l) (free : (s.lock l).locked = false) :
    (((s.setLock l ⟨true, none, pid t⟩).setHeld t l true).goto t .idle).Inv pid := by
  simp only [inv_iff, owners_iff, Owns, Waits, WillWake] at *
  refine ⟨⟨?_, ?_, ?_⟩, ?_, ?_, ?_, ?_, ?_⟩ <;> simp
  all_goals grind -linarith

/-- The spin lock is released only when the process has its `p->lock`. -/
theorem Inv.locked (here : s.pc t = .locked c) :
    ((s.releaseLk c).goto t (.released c)).Inv pid := by
  simp only [inv_iff, owners_iff, Owns, Waits, WillWake] at *
  cases c <;> rw [Locks.releaseLk]
  all_goals refine ⟨⟨?_, ?_, ?_⟩, ?_, ?_, ?_, ?_, ?_⟩ <;> simp
  all_goals grind -linarith

/-- The process that clears `locked` has every slot before it. -/
theorem Inv.release (here : s.pc t = .release l) (free : (s.lock l).lk = none) :
    ((s.setLock l ⟨false, some t, 0⟩).goto t (.wakeup (.lock l) 0)).Inv pid := by
  simp only [inv_iff, owners_iff, Owns, Waits, WillWake] at *
  refine ⟨⟨?_, ?_, ?_⟩, ?_, ?_, ?_, ?_, ?_⟩ <;> simp
  all_goals grind -linarith

/-- After the last slot nobody waits. -/
theorem Inv.woke (here : s.pc t = .wakeup c i) (last : n ≤ i) :
    ((s.releaseLk c).goto t .idle).Inv pid := by
  simp only [inv_iff, owners_iff, Owns, Waits, WillWake] at *
  cases c <;> rw [Locks.releaseLk]
  all_goals refine ⟨⟨?_, ?_, ?_⟩, ?_, ?_, ?_, ?_, ?_⟩ <;> simp
  all_goals grind -linarith

theorem Inv.wakeup (here : s.pc t = .wakeup c i) (eq : s.wakeup t c i = some s') : s'.Inv pid := by
  unfold Locks.wakeup at eq
  simp only at eq
  split_ifs at eq with bound self locked
  · cases eq
    have same : s = s.modify t id := by simp [Locks.modify]
    rw [same]
    refine inv.pass here ?_ (fun l _ other => absurd rfl other) ⟨rfl, rfl, id⟩
    rw [← self]
  · cases eq
    set q : Fin n := ⟨i, bound⟩ with slot
    refine inv.pass here rfl ?_ ?_
    · rintro l rfl -
      -- The process is not on its way to `sched`, and if it sleeps it has just been woken.
      have dozes := inv.not_dozes here self (by simpa using locked)
      have sleeping := inv.sleeping q
      grind
    · grind
  · cases eq
    exact inv.woke here (by omega)

/-- `releasesleep` is called by the process that has the lock. -/
theorem Inv.releasesleep (out : (s.pc t).outside = true) (held : s.held t l = true) :
    ((s.setHeld t l false).goto t (.release l)).Inv pid := by
  have awake : (s.proc t).state ≠ .sleeping := by
    refine inv.awake (fun c eq => ?_) fun c eq => ?_ <;> rw [eq] at out <;> cases out
  have wakes (l : L) (i : Nat) : s.pc t ≠ .wakeup (.lock l) i := by
    intro eq
    rw [eq] at out
    cases out
  have out := At.outside_spec out
  simp only [inv_iff, owners_iff, Owns, Waits, WillWake] at *
  refine ⟨⟨?_, ?_, ?_⟩, ?_, ?_, ?_, ?_, ?_⟩ <;> simp
  all_goals grind -linarith

theorem Inv.call (out : (s.pc t).outside = true) {op : Call L} (eq : s.call t op = some s') :
    s'.Inv pid := by
  cases op with
  | releasesleep l =>
    simp only [Locks.call] at eq
    split_ifs at eq with held
    cases eq
    exact inv.releasesleep out held
  | _ =>
    cases eq
    exact inv.goto out rfl

theorem Inv.run (eq : s.run pid t = some s') : s'.Inv pid := by
  unfold Locks.run at eq
  split at eq
  case h_1 | h_2 => cases eq
  case h_3 l here =>
    split_ifs at eq with free
    cases eq
    exact inv.acquire here free
  case h_4 l here =>
    split_ifs at eq with taken
    · cases eq
      exact inv.taken here taken
    · cases eq
      exact inv.take here (by simpa using taken)
  case h_5 c here =>
    split_ifs at eq
    cases eq
    have awake := inv.awake (t := t) (by rw [here]; rintro c ⟨⟩) (by rw [here]; rintro c ⟨⟩)
    exact inv.inSleep here (by rintro l i ⟨⟩) (fun l => ⟨by rintro ⟨⟩, by rintro ⟨⟩⟩)
      (by cases c <;> exact fun l at_ => at_) (fun _ => rfl) (fun state => absurd state awake)
      fun l => Or.rec id (by rintro ⟨⟩)
  case h_6 c here =>
    cases eq
    exact inv.locked here
  case h_7 c here =>
    cases eq
    exact inv.inSleep here (by rintro l i ⟨⟩) (fun l => ⟨by rintro ⟨⟩, by rintro ⟨⟩⟩)
      (by rintro l ⟨⟩) (fun _ => inv.locks t (by rw [here]; rfl)) (fun _ => ⟨c, rfl, .inl rfl⟩)
      fun l => Or.rec id (by rintro ⟨⟩)
  case h_8 c here =>
    cases eq
    refine inv.inSleep here (by rintro l i ⟨⟩) (fun l => ⟨by rintro ⟨⟩, by rintro ⟨⟩⟩)
      (by rintro l ⟨⟩) (by rintro ⟨⟩) (fun state => ?_) fun l => Or.rec (by rintro ⟨⟩) ?_
    · obtain ⟨d, chan, at_ | at_⟩ := inv.sleeping t state <;> rw [here] at at_ <;> cases at_
      exact ⟨c, chan, .inr rfl⟩
    · rintro ⟨⟩
      rfl
  case h_9 c here =>
    split_ifs at eq
    cases eq
    exact inv.inSleep here (by rintro l i ⟨⟩) (fun l => ⟨by rintro ⟨⟩, by rintro ⟨⟩⟩)
      (by rintro l ⟨⟩) (fun _ => rfl) (by rintro ⟨⟩) fun l => Or.rec (by rintro ⟨⟩) (by rintro ⟨⟩)
  case h_10 c here =>
    cases eq
    have awake := inv.awake (t := t) (by rw [here]; rintro c ⟨⟩) (by rw [here]; rintro c ⟨⟩)
    have out : (c.next n).outside = true := by cases c <;> rfl
    obtain ⟨inner, locks, dozes, release⟩ := At.outside_spec out
    refine inv.inSleep here (by rintro l i ⟨⟩) (fun l => ⟨release l, by rintro ⟨⟩⟩)
      (fun l at_ => ?_) (fun at_ => ?_) (fun state => absurd state awake) fun l => Or.rec ?_ ?_
    · rw [inner] at at_
      cases at_
    · rw [locks] at at_
      cases at_
    · exact fun doze => absurd doze (dozes l)
    · intro eq
      rw [eq] at out
      cases out
  case h_11 l here =>
    split_ifs at eq with free
    cases eq
    exact inv.release here free
  case h_12 c i here => exact inv.wakeup here eq
  case h_13 l here =>
    split_ifs at eq
    cases eq
    exact inv.goto (by rw [here]; rfl) rfl
  case h_14 victim i here => exact inv.kill here eq

theorem Inv.step {op : Step n L} (eq : s.step pid op = some s') : s'.Inv pid := by
  cases op with
  | call t op =>
    simp only [Locks.step] at eq
    split at eq
    · next here => exact inv.call (by rw [here]; rfl) eq
    · next here => exact inv.call (by rw [here]; rfl) eq
    · cases eq
  | run t => exact inv.run eq

end

theorem Reachable.inv (reach : s.Reachable pid) : s.Inv pid := by
  obtain ⟨run, runs⟩ := reach
  exact Transitions.run_invariant (Inv pid) (fun _ _ _ inv taken => inv.step taken) .boot runs

end Run

end Locks

/-- In every state that processes with distinct pids reach, at most one of them is between the
return of `acquiresleep` and its `releasesleep` of a lock; a call of `holdingsleep` returns true
to that process and to no other; and while the spin lock inside is free, nobody is `SLEEPING` on
a lock that is not taken. -/
theorem sleep_lock [DecidableEq L] (reach : s.Reachable pid) (l : L) :
    (∀ t u, s.held t l = true → s.held u l = true → u = t) ∧
    (∀ t r s', s.pc t = .holding l → s.step pid (.run t) = some s' → s'.pc t = .returned r →
      (r = true ↔ s.held t l = true)) ∧
    ((s.lock l).lk = none → (s.lock l).locked = false → ∀ t,
      ¬ ((s.proc t).state = .sleeping ∧ (s.proc t).chan = some (.lock l))) := by
  have inv := reach.inv
  refine ⟨fun t u mine yours => inv.owners.alone t u l (.inl mine) (.inl yours), ?_, ?_⟩
  · intro t r s' here eq done
    simp only [Locks.step, Locks.run, here] at eq
    split_ifs at eq with free
    cases eq
    rw [Locks.goto_pc, if_pos rfl] at done
    obtain rfl := At.returned.inj done
    rw [Locks.holdingsleep, Bool.and_eq_true, decide_eq_true_eq]
    constructor
    · rintro ⟨taken, mine⟩
      obtain ⟨u, owns⟩ := inv.owners.exists_ l taken
      obtain rfl : t = u := pid.injective (mine.symm.trans (inv.owners.word u l owns).2)
      obtain held | releases := owns
      · exact held
      · rw [here] at releases
        cases releases
    · intro held
      exact inv.owners.word t l (.inl held)
  · rintro free untaken t ⟨state, chan⟩
    obtain ⟨c, on, place⟩ := inv.sleeping t state
    obtain rfl : c = .lock l := Option.some.inj (on.symm.trans chan)
    have wait : s.Waits t l := by
      obtain at_ | at_ := place
      · exact .inl (by rw [at_]; rfl)
      · exact .inr ⟨at_, state⟩
    obtain taken | ⟨u, i, at_, -⟩ := inv.waits t l wait
    · rw [untaken] at taken
      cases taken
    · have held := inv.inner u l (by rw [at_]; rfl)
      rw [free] at held
      cases held

/-- Pids as `allocpid` gives them out. -/
def firstPids (n : Nat) : Fin n ↪ Int := ⟨fun t => (t : Int) + 1, fun t u same => by
  simp only at same
  omega⟩

/-- One process takes the lock, another one goes to sleep on it. -/
def contendRun (t u : Fin n) (l : L) : List (Step n L) :=
  [.call t (.acquiresleep l), .run t, .run t, .call u (.acquiresleep l)] ++
    List.replicate 6 (.run u)

theorem sleep_lock_contended : ∃ s : Locks 2 Unit, s.Reachable (firstPids 2) ∧
    s.held 0 () = true ∧ (s.proc 1).state = .sleeping ∧ ∀ u, s.held u () = true → u = 0 := by
  exact Transitions.exists_reached (contendRun 0 1 ())
    (fun s => s.held 0 () = true ∧ (s.proc 1).state = .sleeping) (by decide +kernel)
    fun s reach ⟨held, asleep⟩ => ⟨held, asleep, fun u => (sleep_lock reach ()).1 0 u held⟩

end Xv6.Sync
