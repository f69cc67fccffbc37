import Xv6.Ipc.Pipe

/-!
# Pipes are queues

What is in the buffer of a pipe is what was stored in it and not yet taken.  Only the process
that has the lock changes the buffer, so what it has tested still holds when it acts on it.
-/

namespace Xv6.Ipc

open Pipes

variable {T : Type} {s s' : Pipes T} {t u : T} {ch : UInt8} {i n : Int} {chan : Chan} {a : At}
  {l : Step T}

theorem At.wake_locks (chan : Chan) (a : At) : (a.wake chan).locks = a.locks := by
  cases a <;> simp only [At.wake] <;> split_ifs <;> rfl

theorem At.wake_readCopy (eq : a.wake chan = .readCopy i n) : a = .readCopy i n := by
  have locks : a.locks := by
    rw [← At.wake_locks chan, eq]
    rfl
  cases a <;> first | exact eq | cases locks

theorem At.rouse_locks (a : At) : a.rouse.locks = a.locks := by
  cases a <;> rfl

theorem At.rouse_readCopy (eq : a.rouse = .readCopy i n) : a = .readCopy i n := by
  cases a <;> first | exact eq | cases eq

namespace Pipes

/-- The buffer holds what was stored and not taken; a process that has the lock has it alone; a
reader that copies has found the pipe not empty or its write end closed. -/
structure Inv (s : Pipes T) : Prop where
  queue : ∃ q, s.stored = s.taken ++ q ∧ s.ring.Holds pipesize uint q
  lock : ∀ t, (s.pc t).locks → s.lock = some t
  copy : ∀ t i n, s.pc t = .readCopy i n → 0 ≤ i ∧ (i = 0 → ¬ (s.empty ∧ s.writeopen))

theorem Inv.boot (data : Nat → UInt8) : (boot T data).Inv :=
  ⟨⟨[], rfl, .nil (by decide)⟩, by rintro t ⟨⟩, by rintro t i n ⟨⟩⟩

/-- A step after which every process is where it was, apart from those that have been woken and
from one that does not have the lock. -/
theorem Inv.aside (inv : s.Inv)
    (queue : s'.stored = s.stored ∧ s'.taken = s.taken ∧ s'.ring = s.ring)
    (moved : ∀ u, (s'.pc u).locks → (s.pc u).locks ∧ (∀ i n, s'.pc u = .readCopy i n →
      s.pc u = .readCopy i n))
    (lock : ∀ u, s.lock = some u → (s'.pc u).locks → s'.lock = some u)
    (closed : ∀ u, s.lock = some u → (s'.pc u).locks → s'.writeopen = s.writeopen) : s'.Inv := by
  obtain ⟨stored, taken, ring⟩ := queue
  refine ⟨?_, fun u locks => ?_, fun u i n copy => ?_⟩
  · rw [stored, taken, ring]
    exact inv.queue
  · exact lock u (inv.lock u (moved u locks).1) locks
  · have locks : (s'.pc u).locks := by rw [copy]; rfl
    obtain ⟨before, same⟩ := moved u locks
    have held := inv.lock u before
    rw [closed u held locks, empty, ring]
    exact inv.copy u i n (same i n copy)

variable [DecidableEq T]

omit [DecidableEq T] in
theorem Inv.wakeup (inv : s.Inv) (chan : Chan) : (s.wakeup chan).Inv := by
  refine inv.aside ⟨rfl, rfl, rfl⟩ (fun u locks => ⟨?_, fun i n copy => ?_⟩) (fun u held _ => held)
    fun u _ _ => rfl
  · rw [← At.wake_locks chan]
    exact locks
  · exact At.wake_readCopy copy

theorem goto_pc (s : Pipes T) (t u : T) (a : At) :
    (s.goto t a).pc u = if u = t then a else s.pc u := by
  simp only [goto, Function.update_apply]

section

variable (inv : s.Inv)
include inv

/-- A process moves to a place without the lock. -/
theorem Inv.goto (out : a.locks = false) : (s.goto t a).Inv := by
  have other (u : T) (locks : ((s.goto t a).pc u).locks) : (s.goto t a).pc u = s.pc u := by
    rw [goto_pc] at locks ⊢
    split_ifs at locks ⊢
    · rw [out] at locks
      cases locks
    · rfl
  refine inv.aside ⟨rfl, rfl, rfl⟩ (fun u locks => ?_) (fun u held _ => held) fun u _ _ => rfl
  have same := other u locks
  rw [same] at locks ⊢
  exact ⟨locks, fun i n copy => copy⟩

/-- The process that has the lock gives it up. -/
theorem Inv.quit (mine : (s.pc t).locks) (out : a.locks = false) :
    ((s.setLock none).goto t a).Inv := by
  have none (u : T) (locks : ((s.goto t a).pc u).locks) : False := by
    rw [goto_pc] at locks
    split_ifs at locks with same
    · rw [out] at locks
      cases locks
    · have both := (inv.lock t mine).symm.trans (inv.lock u locks)
      exact same (Option.some.inj both).symm
  refine (inv.goto (t := t) out).aside ⟨rfl, rfl, rfl⟩ (fun u locks => (none u locks).elim)
    (fun u _ locks => (none u locks).elim) fun u _ locks => (none u locks).elim

theorem Inv.wakeup_quit (mine : (s.pc t).locks) (out : a.locks = false) :
    (((s.wakeup chan).setLock none).goto t a).Inv := by
  refine (inv.wakeup chan).quit ?_ out
  rw [← At.wake_locks chan] at mine
  exact mine

/-- A process that has the lock is the only one at a place with the lock. -/
theorem Inv.alone (held : s.lock = some t) (locks : ((s.goto t a).pc u).locks) : u = t := by
  rw [goto_pc] at locks
  split_ifs at locks with same
  · exact same
  · have both := (inv.lock u locks).symm.trans held
    exact Option.some.inj both

/-- A process that has the lock, or gets it, moves to a place with the lock. -/
theorem Inv.stay (held : s.lock = some t)
    (copy : ∀ i n, a = .readCopy i n → 0 ≤ i ∧ (i = 0 → ¬ (s'.empty ∧ s'.writeopen)))
    (pc : s'.pc = (s.goto t a).pc) (lock : s'.lock = some t)
    (queue : ∃ q, s'.stored = s'.taken ++ q ∧ s'.ring.Holds pipesize uint q) : s'.Inv := by
  refine ⟨queue, fun u locks => ?_, fun u i n here => ?_⟩
  · rw [pc] at locks
    rw [lock, inv.alone held locks]
  · rw [pc] at here
    have same : u = t := inv.alone held (a := a) (by rw [here]; rfl)
    rw [goto_pc, if_pos same] at here
    exact copy i n here

theorem Inv.acquire (free : s.lock = none) (place : ∀ i n, a ≠ .readCopy i n) :
    ((s.setLock (some t)).goto t a).Inv := by
  have empty : (s.setLock (some t)).Inv := by
    have out (u : T) (locks : (s.pc u).locks) : False := by
      have held := inv.lock u locks
      rw [free] at held
      cases held
    refine inv.aside ⟨rfl, rfl, rfl⟩ (fun u locks => (out u locks).elim)
      (fun u _ locks => (out u locks).elim) fun u _ locks => (out u locks).elim
  exact empty.stay rfl (fun i n eq => absurd eq (place i n)) rfl rfl inv.queue

theorem Inv.pipewrite (here : s.pc t = .writeLoop i n) : (s.pipewrite t ch i n).Inv := by
  have mine : (s.pc t).locks := by rw [here]; rfl
  rw [Pipes.pipewrite]
  split_ifs with more stop full
  · exact inv.quit mine rfl
  · exact inv.wakeup_quit mine rfl
  · obtain ⟨q, stored, holds⟩ := inv.queue
    have room : q.length < pipesize := by
      have size := holds.size
      have ne : q.length ≠ pipesize := fun same => full (by
        simpa [Pipes.full] using (holds.full_iff (by decide)).2 same)
      omega
    refine inv.stay (inv.lock t mine) (by rintro i n ⟨⟩) rfl (inv.lock t mine) ⟨q ++ [ch], ?_, ?_⟩
    · change s.stored ++ [ch] = s.taken ++ (q ++ [ch])
      rw [stored, List.append_assoc]
    · exact holds.push (by decide) room
  · exact inv.wakeup_quit mine rfl

theorem Inv.pipereadWait (here : s.pc t = .readWait n) : (s.pipereadWait t n).Inv := by
  have mine : (s.pc t).locks := by rw [here]; rfl
  rw [Pipes.pipereadWait]
  split_ifs with wait killed
  · exact inv.quit mine rfl
  · exact inv.quit mine rfl
  · refine inv.stay (inv.lock t mine) ?_ rfl (inv.lock t mine) inv.queue
    rintro i n ⟨⟩
    exact ⟨le_rfl, fun _ => wait⟩

theorem Inv.pipereadCopy (here : s.pc t = .readCopy i n) : (s.pipereadCopy t i n).Inv := by
  have mine : (s.pc t).locks := by rw [here]; rfl
  have positive := (inv.copy t i n here).1
  rw [Pipes.pipereadCopy]
  split_ifs with more
  · obtain ⟨q, stored, holds⟩ := inv.queue
    cases q with
    | nil =>
      have none := (holds.empty_iff (by decide)).2 rfl
      exact absurd (by simpa [empty] using none) more.2
    | cons x q =>
      refine inv.stay (inv.lock t mine) ?_ rfl (inv.lock t mine) ⟨q, ?_, holds.pop (by decide)⟩
      · rintro j m ⟨⟩
        exact ⟨by omega, by omega⟩
      · change s.stored = s.taken ++ [s.ring.front pipesize] ++ q
        rw [holds.front, stored, List.append_assoc]
        rfl
  · exact inv.wakeup_quit mine rfl

theorem Inv.run (eq : s.run t ch = some s') : s'.Inv := by
  unfold Pipes.run at eq
  split at eq
  case h_1 i n here =>
    split_ifs at eq with free
    cases eq
    exact inv.acquire free (by rintro i n ⟨⟩)
  case h_2 i n here =>
    cases eq
    exact inv.pipewrite here
  case h_3 n here =>
    split_ifs at eq with free
    cases eq
    exact inv.acquire free (by rintro i n ⟨⟩)
  case h_4 n here =>
    cases eq
    exact inv.pipereadWait here
  case h_5 i n here =>
    cases eq
    exact inv.pipereadCopy here
  all_goals cases eq

theorem Inv.call (out : a.locks = false) (eq : s.call t a = some s') : s'.Inv := by
  unfold Pipes.call at eq
  split at eq <;> cases eq <;> exact inv.goto out

end

omit [DecidableEq T] in
theorem Inv.pipeclose (inv : s.Inv) {writable : Bool} (eq : s.pipeclose writable = some s') :
    s'.Inv := by
  have out (free : s.lock = none) (u : T) (locks : (s.pc u).locks) : False := by
    have held := inv.lock u locks
    rw [free] at held
    cases held
  unfold Pipes.pipeclose at eq
  split_ifs at eq with free write
  all_goals
    cases eq
    refine Inv.wakeup ?_ _
    exact inv.aside ⟨rfl, rfl, rfl⟩ (fun u locks => (out free u locks).elim)
      (fun u _ locks => (out free u locks).elim) fun u _ locks => (out free u locks).elim

theorem Inv.kill (inv : s.Inv) : Inv { s.goto t (s.pc t).rouse with
    killed := Function.update s.killed t true } := by
  have moved : (s.goto t (s.pc t).rouse).Inv := by
    refine inv.aside ⟨rfl, rfl, rfl⟩ (fun u locks => ?_) (fun u held _ => held) fun u _ _ => rfl
    rw [goto_pc] at locks ⊢
    split_ifs at locks ⊢ with same
    · rw [At.rouse_locks] at locks
      rw [same]
      exact ⟨locks, fun i n copy => At.rouse_readCopy copy⟩
    · exact ⟨locks, fun i n copy => copy⟩
  exact ⟨moved.queue, moved.lock, moved.copy⟩

theorem Inv.step (inv : s.Inv) (eq : s.step l = some s') : s'.Inv := by
  unfold Pipes.step at eq
  split_ifs at eq
  cases l with
  | write | read => exact inv.call rfl eq
  | run t ch => exact inv.run eq
  | close writable => exact inv.pipeclose eq
  | kill t =>
    cases eq
    exact inv.kill

theorem Reachable.inv (reach : s.Reachable) : s.Inv := by
  obtain ⟨data, run, runs⟩ := reach
  exact Transitions.run_invariant Inv (fun _ _ _ inv taken => inv.step taken) (.boot data) runs

end Pipes

end Xv6.Ipc
