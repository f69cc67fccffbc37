import Xv6.Lib.Transitions
import Xv6.Proc

/-!
# Sleep locks

Processes that acquire, release and test sleep locks, sleep on other addresses, wake those that
sleep there, and kill each other.  The steps of `sleep` are those between which another process
can act: it takes `p->lock`, releases the lock it was called with, marks itself `SLEEPING`,
switches to the scheduler, which releases `p->lock`, and comes back with `p->lock` when it has
been made `RUNNABLE` and is dispatched.  A section of `wakeup` or `kill` under the `p->lock` of
one slot is one step, and so are the assignments made under the spin lock inside a sleep lock.

`held` says which processes are between the return of `acquiresleep` and their `releasesleep`.
-/

namespace Xv6.Sync

open Function

/-- What a process sleeps on: the address of a sleep lock, or another one. -/
inductive Chan (L : Type)
  | lock (l : L)
  | addr (a : Nat)
deriving DecidableEq

/-- Where a process is. -/
inductive At (n : Nat) (L : Type)
  | idle
  /-- `acquiresleep`: before `acquire(&lk->lk)`, at the start or at the end of `sleep`. -/
  | acquire (l : L)
  /-- `acquiresleep`: at `while (lk->locked)`. -/
  | test (l : L)
  /-- `sleep`: before `acquire(&p->lock)`. -/
  | sleep (c : Chan L)
  /-- `sleep`: before `release(lk)`. -/
  | locked (c : Chan L)
  /-- `sleep`: before the process becomes `SLEEPING`. -/
  | released (c : Chan L)
  /-- `sleep`: in `sched`, until the scheduler has released `p->lock`. -/
  | sched (c : Chan L)
  /-- `sleep`: switched out. -/
  | asleep (c : Chan L)
  /-- `sleep`: back from `sched`. -/
  | back (c : Chan L)
  /-- `releasesleep`: before `acquire(&lk->lk)`. -/
  | release (l : L)
  /-- `wakeup`, of `releasesleep` or another one: at slot `i`. -/
  | wakeup (c : Chan L) (i : Nat)
  /-- `holdingsleep`: before `acquire(&lk->lk)`. -/
  | holding (l : L)
  /-- `holdingsleep` has returned. -/
  | returned (r : Bool)
  /-- `kill`: at slot `i`. -/
  | kill (pid : Int) (i : Nat)
deriving DecidableEq

structure SleepLock (n : Nat) where
  locked : Bool
  /-- Who holds the spin lock inside. -/
  lk : Option (Fin n)
  pid : Int

/-- The part of `struct proc` that `sleep` and `wakeup` use. -/
structure Slot (L : Type) where
  lock : Bool
  state : ProcState
  chan : Option (Chan L)
  killed : Bool

structure Locks (n : Nat) (L : Type) where
  lock : L → SleepLock n
  proc : Fin n → Slot L
  pc : Fin n → At n L
  held : Fin n → L → Bool

/-- The calls of a process. -/
inductive Call (L : Type)
  | acquiresleep (l : L)
  | releasesleep (l : L)
  | holdingsleep (l : L)
  | sleep (a : Nat)
  | wakeup (a : Nat)
  | kill (pid : Int)

/-- A process makes a call, or goes on. -/
inductive Step (n : Nat) (L : Type)
  | call (t : Fin n) (op : Call L)
  | run (t : Fin n)

/-- `wakeup` at a slot. -/
def Slot.woken {L : Type} [DecidableEq L] (p : Slot L) (c : Chan L) : Slot L :=
  if p.state = .sleeping ∧ p.chan = some c then { p with state := .runnable } else p

/-- `kill` at the slot it finds. -/
def Slot.marked {L : Type} (p : Slot L) : Slot L :=
  { p with killed := true, state := if p.state = .sleeping then .runnable else p.state }

/-- After `sleep`: `acquiresleep` acquires the spin lock inside again. -/
def Chan.next {L : Type} (n : Nat) : Chan L → At n L
  | .lock l => .acquire l
  | .addr _ => .idle

namespace Locks

variable {n : Nat} {L : Type} [DecidableEq L]

def goto (s : Locks n L) (t : Fin n) (a : At n L) : Locks n L :=
  { s with pc := update s.pc t a }

def modify (s : Locks n L) (t : Fin n) (f : Slot L → Slot L) : Locks n L :=
  { s with proc := update s.proc t (f (s.proc t)) }

def setLock (s : Locks n L) (l : L) (k : SleepLock n) : Locks n L :=
  { s with lock := update s.lock l k }

def setHeld (s : Locks n L) (t : Fin n) (l : L) (b : Bool) : Locks n L :=
  { s with held := update s.held t (update (s.held t) l b) }

/-- `release` of the spin lock that goes with a channel; that of another address is not here. -/
def releaseLk (s : Locks n L) : Chan L → Locks n L
  | .lock l => s.setLock l { s.lock l with lk := none }
  | .addr _ => s

/-- The value of `holdingsleep`. -/
def holdingsleep (pid : Fin n ↪ Int) (s : Locks n L) (t : Fin n) (l : L) : Bool :=
  (s.lock l).locked && (s.lock l).pid = pid t

/-- `wakeup` at slot `i`; the process itself is passed over. -/
def wakeup (s : Locks n L) (t : Fin n) (c : Chan L) (i : Nat) : Option (Locks n L) :=
  if bound : i < n then
    let q : Fin n := ⟨i, bound⟩
    if q = t then some (s.goto t (.wakeup c (i + 1)))
    else if (s.proc q).lock then none
    else some ((s.modify q fun p => p.woken c).goto t (.wakeup c (i + 1)))
  else some ((s.releaseLk c).goto t .idle)

/-- `kill` at slot `i`. -/
def kill (pid : Fin n ↪ Int) (s : Locks n L) (t : Fin n) (victim : Int) (i : Nat) :
    Option (Locks n L) :=
  if bound : i < n then
    let q : Fin n := ⟨i, bound⟩
    if (s.proc q).lock then none
    else if pid q = victim then some ((s.modify q Slot.marked).goto t .idle)
    else some (s.goto t (.kill victim (i + 1)))
  else some (s.goto t .idle)

/-- A process goes on. -/
def run (pid : Fin n ↪ Int) (s : Locks n L) (t : Fin n) : Option (Locks n L) :=
  match s.pc t with
  | .idle | .returned _ => none
  | .acquire l =>
    if (s.lock l).lk = none then
      some ((s.setLock l { s.lock l with lk := some t }).goto t (.test l))
    else none
  | .test l =>
    if (s.lock l).locked then some (s.goto t (.sleep (.lock l)))
    else some (((s.setLock l ⟨true, none, pid t⟩).setHeld t l true).goto t .idle)
  | .sleep c =>
    if (s.proc t).lock then none
    else some ((s.modify t fun p => { p with lock := true }).goto t (.locked c))
  | .locked c => some ((s.releaseLk c).goto t (.released c))
  | .released c =>
    some ((s.modify t fun p => { p with chan := some c, state := .sleeping }).goto t (.sched c))
  | .sched c => some ((s.modify t fun p => { p with lock := false }).goto t (.asleep c))
  | .asleep c =>
    if (s.proc t).state = .runnable ∧ ¬ (s.proc t).lock then
      some ((s.modify t fun p => { p with lock := true, state := .running }).goto t (.back c))
    else none
  | .back c =>
    some ((s.modify t fun p => { p with lock := false, chan := none }).goto t (c.next n))
  | .release l =>
    if (s.lock l).lk = none then
      some ((s.setLock l ⟨false, some t, 0⟩).goto t (.wakeup (.lock l) 0))
    else none
  | .wakeup c i => s.wakeup t c i
  | .holding l =>
    if (s.lock l).lk = none then some (s.goto t (.returned (s.holdingsleep pid t l))) else none
  | .kill victim i => s.kill pid t victim i

/-- A process makes a call; it releases only a lock that it has acquired. -/
def call (s : Locks n L) (t : Fin n) : Call L → Option (Locks n L)
  | .acquiresleep l => some (s.goto t (.acquire l))
  | .releasesleep l =>
    if s.held t l then some ((s.setHeld t l false).goto t (.release l)) else none
  | .holdingsleep l => some (s.goto t (.holding l))
  | .sleep a => some (s.goto t (.sleep (.addr a)))
  | .wakeup a => some (s.goto t (.wakeup (.addr a) 0))
  | .kill victim => some (s.goto t (.kill victim 0))

def step (pid : Fin n ↪ Int) (s : Locks n L) : Step n L → Option (Locks n L)
  | .call t op =>
    match s.pc t with
    | .idle | .returned _ => s.call t op
    | _ => none
  | .run t => s.run pid t

end Locks

/-- After `initsleeplock` of every lock, with every process running. -/
def Locks.boot (n : Nat) (L : Type) : Locks n L :=
  { lock := fun _ => ⟨false, none, 0⟩, proc := fun _ => ⟨false, .running, none, false⟩,
    pc := fun _ => .idle, held := fun _ _ => false }

/-- The states that processes with the given pids reach. -/
def Locks.Reachable {n : Nat} {L : Type} [DecidableEq L] (pid : Fin n ↪ Int) (s : Locks n L) :
    Prop :=
  ∃ run, Transitions.exec (Locks.step pid) (Locks.boot n L) run = some s

end Xv6.Sync
