import Xv6.Lib.Transitions
import Xv6.Sched.Proc

/-!
# Processes on several CPUs

The scheduler loops of the CPUs, the kernel threads of the processes and the interrupt
handlers, as one transition system.  A step is a critical section under a `p->lock`, or
the code between two of them; `wait_lock`, which is held around other sections, is
acquired and released by steps of its own.

A lock is free at the start of the section that takes it.  It is still held after a step
only around `swtch`: a scheduler that switches to a process leaves it the lock, which the
process releases when it comes back from `sched` or starts in `forkret`, and a process
that switches to the scheduler does the same.

Nothing is said about when a process makes a call, which call it is, or when an interrupt
comes; a handler runs on top of what its CPU was doing when that held no lock.  A call of
`exit` by the first process is a panic and stops there.
-/

namespace Xv6.Sched

open Function

/-- The scheduler that the kernel is compiled with. -/
inductive Policy
  | rr
  | pbs
deriving DecidableEq, Repr

/-- The arguments of `wait` and `waitx`: whether there is an address for the status, and
which of the two it is. -/
structure Wait where
  copies : Bool
  x : Bool
deriving DecidableEq, Repr

/-- Where the kernel thread of a process is, when it has its CPU: the source function and
its local variables. -/
inductive Pc
  /-- Outside the functions below: in user mode or in another part of the kernel. -/
  | user
  /-- `fork`: `allocproc` at slot `i`. -/
  | alloc (i : Nat)
  /-- `fork`: before `np->parent = p`. -/
  | adopt (np : Fin nproc) (pid : Int)
  /-- `fork`: before `np->state = RUNNABLE`. -/
  | start (np : Fin nproc) (pid : Int)
  /-- `exit`: before `acquire(&wait_lock)`. -/
  | exit (status : Int)
  /-- `exit`: `reparent` at slot `i`. -/
  | reparent (status : Int) (i : Nat)
  /-- `exit`: `wakeup(initproc)` at slot `j`, for the child in slot `i`. -/
  | wakeInit (status : Int) (i j : Nat)
  /-- `exit`: `wakeup(p->parent)` at slot `j`. -/
  | wakeParent (status : Int) (j : Nat)
  /-- `exit`: before `acquire(&p->lock)`. -/
  | zombie (status : Int)
  /-- `wait` and `waitx`: before `acquire(&wait_lock)`. -/
  | wait (w : Wait)
  /-- `wait` and `waitx`: the scan at slot `i`. -/
  | scan (w : Wait) (i : Nat) (havekids : Bool)
  /-- `wait` and `waitx`: after the scan. -/
  | scanned (w : Wait) (havekids : Bool)
  /-- `wait` and `waitx`: before `sleep(p, &wait_lock)`. -/
  | sleep (w : Wait)
  /-- `wakeup` at slot `i`. -/
  | wakeup (chan : Chan) (i : Nat)
  /-- `kill` at slot `i`. -/
  | kill (pid : Int) (i : Nat)
  /-- `sys_setpriority`: the test of slot `i`. -/
  | setpriority (pid : Int) (priority : UInt32) (i : Nat)
  /-- `sys_setpriority`: before `acquire(&p->lock)` for the slot it found. -/
  | prioritize (priority : UInt32) (q : Fin nproc)
  /-- Before a `yield`. -/
  | yield
deriving DecidableEq, Repr

/-- The thread is between the `acquire` and the `release` of `wait_lock`. -/
def Pc.holdsWaitLock : Pc → Bool
  | .reparent .. | .wakeInit .. | .wakeParent .. | .zombie _ => true
  | .scan .. | .scanned .. | .sleep _ => true
  | _ => false

/-- The function in which a thread that does not have a CPU has called `swtch`; a new one
starts in `forkret`. -/
inductive Switch
  | forkret
  | yield
  | sleep
  | exit
deriving DecidableEq, Repr

/-- The kernel thread of a process. -/
structure Thread where
  pc : Pc
  switch : Option Switch
deriving DecidableEq, Repr

/-- Where the scheduler of a CPU is. -/
inductive CpuPc
  /-- RR: at slot `i`. -/
  | scan (i : Nat)
  /-- PBS: at slot `i`. -/
  | select (i : Nat) (lowestPriority : UInt32) (selectedProc : Option (Fin nproc))
  /-- PBS: before `scheduleProcess`. -/
  | selected (p : Fin nproc)
  /-- In `swtch`: process `p` runs. -/
  | running (p : Fin nproc) (startTime : UInt32)
  /-- Back from `swtch`. -/
  | returned (p : Fin nproc) (startTime : UInt32)
deriving DecidableEq, Repr

/-- An interrupt handler. -/
inductive Handler
  /-- `clockintr`: `update_time` at slot `i`. -/
  | updateTime (i : Nat)
  /-- `wakeup` at slot `i`. -/
  | wakeup (chan : Chan) (i : Nat)
deriving DecidableEq, Repr

structure Cpu where
  proc : Option (Fin nproc)
  pc : CpuPc
  handler : Option Handler
deriving DecidableEq, Repr

/-- What is observed of a run: results of calls, and the decisions about priorities. -/
inductive Event
  /-- `fork` by a process returned a pid. -/
  | forked (parent : Fin nproc) (pid : Int)
  /-- The process with a pid called `exit` with a status. -/
  | exited (pid status : Int)
  /-- `wait` or `waitx` by a process returned a pid and a status. -/
  | reaped (parent : Fin nproc) (pid status : Int)
  /-- `waitx` returned a running time and a waiting time. -/
  | times (rtime wtime : UInt32)
  /-- A static priority was assigned to a slot by `allocproc`. -/
  | created (p : Fin nproc) (priority : UInt32)
  /-- A static priority was assigned to a slot by `setpriority`. -/
  | prioritized (p : Fin nproc) (priority : UInt32)
  /-- A process was switched out and `calculate_rbi` gave a value. -/
  | switchedOut (p : Fin nproc) (rbi : Int32)
  /-- The scheduler compared a slot with a priority. -/
  | compared (p : Fin nproc) (priority : UInt32)
deriving DecidableEq

structure State (C : Type) where
  proc : Fin nproc → Proc
  thread : Fin nproc → Thread
  lock : Fin nproc → Option C
  waitLock : Option (Fin nproc)
  cpu : C → Cpu
  nextpid : Nat
  ticks : UInt32
  events : List Event

/-- The slot of the first process. -/
def initproc : Fin nproc := ⟨0, by decide⟩

/-- The slot that a loop over the process table is at; `none` after the last. -/
def slot (i : Nat) : Option (Fin nproc) := if h : i < nproc then some ⟨i, h⟩ else none

/-- The address of `ticks`, on which `sys_sleep` sleeps. -/
def ticksAddr : Nat := 0

/-- The system calls and traps of a process that concern scheduling. -/
inductive Call
  | fork
  | exit (status : Int)
  | wait (w : Wait)
  | kill (pid : Int)
  | sleep (chan : Nat)
  | wakeup (chan : Nat)
  | setpriority (pid : Int) (priority : Int)
  /-- An unexpected trap: `setkilled(p)`. -/
  | trap
deriving DecidableEq, Repr

/-- Interrupts: the timer, which only hart 0 counts, and a device that wakes a channel. -/
inductive Interrupt
  | timer
  | device (chan : Nat)
deriving DecidableEq, Repr

/-- Which part of the system moves. -/
inductive Label (C : Type)
  /-- The scheduler of a CPU. -/
  | scheduler (c : C)
  /-- An interrupt arrives. -/
  | interrupt (c : C) (i : Interrupt)
  /-- The interrupt handler of a CPU. -/
  | handler (c : C)
  /-- The process on a CPU makes a call. -/
  | call (c : C) (op : Call)
  /-- The process on a CPU goes on; the flag says whether allocations of memory and
  copies to the user succeed. -/
  | proc (c : C) (ok : Bool)
  /-- A timer interrupt makes the process on a CPU yield. -/
  | preempt (c : C)
deriving DecidableEq, Repr

namespace State

variable {C : Type} [DecidableEq C]

/-- Change a slot of the process table. -/
def modify (s : State C) (p : Fin nproc) (f : Proc → Proc) : State C :=
  { s with proc := update s.proc p (f (s.proc p)) }

def setThread (s : State C) (p : Fin nproc) (t : Thread) : State C :=
  { s with thread := update s.thread p t }

/-- A thread goes on at another place. -/
def goto (s : State C) (p : Fin nproc) (pc : Pc) : State C :=
  s.setThread p { s.thread p with pc := pc }

/-- The scheduler or the handler of a CPU goes on at another place. -/
def setCpu (s : State C) (c : C) (cpu : Cpu) : State C :=
  { s with cpu := update s.cpu c cpu }

def setLock (s : State C) (p : Fin nproc) (holder : Option C) : State C :=
  { s with lock := update s.lock p holder }

def setWaitLock (s : State C) (holder : Option (Fin nproc)) : State C :=
  { s with waitLock := holder }

def record (s : State C) (e : Event) : State C := { s with events := e :: s.events }

/-- `swtch` from the scheduler to a process, which finds its lock held. -/
def switchTo (s : State C) (c : C) (p : Fin nproc) : State C :=
  (s.setLock p (some c)).setCpu c
    { s.cpu c with proc := some p, pc := .running p s.ticks }

/-- `swtch` from a process to the scheduler, which finds the lock of the process held. -/
def switchFrom (s : State C) (c : C) (p : Fin nproc) (startTime : UInt32) (how : Switch)
    (pc : Pc) : State C :=
  ((s.setLock p (some c)).setCpu c { s.cpu c with pc := .returned p startTime }).setThread p
    ⟨pc, some how⟩

/-- The scheduler after `swtch`: `c->proc = 0`, and the lock is released. -/
def leave (s : State C) (c : C) (p : Fin nproc) (pc : CpuPc) : State C :=
  (s.setLock p none).setCpu c { s.cpu c with proc := none, pc := pc }

/-- The top of the PBS loop. -/
def CpuPc.restart : CpuPc := .select 0 9999999 none

/-- The PBS scan at a slot that is `RUNNABLE`: the new `lowestPriority` and
`selectedProc`, once the locks it needs are free. -/
def compare (s : State C) (p : Fin nproc) (lowest : UInt32) (selected : Option (Fin nproc)) :
    Option (UInt32 × Option (Fin nproc)) :=
  if (s.proc p).SP = lowest then
    match selected with
    | some q =>
      if q = p then some (lowest, some p)
      else if s.lock q = none then
        some (lowest, if replaces (s.proc p) (s.proc q) then some p else some q)
      else none
    | none => some (lowest, some p)
  else if lowest > (s.proc p).SP then some ((s.proc p).SP, some p)
  else some (lowest, selected)

/-- A step of `scheduler`. -/
def scheduler (policy : Policy) (s : State C) (c : C) : Option (State C) :=
  match (s.cpu c).pc with
  | .scan i =>
    match slot i with
    | some p =>
      if s.lock p = none then
        if (s.proc p).state = .runnable then
          some ((s.modify p fun q => { q with state := .running }).switchTo c p)
        else some (s.setCpu c { s.cpu c with pc := .scan (i + 1) })
      else none
    | none => some (s.setCpu c { s.cpu c with pc := .scan 0 })
  | .select i lowest selected =>
    match slot i with
    | some p =>
      if s.lock p = none then
        if (s.proc p).state = .runnable then
          (s.compare p lowest selected).map fun next =>
            (s.setCpu c { s.cpu c with pc := .select (i + 1) next.1 next.2 }).record
              (.compared p (s.proc p).SP)
        else some (s.setCpu c { s.cpu c with pc := .select (i + 1) lowest selected })
      else none
    | none =>
      match selected with
      | some p => some (s.setCpu c { s.cpu c with pc := .selected p })
      | none => some (s.setCpu c { s.cpu c with proc := none, pc := CpuPc.restart })
  | .selected p =>
    if s.lock p = none then
      if (s.proc p).state = .runnable then some ((s.modify p Proc.dispatched).switchTo c p)
      else some (s.setCpu c { s.cpu c with proc := none, pc := CpuPc.restart })
    else none
  | .running _ _ => none
  | .returned p startTime =>
    match policy with
    | .rr => some (s.leave c p (.scan (p + 1)))
    | .pbs =>
      some (((s.modify p fun q => q.switchedOut startTime s.ticks).leave c p
        CpuPc.restart).record (.switchedOut p ((s.proc p).ran startTime s.ticks).calculateRbi))

/-- `wakeup` at one slot, called by the process `me` if there is one. -/
def wakeSlot (s : State C) (me : Option (Fin nproc)) (chan : Option Chan) (q : Fin nproc) :
    Option (State C) :=
  if me = some q then some s
  else if s.lock q = none then some (s.modify q fun p => p.woken chan)
  else none

/-- The process whose thread runs on a CPU, and when it was dispatched. -/
def current (s : State C) (c : C) : Option (Fin nproc × UInt32) :=
  match (s.cpu c).handler, (s.cpu c).pc with
  | none, .running p startTime => some (p, startTime)
  | _, _ => none

/-- The thread releases its lock and goes on. -/
def release (s : State C) (p : Fin nproc) : State C :=
  (s.setLock p none).setThread p { s.thread p with switch := none }

/-- The thread comes back from `sched`, or starts in `forkret`. -/
def resume (s : State C) (p : Fin nproc) : Switch → Option (State C)
  | .forkret | .yield => some (s.release p)
  | .sleep => some ((s.modify p fun q => { q with chan := none }).release p)
  | .exit => none

/-- `yield`. -/
def yield (s : State C) (c : C) (p : Fin nproc) (startTime : UInt32) (pc : Pc) :
    Option (State C) :=
  if s.lock p = none then
    some ((s.modify p fun q => { q with state := .runnable }).switchFrom c p startTime .yield pc)
  else none

/-- The section of `allocproc` and `fork` at an unused slot: `allocpid`, then either the
new process with a thread that starts in `forkret`, or `freeproc` when memory runs out. -/
def allocSlot (s : State C) (p np : Fin nproc) (ok : Bool) : State C :=
  let counted := { s with nextpid := s.nextpid + 1 }
  if ok then
    (((counted.modify np fun q => (q.claimed s.nextpid).started s.ticks).setThread np
      ⟨.user, some .forkret⟩).goto p (.adopt np (cInt s.nextpid))).record (.created np 50)
  else (counted.modify np fun q => (q.claimed s.nextpid).freed).goto p .user

/-- The section of `wait` and `waitx` at a slot whose parent is the caller. -/
def waitSlot (s : State C) (p q : Fin nproc) (w : Wait) (ok : Bool) : State C :=
  if (s.proc q).state = .zombie then
    if w.copies ∧ !ok then (s.setWaitLock none).goto p .user
    else
      let reaped := (((s.record (.reaped p (s.proc q).pid (s.proc q).xstate)).modify q
        Proc.freed).setWaitLock none).goto p .user
      if w.x then reaped.record (.times (s.proc q).waitTimes.1 (s.proc q).waitTimes.2)
      else reaped
  else s.goto p (.scan w (q + 1) true)

/-- A step of the thread of `p` inside a call, on CPU `c`. -/
def continue_ (s : State C) (c : C) (p : Fin nproc) (startTime : UInt32) (ok : Bool) :
    Option (State C) :=
  match (s.thread p).pc with
  | .user => none
  | .alloc i =>
    match slot i with
    | some np =>
      if s.lock np = none then
        if (s.proc np).state = .unused then some (s.allocSlot p np ok)
        else some (s.goto p (.alloc (i + 1)))
      else none
    | none => some (s.goto p .user)
  | .adopt np pid =>
    if s.waitLock = none then
      some ((s.modify np fun q => { q with parent := some p }).goto p (.start np pid))
    else none
  | .start np pid =>
    if s.lock np = none then
      some (((s.modify np fun q => { q with state := .runnable }).goto p .user).record
        (.forked p pid))
    else none
  | .exit status =>
    if s.waitLock = none then some ((s.setWaitLock (some p)).goto p (.reparent status 0))
    else none
  | .reparent status i =>
    match slot i with
    | some q =>
      if (s.proc q).parent = some p then
        some ((s.modify q fun r => { r with parent := some initproc }).goto p
          (.wakeInit status i 0))
      else some (s.goto p (.reparent status (i + 1)))
    | none => some (s.goto p (.wakeParent status 0))
  | .wakeInit status i j =>
    match slot j with
    | some q =>
      (s.wakeSlot (some p) (some (.proc initproc)) q).map fun s =>
        s.goto p (.wakeInit status i (j + 1))
    | none => some (s.goto p (.reparent status (i + 1)))
  | .wakeParent status j =>
    match slot j with
    | some q =>
      (s.wakeSlot (some p) ((s.proc p).parent.map .proc) q).map fun s =>
        s.goto p (.wakeParent status (j + 1))
    | none => some (s.goto p (.zombie status))
  | .zombie status =>
    if s.lock p = none then
      some ((((s.modify p fun q => q.exited status s.ticks).setWaitLock none).switchFrom c p
        startTime .exit .user).record (.exited (s.proc p).pid status))
    else none
  | .wait w =>
    if s.waitLock = none then some ((s.setWaitLock (some p)).goto p (.scan w 0 false))
    else none
  | .scan w i havekids =>
    match slot i with
    | some q =>
      if (s.proc q).parent = some p then
        if s.lock q = none then some (s.waitSlot p q w ok) else none
      else some (s.goto p (.scan w (i + 1) havekids))
    | none => some (s.goto p (.scanned w havekids))
  | .scanned w havekids =>
    if !havekids ∨ (s.proc p).killed then some ((s.setWaitLock none).goto p .user)
    else some (s.goto p (.sleep w))
  | .sleep w =>
    if s.lock p = none then
      some (((s.modify p fun q => q.asleep (.proc p)).setWaitLock none).switchFrom c p
        startTime .sleep (.wait w))
    else none
  | .wakeup chan i =>
    match slot i with
    | some q =>
      (s.wakeSlot (some p) (some chan) q).map fun s => s.goto p (.wakeup chan (i + 1))
    | none => some (s.goto p .user)
  | .kill pid i =>
    match slot i with
    | some q =>
      if s.lock q = none then
        if (s.proc q).pid = pid then some ((s.modify q Proc.marked).goto p .user)
        else some (s.goto p (.kill pid (i + 1)))
      else none
    | none => some (s.goto p .user)
  | .setpriority pid priority i =>
    match slot i with
    | some q =>
      if (s.proc q).pid = pid then some (s.goto p (.prioritize priority q))
      else some (s.goto p (.setpriority pid priority (i + 1)))
    | none => some (s.goto p .yield)
  | .prioritize priority q =>
    if s.lock q = none then
      some (((s.modify q fun r => r.prioritized priority).goto p
        (if priority.toInt32 < (s.proc q).SP.toInt32 then .yield else .user)).record
          (.prioritized q priority))
    else none
  | .yield => s.yield c p startTime .user

/-- The process `p` makes a call on CPU `c`. -/
def call (s : State C) (c : C) (p : Fin nproc) (startTime : UInt32) : Call → Option (State C)
  | .fork => some (s.goto p (.alloc 0))
  | .exit status => if p = initproc then none else some (s.goto p (.exit status))
  | .wait w => some (s.goto p (.wait w))
  | .kill pid => some (s.goto p (.kill pid 0))
  | .sleep chan =>
    if s.lock p = none then
      some ((s.modify p fun q => q.asleep (.addr chan)).switchFrom c p startTime .sleep .user)
    else none
  | .wakeup chan => some (s.goto p (.wakeup (.addr chan) 0))
  | .setpriority pid priority =>
    if priority < 0 ∨ priority > 100 then some s
    else some (s.goto p (.setpriority pid (UInt32.ofNat priority.toNat) 0))
  | .trap =>
    if s.lock p = none then some (s.modify p fun q => { q with killed := true }) else none

/-- The CPU holds no lock, so that interrupts are on. -/
def interruptible (s : State C) (c : C) : Bool :=
  (s.cpu c).handler.isNone &&
    match (s.cpu c).pc with
    | .running p _ => (s.thread p).switch.isNone && !(s.thread p).pc.holdsWaitLock
    | .returned _ _ => false
    | _ => true

/-- `devintr`; the handler of the timer has counted the tick before its first slot. -/
def interrupt (hart0 : C) (s : State C) (c : C) : Interrupt → State C
  | .timer =>
    if c = hart0 then
      { s.setCpu c { s.cpu c with handler := some (.updateTime 0) } with ticks := s.ticks + 1 }
    else s
  | .device chan => s.setCpu c { s.cpu c with handler := some (.wakeup (.addr chan) 0) }

/-- A step of an interrupt handler. -/
def handler (s : State C) (c : C) : Handler → Option (State C)
  | .updateTime i =>
    match slot i with
    | some q =>
      if s.lock q = none then
        some ((s.modify q Proc.updateStats).setCpu c
          { s.cpu c with handler := some (.updateTime (i + 1)) })
      else none
    | none => some (s.setCpu c { s.cpu c with handler := some (.wakeup (.addr ticksAddr) 0) })
  | .wakeup chan i =>
    match slot i with
    | some q =>
      (s.wakeSlot (s.cpu c).proc (some chan) q).map fun s' =>
        s'.setCpu c { s.cpu c with handler := some (.wakeup chan (i + 1)) }
    | none => some (s.setCpu c { s.cpu c with handler := none })

/-- A step of the system. -/
def step (policy : Policy) (hart0 : C) (s : State C) : Label C → Option (State C)
  | .scheduler c => if (s.cpu c).handler.isNone then s.scheduler policy c else none
  | .interrupt c i => if s.interruptible c then some (s.interrupt hart0 c i) else none
  | .handler c => (s.cpu c).handler.bind (s.handler c)
  | .call c op =>
    (s.current c).bind fun (p, startTime) =>
      if (s.thread p).switch.isNone ∧ (s.thread p).pc = .user then s.call c p startTime op
      else none
  | .proc c ok =>
    (s.current c).bind fun (p, startTime) =>
      match (s.thread p).switch with
      | some how => s.resume p how
      | none => s.continue_ c p startTime ok
  | .preempt c =>
    (s.current c).bind fun (p, startTime) =>
      if (s.thread p).switch.isNone ∧ !(s.thread p).pc.holdsWaitLock then
        s.yield c p startTime (s.thread p).pc
      else none

end State

/-- The scheduler at its start. -/
def Policy.start : Policy → CpuPc
  | .rr => .scan 0
  | .pbs => State.CpuPc.restart

/-- After `userinit`, when the CPUs enter `scheduler`. -/
def boot (C : Type) (policy : Policy) : State C :=
  { proc := update (fun _ => Proc.empty) initproc
      { (Proc.empty.claimed 1).started 0 with state := .runnable }
    thread := fun _ => ⟨.user, some .forkret⟩
    lock := fun _ => none
    waitLock := none
    cpu := fun _ => ⟨none, policy.start, none⟩
    nextpid := 2
    ticks := 0
    events := [.created initproc 50] }

theorem boot_proc (C : Type) (policy : Policy) (p : Fin nproc) : (boot C policy).proc p =
    if p = initproc then { (Proc.empty.claimed 1).started 0 with state := .runnable }
    else Proc.empty := by
  simp only [boot, update_apply]

/-- A state that the kernel reaches after boot. -/
def Reachable {C : Type} [DecidableEq C] (policy : Policy) (hart0 : C) (s : State C) : Prop :=
  ∃ ls, Transitions.exec (State.step policy hart0) (boot C policy) ls = some s

end Xv6.Sched
