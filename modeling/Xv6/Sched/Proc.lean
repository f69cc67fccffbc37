import Xv6.Proc

/-!
# Slots of the process table under the scheduler

`struct proc` with the fields that the scheduler, sleeping, waiting, killing and the time
accounting use, and what each critical section of `proc.c` and `sysproc.c` does to one
slot.  An `int` is an `Int` in the range of 32 bits, a `uint` is a `UInt32`.  The address
space of a process, its files and its name have no part in scheduling.
-/

namespace Xv6.Sched

/-- What a process sleeps on: the address of a slot, or any other address. -/
inductive Chan
  | proc (p : Fin nproc)
  | addr (a : Nat)
deriving DecidableEq, Repr

structure Proc where
  state : ProcState
  chan : Option Chan
  killed : Bool
  xstate : Int
  pid : Int
  parent : Option (Fin nproc)
  rtime : UInt32
  ctime : UInt32
  etime : UInt32
  SP : UInt32
  DP : UInt32
  RBI : UInt32
  RTime : UInt32
  STime : UInt32
  WTime : UInt32
  numScheduled : UInt32
deriving DecidableEq

/-- The value of a C `int` that has been counted up to `n`. -/
def cInt (n : Nat) : Int := (n : Int).bmod (2 ^ 32)

namespace Proc

/-- A slot before its first use. -/
def empty : Proc :=
  { state := .unused, chan := none, killed := false, xstate := 0, pid := 0, parent := none,
    rtime := 0, ctime := 0, etime := 0, SP := 0, DP := 0, RBI := 0, RTime := 0, STime := 0,
    WTime := 0, numScheduled := 0 }

/-- `freeproc`; `ctime`, `DP` and `RBI` keep their values. -/
def freed (p : Proc) : Proc :=
  { p with
    pid := 0, parent := none, chan := none, killed := false, xstate := 0, state := .unused,
    rtime := 0, etime := 0, RTime := 0, WTime := 0, STime := 0, numScheduled := 0, SP := 50 }

/-- `allocproc` up to the allocations: `p->pid = allocpid()` and `p->state = USED`. -/
def claimed (p : Proc) (nextpid : Nat) : Proc := { p with pid := cInt nextpid, state := .used }

/-- The end of `allocproc`. -/
def started (p : Proc) (ticks : UInt32) : Proc :=
  { p with
    rtime := 0, etime := 0, ctime := ticks, RTime := 0, WTime := 0, STime := 0,
    numScheduled := 0, SP := 50 }

/-- `wakeup` at a slot. -/
def woken (p : Proc) (chan : Option Chan) : Proc :=
  if p.state = .sleeping ∧ p.chan = chan then { p with state := .runnable } else p

/-- `kill` at the slot it finds. -/
def marked (p : Proc) : Proc :=
  { p with killed := true, state := if p.state = .sleeping then .runnable else p.state }

/-- `sleep` up to `sched`. -/
def asleep (p : Proc) (chan : Chan) : Proc := { p with chan := some chan, state := .sleeping }

/-- `exit` at the slot of the process itself. -/
def exited (p : Proc) (status : Int) (ticks : UInt32) : Proc :=
  { p with xstate := status, state := .zombie, etime := ticks }

/-- `update__proc_stats`. -/
def updateStats (p : Proc) : Proc :=
  match p.state with
  | .running => { p with RTime := p.RTime + 1, rtime := p.rtime + 1 }
  | .runnable => { p with WTime := p.WTime + 1 }
  | .sleeping => { p with STime := p.STime + 1 }
  | _ => p

/-- The times that `waitx` reports: `np->rtime` and `np->etime - np->ctime - np->rtime`. -/
def waitTimes (p : Proc) : UInt32 × UInt32 := (p.rtime, p.etime - p.ctime - p.rtime)

/-- `calculate_rbi`: the sums are unsigned, the quotient is signed and truncates. -/
def calculateRbi (p : Proc) : Int32 :=
  let numerator := (3 * p.RTime - p.STime - p.WTime).toInt32
  let denominator := (p.RTime + p.WTime + p.STime + 1).toInt32
  let rbi := numerator / denominator * 50
  if 0 < rbi then rbi else 0

/-- `update_dp`. -/
def updateDp (p : Proc) : Proc :=
  let rbi := p.calculateRbi.toUInt32
  let temp := (p.SP + rbi).toInt32
  { p with RBI := rbi, DP := (if temp < 100 then temp else 100).toUInt32 }

end Proc

/-- `clampDP`. -/
def clampDP (dp : Int32) : Int32 := if dp > 100 then 100 else if dp < 0 then 0 else dp

namespace Proc

/-- `scheduleProcess` before `swtch`. -/
def dispatched (p : Proc) : Proc :=
  { p with RTime := 0, STime := 0, numScheduled := p.numScheduled + 1, state := .running }

/-- `scheduleProcess` after `swtch`: the running time. -/
def ran (p : Proc) (startTime ticks : UInt32) : Proc := { p with RTime := ticks - startTime }

/-- `scheduleProcess` after `swtch`. -/
def switchedOut (p : Proc) (startTime ticks : UInt32) : Proc :=
  let q := (p.ran startTime ticks).updateDp
  { q with SP := (clampDP q.DP.toInt32).toUInt32 }

/-- The locked part of `sys_setpriority`. -/
def prioritized (p : Proc) (priority : UInt32) : Proc :=
  updateDp { p with SP := priority, RBI := 25 }

/-- What changes when a process is switched out. -/
theorem switchedOut_frame (p : Proc) (startTime ticks : UInt32) :
    ∃ RTime RBI DP SP, p.switchedOut startTime ticks =
      { p with RTime := RTime, RBI := RBI, DP := DP, SP := SP } := by
  unfold switchedOut updateDp ran
  exact ⟨_, _, _, _, rfl⟩

theorem prioritized_frame (p : Proc) (priority : UInt32) :
    ∃ RBI DP, p.prioritized priority = { p with SP := priority, RBI := RBI, DP := DP } := by
  unfold prioritized updateDp
  exact ⟨_, _, rfl⟩

end Proc

/-- `selectHigherPriorityProcess`: whether the current slot replaces the selected one. -/
def replaces (current selected : Proc) : Bool :=
  if selected.numScheduled = current.numScheduled then decide (selected.ctime > current.ctime)
  else decide (current.numScheduled < selected.numScheduled)

end Xv6.Sched
