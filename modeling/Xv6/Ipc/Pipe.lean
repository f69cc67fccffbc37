import Xv6.Lib.RingBuffer
import Xv6.Lib.Transitions

/-!
# Pipes

Any number of processes in `pipewrite` and `piperead` on one pipe.  A step is one test of a loop
with what it leads to, so processes interleave wherever the pipe's lock is free and calls are
killed between any two tests.  User copies succeed; the label says which byte `copyin` gives.

`stored` and `taken` are the bytes that writers have put into the pipe and readers have taken out
of it, in order.
-/

namespace Xv6.Ipc

def pipesize : Nat := 512

/-- `nread` and `nwrite` are of type `uint`. -/
def uint : Nat := 2 ^ 32

/-- What a process in `sleep` waits for: `&pi->nread` or `&pi->nwrite`. -/
inductive Chan
  | nread
  | nwrite
deriving DecidableEq

/-- Where a process is in a call. -/
inductive At
  | out
  /-- Before `acquire`, in `pipewrite` or at the end of its `sleep`. -/
  | writeAcquire (i n : Int)
  /-- At the loop of `pipewrite`, with the lock. -/
  | writeLoop (i n : Int)
  | writeAsleep (i n : Int)
  | readAcquire (n : Int)
  /-- At the first loop of `piperead`, with the lock. -/
  | readWait (n : Int)
  | readAsleep (n : Int)
  /-- At the second loop of `piperead`, with the lock. -/
  | readCopy (i n : Int)
  | returned (r : Int)
deriving DecidableEq

namespace At

/-- `wakeup` of a process. -/
def wake (chan : Chan) : At → At
  | .writeAsleep i n => if chan = .nwrite then .writeAcquire i n else .writeAsleep i n
  | .readAsleep n => if chan = .nread then .readAcquire n else .readAsleep n
  | a => a

/-- `kill` of a process in `sleep`. -/
def rouse : At → At
  | .writeAsleep i n => .writeAcquire i n
  | .readAsleep n => .readAcquire n
  | a => a

/-- The process has the lock of the pipe. -/
def locks : At → Bool
  | .writeLoop _ _ | .readWait _ | .readCopy _ _ => true
  | _ => false

/-- The number of bytes that a call of `piperead` asks for. -/
def reads : At → Option Int
  | .readAcquire n | .readWait n | .readAsleep n | .readCopy _ n => some n
  | _ => none

end At

structure Pipes (T : Type) where
  /-- `data`, with `nread` as its head and `nwrite` as its tail. -/
  ring : RingBuffer UInt8
  readopen : Bool
  writeopen : Bool
  lock : Option T
  pc : T → At
  killed : T → Bool
  stored : List UInt8
  taken : List UInt8

inductive Step (T : Type)
  | write (t : T) (n : Int)
  | read (t : T) (n : Int)
  /-- The process goes on; `ch` is what `copyin` gives. -/
  | run (t : T) (ch : UInt8)
  | close (writable : Bool)
  | kill (t : T)

namespace Pipes

variable {T : Type} [DecidableEq T]

def goto (s : Pipes T) (t : T) (a : At) : Pipes T := { s with pc := Function.update s.pc t a }

def wakeup (s : Pipes T) (chan : Chan) : Pipes T := { s with pc := fun u => (s.pc u).wake chan }

def setLock (s : Pipes T) (holder : Option T) : Pipes T := { s with lock := holder }

def empty (s : Pipes T) : Bool := s.ring.head = s.ring.tail

def full (s : Pipes T) : Bool := s.ring.tail = (s.ring.head + pipesize) % uint

def pipewrite (s : Pipes T) (t : T) (ch : UInt8) (i n : Int) : Pipes T :=
  if i < n then
    if ¬ s.readopen ∨ s.killed t then (s.setLock none).goto t (.returned (-1))
    else if s.full then ((s.wakeup .nread).setLock none).goto t (.writeAsleep i n)
    else
      { s.goto t (.writeLoop (i + 1) n) with
        ring := s.ring.push pipesize uint ch, stored := s.stored ++ [ch] }
  else ((s.wakeup .nread).setLock none).goto t (.returned i)

def pipereadWait (s : Pipes T) (t : T) (n : Int) : Pipes T :=
  if s.empty ∧ s.writeopen then
    if s.killed t then (s.setLock none).goto t (.returned (-1))
    else (s.setLock none).goto t (.readAsleep n)
  else s.goto t (.readCopy 0 n)

def pipereadCopy (s : Pipes T) (t : T) (i n : Int) : Pipes T :=
  if i < n ∧ ¬ s.empty then
    { s.goto t (.readCopy (i + 1) n) with
      ring := s.ring.pop uint, taken := s.taken ++ [s.ring.front pipesize] }
  else ((s.wakeup .nwrite).setLock none).goto t (.returned i)

/-- A process in a call goes on. -/
def run (s : Pipes T) (t : T) (ch : UInt8) : Option (Pipes T) :=
  match s.pc t with
  | .writeAcquire i n =>
    if s.lock = none then some ((s.setLock (some t)).goto t (.writeLoop i n)) else none
  | .writeLoop i n => some (s.pipewrite t ch i n)
  | .readAcquire n =>
    if s.lock = none then some ((s.setLock (some t)).goto t (.readWait n)) else none
  | .readWait n => some (s.pipereadWait t n)
  | .readCopy i n => some (s.pipereadCopy t i n)
  | .out | .writeAsleep _ _ | .readAsleep _ | .returned _ => none

/-- A process calls, when it is not in a call. -/
def call (s : Pipes T) (t : T) (a : At) : Option (Pipes T) :=
  match s.pc t with
  | .out | .returned _ => some (s.goto t a)
  | _ => none

def pipeclose (s : Pipes T) (writable : Bool) : Option (Pipes T) :=
  if s.lock = none then
    if writable then some ({ s with writeopen := false }.wakeup .nread)
    else some ({ s with readopen := false }.wakeup .nwrite)
  else none

/-- Once both ends are closed the page of the pipe is free, and there are no more steps. -/
def step (s : Pipes T) (l : Step T) : Option (Pipes T) :=
  if s.readopen ∨ s.writeopen then
    match l with
    | .write t n => s.call t (.writeAcquire 0 n)
    | .read t n => s.call t (.readAcquire n)
    | .run t ch => s.run t ch
    | .close writable => s.pipeclose writable
    | .kill t =>
      some { s.goto t (s.pc t).rouse with killed := Function.update s.killed t true }
  else none

end Pipes

/-- After `pipealloc`; the page is not zeroed. -/
def Pipes.boot (T : Type) (data : Nat → UInt8) : Pipes T :=
  { ring := ⟨data, 0, 0⟩, readopen := true, writeopen := true, lock := none, pc := fun _ => .out,
    killed := fun _ => false, stored := [], taken := [] }

/-- The states of a pipe. -/
def Pipes.Reachable {T : Type} [DecidableEq T] (s : Pipes T) : Prop :=
  ∃ data run, Transitions.exec Pipes.step (Pipes.boot T data) run = some s

end Xv6.Ipc
