import Xv6.Spaces

/-!
# Processes

The process table and the functions of `proc.c`, `sysproc.c` and `trap.c` that create,
resize and end processes, over the machine of address spaces: the page table and the
size of a process are its space in the machine, and its trapframe page is one of the
pages the kernel holds.

A system call is one step here, and any process that is `RUNNABLE` may make the next
one: which of them a CPU runs, and sleeping, are left to the modules about scheduling.
Open files and the current directory belong to the file system and are left out.
-/

namespace Xv6

inductive ProcState
  | unused
  | used
  | sleeping
  | runnable
  | running
  | zombie
deriving DecidableEq, Repr

/-- The registers that the kernel saves for a process: the ones it sets itself, and the
rest by number. -/
structure Trapframe where
  epc : Nat
  sp : Nat
  a0 : Nat
  a1 : Nat
  saved : Nat → Nat

/-- A trapframe page as `kalloc` leaves it, filled with fives. -/
def Trapframe.junk : Trapframe :=
  let word := 0x0505050505050505
  ⟨word, word, word, word, fun _ => word⟩

/-- `struct proc`, without what lives in the machine. -/
structure Proc where
  state : ProcState
  killed : Bool
  xstate : Int
  pid : Nat
  parent : Option (Fin nproc)
  trapframe : Option Nat
  frame : Trapframe
  name : List UInt8
  rtime : Nat
  ctime : Nat
  etime : Nat
  SP : Nat
  RTime : Nat
  STime : Nat
  WTime : Nat
  numScheduled : Nat

/-- A slot of the process table before its first use. -/
def Proc.empty : Proc :=
  { state := .unused, killed := false, xstate := 0, pid := 0, parent := none, trapframe := none,
    frame := .junk, name := [], rtime := 0, ctime := 0, etime := 0, SP := 0,
    RTime := 0, STime := 0, WTime := 0, numScheduled := 0 }

/-- The fields that `freeproc` resets; `ctime` keeps its value. -/
def Proc.freed (p : Proc) : Proc := { Proc.empty with ctime := p.ctime, SP := 50 }

/-- The fields that `allocproc` sets at its end. -/
def Proc.started (p : Proc) (ticks : Nat) : Proc :=
  { p with
    rtime := 0, etime := 0, ctime := ticks, RTime := 0, WTime := 0, STime := 0,
    numScheduled := 0, SP := 50 }

structure Kernel where
  machine : Machine
  proc : Fin nproc → Proc
  nextpid : Nat
  ticks : Nat
  initproc : Fin nproc

/-- The four bytes of a C `int`. -/
def intBytes (n : Int) : List UInt8 :=
  let word := (n % 2 ^ 32).toNat
  (List.range 4).map fun i => UInt8.ofNat (word / 256 ^ i)

/-- `if(p->trapframe) kfree(p->trapframe)`. -/
def Machine.freeTrapframe (m : Machine) : Option Nat → Except String Machine
  | some pa => m.kfree pa
  | none => .ok m

/-- `if(pagetable) proc_freepagetable(pagetable, sz)`. -/
def Machine.freePagetable (m : Machine) (id : SpaceId) : Except String Machine :=
  match m.space id with
  | some _ => m.procFreepagetable id
  | none => .ok m

/-- `copyout` to an address space. -/
def Machine.copyout (m : Machine) (id : SpaceId) (dstva : Nat) (src : List UInt8) :
    Except String (Machine × Int) := do
  let sp ← m.get id
  let (k, pt, r) ← Xv6.copyout m.kmem sp.pagetable dstva src
  .ok (m.put id k (some ⟨pt, sp.sz⟩), r)

namespace Kernel

/-- Change one slot of the process table. -/
def modify (s : Kernel) (p : Fin nproc) (f : Proc → Proc) : Kernel :=
  { s with proc := Function.update s.proc p (f (s.proc p)) }

/-- `freeproc`. -/
def freeproc (s : Kernel) (p : Fin nproc) : Except String Kernel := do
  let m ← s.machine.freeTrapframe (s.proc p).trapframe
  let m ← m.freePagetable (.proc p)
  .ok ({ s with machine := m }.modify p Proc.freed)

/-- The first unused slot. -/
def unusedSlot (s : Kernel) : Option (Fin nproc) :=
  (List.finRange nproc).find? fun p => (s.proc p).state = .unused

/-- `p->pid = allocpid()` and `p->state = USED`. -/
def claim (s : Kernel) (p : Fin nproc) : Kernel :=
  { s.modify p fun q => { q with pid := s.nextpid, state := .used } with
    nextpid := s.nextpid + 1 }

/-- `p->trapframe`, set to a fresh page. -/
def setTrapframe (s : Kernel) (p : Fin nproc) (pa : Nat) : Kernel :=
  s.modify p fun q => { q with trapframe := some pa, frame := .junk }

/-- `allocproc`. -/
def allocproc (s : Kernel) : Except String (Kernel × Option (Fin nproc)) :=
  match s.unusedSlot with
  | none => .ok (s, none)
  | some p =>
    match s.machine.kalloc with
    | (m, none) => do
        let s ← { s.claim p with machine := m }.freeproc p
        .ok (s, none)
    | (m, some pa) => do
        let (m, done) ← m.procPagetable (.proc p) pa
        let s := { s.claim p with machine := m }.setTrapframe p pa
        if done then .ok (s.modify p fun q => q.started s.ticks, some p)
        else do
          let s ← s.freeproc p
          .ok (s, none)

/-- The program that the first process runs. -/
def initcode : List UInt8 :=
  [0x17, 0x05, 0x00, 0x00, 0x13, 0x05, 0x45, 0x02,
   0x97, 0x05, 0x00, 0x00, 0x93, 0x85, 0x35, 0x02,
   0x93, 0x08, 0x70, 0x00, 0x73, 0x00, 0x00, 0x00,
   0x93, 0x08, 0x20, 0x00, 0x73, 0x00, 0x00, 0x00,
   0xef, 0xf0, 0x9f, 0xff, 0x2f, 0x69, 0x6e, 0x69,
   0x74, 0x00, 0x00, 0x24, 0x00, 0x00, 0x00, 0x00,
   0x00, 0x00, 0x00, 0x00]

/-- `userinit`.  Without memory for the first process the kernel follows a null pointer. -/
def userinit (s : Kernel) : Except String Kernel := do
  match ← s.allocproc with
  | (_, none) => .error "kerneltrap"
  | (s, some p) => do
      let m ← s.machine.uvmfirst (.proc p) initcode
      .ok ({ s with machine := m, initproc := p }.modify p fun q =>
        { q with
          frame := { q.frame with epc := 0, sp := pgsize }
          name := "initcode".toUTF8.toList
          state := .runnable })

/-- The kernel after boot, before `userinit`. -/
def boot (k : Kmem) : Kernel :=
  { machine := .boot k, proc := fun _ => .empty, nextpid := 1, ticks := 0, initproc := 0 }

/-- `sys_sbrk` with `growproc`; sizes are `uint64`. -/
def sbrk (s : Kernel) (p : Fin nproc) (n : Int) : Except String (Kernel × Int) := do
  let sp ← s.machine.get (.proc p)
  let newsz := ((sp.sz + n) % 2 ^ 64).toNat
  if 0 < n then do
    let (m, sz) ← s.machine.uvmalloc (.proc p) newsz pteW
    if sz = 0 then .ok ({ s with machine := m }, -1) else .ok ({ s with machine := m }, sp.sz)
  else if n < 0 then do
    let (m, _) ← s.machine.uvmdealloc (.proc p) newsz
    .ok ({ s with machine := m }, sp.sz)
  else .ok (s, sp.sz)

/-- `reparent`. -/
def reparent (s : Kernel) (p : Fin nproc) : Kernel :=
  { s with proc := fun q =>
      if (s.proc q).parent = some p then { s.proc q with parent := some s.initproc }
      else s.proc q }

/-- `exit`. -/
def exit (s : Kernel) (p : Fin nproc) (status : Int) : Except String Kernel :=
  if p = s.initproc then .error "init exiting"
  else .ok ((s.reparent p).modify p fun q =>
    { q with xstate := status, state := .zombie, etime := s.ticks })

/-- How an attempt of the user to store ends: the store is done, the fault is handled and
the instruction runs again, or the process is killed. -/
inductive Stored
  | done
  | retry
  | killed
deriving DecidableEq, Repr

/-- A user store of `src` at `va`, inside one page: done if the hardware finds an entry
that is valid, open to the user and writable; a store page fault for `usertrap` if not. -/
def store (s : Kernel) (p : Fin nproc) (va : Nat) (src : List UInt8) :
    Except String (Kernel × Stored) := do
  let sp ← s.machine.get (.proc p)
  if va < maxva ∧ (sp.pagetable.entry (va / pgsize)).any (fun e => e.has pteU && e.has pteW) then do
    let m ← s.machine.write (.proc p) va src
    .ok ({ s with machine := m }, .done)
  else do
    let (m, r) ← s.machine.dupPg (.proc p) va
    let s := { s with machine := m }
    if r ≠ -1 then .ok (s, .retry)
    else do
      let s ← (s.modify p fun q => { q with killed := true }).exit p (-1)
      .ok (s, .killed)

/-- `copyout` to the memory of a process, as system calls use it for their results. -/
def copyout (s : Kernel) (p : Fin nproc) (dstva : Nat) (src : List UInt8) :
    Except String (Kernel × Int) := do
  let (m, r) ← s.machine.copyout (.proc p) dstva src
  .ok ({ s with machine := m }, r)

/-- A child of `p` that has exited. -/
def zombieChild (s : Kernel) (p : Fin nproc) : Option (Fin nproc) :=
  (List.finRange nproc).find? fun q => (s.proc q).parent = some p ∧ (s.proc q).state = .zombie

/-- `wait`, one scan of the process table; no result if the process has to sleep. -/
def wait (s : Kernel) (p : Fin nproc) (addr : Nat) : Except String (Kernel × Option Int) :=
  match s.zombieChild p with
  | some q =>
    let pid := (s.proc q).pid
    if addr = 0 then do
      let s ← s.freeproc q
      .ok (s, some pid)
    else do
      let (s, r) ← s.copyout p addr (intBytes (s.proc q).xstate)
      if r < 0 then .ok (s, some (-1))
      else do
        let s ← s.freeproc q
        .ok (s, some pid)
  | none =>
    if (∀ q, (s.proc q).parent ≠ some p) ∨ (s.proc p).killed then .ok (s, some (-1))
    else .ok (s, none)

/-- The first part of `fork`: a slot for the child, and the result of `uvmcowpy` into its
page table. -/
def forkCopy (s : Kernel) (p : Fin nproc) :
    Except String (Kernel × Option (Fin nproc × Nat)) := do
  match ← s.allocproc with
  | (s, none) => .ok (s, none)
  | (s, some np) => do
      let (m, r) ← s.machine.uvmcowpy (.proc p) (.proc np)
      .ok ({ s with machine := m }, some (np, r))

/-- `fork`.  The result of `uvmcowpy` is a `uint64`, so that the test against zero fails
whatever it is. -/
def fork (s : Kernel) (p : Fin nproc) : Except String (Kernel × Int) := do
  match ← s.forkCopy p with
  | (s, none) => .ok (s, -1)
  | (s, some (np, r)) =>
    if r < 0 then do
      let s ← s.freeproc np
      .ok (s, -1)
    else
      let parent := s.proc p
      .ok (s.modify np fun q =>
        { q with
          frame := { parent.frame with a0 := 0 }
          name := parent.name
          parent := some p
          state := .runnable }, (s.proc np).pid)

end Kernel

end Xv6
