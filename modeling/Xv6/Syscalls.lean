import Xv6.Exec

/-!
# Runs of the kernel

What processes can do to memory, as one type of operations: the system calls that change
address spaces, stores of the user, and the `copyout` by which any other system call
delivers its result.  A run of the kernel is any sequence of operations of any processes.
-/

namespace Xv6

open Fallible

inductive Op
  | fork (p : Fin nproc)
  | store (p : Fin nproc) (va : Nat) (src : List UInt8)
  | copyout (p : Fin nproc) (dstva : Nat) (src : List UInt8)
  | sbrk (p : Fin nproc) (n : Int)
  | exec (p : Fin nproc) (path : List UInt8) (file : Option (List UInt8))
      (argv : List (List UInt8))
  | exit (p : Fin nproc) (status : Int)
  | wait (p : Fin nproc) (addr : Nat)

/-- The process that performs an operation. -/
def Op.actor : Op → Fin nproc
  | .fork p | .store p _ _ | .copyout p _ _ | .sbrk p _ | .exec p _ _ _ | .exit p _ | .wait p _ => p

/-- The arguments an operation can have: a store stays inside one page, `sbrk` takes an
`int`, the size of a file is a `uint`. -/
def Op.Fits : Op → Prop
  | .store _ va src => va % pgsize + src.length ≤ pgsize
  | .sbrk _ n => -2 ^ 31 ≤ n ∧ n < 2 ^ 31
  | .exec _ _ (some file) _ => file.length < 2 ^ 32
  | _ => True

instance : (op : Op) → Decidable op.Fits
  | .store _ va src => inferInstanceAs (Decidable (va % pgsize + src.length ≤ pgsize))
  | .sbrk _ n => inferInstanceAs (Decidable (-2 ^ 31 ≤ n ∧ n < 2 ^ 31))
  | .exec _ _ (some file) _ => inferInstanceAs (Decidable (file.length < 2 ^ 32))
  | .exec _ _ none _ => isTrue trivial
  | .fork _ => isTrue trivial
  | .copyout _ _ _ => isTrue trivial
  | .exit _ _ => isTrue trivial
  | .wait _ _ => isTrue trivial

/-- How an operation ends.  `wait` reports the child and the bytes of the status that it
delivers; `unreaped` is a `wait` that fails to deliver them. -/
inductive Outcome
  | done
  | failed
  | forked (child : Fin nproc)
  | retried
  | exited
  | waiting
  | reaped (child : Fin nproc) (status : List UInt8)
  | unreaped (status : List UInt8)
deriving DecidableEq

namespace Kernel

/-- Perform an operation; an error is a panic. -/
def perform (s : Kernel) : Op → Except String (Kernel × Outcome)
  | .fork p => do
      let (s', r) ← s.fork p
      match s.unusedSlot with
      | some np => .ok (s', if r = -1 then .failed else .forked np)
      | none => .ok (s', .failed)
  | .store p va src => do
      let (s', r) ← s.store p va src
      match r with
      | .done => .ok (s', .done)
      | .retry => .ok (s', .retried)
      | .killed => .ok (s', .exited)
  | .copyout p dstva src => do
      let (s', r) ← s.copyout p dstva src
      .ok (s', if r = 0 then .done else .failed)
  | .sbrk p n => do
      let (s', r) ← s.sbrk p n
      .ok (s', if r = -1 then .failed else .done)
  | .exec p path file argv => do
      let (s', r) ← s.exec p path file argv
      .ok (s', if r = -1 then .failed else .done)
  | .exit p status => do
      let s' ← s.exit p status
      .ok (s', .exited)
  | .wait p addr => do
      let (s', r) ← s.wait p addr
      match s.zombieChild p with
      | some q =>
        let status := if addr = 0 then [] else intBytes (s.proc q).xstate
        .ok (s', if r = some (-1) then .unreaped status else .reaped q status)
      | none => .ok (s', if r = none then .waiting else .failed)

/-- A process performs an operation when it runs, and `uvmcowpy` returns zero in every
`fork`. -/
def Allows (s : Kernel) (op : Op) : Prop :=
  (s.proc op.actor).state = .runnable ∧ op.Fits ∧
    ∀ p, op = .fork p → ∀ s' np r, s.forkCopy p = .ok (s', some (np, r)) → r = 0

/-- Whether `uvmcowpy` returns zero, if the operation calls it. -/
def copies (s : Kernel) : Op → Bool
  | .fork p => yields (s.forkCopy p) fun copy => copy.2.all fun child => decide (child.2 = 0)
  | _ => true

/-- The operations of a list that are allowed and do not panic, with their outcomes. -/
def performAll (s : Kernel) : List Op → Except String (List (Op × Outcome) × Kernel)
  | [] => .ok ([], s)
  | op :: ops =>
    if (s.proc op.actor).state = .runnable ∧ op.Fits ∧ s.copies op = true then do
      let (s, out) ← s.perform op
      let (rest, s) ← s.performAll ops
      .ok ((op, out) :: rest, s)
    else .error "not allowed"

/-- Any operations by any processes, none of which panics. -/
inductive Run (s : Kernel) : List (Op × Outcome) → Kernel → Prop
  | refl : Run s [] s
  | step {s₁ s₂ : Kernel} {ops : List (Op × Outcome)} {op : Op} {out : Outcome}
      (run : Run s ops s₁) (allowed : s₁.Allows op) (performed : s₁.perform op = .ok (s₂, out)) :
      Run s (ops ++ [(op, out)]) s₂

theorem Run.trans {s s₁ s₂ : Kernel} {ops ops' : List (Op × Outcome)} (first : s.Run ops s₁)
    (second : s₁.Run ops' s₂) : s.Run (ops ++ ops') s₂ := by
  induction second with
  | refl =>
    rw [List.append_nil]
    exact first
  | step _ allowed performed ih =>
    rw [← List.append_assoc]
    exact ih.step allowed performed

theorem run_of_performAll {s s' : Kernel} {ops : List Op} {done : List (Op × Outcome)}
    (made : s.performAll ops = .ok (done, s')) : s.Run done s' := by
  induction ops generalizing s done with
  | nil =>
    cases made
    exact .refl
  | cons op ops ih =>
    unfold performAll at made
    split at made
    · rename_i allowed
      obtain ⟨state, fits, copied⟩ := allowed
      obtain ⟨⟨s₁, out⟩, performed, made⟩ := of_bind_ok made
      obtain ⟨⟨rest, s₂⟩, later, last⟩ := of_bind_ok made
      cases last
      refine Run.trans (.step .refl ⟨state, fits, fun p eq s' np r copy => ?_⟩ performed) (ih later)
      subst eq
      simpa only [copies, copy, yields, Option.all_some, decide_eq_true_eq] using copied
    · cases made

/-- The kernel with its first process, on a machine with memory for it. -/
def Booted (s : Kernel) : Prop :=
  ∃ kend trampoline mem k, kinit kend trampoline mem = .ok k ∧ 7 ≤ k.freelist.length ∧
    (Kernel.boot k).userinit = .ok s

/-- A test of the kernel with its first process, on a machine with some pages of memory. -/
def boots (pages : Nat) (test : Kernel → Bool) : Bool :=
  yields (kinit (phystop - pages * pgsize) kernbase fun _ => 0) fun k =>
    decide (7 ≤ k.freelist.length) && yields (Kernel.boot k).userinit test

theorem of_boots {pages : Nat} {test : Kernel → Bool} (pass : boots pages test = true) :
    ∃ s : Kernel, s.Booted ∧ test s = true := by
  obtain ⟨k, init, pass⟩ := of_yields pass
  obtain ⟨room, pass⟩ := Bool.and_eq_true_iff.1 pass
  obtain ⟨s, first, pass⟩ := of_yields pass
  exact ⟨s, ⟨_, _, _, k, init, of_decide_eq_true room, first⟩, pass⟩

/-- The byte of user memory that a process sees at `a`, in `[0, sz)`. -/
def byteAt (s : Kernel) (p : Fin nproc) (a : Nat) : Option UInt8 :=
  match s.machine.space (.proc p) with
  | none => none
  | some sp =>
    if a < sp.sz ∧ (sp.pagetable.entry (a / pgsize)).isSome then
      some (s.machine.kmem.mem (pte2pa (sp.pagetable.leaf (a / pgsize)) + a % pgsize))
    else none

end Kernel

end Xv6
