import Xv6.UserTable

/-!
# Address spaces

All the user address spaces of the system over one allocator: the ones of processes,
and the ones that `exec` is building for them.  A `Call` is one call of a memory
function by the kernel; `Machine.Allows` says with which arguments the kernel makes it,
and `Machine.call` is what it does.  A run of the machine is any interleaving of such
calls, made by any processes.

The size of an address space is the `sz` that goes with its page table: `p->sz` for a
process, the local variable of `exec` for an image under construction.  The assignment
of a new size belongs to the call that resizes the space.
-/

namespace Xv6

open Fallible

abbrev nproc : Nat := 64

instance : NeZero nproc := ⟨by decide⟩

/-- A page table and the size of the user memory it maps. -/
structure Space where
  pagetable : PageTable
  sz : Nat

/-- Whose address space: that of a process, or the one `exec` builds for a process. -/
inductive SpaceId
  | proc (p : Fin nproc)
  | image (p : Fin nproc)
deriving DecidableEq, Fintype

/-- The allocator, the address spaces, and the pages with another owner in the kernel:
trapframes, pipe buffers, the kernel's own page table. -/
structure Machine where
  kmem : Kmem
  space : SpaceId → Option Space
  held : List Nat

namespace Machine

/-- Replace an address space, together with memory. -/
def put (m : Machine) (id : SpaceId) (k : Kmem) (sp : Option Space) : Machine :=
  { m with kmem := k, space := Function.update m.space id sp }

/-- The address space that a call works on.  No call is made without one. -/
def get (m : Machine) (id : SpaceId) : Except String Space :=
  match m.space id with
  | some sp => .ok sp
  | none => .error "no address space"

/-- `kalloc`, for a page that the kernel keeps for itself. -/
def kalloc (m : Machine) : Machine × Option Nat :=
  match Xv6.kalloc m.kmem with
  | (k, none) => ({ m with kmem := k }, none)
  | (k, some pa) => ({ m with kmem := k, held := pa :: m.held }, some pa)

/-- `kfree` of a page that the kernel kept for itself. -/
def kfree (m : Machine) (pa : Nat) : Except String Machine := do
  let k ← Xv6.kfree m.kmem pa
  .ok { m with kmem := k, held := m.held.erase pa }

/-- `proc_pagetable`; the flag says whether there was memory for it. -/
def procPagetable (m : Machine) (id : SpaceId) (trapframe : Nat) :
    Except String (Machine × Bool) := do
  let (k, result) ← Xv6.procPagetable m.kmem trapframe
  match result with
  | none => .ok ({ m with kmem := k }, false)
  | some pt => .ok (m.put id k (some ⟨pt, 0⟩), true)

/-- `uvmfirst`, and the size that `userinit` gives the first process. -/
def uvmfirst (m : Machine) (id : SpaceId) (src : List UInt8) : Except String Machine := do
  let sp ← m.get id
  let (k, pt) ← Xv6.uvmfirst m.kmem sp.pagetable src
  .ok (m.put id k (some ⟨pt, pgsize⟩))

/-- `uvmalloc` up to `newsz`; the size changes unless the result is zero. -/
def uvmalloc (m : Machine) (id : SpaceId) (newsz : Nat) (xperm : Pte) :
    Except String (Machine × Nat) := do
  let sp ← m.get id
  let (k, pt, r) ← Xv6.uvmalloc m.kmem sp.pagetable sp.sz newsz xperm
  .ok (m.put id k (some ⟨pt, if r = 0 then sp.sz else r⟩), r)

/-- `uvmdealloc` down to `newsz`. -/
def uvmdealloc (m : Machine) (id : SpaceId) (newsz : Nat) : Except String (Machine × Nat) := do
  let sp ← m.get id
  let (k, pt, r) ← Xv6.uvmdealloc m.kmem sp.pagetable sp.sz newsz
  .ok (m.put id k (some ⟨pt, r⟩), r)

/-- `uvmcowpy` of the whole of `parent` into `child`, which gets its size. -/
def uvmcowpy (m : Machine) (parent child : SpaceId) : Except String (Machine × Nat) := do
  let sp ← m.get parent
  let sc ← m.get child
  let (k, old, new, r) ← Xv6.uvmcowpy m.kmem sp.pagetable sc.pagetable sp.sz
  .ok ((m.put parent k (some ⟨old, sp.sz⟩)).put child k (some ⟨new, sp.sz⟩), r)

/-- `dup_pg`. -/
def dupPg (m : Machine) (id : SpaceId) (va : Nat) : Except String (Machine × Int) := do
  let sp ← m.get id
  let (k, pt, r) ← Xv6.dupPg m.kmem sp.pagetable va
  .ok (m.put id k (some ⟨pt, sp.sz⟩), r)

/-- Bytes written through the entry for `va`: by a store of the user, or by the kernel
at the address that `walkaddr` gave it. -/
def write (m : Machine) (id : SpaceId) (va : Nat) (src : List UInt8) : Except String Machine := do
  let sp ← m.get id
  let pa := pte2pa (sp.pagetable.leaf (va / pgsize))
  let k := { m.kmem with mem := memput m.kmem.mem (pa + va % pgsize) src }
  .ok (m.put id k (some sp))

/-- `uvmclear`. -/
def uvmclear (m : Machine) (id : SpaceId) (va : Nat) : Except String Machine := do
  let sp ← m.get id
  let pt ← Xv6.uvmclear sp.pagetable va
  .ok (m.put id m.kmem (some ⟨pt, sp.sz⟩))

/-- `proc_freepagetable`. -/
def procFreepagetable (m : Machine) (id : SpaceId) : Except String Machine := do
  let sp ← m.get id
  let k ← Xv6.procFreepagetable m.kmem sp.pagetable sp.sz
  .ok (m.put id k none)

/-- The commit of `exec`: the image becomes the address space of the process, and the
old one is freed. -/
def commit (m : Machine) (p : Fin nproc) : Except String Machine := do
  let image ← m.get (.image p)
  let old ← m.get (.proc p)
  let m := (m.put (.proc p) m.kmem (some image)).put (.image p) m.kmem none
  let k ← Xv6.procFreepagetable m.kmem old.pagetable old.sz
  .ok { m with kmem := k }

end Machine

/-- The calls of memory functions that the kernel makes. -/
inductive Call
  | kalloc
  | kfree (pa : Nat)
  | procPagetable (id : SpaceId) (trapframe : Nat)
  | uvmfirst (id : SpaceId) (src : List UInt8)
  | uvmalloc (id : SpaceId) (newsz : Nat) (xperm : Pte)
  | uvmdealloc (id : SpaceId) (newsz : Nat)
  | uvmcowpy (parent child : SpaceId)
  | dupPg (id : SpaceId) (va : Nat)
  | write (id : SpaceId) (va : Nat) (src : List UInt8)
  | uvmclear (id : SpaceId) (va : Nat)
  | procFreepagetable (id : SpaceId)
  | commit (p : Fin nproc)

/-- The permissions `uvmalloc` is called with: `PTE_W` by `growproc` and for the stack,
the result of `flags2perm` for a segment. -/
def segmentPerms : List Pte := [0, pteX, pteW, pteX ||| pteW]

namespace Machine

/-- How the kernel makes a call: it frees pages it holds, sets up an address space
where there is none, fills the empty one of a child or, with the memory that is there at
boot, of the first process, and writes through entries that are open to the user and not
marked. -/
def Allows (m : Machine) : Call → Prop
  | .kalloc => True
  | .kfree pa => pa ∈ m.held
  | .procPagetable id trapframe => m.space id = none ∧ trapframe ∈ m.held
  | .uvmfirst id _ => (∃ sp ∈ m.space id, sp.sz = 0) ∧ 3 ≤ m.kmem.freelist.length
  | .uvmalloc id _ xperm => (m.space id).isSome ∧ xperm ∈ segmentPerms
  | .uvmdealloc id _ => (m.space id).isSome
  | .uvmcowpy parent child => parent ≠ child ∧ (m.space parent).isSome ∧
      ∃ sc ∈ m.space child, sc.sz = 0
  | .dupPg id _ => (m.space id).isSome
  | .write id va src => va / pgsize < userPages ∧ va % pgsize + src.length ≤ pgsize ∧
      ∃ sp ∈ m.space id,
        (sp.pagetable.entry (va / pgsize)).any fun e => e.has pteU && !e.has pteCow
  | .uvmclear id va => (m.space id).isSome ∧ va / pgsize < userPages ∧ va % pgsize = 0
  | .procFreepagetable id => (m.space id).isSome
  | .commit p => (m.space (.image p)).isSome ∧ (m.space (.proc p)).isSome

instance (m : Machine) : (c : Call) → Decidable (m.Allows c)
  | .kalloc => inferInstanceAs (Decidable True)
  | .kfree pa => inferInstanceAs (Decidable (pa ∈ m.held))
  | .procPagetable id trapframe =>
    match space : m.space id with
    | none => decidable_of_iff (trapframe ∈ m.held) (by simp [Allows, space])
    | some _ => isFalse (by simp [Allows, space])
  | .uvmfirst id _ =>
    inferInstanceAs (Decidable ((∃ sp ∈ m.space id, sp.sz = 0) ∧ 3 ≤ m.kmem.freelist.length))
  | .uvmalloc id _ xperm =>
    inferInstanceAs (Decidable ((m.space id).isSome ∧ xperm ∈ segmentPerms))
  | .uvmdealloc id _ => inferInstanceAs (Decidable ((m.space id).isSome = true))
  | .uvmcowpy parent child => inferInstanceAs (Decidable (parent ≠ child ∧
      (m.space parent).isSome ∧ ∃ sc ∈ m.space child, sc.sz = 0))
  | .dupPg id _ => inferInstanceAs (Decidable ((m.space id).isSome = true))
  | .write id va src => inferInstanceAs (Decidable (va / pgsize < userPages ∧
      va % pgsize + src.length ≤ pgsize ∧ ∃ sp ∈ m.space id,
        (sp.pagetable.entry (va / pgsize)).any (fun e => e.has pteU && !e.has pteCow) = true))
  | .uvmclear id va => inferInstanceAs (Decidable ((m.space id).isSome ∧
      va / pgsize < userPages ∧ va % pgsize = 0))
  | .procFreepagetable id => inferInstanceAs (Decidable ((m.space id).isSome = true))
  | .commit p => inferInstanceAs (Decidable ((m.space (.image p)).isSome ∧
      (m.space (.proc p)).isSome))

/-- What a call does; an error is a panic. -/
def call (m : Machine) : Call → Except String Machine
  | .kalloc => .ok m.kalloc.1
  | .kfree pa => m.kfree pa
  | .procPagetable id trapframe => return (← m.procPagetable id trapframe).1
  | .uvmfirst id src => m.uvmfirst id src
  | .uvmalloc id newsz xperm => return (← m.uvmalloc id newsz xperm).1
  | .uvmdealloc id newsz => return (← m.uvmdealloc id newsz).1
  | .uvmcowpy parent child => return (← m.uvmcowpy parent child).1
  | .dupPg id va => return (← m.dupPg id va).1
  | .write id va src => m.write id va src
  | .uvmclear id va => m.uvmclear id va
  | .procFreepagetable id => m.procFreepagetable id
  | .commit p => m.commit p

/-- Any interleaving of calls, each made as the kernel makes it and none panicking. -/
inductive Run (m : Machine) : Machine → Prop
  | refl : Run m m
  | step {m₁ m₂ : Machine} {c : Call} (run : Run m m₁) (allowed : m₁.Allows c)
      (called : m₁.call c = .ok m₂) : Run m m₂

/-- The calls of a list, one after another; an error also where one is not allowed. -/
def calls (m : Machine) (cs : List Call) : Except String Machine :=
  cs.foldlM (fun m c => if m.Allows c then m.call c else .error "not allowed") m

theorem run_of_calls {m m' : Machine} {cs : List Call} (ok : m.calls cs = .ok m') : Run m m' := by
  unfold calls at ok
  refine foldlM_invariant (Run m) (fun c _ s t run step => ?_) .refl ok
  split at step
  · rename_i allowed
    exact run.step allowed step
  · cases step

/-- The machine after boot: every page free, no address space. -/
def boot (k : Kmem) : Machine := ⟨k, fun _ => none, []⟩

end Machine

/-- Boot with `n` pages of memory, then make some calls. -/
def bootCalls (n : Nat) (cs : List Call) : Except String Machine := do
  let k ← kinit (phystop - n * pgsize) (kernbase + 7 * pgsize) fun _ => 0
  (Machine.boot k).calls cs

/-- The states reachable from `kinit`. -/
def Machine.Reachable (m : Machine) : Prop :=
  ∃ kend trampoline mem k, kinit kend trampoline mem = .ok k ∧ Machine.Run (.boot k) m

theorem reachable_of_bootCalls {n : Nat} {cs : List Call} {m : Machine}
    (ok : bootCalls n cs = .ok m) : m.Reachable := by
  obtain ⟨k, init, made⟩ := of_bind_ok ok
  exact ⟨_, _, _, k, init, Machine.run_of_calls made⟩

end Xv6
