import Xv6.Syscalls

/-!
# The reference machine: memory without sharing

What the memory of processes is for: every process has its own bytes, `fork` gives the
child a full copy, and an operation changes the bytes of the process that performs it.
Physical pages, page tables, marks and faults do not occur here.

Memory comes in whole pages also here, since `sbrk` does: the bytes between the size and
the end of the last page survive a shrink and are there again when memory grows.
-/

namespace Xv6

/-- The memory of one process: its size, and the contents of its pages. -/
structure Image where
  sz : Nat
  mem : Nat → UInt8

namespace Image

/-- The bytes in `[0, sz)`. -/
def byteAt (im : Image) (a : Nat) : Option UInt8 := if a < im.sz then some (im.mem a) else none

def empty : Image := ⟨0, fun _ => 0⟩

def write (im : Image) (va : Nat) (src : List UInt8) : Image :=
  { im with mem := memput im.mem va src }

/-- New pages are zero. -/
def grow (im : Image) (newsz : Nat) : Image :=
  if newsz < im.sz then im
  else ⟨newsz, fun a => if a < npages im.sz * pgsize then im.mem a else 0⟩

def shrink (im : Image) (newsz : Nat) : Image := { im with sz := min im.sz newsz }

/-- The size grows to a page boundary; no page is added. -/
def round (im : Image) : Image := { im with sz := pgroundup im.sz }

/-- `sbrk(n)`: a request to shrink below zero changes nothing. -/
def sbrk (im : Image) (n : Int) : Image :=
  let newsz := ((im.sz + n) % 2 ^ 64).toNat
  if 0 < n then im.grow newsz else if n < 0 then im.shrink newsz else im

/-! ## The memory that `exec` sets up -/

/-- The segments of a file, each at its address. -/
def loadSegments (file : List UInt8) : Nat → Nat → Image → Option Image
  | 0, _, im => some im
  | n + 1, off, im => do
      let ph ← readProghdr file off
      let next := (off + proghdrSize) % 2 ^ 32
      if ph.type ≠ elfProgLoad then loadSegments file n next im
      else if !ph.loads then none
      else
        let bytes := readFile file (ph.off % 2 ^ 32) (ph.filesz % 2 ^ 32)
        if bytes.length ≠ ph.filesz % 2 ^ 32 then none
        else loadSegments file n next ((im.grow (ph.vaddr + ph.memsz)).write ph.vaddr bytes)

/-- The argument strings below the stack pointer, and the pointers to them. -/
def pushStrings (stackbase : Nat) :
    List (List UInt8) → Image → Nat → List Nat → Option (Image × Nat × List Nat)
  | [], im, sp, ustack => some (im, sp, ustack)
  | arg :: args, im, sp, ustack =>
    let sp := push sp (arg.length + 1)
    if maxarg ≤ ustack.length ∨ sp < stackbase then none
    else pushStrings stackbase args (im.write sp (arg ++ [0])) sp (ustack ++ [sp])

/-- The pointers, below the strings. -/
def pushPointers (stackbase argc : Nat) (im : Image) (sp : Nat) (ustack : List Nat) :
    Option Image :=
  let sp := push sp ((argc + 1) * 8)
  if sp < stackbase then none else some (im.write sp ((ustack ++ [0]).flatMap uint64Bytes))

def pushArgs (im : Image) (argv : List (List UInt8)) : Option Image :=
  match pushStrings (stackbase im.sz) argv im im.sz [] with
  | none => none
  | some (pushed, sp, ustack) => pushPointers (stackbase im.sz) argv.length pushed sp ustack

/-- The memory of a process that has executed a file. -/
def exec (file : List UInt8) (argv : List (List UInt8)) : Option Image := do
  let elf ← readElfhdr file
  if elf.magic ≠ elfMagic then none
  else do
    let im ← loadSegments file elf.phnum (elf.phoff % 2 ^ 32) empty
    (im.round.grow (im.round.sz + 2 * pgsize)).pushArgs argv

end Image

/-- The memories of all processes. -/
structure Eager where
  image : Fin nproc → Option Image

namespace Eager

def byteAt (e : Eager) (p : Fin nproc) (a : Nat) : Option UInt8 := (e.image p).bind (·.byteAt a)

def put (e : Eager) (p : Fin nproc) (im : Option Image) : Eager :=
  ⟨Function.update e.image p im⟩

/-- Change the memory of one process. -/
def change (e : Eager) (p : Fin nproc) (f : Image → Image) : Eager :=
  e.put p ((e.image p).map f)

/-- What an operation that ends in a given way does to memory.  A copy that fails may
have delivered its first bytes; everything else is determined. -/
def Step (e : Eager) : Op → Outcome → Eager → Prop
  | .fork p, .forked child, e' => e' = e.put child (e.image p)
  | .store p va src, .done, e' => e' = e.change p (·.write va src)
  | .copyout p dstva src, .done, e' => e' = e.change p (·.write dstva src)
  | .copyout p dstva src, .failed, e' =>
    ∃ n ≤ src.length, e' = e.change p (·.write dstva (src.take n))
  | .sbrk p n, .done, e' => e' = e.change p (·.sbrk n)
  | .exec p _ (some file) argv, .done, e' =>
    ∃ im, Image.exec file argv = some im ∧ e' = e.put p (some im)
  | .wait p addr, .reaped child status, e' =>
    e' = (e.change p (·.write addr status)).put child none
  | .wait p addr, .unreaped status, e' =>
    ∃ n ≤ status.length, e' = e.change p (·.write addr (status.take n))
  | _, _, e' => e' = e

inductive Run (e : Eager) : List (Op × Outcome) → Eager → Prop
  | refl : Run e [] e
  | step {e₁ e₂ : Eager} {ops : List (Op × Outcome)} {op : Op} {out : Outcome}
      (run : Run e ops e₁) (step : Step e₁ op out e₂) : Run e (ops ++ [(op, out)]) e₂

/-- The reference machine at boot: the first process has one page with its program. -/
def booted (initproc : Fin nproc) : Eager :=
  ⟨fun p => if p = initproc then some ⟨pgsize, fun a => Kernel.initcode.getD a 0⟩ else none⟩

end Eager

end Xv6
