import Xv6.Proc

/-!
# Executing a file

`exec` of `exec.c`: it reads the ELF header and the program headers of a file, builds an
image with the segments and a stack that holds the arguments, and replaces the address
space of the process by it.  The file is the list of bytes that `readi` reads from; the
image is the space `.image p` of the machine while it is built.  A failure in the source
jumps to `bad`; here it is the result `none` of the function it happens in.
-/

namespace Xv6

/-- An unsigned number stored in little-endian order. -/
def fromLittleEndian : List UInt8 → Nat
  | [] => 0
  | b :: bs => b.toNat + 256 * fromLittleEndian bs

/-- The field of `n` bytes at `off` in a header. -/
def field (header : List UInt8) (off n : Nat) : Nat :=
  fromLittleEndian ((header.drop off).take n)

/-- The eight bytes of a `uint64`. -/
def uint64Bytes (n : Nat) : List UInt8 :=
  (List.range 8).map fun i => UInt8.ofNat (n / 256 ^ i)

/-- `a - b` on `uint64`. -/
def sub64 (a b : Nat) : Nat := (a + (2 ^ 64 - b % 2 ^ 64)) % 2 ^ 64

/-- The bytes that `readi` delivers; offsets and counts are `uint`. -/
def readFile (file : List UInt8) (off n : Nat) : List UInt8 :=
  if file.length < off ∨ (off + n) % 2 ^ 32 < off then [] else (file.drop off).take n

def elfMagic : Nat := 0x464C457F

/-- `struct elfhdr`, the fields that `exec` uses. -/
structure Elfhdr where
  magic : Nat
  entry : Nat
  phoff : Nat
  phnum : Nat

def elfhdrSize : Nat := 64

def readElfhdr (file : List UInt8) : Option Elfhdr :=
  let bytes := readFile file 0 elfhdrSize
  if bytes.length ≠ elfhdrSize then none
  else some ⟨field bytes 0 4, field bytes 24 8, field bytes 32 8, field bytes 56 2⟩

/-- `struct proghdr`, the fields that `exec` uses. -/
structure Proghdr where
  type : Nat
  flags : Nat
  off : Nat
  vaddr : Nat
  filesz : Nat
  memsz : Nat

def proghdrSize : Nat := 56

def elfProgLoad : Nat := 1

def readProghdr (file : List UInt8) (off : Nat) : Option Proghdr :=
  let bytes := readFile file off proghdrSize
  if bytes.length ≠ proghdrSize then none
  else some ⟨field bytes 0 4, field bytes 4 4, field bytes 8 8, field bytes 16 8, field bytes 32 8,
    field bytes 40 8⟩

/-- The checks that `exec` makes on a segment to load. -/
def Proghdr.loads (ph : Proghdr) : Bool :=
  ph.filesz ≤ ph.memsz && ph.vaddr ≤ (ph.vaddr + ph.memsz) % 2 ^ 64 && ph.vaddr % pgsize = 0

/-- `flags2perm`. -/
def flags2perm (flags : Nat) : Pte :=
  (if flags.testBit 0 then pteX else 0) ||| (if flags.testBit 1 then pteW else 0)

/-- The loop of `loadseg` over the pages of a segment of `sz` bytes, from the `i`-th byte
on; the flag is false if the file is too short.  `fuel` bounds the number of pages. -/
def loadseg (file : List UInt8) (va offset sz : Nat) :
    Nat → Machine → SpaceId → Nat → Except String (Machine × Bool)
  | 0, m, _, _ => .ok (m, true)
  | fuel + 1, m, id, i =>
    if sz ≤ i then .ok (m, true)
    else do
      let sp ← m.get id
      let pa ← walkaddr sp.pagetable (va + i)
      if pa = 0 then .error "loadseg: address should exist"
      else do
        let n := min (sz - i) pgsize
        let bytes := readFile file ((offset + i) % 2 ^ 32) n
        let m ← m.write id (va + i) bytes
        if bytes.length ≠ n then .ok (m, false)
        else loadseg file va offset sz fuel m id (i + pgsize)

/-- The loop of `exec` over the program headers, `n` of them to go from `off` on. -/
def loadSegments (file : List UInt8) (id : SpaceId) :
    Nat → Machine → Nat → Except String (Machine × Bool)
  | 0, m, _ => .ok (m, true)
  | n + 1, m, off =>
    match readProghdr file off with
    | none => .ok (m, false)
    | some ph =>
      if ph.type ≠ elfProgLoad then loadSegments file id n m ((off + proghdrSize) % 2 ^ 32)
      else if !ph.loads then .ok (m, false)
      else do
        let (m, sz) ← m.uvmalloc id (ph.vaddr + ph.memsz) (flags2perm ph.flags)
        if sz = 0 then .ok (m, false)
        else do
          let filesz := ph.filesz % 2 ^ 32
          let (m, done) ← loadseg file ph.vaddr (ph.off % 2 ^ 32) filesz filesz m id 0
          if done then loadSegments file id n m ((off + proghdrSize) % 2 ^ 32)
          else .ok (m, false)

def maxarg : Nat := 32

/-- The stack pointer after `len` bytes are pushed, aligned. -/
def push (sp len : Nat) : Nat :=
  let sp := sub64 sp len
  sp - sp % 16

/-- The loop of `exec` that pushes the argument strings, with the pointers pushed so far;
no result if one does not fit. -/
def pushStrings (id : SpaceId) (stackbase : Nat) :
    List (List UInt8) → Machine → Nat → List Nat → Except String (Machine × Option (Nat × List Nat))
  | [], m, sp, ustack => .ok (m, some (sp, ustack))
  | arg :: args, m, sp, ustack =>
    if maxarg ≤ ustack.length then .ok (m, none)
    else do
      let sp := push sp (arg.length + 1)
      if sp < stackbase then .ok (m, none)
      else do
        let (m, r) ← m.copyout id sp (arg ++ [0])
        if r < 0 then .ok (m, none)
        else pushStrings id stackbase args m sp (ustack ++ [sp])

/-- The lowest address of the stack page, the last page of an image of size `sz`. -/
def stackbase (sz : Nat) : Nat := sz - pgsize

/-- The array of the `argc` pointers and a null one, below the strings; the result is the
stack pointer. -/
def pushPointers (m : Machine) (id : SpaceId) (stackbase argc sp : Nat) (ustack : List Nat) :
    Except String (Machine × Option Nat) :=
  let sp := push sp ((argc + 1) * 8)
  if sp < stackbase then .ok (m, none)
  else do
    let (m, r) ← m.copyout id sp ((ustack ++ [0]).flatMap uint64Bytes)
    if r < 0 then .ok (m, none) else .ok (m, some sp)

def pushArgs (m : Machine) (id : SpaceId) (sz : Nat) (argv : List (List UInt8)) :
    Except String (Machine × Option Nat) := do
  match ← pushStrings id (stackbase sz) argv m sz [] with
  | (m, none) => .ok (m, none)
  | (m, some (sp, ustack)) => pushPointers m id (stackbase sz) argv.length sp ustack

/-- `sz = PGROUNDUP(sz)`. -/
def Machine.roundSz (m : Machine) (id : SpaceId) : Except String (Machine × Nat) := do
  let sp ← m.get id
  .ok (m.put id m.kmem (some ⟨sp.pagetable, pgroundup sp.sz⟩), pgroundup sp.sz)

/-- The guard page and the stack page, with the arguments. -/
def buildStack (m : Machine) (id : SpaceId) (argv : List (List UInt8)) :
    Except String (Machine × Option Nat) := do
  let (m, sz) ← m.roundSz id
  let (m, sz) ← m.uvmalloc id (sz + 2 * pgsize) pteW
  if sz = 0 then .ok (m, none)
  else do
    let m ← m.uvmclear id (sz - 2 * pgsize)
    pushArgs m id sz argv

/-- The body of `exec` up to the commit; no result if it jumps to `bad`. -/
def buildImage (m : Machine) (p : Fin nproc) (trapframe : Nat) (file : List UInt8)
    (argv : List (List UInt8)) : Except String (Machine × Option (Elfhdr × Nat)) :=
  match readElfhdr file with
  | none => .ok (m, none)
  | some elf =>
    if elf.magic ≠ elfMagic then .ok (m, none)
    else do
      let (m, done) ← m.procPagetable (.image p) trapframe
      if !done then .ok (m, none)
      else do
        let (m, done) ← loadSegments file (.image p) elf.phnum m (elf.phoff % 2 ^ 32)
        if !done then .ok (m, none)
        else do
          match ← buildStack m (.image p) argv with
          | (m, none) => .ok (m, none)
          | (m, some sp) => .ok (m, some (elf, sp))

/-- The last component of a path, as `exec` saves it in `p->name`. -/
def programName (path : List UInt8) : List UInt8 :=
  ((path.splitOn 47).getLastD []).take 15

namespace Kernel

/-- `exec`, with the file that `namei` finds at `path`. -/
def exec (s : Kernel) (p : Fin nproc) (path : List UInt8) (file : Option (List UInt8))
    (argv : List (List UInt8)) : Except String (Kernel × Int) :=
  match file, (s.proc p).trapframe with
  | none, _ => .ok (s, -1)
  | _, none => .error "kerneltrap"
  | some file, some trapframe => do
      match ← buildImage s.machine p trapframe file argv with
      | (m, some (elf, sp)) => do
          let m ← m.commit p
          .ok ({ s with machine := m }.modify p fun q =>
            { q with
              name := programName path
              frame := { q.frame with a1 := sp, epc := elf.entry, sp := sp } }, argv.length)
      | (m, none) => do
          -- bad:
          let m ← m.freePagetable (.image p)
          .ok ({ s with machine := m }, -1)

end Kernel

end Xv6
