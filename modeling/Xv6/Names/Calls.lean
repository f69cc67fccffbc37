import Xv6.Lib.Program
import Xv6.Lib.Transitions
import Xv6.Names.Disk

/-!
# Inodes in memory, files and the calls that name them

The system calls of `sysfile.c` that look up, make and remove names, with the functions of
`fs.c` and `file.c` they are made of, run one call after the other.  An inode in memory is known
by its number: `itable` lists the numbers that have an entry in the inode table.  Every change
of an inode in memory is written back by `iupdate` before the inode is unlocked, so one copy of
its fields, the one on the disk, stands for both; what the table adds is the reference count and
whether the fields have been read in.
-/

namespace Xv6.Names

open Program Function

def ninode : Nat := 50
def nfile : Nat := 100
def nofile : Nat := 16
def ndev : Int := 10

inductive FileType
  | none
  | inode
  | device
deriving DecidableEq

/-- `struct file`. -/
structure File where
  ref : Nat
  type : FileType
  ip : Nat
deriving DecidableEq

def File.withRef (file : File) (n : Nat) : File := ⟨n, file.type, file.ip⟩

structure Proc where
  cwd : Nat
  ofile : Fin nofile → Option (Fin nfile)

/-- The kernel's state as far as names depend on it, for processes of a type `P`. -/
structure State (P : Type) where
  disk : Disk
  itable : List Nat
  ref : Nat → Nat
  valid : Nat → Bool
  ftable : Fin nfile → File
  proc : P → Option Proc
  initproc : P

variable {P : Type} [DecidableEq P]

abbrev Kernel (P α : Type) := StateT (State P) (Except String) α

namespace State

def setInode (s : State P) (inum : Nat) (ip : Dinode) : State P :=
  { s with disk := s.disk.setInode inum ip }

def setNlink (s : State P) (inum : Nat) (n : BitVec 16) : State P :=
  { s with disk := s.disk.setNlink inum n }

def setRef (s : State P) (inum n : Nat) : State P :=
  { s with ref := update s.ref inum n }

def setValid (s : State P) (inum : Nat) (b : Bool) : State P :=
  { s with valid := update s.valid inum b }

def setFile (s : State P) (f : Fin nfile) (file : File) : State P :=
  { s with ftable := update s.ftable f file }

def setProc (s : State P) (p : P) (pr : Option Proc) : State P :=
  { s with proc := update s.proc p pr }

/-- `myproc()->cwd`. -/
def cwd (s : State P) (p : P) : Nat := ((s.proc p).map Proc.cwd).getD 0

/-- `myproc()->ofile[fd]`. -/
def ofile (s : State P) (p : P) (fd : Fin nofile) : Option (Fin nfile) :=
  (s.proc p).bind fun pr => pr.ofile fd

def setOfile (s : State P) (p : P) (fd : Fin nofile) (f : Option (Fin nfile)) : State P :=
  { s with
    proc := update s.proc p
      ((s.proc p).map fun pr => { pr with ofile := update pr.ofile fd f }) }

def setCwd (s : State P) (p : P) (inum : Nat) : State P :=
  { s with proc := update s.proc p ((s.proc p).map fun pr => { pr with cwd := inum }) }

end State

/-! ## The inode table -/

def iget (inum : Nat) : Kernel P Unit := do
  let s ← get
  if 0 < s.ref inum then
    set (s.setRef inum (s.ref inum + 1))
  else if s.itable.length < ninode then
    set (({ s with itable := inum :: s.itable }.setRef inum 1).setValid inum false)
  else
    throw "iget: no inodes"

def idup (inum : Nat) : Kernel P Unit :=
  modify fun s => s.setRef inum (s.ref inum + 1)

def ilock (inum : Nat) : Kernel P Unit := do
  let s ← get
  if s.ref inum < 1 then
    throw "ilock"
  else if s.valid inum then
    pure ()
  else if (s.disk.inode inum).type = none then
    throw "ilock: no type"
  else
    set (s.setValid inum true)

/-- Free an inode and its contents. -/
def State.ifree (s : State P) (inum : Nat) : State P :=
  { s with disk := s.disk.ifree inum }.setValid inum false

/-- `ip->ref--`, which leaves an entry with no reference empty. -/
def State.unref (s : State P) (inum : Nat) : State P :=
  { s with itable := if s.ref inum ≤ 1 then s.itable.erase inum else s.itable }.setRef inum
    (s.ref inum - 1)

def State.iput (s : State P) (inum : Nat) : State P :=
  if s.ref inum = 1 ∧ s.valid inum ∧ (s.disk.inode inum).nlink = 0 then
    (s.ifree inum).unref inum
  else s.unref inum

def iput (inum : Nat) : Kernel P Unit := modify fun s => s.iput inum

def ialloc (type : Kind) : Kernel P (Option Nat) := do
  let s ← get
  match s.disk.freeInode with
  | none => return none
  | some inum =>
    set (s.setInode inum { Dinode.zero with type := some type })
    iget inum
    return some inum

/-! ## Directories and paths -/

def dirlookup (dp : Nat) (name : Name) : Kernel P (Option (Nat × Nat)) := do
  let s ← get
  if (s.disk.inode dp).type = some .dir then
    match findEntry name 0 (s.disk.inode dp).entries with
    | none => return none
    | some (slot, inum) =>
      iget inum
      return some (slot, inum)
  else
    throw "dirlookup not DIR"

/-- Write one entry of a directory. -/
def writeDirent (dp slot : Nat) (de : Dirent) : Kernel P Int := do
  let s ← get
  set { s with disk := (s.disk.writei dp slot de).2 }
  return (s.disk.writei dp slot de).1

def dirlink (dp : Nat) (name : Name) (inum : Nat) : Kernel P Int := do
  match ← dirlookup dp name with
  | some (_, ip) =>
    iput ip
    return -1
  | none =>
    let s ← get
    let n ← writeDirent dp (emptySlot (s.disk.inode dp).entries) ⟨inum, name⟩
    return if n = direntSize then 0 else -1

/-- The loop of `namex`: the inode of the path, or with `parent` that of its last directory,
and the last element. -/
def namexLoop (parent : Bool) : Nat → List Name → Name → Kernel P (Option (Nat × Name))
  | ip, [], name =>
    if parent then do
      iput ip
      return none
    else
      return some (ip, name)
  | ip, name :: rest, _ => do
      ilock ip
      let s ← get
      if (s.disk.inode ip).type = some .dir then
        if parent ∧ rest = [] then
          return some (ip, name)
        else
          match ← dirlookup ip name with
          | none =>
            iput ip
            return none
          | some (_, next) =>
            iput ip
            namexLoop parent next rest name
      else
        iput ip
        return none

def namex (p : P) (path : List UInt8) (parent : Bool) : Kernel P (Option (Nat × Name)) := do
  if path.head? = some slash then
    iget rootino
    namexLoop parent rootino (elements path) []
  else
    let s ← get
    idup (s.cwd p)
    namexLoop parent (s.cwd p) (elements path) []

def namei (p : P) (path : List UInt8) : Kernel P (Option Nat) := do
  let found ← namex p path false
  return found.map Prod.fst

def nameiparent (p : P) (path : List UInt8) : Kernel P (Option (Nat × Name)) := namex p path true

/-! ## Files -/

def filealloc : Kernel P (Option (Fin nfile)) := do
  let s ← get
  match (List.finRange nfile).find? fun f => (s.ftable f).ref = 0 with
  | none => return none
  | some f =>
    set (s.setFile f ((s.ftable f).withRef 1))
    return some f

def filedup (f : Fin nfile) : Kernel P Unit := do
  let s ← get
  if (s.ftable f).ref < 1 then
    throw "filedup"
  else
    set (s.setFile f ((s.ftable f).withRef ((s.ftable f).ref + 1)))

def fileclose (f : Fin nfile) : Kernel P Unit := do
  let s ← get
  let file := s.ftable f
  if file.ref < 1 then
    throw "fileclose"
  else if 1 < file.ref then
    set (s.setFile f (file.withRef (file.ref - 1)))
  else
    set (s.setFile f ⟨0, .none, file.ip⟩)
    if file.type = .none then
      pure ()
    else
      iput file.ip

def fdalloc (p : P) (f : Fin nfile) : Kernel P (Option (Fin nofile)) := do
  let s ← get
  match (List.finRange nofile).find? fun fd => (s.ofile p fd).isNone with
  | none => return none
  | some fd =>
    set (s.setOfile p fd (some f))
    return some fd

/-- The descriptor and the file of an argument. -/
def argfd (s : State P) (p : P) (fd : Int) : Option (Fin nofile × Fin nfile) :=
  if h : 0 ≤ fd ∧ fd.toNat < nofile then
    (s.ofile p ⟨fd.toNat, h.2⟩).map fun f => (⟨fd.toNat, h.2⟩, f)
  else none

/-! ## System calls

A path that `argstr` cannot fetch is `none`. -/

/-- The entries `.` and `..` of a new directory. -/
def linkDots (ip dp : Nat) (type : Kind) : Kernel P Int :=
  if type = .dir then do
    if (← dirlink ip dot ip) < 0 then
      return -1
    else
      dirlink ip dotdot dp
  else
    return 0

/-- The end of `create`, for a new inode. -/
def createNew (dp ip : Nat) (name : Name) (type : Kind) (major minor : BitVec 16) :
    Kernel P (Option Nat) := do
  ilock ip
  modify fun s => s.setInode ip ((s.disk.inode ip).init major minor)
  let dots ← linkDots ip dp type
  let linked ← if dots < 0 then pure (-1) else dirlink dp name ip
  if linked < 0 then
    modify fun s => s.setNlink ip 0
    iput ip
    iput dp
    return none
  else
    if type = .dir then
      modify fun s => s.setNlink dp ((s.disk.inode dp).nlink + 1)
    iput dp
    return some ip

def create (p : P) (path : List UInt8) (type : Kind) (major minor : BitVec 16) :
    Kernel P (Option Nat) := do
  match ← nameiparent p path with
  | none => return none
  | some (dp, name) =>
    ilock dp
    match ← dirlookup dp name with
    | some (_, ip) =>
      iput dp
      ilock ip
      let s ← get
      if type = .file ∧ ((s.disk.inode ip).type = some .file ∨
          (s.disk.inode ip).type = some .device) then
        return some ip
      else
        iput ip
        return none
    | none =>
      match ← ialloc type with
      | none =>
        iput dp
        return none
      | some ip => createNew dp ip name type major minor

def oCreate : BitVec 32 := 0x200
def oTrunc : BitVec 32 := 0x400

/-- The end of `sys_open`, for the inode the path names. -/
def openInode (p : P) (ip : Nat) (omode : BitVec 32) : Kernel P Int := do
  let s ← get
  let node := s.disk.inode ip
  if node.type = some .device ∧ (node.major.toInt < 0 ∨ ndev ≤ node.major.toInt) then
    iput ip
    return -1
  else
    match ← filealloc with
    | none =>
      iput ip
      return -1
    | some f =>
      match ← fdalloc p f with
      | none =>
        fileclose f
        iput ip
        return -1
      | some fd =>
        modify fun s => s.setFile f
          ⟨(s.ftable f).ref, if node.type = some .device then .device else .inode, ip⟩
        if omode &&& oTrunc ≠ 0 ∧ node.type = some .file then
          modify fun s => { s with disk := s.disk.itrunc ip }
        return fd

def sysOpen (p : P) (path : Option (List UInt8)) (omode : BitVec 32) : Kernel P Int := do
  match path with
  | none => return -1
  | some path =>
    if omode &&& oCreate ≠ 0 then
      match ← create p path .file 0 0 with
      | none => return -1
      | some ip => openInode p ip omode
    else
      match ← namei p path with
      | none => return -1
      | some ip =>
        ilock ip
        let s ← get
        if (s.disk.inode ip).type = some .dir ∧ omode ≠ 0 then
          iput ip
          return -1
        else
          openInode p ip omode

/-- The end of `sys_mkdir` and `sys_mknod`. -/
def sysCreate (p : P) (path : Option (List UInt8)) (type : Kind) (major minor : BitVec 16) :
    Kernel P Int := do
  match path with
  | none => return -1
  | some path =>
    match ← create p path type major minor with
    | none => return -1
    | some ip =>
      iput ip
      return 0

def sysMkdir (p : P) (path : Option (List UInt8)) : Kernel P Int := sysCreate p path .dir 0 0

def sysMknod (p : P) (path : Option (List UInt8)) (major minor : BitVec 32) : Kernel P Int :=
  sysCreate p path .device (major.setWidth 16) (minor.setWidth 16)

/-- The label `bad` of `sys_link`. -/
def linkBad (ip : Nat) : Kernel P Int := do
  ilock ip
  modify fun s => s.setNlink ip ((s.disk.inode ip).nlink - 1)
  iput ip
  return -1

def sysLink (p : P) (old new : Option (List UInt8)) : Kernel P Int := do
  match old, new with
  | some old, some new =>
    match ← namei p old with
    | none => return -1
    | some ip =>
      ilock ip
      let s ← get
      if (s.disk.inode ip).type = some .dir then
        iput ip
        return -1
      else
        modify fun s => s.setNlink ip ((s.disk.inode ip).nlink + 1)
        match ← nameiparent p new with
        | none => linkBad ip
        | some (dp, name) =>
          ilock dp
          if (← dirlink dp name ip) < 0 then
            iput dp
            linkBad ip
          else
            iput dp
            iput ip
            return 0
  | _, _ => return -1

def sysUnlink (p : P) (path : Option (List UInt8)) : Kernel P Int := do
  match path with
  | none => return -1
  | some path =>
    match ← nameiparent p path with
    | none => return -1
    | some (dp, name) =>
      ilock dp
      if name = dot ∨ name = dotdot then
        iput dp
        return -1
      else
        match ← dirlookup dp name with
        | none =>
          iput dp
          return -1
        | some (slot, ip) =>
          -- `ilock` of an inode that the call has locked never returns
          if ip = dp then
            throw "deadlock"
          ilock ip
          let s ← get
          if (s.disk.inode ip).nlink.toInt < 1 then
            throw "unlink: nlink < 1"
          else if (s.disk.inode ip).type = some .dir ∧
              isdirempty (s.disk.inode ip).entries = false then
            iput ip
            iput dp
            return -1
          else
            if (← writeDirent dp slot ⟨0, []⟩) ≠ direntSize then
              throw "unlink: writei"
            else
              let s ← get
              if (s.disk.inode ip).type = some .dir then
                modify fun s => s.setNlink dp ((s.disk.inode dp).nlink - 1)
              iput dp
              modify fun s => s.setNlink ip ((s.disk.inode ip).nlink - 1)
              iput ip
              return 0

def sysChdir (p : P) (path : Option (List UInt8)) : Kernel P Int := do
  match path with
  | none => return -1
  | some path =>
    match ← namei p path with
    | none => return -1
    | some ip =>
      ilock ip
      let s ← get
      if (s.disk.inode ip).type = some .dir then
        iput (s.cwd p)
        modify fun s => s.setCwd p ip
        return 0
      else
        iput ip
        return -1

def sysClose (p : P) (fd : Int) : Kernel P Int := do
  let s ← get
  match argfd s p fd with
  | none => return -1
  | some (k, f) =>
    set (s.setOfile p k none)
    fileclose f
    return 0

def sysDup (p : P) (fd : Int) : Kernel P Int := do
  let s ← get
  match argfd s p fd with
  | none => return -1
  | some (_, f) =>
    match ← fdalloc p f with
    | none => return -1
    | some k =>
      filedup f
      return k

/-- What `exec` does to the inode of the program. -/
def sysExec (p : P) (path : Option (List UInt8)) : Kernel P Int := do
  match path with
  | none => return -1
  | some path =>
    match ← namei p path with
    | none => return -1
    | some ip =>
      ilock ip
      iput ip
      return 0

/-- The loop of `exit` over the descriptors. -/
def closeAll (p : P) : List (Fin nofile) → Kernel P Unit
  | [] => pure ()
  | fd :: rest => do
      let s ← get
      match s.ofile p fd with
      | none => closeAll p rest
      | some f =>
        fileclose f
        modify fun s => s.setOfile p fd none
        closeAll p rest

def sysExit (p : P) : Kernel P Int := do
  let s ← get
  if p = s.initproc then
    throw "init exiting"
  else
    closeAll p (List.finRange nofile)
    let s ← get
    iput (s.cwd p)
    modify fun s => s.setProc p none
    return 0

/-- The loop of `fork` over the descriptors. -/
def dupAll (p : P) : List (Fin nofile) → Kernel P Unit
  | [] => pure ()
  | fd :: rest => do
      let s ← get
      match s.ofile p fd with
      | none => dupAll p rest
      | some f =>
        filedup f
        dupAll p rest

/-- What `fork` does to files and the current directory, once it has a process `child`. -/
def sysFork (p child : P) : Kernel P Int := do
  dupAll p (List.finRange nofile)
  let s ← get
  idup (s.cwd p)
  modify fun s => s.setProc child (some ⟨s.cwd p, s.ofile p⟩)
  return 0

inductive Call (P : Type)
  | open (path : Option (List UInt8)) (omode : BitVec 32)
  | mkdir (path : Option (List UInt8))
  | mknod (path : Option (List UInt8)) (major minor : BitVec 32)
  | link (old new : Option (List UInt8))
  | unlink (path : Option (List UInt8))
  | chdir (path : Option (List UInt8))
  | close (fd : Int)
  | dup (fd : Int)
  | exec (path : Option (List UInt8))
  | fork (child : P)
  | exit

def perform (p : P) : Call P → Kernel P Int
  | .open path omode => sysOpen p path omode
  | .mkdir path => sysMkdir p path
  | .mknod path major minor => sysMknod p path major minor
  | .link old new => sysLink p old new
  | .unlink path => sysUnlink p path
  | .chdir path => sysChdir p path
  | .close fd => sysClose p fd
  | .dup fd => sysDup p fd
  | .exec path => sysExec p path
  | .fork child => sysFork p child
  | .exit => sysExit p

/-- The process that calls exists, and the one that `fork` makes does not. -/
def State.CanCall (s : State P) (p : P) : Call P → Prop
  | .fork child => (s.proc p).isSome ∧ (s.proc child).isNone
  | _ => (s.proc p).isSome

instance (s : State P) (p : P) : (call : Call P) → Decidable (s.CanCall p call)
  | .fork child => inferInstanceAs (Decidable ((s.proc p).isSome ∧ (s.proc child).isNone))
  | .open .. | .mkdir _ | .mknod .. | .link .. | .unlink _ | .chdir _ | .close _ | .dup _
  | .exec _ | .exit => inferInstanceAs (Decidable ((s.proc p).isSome = true))

/-- A call of a process that returns. -/
def State.step (s : State P) (l : P × Call P) : Option (State P) :=
  if s.CanCall l.1 l.2 then
    match perform l.1 l.2 s with
    | .ok (_, s') => some s'
    | .error _ => none
  else none

/-- After `fsinit` and `userinit`: the first process in the root directory, and nothing else
in use. -/
def State.boot (disk : Disk) (init : P) : State P where
  disk := disk
  itable := [rootino]
  ref := update (fun _ => 0) rootino 1
  valid := fun _ => false
  ftable := fun _ => ⟨0, .none, 0⟩
  proc := update (fun _ => none) init (some ⟨rootino, fun _ => none⟩)
  initproc := init

end Xv6.Names
