import Mathlib
import Xv6.Param

/-!
# Inodes and directories on the disk

The part of the disk that names live in.  A directory's contents are its list of entries, one
for each sixteen bytes of its size; an entry with inode number zero is an empty slot.  Of the
blocks only their number matters here: how many are free, and how many an inode has.

A superblock with at most `2 ^ 16` inodes is assumed throughout, so that an inode number fits
the sixteen bits an entry has for it.
-/

namespace Xv6.Names

open Function List

def rootino : Nat := 1

/-- `T_DIR`, `T_FILE` and `T_DEVICE`. -/
inductive Kind
  | dir
  | file
  | device
deriving DecidableEq

/-- The bytes of a name, without the terminating NUL. -/
abbrev Name := List UInt8

def dot : Name := [46]
def dotdot : Name := [46, 46]

structure Dirent where
  inum : Nat
  name : Name
deriving DecidableEq

/-- What the name space sees of an inode.  A type of zero (no type) marks a free inode. -/
structure Node where
  type : Option Kind
  nlink : BitVec 16
  entries : List Dirent
deriving DecidableEq

/-- `struct dinode`.  The data blocks are those with the first `blocks` indices; `indirect`
says whether the block of block numbers is allocated. -/
structure Dinode extends Node where
  major : BitVec 16
  minor : BitVec 16
  blocks : Nat
  indirect : Bool
deriving DecidableEq

/-- A dinode cleared by `memset`. -/
def Dinode.zero : Dinode := ⟨⟨none, 0, []⟩, 0, 0, 0, false⟩

/-- `ip->nlink = n`. -/
def Dinode.withNlink (ip : Dinode) (n : BitVec 16) : Dinode :=
  ⟨⟨ip.type, n, ip.entries⟩, ip.major, ip.minor, ip.blocks, ip.indirect⟩

/-- `ip->major = major; ip->minor = minor; ip->nlink = 1`. -/
def Dinode.init (ip : Dinode) (major minor : BitVec 16) : Dinode :=
  ⟨⟨ip.type, 1, ip.entries⟩, major, minor, ip.blocks, ip.indirect⟩

structure Disk where
  ninodes : Nat
  inode : Nat → Dinode
  free : Nat

namespace Disk

def setInode (d : Disk) (inum : Nat) (ip : Dinode) : Disk :=
  { d with inode := Function.update d.inode inum ip }

def setNlink (d : Disk) (inum : Nat) (n : BitVec 16) : Disk :=
  d.setInode inum ((d.inode inum).withNlink n)

def balloc (d : Disk) : Bool × Disk :=
  if d.free = 0 then (false, d) else (true, { d with free := d.free - 1 })

/-- The end of `bmap`: the data block itself. -/
def attach (d : Disk) (inum bn : Nat) : Bool × Disk :=
  if bn < (d.inode inum).blocks then (true, d)
  else
    match d.balloc with
    | (false, d) => (false, d)
    | (true, d) =>
      (true, d.setInode inum { d.inode inum with blocks := (d.inode inum).blocks + 1 })

/-- Whether `bmap` finds or allocates the block with an index below `MAXFILE`. -/
def bmap (d : Disk) (inum bn : Nat) : Bool × Disk :=
  if bn < ndirect ∨ (d.inode inum).indirect then d.attach inum bn
  else
    match d.balloc with
    | (false, d) => (false, d)
    | (true, d) => (d.setInode inum { d.inode inum with indirect := true }).attach inum bn

/-- Overwrite a slot, or add one at the end. -/
def put (slot : Nat) (de : Dirent) (entries : List Dirent) : List Dirent :=
  if slot < entries.length then entries.set slot de else entries ++ [de]

theorem mem_put {slot : Nat} {de e : Dirent} {entries : List Dirent}
    (mem : e ∈ put slot de entries) : e = de ∨ e ∈ entries := by
  unfold put at mem
  split at mem
  · exact (mem_or_eq_of_mem_set mem).symm
  · simpa [or_comm] using mem

/-- `writei` of one entry to a slot of a directory: the number of bytes written. -/
def writei (d : Disk) (dp slot : Nat) (de : Dirent) : Int × Disk :=
  if (d.inode dp).entries.length < slot then (-1, d)
  else if maxfile * bsize < slot * direntSize + direntSize then (-1, d)
  else
    match d.bmap dp (slot * direntSize / bsize) with
    | (false, d) => (0, d)
    | (true, d) =>
      (direntSize, d.setInode dp
        { d.inode dp with entries := put slot de (d.inode dp).entries })

def itrunc (d : Disk) (inum : Nat) : Disk :=
  { d with
    inode := Function.update d.inode inum
      { d.inode inum with entries := [], blocks := 0, indirect := false }
    free := d.free + (d.inode inum).blocks + if (d.inode inum).indirect then 1 else 0 }

/-- The end of `iput` for an inode without links: no contents and no type. -/
def ifree (d : Disk) (inum : Nat) : Disk :=
  (d.itrunc inum).setInode inum { (d.itrunc inum).inode inum with type := none }

/-- The loop of `ialloc`: the first free inode. -/
def freeInode (d : Disk) : Option Nat :=
  (List.range' 1 (d.ninodes - 1)).find? fun i => (d.inode i).type = none

end Disk

/-- The loop of `dirlookup`: the slot and the inode number of the first entry with the name. -/
def findEntry (name : Name) : Nat → List Dirent → Option (Nat × Nat)
  | _, [] => none
  | slot, de :: rest =>
    if de.inum ≠ 0 ∧ de.name = name then some (slot, de.inum)
    else findEntry name (slot + 1) rest

/-- The loop of `dirlink`: the first empty slot, or the one after the last. -/
def emptySlot (entries : List Dirent) : Nat :=
  entries.findIdx fun de => de.inum = 0

/-- No entry but the first two, which are `.` and `..`. -/
def isdirempty (entries : List Dirent) : Bool :=
  (entries.drop 2).all fun de => de.inum = 0

/-! ## The names on the disk -/

namespace Disk

variable {d d' : Disk} {i j bn slot : Nat}

/-- What the name space sees of the disk. -/
def node (d : Disk) (i : Nat) : Node := (d.inode i).toNode

theorem setInode_node (ip : Dinode) : (d.setInode i ip).node = update d.node i ip.toNode := by
  funext j
  by_cases eq : j = i
  · subst eq
    simp [node, setInode]
  · simp [node, setInode, eq]

theorem setInode_node_same {ip : Dinode} (same : ip.toNode = d.node i) :
    (d.setInode i ip).node = d.node := by
  rw [setInode_node, same, update_eq_self]

theorem setNlink_node (n : BitVec 16) :
    (d.setNlink i n).node = update d.node i ⟨(d.node i).type, n, (d.node i).entries⟩ :=
  setInode_node _

theorem balloc_node : d.balloc.2.node = d.node ∧ d.balloc.2.ninodes = d.ninodes := by
  unfold balloc
  split
  · exact ⟨rfl, rfl⟩
  · exact ⟨rfl, rfl⟩

theorem attach_node : (d.attach i bn).2.node = d.node ∧ (d.attach i bn).2.ninodes = d.ninodes := by
  have same := balloc_node (d := d)
  unfold attach
  split
  · exact ⟨rfl, rfl⟩
  · split
    · next eq =>
        rw [eq] at same
        exact same
    · next d₁ eq =>
        rw [eq] at same
        exact ⟨(setInode_node_same (by rfl)).trans same.1, same.2⟩

/-- Blocks change no names. -/
theorem bmap_node : (d.bmap i bn).2.node = d.node ∧ (d.bmap i bn).2.ninodes = d.ninodes := by
  have same := balloc_node (d := d)
  unfold bmap
  split
  · exact attach_node
  · split
    · next eq =>
        rw [eq] at same
        exact same
    · next d₁ eq =>
        rw [eq] at same
        exact ⟨attach_node.1.trans ((setInode_node_same (by rfl)).trans same.1),
          attach_node.2.trans same.2⟩

theorem attach_fst : (d.attach i bn).1 = decide (bn < (d.inode i).blocks ∨ 0 < d.free) := by
  unfold attach balloc
  by_cases within : bn < (d.inode i).blocks
  · simp [within]
  · by_cases none : d.free = 0
    · simp [within, none]
    · simp [within, none, Nat.pos_of_ne_zero none]

theorem bmap_fst : (d.bmap i bn).1 =
      if bn < ndirect ∨ (d.inode i).indirect then
        decide (bn < (d.inode i).blocks ∨ 0 < d.free)
      else decide (0 < d.free ∧ (bn < (d.inode i).blocks ∨ 1 < d.free)) := by
  unfold bmap
  split
  · exact attach_fst
  · unfold balloc
    by_cases none : d.free = 0
    · simp [none]
    · simp only [none, if_false, attach_fst, setInode, update_self]
      rw [decide_eq_decide]
      omega

/-- A slot of a directory can be written. -/
def fits (d : Disk) (dp slot : Nat) : Bool :=
  slot ≤ (d.inode dp).entries.length ∧ slot * direntSize + direntSize ≤ maxfile * bsize ∧
    (d.bmap dp (slot * direntSize / bsize)).1

theorem writei_of_fits (de : Dirent) (room : d.fits i slot = true) :
    (d.writei i slot de).1 = direntSize ∧ (d.writei i slot de).2.ninodes = d.ninodes ∧
      (d.writei i slot de).2.node = update d.node i
        ⟨(d.node i).type, (d.node i).nlink, put slot de (d.node i).entries⟩ := by
  simp only [fits, decide_eq_true_eq] at room
  obtain ⟨inside, below, found⟩ := room
  have same : (d.bmap i (slot * direntSize / bsize)).2.node = d.node ∧ _ := bmap_node
  unfold writei
  rw [if_neg (by omega), if_neg (by omega)]
  cases eq : d.bmap i (slot * direntSize / bsize) with
  | mk ok d₁ =>
    rw [eq] at found same
    subst found
    refine ⟨rfl, same.2, ?_⟩
    simp only [setInode_node, same.1]
    have at_i := congrFun same.1 i
    simp only [node] at at_i ⊢
    rw [at_i]

theorem writei_of_full (de : Dirent) (full : d.fits i slot = false) :
    (d.writei i slot de).1 ≤ 0 ∧ (d.writei i slot de).2.ninodes = d.ninodes ∧
      (d.writei i slot de).2.node = d.node := by
  have same : (d.bmap i (slot * direntSize / bsize)).2.node = d.node ∧ _ := bmap_node
  unfold writei
  split
  · exact ⟨by simp, rfl, rfl⟩
  · split
    · exact ⟨by simp, rfl, rfl⟩
    · next outside above =>
        cases eq : d.bmap i (slot * direntSize / bsize) with
        | mk ok d₁ =>
          rw [eq] at same
          cases ok with
          | false => exact ⟨le_rfl, same.2, same.1⟩
          | true =>
            simp only [fits, eq, decide_eq_false_iff_not] at full
            exact absurd ⟨by omega, by omega, trivial⟩ full

/-- Room in a directory depends on that directory and on the number of free blocks. -/
theorem fits_congr (inode : d'.inode i = d.inode i) (free : d'.free = d.free) :
    d'.fits i slot = d.fits i slot := by
  simp only [fits, bmap_fst, inode, free]

theorem itrunc_node : (d.itrunc i).node =
      update d.node i ⟨(d.node i).type, (d.node i).nlink, []⟩ := by
  funext j
  by_cases eq : j = i
  · subst eq
    simp [node, itrunc]
  · simp [node, itrunc, eq]

theorem ifree_node : (d.ifree i).node = update d.node i ⟨none, (d.node i).nlink, []⟩ := by
  rw [ifree, setInode_node, itrunc_node, update_idem]
  have at_i := congrFun (itrunc_node (d := d) (i := i)) i
  simp only [node, update_self] at at_i ⊢
  rw [at_i]

theorem freeInode_some (found : d.freeInode = some i) :
    (d.node i).type = none ∧ 1 ≤ i ∧ i < d.ninodes := by
  have free := find?_some found
  have mem := mem_of_find?_eq_some found
  rw [mem_range'_1] at mem
  exact ⟨of_decide_eq_true free, mem.1, by omega⟩

end Disk

/-! ## Paths -/

def slash : UInt8 := 47

/-- The next element of a path and the path after it. -/
def skipelem (path : List UInt8) : Option (Name × List UInt8) :=
  match path.dropWhile (· == slash) with
  | [] => none
  | c :: cs =>
    some (((c :: cs).takeWhile (· != slash)).take dirsiz,
      ((c :: cs).dropWhile (· != slash)).dropWhile (· == slash))

/-- The elements that repeated calls of `skipelem` take from a path. -/
def elementsFuel : Nat → List UInt8 → List Name
  | 0, _ => []
  | n + 1, path =>
    match skipelem path with
    | none => []
    | some (name, rest) => name :: elementsFuel n rest

def elements (path : List UInt8) : List Name := elementsFuel path.length path

theorem skipelem_length {path rest : List UInt8} {name : Name}
    (some_elem : skipelem path = some (name, rest)) : rest.length < path.length := by
  have shorter : (path.dropWhile (· == slash)).length ≤ path.length :=
    length_dropWhile_le ..
  unfold skipelem at some_elem
  cases stripped : path.dropWhile (· == slash) with
  | nil => simp [stripped] at some_elem
  | cons c cs =>
    -- the first character left is no slash, so at least it is taken
    have first : (c == slash) = false := by
      have := head?_dropWhile_not (fun x : UInt8 => x == slash) path
      simpa [stripped] using this
    rw [stripped] at some_elem shorter
    simp only [Option.some.injEq, Prod.mk.injEq] at some_elem
    obtain ⟨-, rfl⟩ := some_elem
    have taken : ((c :: cs).dropWhile (· != slash)).length ≤ cs.length := by
      rw [dropWhile_cons_of_pos (by simpa using first)]
      exact length_dropWhile_le ..
    have := length_dropWhile_le (fun x : UInt8 => x == slash) ((c :: cs).dropWhile (· != slash))
    simp only [length_cons] at shorter
    omega

theorem elementsFuel_eq {n m : Nat} {path : List UInt8} (enough : path.length ≤ n)
    (enough' : path.length ≤ m) : elementsFuel n path = elementsFuel m path := by
  have none_of_empty : skipelem [] = none := rfl
  induction n generalizing m path with
  | zero =>
    obtain rfl : path = [] := eq_nil_of_length_eq_zero (by omega)
    cases m with
    | zero => rfl
    | succ m => simp [elementsFuel, none_of_empty]
  | succ n ih =>
    cases m with
    | zero =>
      obtain rfl : path = [] := eq_nil_of_length_eq_zero (by omega)
      simp [elementsFuel, none_of_empty]
    | succ m =>
      cases next : skipelem path with
      | none => simp [elementsFuel, next]
      | some elem =>
        have shorter := skipelem_length next
        simp only [elementsFuel, next]
        exact congrArg (elem.1 :: ·) (ih (by omega) (by omega))

/-- The elements of a path are what the loop `while((path = skipelem(path, name)) != 0)`
goes through. -/
theorem elements_eq (path : List UInt8) : elements path =
      match skipelem path with
      | none => []
      | some (name, rest) => name :: elements rest := by
  cases path with
  | nil => rfl
  | cons c cs =>
    rw [elements, length_cons, elementsFuel]
    cases next : skipelem (c :: cs) with
    | none => rfl
    | some elem =>
      have shorter := skipelem_length next
      simp only [length_cons] at shorter
      exact congrArg (elem.1 :: ·) (elementsFuel_eq (by omega) le_rfl)

end Xv6.Names
