import Xv6.Lib.RingBuffer
import Xv6.Lib.Transitions
import Xv6.Param

/-!
# The disk driver

Threads in `virtio_disk_rw` and `virtio_disk_intr`, and the device, as one transition system.
What the driver does with `vdisk_lock` held is cut where the device can see a difference: the
three descriptors are formatted, the head goes into the `avail` ring, and `avail->idx` counts it.

The device takes heads from the `avail` ring in order and finishes them in any order: it follows
the chain to the byte for the status, writes 0 there, and puts the head into the `used` ring.

A thread in `sleep` may come back at any time: it has been woken, or killed.  The `wakeup`s of the
driver therefore do nothing here.  A buffer that is passed to `virtio_disk_rw` is locked by the
caller until the return: `owner` is the thread that has it.
-/

namespace Xv6.Virtio

open Function

/-- `NUM`: descriptors, and entries of each ring. -/
def num : Nat := 8

/-- `idx` and `used_idx` are of type `uint16`. -/
def uint16 : Nat := 2 ^ 16

/-- The memory that a descriptor is about. -/
inductive Addr (B : Type)
  | null
  /-- `&disk.ops[i]` -/
  | op (i : Nat)
  /-- `b->data` -/
  | data (b : B)
  /-- `&disk.info[i].status` -/
  | status (i : Nat)
deriving DecidableEq

/-- `struct virtq_desc`, with the flags apart. -/
structure Desc (B : Type) where
  addr : Addr B
  len : Nat
  /-- `VRING_DESC_F_NEXT` -/
  hasNext : Bool
  /-- `VRING_DESC_F_WRITE` -/
  write : Bool
  next : Nat
deriving DecidableEq

/-- `struct virtio_blk_req`; the type is `VIRTIO_BLK_T_OUT` for a write. -/
structure BlkReq where
  out : Bool
  sector : Nat
deriving DecidableEq

structure Info (B : Type) where
  b : Option B
  status : UInt8
deriving DecidableEq

/-- `struct disk`, with the field `disk` of every buffer. -/
structure Disk (B : Type) where
  desc : Nat → Desc B
  /-- `avail->idx` is the tail, and the head is how far the device has looked. -/
  avail : RingBuffer Nat
  /-- `used->idx` is the tail, and the head is `used_idx`. -/
  used : RingBuffer Nat
  free : Nat → Bool
  info : Nat → Info B
  ops : Nat → BlkReq
  disk : B → Bool

/-- The arguments of `virtio_disk_rw`. -/
structure Req (B : Type) where
  b : B
  write : Bool
deriving DecidableEq

/-- `int idx[3]` -/
structure Idx where
  i₀ : Nat
  i₁ : Nat
  i₂ : Nat
deriving DecidableEq

def Idx.toList (idx : Idx) : List Nat := [idx.i₀, idx.i₁, idx.i₂]

namespace Disk

variable {B : Type}

def allocDesc (d : Disk B) : Option (Nat × Disk B) :=
  ((List.range num).find? d.free).map fun i =>
    (i, { d with free := update d.free i false })

def freeDesc (d : Disk B) (i : Nat) : Except String (Disk B) :=
  if i ≥ num then .error "free_desc 1"
  else if d.free i then .error "free_desc 2"
  else .ok { d with
    desc := update d.desc i ⟨.null, 0, false, false, 0⟩
    free := update d.free i true }

/-- The rest of `free_chain` from a descriptor on.  Each round frees a descriptor that was not
free, so that there are at most `num` rounds before a panic. -/
def freeChainFrom (fuel : Nat) (d : Disk B) (i : Nat) : Except String (Disk B) :=
  match fuel with
  | 0 => .error "free_chain"
  | fuel + 1 =>
    let flag := (d.desc i).hasNext
    let nxt := (d.desc i).next
    match d.freeDesc i with
    | .error e => .error e
    | .ok d => if flag then freeChainFrom fuel d nxt else .ok d

def freeChain (d : Disk B) (i : Nat) : Except String (Disk B) := freeChainFrom (num + 1) d i

/-- The rest of the loop of `alloc3_desc`: `k` more descriptors after those in `idx`. -/
def allocMore (k : Nat) (idx : List Nat) (d : Disk B) :
    Except String (Option (List Nat) × Disk B) :=
  match k with
  | 0 => .ok (some idx, d)
  | k + 1 =>
    match d.allocDesc with
    | some (i, d) => allocMore k (idx ++ [i]) d
    | none =>
      match idx.foldlM freeDesc d with
      | .error e => .error e
      | .ok d => .ok (none, d)

/-- `alloc3_desc`; the descriptors when it returns 0. -/
def alloc3Desc (d : Disk B) : Except String (Option Idx × Disk B) :=
  match d.allocMore 3 [] with
  | .ok (some [i₀, i₁, i₂], d) => .ok (some ⟨i₀, i₁, i₂⟩, d)
  | .ok (_, d) => .ok (none, d)
  | .error e => .error e

variable [DecidableEq B]

/-- The three descriptors of a request, and what the interrupt handler has to know. -/
def format (blockno : B → Nat) (d : Disk B) (r : Req B) (idx : Idx) : Disk B :=
  { d with
    ops := update d.ops idx.i₀ ⟨r.write, blockno r.b * (bsize / 512)⟩
    desc := update (update (update d.desc
      idx.i₀ ⟨.op idx.i₀, 16, true, false, idx.i₁⟩)
      idx.i₁ ⟨.data r.b, bsize, true, !r.write, idx.i₂⟩)
      idx.i₂ ⟨.status idx.i₀, 1, false, true, 0⟩
    info := update d.info idx.i₀ ⟨some r.b, 0xff⟩
    disk := update d.disk r.b true }

/-- The end of `virtio_disk_rw`. -/
def finish (d : Disk B) (idx : Idx) : Except String (Disk B) :=
  freeChain { d with info := update d.info idx.i₀ { d.info idx.i₀ with b := none } } idx.i₀

/-- A round of the loop of `virtio_disk_intr`. -/
def complete (d : Disk B) : Except String (Disk B) :=
  let id := d.used.front num
  if (d.info id).status ≠ 0 then .error "virtio_disk_intr status"
  else
    match (d.info id).b with
    | none => .error "virtio_disk_intr: null"
    | some b =>
      .ok { d with disk := update d.disk b false, used := d.used.pop uint16 }

/-- The device is done with a chain: the status, then the entry of the `used` ring. -/
def answer (d : Disk B) (i : Nat) : Disk B :=
  let last := d.desc (d.desc (d.desc i).next).next
  { d with
    info :=
      match last.addr with
      | .status j => update d.info j { d.info j with status := 0 }
      | _ => d.info
    used := d.used.push num uint16 i }

end Disk

/-- Where a thread is. -/
inductive At (B : Type)
  | idle
  /-- `virtio_disk_rw`: before `acquire`, at the start or at the end of `sleep(&disk.free[0])`. -/
  | start (r : Req B)
  /-- `virtio_disk_rw`: before `alloc3_desc`, with the lock. -/
  | alloc (r : Req B)
  /-- `virtio_disk_rw`: the descriptors are allocated. -/
  | format (r : Req B) (idx : Idx)
  /-- `virtio_disk_rw`: before the head goes into the ring. -/
  | ring (r : Req B) (idx : Idx)
  /-- `virtio_disk_rw`: before `disk.avail->idx += 1`. -/
  | bump (r : Req B) (idx : Idx)
  /-- `virtio_disk_rw`: at `while(b->disk == 1)`. -/
  | wait (r : Req B) (idx : Idx)
  /-- `virtio_disk_rw`: in `sleep(b)`. -/
  | asleep (r : Req B) (idx : Idx)
  /-- `virtio_disk_rw`: after the loop. -/
  | finish (r : Req B) (idx : Idx)
  /-- `virtio_disk_intr`: before `acquire`. -/
  | intr
  /-- `virtio_disk_intr`: at the loop. -/
  | scan
deriving DecidableEq

structure System (T B : Type) where
  disk : Disk B
  lock : Option T
  pc : T → At B
  owner : B → Option T
  /-- The heads of the chains that the device works on. -/
  busy : List Nat
  panic : Option String

inductive Step (T B : Type)
  | rw (t : T) (r : Req B)
  | intr (t : T)
  /-- A thread goes on. -/
  | run (t : T)
  /-- The device takes a head. -/
  | take
  /-- The device finishes a chain. -/
  | answer (i : Nat)

namespace System

variable {T B : Type} [DecidableEq T] [DecidableEq B]

def goto (s : System T B) (t : T) (a : At B) : System T B :=
  { s with pc := update s.pc t a }

def setLock (s : System T B) (holder : Option T) : System T B := { s with lock := holder }

def setDisk (s : System T B) (d : Disk B) : System T B := { s with disk := d }

/-- Go on with the result of a part of the driver, or stop. -/
def orPanic {α : Type} (s : System T B) (x : Except String α) (next : α → System T B) :
    System T B :=
  match x with
  | .ok a => next a
  | .error e => { s with panic := some e }

def run (blockno : B → Nat) (s : System T B) (t : T) : Option (System T B) :=
  match s.pc t with
  | .idle => none
  | .start r => if s.lock = none then some ((s.setLock (some t)).goto t (.alloc r)) else none
  | .alloc r =>
    some (s.orPanic s.disk.alloc3Desc fun
      | (some idx, d) => (s.setDisk d).goto t (.format r idx)
      | (none, d) => ((s.setDisk d).setLock none).goto t (.start r))
  | .format r idx => some ((s.setDisk (s.disk.format blockno r idx)).goto t (.ring r idx))
  | .ring r idx =>
    some ((s.setDisk { s.disk with avail := s.disk.avail.put num idx.i₀ }).goto t (.bump r idx))
  | .bump r idx =>
    some ((s.setDisk { s.disk with avail := s.disk.avail.advance uint16 }).goto t (.wait r idx))
  | .wait r idx =>
    if s.disk.disk r.b then some ((s.setLock none).goto t (.asleep r idx))
    else some (s.goto t (.finish r idx))
  | .asleep r idx =>
    if s.lock = none then some ((s.setLock (some t)).goto t (.wait r idx)) else none
  | .finish r idx =>
    some (s.orPanic (s.disk.finish idx) fun d =>
      { ((s.setDisk d).setLock none).goto t .idle with owner := update s.owner r.b none })
  | .intr => if s.lock = none then some ((s.setLock (some t)).goto t .scan) else none
  | .scan =>
    if s.disk.used.head ≠ s.disk.used.tail then some (s.orPanic s.disk.complete s.setDisk)
    else some ((s.setLock none).goto t .idle)

def step (blockno : B → Nat) (s : System T B) (l : Step T B) : Option (System T B) :=
  if s.panic.isSome then none
  else
    match l with
    | .rw t r =>
      if s.pc t = .idle ∧ s.owner r.b = none then
        some { s.goto t (.start r) with owner := update s.owner r.b (some t) }
      else none
    | .intr t => if s.pc t = .idle then some (s.goto t .intr) else none
    | .run t => s.run blockno t
    | .take =>
      if s.disk.avail.head ≠ s.disk.avail.tail then
        some { s.setDisk { s.disk with avail := s.disk.avail.pop uint16 } with
          busy := s.disk.avail.front num :: s.busy }
      else none
    | .answer i =>
      if i ∈ s.busy then some { s.setDisk (s.disk.answer i) with busy := s.busy.erase i }
      else none

end System

/-- After `virtio_disk_init`. -/
def System.boot (T B : Type) : System T B :=
  { disk :=
      { desc := fun _ => ⟨.null, 0, false, false, 0⟩, avail := ⟨fun _ => 0, 0, 0⟩,
        used := ⟨fun _ => 0, 0, 0⟩, free := fun i => i < num, info := fun _ => ⟨none, 0⟩,
        ops := fun _ => ⟨false, 0⟩, disk := fun _ => false }
    lock := none, pc := fun _ => .idle, owner := fun _ => none, busy := [], panic := none }

/-- The states that threads, interrupts and the device reach. -/
def System.Reachable {T B : Type} [DecidableEq T] [DecidableEq B] (blockno : B → Nat)
    (s : System T B) : Prop :=
  ∃ run, Transitions.exec (System.step blockno) (System.boot T B) run = some s

end Xv6.Virtio
