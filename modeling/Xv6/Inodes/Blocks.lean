import Xv6.Lib.Bytes
import Xv6.Lib.Allocator
import Xv6.Lib.Fallible
import Xv6.Param

/-!
# Blocks, the bitmap and the inode blocks

The on-disk format of `fs.h` and the functions of `fs.c` that change single blocks: `balloc` and
`iupdate`.  The disk is seen through the buffer cache: `block b` is what `bread` returns.  A call of
`log_write` is recorded; it stops the kernel outside of a transaction, and when the log is full.

What a block means is given by three views: the bits of the bitmap, the inodes of the inode blocks
and the numbers of an indirect block.  A block is written in one of them only.
-/

namespace Xv6.Inodes

open Bytes Fallible Function Nat List

/-- Inodes per block, `BSIZE / sizeof(struct dinode)`. -/
def ipb : Nat := bsize / 64

/-- Bits per block of the bitmap. -/
def bpb : Nat := bsize * 8

abbrev Block : Type := Nat → UInt8

/-! ## Bits -/

/-- `1 << (bi % 8)`. -/
def mask (i : Nat) : UInt8 := 1 <<< UInt8.ofNat (i % 8)

def getBit (b : Block) (i : Nat) : Bool := b (i / 8) &&& mask i ≠ 0

def setBit (b : Block) (i : Nat) : Block := Function.update b (i / 8) (b (i / 8) ||| mask i)

theorem toNat_mask (i : Nat) : (mask i).toNat = 2 ^ (i % 8) := by
  have all : ∀ k < 8, ((1 : UInt8) <<< UInt8.ofNat k).toNat = 2 ^ k := by decide
  exact all _ (mod_lt _ (by decide))

theorem getBit_eq (b : Block) (i : Nat) : getBit b i = (b (i / 8)).toNat.testBit (i % 8) := by
  have zero : b (i / 8) &&& mask i = 0 ↔ (b (i / 8)).toNat.testBit (i % 8) = false := by
    rw [← UInt8.toNat_inj, UInt8.toNat_and, toNat_mask, and_two_pow]
    cases (b (i / 8)).toNat.testBit (i % 8) with
    | false => simp
    | true => simp
  unfold getBit
  cases bit : (b (i / 8)).toNat.testBit (i % 8) with
  | false => simp [zero.2 bit]
  | true =>
    have nonzero : b (i / 8) &&& mask i ≠ 0 := fun eq => by rw [zero.1 eq] at bit; cases bit
    exact decide_eq_true nonzero

theorem getBit_setBit (b : Block) (i j : Nat) :
    getBit (setBit b i) j = (decide (j = i) || getBit b j) := by
  rw [getBit_eq, getBit_eq, setBit]
  rcases eq_or_ne (j / 8) (i / 8) with same | ne
  · rw [same, update_self, UInt8.toNat_or, testBit_or, toNat_mask, testBit_two_pow,
      Bool.or_comm]
    congr 2
    exact propext ⟨fun _ => by omega, fun _ => by omega⟩
  · have other : j ≠ i := fun eq => ne (by rw [eq])
    rw [update_of_ne ne, decide_eq_false other, Bool.false_or]

/-! ## Inodes -/

/-- `struct dinode`, and the part of `struct inode` that is a copy of it. -/
@[ext]
structure Dinode where
  type : BitVec 16
  major : BitVec 16
  minor : BitVec 16
  nlink : BitVec 16
  size : Nat
  addrs : Fin (ndirect + 1) → Nat
deriving DecidableEq

namespace Dinode

variable {ip : Dinode} {k j v : Nat}

/-- `ip->addrs[k]`. -/
def addr (ip : Dinode) (k : Nat) : Nat := if h : k < ndirect + 1 then ip.addrs ⟨k, h⟩ else 0

/-- `ip->addrs[k] = v`. -/
def setAddr (ip : Dinode) (k v : Nat) : Dinode :=
  { ip with addrs := fun j => if j = k then v else ip.addrs j }

theorem addr_setAddr_self (lt : k < ndirect + 1) : (ip.setAddr k v).addr k = v := by
  rw [addr, dif_pos lt]
  exact if_pos rfl

theorem addr_setAddr_ne (ne : j ≠ k) : (ip.setAddr k v).addr j = ip.addr j := by
  unfold addr
  split
  · exact if_neg ne
  · rfl

/-- The two differ in their addresses only. -/
def Alike (ip ip' : Dinode) : Prop := ({ ip with addrs := ip'.addrs } : Dinode) = ip'

theorem Alike.refl (ip : Dinode) : Alike ip ip := rfl

theorem Alike.trans {ip₁ ip₂ ip₃ : Dinode} (first : Alike ip₁ ip₂) (second : Alike ip₂ ip₃) :
    Alike ip₁ ip₃ := by
  unfold Alike at first second
  rw [← first] at second
  exact second

theorem Alike.type {ip ip' : Dinode} (alike : Alike ip ip') : ip.type = ip'.type := by
  have := congrArg Dinode.type alike
  exact this

theorem Alike.size {ip ip' : Dinode} (alike : Alike ip ip') : ip.size = ip'.size := by
  have := congrArg Dinode.size alike
  exact this

/-- The numbers have 32 bits. -/
structure Fits (ip : Dinode) : Prop where
  size : ip.size < 2 ^ 32
  addrs : ∀ j, ip.addrs j < 2 ^ 32

end Dinode

/-- `(struct dinode*)bp->data + k`. -/
def getDinode (b : Block) (k : Nat) : Dinode where
  type := BitVec.ofNat 16 (getLE b (64 * k) 2)
  major := BitVec.ofNat 16 (getLE b (64 * k + 2) 2)
  minor := BitVec.ofNat 16 (getLE b (64 * k + 4) 2)
  nlink := BitVec.ofNat 16 (getLE b (64 * k + 6) 2)
  size := getLE b (64 * k + 8) 4
  addrs := fun j => getLE b (64 * k + 12 + 4 * j) 4

def putDinode (b : Block) (k : Nat) (ip : Dinode) : Block :=
  let b := putLE b (64 * k) ip.type.toNat 2
  let b := putLE b (64 * k + 2) ip.major.toNat 2
  let b := putLE b (64 * k + 4) ip.minor.toNat 2
  let b := putLE b (64 * k + 6) ip.nlink.toNat 2
  let b := putLE b (64 * k + 8) ip.size 4
  putAll b (64 * k + 12) 4 (List.ofFn ip.addrs)

section

variable {b : Block} {k j off n : Nat} {ip : Dinode}

theorem getDinode_fits (b : Block) (k : Nat) : (getDinode b k).Fits :=
  ⟨getLE_lt _ _ 4, fun _ => getLE_lt _ _ 4⟩

theorem getLE_putDinode_apart (apart : off + n ≤ 64 * k ∨ 64 * k + 64 ≤ off) :
    getLE (putDinode b k ip) off n = getLE b off n := by
  unfold putDinode
  rw [getLE_putAll_apart (by rw [length_ofFn, ndirect]; omega)]
  rw [getLE_putLE_apart (by omega), getLE_putLE_apart (by omega), getLE_putLE_apart (by omega),
    getLE_putLE_apart (by omega), getLE_putLE_apart (by omega)]

theorem getDinode_putDinode_ne (ne : j ≠ k) : getDinode (putDinode b k ip) j = getDinode b j := by
  have apart : ∀ o n, o + n ≤ 64 →
      getLE (putDinode b k ip) (64 * j + o) n = getLE b (64 * j + o) n :=
    fun o n inside => getLE_putDinode_apart (by omega)
  have addrs : ∀ i : Fin (ndirect + 1), getLE (putDinode b k ip) (64 * j + 12 + 4 * i) 4 =
      getLE b (64 * j + 12 + 4 * i) 4 := by
    intro i
    have lt : (i : Nat) < 13 := i.isLt
    rw [add_assoc]
    exact apart _ _ (by omega)
  unfold getDinode
  rw [← Nat.add_zero (64 * j), apart 0 2 (by decide), Nat.add_zero, apart 2 2 (by decide),
    apart 4 2 (by decide), apart 6 2 (by decide), apart 8 4 (by decide), funext addrs]

/-- An inode that fits is read back. -/
theorem getDinode_putDinode (fits : ip.Fits) : getDinode (putDinode b k ip) k = ip := by
  have word (b : Block) (o : Nat) (w : BitVec 16) :
      BitVec.ofNat 16 (getLE (putLE b o w.toNat 2) o 2) = w := by
    rw [getLE_putLE_of_lt (show w.toNat < 256 ^ 2 from w.isLt), BitVec.ofNat_toNat,
      BitVec.setWidth_eq]
  -- the five fields before the table, each behind the stores after it
  have field : ∀ (b : Block) o n, o + n ≤ 12 →
      getLE (putAll b (64 * k + 12) 4 (List.ofFn ip.addrs)) (64 * k + o) n =
        getLE b (64 * k + o) n :=
    fun b o n inside => getLE_putAll_apart (.inl (by omega))
  ext1 <;> simp only [getDinode, putDinode]
  · rw [← Nat.add_zero (64 * k), field _ 0 2 (by decide), Nat.add_zero,
      getLE_putLE_apart (by omega), getLE_putLE_apart (by omega), getLE_putLE_apart (by omega),
      getLE_putLE_apart (by omega), word]
  · rw [field _ 2 2 (by decide), getLE_putLE_apart (by omega), getLE_putLE_apart (by omega),
      getLE_putLE_apart (by omega), word]
  · rw [field _ 4 2 (by decide), getLE_putLE_apart (by omega), getLE_putLE_apart (by omega), word]
  · rw [field _ 6 2 (by decide), getLE_putLE_apart (by omega), word]
  · rw [field _ 8 4 (by decide), getLE_putLE_of_lt fits.size]
  · funext j
    have bound : (j : Nat) < (List.ofFn ip.addrs).length := by
      rw [length_ofFn]
      exact j.isLt
    have here : (List.ofFn ip.addrs)[(j : Nat)] = ip.addrs j := List.getElem_ofFn bound
    rw [getLE_putAll bound (by rw [here]; exact fits.addrs j), here]

end

/-! ## The disk -/

/-- `struct superblock`. -/
structure Superblock where
  magic : Nat
  size : Nat
  nblocks : Nat
  ninodes : Nat
  nlog : Nat
  logstart : Nat
  inodestart : Nat
  bmapstart : Nat
deriving DecidableEq

namespace Superblock

/-- `IBLOCK(i, sb)`. -/
def iblock (sb : Superblock) (i : Nat) : Nat := i / ipb + sb.inodestart

/-- `BBLOCK(b, sb)`. -/
def bblock (sb : Superblock) (b : Nat) : Nat := b / bpb + sb.bmapstart

/-- The number of blocks before the data blocks. -/
def nmeta (sb : Superblock) : Nat := sb.size - sb.nblocks

/-- The inode blocks, the bitmap and the data blocks follow each other, and a block number has
31 bits. -/
structure Layout (sb : Superblock) : Prop where
  inodes : sb.inodestart * ipb + sb.ninodes ≤ sb.bmapstart * ipb
  bitmap : sb.bmapstart * bpb + sb.size ≤ sb.nmeta * bpb
  boot : 0 < sb.nmeta
  size : sb.size ≤ 2 ^ 31

variable {sb : Superblock} {i b : Nat}

theorem bmapstart_le (sb : Superblock) (b : Nat) : sb.bmapstart ≤ sb.bblock b :=
  le_add_left _ _

theorem Layout.iblock_lt (layout : sb.Layout) (lt : i < sb.ninodes) :
    sb.iblock i < sb.bmapstart := by
  have inodes := layout.inodes
  have exact16 : ipb = 16 := rfl
  unfold iblock
  rw [exact16] at inodes ⊢
  omega

theorem Layout.bblock_lt (layout : sb.Layout) (lt : b < sb.size) : sb.bblock b < sb.nmeta := by
  have bitmap := layout.bitmap
  have bits : bpb = 8192 := rfl
  unfold bblock
  rw [bits] at bitmap ⊢
  omega

theorem Layout.bmapstart_lt (layout : sb.Layout) : sb.bmapstart < sb.nmeta := by
  have boot := layout.boot
  have some : 0 < sb.size := by
    unfold nmeta at boot
    omega
  exact (sb.bmapstart_le 0).trans_lt (layout.bblock_lt some)

end Superblock

structure Disk where
  sb : Superblock
  block : Nat → Block
  /-- The blocks of the calls of `log_write`, in order. -/
  logged : List Nat
  /-- `log.outstanding`. -/
  outstanding : Nat

namespace Disk

variable {d d' : Disk} {a b c i j k : Nat} {data : Block} {ip : Dinode}

/-- Whether a block is marked in the bitmap. -/
def bit (d : Disk) (b : Nat) : Bool := getBit (d.block (d.sb.bblock b)) (b % bpb)

/-- The inode in its inode block. -/
def dinode (d : Disk) (i : Nat) : Dinode := getDinode (d.block (d.sb.iblock i)) (i % ipb)

/-- `((uint*)bp->data)[k]` for an indirect block. -/
def entry (d : Disk) (a k : Nat) : Nat := getLE (d.block a) (4 * k) 4

/-- The cached copy of a block is changed. -/
def store (d : Disk) (b : Nat) (data : Block) : Disk :=
  { d with block := Function.update d.block b data }

/-- A block is changed and logged. -/
def logAt (d : Disk) (b : Nat) (data : Block) : Disk :=
  { d.store b data with logged := d.logged ++ [b] }

/-- `log.lh.n`: a block that is logged again is absorbed. -/
def lhn (d : Disk) : Nat := d.logged.dedup.length

/-- A block is changed and handed to `log_write`. -/
def logWrite (d : Disk) (b : Nat) (data : Block) : Except String Disk :=
  if logsize ≤ d.lhn ∨ d.sb.nlog - 1 ≤ d.lhn then .error "too big a transaction"
  else if d.outstanding < 1 then .error "log_write outside of trans"
  else .ok (d.logAt b data)

/-- The first block that the scan of `balloc` finds free. -/
def firstFree (d : Disk) : Option Nat := (range d.sb.size).find? fun b => !d.bit b

/-- `balloc(dev)`; zero if there is no free block. -/
def balloc (d : Disk) : Except String (Disk × Nat) :=
  match d.firstFree with
  | none => .ok (d, 0)
  | some b => do
      let d ← d.logWrite (d.sb.bblock b) (setBit (d.block (d.sb.bblock b)) (b % bpb))
      -- bzero(dev, b)
      let d ← d.logWrite b fun _ => 0
      .ok (d, b)

/-- `iupdate(ip)` for the inode with number `i`. -/
def iupdate (d : Disk) (i : Nat) (ip : Dinode) : Except String Disk :=
  d.logWrite (d.sb.iblock i) (putDinode (d.block (d.sb.iblock i)) (i % ipb) ip)

/-! ## What a store changes -/

theorem block_store_self : (d.store b data).block b = data := update_self _ _ _

theorem block_store_ne (ne : a ≠ b) : (d.store b data).block a = d.block a :=
  update_of_ne ne _ _

theorem bit_store (ne : d.sb.bblock c ≠ b) : (d.store b data).bit c = d.bit c := by
  unfold bit
  exact congrArg (getBit · _) (block_store_ne ne)

theorem dinode_store (ne : d.sb.iblock j ≠ b) : (d.store b data).dinode j = d.dinode j := by
  unfold dinode
  exact congrArg (getDinode · _) (block_store_ne ne)

theorem entry_store (ne : a ≠ b) : (d.store b data).entry a k = d.entry a k := by
  unfold entry
  rw [block_store_ne ne]

theorem of_logWrite (run : d.logWrite b data = .ok d') : d' = d.logAt b data := by
  unfold logWrite at run
  split at run
  · cases run
  · split at run
    · cases run
    · cases run
      rfl

/-- No block is free. -/
def Full (d : Disk) : Prop := ∀ b < d.sb.size, d.bit b = true

theorem firstFree_none : d.firstFree = none ↔ d.Full := by
  unfold firstFree Full
  rw [find?_eq_none]
  simp

theorem of_firstFree (found : d.firstFree = some b) : b < d.sb.size ∧ d.bit b = false := by
  have free := find?_some found
  have mem := mem_of_find?_eq_some found
  rw [Bool.not_eq_true'] at free
  exact ⟨mem_range.1 mem, free⟩

/-- What a change of the bitmap or of a data block leaves alone. -/
structure Same (d d' : Disk) : Prop where
  sb : d'.sb = d.sb
  dinode : ∀ j < d.sb.ninodes, d'.dinode j = d.dinode j

theorem Same.refl (d : Disk) : Same d d := ⟨rfl, fun _ _ => rfl⟩

theorem Same.trans {d₁ d₂ d₃ : Disk} (first : Same d₁ d₂) (second : Same d₂ d₃) : Same d₁ d₃ :=
  ⟨second.sb.trans first.sb, fun j lt =>
    (second.dinode j (by rw [first.sb]; exact lt)).trans (first.dinode j lt)⟩

theorem Same.store (layout : d.sb.Layout) (high : d.sb.bmapstart ≤ b) : Same d (d.store b data) :=
  ⟨rfl, fun _ lt => dinode_store (Nat.ne_of_lt ((layout.iblock_lt lt).trans_le high))⟩

theorem Same.logAt (layout : d.sb.Layout) (high : d.sb.bmapstart ≤ b) : Same d (d.logAt b data) :=
  ⟨rfl, (Same.store layout high).dinode⟩

/-- A store to a data block does not change the bitmap. -/
theorem bit_store_data (layout : d.sb.Layout) (high : d.sb.nmeta ≤ b) (lt : c < d.sb.size) :
    (d.store b data).bit c = d.bit c :=
  bit_store (Nat.ne_of_lt ((layout.bblock_lt lt).trans_le high))

/-- A bit of the bitmap changes with the block that it is in. -/
theorem bit_bitmap (value : Bool → Nat → Bool)
    (change : ∀ x, getBit data x = value (getBit (d.block (d.sb.bblock b)) x) x) :
    (d.store (d.sb.bblock b) data).bit c =
      if d.sb.bblock c = d.sb.bblock b then value (d.bit c) (c % bpb) else d.bit c := by
  rcases eq_or_ne (d.sb.bblock c) (d.sb.bblock b) with same | ne
  · rw [if_pos same]
    unfold bit
    rw [show (d.store (d.sb.bblock b) data).block ((d.store (d.sb.bblock b) data).sb.bblock c) =
      data from
      (congrArg _ same).trans block_store_self, change, same]
  · rw [if_neg ne, bit_store ne]

theorem bit_index {sb : Superblock} (same : sb.bblock c = sb.bblock b) :
    c % bpb = b % bpb ↔ c = b := by
  have bits : bpb = 8192 := rfl
  unfold Superblock.bblock at same
  rw [bits] at same ⊢
  omega

theorem bit_set : (d.store (d.sb.bblock b) (setBit (d.block (d.sb.bblock b)) (b % bpb))).bit c =
    (decide (c = b) || d.bit c) := by
  rw [bit_bitmap (fun old x => decide (x = b % bpb) || old) (fun x => getBit_setBit _ _ _)]
  rcases eq_or_ne (d.sb.bblock c) (d.sb.bblock b) with same | ne
  · rw [if_pos same, decide_eq_decide.2 (bit_index same)]
  · have other : c ≠ b := fun eq => ne (by rw [eq])
    rw [if_neg ne, decide_eq_false other, Bool.false_or]

/-! ## The functions -/

/-- What `balloc` does when it hands out block `b`. -/
structure Allocated (d d' : Disk) (b : Nat) : Prop where
  same : Same d d'
  lt : b < d.sb.size
  free : d.bit b = false
  bit : ∀ c < d.sb.size, d'.bit c = (decide (c = b) || d.bit c)
  zero : d'.block b = fun _ => 0
  block : ∀ a, d.sb.nmeta ≤ a → a ≠ b → d'.block a = d.block a

/-- `balloc` finds no free block, or hands out one that was free.  The blocks before the data are
all marked, so that it is a data block. -/
theorem balloc_spec (layout : d.sb.Layout) (marked : ∀ b < d.sb.nmeta, d.bit b = true)
    (run : d.balloc = .ok (d', b)) : (d' = d ∧ b = 0 ∧ d.Full) ∨ Allocated d d' b := by
  unfold balloc at run
  cases found : d.firstFree with
  | none =>
    rw [found] at run
    cases run
    exact .inl ⟨rfl, rfl, firstFree_none.1 found⟩
  | some free =>
    rw [found] at run
    obtain ⟨d₁, mark, run⟩ := of_bind_ok run
    obtain ⟨d₂, zero, last⟩ := of_bind_ok run
    cases last
    obtain rfl := of_logWrite zero
    obtain ⟨lt, free⟩ := of_firstFree found
    have data : d.sb.nmeta ≤ b := by
      by_contra low
      rw [marked b (by omega)] at free
      cases free
    have bitmap := layout.bblock_lt lt
    -- the disk with the mark, on which `bzero` works
    obtain ⟨same₁, bit₁, block₁⟩ : Same d d₁ ∧ (∀ c, d₁.bit c = (decide (c = b) || d.bit c)) ∧
        ∀ a, d.sb.nmeta ≤ a → d₁.block a = d.block a := by
      obtain rfl := of_logWrite mark
      exact ⟨.logAt layout (d.sb.bmapstart_le b), fun _ => bit_set,
        fun a high => block_store_ne (ne_of_gt (bitmap.trans_le high))⟩
    rw [← same₁.sb] at layout data
    refine .inr ⟨same₁.trans (.logAt layout (layout.bmapstart_lt.le.trans data)), lt, free, ?_,
      block_store_self, ?_⟩
    · intro c inside
      rw [← same₁.sb] at inside
      exact (bit_store_data layout data inside).trans (bit₁ c)
    · intro a high ne
      exact (block_store_ne ne).trans (block₁ a high)

theorem iblock_eq_iff (sb : Superblock) :
    j = i ↔ sb.iblock j = sb.iblock i ∧ j % ipb = i % ipb := by
  have inodes : ipb = 16 := rfl
  unfold Superblock.iblock
  rw [inodes]
  omega

/-- `iupdate` writes one inode. -/
theorem iupdate_spec (layout : d.sb.Layout) (lt : i < d.sb.ninodes) (fits : ip.Fits)
    (run : d.iupdate i ip = .ok d') :
    d'.sb = d.sb ∧ d'.dinode = update d.dinode i ip ∧ (∀ c, d'.bit c = d.bit c) ∧
      ∀ a, d.sb.nmeta ≤ a → d'.block a = d.block a := by
  have low := layout.iblock_lt lt
  obtain rfl := of_logWrite run
  refine ⟨rfl, funext fun j => ?_, fun c => ?_, fun a high => ?_⟩
  · rcases eq_or_ne j i with rfl | ne
    · rw [update_self]
      exact (congrArg (getDinode · _) block_store_self).trans (getDinode_putDinode fits)
    · rw [update_of_ne ne]
      rcases eq_or_ne (d.sb.iblock j) (d.sb.iblock i) with same | other
      · have index : j % ipb ≠ i % ipb := fun eq => ne ((iblock_eq_iff d.sb).2 ⟨same, eq⟩)
        unfold dinode
        rw [same]
        refine (congrArg (getDinode · _) ((congrArg _ same).trans block_store_self)).trans ?_
        exact getDinode_putDinode_ne index
      · exact dinode_store other
  · exact bit_store (ne_of_gt (low.trans_le (d.sb.bmapstart_le c)))
  · exact block_store_ne (ne_of_gt ((low.trans layout.bmapstart_lt).trans_le high))

end Disk

end Xv6.Inodes
