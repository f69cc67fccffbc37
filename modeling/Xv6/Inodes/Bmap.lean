import Xv6.Inodes.Blocks

/-!
# The blocks of an inode

An inode has one slot for each of its twelve direct blocks, one for its indirect block, and one for
each number in the indirect block.  `Holds` is the exactness of the bitmap over the slots of all
inodes: a block is marked when it is before the data blocks or in a slot, and it is in one slot
only.  While an inode is locked its copy in memory can be ahead of the disk, so the inodes are
given by a function beside the disk.

`bmap` finds the block with a given index, and allocates it if there is none.
-/

namespace Xv6.Inodes

open Bytes Allocator Fallible Function

/-- The direct blocks, the indirect block and the numbers in it. -/
def nslots : Nat := ndirect + 1 + nindirect

/-- The slot of the block with index `bn`. -/
def index (bn : Nat) : Nat := if bn < ndirect then bn else bn + 1

namespace Disk

variable {d d' d₁ : Disk} {V V' : Nat → Dinode} {pending : List Nat} {a b bn i j k x : Nat}
  {ip : Dinode} {data : Block}

def slot (d : Disk) (ip : Dinode) (k : Nat) : Nat :=
  if k < ndirect + 1 then ip.addr k
  else if ip.addr ndirect = 0 then 0
  else d.entry (ip.addr ndirect) (k - (ndirect + 1))

/-- The number of the block with index `bn`, zero if there is none. -/
def ptr (d : Disk) (ip : Dinode) (bn : Nat) : Nat :=
  if bn < maxfile then d.slot ip (index bn) else 0

/-- The byte at offset `x` of a file. -/
def byte (d : Disk) (ip : Dinode) (x : Nat) : Option UInt8 :=
  if d.ptr ip (x / bsize) = 0 then none
  else some (d.block (d.ptr ip (x / bsize)) (x % bsize))

/-- An inode that is allocated. -/
def Live (d : Disk) (V : Nat → Dinode) (i : Nat) : Prop := i < d.sb.ninodes ∧ (V i).type ≠ 0

instance (d : Disk) (V : Nat → Dinode) (i : Nat) : Decidable (d.Live V i) :=
  inferInstanceAs (Decidable (_ ∧ _))

/-- The slots of all allocated inodes. -/
def owners (d : Disk) (V : Nat → Dinode) (x : Nat × Nat) : Nat :=
  if d.Live V x.1 ∧ x.2 < nslots then d.slot (V x.1) x.2 else 0

/-- The bitmap is exact for the inodes `V`. -/
structure Holds (d : Disk) (V : Nat → Dinode) (pending : List Nat) : Prop where
  layout : d.sb.Layout
  exact : Exact d.sb.nmeta d.sb.size d.bit (d.owners V) pending

/-- `ip->addrs[k]`, allocated if it is zero. -/
def loadAddr (d : Disk) (ip : Dinode) (k : Nat) : Except String (Disk × Dinode × Nat) :=
  if ip.addr k = 0 then do
    let (d, addr) ← d.balloc
    if addr = 0 then .ok (d, ip, 0) else .ok (d, ip.setAddr k addr, addr)
  else .ok (d, ip, ip.addr k)

/-- `a[k]` in the indirect block `table`, allocated if it is zero. -/
def loadEntry (d : Disk) (table k : Nat) : Except String (Disk × Nat) :=
  if d.entry table k = 0 then do
    let (d, addr) ← d.balloc
    if addr = 0 then .ok (d, 0)
    else do
      let d ← d.logWrite table (putLE (d.block table) (4 * k) addr 4)
      .ok (d, addr)
  else .ok (d, d.entry table k)

/-- `bmap(ip, bn)`. -/
def bmap (d : Disk) (ip : Dinode) (bn : Nat) : Except String (Disk × Dinode × Nat) :=
  if bn < ndirect then d.loadAddr ip bn
  else if bn - ndirect < nindirect then do
    let (d, ip, table) ← d.loadAddr ip ndirect
    if table = 0 then .ok (d, ip, 0)
    else do
      let (d, addr) ← d.loadEntry table (bn - ndirect)
      .ok (d, ip, addr)
  else .error "bmap: out of range"

/-! ## Slots -/

theorem index_lt (lt : bn < maxfile) : index bn < nslots := by
  have files : maxfile = 268 := rfl
  have slots : nslots = 269 := rfl
  have direct : ndirect = 12 := rfl
  unfold index
  split
  · omega
  · omega

theorem index_ne (bn : Nat) : index bn ≠ ndirect := by
  unfold index
  split
  · omega
  · omega

theorem index_inj (same : index a = index b) : a = b := by
  unfold index at same
  split at same
  · split at same
    · exact same
    · omega
  · split at same
    · omega
    · omega

theorem owners_live (live : d.Live V i) (lt : k < nslots) : d.owners V (i, k) = d.slot (V i) k :=
  if_pos ⟨live, lt⟩

theorem ptr_eq_owners (live : d.Live V i) (lt : bn < maxfile) :
    d.ptr (V i) bn = d.owners V (i, index bn) := by
  rw [ptr, if_pos lt, owners_live live (index_lt lt)]

/-- An inode that keeps its type stays allocated. -/
theorem live_update {ip : Dinode} (type : ip.type = (V i).type) :
    d.Live (update V i ip) j ↔ d.Live V j := by
  have same : (update V i ip j).type = (V j).type := by
    rcases eq_or_ne j i with rfl | ne
    · rw [update_self, type]
    · rw [update_of_ne ne]
  exact ⟨fun h => ⟨h.1, same ▸ h.2⟩, fun h => ⟨h.1, same.symm ▸ h.2⟩⟩

theorem Same.live (same : Same d d') : d'.Live V i ↔ d.Live V i :=
  ⟨fun h => ⟨same.sb ▸ h.1, h.2⟩, fun h => ⟨same.sb.symm ▸ h.1, h.2⟩⟩

theorem slot_addr (lt : k < ndirect + 1) : d.slot ip k = ip.addr k := if_pos lt

/-- The byte in terms of the slots. -/
theorem byte_eq (live : d.Live V i) : d.byte (V i) x =
    if x / bsize < maxfile ∧ d.owners V (i, index (x / bsize)) ≠ 0 then
      some (d.block (d.owners V (i, index (x / bsize))) (x % bsize))
    else none := by
  unfold byte
  by_cases lt : x / bsize < maxfile
  · rw [ptr_eq_owners live lt]
    by_cases none : d.owners V (i, index (x / bsize)) = 0
    · rw [if_pos none, if_neg (fun h => h.2 none)]
    · rw [if_neg none, if_pos ⟨lt, none⟩]
  · have none : d.ptr (V i) (x / bsize) = 0 := if_neg lt
    rw [if_pos none, if_neg (fun h => lt h.1)]

/-- The slots depend on the inodes and on the indirect blocks. -/
theorem owners_congr (same : Same d d') (tables : ∀ j, d.Live V j → (V j).addr ndirect ≠ 0 → ∀ k,
      d'.entry ((V j).addr ndirect) k = d.entry ((V j).addr ndirect) k) :
    d'.owners V = d.owners V := by
  funext x
  unfold owners
  by_cases inside : d.Live V x.1 ∧ x.2 < nslots
  · rw [if_pos inside, if_pos ⟨same.live.2 inside.1, inside.2⟩]
    unfold slot
    by_cases none : (V x.1).addr ndirect = 0
    · rw [if_pos none, if_pos none]
    · rw [if_neg none, if_neg none, tables x.1 inside.1 none]
  · rw [if_neg inside, if_neg fun h => inside ⟨same.live.1 h.1, h.2⟩]

namespace Holds

/-- The indirect block of an inode is in its slot. -/
theorem table (live : d.Live V i) : d.owners V (i, ndirect) = (V i).addr ndirect := by
  rw [owners_live live (by decide), slot_addr (by decide)]

theorem table_ge (holds : d.Holds V pending) (live : d.Live V i) (some : (V i).addr ndirect ≠ 0) :
    d.sb.nmeta ≤ (V i).addr ndirect ∧ (V i).addr ndirect < d.sb.size := by
  rw [← table live] at some ⊢
  exact holds.exact.range _ some

theorem marked_meta (holds : d.Holds V pending) : ∀ b < d.sb.nmeta, d.bit b = true := by
  intro b lt
  have inside : b < d.sb.size := by
    unfold Superblock.nmeta at lt
    omega
  exact (holds.exact.marked b inside).2 (.inl lt)

/-- What is known after `balloc` handed out a block. -/
structure Taken (d d' : Disk) (V : Nat → Dinode) (pending : List Nat) (a : Nat) : Prop where
  same : Same d d'
  holds : d'.Holds V (a :: pending)
  owners : d'.owners V = d.owners V
  zero : d'.block a = fun _ => 0
  block : ∀ b, d.sb.nmeta ≤ b → b ≠ a → d'.block b = d.block b

theorem balloc (holds : d.Holds V pending) (run : d.balloc = .ok (d', a)) :
    (d' = d ∧ a = 0 ∧ d.Full) ∨ Taken d d' V pending a := by
  rcases balloc_spec holds.layout holds.marked_meta run with full | got
  · exact .inl full
  · obtain ⟨low, unslotted, -⟩ := holds.exact.of_free got.lt got.free
    have owners : d'.owners V = d.owners V := by
      apply owners_congr got.same
      intro j live some k
      have ne : (V j).addr ndirect ≠ a := by
        rw [← table live]
        exact unslotted _
      unfold entry
      rw [got.block _ (holds.table_ge live some).1 ne]
    refine .inr ⟨got.same, ⟨?_, ?_⟩, owners, got.zero, got.block⟩
    · rw [got.same.sb]
      exact holds.layout
    · rw [got.same.sb, owners]
      exact holds.exact.alloc got.lt got.free got.bit

end Holds

/-- One slot of inode `i` is filled with a new block, and no data block changes. -/
structure Attached (d : Disk) (V : Nat → Dinode) (d' : Disk) (V' : Nat → Dinode) (i k a : Nat) :
    Prop where
  same : Same d d'
  holds : d'.Holds V' []
  lives : ∀ j, d'.Live V' j ↔ d.Live V j
  owners : d'.owners V' = Function.update (d.owners V) (i, k) a
  fresh : ∀ x, d.owners V x ≠ a
  nonzero : a ≠ 0
  zero : d'.block a = fun _ => 0
  block : ∀ j l, l ≠ ndirect → d.owners V (j, l) ≠ 0 →
    d'.block (d.owners V (j, l)) = d.block (d.owners V (j, l))

/-- The slots after a change of one address. -/
theorem owners_setAddr (live : d.Live V i) (lt : k < ndirect + 1) (empty : (V i).addr k = 0)
    (zero : d.block a = fun _ => 0) :
    d.owners (update V i ((V i).setAddr k a)) = update (d.owners V) (i, k) a := by
  have entries : ∀ l, d.entry a l = 0 := by
    intro l
    unfold entry
    rw [zero]
    rfl
  have lives : ∀ j, d.Live (update V i ((V i).setAddr k a)) j ↔ d.Live V j :=
    fun j => live_update rfl
  funext ⟨j, l⟩
  rcases eq_or_ne j i with rfl | ne
  · by_cases slots : l < nslots
    · rw [owners_live ((lives j).2 live) slots, update_self]
      rcases eq_or_ne l k with rfl | other
      · rw [update_self, slot_addr lt, Dinode.addr_setAddr_self lt]
      · have apart : ((j, l) : Nat × Nat) ≠ (j, k) := fun eq => other (congrArg Prod.snd eq)
        rw [update_of_ne apart, owners_live live slots]
        by_cases direct : l < ndirect + 1
        · rw [slot_addr direct, slot_addr direct, Dinode.addr_setAddr_ne other]
        · unfold slot
          rw [if_neg direct, if_neg direct]
          rcases eq_or_ne ndirect k with rfl | table
          · rw [Dinode.addr_setAddr_self lt, if_pos empty]
            split
            · rfl
            · exact entries _
          · rw [Dinode.addr_setAddr_ne table]
    · have apart : ((j, l) : Nat × Nat) ≠ (j, k) := by
        intro eq
        have eq := congrArg Prod.snd eq
        have slots' : nslots = 269 := rfl
        have direct : ndirect = 12 := rfl
        omega
      rw [update_of_ne apart, Disk.owners, if_neg fun h => slots h.2, Disk.owners,
        if_neg fun h => slots h.2]
  · have apart : ((j, l) : Nat × Nat) ≠ (i, k) := fun eq => ne (congrArg Prod.fst eq)
    rw [update_of_ne apart]
    unfold owners
    simp only [lives j, update_of_ne ne]

/-- A block that `balloc` handed out is stored in an address of the inode. -/
theorem Holds.Taken.attach (got : Holds.Taken d d₁ V [] a) (live : d.Live V i)
    (lt : k < ndirect + 1) (empty : (V i).addr k = 0) :
    Attached d V d₁ (update V i ((V i).setAddr k a)) i k a := by
  have live₁ := got.same.live.2 live
  have owners := owners_setAddr live₁ lt empty got.zero
  have vacant : d₁.owners V (i, k) = 0 := by
    have slots : k < nslots := lt.trans_le (by decide)
    rw [owners_live live₁ slots, slot_addr lt, empty]
  obtain ⟨low, -, fresh⟩ := got.holds.exact.waits a List.mem_cons_self
  refine ⟨got.same, ⟨got.holds.layout, ?_⟩, fun j => ?_, ?_, ?_,
    got.holds.exact.pos_of_waits List.mem_cons_self, got.zero, ?_⟩
  · rw [owners]
    exact got.holds.exact.attach vacant
  · rw [live_update (show ((V i).setAddr k a).type = (V i).type from rfl)]
    exact got.same.live
  · rw [owners, got.owners]
  · rw [← got.owners]
    exact fresh
  · intro j l _ some
    rw [← got.owners] at some ⊢
    refine got.block _ ?_ (fresh _)
    rw [← got.same.sb]
    exact (got.holds.exact.range _ some).1

theorem entry_put {t l : Nat} (bound : a < 256 ^ 4) :
    (d.logAt t (putLE (d.block t) (4 * k) a 4)).entry t l = if l = k then a else d.entry t l := by
  have here : (d.logAt t (putLE (d.block t) (4 * k) a 4)).block t = putLE (d.block t) (4 * k) a 4 :=
    block_store_self
  unfold entry
  rw [here]
  rcases eq_or_ne l k with rfl | ne
  · rw [if_pos rfl, getLE_putLE_of_lt bound]
  · rw [if_neg ne, getLE_putLE_apart (by omega)]

/-- The indirect block is in no other slot. -/
theorem Holds.table_alone (holds : d.Holds V pending) (live : d.Live V i)
    (some : (V i).addr ndirect ≠ 0) (here : d.owners V (j, k) = (V i).addr ndirect) :
    j = i ∧ k = ndirect := by
  rw [← Holds.table live] at here some
  have eq := holds.exact.unique _ _ (here ▸ some) here
  exact ⟨congrArg Prod.fst eq, congrArg Prod.snd eq⟩

/-- The slots after a change of one number in an indirect block. -/
theorem Holds.owners_put (holds : d.Holds V pending) (live : d.Live V i) (lt : k < nindirect)
    (some : (V i).addr ndirect ≠ 0) (bound : a < 256 ^ 4)
    (same : Same d (d.logAt ((V i).addr ndirect)
      (putLE (d.block ((V i).addr ndirect)) (4 * k) a 4))) :
    (d.logAt ((V i).addr ndirect) (putLE (d.block ((V i).addr ndirect)) (4 * k) a 4)).owners V =
      update (d.owners V) (i, ndirect + 1 + k) a := by
  funext ⟨j, l⟩
  by_cases inside : d.Live V j ∧ l < nslots
  · rw [owners_live (same.live.2 inside.1) inside.2]
    have before : d.owners V (j, l) = d.slot (V j) l := owners_live inside.1 inside.2
    rcases eq_or_ne j i with rfl | ne
    · by_cases direct : l < ndirect + 1
      · have apart : ((j, l) : Nat × Nat) ≠ (j, ndirect + 1 + k) := by
          intro eq
          have eq : l = ndirect + 1 + k := congrArg Prod.snd eq
          omega
        rw [update_of_ne apart, before, slot_addr direct, slot_addr direct]
      · unfold slot at before ⊢
        rw [if_neg direct, if_neg some, entry_put bound]
        rw [if_neg direct, if_neg some] at before
        rcases eq_or_ne l (ndirect + 1 + k) with rfl | other
        · rw [if_pos (by omega), update_self]
        · have apart : ((j, l) : Nat × Nat) ≠ (j, ndirect + 1 + k) :=
            fun eq => other (congrArg Prod.snd eq)
          rw [if_neg (by omega), update_of_ne apart, before]
    · have apart : ((j, l) : Nat × Nat) ≠ (i, ndirect + 1 + k) :=
        fun eq => ne (congrArg Prod.fst eq)
      rw [update_of_ne apart, before]
      unfold slot
      by_cases none : (V j).addr ndirect = 0
      · rw [if_pos none, if_pos none]
      · have other : (V j).addr ndirect ≠ (V i).addr ndirect := by
          intro eq
          rw [← Holds.table inside.1] at eq
          exact ne (holds.table_alone live some eq).1
        rw [if_neg none, if_neg none]
        congr 1
        exact entry_store other
  · have apart : ((j, l) : Nat × Nat) ≠ (i, ndirect + 1 + k) := by
      intro eq
      apply inside
      rw [show j = i from congrArg Prod.fst eq, show l = ndirect + 1 + k from congrArg Prod.snd eq]
      exact ⟨live, by unfold nslots; omega⟩
    rw [update_of_ne apart, Disk.owners, if_neg fun h => inside ⟨same.live.1 h.1, h.2⟩,
      Disk.owners, if_neg inside]

/-- A block that `balloc` handed out is stored in the indirect block of the inode. -/
theorem Holds.Taken.attachEntry (got : Holds.Taken d d₁ V [] a) (live : d.Live V i)
    (lt : k < nindirect) (some : (V i).addr ndirect ≠ 0)
    (empty : d.entry ((V i).addr ndirect) k = 0) : Attached d V (d₁.logAt ((V i).addr ndirect)
      (putLE (d₁.block ((V i).addr ndirect)) (4 * k) a 4)) V i (ndirect + 1 + k) a := by
  have live₁ := got.same.live.2 live
  have layout := got.holds.layout
  obtain ⟨low, high, fresh⟩ := got.holds.exact.waits a List.mem_cons_self
  obtain ⟨tableLow, -⟩ := got.holds.table_ge live₁ some
  have tableNe : a ≠ (V i).addr ndirect := by
    rw [← Holds.table live₁]
    exact (fresh _).symm
  have bound : a < 256 ^ 4 := high.trans_le (layout.size.trans (by decide))
  have same : Same d₁ (d₁.logAt ((V i).addr ndirect)
      (putLE (d₁.block ((V i).addr ndirect)) (4 * k) a 4)) :=
    .logAt layout (layout.bmapstart_lt.le.trans tableLow)
  have owners := got.holds.owners_put live₁ lt some bound same
  have vacant : d₁.owners V (i, ndirect + 1 + k) = 0 := by
    rw [got.owners, owners_live live (by unfold nslots; omega)]
    unfold slot
    rw [if_neg (by omega), if_neg some, show ndirect + 1 + k - (ndirect + 1) = k by omega, empty]
  refine ⟨got.same.trans same, ⟨layout, ?_⟩, fun j => same.live.trans got.same.live,
    by rw [owners, got.owners], ?_, got.holds.exact.pos_of_waits List.mem_cons_self, ?_, ?_⟩
  · rw [owners]
    exact (got.holds.exact.attach vacant).congr
      (fun c inside => bit_store_data layout tableLow inside)
      fun _ => rfl
  · rw [← got.owners]
    exact fresh
  · exact (block_store_ne tableNe).trans got.zero
  · intro j l data filled
    rw [← got.owners] at filled ⊢
    have other : d₁.owners V (j, l) ≠ (V i).addr ndirect :=
      fun here => data (got.holds.table_alone live₁ some here).2
    refine (block_store_ne other).trans (got.block _ ?_ (fresh _))
    rw [← got.same.sb]
    exact (got.holds.exact.range _ filled).1

/-- A new block shows as zeros, and no other byte of a file changes. -/
theorem Attached.byte (attached : Attached d V d' V' i k a) (live : d.Live V j) : d'.byte (V' j) x =
      if j = i ∧ index (x / bsize) = k ∧ x / bsize < maxfile then some 0 else d.byte (V j) x := by
  rw [byte_eq ((attached.lives j).2 live), byte_eq live, attached.owners]
  by_cases here : j = i ∧ index (x / bsize) = k
  · obtain ⟨rfl, rfl⟩ := here
    rw [update_self]
    by_cases lt : x / bsize < maxfile
    · rw [if_pos ⟨lt, attached.nonzero⟩, if_pos ⟨rfl, rfl, lt⟩, attached.zero]
    · rw [if_neg fun h => lt h.1, if_neg fun h => lt h.2.2, if_neg fun h => lt h.1]
  · have apart : ((j, index (x / bsize)) : Nat × Nat) ≠ (i, k) :=
      fun eq => here ⟨congrArg Prod.fst eq, congrArg Prod.snd eq⟩
    have outside : ¬ (j = i ∧ index (x / bsize) = k ∧ x / bsize < maxfile) :=
      fun h => here ⟨h.1, h.2.1⟩
    rw [update_of_ne apart, if_neg outside]
    by_cases inside : x / bsize < maxfile ∧ d.owners V (j, index (x / bsize)) ≠ 0
    · rw [if_pos inside, if_pos inside, attached.block j _ (index_ne _) inside.2]
    · rw [if_neg inside, if_neg inside]

/-- The cases of `loadAddr`. -/
theorem Holds.loadAddr (holds : d.Holds V []) (live : d.Live V i) (lt : k < ndirect + 1)
    (run : d.loadAddr (V i) k = .ok (d', ip, a)) :
    (d' = d ∧ ip = V i ∧ a = (V i).addr k ∧ (a = 0 → d.Full)) ∨
      ((V i).addr k = 0 ∧ ip = (V i).setAddr k a ∧ Attached d V d' (update V i ip) i k a) := by
  unfold Disk.loadAddr at run
  by_cases empty : (V i).addr k = 0
  · rw [if_pos empty] at run
    obtain ⟨⟨d₁, a₁⟩, alloc, run⟩ := of_bind_ok run
    rcases holds.balloc alloc with ⟨rfl, rfl, full⟩ | got
    · cases run
      exact .inl ⟨rfl, rfl, empty.symm, fun _ => full⟩
    · have attached := got.attach live lt empty
      simp only [if_neg attached.nonzero] at run
      cases run
      exact .inr ⟨empty, rfl, attached⟩
  · rw [if_neg empty] at run
    cases run
    exact .inl ⟨rfl, rfl, rfl, fun zero => absurd zero empty⟩

/-- What `bmap` does to the disk and to the inode: nothing if there is a block, and otherwise it
adds a block of zeros or finds the disk full. -/
structure Mapped (d : Disk) (V : Nat → Dinode) (d' : Disk) (ip : Dinode) (i bn a : Nat) : Prop where
  same : Same d d'
  holds : d'.Holds (Function.update V i ip) []
  fields : ip.Alike (V i)
  ptr : d'.ptr ip bn = a
  kept : d.ptr (V i) bn ≠ 0 → d' = d ∧ ip = V i
  full : a = 0 → d'.Full
  byte : ∀ j, d.Live V j → ∀ x, d'.byte (Function.update V i ip j) x =
    if j = i ∧ x / bsize = bn ∧ d.ptr (V i) bn = 0 ∧ a ≠ 0 then some 0 else d.byte (V j) x

/-- There is a block, or the disk is full. -/
theorem Mapped.of_same (i bn : Nat) (holds : d.Holds V []) (full : d.ptr (V i) bn = 0 → d.Full) :
    Mapped d V d (V i) i bn (d.ptr (V i) bn) where
  same := .refl d
  holds := by rw [update_eq_self]; exact holds
  fields := .refl _
  ptr := rfl
  kept := fun _ => ⟨rfl, rfl⟩
  full := full
  byte := by
    intro j _ x
    rw [update_eq_self, if_neg fun h => h.2.2.2 h.2.2.1]

/-- The block is new. -/
theorem Mapped.of_attached {ip : Dinode} (attached : Attached d V d' (update V i ip) i (index bn) a)
    (live : d.Live V i) (lt : bn < maxfile) (none : d.ptr (V i) bn = 0) (fields : ip.Alike (V i)) :
    Mapped d V d' ip i bn a where
  same := attached.same
  holds := attached.holds
  fields := fields
  ptr := by
    have here := ptr_eq_owners ((attached.lives i).2 live) lt
    rw [update_self, attached.owners, update_self] at here
    exact here
  kept := fun some => absurd none some
  full := fun zero => absurd zero attached.nonzero
  byte := by
    intro j liveJ x
    rw [attached.byte liveJ]
    by_cases here : j = i ∧ x / bsize = bn
    · obtain ⟨rfl, rfl⟩ := here
      rw [if_pos ⟨rfl, rfl, lt⟩, if_pos ⟨rfl, rfl, none, attached.nonzero⟩]
    · rw [if_neg fun h => here ⟨h.1, index_inj h.2.1⟩, if_neg fun h => here ⟨h.1, h.2.1⟩]

/-- The indirect block is new; the rest is done with it in place. -/
theorem Mapped.after {ip₁ ip : Dinode} (attached : Attached d V d₁ (update V i ip₁) i ndirect b)
    (none : d.ptr (V i) bn = 0) (none₁ : d₁.ptr ip₁ bn = 0) (fields : ip₁.Alike (V i))
    (mapped : Mapped d₁ (update V i ip₁) d' ip i bn a) : Mapped d V d' ip i bn a := by
  have here : update V i ip₁ i = ip₁ := update_self _ _ _
  refine ⟨attached.same.trans mapped.same, ?_, ?_, mapped.ptr, fun some => absurd none some,
    mapped.full, ?_⟩
  · have holds := mapped.holds
    rw [update_idem] at holds
    exact holds
  · have later := mapped.fields
    rw [here] at later
    exact later.trans fields
  · intro j liveJ x
    have later := mapped.byte j ((attached.lives j).2 liveJ) x
    rw [update_idem, here, attached.byte liveJ,
      if_neg fun h : j = i ∧ index (x / bsize) = ndirect ∧ x / bsize < maxfile =>
        index_ne _ h.2.1] at later
    rw [later]
    simp only [none, none₁]

theorem ptr_indirect (d : Disk) (ip : Dinode) (lt : bn < maxfile) (indirect : ¬ bn < ndirect) :
    d.ptr ip bn =
    if ip.addr ndirect = 0 then 0 else d.entry (ip.addr ndirect) (bn - ndirect) := by
  have slots : index bn = bn + 1 := if_neg indirect
  rw [ptr, if_pos lt, slots, slot, if_neg (by omega),
    show bn + 1 - (ndirect + 1) = bn - ndirect by omega]

section

variable (holds : d.Holds V []) (live : d.Live V i) (lt : bn < maxfile)

include holds live lt

/-- The number in the indirect block, once there is one. -/
theorem Holds.loadEntry (indirect : ¬ bn < ndirect) (some : (V i).addr ndirect ≠ 0)
    (run : d.loadEntry ((V i).addr ndirect) (bn - ndirect) = .ok (d', a)) :
    Mapped d V d' (V i) i bn a := by
  have ptr := ptr_indirect d (V i) lt indirect
  rw [if_neg some] at ptr
  unfold Disk.loadEntry at run
  by_cases empty : d.entry ((V i).addr ndirect) (bn - ndirect) = 0
  · rw [if_pos empty] at run
    obtain ⟨⟨d₁, a₁⟩, alloc, run⟩ := of_bind_ok run
    rcases holds.balloc alloc with ⟨rfl, rfl, full⟩ | got
    · cases run
      have mapped := Mapped.of_same i bn holds fun _ => full
      rw [ptr, empty] at mapped
      exact mapped
    · have inside : bn - ndirect < nindirect := by
        unfold maxfile at lt
        omega
      have attached := got.attachEntry live inside some empty
      have slots : index bn = ndirect + 1 + (bn - ndirect) := by
        rw [index, if_neg indirect]
        omega
      rw [← slots] at attached
      simp only [if_neg attached.nonzero] at run
      obtain ⟨d₂, write, last⟩ := of_bind_ok run
      cases last
      obtain rfl := of_logWrite write
      refine .of_attached ?_ live lt (ptr.trans empty) rfl
      rw [update_eq_self]
      exact attached
  · rw [if_neg empty] at run
    cases run
    rw [← ptr] at empty ⊢
    exact .of_same i bn holds fun none => absurd none empty

/-- What `bmap` of an index below the maximum returns, zero only if the disk is full. -/
theorem bmap_spec (run : d.bmap (V i) bn = .ok (d', ip, a)) : Mapped d V d' ip i bn a := by
  unfold bmap at run
  by_cases direct : bn < ndirect
  · have slots : index bn = bn := if_pos direct
    have ptr : d.ptr (V i) bn = (V i).addr bn := by
      rw [Disk.ptr, if_pos lt, slots, slot_addr (by omega)]
    rw [if_pos direct] at run
    rcases holds.loadAddr live (show bn < ndirect + 1 by omega) run with
      ⟨rfl, rfl, rfl, full⟩ | ⟨none, rfl, attached⟩
    · rw [← ptr] at full ⊢
      exact .of_same i bn holds full
    · exact .of_attached (by rw [slots]; exact attached) live lt (ptr.trans none) rfl
  · have inside : bn - ndirect < nindirect := by
      unfold maxfile at lt
      omega
    rw [if_neg direct, if_pos inside] at run
    obtain ⟨⟨d₁, ip₁, table⟩, first, run⟩ := of_bind_ok run
    rcases holds.loadAddr live (show ndirect < ndirect + 1 by omega) first with
      ⟨rfl, rfl, rfl, full⟩ | ⟨none, rfl, attached⟩
    · by_cases none : (V i).addr ndirect = 0
      · simp only [if_pos none] at run
        cases run
        have mapped := Mapped.of_same i bn holds fun _ => full none
        rw [ptr_indirect _ _ lt direct, if_pos none] at mapped
        exact mapped
      · simp only [if_neg none] at run
        obtain ⟨⟨d₂, a₂⟩, more, last⟩ := of_bind_ok run
        cases last
        exact holds.loadEntry live lt direct none more
    · have here : (update V i ((V i).setAddr ndirect table) i) =
          (V i).setAddr ndirect table := update_self _ _ _
      have there : ((V i).setAddr ndirect table).addr ndirect = table :=
        Dinode.addr_setAddr_self (by omega)
      have some : (update V i ((V i).setAddr ndirect table) i).addr ndirect ≠ 0 := by
        rw [here, there]
        exact attached.nonzero
      simp only [if_neg attached.nonzero] at run
      obtain ⟨⟨d₂, a₂⟩, more, last⟩ := of_bind_ok run
      cases last
      have mapped := attached.holds.loadEntry ((attached.lives i).2 live) lt direct some
        (by rw [here, there]; exact more)
      rw [here] at mapped
      refine Mapped.after attached ?_ ?_ rfl mapped
      · rw [ptr_indirect _ _ lt direct, if_pos none]
      · rw [ptr_indirect _ _ lt direct, there, if_neg attached.nonzero, entry, attached.zero]
        rfl

end

end Disk

end Xv6.Inodes
