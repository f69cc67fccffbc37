import Xv6.CopyIn
import Xv6.Inodes.Bmap

/-!
# Reading and writing a file

`readi` and `writei` cut a range of a file at the boundaries of blocks.  A copy from user memory can
fail inside a chunk; what it has stored by then stays in the cached block.

`readi` over a range without holes leaves the disk alone and copies out the bytes of the range.
-/

namespace Xv6.Inodes

open Fallible List Nat

/-! ## The source and the destination of a copy -/

/-- Where `either_copyin` copies from: an address of the kernel or of the user. -/
inductive Source
  | kernel (mem : Mem) (src : Nat)
  | user (k : Kmem) (pt : PageTable) (src : Nat)

/-- The byte at distance `x` from the start of the source, if it can be read. -/
def Source.byte : Source → Nat → Option UInt8
  | .kernel mem src, x => some (mem (src + x))
  | .user k pt src, x => userByte k pt ((src + x) % 2 ^ 64)

/-- The first bytes of the source. -/
def Source.take (src : Source) (n : Nat) : List UInt8 :=
  (List.range n).map fun x => (src.byte x).getD 0

/-- `either_copyin(dst, user_src, src + tot, m)`: the bytes that are stored, and what it returns. -/
def eitherCopyin : Source → Nat → Nat → Except String (List UInt8 × Int)
  | .kernel mem src, tot, m => .ok (memget mem (src + tot) m, 0)
  | .user k pt src, tot, m => copyin k pt ((src + tot) % 2 ^ 64) m

/-- `either_copyout` to a destination with states `δ`: the state, the distance from the start of
the destination and the bytes to store there. -/
abbrev Copyout (δ : Type) : Type := δ → Nat → List UInt8 → Except String (δ × Int)

/-- `either_copyout(0, ..)` to a buffer of the kernel, filled from its start. -/
def toKernel : Copyout (List UInt8) := fun x _ bytes => .ok (x ++ bytes, 0)

/-- What a copy has stored: the bytes of the source, all of them or up to the first that cannot be
read. -/
structure Copied (src : Source) (tot m : Nat) (bytes : List UInt8) (r : Int) : Prop where
  stored : ∀ x < bytes.length, src.byte (tot + x) = some (bytes.getD x 0)
  result : (r = 0 ∧ bytes.length = m) ∨
    (r = -1 ∧ bytes.length < m ∧ src.byte (tot + bytes.length) = none)

/-- A copy returns, and has stored the bytes that can be read. -/
theorem eitherCopyin_spec (src : Source) (tot m : Nat) :
    ∃ bytes r, eitherCopyin src tot m = .ok (bytes, r) ∧ Copied src tot m bytes r := by
  cases src with
  | kernel mem src =>
    refine ⟨_, 0, rfl, fun x lt => ?_, .inl ⟨rfl, memget_length _ _ _⟩⟩
    rw [memget_length] at lt
    rw [memget_getD _ _ _ lt, Source.byte, add_assoc]
  | user k pt src =>
    obtain ⟨bytes, r, run, stored, result⟩ :=
      copyinLoop_spec k pt ((src + tot) % 2 ^ 64) (le_refl m)
    -- the addresses do not wrap around: the ones that can be read are below `MAXVA`
    have below : ∀ x ≤ bytes.length, (src + tot) % 2 ^ 64 + x = (src + (tot + x)) % 2 ^ 64 := by
      intro x le
      have lt : (src + tot) % 2 ^ 64 + x < 2 ^ 64 := by
        cases x with
        | zero => exact mod_lt _ (by decide)
        | succ x =>
          have readable := stored x le
          have low : (src + tot) % 2 ^ 64 + x < maxva := by
            by_contra large
            rw [userByte_none (Nat.le_of_not_lt large)] at readable
            cases readable
          exact (succ_le_of_lt low).trans_lt (by decide)
      rw [← add_assoc, ← mod_add_mod (src + tot) (2 ^ 64) x, mod_eq_of_lt lt]
    refine ⟨bytes, r, run, fun x lt => ?_, ?_⟩
    · rw [Source.byte, ← below x lt.le]
      exact stored x lt
    · rw [Source.byte, ← below _ le_rfl]
      exact result

namespace Disk

/-! ## The functions -/

/-- The loop of `readi`; a round copies at least one byte. -/
def readiLoop {δ : Type} (copyout : Copyout δ) (n : Nat) :
    Nat → Disk → Dinode → δ → Nat → Nat → Except String (Disk × Dinode × δ × Int)
  | 0, d, ip, x, _, tot => .ok (d, ip, x, tot)
  | fuel + 1, d, ip, x, off, tot =>
    if n ≤ tot then .ok (d, ip, x, tot)
    else do
      let (d, ip, addr) ← d.bmap ip (off / bsize)
      if addr = 0 then .ok (d, ip, x, tot)
      else do
        let m := min (n - tot) (bsize - off % bsize)
        let (x, r) ← copyout x tot (memget (d.block addr) (off % bsize) m)
        if r = -1 then .ok (d, ip, x, -1)
        else readiLoop copyout n fuel d ip x (off + m) (tot + m)

/-- `readi(ip, user_dst, dst, off, n)`. -/
def readi {δ : Type} (d : Disk) (ip : Dinode) (copyout : Copyout δ) (x : δ) (off n : Nat) :
    Except String (Disk × Dinode × δ × Int) :=
  if ip.size < off ∨ (off + n) % 2 ^ 32 < off then .ok (d, ip, x, 0)
  else
    let n := if ip.size < (off + n) % 2 ^ 32 then ip.size - off else n
    readiLoop copyout n n d ip x off 0

/-- The loop of `writei`.  A copy that fails has changed the cached block, which is not logged. -/
def writeiLoop (src : Source) (n : Nat) :
    Nat → Disk → Dinode → Nat → Nat → Except String (Disk × Dinode × Nat × Nat)
  | 0, d, ip, off, tot => .ok (d, ip, off, tot)
  | fuel + 1, d, ip, off, tot =>
    if n ≤ tot then .ok (d, ip, off, tot)
    else do
      let (d, ip, addr) ← d.bmap ip (off / bsize)
      if addr = 0 then .ok (d, ip, off, tot)
      else do
        let m := min (n - tot) (bsize - off % bsize)
        let (bytes, r) ← eitherCopyin src tot m
        let data := memput (d.block addr) (off % bsize) bytes
        if r = -1 then .ok (d.store addr data, ip, off, tot)
        else do
          let d ← d.logWrite addr data
          writeiLoop src n fuel d ip (off + m) (tot + m)

/-- `writei(ip, user_src, src, off, n)` for the inode with number `i`. -/
def writei (d : Disk) (i : Nat) (ip : Dinode) (src : Source) (off n : Nat) :
    Except String (Disk × Dinode × Int) :=
  if ip.size < off ∨ (off + n) % 2 ^ 32 < off then .ok (d, ip, -1)
  else if maxfile * bsize < (off + n) % 2 ^ 32 then .ok (d, ip, -1)
  else do
    let (d, ip, off, tot) ← writeiLoop src n n d ip off 0
    let ip := if ip.size < off then { ip with size := off } else ip
    let d ← d.iupdate i ip
    .ok (d, ip, tot)

/-! ## Files without holes -/

variable {d : Disk} {bn i off n tot x : Nat} {ip : Dinode}

/-- There is a block for every index below the size. -/
def HoleFree (d : Disk) (ip : Dinode) : Prop := ∀ bn, bn * bsize < ip.size → d.ptr ip bn ≠ 0

/-- The bytes of a file. -/
def bytes (d : Disk) (ip : Dinode) : List UInt8 :=
  (List.range ip.size).map fun x => (d.byte ip x).getD 0

/-- The contents of the file with number `i`. -/
def contents (d : Disk) (i : Nat) : List UInt8 := d.bytes (d.dinode i)

theorem isSome_byte : (d.byte ip x).isSome ↔ d.ptr ip (x / bsize) ≠ 0 := by
  unfold byte
  split
  · simp_all
  · simp_all

theorem holeFree_iff : d.HoleFree ip ↔ ∀ x < ip.size, (d.byte ip x).isSome := by
  have positive : 0 < bsize := by decide
  constructor
  · intro holeFree x lt
    exact isSome_byte.2 (holeFree _ ((div_mul_le_self x bsize).trans_lt lt))
  · intro all bn lt
    have some := isSome_byte.1 (all _ lt)
    rw [Nat.mul_div_cancel _ positive] at some
    exact some

/-- `bmap` of a block that is there. -/
theorem bmap_of_ptr (some : d.ptr ip bn ≠ 0) : d.bmap ip bn = .ok (d, ip, d.ptr ip bn) := by
  have lt : bn < maxfile := by
    by_contra out
    exact some (if_neg out)
  unfold bmap
  by_cases direct : bn < ndirect
  · have ptr : d.ptr ip bn = ip.addr bn := by
      rw [Disk.ptr, if_pos lt, index, if_pos direct, slot_addr (by omega)]
    rw [ptr] at some ⊢
    rw [if_pos direct, loadAddr, if_neg some]
  · have inside : bn - ndirect < nindirect := by
      unfold maxfile at lt
      omega
    have ptr := ptr_indirect d ip lt direct
    by_cases table : ip.addr ndirect = 0
    · rw [if_pos table] at ptr
      exact absurd ptr some
    · rw [if_neg table] at ptr
      rw [ptr] at some ⊢
      rw [if_neg direct, if_pos inside, loadAddr, if_neg table]
      simp only [bind, Except.bind, if_neg table, loadEntry, if_neg some]

/-! ## Reading -/

/-- The chunks are copied out one after the other, up to the first copy that fails. -/
def deliver {δ : Type} (copyout : Copyout δ) : δ → Nat → List (List UInt8) → Except String (δ × Int)
  | x, tot, [] => .ok (x, tot)
  | x, tot, chunk :: chunks => do
      let (x, r) ← copyout x tot chunk
      if r = -1 then .ok (x, -1) else deliver copyout x (tot + chunk.length) chunks

/-- The bytes of a file in a range. -/
def range (d : Disk) (ip : Dinode) (off n : Nat) : List UInt8 :=
  (List.range n).map fun y => (d.byte ip (off + y)).getD 0

theorem range_add (d : Disk) (ip : Dinode) (off m n : Nat) :
    d.range ip off (m + n) = d.range ip off m ++ d.range ip (off + m) n := by
  unfold range
  rw [List.range_add, List.map_append, List.map_map]
  simp only [Function.comp_def, add_assoc]

/-- The part of a block that a round copies. -/
theorem memget_block (some : d.ptr ip (off / bsize) ≠ 0) {m : Nat}
    (inside : m ≤ bsize - off % bsize) :
    memget (d.block (d.ptr ip (off / bsize))) (off % bsize) m = d.range ip off m := by
  unfold memget range
  apply List.map_congr_left
  intro y mem
  have lt := List.mem_range.1 mem
  have size : bsize = 1024 := rfl
  have block : (off + y) / bsize = off / bsize := by
    rw [size] at inside ⊢
    omega
  have offset : (off + y) % bsize = off % bsize + y := by
    rw [size] at inside ⊢
    omega
  rw [byte, block, if_neg some, offset, Option.getD_some]

/-- `readi` over a range without holes does not change the disk, and copies out the range. -/
theorem readiLoop_spec {fuel : Nat} (enough : n - tot ≤ fuel)
    (there : ∀ x, off ≤ x → x < off + (n - tot) → d.ptr ip (x / bsize) ≠ 0) :
    ∃ chunks, chunks.flatten = d.range ip off (n - tot) ∧
      ∀ (δ : Type) (copyout : Copyout δ) (x : δ), readiLoop copyout n fuel d ip x off tot =
        (deliver copyout x tot chunks).map fun result => (d, ip, result) := by
  induction fuel generalizing off tot with
  | zero =>
    rw [show n - tot = 0 by omega]
    exact ⟨[], rfl, fun δ copyout x => rfl⟩
  | succ fuel ih =>
    unfold readiLoop
    by_cases done : n ≤ tot
    · rw [show n - tot = 0 by omega]
      refine ⟨[], rfl, fun δ copyout x => ?_⟩
      rw [if_pos done]
      rfl
    · have some := there off le_rfl (by omega)
      generalize len : min (n - tot) (bsize - off % bsize) = m
      have positive : 0 < m := by
        have := mod_lt off (show 0 < bsize by decide)
        omega
      obtain ⟨chunks, rest, run⟩ := @ih (off + m) (tot + m) (by omega)
        (fun x low high => there x (by omega) (by omega))
      refine ⟨d.range ip off m :: chunks, ?_, fun δ copyout x => ?_⟩
      · rw [List.flatten_cons, rest, ← range_add, show m + (n - (tot + m)) = n - tot by omega]
      · have long : (d.range ip off m).length = m := by
          rw [range, List.length_map, List.length_range]
        simp only [if_neg done, bmap_of_ptr some, bind, Except.bind, if_neg some]
        rw [memget_block some (by omega), deliver, long]
        simp only [bind, Except.bind]
        cases copyout x tot (d.range ip off m) with
        | error why => rfl
        | ok result =>
          obtain ⟨x, r⟩ := result
          simp only
          by_cases failed : r = -1
          · rw [if_pos failed, if_pos failed]
            rfl
          · rw [if_neg failed, if_neg failed, run]

end Disk

end Xv6.Inodes
