import Xv6.PageTable
import Xv6.Lib.Bytes

/-!
# Page tables in physical memory

The functions of `vm.c` on page tables once more, this time on the words of memory that the
hardware reads: a page table is the address of a page, an entry is eight bytes of it, and the
next level is reached through the address in an entry.  The trees of `Xv6.PageTable` are what
these words are shown to represent.
-/

namespace Xv6.Radix

open Bytes

/-! ## Words in memory -/

/-- `*pte`. -/
def readPte (mem : Mem) (a : Nat) : Pte := BitVec.ofNat 64 (getLE mem a 8)

/-- `*pte = e`. -/
def writePte (mem : Mem) (a : Nat) (e : Pte) : Mem := putLE mem a e.toNat 8

/-- `&pagetable[i]`. -/
def slotAt (pagetable : Nat) (i : Fin 512) : Nat := pagetable + 8 * i.val

/-! ## The functions -/

/-- One level of `walk`: follow a valid entry, or allocate a table for it. -/
def nextTable (k : Kmem) (pte : Nat) (alloc : Bool) : Kmem × Option Nat :=
  let e := readPte k.mem pte
  if e.has pteV then (k, some (pte2pa e))
  else if !alloc then (k, none)
  else
    match kalloc k with
    | (k, none) => (k, none)
    | (k, some pa) =>
      let mem := memset k.mem pa 0 pgsize
      ({ k with mem := writePte mem pte (pa2pte pa ||| pteV) }, some pa)

/-- The loop of `walk`, from `level` down. -/
def walkLoop (va : Nat) (alloc : Bool) : Nat → Kmem → Nat → Kmem × Option Nat
  | 0, k, pagetable => (k, some (slotAt pagetable (px 0 va)))
  | level + 1, k, pagetable =>
    match nextTable k (slotAt pagetable (px (level + 1) va)) alloc with
    | (k, none) => (k, none)
    | (k, some next) => walkLoop va alloc level k next

/-- `walk`; the result is the address of an entry, or null. -/
def walk (k : Kmem) (pagetable va : Nat) (alloc : Bool) : Except String (Kmem × Option Nat) :=
  if maxva ≤ va then .error "walk" else .ok (walkLoop va alloc 2 k pagetable)

/-- `uvmcreate`. -/
def uvmcreate (k : Kmem) : Kmem × Option Nat :=
  match kalloc k with
  | (k, none) => (k, none)
  | (k, some pa) => ({ k with mem := memset k.mem pa 0 pgsize }, some pa)

/-- The loop of `mappages`, with `n` pages to go after the one at `a`. -/
def mapLoop (pagetable : Nat) (perm : Pte) :
    Nat → Kmem → Nat → Nat → Except String (Kmem × Int)
  | n, k, a, pa => do
      match ← walk k pagetable a true with
      | (k, none) => .ok (k, -1)
      | (k, some pte) =>
        if (readPte k.mem pte).has pteV then .error "mappages: remap"
        else
          let k := { k with mem := writePte k.mem pte (pa2pte pa ||| perm ||| pteV) }
          match n with
          | 0 => .ok (k, 0)
          | n + 1 => mapLoop pagetable perm n k (a + pgsize) (pa + pgsize)

/-- `mappages`. -/
def mappages (k : Kmem) (pagetable va size pa : Nat) (perm : Pte) : Except String (Kmem × Int) :=
  if size = 0 then .error "mappages: size" else
  let a := pgrounddown va
  let last := pgrounddown ((va + size - 1) % 2 ^ 64)
  mapLoop pagetable perm ((last + 2 ^ 64 - a) % 2 ^ 64 / pgsize) k a pa

/-- The loop of `uvmunmap`, over `n` pages from `a` on. -/
def unmapLoop (pagetable : Nat) (doFree : Bool) : Nat → Kmem → Nat → Except String Kmem
  | 0, k, _ => .ok k
  | n + 1, k, a => do
      match ← walk k pagetable a false with
      | (_, none) => .error "uvmunmap: walk"
      | (k, some pte) =>
        let e := readPte k.mem pte
        if !e.has pteV then .error "uvmunmap: not mapped"
        else if pteFlags e = pteV then .error "uvmunmap: not a leaf"
        else do
          let k ← kfreeIf doFree k (pte2pa e)
          unmapLoop pagetable doFree n { k with mem := writePte k.mem pte 0 } (a + pgsize)

/-- The rounds of `uvmunmap` from an aligned `va` on; the end of its loop is a `uint64`. -/
def unmapRounds (va npages : Nat) : Nat := ((va + npages * pgsize) % 2 ^ 64 - va) / pgsize

/-- `uvmunmap`. -/
def uvmunmap (k : Kmem) (pagetable va npages : Nat) (doFree : Bool) : Except String Kmem :=
  if va % pgsize ≠ 0 then .error "uvmunmap: not aligned"
  else unmapLoop pagetable doFree (unmapRounds va npages) k va

/-- One round of the loop of `freewalk`, with `free` for the call on a lower table. -/
def freeEntry (free : Kmem → Nat → Except String Kmem) (k : Kmem) (pte : Nat) :
    Except String Kmem :=
  let e := readPte k.mem pte
  if e.has pteV && !e.has (pteR ||| pteW ||| pteX) then do
    let k ← free k (pte2pa e)
    .ok { k with mem := writePte k.mem pte 0 }
  else if e.has pteV then .error "freewalk: leaf"
  else .ok k

/-- `freewalk`, to a depth of `fuel` tables. -/
def freewalk : Nat → Kmem → Nat → Except String Kmem
  | 0, _, _ => .error "out of fuel"
  | fuel + 1, k, pagetable => do
      let k ← (List.finRange 512).foldlM
        (fun k i => freeEntry (freewalk fuel) k (slotAt pagetable i)) k
      kfree k pagetable

/-! ## What can be observed -/

/-- An entry counts if it is valid. -/
def valid (e : Pte) : Option Pte := if e.has pteV then some e else none

/-- The entry that `walk(pagetable, va, 0)` finds for page `v`, if it is valid. -/
def entry (k : Kmem) (pagetable v : Nat) : Option Pte :=
  match walk k pagetable (v * pgsize) false with
  | .ok (k, some pte) => valid (readPte k.mem pte)
  | _ => none

/-- The physical pages mapped by the `n` pages from `v` on. -/
def frames (k : Kmem) (pagetable v n : Nat) : List Nat :=
  (List.range' v n).filterMap fun w => (entry k pagetable w).map pte2pa

/-- The pages of a table with `level` levels below it. -/
def tables (mem : Mem) : Nat → Nat → Multiset Nat
  | 0, pagetable => {pagetable}
  | level + 1, pagetable => {pagetable} + ∑ i : Fin 512,
      if (readPte mem (slotAt pagetable i)).has pteV then
        tables mem level (pte2pa (readPte mem (slotAt pagetable i)))
      else 0

/-! ## Reading after writing -/

variable {mem mem' : Mem} {a p q : Nat} {i j : Fin 512} {e : Pte}

@[simp] theorem readPte_writePte (mem : Mem) (a : Nat) (e : Pte) :
    readPte (writePte mem a e) a = e := by
  unfold readPte writePte
  rw [getLE_putLE_of_lt (show e.toNat < 256 ^ 8 from e.isLt), BitVec.ofNat_toNat,
    BitVec.setWidth_eq]

theorem slotAt_lt (i : Fin 512) : 8 * i.val + 8 ≤ pgsize := by
  have := i.isLt
  simp only [pgsize]
  omega

section

variable (alignedP : p % pgsize = 0) (alignedQ : q % pgsize = 0)
include alignedP alignedQ

/-- The entries of aligned pages do not overlap. -/
theorem slotAt_apart (other : p ≠ q ∨ i ≠ j) :
    slotAt p i + 8 ≤ slotAt q j ∨ slotAt q j + 8 ≤ slotAt p i := by
  have boundI := i.isLt
  have boundJ := j.isLt
  have apart : p ≠ q ∨ i.val ≠ j.val := other.imp_right fun ne same => ne (Fin.ext same)
  simp only [slotAt, pgsize] at *
  omega

theorem readPte_writePte_other (other : p ≠ q ∨ i ≠ j) :
    readPte (writePte mem (slotAt p i) e) (slotAt q j) = readPte mem (slotAt q j) := by
  unfold readPte writePte
  rw [getLE_putLE_apart ((slotAt_apart alignedP alignedQ other).symm)]

/-- Writing an entry touches its own page only. -/
theorem samePage_writePte (other : q ≠ p)
    (mem : Mem) (i : Fin 512) (e : Pte) : SamePage mem (writePte mem (slotAt p i) e) q := by
  intro o lt
  have bound := i.isLt
  refine putLE_outside ?_
  simp only [slotAt, pgsize] at *
  omega

end

theorem readPte_samePage (same : SamePage mem mem' p) (i : Fin 512) :
    readPte mem' (slotAt p i) = readPte mem (slotAt p i) := by
  unfold readPte
  have bound := slotAt_lt i
  congr 1
  refine getLE_congr fun b low high => ?_
  unfold slotAt at low high
  have at' := same (b - p) (by omega)
  rwa [Nat.add_sub_cancel' (by omega)] at at'

theorem getLE_zero {n : Nat} (zero : ∀ b, a ≤ b → b < a + n → mem b = 0) : getLE mem a n = 0 := by
  induction n generalizing a with
  | zero => rfl
  | succ n ih =>
    rw [getLE, zero a le_rfl (by omega), ih fun b low high => zero b (by omega) (by omega)]
    rfl

/-- A fresh table has no entry. -/
theorem readPte_memset (mem : Mem) (p : Nat) (i : Fin 512) :
    readPte (memset mem p 0 pgsize) (slotAt p i) = 0 := by
  have bound := slotAt_lt i
  unfold readPte
  rw [getLE_zero fun b low high => ?_]
  · rfl
  · unfold slotAt at low high
    rw [memset, if_pos (by omega)]

end Xv6.Radix
