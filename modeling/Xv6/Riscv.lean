import Mathlib

/-!
# Pages, page-table words and physical memory

The constants and macros of `riscv.h` and `memlayout.h` that the memory code
uses.  Addresses and sizes are natural numbers, reduced modulo `2 ^ 64` where the
`uint64` arithmetic of the source can wrap; a page-table entry is the 64-bit word
the hardware reads.  Physical memory is a byte for every address.
-/

namespace Xv6

open BitVec

abbrev pgsize : Nat := 4096

/-- `PGROUNDUP(sz)`, in `uint64` arithmetic. -/
def pgroundup (sz : Nat) : Nat := (sz + (pgsize - 1)) % 2 ^ 64 / pgsize * pgsize

/-- `PGROUNDDOWN(a)`. -/
def pgrounddown (a : Nat) : Nat := a / pgsize * pgsize

/-- One beyond the highest virtual address the kernel uses. -/
abbrev maxva : Nat := 2 ^ 38

abbrev kernbase : Nat := 0x80000000
abbrev phystop : Nat := kernbase + 128 * 1024 * 1024

/-- The trampoline page, mapped at the highest address of every page table. -/
abbrev trampolineVa : Nat := maxva - pgsize

/-- The trapframe page, just below the trampoline. -/
abbrev trapframeVa : Nat := trampolineVa - pgsize

/-- The number of pages below the trapframe: those user memory can occupy. -/
@[irreducible] def userPages : Nat := trapframeVa / pgsize

theorem userPages_eq : userPages = 2 ^ 26 - 2 := by
  unfold userPages
  decide

/-- The pages that `[0, sz)` touches. -/
def npages (sz : Nat) : Nat := (sz + (pgsize - 1)) / pgsize

theorem page_div (v : Nat) : v * pgsize / pgsize = v := Nat.mul_div_cancel _ (by decide)

theorem page_sub_div (v w : Nat) : (v * pgsize - w * pgsize) / pgsize = v - w := by
  rw [← Nat.sub_mul, page_div]

theorem pgroundup_eq {sz : Nat} (small : sz ≤ maxva) : pgroundup sz = npages sz * pgsize := by
  simp only [pgroundup, npages, pgsize, maxva] at *
  omega

theorem npages_le_userPages {sz : Nat} (small : sz ≤ trapframeVa) : npages sz ≤ userPages := by
  simp only [npages, pgsize, userPages_eq, trapframeVa, trampolineVa, maxva] at *
  omega

theorem userPages_room {v : Nat} (user : v ≤ userPages) : v * pgsize ≤ trapframeVa := by
  rw [userPages_eq] at user
  simp only [pgsize, trapframeVa, trampolineVa, maxva]
  omega

theorem userPages_lt_maxva : userPages * pgsize < maxva := by
  rw [userPages_eq]
  decide

theorem npages_mul (a : Nat) : npages (a * pgsize) = a := by
  simp only [npages, pgsize]
  omega

theorem npages_mono {a b : Nat} (le : a ≤ b) : npages a ≤ npages b := by
  simp only [npages, pgsize]
  omega

/-! ## Page-table entries -/

/-- `pte_t`. -/
abbrev Pte : Type := BitVec 64

abbrev pteV : Pte := 1#64
abbrev pteR : Pte := 2#64
abbrev pteW : Pte := 4#64
abbrev pteX : Pte := 8#64
abbrev pteU : Pte := 16#64
abbrev pteCow : Pte := 256#64

/-- `*pte & m` as a condition. -/
def Pte.has (pte m : Pte) : Bool := pte &&& m != 0

/-- `PA2PTE(pa)`. -/
def pa2pte (pa : Nat) : Pte := (BitVec.ofNat 64 pa >>> 12) <<< 10

/-- `PTE2PA(pte)`. -/
def pte2pa (pte : Pte) : Nat := ((pte >>> 10) <<< 12).toNat

/-- `PTE_FLAGS(pte)`. -/
def pteFlags (pte : Pte) : Pte := pte &&& 0x3FF#64

namespace Pte

theorem has_zero (m : Pte) : has 0 m = false := by
  simp [has]

theorem has_or (a b m : Pte) : has (a ||| b) m = (has a m || has b m) := by
  unfold has
  rw [BitVec.and_comm, BitVec.and_or_distrib_left, BitVec.and_comm m a, BitVec.and_comm m b]
  by_cases left : a &&& m = 0
  · simp [left]
  · have : ¬ (a &&& m) ||| (b &&& m) = 0 := fun zero => left (BitVec.or_eq_zero_iff.1 zero).1
    simp only [bne, beq_eq_false_iff_ne.2 left, beq_eq_false_iff_ne.2 this, Bool.not_false,
      Bool.true_or]

/-- Masking with `b` keeps the flag `m` when `b` contains it. -/
theorem has_and_of_subset {a b m : Pte} (subset : b &&& m = m) : has (a &&& b) m = has a m := by
  unfold has
  rw [BitVec.and_assoc, subset]

theorem has_and_of_disjoint {a b m : Pte} (disjoint : b &&& m = 0) : has (a &&& b) m = false := by
  unfold has
  rw [BitVec.and_assoc, disjoint]
  simp

/-- The address part of a word holds no flag. -/
theorem has_pa2pte {m : Pte} (pa : Nat) (flag : m.toNat < 1024) : has (pa2pte pa) m = false := by
  have zero : pa2pte pa &&& m = 0 := by
    ext i lt
    simp only [pa2pte, BitVec.getElem_and, BitVec.getElem_shiftLeft]
    by_cases low : i < 10
    · simp [low]
    · have off : m[i] = false := by
        rw [← BitVec.getLsbD_eq_getElem, BitVec.getLsbD]
        have bound : 2 ^ 10 ≤ 2 ^ i := Nat.pow_le_pow_right (by decide) (by omega)
        exact Nat.testBit_lt_two_pow (by omega)
      simp [off]
  simp [has, zero]

theorem pte2pa_or (a b : Pte) (flag : b.toNat < 1024) : pte2pa (a ||| b) = pte2pa a := by
  unfold pte2pa
  have shift : b >>> 10 = 0#64 := by
    apply eq_of_toNat_eq
    simp [toNat_ushiftRight, Nat.shiftRight_eq_div_pow]
    omega
  rw [ushiftRight_or_distrib, shift, or_zero]

/-- A mask that keeps every address bit keeps the address. -/
theorem pte2pa_and (a b : Pte) (keeps : b >>> 10 = allOnes 64 >>> 10) :
    pte2pa (a &&& b) = pte2pa a := by
  unfold pte2pa
  rw [ushiftRight_and_distrib, keeps, ← ushiftRight_and_distrib, and_allOnes]

theorem pte2pa_pa2pte {pa : Nat} (aligned : pa % pgsize = 0) (lt : pa < 2 ^ 56) :
    pte2pa (pa2pte pa) = pa := by
  unfold pte2pa pa2pte
  simp only [BitVec.toNat_shiftLeft, BitVec.toNat_ushiftRight, BitVec.toNat_ofNat,
    Nat.shiftRight_eq_div_pow, Nat.shiftLeft_eq, pgsize] at *
  omega

theorem pteFlags_lt (pte : Pte) : (pteFlags pte).toNat < 1024 := by
  unfold pteFlags
  have bound : pte.toNat &&& 0x3FF ≤ 0x3FF := Nat.and_le_right
  have word : (pte &&& 0x3FF#64).toNat = pte.toNat &&& 0x3FF := by simp
  omega

theorem has_pteFlags {pte m : Pte} (flag : 0x3FF#64 &&& m = m) : has (pteFlags pte) m = has pte m :=
  has_and_of_subset flag

end Pte

/-! ## Physical memory -/

/-- A byte for every physical address. -/
abbrev Mem : Type := Nat → UInt8

/-- `memset(dst, c, n)`. -/
def memset (mem : Mem) (dst : Nat) (c : UInt8) (n : Nat) : Mem :=
  fun a => if dst ≤ a ∧ a < dst + n then c else mem a

/-- `memmove(dst, src, n)` between two physical ranges. -/
def memmove (mem : Mem) (dst src n : Nat) : Mem :=
  fun a => if dst ≤ a ∧ a < dst + n then mem (src + (a - dst)) else mem a

/-- `memmove(dst, src, n)` from a kernel buffer holding `src`. -/
def memput (mem : Mem) (dst : Nat) (src : List UInt8) : Mem :=
  fun a => if dst ≤ a ∧ a < dst + src.length then src.getD (a - dst) 0 else mem a

/-- The bytes of the page at `pa` are the same in both memories. -/
def SamePage (mem mem' : Mem) (pa : Nat) : Prop :=
  ∀ o < pgsize, mem' (pa + o) = mem (pa + o)

theorem SamePage.refl (mem : Mem) (pa : Nat) : SamePage mem mem pa := fun _ _ => rfl

theorem SamePage.trans {m₁ m₂ m₃ : Mem} {pa : Nat} (first : SamePage m₁ m₂ pa)
    (second : SamePage m₂ m₃ pa) : SamePage m₁ m₃ pa :=
  fun o lt => (second o lt).trans (first o lt)

section

variable {mem : Mem} {pa pb n : Nat} (alignedA : pa % pgsize = 0) (alignedB : pb % pgsize = 0)
  (ne : pa ≠ pb)
include alignedA alignedB ne

/-- Distinct aligned pages have no byte in common. -/
theorem page_disjoint {o a : Nat} (lt : o < pgsize) (inB : pb ≤ a ∧ a < pb + pgsize) :
    pa + o ≠ a := by
  simp only [pgsize] at *
  omega

theorem SamePage.memset {c : UInt8} (le : n ≤ pgsize) : SamePage mem (memset mem pb c n) pa := by
  intro o lt
  rw [Xv6.memset, if_neg]
  intro inB
  exact page_disjoint alignedA alignedB ne lt ⟨inB.1, by omega⟩ rfl

theorem SamePage.memmove {src : Nat} (le : n ≤ pgsize) :
    SamePage mem (memmove mem pb src n) pa := by
  intro o lt
  rw [Xv6.memmove, if_neg]
  intro inB
  exact page_disjoint alignedA alignedB ne lt ⟨inB.1, by omega⟩ rfl

theorem SamePage.memput {off : Nat} {src : List UInt8} (le : off + src.length ≤ pgsize) :
    SamePage mem (memput mem (pb + off) src) pa := by
  intro o lt
  rw [Xv6.memput, if_neg]
  intro inB
  exact page_disjoint alignedA alignedB ne lt ⟨by omega, by omega⟩ rfl

end

end Xv6
