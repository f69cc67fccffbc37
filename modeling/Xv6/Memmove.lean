import Xv6.Riscv

/-!
# Copying memory byte by byte

`memmove` of the kernel, in `string.c`, and of the user library, in `ulib.c`.  Both run over
memory that they change, and they choose the direction by different tests.  Addresses are numbers:
no range wraps.
-/

namespace Xv6

/-- `while(n-- > 0) *d++ = *s++`. -/
def copyUp : Nat → Mem → Nat → Nat → Mem
  | 0, mem, _, _ => mem
  | n + 1, mem, d, s => copyUp n (Function.update mem d (mem s)) (d + 1) (s + 1)

/-- `while(n-- > 0) *--d = *--s`. -/
def copyDown : Nat → Mem → Nat → Nat → Mem
  | 0, mem, _, _ => mem
  | n + 1, mem, d, s => copyDown n (Function.update mem (d - 1) (mem (s - 1))) (d - 1) (s - 1)

/-- `memmove` of the kernel. -/
def kernelMemmove (mem : Mem) (dst src n : Nat) : Mem :=
  if n = 0 then mem
  else if src < dst ∧ src + n > dst then copyDown n mem (dst + n) (src + n)
  else copyUp n mem dst src

/-- `memmove` of the user library, whose `n` is an `int`. -/
def userMemmove (mem : Mem) (dst src : Nat) (n : Int) : Mem :=
  if src > dst then copyUp n.toNat mem dst src
  else copyDown n.toNat mem (dst + n).toNat (src + n).toNat

/-- A byte that is still to be read is not yet overwritten when the copy goes up from a source
that is not below the destination, or does not overlap it. -/
theorem copyUp_eq (mem : Mem) (d s n : Nat) (unread : d ≤ s ∨ s + n ≤ d) :
    copyUp n mem d s = memmove mem d s n := by
  induction n generalizing mem d s with
  | zero =>
    funext a
    rw [copyUp, memmove, if_neg (by omega)]
  | succ n ih =>
    rw [copyUp, ih _ _ _ (by omega)]
    funext a
    simp only [memmove, Function.update_apply]
    by_cases first : a = d
    · rw [if_neg (by omega), if_pos first, if_pos (by omega), first, Nat.sub_self, Nat.add_zero]
    · by_cases inside : d ≤ a ∧ a < d + (n + 1)
      · rw [if_pos (by omega), if_neg (by omega), if_pos inside]
        congr 1
        omega
      · rw [if_neg (by omega), if_neg first, if_neg inside]

/-- The same for the copy that goes down, from a source that is not above the destination. -/
theorem copyDown_eq (mem : Mem) (d s n : Nat) (unread : s ≤ d ∨ d + n ≤ s) :
    copyDown n mem (d + n) (s + n) = memmove mem d s n := by
  induction n generalizing mem with
  | zero =>
    funext a
    rw [copyDown, memmove, if_neg (by omega)]
  | succ n ih =>
    rw [copyDown, ← Nat.add_assoc, ← Nat.add_assoc, Nat.add_sub_cancel, Nat.add_sub_cancel,
      ih _ (by omega)]
    funext a
    simp only [memmove, Function.update_apply]
    by_cases last : a = d + n
    · rw [if_neg (by omega), if_pos last, if_pos (by omega), last, Nat.add_sub_cancel_left]
    · by_cases inside : d ≤ a ∧ a < d + n
      · rw [if_pos inside, if_neg (by omega), if_pos (by omega)]
      · rw [if_neg inside, if_neg last, if_neg (by omega)]

theorem kernelMemmove_eq (mem : Mem) (dst src n : Nat) :
    kernelMemmove mem dst src n = memmove mem dst src n := by
  unfold kernelMemmove
  split_ifs with zero overlap
  · rw [← copyUp_eq mem dst src n (by omega), zero, copyUp]
  · exact copyDown_eq mem dst src n (by omega)
  · exact copyUp_eq mem dst src n (by omega)

theorem userMemmove_eq (mem : Mem) (dst src n : Nat) :
    userMemmove mem dst src n = memmove mem dst src n := by
  unfold userMemmove
  split_ifs with above
  · exact copyUp_eq mem dst src n (by omega)
  · exact copyDown_eq mem dst src n (by omega)

/-- Both copy the original bytes of the source, whatever overlaps, and change nothing else. -/
theorem memmove_exact (mem : Mem) (dst src n : Nat) :
    (∀ i < n, kernelMemmove mem dst src n (dst + i) = mem (src + i)) ∧
    (∀ a, a < dst ∨ dst + n ≤ a → kernelMemmove mem dst src n a = mem a) ∧
    userMemmove mem dst src n = kernelMemmove mem dst src n := by
  rw [userMemmove_eq, kernelMemmove_eq]
  refine ⟨fun i lt => ?_, fun a outside => ?_, rfl⟩
  · rw [memmove, if_pos (by omega), Nat.add_sub_cancel_left]
  · rw [memmove, if_neg (by omega)]

end Xv6
