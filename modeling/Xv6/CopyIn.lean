import Xv6.Vm

/-!
# Copying from user memory

`copyin` and `copyinstr` of `vm.c`.  The destination is a buffer of the kernel: a call returns
the bytes it has stored there, which are the first part of what was asked for when it fails.
-/

namespace Xv6

open List Nat

/-- The `n` bytes of memory at `src`. -/
def memget (mem : Mem) (src n : Nat) : List UInt8 := (range n).map fun i => mem (src + i)

/-- The loop of `copyin`, with `len` bytes to go.  Each round copies at least one. -/
def copyinLoop : Nat → Kmem → PageTable → Nat → Nat → Except String (List UInt8 × Int)
  | 0, _, _, _, _ => .ok ([], 0)
  | fuel + 1, k, pt, srcva, len =>
    if len = 0 then .ok ([], 0)
    else do
      let va0 := pgrounddown srcva
      let pa0 ← walkaddr pt va0
      if pa0 = 0 then .ok ([], -1)
      else do
        let n := min (pgsize - (srcva - va0)) len
        let bytes := memget k.mem (pa0 + (srcva - va0)) n
        let (rest, r) ← copyinLoop fuel k pt (va0 + pgsize) (len - n)
        .ok (bytes ++ rest, r)

/-- `copyin(pagetable, dst, srcva, len)`. -/
def copyin (k : Kmem) (pt : PageTable) (srcva len : Nat) : Except String (List UInt8 × Int) :=
  copyinLoop len k pt srcva len

/-- The loop of `copyinstr`, with at most `max` characters to go. -/
def copyinstrLoop : Nat → Kmem → PageTable → Nat → Nat → Except String (List UInt8 × Int)
  | 0, _, _, _, _ => .ok ([], -1)
  | fuel + 1, k, pt, srcva, max =>
    if max = 0 then .ok ([], -1)
    else do
      let va0 := pgrounddown srcva
      let pa0 ← walkaddr pt va0
      if pa0 = 0 then .ok ([], -1)
      else
        let n := min (pgsize - (srcva - va0)) max
        let bytes := memget k.mem (pa0 + (srcva - va0)) n
        let str := bytes.takeWhile (· ≠ 0)
        if str.length < n then .ok (str ++ [0], 0)
        else do
          let (rest, r) ← copyinstrLoop fuel k pt (va0 + pgsize) (max - n)
          .ok (bytes ++ rest, r)

/-- `copyinstr(pagetable, dst, srcva, max)`. -/
def copyinstr (k : Kmem) (pt : PageTable) (srcva max : Nat) : Except String (List UInt8 × Int) :=
  copyinstrLoop max k pt srcva max

theorem memget_length (mem : Mem) (src n : Nat) : (memget mem src n).length = n := by
  rw [memget, length_map, length_range]

/-- A page that is valid and open to the user. -/
def Opened (pt : PageTable) (v : Nat) : Prop :=
  v * pgsize < maxva ∧ (pt.leaf v).has pteV = true ∧ (pt.leaf v).has pteU = true

variable {k : Kmem} {pt : PageTable} {v va x : Nat}

instance : Decidable (Opened pt v) := inferInstanceAs (Decidable (_ ∧ _ ∧ _))

/-- `walkaddr` looks at its argument before it walks. -/
theorem walkaddr_eq (pt : PageTable) (va : Nat) : walkaddr pt va =
    .ok (if Opened pt (va / pgsize) then pte2pa (pt.leaf (va / pgsize)) else 0) := by
  have opened : Opened pt (va / pgsize) ↔ va < maxva ∧
      ((pt.lookup va).getD 0).has pteV = true ∧ ((pt.lookup va).getD 0).has pteU = true := by
    have page : va / pgsize * pgsize < maxva ↔ va < maxva := by
      simp only [pgsize, maxva]
      omega
    rw [Opened, page, pt.lookup_getD]
  unfold walkaddr walk
  simp only [opened, ← pt.lookup_getD]
  by_cases large : maxva ≤ va
  · rw [if_pos large, if_neg fun both => Nat.not_lt_of_le large both.1]
  · rw [if_neg large, if_neg large]
    cases pt.lookup va with
    | none =>
      rw [Option.getD_none, if_neg fun both => absurd both.2.1 (by rw [Pte.has_zero]; decide)]
      rfl
    | some pte =>
      simp only [bind, Except.bind, Option.getD_some, Bool.not_eq_true', Nat.lt_of_not_le large]
      split_ifs <;> simp_all

theorem walkaddr_total (pt : PageTable) (va : Nat) : ∃ pa, walkaddr pt va = .ok pa :=
  ⟨_, walkaddr_eq pt va⟩

/-- The byte at a user address, if its page is mapped for the user. -/
def userByte (k : Kmem) (pt : PageTable) (va : Nat) : Option UInt8 :=
  match walkaddr pt (pgrounddown va) with
  | .ok pa => if pa = 0 then none else some (k.mem (pa + (va - pgrounddown va)))
  | .error _ => none

theorem memget_getD (mem : Mem) (dst n : Nat) (lt : x < n) :
    (memget mem dst n).getD x 0 = mem (dst + x) := by
  rw [memget, getD_eq_getElem?_getD, getElem?_map, getElem?_range lt]
  rfl

theorem userByte_of_page {pa : Nat} (addr : walkaddr pt (pgrounddown va) = .ok pa)
    (inside : x < pgsize - (va - pgrounddown va)) : userByte k pt (va + x) =
      if pa = 0 then none else some (k.mem (pa + (va - pgrounddown va) + x)) := by
  have page : pgrounddown (va + x) = pgrounddown va := by
    simp only [pgrounddown, pgsize] at inside ⊢
    omega
  have low : pgrounddown va ≤ va := div_mul_le_self _ _
  rw [userByte, page, addr]
  simp only
  rw [show va + x - pgrounddown va = va - pgrounddown va + x by omega, add_assoc]

theorem userByte_none (large : maxva ≤ va) : userByte k pt va = none := by
  have high : maxva ≤ pgrounddown va := by
    simp only [maxva, pgrounddown, pgsize] at large ⊢
    omega
  rw [userByte, walkaddr, if_pos high]
  rfl

/-- `copyin` stores the bytes before the first page that is not mapped. -/
theorem copyinLoop_spec (k : Kmem) (pt : PageTable) (va : Nat) {fuel len : Nat}
    (enough : len ≤ fuel) :
    ∃ bytes r, copyinLoop fuel k pt va len = .ok (bytes, r) ∧
      (∀ x < bytes.length, userByte k pt (va + x) = some (bytes.getD x 0)) ∧
      ((r = 0 ∧ bytes.length = len) ∨
        (r = -1 ∧ bytes.length < len ∧ userByte k pt (va + bytes.length) = none)) := by
  induction fuel generalizing va len with
  | zero =>
    refine ⟨[], 0, rfl, fun x lt => absurd lt (not_lt_zero x), .inl ⟨rfl, ?_⟩⟩
    rw [length_nil]
    omega
  | succ fuel ih =>
    unfold copyinLoop
    by_cases done : len = 0
    · rw [if_pos done]
      exact ⟨[], 0, rfl, fun x lt => absurd lt (not_lt_zero x), .inl ⟨rfl, done.symm⟩⟩
    · obtain ⟨pa, addr⟩ := walkaddr_total pt (pgrounddown va)
      have low : pgrounddown va ≤ va := div_mul_le_self _ _
      have room : 0 < pgsize - (va - pgrounddown va) := by
        simp only [pgrounddown, pgsize]
        omega
      simp only [if_neg done, addr, bind, Except.bind]
      by_cases none : pa = 0
      · rw [if_pos none]
        refine ⟨[], -1, rfl, fun x lt => absurd lt (not_lt_zero x), .inr ⟨rfl, ?_, ?_⟩⟩
        · rw [length_nil]
          omega
        · rw [length_nil, userByte_of_page addr room, if_pos none]
      · rw [if_neg none]
        generalize count : min (pgsize - (va - pgrounddown va)) len = c
        obtain ⟨rest, r, run, stored, result⟩ :=
          @ih (pgrounddown va + pgsize) (len - c) (by omega)
        simp only [run]
        refine ⟨_, r, rfl, ?_, ?_⟩
        · intro x lt
          rw [length_append, memget_length] at lt
          by_cases first : x < c
          · rw [userByte_of_page addr (by omega), if_neg none,
              getD_append _ _ _ _ (by rw [memget_length]; exact first), memget_getD _ _ _ first]
          · rw [getD_append_right _ _ _ _ (by rw [memget_length]; omega), memget_length,
              ← stored (x - c) (by omega)]
            congr 1
            omega
        · rw [length_append, memget_length]
          rcases result with ⟨rfl, all⟩ | ⟨rfl, short, stop⟩
          · exact .inl ⟨rfl, by omega⟩
          · refine .inr ⟨rfl, by omega, ?_⟩
            rw [← stop]
            congr 1
            omega

variable (k pt)

/-- `copyinstr` does not panic and stores at most `max` characters. -/
theorem copyinstrLoop_total (fuel srcva max : Nat) :
    ∃ bytes r, copyinstrLoop fuel k pt srcva max = .ok (bytes, r) ∧ bytes.length ≤ max := by
  induction fuel generalizing srcva max with
  | zero => exact ⟨[], -1, rfl, zero_le _⟩
  | succ fuel ih =>
    unfold copyinstrLoop
    by_cases done : max = 0
    · rw [if_pos done]
      exact ⟨[], -1, rfl, zero_le _⟩
    · rw [if_neg done]
      obtain ⟨pa, addr⟩ := walkaddr_total pt (pgrounddown srcva)
      simp only [addr, bind, Except.bind]
      by_cases none : pa = 0
      · rw [if_pos none]
        exact ⟨[], -1, rfl, zero_le _⟩
      · rw [if_neg none]
        split
        · rename_i ended
          refine ⟨_, 0, rfl, ?_⟩
          rw [length_append, length_singleton]
          omega
        · obtain ⟨rest, r, run, short⟩ := ih (pgrounddown srcva + pgsize)
            (max - min (pgsize - (srcva - pgrounddown srcva)) max)
          simp only [run]
          refine ⟨_, r, rfl, ?_⟩
          rw [length_append, memget_length]
          omega

end Xv6
