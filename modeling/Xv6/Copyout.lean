import Xv6.CopyIn
import Xv6.UserTable

/-!
# Copying to user memory

`copyout` page by page: every round makes the page private with `dup_pg` and then
writes to it, so that a call writes a prefix of the bytes (all of them if it returns
zero) and changes no other byte that the page table shows.
-/

namespace Xv6

open Ownership Fallible PageTable Nat List

/-- The byte that a page table shows at `va`. -/
def shown (k : Kmem) (pt : PageTable) (va : Nat) : UInt8 :=
  k.mem (pte2pa (pt.leaf (va / pgsize)) + va % pgsize)

variable {k k' : Kmem} {pt pt' : PageTable} {excl shared : Multiset Nat} {sz va dstva n : Nat}
  {src : List UInt8} {r : Int}

theorem shown_of_sameBytes (same : SameBytes k pt k' pt' (va / pgsize)) :
    shown k' pt' va = shown k pt va :=
  same (va % pgsize) (mod_lt _ (by decide))

/-- A page that is open to the user is one of the user's. -/
theorem Opened.user {v : Nat} (opened : Opened pt v) (table : UserTable pt sz) :
    v < userPages ∧ (pt.entry v).isSome := by
  obtain ⟨below, valid, user⟩ := opened
  have entry := entry_of_valid valid (rfl : pt.leaf v = pt.leaf v)
  refine ⟨?_, by rw [entry]; rfl⟩
  by_contra above
  have closed := (table.top v _ (Nat.le_of_not_lt above) below entry).2
  rw [user] at closed
  cases closed

/-- `walkaddr` succeeds on pages that are open to the user. -/
theorem walkaddr_spec {pa : Nat} (table : UserTable pt sz) (run : walkaddr pt va = .ok pa)
    (found : pa ≠ 0) :
    va / pgsize < userPages ∧ ∃ e, pt.entry (va / pgsize) = some e ∧ e.has pteU = true ∧
      pa = pte2pa e := by
  rw [walkaddr_eq] at run
  split_ifs at run with opened
  · cases run
    exact ⟨(opened.user table).1, _, entry_of_valid opened.2.1 rfl, opened.2.2, rfl⟩
  · cases run
    exact absurd rfl found

/-- `dup_pg` keeps the shape of the table, the pages mapped and what they show; where it
returns zero the page of `va` is not marked any more. -/
theorem dupPg_keeps (table : UserTable pt sz) (run : dupPg k pt va = .ok (k', pt', r))
    (owned : Owned k pt excl shared) : Evolves k pt k' pt' excl shared ∧ UserTable pt' sz ∧
      (∀ v < userPages, (pt'.entry v).isSome = (pt.entry v).isSome) ∧
      (r = 0 ∨ r < 0) ∧
      (r = 0 → va < maxva ∧ ∀ e, pt'.entry (va / pgsize) = some e → e.has pteCow = false) := by
  obtain ⟨evolves, what⟩ := dupPg_spec table.top run owned
  refine ⟨evolves, ?_⟩
  rcases what with ⟨rfl, rfl, -, result⟩ | ⟨e, newpa, rfl, copies, user, mapped, -, -, entries⟩
  · refine ⟨table, fun _ _ => rfl, by omega, fun zero => ?_⟩
    rcases result with minus | minus | ⟨-, lt, -, plain⟩
    · omega
    · omega
    · refine ⟨lt, fun e entry => ?_⟩
      rw [← (entry_eq_some.1 entry).1]
      exact plain
  · refine ⟨table.set_entry _ user mapped entries fun marked => ?_, fun v userV => ?_, .inl rfl,
      fun _ => ⟨copies.2.1, fun e' entry => ?_⟩⟩
    · rw [dupEntry_plain] at marked
      cases marked
    · rw [entries v (userPage_lt userV)]
      split
      · rename_i here
        rw [here, mapped]
        rfl
      · rfl
    · rw [entries _ (userPage_lt user), if_pos rfl] at entry
      cases entry
      exact dupEntry_plain newpa

/-- What a call of `copyout` that has written `n` bytes leaves. -/
structure CopiedOut (k : Kmem) (pt : PageTable) (k' : Kmem) (pt' : PageTable)
    (dstva : Nat) (src : List UInt8) (n sz : Nat) (excl shared : Multiset Nat) : Prop where
  owned : Owned k' pt' excl shared
  framed : Framed k k' (excl + shared)
  table : UserTable pt' sz
  mapped : ∀ v < userPages, (pt'.entry v).isSome = (pt.entry v).isSome
  inside : ∀ va, dstva ≤ va → va < dstva + n →
    va / pgsize < userPages ∧ (pt.entry (va / pgsize)).isSome
  bytes : ∀ va, va / pgsize < userPages → (pt.entry (va / pgsize)).isSome →
    shown k' pt' va =
      if dstva ≤ va ∧ va < dstva + n then src.getD (va - dstva) 0 else shown k pt va

theorem CopiedOut.none (owned : Owned k pt excl shared) (table : UserTable pt sz) :
    CopiedOut k pt k pt dstva src 0 sz excl shared := by
  refine ⟨owned, .refl _ _, table, fun _ _ => rfl, fun va low high => by omega, fun va _ _ => ?_⟩
  rw [if_neg (by omega)]

/-- A change that shows the same bytes, before a copy. -/
theorem CopiedOut.after {k₁ : Kmem} {pt₁ : PageTable} (evolves : Evolves k pt k₁ pt₁ excl shared)
    (same : ∀ v < userPages, (pt₁.entry v).isSome = (pt.entry v).isSome)
    (copied : CopiedOut k₁ pt₁ k' pt' dstva src n sz excl shared) :
    CopiedOut k pt k' pt' dstva src n sz excl shared := by
  refine ⟨copied.owned, evolves.framed.trans copied.framed, copied.table, fun v user => ?_,
    fun va low high => ?_, fun va user mapped => ?_⟩
  · rw [copied.mapped v user, same v user]
  · obtain ⟨user, mapped⟩ := copied.inside va low high
    exact ⟨user, by rwa [same _ user] at mapped⟩
  · have mapped₁ : (pt₁.entry (va / pgsize)).isSome := by rwa [same _ user]
    rw [copied.bytes va user mapped₁]
    split
    · rfl
    · exact shown_of_sameBytes (evolves.bytes _ user mapped mapped₁)

/-- One page of bytes written to a private page, and the rest of the copy after it. -/
theorem CopiedOut.round {e : Pte} {m : Nat} (user : dstva / pgsize < userPages)
    (entry : pt.entry (dstva / pgsize) = some e) (plain : e.has pteCow = false)
    (page : m = min (pgsize - dstva % pgsize) src.length) (owned : Owned k pt excl shared)
    (rest : CopiedOut
      { k with mem := memput k.mem (pte2pa e + dstva % pgsize) (src.take m) } pt k' pt'
      ((dstva / pgsize + 1) * pgsize) (src.drop m) n sz excl shared)
    (full : m < src.length → (dstva / pgsize + 1) * pgsize = dstva + m)
    (short : src.length ≤ m → n = 0) : CopiedOut k pt k' pt' dstva src (m + n) sz excl shared := by
  have small : dstva % pgsize < pgsize := mod_lt _ (by decide)
  have length : (src.take m).length = m := by
    rw [length_take]
    omega
  have fits : dstva % pgsize + (src.take m).length ≤ pgsize := by
    rw [length]
    omega
  obtain ⟨owned₁, framed₁, others⟩ := write_spec user entry plain fits owned
  have leaf := (entry_eq_some.1 entry).1
  have same {va : Nat} (low : dstva ≤ va) (high : va < dstva + m) :
      va / pgsize = dstva / pgsize := by
    simp only [pgsize] at *
    omega
  have written (va : Nat) (userV : va / pgsize < userPages)
      (mapped : (pt.entry (va / pgsize)).isSome) :
      shown { k with mem := memput k.mem (pte2pa e + dstva % pgsize) (src.take m) } pt va =
        if dstva ≤ va ∧ va < dstva + m then src.getD (va - dstva) 0 else shown k pt va := by
    have split := div_add_mod dstva pgsize
    have splitV := div_add_mod va pgsize
    have smallV : va % pgsize < pgsize := mod_lt _ (by decide)
    by_cases here : va / pgsize = dstva / pgsize
    · unfold shown
      rw [here, leaf]
      simp only [memput, length]
      rw [here] at splitV
      by_cases inside : dstva ≤ va ∧ va < dstva + m
      · rw [if_pos (by omega), if_pos inside]
        have offset : pte2pa e + va % pgsize - (pte2pa e + dstva % pgsize) = va - dstva := by
          omega
        rw [offset, getD_eq_getElem?_getD, getD_eq_getElem?_getD,
          getElem?_take_of_lt (by omega)]
      · rw [if_neg (by omega), if_neg inside]
    · rw [shown_of_sameBytes (others _ userV here mapped), if_neg]
      exact fun inside => here (same inside.1 inside.2)
  refine ⟨rest.owned, framed₁.trans rest.framed, rest.table, rest.mapped, fun va low high => ?_,
    fun va userV mapped => ?_⟩
  · by_cases first : va < dstva + m
    · rw [same low first]
      exact ⟨user, by rw [entry]; rfl⟩
    · by_cases more : m < src.length
      · have := full more
        exact rest.inside va (by omega) (by omega)
      · have := short (by omega)
        omega
  · rw [rest.bytes va userV mapped, written va userV mapped]
    by_cases more : m < src.length
    · have next := full more
      rw [next]
      by_cases later : dstva + m ≤ va ∧ va < dstva + m + n
      · rw [if_pos later, if_pos (by omega), getD_eq_getElem?_getD, getD_eq_getElem?_getD,
          getElem?_drop]
        congr 2
        omega
      · rw [if_neg later]
        by_cases first : dstva ≤ va ∧ va < dstva + m
        · rw [if_pos first, if_pos (by omega)]
        · rw [if_neg first, if_neg (by omega)]
    · have zero := short (by omega)
      rw [zero, if_neg (by omega), add_zero]

/-- The number of bytes that the loop of `copyout` stores before it returns. -/
def copiedLoop : Nat → Kmem → PageTable → Nat → List UInt8 → Nat
  | 0, _, _, _, _ => 0
  | fuel + 1, k, pt, dstva, src =>
    if src.length = 0 then 0
    else
      let va0 := pgrounddown dstva
      match dupPg k pt va0 with
      | .error _ => 0
      | .ok (k, pt, r) =>
        if r < 0 then 0
        else
          match walkaddr pt va0 with
          | .error _ => 0
          | .ok pa0 =>
            if pa0 = 0 then 0
            else
              let n := min (pgsize - (dstva - va0)) src.length
              let k := { k with mem := memput k.mem (pa0 + (dstva - va0)) (src.take n) }
              n + copiedLoop fuel k pt (va0 + pgsize) (src.drop n)

/-- The number of bytes that `copyout` stores. -/
def copied (k : Kmem) (pt : PageTable) (dstva : Nat) (src : List UInt8) : Nat :=
  copiedLoop src.length k pt dstva src

/-- The loop of `copyout` writes a prefix of the bytes, and all of them if it returns zero. -/
theorem copyoutLoop_spec {fuel : Nat} (table : UserTable pt sz) (enough : src.length ≤ fuel)
    (run : copyoutLoop fuel k pt dstva src = .ok (k', pt', r)) (owned : Owned k pt excl shared) :
    ∃ n ≤ src.length, CopiedOut k pt k' pt' dstva src n sz excl shared ∧
      ((r = 0 ∧ n = src.length) ∨ r = -1) ∧ n = copiedLoop fuel k pt dstva src := by
  induction fuel generalizing k pt dstva src with
  | zero =>
    cases run
    exact ⟨0, zero_le _, .none owned table, .inl ⟨rfl, by omega⟩, rfl⟩
  | succ fuel ih =>
    unfold copyoutLoop at run
    unfold copiedLoop
    split at run
    · rename_i empty
      cases run
      rw [if_pos empty]
      exact ⟨0, zero_le _, .none owned table, .inl ⟨rfl, by omega⟩, rfl⟩
    · rename_i some
      rw [if_neg some]
      obtain ⟨⟨k₁, pt₁, r₁⟩, dup, run⟩ := of_bind_ok run
      obtain ⟨evolves, table₁, same, result₁, zero⟩ := dupPg_keeps table dup owned
      simp only [dup] at run ⊢
      split at run
      · rename_i negative
        cases run
        rw [if_pos negative]
        exact ⟨0, zero_le _, .after evolves same (.none evolves.owned table₁), .inr rfl, rfl⟩
      · rename_i dupped
        obtain ⟨pa, addr, run⟩ := of_bind_ok run
        simp only [if_neg dupped, addr]
        split at run
        · rename_i none
          cases run
          rw [if_pos none]
          exact ⟨0, zero_le _, .after evolves same (.none evolves.owned table₁), .inr rfl, rfl⟩
        · rename_i found
          rw [if_neg found]
          obtain ⟨user, e, entry, -, rfl⟩ := walkaddr_spec table₁ addr found
          have down : pgrounddown dstva / pgsize = dstva / pgsize := by
            rw [pgrounddown, Nat.mul_div_cancel _ (by decide)]
          have plain : e.has pteCow = false := (zero (by omega)).2 e entry
          rw [down] at user entry
          have offset : dstva - pgrounddown dstva = dstva % pgsize := by
            have := div_add_mod dstva pgsize
            rw [pgrounddown, mul_comm]
            omega
          rw [offset, pgrounddown, ← succ_mul] at run ⊢
          have small : dstva % pgsize < pgsize := mod_lt _ (by decide)
          obtain ⟨n, le, copied, result, count⟩ :=
            ih table₁ (by rw [length_drop]; omega) run (evolves.owned.setMem _)
          rw [length_drop] at le result
          refine ⟨min (pgsize - dstva % pgsize) src.length + n, by omega,
            .after evolves same (.round user entry plain rfl evolves.owned copied ?_ ?_),
            by omega, by rw [count]⟩
          · intro more
            have := div_add_mod dstva pgsize
            rw [mul_comm] at this
            rw [add_mul]
            omega
          · omega

end Xv6
