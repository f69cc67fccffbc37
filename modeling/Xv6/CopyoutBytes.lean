import Xv6.ContiguousRun

/-!
# Copying out in pieces

System calls deliver bytes to the user with one `copyout` after another.  Copying a byte and
then the rest is the same as copying all of it: the page of the first byte is not marked any
more when the rest comes to it.

A recorded machine remembers which stores to user memory the kernel has made.
-/

namespace Xv6

open Ownership Fallible PageTable List Nat

variable {k k' : Kmem} {pt pt' : PageTable} {va dstva : Nat}

/-- A page that `dup_pg` has passed is passed again, and nothing happens. -/
theorem dupPg_again (dup : dupPg k pt va = .ok (k', pt', 0)) (k₁ : Kmem) :
    dupPg k₁ pt' va = .ok (k₁, pt', 0) := by
  have plain (lt : va < maxva) (nonzero : va ≠ 0) (found : (pt'.lookup va).isSome)
      (unmarked : (pt'.leaf (va / pgsize)).has pteCow = false) :
      dupPg k₁ pt' va = .ok (k₁, pt', 0) := by
    obtain ⟨e, look⟩ := Option.isSome_iff_exists.1 found
    rw [leaf_of_lookup look] at unmarked
    unfold dupPg walk
    rw [if_neg (by omega), if_neg (by omega)]
    simp only [look, bind, Except.bind, unmarked, Bool.not_false, if_true]
  cases dupPg_ends dup with
  | plain accepted unmarked =>
    obtain ⟨nonzero, lt⟩ := accepted_lt accepted
    refine plain lt nonzero ?_ unmarked
    cases look : pt.lookup va with
    | none => exact absurd (.inr (.inr (.inl look))) accepted
    | some e => rfl
  | @copied e _ _ newpa accepted mapped =>
    obtain ⟨nonzero, lt⟩ := accepted_lt accepted
    have after := leaf_dup lt mapped (dupEntry newpa)
    refine plain lt nonzero ?_ (by rw [after, dupEntry_plain])
    cases look : (pt.store va (dupEntry newpa)).lookup va with
    | some e => rfl
    | none =>
      have valid := dupEntry_valid newpa
      rw [← after, leaf, ← lookup_page, look] at valid
      exact absurd valid (by decide)

/-- Every round of a copy has room in its page. -/
theorem page_rest (va : Nat) : 0 < pgsize - (va - pgrounddown va) := by
  have := div_add_mod va pgsize
  have := mod_lt va (show 0 < pgsize by decide)
  rw [pgrounddown, mul_comm]
  omega

theorem pgrounddown_succ (inside : va % pgsize + 1 ≠ pgsize) :
    pgrounddown (va + 1) = pgrounddown va := by
  simp only [pgrounddown, pgsize] at inside ⊢
  omega

/-- Once there are as many rounds as bytes, more rounds change nothing. -/
theorem copyoutLoop_fuel {fuel : Nat} {src : List UInt8} (enough : src.length ≤ fuel) :
    copyoutLoop fuel k pt dstva src = copyout k pt dstva src := by
  unfold copyout
  generalize len : src.length = n
  induction n using Nat.strongRecOn generalizing fuel k pt dstva src with
  | ind n ih =>
    cases fuel with
    | zero =>
      have none : n = 0 := by omega
      rw [none]
    | succ fuel =>
      cases n with
      | zero =>
        unfold copyoutLoop
        rw [if_pos len]
      | succ n =>
        unfold copyoutLoop
        rw [if_neg (by omega), if_neg (by omega)]
        refine bind_congr fun result => ?_
        obtain ⟨k₁, pt₁, r⟩ := result
        simp only
        split
        · rfl
        · refine bind_congr fun pa => ?_
          split
          · rfl
          · have room := page_rest dstva
            have shorter : (src.drop (min (pgsize - (dstva - pgrounddown dstva))
                src.length)).length < n + 1 := by
              rw [length_drop]
              omega
            have more := fun k pt va => @ih _ shorter k pt va fuel _ (by omega) rfl
            have fewer := fun k pt va => @ih _ shorter k pt va n _ (by omega) rfl
            rw [more, fewer]

/-- One round of `copyout`. -/
theorem copyout_round {src : List UInt8} (some : src ≠ []) : copyout k pt dstva src = (do
      let (k₁, pt₁, r) ← dupPg k pt (pgrounddown dstva)
      if r < 0 then .ok (k₁, pt₁, -1)
      else do
        let pa ← walkaddr pt₁ (pgrounddown dstva)
        if pa = 0 then .ok (k₁, pt₁, -1)
        else
          let n := min (pgsize - (dstva - pgrounddown dstva)) src.length
          copyout { k₁ with
            mem := memput k₁.mem (pa + (dstva - pgrounddown dstva)) (src.take n) } pt₁
            (pgrounddown dstva + pgsize) (src.drop n)) := by
  cases src with
  | nil => exact absurd rfl some
  | cons b src =>
    have room := page_rest dstva
    have first :
        copyout k pt dstva (b :: src) = copyoutLoop (src.length + 1) k pt dstva (b :: src) :=
      rfl
    rw [first, copyoutLoop, length_cons, if_neg (succ_ne_zero _)]
    refine bind_congr fun result => ?_
    obtain ⟨k₁, pt₁, r⟩ := result
    simp only
    split
    · rfl
    · refine bind_congr fun pa => ?_
      split
      · rfl
      · exact copyoutLoop_fuel (by rw [length_drop, length_cons]; omega)

/-- The first byte, and then the rest. -/
theorem copyout_cons (b : UInt8) (src : List UInt8) : copyout k pt dstva (b :: src) = (do
      let (k₁, pt₁, r) ← copyout k pt dstva [b]
      if r < 0 then .ok (k₁, pt₁, r) else copyout k₁ pt₁ (dstva + 1) src) := by
  have room := page_rest dstva
  rw [copyout_round (cons_ne_nil b src), copyout_round (cons_ne_nil b [])]
  simp only [bind, Except.bind]
  cases dup : dupPg k pt (pgrounddown dstva) with
  | error why => rfl
  | ok result =>
    obtain ⟨k₁, pt₁, r⟩ := result
    simp only
    by_cases negative : r < 0
    · rw [if_pos negative, if_pos negative]
      rfl
    · rw [if_neg negative, if_neg negative]
      cases addr : walkaddr pt₁ (pgrounddown dstva) with
      | error why => rfl
      | ok pa =>
        simp only
        by_cases none : pa = 0
        · rw [if_pos none, if_pos none]
          rfl
        · rw [if_neg none, if_neg none, length_singleton, length_cons,
            min_eq_right (by omega : 1 ≤ pgsize - (dstva - pgrounddown dstva))]
          have zero : r = 0 := by
            cases dupPg_ends dup <;> omega
          subst zero
          have split := div_add_mod dstva pgsize
          rw [mul_comm] at split
          rw [← pgrounddown] at split
          have offset : dstva - pgrounddown dstva = dstva % pgsize := by omega
          rw [offset] at room ⊢
          have empty (k₂ : Kmem) (va : Nat) : copyout k₂ pt₁ va (drop 1 [b]) = .ok (k₂, pt₁, 0) :=
            rfl
          simp only [empty, Int.lt_irrefl, if_false, take_one, head?_cons, Option.toList_some]
          by_cases last : dstva % pgsize + 1 = pgsize
          · -- the next byte begins the next page
            have one : min (pgsize - dstva % pgsize) (src.length + 1) = 1 := by omega
            have next : pgrounddown dstva + pgsize = dstva + 1 := by omega
            rw [one, next]
            rfl
          · cases src with
            | nil =>
              rw [length_nil, min_eq_right (by omega : 0 + 1 ≤ pgsize - dstva % pgsize)]
              rfl
            | cons c src =>
              -- the next byte is in the same page, which is not marked any more
              have down := pgrounddown_succ last
              have count : min (pgsize - dstva % pgsize) ((c :: src).length + 1) =
                  min (pgsize - (dstva + 1 - pgrounddown dstva)) (c :: src).length + 1 := by
                omega
              have after : pa + (dstva + 1 - pgrounddown dstva) =
                  pa + dstva % pgsize + [b].length := by
                rw [length_singleton]
                omega
              rw [copyout_round (cons_ne_nil c src), down]
              simp only [dupPg_again dup, bind, Except.bind, Int.lt_irrefl, if_false, addr,
                if_neg none]
              rw [count, take_succ_cons, drop_succ_cons, after, memput_append]
              rfl

namespace Machine

variable {m : Machine} {id : SpaceId} {sp : Space} {src : List UInt8}

theorem copyout_of_space (space : m.space id = some sp) (dstva : Nat) (src : List UInt8) :
    m.copyout id dstva src = (do
      let (k, pt, r) ← Xv6.copyout m.kmem sp.pagetable dstva src
      .ok (m.put id k (some ⟨pt, sp.sz⟩), r)) := by
  unfold copyout
  rw [get_of_space space]
  rfl

theorem copyout_nil (space : m.space id = some sp) (dstva : Nat) :
    m.copyout id dstva [] = .ok (m.put id m.kmem (some sp), 0) := by
  rw [copyout_of_space space]
  rfl

theorem put_put (k k₁ : Kmem) (o o₁ : Option Space) :
    (m.put id k o).put id k₁ o₁ = m.put id k₁ o₁ := by
  simp only [put, Function.update_idem]

/-- The first byte, and then the rest. -/
theorem copyout_cons (space : m.space id = some sp) (dstva : Nat) (b : UInt8) (src : List UInt8) :
    m.copyout id dstva (b :: src) = (do
      let (m₁, r) ← m.copyout id dstva [b]
      if r < 0 then .ok (m₁, r) else m₁.copyout id (dstva + 1) src) := by
  rw [copyout_of_space space, copyout_of_space space, Xv6.copyout_cons]
  simp only [bind, Except.bind]
  cases Xv6.copyout m.kmem sp.pagetable dstva [b] with
  | error why => rfl
  | ok result =>
    obtain ⟨k, pt, r⟩ := result
    simp only
    by_cases negative : r < 0
    · rw [if_pos negative, if_pos negative]
    · rw [if_neg negative, if_neg negative, copyout_of_space (put_space _)]
      simp only [bind, Except.bind, put_put]
      rfl

end Machine

/-! ## A record of the stores -/

/-- A machine with a record of what the kernel has stored in user memory: for every call of
`copyout` the address, and how many bytes it has stored from there on. -/
structure Recorded where
  machine : Machine
  stores : List (Nat × Nat)

namespace Recorded

variable {u : Recorded} {id : SpaceId} {sp : Space}

def copyout (u : Recorded) (id : SpaceId) (dstva : Nat) (src : List UInt8) :
    Except String (Recorded × Int) := do
  let sp ← u.machine.get id
  let (m, r) ← u.machine.copyout id dstva src
  .ok (⟨m, u.stores ++ [(dstva, copied u.machine.kmem sp.pagetable dstva src)]⟩, r)

/-- `copyout` stores a prefix of the bytes, and all of them if it returns zero. -/
theorem copyout_spec (dstva : Nat) (src : List UInt8) (inv : u.machine.Inv)
    (space : u.machine.space id = some sp) : ∃ u' r n sp', u.copyout id dstva src = .ok (u', r) ∧
      u.machine.copyout id dstva src = .ok (u'.machine, r) ∧ u'.machine.Inv ∧
      u'.machine.space id = some sp' ∧ u'.machine.kmem.kend = u.machine.kmem.kend ∧
      u'.stores = u.stores ++ [(dstva, n)] ∧ n ≤ src.length ∧
      n = copied u.machine.kmem sp.pagetable dstva src ∧ (r = 0 ∧ n = src.length ∨ r = -1) ∧
      ∀ j < n, dstva + j < maxva := by
  have table := inv.table id sp space
  have owned := inv.owned space
  obtain ⟨k, pt, r, run⟩ := copyoutLoop_total src.length table owned dstva src
  obtain ⟨n, le, spec, ended, count⟩ := copyoutLoop_spec table le_rfl run owned
  have made : u.machine.copyout id dstva src = .ok (u.machine.put id k (some ⟨pt, sp.sz⟩), r) := by
    rw [Machine.copyout_of_space space, Xv6.copyout, run]
    rfl
  refine ⟨⟨u.machine.put id k (some ⟨pt, sp.sz⟩), u.stores ++ [(dstva, n)]⟩, r, n, _, ?_, made,
    (inv.touches spec.owned spec.framed spec.table).inv, Machine.put_space _, spec.framed.kend, rfl,
    le, count, ended, fun j lt => ?_⟩
  · unfold copyout copied
    rw [Machine.get_of_space space, made]
    simp only [bind, Except.bind, ← count]
  · have user := (spec.inside (dstva + j) (le_add_right _ _) (by omega)).1
    rw [userPages_eq] at user
    simp only [maxva, pgsize] at user ⊢
    omega

end Recorded

end Xv6
