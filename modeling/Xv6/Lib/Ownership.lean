import Mathlib

/-!
# Shared ownership of pooled resources

A pool hands out resources of a type `α`.  At any time a resource of the pool is
free, held by one exclusive owner, or held by one or more sharers.  The holders
are two multisets, `excl` and `shared`; a count `extra`, kept apart from the
holders, says how many sharers a resource has beyond the first.

`Ledger` is the exactness of that bookkeeping.  The rules below say how it moves
when a resource is taken from the pool, handed from an owner to a sharer, given
one more sharer, and dropped by an owner or by a sharer.  A dropped resource
returns to the pool exactly when its count is zero, and each rule leaves the
remaining holders as an arbitrary frame.  `sum_change` moves one holder among
many.
-/

namespace Ownership

open Function Multiset

variable {α : Type*} [DecidableEq α] {univ : α → Prop} {free : List α} {extra extra' : α → Nat}
  {excl shared : Multiset α} {x y : α}

/-- Every resource of the pool is in exactly one of the three states, nothing
else is free or held, and the count of extra sharers is right. -/
structure Ledger (univ : α → Prop) (free : List α) (extra : α → Nat)
    (excl shared : Multiset α) : Prop where
  one_state : ∀ x, univ x → free.count x + excl.count x + min 1 (shared.count x) = 1
  in_univ : ∀ x, x ∈ free ∨ x ∈ excl ∨ x ∈ shared → univ x
  extra_eq : ∀ x, univ x → extra x = shared.count x - 1

namespace Ledger

section

variable (ledger : Ledger univ free extra excl shared)
include ledger

theorem univ_of_free (mem : x ∈ free) : univ x :=
  ledger.in_univ x (.inl mem)

theorem univ_of_excl (mem : x ∈ excl) : univ x :=
  ledger.in_univ x (.inr (.inl mem))

theorem univ_of_shared (mem : x ∈ shared) : univ x :=
  ledger.in_univ x (.inr (.inr mem))

theorem free_nodup : free.Nodup := by
  rw [List.nodup_iff_count_le_one]
  intro x
  by_cases mem : x ∈ free
  · have := ledger.one_state x (ledger.univ_of_free mem)
    omega
  · rw [List.count_eq_zero.2 mem]
    omega

theorem not_excl_of_free (mem : x ∈ free) : x ∉ excl := by
  intro held
  have total := ledger.one_state x (ledger.univ_of_free mem)
  have := List.count_pos_iff.2 mem
  have := count_pos.2 held
  omega

theorem not_shared_of_free (mem : x ∈ free) : x ∉ shared := by
  intro held
  have total := ledger.one_state x (ledger.univ_of_free mem)
  have := List.count_pos_iff.2 mem
  have := count_pos.2 held
  omega

theorem not_shared_of_excl (mem : x ∈ excl) : x ∉ shared := by
  intro held
  have total := ledger.one_state x (ledger.univ_of_excl mem)
  have := count_pos.2 mem
  have := count_pos.2 held
  omega

/-- An exclusive owner is the only one. -/
theorem excl_count (mem : x ∈ excl) : excl.count x = 1 := by
  have total := ledger.one_state x (ledger.univ_of_excl mem)
  have := count_pos.2 mem
  omega

theorem excl_nodup : excl.Nodup := by
  rw [nodup_iff_count_le_one]
  intro x
  by_cases mem : x ∈ excl
  · exact (ledger.excl_count mem).le
  · rw [count_eq_zero_of_notMem mem]
    omega

theorem extra_of_excl (mem : x ∈ excl) : extra x = 0 := by
  rw [ledger.extra_eq x (ledger.univ_of_excl mem),
    count_eq_zero_of_notMem (ledger.not_shared_of_excl mem)]

theorem extra_of_shared (mem : x ∈ shared) : extra x + 1 = shared.count x := by
  have := ledger.extra_eq x (ledger.univ_of_shared mem)
  have := count_pos.2 mem
  omega

/-- Only the counts of the pool's own resources matter. -/
theorem congr_extra (agree : ∀ x, univ x → extra' x = extra x) :
    Ledger univ free extra' excl shared :=
  ⟨ledger.one_state, ledger.in_univ, fun x pool => (agree x pool).trans (ledger.extra_eq x pool)⟩

/-- What a rule has to show: it moves one resource. -/
theorem moves {free' : List α} {excl' shared' : Multiset α} (poolX : univ x)
    (others : ∀ y, y ≠ x → free'.count y = free.count y ∧ excl'.count y = excl.count y ∧
      shared'.count y = shared.count y ∧ extra' y = extra y)
    (total : free'.count x + excl'.count x + min 1 (shared'.count x) = 1)
    (count : extra' x = shared'.count x - 1) : Ledger univ free' extra' excl' shared' := by
  refine ⟨fun y pool => ?_, fun y mem => ?_, fun y pool => ?_⟩ <;> by_cases same : y = x
  · rwa [same]
  · obtain ⟨frees, owns, shares, -⟩ := others y same
    rw [frees, owns, shares]
    exact ledger.one_state y pool
  · rwa [same]
  · obtain ⟨frees, owns, shares, -⟩ := others y same
    rw [← List.count_pos_iff, ← count_pos, ← count_pos, frees, owns, shares, List.count_pos_iff,
      count_pos, count_pos] at mem
    exact ledger.in_univ y mem
  · rwa [same]
  · obtain ⟨-, -, shares, counts⟩ := others y same
    rw [counts, shares]
    exact ledger.extra_eq y pool

/-- One more sharer of a shared resource, counted. -/
theorem join (mem : x ∈ shared) :
    Ledger univ free (update extra x (extra x + 1)) excl (x ::ₘ shared) := by
  have pool := ledger.univ_of_shared mem
  have total := ledger.one_state x pool
  have count := ledger.extra_of_shared mem
  refine ledger.moves pool
    (fun y ne => ⟨rfl, rfl, count_cons_of_ne ne _, update_of_ne ne _ _⟩) ?_ ?_
  · rw [count_cons_self]
    omega
  · rw [count_cons_self, update_self]
    omega

end

/-- Taking the head of the pool makes its taker the exclusive owner. -/
theorem take (ledger : Ledger univ (x :: free) extra excl shared) :
    Ledger univ free (update extra x 0) (x ::ₘ excl) shared := by
  have pool := ledger.univ_of_free List.mem_cons_self
  have total := ledger.one_state x pool
  have unshared := count_eq_zero_of_notMem (ledger.not_shared_of_free List.mem_cons_self)
  rw [List.count_cons_self] at total
  refine ledger.moves pool (fun y ne => ⟨(List.count_cons_of_ne ne.symm).symm,
    count_cons_of_ne ne _, rfl, update_of_ne ne _ _⟩) ?_ ?_
  · rw [count_cons_self]
    omega
  · rw [update_self, unshared]

section

variable (ledger : Ledger univ free extra (x ::ₘ excl) shared)

include ledger

/-- An exclusive owner becomes the first sharer; the count does not move. -/
theorem share :
    Ledger univ free extra excl (x ::ₘ shared) := by
  have held : x ∈ x ::ₘ excl := mem_cons_self _ _
  have total := ledger.one_state x (ledger.univ_of_excl held)
  have unshared := count_eq_zero_of_notMem (ledger.not_shared_of_excl held)
  rw [count_cons_self] at total
  refine ledger.moves (ledger.univ_of_excl held) (fun y ne =>
    ⟨rfl, (count_cons_of_ne ne _).symm, count_cons_of_ne ne _, rfl⟩) ?_ ?_
  · rw [count_cons_self]
    omega
  · rw [count_cons_self, ledger.extra_of_excl held, unshared]

/-- An owner's drop returns the resource to the pool. -/
theorem drop_excl :
    Ledger univ (x :: free) extra excl shared := by
  have pool := ledger.univ_of_excl (mem_cons_self _ _)
  have total := ledger.one_state x pool
  rw [count_cons_self] at total
  refine ledger.moves pool (fun y ne =>
    ⟨List.count_cons_of_ne ne.symm, (count_cons_of_ne ne _).symm, rfl, rfl⟩) ?_
    (ledger.extra_eq x pool)
  rw [List.count_cons_self]
  omega

end

section

variable (ledger : Ledger univ free extra excl (x ::ₘ shared))
include ledger

/-- A sharer that is not the last leaves the others and lowers the count. -/
theorem drop_shared (more : 0 < extra x) :
    Ledger univ free (update extra x (extra x - 1)) excl shared := by
  have pool := ledger.univ_of_shared (mem_cons_self _ _)
  have total := ledger.one_state x pool
  have count := ledger.extra_eq x pool
  rw [count_cons_self] at total count
  refine ledger.moves pool (fun y ne => ⟨rfl, rfl, (count_cons_of_ne ne _).symm,
    update_of_ne ne _ _⟩) ?_ ?_
  · omega
  · rw [update_self]
    omega

/-- The last sharer's drop returns the resource to the pool. -/
theorem drop_last (last : extra x = 0) : Ledger univ (x :: free) extra excl shared := by
  have pool := ledger.univ_of_shared (mem_cons_self _ _)
  have total := ledger.one_state x pool
  have count := ledger.extra_eq x pool
  rw [count_cons_self] at total count
  refine ledger.moves pool (fun y ne =>
    ⟨List.count_cons_of_ne ne.symm, rfl, (count_cons_of_ne ne _).symm, rfl⟩) ?_ ?_
  · rw [List.count_cons_self]
    omega
  · omega

end

/-- What its owners have given up is free, if nobody else has taken it. -/
theorem card_le_free {free' : List α} {gone shared' : Multiset α}
    (before : Ledger univ free extra (gone + excl) shared)
    (after : Ledger univ free' extra' excl shared') (fewer : shared' ≤ shared) :
    card gone ≤ free'.length := by
  have back : gone ≤ (free' : Multiset α) := by
    rw [le_iff_count]
    intro x
    by_cases mem : x ∈ gone
    · have held : x ∈ gone + excl := mem_add.2 (.inl mem)
      have once := before.excl_count held
      have unshared := count_eq_zero_of_notMem (before.not_shared_of_excl held)
      have less := count_le_of_le x fewer
      have total := after.one_state x (before.univ_of_excl held)
      have := count_pos.2 mem
      rw [count_add] at once
      rw [coe_count]
      omega
    · rw [count_eq_zero_of_notMem mem]
      exact Nat.zero_le _
  exact card_le_card back

end Ledger

/-! ## Holders spread over an index -/

/-- Two families of holders, or of their numbers, that differ at one index only. -/
theorem sum_change {ι β : Type*} [DecidableEq ι] [AddCommMonoid β] {s : Finset ι} {f g : ι → β}
    {i : ι} (mem : i ∈ s) (agree : ∀ j ∈ s, j ≠ i → g j = f j) :
    ∑ j ∈ s, g j + f i = ∑ j ∈ s, f j + g i := by
  have before := Finset.add_sum_erase s f mem
  have after := Finset.add_sum_erase s g mem
  have rest : ∑ j ∈ s.erase i, g j = ∑ j ∈ s.erase i, f j :=
    Finset.sum_congr rfl fun j h => agree j (Finset.mem_of_mem_erase h) (Finset.ne_of_mem_erase h)
  rw [← before, ← after, rest]
  abel

end Ownership
