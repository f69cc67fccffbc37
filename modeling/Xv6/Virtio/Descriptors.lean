import Xv6.Virtio.Driver

/-!
# Allocation of descriptors

What the functions on descriptors do, in terms of lists of descriptors that are taken and given
back together: `alloc3_desc` takes three distinct free descriptors or leaves the free ones as they
were, and `free_chain` gives back those of a chain.
-/

namespace Xv6.Virtio.Disk

open List

variable {B : Type} {d : Disk B} {i : Nat} {is : List Nat}

/-- The descriptors are taken. -/
def claim (d : Disk B) (is : List Nat) : Disk B :=
  { d with free := fun i => decide (i ∉ is) && d.free i }

/-- The descriptors are given back. -/
def release (d : Disk B) (is : List Nat) : Disk B :=
  { d with
    desc := fun i => if i ∈ is then ⟨.null, 0, false, false, 0⟩ else d.desc i
    free := fun i => decide (i ∈ is) || d.free i }

theorem claim_nil (d : Disk B) : d.claim [] = d := by
  simp [claim]

theorem release_nil (d : Disk B) : d.release [] = d := by
  simp [release]

theorem release_append (d : Disk B) (is js : List Nat) :
    (d.release is).release js = d.release (is ++ js) := by
  simp only [release, mem_append, Disk.mk.injEq, true_and, and_true]
  constructor
  · funext i
    by_cases left : i ∈ is <;> by_cases right : i ∈ js <;> simp [left, right]
  · funext i
    by_cases left : i ∈ is <;> by_cases right : i ∈ js <;> simp [left, right]

/-- Taken and given back, free descriptors are free. -/
theorem claim_release_free (all : ∀ i ∈ is, d.free i = true) :
    ((d.claim is).release is).free = d.free := by
  funext i
  by_cases mem : i ∈ is
  · simp [release, mem, all i mem]
  · simp [release, claim, mem]

theorem freeDesc_eq (bound : i < num) (taken : d.free i = false) :
    d.freeDesc i = .ok (d.release [i]) := by
  rw [freeDesc, if_neg (by omega), if_neg (by simp [taken])]
  simp only [release, mem_singleton, Except.ok.injEq, Disk.mk.injEq, true_and, and_true]
  constructor
  · funext j
    exact Function.update_apply ..
  · funext j
    rw [Function.update_apply]
    by_cases same : j = i <;> simp [same]

theorem foldlM_freeDesc (distinct : is.Nodup) (all : ∀ i ∈ is, i < num ∧ d.free i = false) :
    is.foldlM freeDesc d = .ok (d.release is) := by
  induction is generalizing d with
  | nil => rw [release_nil]; rfl
  | cons i is ih =>
    obtain ⟨bound, taken⟩ := all i mem_cons_self
    obtain ⟨fresh, distinct⟩ := nodup_cons.1 distinct
    rw [foldlM_cons, freeDesc_eq bound taken]
    refine (ih distinct fun j mem => ?_).trans ?_
    · obtain ⟨bound, taken⟩ := all j (mem_cons_of_mem i mem)
      refine ⟨bound, ?_⟩
      have other : j ≠ i := fun same => fresh (same ▸ mem)
      simp [release, other, taken]
    · rw [release_append]
      rfl

theorem allocDesc_some {d' : Disk B} (some : d.allocDesc = some (i, d')) :
    i < num ∧ d.free i = true ∧ d' = d.claim [i] := by
  rw [allocDesc, Option.map_eq_some_iff] at some
  obtain ⟨j, found, eq⟩ := some
  obtain ⟨rfl, rfl⟩ := Prod.mk.inj eq
  refine ⟨mem_range.1 (mem_of_find?_eq_some found), find?_some found, ?_⟩
  simp only [claim, mem_singleton, Disk.mk.injEq, true_and, and_true]
  funext k
  rw [Function.update_apply]
  by_cases same : k = j <;> simp [same]

theorem claim_append (d : Disk B) (is js : List Nat) :
    (d.claim is).claim js = d.claim (is ++ js) := by
  simp only [claim, mem_append, Disk.mk.injEq, true_and, and_true]
  funext i
  by_cases left : i ∈ is <;> by_cases right : i ∈ js <;> simp [left, right]

/-- Distinct free descriptors. -/
def Spare (d : Disk B) (is : List Nat) : Prop :=
  is.Nodup ∧ ∀ i ∈ is, i < num ∧ d.free i = true

theorem Spare.free (spare : d.Spare is) : ((d.claim is).release is).free = d.free :=
  claim_release_free fun i mem => (spare.2 i mem).2

theorem Spare.snoc (spare : d.Spare is) (bound : i < num) (free : (d.claim is).free i = true) :
    d.Spare (is ++ [i]) := by
  obtain ⟨fresh, free⟩ : i ∉ is ∧ d.free i = true := by simpa [claim] using free
  refine ⟨nodup_append.2 ⟨spare.1, nodup_singleton i, ?_⟩, fun j mem => ?_⟩
  · rintro j mem k last rfl
    rw [mem_singleton.1 last] at mem
    exact fresh mem
  · rcases mem_append.1 mem with old | new
    · exact spare.2 j old
    · rw [mem_singleton.1 new]
      exact ⟨bound, free⟩

/-- The loop of `alloc3_desc`: it takes as many as are missing, or gives back what it has. -/
theorem allocMore_spec (k : Nat) (spare : d.Spare is) :
    (∃ js, allocMore k is (d.claim is) = .ok (some js, d.claim js) ∧ d.Spare js ∧
      js.length = is.length + k) ∨
    ∃ js, allocMore k is (d.claim is) = .ok (none, (d.claim js).release js) ∧ d.Spare js := by
  induction k generalizing is with
  | zero => exact .inl ⟨is, rfl, spare, rfl⟩
  | succ k ih =>
    rw [allocMore]
    cases found : (d.claim is).allocDesc with
    | none =>
      have all (i : Nat) (mem : i ∈ is) : i < num ∧ (d.claim is).free i = false :=
        ⟨(spare.2 i mem).1, by simp [claim, mem]⟩
      refine .inr ⟨is, ?_, spare⟩
      simp only [foldlM_freeDesc spare.1 all]
    | some next =>
      obtain ⟨i, d'⟩ := next
      obtain ⟨bound, free, rfl⟩ := allocDesc_some found
      rw [claim_append]
      have length : (is ++ [i]).length + k = is.length + (k + 1) := by
        rw [length_append, length_singleton]
        omega
      rw [← length]
      exact ih (spare.snoc bound free)

/-- `alloc3_desc` takes three distinct free descriptors, or leaves the free ones as they were. -/
theorem alloc3Desc_spec (d : Disk B) :
    (∃ idx, d.alloc3Desc = .ok (some idx, d.claim idx.toList) ∧ d.Spare idx.toList) ∨
    ∃ is, d.alloc3Desc = .ok (none, (d.claim is).release is) ∧ d.Spare is := by
  have none : d.Spare [] := ⟨nodup_nil, by rintro i ⟨⟩⟩
  have spec := allocMore_spec 3 none
  rw [claim_nil] at spec
  obtain ⟨js, eq, spare, length⟩ | ⟨js, eq, spare⟩ := spec
  · match js, length with
    | [i₀, i₁, i₂], _ => exact .inl ⟨⟨i₀, i₁, i₂⟩, by simp only [alloc3Desc, eq]; rfl, spare⟩
  · exact .inr ⟨js, by simp only [alloc3Desc, eq], spare⟩

/-- The descriptors are chained, and not free. -/
structure Chained (d : Disk B) (idx : Idx) : Prop where
  distinct : idx.toList.Nodup
  taken : ∀ i ∈ idx.toList, i < num ∧ d.free i = false
  first : (d.desc idx.i₀).hasNext = true ∧ (d.desc idx.i₀).next = idx.i₁
  second : (d.desc idx.i₁).hasNext = true ∧ (d.desc idx.i₁).next = idx.i₂
  third : (d.desc idx.i₂).hasNext = false

theorem freeChain_eq {idx : Idx} (chained : d.Chained idx) :
    d.freeChain idx.i₀ = .ok (d.release idx.toList) := by
  obtain ⟨i₀, i₁, i₂⟩ := idx
  obtain ⟨distinct, taken, ⟨more₀, next₀⟩, ⟨more₁, next₁⟩, more₂⟩ := chained
  simp only at more₀ next₀ more₁ next₁ more₂
  have apart : i₀ ≠ i₁ ∧ i₀ ≠ i₂ ∧ i₁ ≠ i₂ := by
    simpa [Idx.toList, and_assoc] using distinct
  obtain ⟨apart₁, apart₂, apart₃⟩ := apart
  have take (i : Nat) (mem : i ∈ [i₀, i₁, i₂]) := taken i mem
  have free₀ := freeDesc_eq (take i₀ (by simp)).1 (take i₀ (by simp)).2
  have free₁ : (d.release [i₀]).freeDesc i₁ = .ok (d.release [i₀, i₁]) := by
    rw [freeDesc_eq (take i₁ (by simp)).1 (by simp [release, apart₁.symm, (take i₁ (by simp)).2]),
      release_append]
    rfl
  have free₂ : (d.release [i₀, i₁]).freeDesc i₂ = .ok (d.release [i₀, i₁, i₂]) := by
    rw [freeDesc_eq (take i₂ (by simp)).1
      (by simp [release, apart₂.symm, apart₃.symm, (take i₂ (by simp)).2]), release_append]
    rfl
  have desc₁ : (d.release [i₀]).desc i₁ = d.desc i₁ := by simp [release, apart₁.symm]
  have desc₂ : (d.release [i₀, i₁]).desc i₂ = d.desc i₂ := by
    simp [release, apart₂.symm, apart₃.symm]
  change freeChainFrom 9 d i₀ = .ok (d.release [i₀, i₁, i₂])
  rw [freeChainFrom]
  simp only [free₀, more₀, next₀, if_true]
  rw [freeChainFrom]
  simp only [desc₁, free₁, more₁, next₁, if_true]
  rw [freeChainFrom]
  simp only [desc₂, free₂, more₂, Bool.false_eq_true, if_false]

end Xv6.Virtio.Disk
