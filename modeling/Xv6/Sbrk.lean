import Xv6.ContiguousRun

/-!
# Resizing a process

`sys_sbrk` adds a signed `int` to the size of the process in `uint64` arithmetic.  For a sum
that is not negative the call is exact or refused: the size is the sum and the pages that
stay keep their bytes, or nothing has changed.  For a negative sum the new size wraps around
to a huge one, `uvmdealloc` takes it for a growth and does nothing, and the call reports
success.
-/

namespace Xv6

open Ownership Fallible Machine

/-- An address space that went from `sp` to `sp'`, with the pages present before and after
unchanged and every new page zero. -/
structure Resized (k : Kmem) (sp : Space) (k' : Kmem) (sp' : Space) : Prop where
  kept : ∀ v < userPages, (sp.pagetable.entry v).isSome → (sp'.pagetable.entry v).isSome →
    SameBytes k sp.pagetable k' sp'.pagetable v
  fresh : ∀ v < userPages, sp.pagetable.entry v = none → (sp'.pagetable.entry v).isSome →
    ZeroPage k' sp'.pagetable v

/-- An address space that is as before: size, mappings and contents. -/
structure Untouched (k : Kmem) (sp : Space) (k' : Kmem) (sp' : Space) : Prop where
  sz : sp'.sz = sp.sz
  entries : ∀ v, v * pgsize < maxva → sp'.pagetable.entry v = sp.pagetable.entry v
  bytes : ∀ v < userPages, (sp.pagetable.entry v).isSome →
    SameBytes k sp.pagetable k' sp'.pagetable v

/-- What `sys_sbrk(n)` promises a process with the address space `sp`: the exact change and the
old size, or `-1` and no change. -/
def ExactOrRefused (k : Kmem) (sp : Space) (n : Int) (k' : Kmem) (sp' : Space) (r : Int) : Prop :=
  (r = sp.sz ∧ sp'.sz = sp.sz + n ∧ Resized k sp k' sp') ∨ (r = -1 ∧ Untouched k sp k' sp')

variable {k k' : Kmem} {pt pt' : PageTable} {sp : Space} {excl shared : Multiset Nat} {n : Int}
  {newsz r : Nat}

theorem Resized.refl (k : Kmem) (sp : Space) : Resized k sp k sp := by
  refine ⟨fun v _ _ _ => .refl k sp.pagetable v, fun v _ none some => ?_⟩
  rw [none] at some
  cases some

/-- Growing: the result zero of `uvmalloc` is the failure. -/
theorem uvmalloc_exact (table : UserTable sp.pagetable sp.sz) (grows : sp.sz < newsz)
    (owned : Owned k sp.pagetable excl shared)
    (run : uvmalloc k sp.pagetable sp.sz newsz pteW = .ok (k', pt', r)) :
    (r = newsz ∧ Resized k sp k' ⟨pt', r⟩) ∨ (r = 0 ∧ Untouched k sp k' ⟨pt', sp.sz⟩) := by
  have plain := plainPerm_segment (show pteW ∈ segmentPerms by decide)
  obtain ⟨evolves, grown | ⟨zero, same⟩⟩ :=
    uvmalloc_spec plain table.small table.trapframe run owned
  · obtain ⟨larger, -, fresh, others⟩ := grown
    refine .inl ⟨by omega, evolves.bytes, fun v user none there => ?_⟩
    have new : npages sp.sz ≤ v ∧ v < npages r := by
      by_contra old
      simp only [others v (PageTable.userPage_lt user) old, none] at there
      cases there
    obtain ⟨-, zero, -⟩ := fresh v new.1 new.2
    exact zero
  · refine .inr ⟨zero, rfl, same, fun v user there => evolves.bytes v user there ?_⟩
    rw [same v (PageTable.userPage_lt user)]
    exact there

/-- Shrinking maps no page. -/
theorem uvmdealloc_exact (table : UserTable sp.pagetable sp.sz)
    (owned : Owned k sp.pagetable excl shared)
    (run : uvmdealloc k sp.pagetable sp.sz newsz = .ok (k', pt', r)) :
    r = min sp.sz newsz ∧ Resized k sp k' ⟨pt', r⟩ := by
  obtain ⟨evolves, size, entries⟩ := uvmdealloc_spec table.small run owned
  refine ⟨size, evolves.bytes, fun v user none there => ?_⟩
  have gone : pt'.entry v = Option.none := by
    rw [entries v (PageTable.userPage_lt user), none, ite_self]
  simp only [gone] at there
  cases there

namespace Kernel

variable {s : Kernel} {p : Fin nproc}

/-- The new size as `growproc` computes it, when it does not wrap around. -/
theorem newsz_of_nonneg (small : sp.sz ≤ trapframeVa) (int : n < 2 ^ 31)
    (nonneg : 0 ≤ sp.sz + n) : (((sp.sz + n) % 2 ^ 64).toNat : Int) = sp.sz + n := by
  simp only [trapframeVa, trampolineVa, maxva, pgsize] at small
  omega

section

variable (inv : s.Inv) (space : s.machine.space (.proc p) = some sp)
  (pages : Contiguous sp.pagetable (npages sp.sz))
include inv space pages

/-- `sbrk` that grows. -/
theorem sbrk_grows (int : n < 2 ^ 31) (positive : 0 < n) :
    ∃ s' r sp', s.sbrk p n = .ok (s', r) ∧ s'.machine.space (.proc p) = some sp' ∧
      ExactOrRefused s.machine.kmem sp n s'.machine.kmem sp' r := by
  have table := inv.machine.table _ sp space
  have owned := inv.machine.owned space
  have plain := plainPerm_segment (show pteW ∈ segmentPerms by decide)
  have size := newsz_of_nonneg table.small int (by omega)
  generalize newsz : ((sp.sz + n) % 2 ^ 64).toNat = new at size
  obtain ⟨⟨k, pt, r⟩, grown⟩ := pages.uvmalloc_succeeds new plain table.small owned
  have run : s.machine.uvmalloc (.proc p) new pteW =
      .ok (s.machine.put (.proc p) k (some ⟨pt, if r = 0 then sp.sz else r⟩), r) := by
    unfold Machine.uvmalloc
    rw [get_of_space space]
    simp only [bind, Except.bind, grown]
  unfold sbrk
  rw [get_of_space space]
  simp only [bind, Except.bind, newsz, if_pos positive, run]
  rcases uvmalloc_exact table (by omega) owned grown with ⟨done, resized⟩ | ⟨zero, same⟩
  · have some : r ≠ 0 := by omega
    simp only [if_neg some]
    exact ⟨_, _, _, rfl, put_space _, .inl ⟨rfl, by simp only [done, size], resized⟩⟩
  · simp only [if_pos zero]
    exact ⟨_, _, _, rfl, put_space _, .inr ⟨rfl, same⟩⟩

/-- `sbrk` that shrinks, or means to. -/
theorem sbrk_shrinks (negative : n < 0) :
    ∃ s' sp', s.sbrk p n = .ok (s', sp.sz) ∧ s'.machine.space (.proc p) = some sp' ∧
      sp'.sz = min sp.sz ((sp.sz + n) % 2 ^ 64).toNat ∧
      Resized s.machine.kmem sp s'.machine.kmem sp' := by
  have table := inv.machine.table _ sp space
  have owned := inv.machine.owned space
  obtain ⟨⟨k, pt, r⟩, shrunk⟩ :=
    pages.uvmdealloc_succeeds ((sp.sz + n) % 2 ^ 64).toNat table.small owned
  have run : s.machine.uvmdealloc (.proc p) ((sp.sz + n) % 2 ^ 64).toNat =
      .ok (s.machine.put (.proc p) k (some ⟨pt, r⟩), r) := by
    unfold Machine.uvmdealloc
    rw [get_of_space space]
    simp only [bind, Except.bind, shrunk]
  obtain ⟨size, resized⟩ := uvmdealloc_exact table owned shrunk
  unfold sbrk
  rw [get_of_space space]
  simp only [bind, Except.bind, if_neg (show ¬ 0 < n by omega), if_pos negative, run]
  exact ⟨_, _, rfl, put_space _, size, resized⟩

end

/-- `sbrk` never panics, and it is exact or refused precisely when the amount does not exceed
the size of the process. -/
theorem sbrk_exact_iff (inv : s.Inv) (space : s.machine.space (.proc p) = some sp)
    (pages : Contiguous sp.pagetable (npages sp.sz)) (int : -2 ^ 31 ≤ n ∧ n < 2 ^ 31) :
    ∃ s' r sp', s.sbrk p n = .ok (s', r) ∧ s'.machine.space (.proc p) = some sp' ∧
      (ExactOrRefused s.machine.kmem sp n s'.machine.kmem sp' r ↔ 0 ≤ sp.sz + n) := by
  have small := (inv.machine.table _ sp space).small
  rcases lt_trichotomy n 0 with negative | rfl | positive
  · obtain ⟨s', sp', run, space', size, resized⟩ := sbrk_shrinks inv space pages negative
    refine ⟨s', sp.sz, sp', run, space', ?_, fun fits => ?_⟩
    · rintro (⟨-, exact, -⟩ | ⟨failed, -⟩)
      · omega
      · omega
    · have := newsz_of_nonneg small int.2 fits
      exact .inl ⟨rfl, by omega, resized⟩
  · refine ⟨s, sp.sz, sp, ?_, space, fun _ => by omega, fun _ => ?_⟩
    · unfold sbrk
      rw [get_of_space space]
      rfl
    · exact .inl ⟨rfl, by omega, .refl _ _⟩
  · obtain ⟨s', r, sp', run, space', exact⟩ := sbrk_grows inv space pages int.2 positive
    exact ⟨s', r, sp', run, space', fun _ => by omega, fun _ => exact⟩

/-- The first process, one page large, after boot. -/
theorem booted_page : ∃ (s : Kernel) (sp : Space), s.Booted ∧
    s.machine.space (.proc 0) = some sp ∧ sp.sz = pgsize := by
  have pass : Kernel.boots 24 (fun s =>
      (s.machine.space (.proc 0)).any fun sp => decide (sp.sz = pgsize)) = true := by
    decide +kernel
  obtain ⟨s, booted, test⟩ := Kernel.of_boots pass
  obtain ⟨sp, space, size⟩ := (Option.any_eq_true _ _).1 test
  exact ⟨s, sp, booted, space, of_decide_eq_true size⟩

/-- The first process asks for more than it has back: `sbrk` reports success and the size stays
what it was. -/
theorem sbrk_below_zero : ∃ (s s' : Kernel) (sp sp' : Space), s.Booted ∧
    s.machine.space (.proc 0) = some sp ∧ sp.sz = pgsize ∧
      s.sbrk 0 (-(pgsize + 1)) = .ok (s', pgsize) ∧ s'.machine.space (.proc 0) = some sp' ∧
      sp'.sz = pgsize ∧
      ¬ ExactOrRefused s.machine.kmem sp (-(pgsize + 1)) s'.machine.kmem sp' pgsize := by
  obtain ⟨s, sp, booted, space, size⟩ := booted_page
  have inv := (booted_simulates booted).1
  obtain ⟨s', sp', run, space', size', -⟩ := sbrk_shrinks (n := -(pgsize + 1)) inv space
    (booted_sound booted _ trivial sp space) (by decide)
  rw [size] at run size'
  have same : sp'.sz = pgsize := size'
  refine ⟨s, s', sp, sp', booted, space, size, run, space', same, ?_⟩
  rintro (⟨-, exact, -⟩ | ⟨failed, -⟩)
  · rw [same, size] at exact
    simp only [pgsize] at exact
    omega
  · cases failed

/-- The first process gives its last byte back. -/
theorem sbrk_exact_to_zero : ∃ (s s' : Kernel) (sp sp' : Space) (r : Int), s.Booted ∧
    s.machine.space (.proc 0) = some sp ∧ sp.sz = pgsize ∧ s.sbrk 0 (-pgsize) = .ok (s', r) ∧
      s'.machine.space (.proc 0) = some sp' ∧
      ExactOrRefused s.machine.kmem sp (-pgsize) s'.machine.kmem sp' r := by
  obtain ⟨s, sp, booted, space, size⟩ := booted_page
  obtain ⟨s', r, sp', run, space', exact⟩ :=
    sbrk_exact_iff (n := -pgsize) (booted_simulates booted).1 space
    (booted_sound booted _ trivial sp space) (by decide)
  exact ⟨s, s', sp, sp', r, booted, space, size, run, space', exact.2 (by rw [size]; decide)⟩

end Kernel

end Xv6
