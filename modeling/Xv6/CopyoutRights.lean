import Xv6.DupPg
import Xv6.PageAccounting
import Xv6.Shows

/-!
# Which pages copyout writes to

`copyout` takes its permissions from `dup_pg`, which refuses the page at address zero and lets
every entry without the mark pass, and from `walkaddr`, which asks for `PTE_V` and `PTE_U` only.
So it writes to read-only pages, and not to a writable first page.
-/

namespace Xv6

open Ownership Fallible PageTable Machine Finset

variable {k k' : Kmem} {pt pt' : PageTable} {excl shared : Multiset Nat} {v w sz dstva len : Nat}
  {src : List UInt8}

/-- The pages of `[dstva, dstva + len)`. -/
def touched (dstva len : Nat) : Finset Nat :=
  (Finset.range len).image fun i => (dstva + i) / pgsize

/-- A page that the user may write to, at once or after a copy. -/
def Accessible (pt : PageTable) (v : Nat) : Prop :=
  Opened pt v ∧ ((pt.leaf v).has pteW = true ∨ (pt.leaf v).has pteCow = true)

instance : Decidable (Accessible pt v) := inferInstanceAs (Decidable (_ ∧ _))

/-- A page that `copyout` writes to, with memory for a copy if it needs one. -/
def Grants (k : Kmem) (pt : PageTable) (v : Nat) : Prop :=
  v ≠ 0 ∧ Opened pt v ∧ ((pt.leaf v).has pteCow = true → k.freelist ≠ [])

/-- The free pages that `dup_pg` uses up for a page: one, if another sharer keeps the marked
page. -/
def spent (k : Kmem) (pt : PageTable) (v : Nat) : Nat :=
  if (pt.leaf v).has pteCow = true ∧ 0 < k.refs (pte2pa (pt.leaf v)) then 1 else 0

/-- A page that `copyout` writes to after it has written to page `u`. -/
def GrantsAfter (k : Kmem) (pt : PageTable) (u v : Nat) : Prop :=
  v ≠ 0 ∧ Opened pt v ∧ ((pt.leaf v).has pteCow = true → v = u ∨ spent k pt u < k.freelist.length)

instance : Decidable (Grants k pt v) := inferInstanceAs (Decidable (_ ∧ _ ∧ (_ → _)))

instance : Decidable (GrantsAfter k pt w v) := inferInstanceAs (Decidable (_ ∧ _ ∧ (_ → _)))

/-- Page `v` has been made writable. -/
structure Readied (k : Kmem) (pt : PageTable) (v : Nat) (k' : Kmem) (pt' : PageTable) : Prop where
  opened : ∀ w, Opened pt' w ↔ Opened pt w
  cow : ∀ w, w * pgsize < maxva →
    ((pt'.leaf w).has pteCow = true ↔ (pt.leaf w).has pteCow = true ∧ w ≠ v)
  free : k'.freelist.length + spent k pt v = k.freelist.length

theorem spent_le (k : Kmem) (pt : PageTable) (v : Nat) : spent k pt v ≤ 1 := by
  unfold spent
  split_ifs <;> omega

theorem Readied.grants (ready : Readied k pt v k' pt') :
    Grants k' pt' w ↔ GrantsAfter k pt v w := by
  have free := ready.free
  refine and_congr_right fun _ => ?_
  rw [ready.opened]
  refine and_congr_right fun opened => ?_
  rw [ready.cow w opened.1, ← List.length_pos_iff]
  constructor
  · intro room cow
    by_cases same : w = v
    · exact .inl same
    · have := room ⟨cow, same⟩
      exact .inr (by omega)
  · rintro room ⟨cow, other⟩
    have := (room cow).resolve_left other
    omega

/-- The pages of a range that `copyout` has to copy. -/
def marked (pt : PageTable) (dstva len : Nat) : Finset Nat :=
  (touched dstva len).filter fun v => v * pgsize < maxva ∧ (pt.leaf v).has pteCow = true

theorem mem_touched :
    v ∈ touched dstva len ↔ ∃ a, dstva ≤ a ∧ a < dstva + len ∧ a / pgsize = v := by
  simp only [touched, mem_image, mem_range]
  constructor
  · rintro ⟨i, lt, rfl⟩
    exact ⟨dstva + i, by omega, by omega, rfl⟩
  · rintro ⟨a, low, high, rfl⟩
    exact ⟨a - dstva, by omega, by rw [Nat.add_sub_cancel' low]⟩

theorem touched_zero : touched dstva 0 = ∅ := rfl

/-- The first page of a range, and the rest of it. -/
theorem touched_split (dstva : Nat) (some : len ≠ 0) :
    touched dstva len = insert (dstva / pgsize) (touched ((dstva / pgsize + 1) * pgsize)
      (len - min (pgsize - dstva % pgsize) len)) ∧
    dstva / pgsize ∉ touched ((dstva / pgsize + 1) * pgsize)
      (len - min (pgsize - dstva % pgsize) len) := by
  have split := Nat.div_add_mod dstva pgsize
  constructor
  · ext v
    rw [mem_insert, mem_touched, mem_touched]
    constructor
    · rintro ⟨a, low, high, rfl⟩
      simp only [pgsize] at *
      rcases Nat.lt_or_ge a ((dstva / 4096 + 1) * 4096) with first | later
      · left
        omega
      · exact .inr ⟨a, later, by omega, rfl⟩
    · rintro (rfl | ⟨a, low, high, rfl⟩)
      · exact ⟨dstva, le_rfl, by omega, rfl⟩
      · simp only [pgsize] at *
        exact ⟨a, by omega, by omega, rfl⟩
  · rw [mem_touched]
    rintro ⟨a, low, -, same⟩
    simp only [pgsize] at *
    omega

/-- The result of `walkaddr` at the start of a page. -/
theorem walkaddr_page (pt : PageTable) (v : Nat) :
    walkaddr pt (v * pgsize) = .ok (if Opened pt v then pte2pa (pt.leaf v) else 0) := by
  rw [walkaddr_eq, page_div]

/-! ## One page -/

section page

variable {r : Int}

/-- Memory for the pages still to be copied. -/
theorem Readied.room {rest : Finset Nat} (ready : Readied k pt v k' pt') (apart : v ∉ rest)
    (room : ((insert v rest).filter fun w => w * pgsize < maxva ∧
      (pt.leaf w).has pteCow = true).card ≤ k.freelist.length) (below : v * pgsize < maxva) :
    (rest.filter fun w => w * pgsize < maxva ∧ (pt'.leaf w).has pteCow = true).card ≤
      k'.freelist.length := by
  have same : (rest.filter fun w => w * pgsize < maxva ∧ (pt'.leaf w).has pteCow = true) =
      rest.filter fun w => w * pgsize < maxva ∧ (pt.leaf w).has pteCow = true := by
    refine filter_congr fun w mem => and_congr_right fun lt => (ready.cow w lt).trans ?_
    exact and_iff_left fun eq => apart (eq ▸ mem)
  have free := ready.free
  rw [same]
  by_cases cow : (pt.leaf v).has pteCow = true
  · have few := spent_le k pt v
    rw [filter_insert, if_pos ⟨below, cow⟩, card_insert_of_notMem] at room
    · omega
    · exact fun mem => apart (mem_filter.1 mem).1
  · rw [filter_insert, if_neg fun both => cow both.2] at room
    rw [spent, if_neg fun both => cow both.1] at free
    omega

variable (table : UserTable pt sz) (owned : Owned k pt excl shared)
include table owned

/-- `dup_pg` makes a private copy of a marked page. -/
theorem copied_readies {e : Pte} {k₁ : Kmem} {newpa : Nat} (below : v * pgsize < maxva)
    (mapped : pt.entry v = some e) (cow : e.has pteCow = true) (user : e.has pteU = true)
    (alloc : kalloc k = (k₁, some newpa))
    (freed : kfree { k₁ with mem := memmove k₁.mem newpa (pte2pa e) pgsize } (pte2pa e) = .ok k') :
    Readied k pt v k' (pt.store (v * pgsize) (dupEntry newpa)) := by
  obtain ⟨leaf, valid⟩ := entry_eq_some.1 mapped
  have opened : Opened pt v := ⟨below, by rw [leaf, valid], by rw [leaf, user]⟩
  have leaves (w : Nat) (lt : w * pgsize < maxva) :
      (pt.store (v * pgsize) (dupEntry newpa)).leaf w =
        if w = v then dupEntry newpa else pt.leaf w :=
    leaf_store _ below lt (lookup_isSome mapped)
  refine ⟨fun w => ?_, fun w lt => ?_, ?_⟩
  · refine and_congr_right fun lt => ?_
    rw [leaves w lt]
    split_ifs with here
    · subst here
      exact iff_of_true ⟨dupEntry_valid newpa, (dupEntry_writable newpa).1⟩ opened.2
    · rfl
  · rw [leaves w lt]
    split_ifs with here
    · simp [here, dupEntry_plain newpa]
    · exact (and_iff_left here).symm
  · -- the page goes back to the free list exactly when its count is zero, and taking the new
    -- page does not change the count
    have length := kalloc_length alloc
    obtain ⟨taken, framed, -⟩ := kalloc_some owned alloc
    have page : k.IsPage (pte2pa e) := by
      rw [← leaf]
      exact owned.isPage_leaf (opened.user table).1 opened.2.1
    have page₁ : k₁.IsPage (pte2pa e) := by rwa [framed.isPage]
    have refs : k₁.refs (pte2pa e) = k.refs (pte2pa e) := by
      rw [taken.extra_eq _ page₁, Ledger.extra_eq owned _ page]
    rw [kfree_inRange (by exact page₁)] at freed
    rw [spent, leaf, cow]
    split_ifs at freed with more
    · cases freed
      rw [if_pos ⟨rfl, by rw [← refs]; exact more⟩]
      exact length.symm
    · cases freed
      rw [if_neg fun both => more (by rw [← refs] at both; exact both.2)]
      exact length.symm

/-- What `dup_pg` and `walkaddr` make of a page together. -/
theorem dupPg_opens (kernel : 0 < k.kend) (dup : dupPg k pt (v * pgsize) = .ok (k', pt', r)) :
    (¬Grants k pt v ∧ k' = k ∧ pt' = pt ∧ (r < 0 ∨ r = 0 ∧ walkaddr pt (v * pgsize) = .ok 0)) ∨
    (Grants k pt v ∧ r = 0 ∧ Readied k pt v k' pt' ∧
      ∃ pa ≠ 0, walkaddr pt' (v * pgsize) = .ok pa) := by
  obtain ⟨evolves, table', -, -⟩ := dupPg_keeps table dup owned
  have found (opened : Opened pt' v) : ∃ pa ≠ 0, walkaddr pt' (v * pgsize) = .ok pa := by
    have low := (evolves.owned.isPage_leaf (opened.user table').1 opened.2.1).2.1
    rw [evolves.framed.kend] at low
    exact ⟨pte2pa (pt'.leaf v), by omega, by rw [walkaddr_page, if_pos opened]⟩
  have nonzero (accepted : ¬Refused pt (v * pgsize)) : v ≠ 0 := by
    rintro rfl
    exact accepted (.inl (Nat.zero_mul _))
  cases dupPg_ends dup with
  | refused closed =>
    refine .inl ⟨?_, rfl, rfl, .inl (by decide)⟩
    rintro ⟨nonzero, ⟨below, valid, user⟩, -⟩
    rcases closed with zero | above | absent | ⟨-, closed⟩
    · exact nonzero ((Nat.mul_eq_zero.1 zero).resolve_right (by decide))
    · omega
    · rw [leaf, absent] at valid
      exact absurd valid (by decide)
    · rw [page_div, valid, user] at closed
      simp at closed
  | plain accepted plain =>
    rw [page_div] at plain
    by_cases opened : Opened pt v
    · refine .inr ⟨⟨nonzero accepted, opened, fun cow => absurd cow (by simp [plain])⟩, rfl,
        ⟨fun _ => .rfl, fun w _ => ⟨fun cow => ⟨cow, ?_⟩, And.left⟩, ?_⟩, found opened⟩
      · rintro rfl
        rw [plain] at cow
        cases cow
      · rw [spent, if_neg (by simp [plain]), Nat.add_zero]
    · exact .inl ⟨fun grants => opened grants.2.1, rfl, rfl,
        .inr ⟨rfl, by rw [walkaddr_page, if_neg opened]⟩⟩
  | empty _ cow empty =>
    rw [page_div] at cow
    exact .inl ⟨fun grants => grants.2.2 cow empty, rfl, rfl, .inl (by decide)⟩
  | copied accepted mapped cow user alloc freed =>
    rw [page_div] at mapped
    obtain ⟨leaf, valid⟩ := entry_eq_some.1 mapped
    have below := (accepted_lt accepted).2
    have ready := copied_readies table owned below mapped cow user alloc freed
    have opened : Opened pt v := ⟨below, by rw [leaf, valid], by rw [leaf, user]⟩
    exact .inr ⟨⟨nonzero accepted, opened, fun _ => kalloc_nonempty alloc⟩, rfl, ready,
      found ((ready.opened v).2 opened)⟩

/-- The first round of `copyout` stores something exactly when it has a page to write to. -/
theorem copied_pos (kernel : 0 < k.kend) (some : src.length ≠ 0) :
    0 < copied k pt dstva src ↔ Grants k pt (dstva / pgsize) := by
  obtain ⟨fuel, len⟩ := Nat.exists_eq_add_one_of_ne_zero some
  obtain ⟨k₁, pt₁, r₁, dup⟩ := dupPg_total table owned (dstva / pgsize * pgsize)
  rw [copied, len, copiedLoop, if_neg some]
  simp only [pgrounddown, dup]
  rcases dupPg_opens table owned kernel dup with
    ⟨closed, rfl, rfl, negative | ⟨rfl, addr⟩⟩ | ⟨grants, rfl, -, pa, found, addr⟩
  · rw [if_pos negative]
    exact iff_of_false (Nat.lt_irrefl 0) closed
  · simp only [addr, if_true, ite_self]
    exact iff_of_false (Nat.lt_irrefl 0) closed
  · have room := Nat.div_add_mod dstva pgsize
    have small : dstva % pgsize < pgsize := Nat.mod_lt _ (by decide)
    rw [Nat.mul_comm] at room
    simp only [addr, if_neg found, Int.lt_irrefl, if_false]
    exact iff_of_true (by omega) grants

end page

/-! ## The loop -/

section

variable (fuel : Nat) (table : UserTable pt sz) (owned : Owned k pt excl shared)

include fuel table owned

/-- One turn of the loop: it stops at a page that it does not write to, and goes on after one that
it does. -/
theorem copyoutLoop_step (kernel : 0 < k.kend) (dstva : Nat) (some : src.length ≠ 0) :
    (¬Grants k pt (dstva / pgsize) ∧ copyoutLoop (fuel + 1) k pt dstva src = .ok (k, pt, -1)) ∨
    (Grants k pt (dstva / pgsize) ∧ ∃ k₁ pt₁, Readied k pt (dstva / pgsize) k₁ pt₁ ∧
      UserTable pt₁ sz ∧ Owned k₁ pt₁ excl shared ∧ k₁.kend = k.kend ∧
      copyoutLoop (fuel + 1) k pt dstva src =
        copyoutLoop fuel k₁ pt₁ ((dstva / pgsize + 1) * pgsize)
          (src.drop (min (pgsize - dstva % pgsize) src.length))) := by
  obtain ⟨k₁, pt₁, r₁, dup⟩ := dupPg_total table owned (dstva / pgsize * pgsize)
  obtain ⟨evolves, table₁, -⟩ := dupPg_keeps table dup owned
  have offset : dstva - dstva / pgsize * pgsize = dstva % pgsize := by
    have := Nat.div_add_mod dstva pgsize
    rw [Nat.mul_comm]
    omega
  rcases dupPg_opens table owned kernel dup with
    ⟨closed, rfl, rfl, stops⟩ | ⟨grants, rfl, ready, pa, found, addr⟩
  · refine .inl ⟨closed, ?_⟩
    rw [copyoutLoop, if_neg some]
    simp only [pgrounddown, dup, bind, Except.bind]
    rcases stops with negative | ⟨rfl, addr⟩
    · rw [if_pos negative]
    · simp only [addr, if_true, ite_self]
  · refine .inr ⟨grants, { k₁ with
        mem := memput k₁.mem (pa + dstva % pgsize)
          (src.take (min (pgsize - dstva % pgsize) src.length)) }, pt₁,
      ⟨ready.opened, ready.cow, ready.free⟩, table₁, evolves.owned.setMem _,
      evolves.framed.kend, ?_⟩
    rw [copyoutLoop, if_neg some, Nat.succ_mul]
    simp only [pgrounddown, dup, addr, bind, Except.bind, offset]
    rw [if_neg (by decide), if_neg found]

/-- With memory for the pages to copy, the loop returns zero exactly when all pages are open to
the user and none is the first. -/
theorem copyoutLoop_result (kernel : 0 < k.kend) (enough : src.length ≤ fuel)
    (room : (marked pt dstva src.length).card ≤ k.freelist.length) :
    ∃ k' pt' r, copyoutLoop fuel k pt dstva src = .ok (k', pt', r) ∧
      (r = 0 ↔ ∀ v ∈ touched dstva src.length, v ≠ 0 ∧ Opened pt v) := by
  induction fuel generalizing k pt dstva src with
  | zero =>
    have empty : src.length = 0 := by omega
    rw [empty, touched_zero]
    exact ⟨k, pt, 0, rfl, by simp⟩
  | succ fuel ih =>
    by_cases empty : src.length = 0
    · rw [empty, touched_zero, copyoutLoop, if_pos empty]
      exact ⟨k, pt, 0, rfl, by simp⟩
    · obtain ⟨split, apart⟩ := touched_split dstva empty
      rw [marked, split] at room
      rw [split, forall_mem_insert]
      have opens (both : dstva / pgsize ≠ 0 ∧ Opened pt (dstva / pgsize)) :
          Grants k pt (dstva / pgsize) := by
        refine ⟨both.1, both.2, fun cow none => ?_⟩
        rw [none, List.length_nil, Nat.le_zero, card_eq_zero] at room
        exact filter_eq_empty_iff.1 room (mem_insert_self _ _) ⟨both.2.1, cow⟩
      rcases copyoutLoop_step fuel table owned kernel dstva empty with
        ⟨closed, run⟩ | ⟨grants, k₁, pt₁, ready, table₁, owned₁, kend, run⟩
      · exact ⟨k, pt, -1, run, iff_of_false (by decide) fun all => closed (opens all.1)⟩
      · have small : dstva % pgsize < pgsize := Nat.mod_lt _ (by decide)
        obtain ⟨k', pt', r, last, result⟩ := @ih k₁ pt₁ ((dstva / pgsize + 1) * pgsize)
          (src.drop (min (pgsize - dstva % pgsize) src.length)) table₁ owned₁
          (by rw [kend]; exact kernel) (by rw [List.length_drop]; omega)
          (by rw [List.length_drop]; exact ready.room apart room grants.2.1.1)
        refine ⟨k', pt', r, run.trans last, result.trans ?_⟩
        rw [List.length_drop, and_iff_right ⟨grants.1, grants.2.1⟩]
        exact forall₂_congr fun w _ => and_congr_right fun _ => ready.opened w

/-- A copy that touches at most two pages, by its result. -/
theorem copyoutLoop_short (kernel : 0 < k.kend) (dstva : Nat) (enough : src.length ≤ fuel)
    (some : src.length ≠ 0) (short : src.length ≤ pgsize) :
    ∃ k' pt' r, copyoutLoop fuel k pt dstva src = .ok (k', pt', r) ∧
      (∀ w, Opened pt' w ↔ Opened pt w) ∧ k.freelist.length ≤ k'.freelist.length + 2 ∧
      ((¬Grants k pt (dstva / pgsize) ∧ r = -1 ∧ k' = k ∧ pt' = pt) ∨
      (Grants k pt (dstva / pgsize) ∧ r = -1 ∧ Readied k pt (dstva / pgsize) k' pt' ∧
        ¬GrantsAfter k pt (dstva / pgsize) ((dstva + src.length - 1) / pgsize)) ∨
      (Grants k pt (dstva / pgsize) ∧ r = 0 ∧
        GrantsAfter k pt (dstva / pgsize) ((dstva + src.length - 1) / pgsize))) := by
  obtain ⟨fuel, rfl⟩ := Nat.exists_eq_add_one_of_ne_zero (show fuel ≠ 0 by omega)
  have place := Nat.div_add_mod dstva pgsize
  have small : dstva % pgsize < pgsize := Nat.mod_lt _ (by decide)
  rcases copyoutLoop_step fuel table owned kernel dstva some with
    ⟨closed, run⟩ | ⟨grants, k₁, pt₁, ready, table₁, owned₁, kend, run⟩
  · exact ⟨k, pt, -1, run, fun _ => .rfl, Nat.le_add_right _ _, .inl ⟨closed, rfl, rfl, rfl⟩⟩
  · have free := ready.free
    have few := spent_le k pt (dstva / pgsize)
    by_cases one : dstva % pgsize + src.length ≤ pgsize
    · have last : (dstva + src.length - 1) / pgsize = dstva / pgsize := by
        simp only [pgsize] at *
        omega
      rw [List.drop_of_length_le (by omega)] at run
      refine ⟨k₁, pt₁, 0, run.trans ?_, ready.opened, by omega, .inr (.inr ⟨grants, rfl, ?_⟩)⟩
      · cases fuel <;> simp [copyoutLoop]
      · rw [last]
        exact ⟨grants.1, grants.2.1, fun _ => .inl rfl⟩
    · have last : (dstva + src.length - 1) / pgsize = dstva / pgsize + 1 := by
        simp only [pgsize] at *
        omega
      obtain ⟨fuel, rfl⟩ := Nat.exists_eq_add_one_of_ne_zero (show fuel ≠ 0 by omega)
      have page : (dstva / pgsize + 1) * pgsize / pgsize = dstva / pgsize + 1 := page_div _
      have more : (src.drop (min (pgsize - dstva % pgsize) src.length)).length ≠ 0 := by
        rw [List.length_drop]
        omega
      have step := copyoutLoop_step fuel table₁ owned₁ (kend ▸ kernel)
        ((dstva / pgsize + 1) * pgsize) more
      rw [last, ← ready.grants]
      rw [page] at step
      rcases step with ⟨closed, stop⟩ | ⟨grants₁, k₂, pt₂, ready₁, -, -, -, next⟩
      · exact ⟨k₁, pt₁, -1, run.trans stop, ready.opened, by omega,
          .inr (.inl ⟨grants, rfl, ready, closed⟩)⟩
      · have free₁ := ready₁.free
        have few₁ := spent_le k₁ pt₁ (dstva / pgsize + 1)
        refine ⟨k₂, pt₂, 0, (run.trans next).trans ?_,
          fun w => (ready₁.opened w).trans (ready.opened w), by omega,
          .inr (.inr ⟨grants, rfl, grants₁⟩)⟩
        rw [List.drop_of_length_le]
        · cases fuel <;> simp [copyoutLoop]
        · rw [List.length_drop, Nat.mul_mod_left]
          omega

/-- `copyout` does not panic on the page table of a process. -/
theorem copyoutLoop_total (dstva : Nat) (src : List UInt8) :
    ∃ k' pt' r, copyoutLoop fuel k pt dstva src = .ok (k', pt', r) := by
  induction fuel generalizing k pt dstva src with
  | zero => exact ⟨_, _, _, rfl⟩
  | succ fuel ih =>
    unfold copyoutLoop
    obtain ⟨k₁, pt₁, r₁, dup⟩ := dupPg_total table owned (dstva / pgsize * pgsize)
    obtain ⟨evolves, table₁, -⟩ := dupPg_keeps table dup owned
    obtain ⟨pa, addr⟩ := walkaddr_total pt₁ (dstva / pgsize * pgsize)
    simp only [pgrounddown, dup, addr, bind, Except.bind]
    split_ifs
    · exact ⟨_, _, _, rfl⟩
    · exact ⟨_, _, _, rfl⟩
    · exact ⟨_, _, _, rfl⟩
    · exact ih table₁ (evolves.owned.setMem _) _ _

end

/-! ## The contract -/

namespace Machine

variable {m m' : Machine} {id : SpaceId} {sp : Space} {r : Int}

/-- The bytes are in their place, and all others of all address spaces are as they were. -/
def Written (m m' : Machine) (id : SpaceId) (dstva : Nat) (src : List UInt8) : Prop :=
  ∀ j sp, m.space j = some sp → ∃ sp', m'.space j = some sp' ∧ sp'.sz = sp.sz ∧
    ∀ a, a / pgsize < userPages → (sp.pagetable.entry (a / pgsize)).isSome →
      (sp'.pagetable.entry (a / pgsize)).isSome ∧ shown m'.kmem sp'.pagetable a =
        if j = id ∧ dstva ≤ a ∧ a < dstva + src.length then src.getD (a - dstva) 0
        else shown m.kmem sp.pagetable a

/-- What is asked of a call of `copyout` with result `r`. -/
def CopyoutContract (m m' : Machine) (id : SpaceId) (pt : PageTable) (dstva : Nat)
    (src : List UInt8) (r : Int) : Prop :=
  (r = 0 ↔ ∀ v ∈ touched dstva src.length, Accessible pt v) ∧
  ((∀ v ∈ touched dstva src.length, Accessible pt v) → m.Written m' id dstva src)

/-- When all pages are open to the user: the first page is among them exactly when one of them is
not to be written to. -/
def Coincides (pt : PageTable) (dstva len : Nat) : Prop :=
  (∀ v ∈ touched dstva len, Opened pt v) →
    (0 ∈ touched dstva len ↔
      ∃ v ∈ touched dstva len, (pt.leaf v).has pteW = false ∧ (pt.leaf v).has pteCow = false)

instance : Decidable (Coincides pt dstva len) := by
  unfold Coincides
  infer_instance

section

variable (inv : m.Inv) (space : m.space id = some sp)
include inv space

theorem copyout_written {k : Kmem} {pt : PageTable} {n : Nat} (le : n ≤ src.length)
    (copied : CopiedOut m.kmem sp.pagetable k pt dstva src n sp.sz
      (m.exclOf (all.erase id)) (m.sharedOf (all.erase id))) :
    m.Written (m.put id k (some ⟨pt, sp.sz⟩)) id dstva (src.take n) := by
  have touches := inv.touches copied.owned copied.framed copied.table
  intro j spj spaceJ
  by_cases here : j = id
  · subst here
    rw [space] at spaceJ
    cases spaceJ
    refine ⟨_, put_space _, rfl, fun a user mapped => ⟨?_, ?_⟩⟩
    · rw [copied.mapped _ user]
      exact mapped
    · simp only [true_and, List.length_take, Nat.min_eq_left le]
      refine (copied.bytes a user mapped).trans ?_
      split_ifs with inside
      · rw [List.getD_eq_getElem?_getD, List.getD_eq_getElem?_getD,
          List.getElem?_take_of_lt (by omega)]
      · rfl
  · refine ⟨spj, ?_, rfl, fun a user mapped => ⟨mapped, ?_⟩⟩
    · rw [put_other _ here]
      exact spaceJ
    · rw [if_neg fun both => here both.1]
      exact shown_of_sameBytes (touches.bytes j here spj spaceJ _ user mapped)

/-- `copyout` to an address space: it writes a prefix of the bytes, which is empty when the first
page is not one to write to. -/
theorem copyout_spec (kernel : 0 < m.kmem.kend) (dstva : Nat) (some : src ≠ []) :
    ∃ m' r n, m.copyout id dstva src = .ok (m', r) ∧ m'.Inv ∧ m'.kmem.kend = m.kmem.kend ∧
      n ≤ src.length ∧ m.Written m' id dstva (src.take n) ∧
      (0 < n ↔ Grants m.kmem sp.pagetable (dstva / pgsize)) ∧
      (r = 0 ∧ n = src.length ∨ r = -1) := by
  have table := inv.table id sp space
  have owned := inv.owned space
  obtain ⟨k, pt, r, run⟩ := copyoutLoop_total src.length table owned dstva src
  obtain ⟨n, le, copied, ended, count⟩ := copyoutLoop_spec table le_rfl run owned
  refine ⟨m.put id k (.some ⟨pt, sp.sz⟩), r, n, ?_, ?_, copied.framed.kend, le,
    copyout_written inv space le copied, ?_, ended⟩
  · simp only [copyout, get, space, bind, Except.bind, Xv6.copyout, run]
  · exact (inv.touches copied.owned copied.framed copied.table).inv
  · rw [count]
    exact copied_pos table owned kernel fun empty => some (List.length_eq_zero_iff.1 empty)

end

/-- With memory for the pages to copy, `copyout` returns, and it respects the write permission of
the user exactly if the first page is touched just when a page that is not to be written to is. -/
theorem copyout_contract_iff (inv : m.Inv) (space : m.space id = some sp)
    (kernel : kernbase ≤ m.kmem.kend)
    (room : (marked sp.pagetable dstva src.length).card ≤ m.kmem.freelist.length) :
    ∃ m' r, m.copyout id dstva src = .ok (m', r) ∧
      (m.CopyoutContract m' id sp.pagetable dstva src r ↔
        Coincides sp.pagetable dstva src.length) := by
  have table := inv.table id sp space
  obtain ⟨k, pt, r, run, result⟩ := copyoutLoop_result src.length table
    (inv.owned space) (lt_of_lt_of_le (by decide) kernel) le_rfl room
  obtain ⟨n, -, copied, ended, -⟩ := copyoutLoop_spec table le_rfl run (inv.owned space)
  have written (zero : r = 0) : m.Written (m.put id k (some ⟨pt, sp.sz⟩)) id dstva src := by
    rcases ended with ⟨-, rfl⟩ | minus
    · have written := copyout_written inv space le_rfl copied
      rwa [List.take_length] at written
    · omega
  refine ⟨m.put id k (some ⟨pt, sp.sz⟩), r, ?_, ?_⟩
  · simp only [copyout, get, space, bind, Except.bind, Xv6.copyout, run]
  -- both sides say when "open and not the first page" and "open and writable" agree on the range
  have all_iff : (∀ v ∈ touched dstva src.length, v ≠ 0 ∧ Opened sp.pagetable v) ↔
      (0 ∉ touched dstva src.length ∧ ∀ v ∈ touched dstva src.length, Opened sp.pagetable v) := by
    constructor
    · exact fun all => ⟨fun mem => (all 0 mem).1 rfl, fun v mem => (all v mem).2⟩
    · rintro ⟨none, opened⟩ v mem
      refine ⟨?_, opened v mem⟩
      rintro rfl
      exact none mem
  have acc_iff : (∀ v ∈ touched dstva src.length, Accessible sp.pagetable v) ↔
      ((¬∃ v ∈ touched dstva src.length, (sp.pagetable.leaf v).has pteW = false ∧
        (sp.pagetable.leaf v).has pteCow = false) ∧
      ∀ v ∈ touched dstva src.length, Opened sp.pagetable v) := by
    constructor
    · refine fun all => ⟨?_, fun v mem => (all v mem).1⟩
      rintro ⟨v, mem, plain, whole⟩
      rcases (all v mem).2 with writable | cow
      · rw [plain] at writable
        cases writable
      · rw [whole] at cow
        cases cow
    · rintro ⟨none, opened⟩ v mem
      refine ⟨opened v mem, ?_⟩
      by_contra neither
      rw [not_or, Bool.not_eq_true, Bool.not_eq_true] at neither
      exact none ⟨v, mem, neither⟩
  rw [all_iff] at result
  unfold CopyoutContract Coincides
  rw [acc_iff, result]
  constructor
  · rintro ⟨same, -⟩ opened
    exact not_iff_not.1 ⟨fun none => (same.1 ⟨none, opened⟩).1,
      fun none => (same.2 ⟨none, opened⟩).1⟩
  · intro agree
    refine ⟨⟨fun both => ⟨fun some => both.1 ((agree both.2).2 some), both.2⟩,
      fun both => ⟨fun first => both.1 ((agree both.2).1 first), both.2⟩⟩, fun both => ?_⟩
    exact written (result.2 ⟨fun first => both.1 ((agree both.2).1 first), both.2⟩)

end Machine

/-- A process with two writable pages, forked. -/
def growForkCalls : List Call :=
  [.kalloc, .procPagetable (.proc 0) (phystop - pgsize), .uvmalloc (.proc 0) (2 * pgsize) pteW,
    .kalloc, .procPagetable (.proc 1) (phystop - 9 * pgsize), .uvmcowpy (.proc 0) (.proc 1)]

/-- Two bytes for the child, on its second page. -/
theorem copyout_contract_forked : ∃ m m' : Machine, ∃ sp r,
    m.Inv ∧ m.space (.proc 1) = some sp ∧
    m.copyout (.proc 1) (pgsize + 10) [1, 2] = .ok (m', r) ∧
    m.CopyoutContract m' (.proc 1) sp.pagetable (pgsize + 10) [1, 2] r := by
  have pass : yields (kinit (phystop - 16 * pgsize) kernbase fun _ => 0) (fun k =>
      yields ((boot k).calls growForkCalls) fun m =>
        (m.space (.proc 1)).any fun sp => decide (kernbase ≤ m.kmem.kend ∧
          (marked sp.pagetable (pgsize + 10) 2).card ≤ m.kmem.freelist.length ∧
          Coincides sp.pagetable (pgsize + 10) 2)) = true := by
    decide +kernel
  obtain ⟨k, init, test⟩ := of_yields pass
  obtain ⟨m, calls, test⟩ := of_yields test
  obtain ⟨sp, space, test⟩ := (Option.any_eq_true _ _).1 test
  obtain ⟨kernel, room, agree⟩ := of_decide_eq_true test
  have inv := (run_of_calls calls).inv (boot_inv init)
  obtain ⟨m', r, run, contract⟩ :=
    @copyout_contract_iff (pgsize + 10) [1, 2] m (.proc 1) sp inv space kernel room
  exact ⟨m, m', sp, r, inv, space, run, contract.2 agree⟩

/-- A process that executes a program with a page of data and a page of text. -/
def execCalls : List Call :=
  [.kalloc, .procPagetable (.proc 0) (phystop - pgsize),
    .procPagetable (.image 0) (phystop - pgsize), .uvmalloc (.image 0) pgsize pteW,
    .uvmalloc (.image 0) (2 * pgsize) pteX, .commit 0]

/-- A byte for the text page is written, and one for the data page is refused. -/
theorem copyout_writes_text : ∃ m m₁ m₂ : Machine, ∃ sp, m.Inv ∧ m.kmem.freelist ≠ [] ∧
    m.space (.proc 0) = some sp ∧ ¬Accessible sp.pagetable 1 ∧ Accessible sp.pagetable 0 ∧
    m.copyout (.proc 0) pgsize [7] = .ok (m₁, 0) ∧ shown m₁.kmem sp.pagetable pgsize = 7 ∧
    m.copyout (.proc 0) 0 [7] = .ok (m₂, -1) := by
  have pass : yields (kinit (phystop - 24 * pgsize) kernbase fun _ => 0) (fun k =>
      yields ((boot k).calls execCalls) fun m =>
        (m.space (.proc 0)).any fun sp =>
          decide (m.kmem.freelist ≠ [] ∧ ¬Accessible sp.pagetable 1 ∧ Accessible sp.pagetable 0) &&
          yields (m.copyout (.proc 0) pgsize [7]) (fun done =>
            decide (done.2 = 0 ∧ shown done.1.kmem sp.pagetable pgsize = 7)) &&
          yields (m.copyout (.proc 0) 0 [7]) fun done => decide (done.2 = -1)) = true := by
    decide +kernel
  obtain ⟨k, init, test⟩ := of_yields pass
  obtain ⟨m, calls, test⟩ := of_yields test
  obtain ⟨sp, space, test⟩ := (Option.any_eq_true _ _).1 test
  obtain ⟨test, second⟩ := Bool.and_eq_true_iff.1 test
  obtain ⟨rights, first⟩ := Bool.and_eq_true_iff.1 test
  obtain ⟨free, text, data⟩ := of_decide_eq_true rights
  obtain ⟨⟨m₁, r₁⟩, run₁, ended⟩ := of_yields first
  obtain ⟨rfl, byte⟩ := of_decide_eq_true ended
  obtain ⟨⟨m₂, r₂⟩, run₂, ended⟩ := of_yields second
  cases of_decide_eq_true ended
  have inv := (run_of_calls calls).inv (boot_inv init)
  exact ⟨m, m₁, m₂, sp, inv, free, space, text, data, run₁, byte, run₂⟩

end Xv6
