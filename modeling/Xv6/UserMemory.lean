import Xv6.PageOwners
import Xv6.Vm

/-!
# What the user-memory functions do

One specification for each function of `Xv6.Vm`: which entries it leaves, that the
ownership of pages moves along, that no page of the rest of the system is touched,
and that a user page mapped before and after shows the same bytes.
-/

namespace Xv6

open Ownership Fallible PageTable Multiset

namespace PageTable

/-- The valid entry for virtual page `v`, if there is one. -/
def entry (pt : PageTable) (v : Nat) : Option Pte :=
  if (pt.leaf v).has pteV then some (pt.leaf v) else none

variable {pt pt' : PageTable} {v w : Nat} {e : Pte}

theorem entry_eq_some : pt.entry v = some e ↔ pt.leaf v = e ∧ e.has pteV = true := by
  unfold entry
  split
  · rename_i valid
    constructor
    · rintro ⟨⟩
      exact ⟨rfl, valid⟩
    · rintro ⟨rfl, -⟩
      rfl
  · rename_i invalid
    constructor
    · rintro ⟨⟩
    · rintro ⟨rfl, valid⟩
      exact absurd valid invalid

theorem entry_eq_none : pt.entry v = none ↔ (pt.leaf v).has pteV = false := by
  unfold entry
  split
  · rename_i valid
    simp [valid]
  · rename_i invalid
    simpa using invalid

theorem entry_congr (same : pt'.leaf w = pt.leaf w) : pt'.entry w = pt.entry w := by
  unfold entry
  rw [same]

theorem entry_of_valid (valid : e.has pteV = true) (same : pt.leaf v = e) : pt.entry v = some e :=
  entry_eq_some.2 ⟨same, valid⟩

/-- Writing a valid entry where a page has a slot. -/
theorem entry_store (lt : v * pgsize < maxva) (ltW : w * pgsize < maxva)
    (found : (pt.lookup (v * pgsize)).isSome) (valid : e.has pteV = true) :
    (pt.store (v * pgsize) e).entry w = if w = v then some e else pt.entry w := by
  have leaf := leaf_store e lt ltW found
  by_cases here : w = v
  · rw [if_pos here] at leaf ⊢
    exact entry_of_valid valid leaf
  · rw [if_neg here] at leaf ⊢
    exact entry_congr leaf

theorem lookup_of_entry (mapped : pt.entry v = some e) : pt.lookup (v * pgsize) = some e := by
  obtain ⟨leaf, valid⟩ := entry_eq_some.1 mapped
  unfold PageTable.leaf at leaf
  cases look : pt.lookup (v * pgsize) with
  | none =>
    rw [look] at leaf
    subst leaf
    rw [Option.getD_none, Pte.has_zero] at valid
    cases valid
  | some e' =>
    rw [look] at leaf
    rw [← leaf]
    rfl

theorem lookup_isSome (mapped : pt.entry v = some e) : (pt.lookup (v * pgsize)).isSome := by
  rw [lookup_of_entry mapped]
  rfl

theorem mem_kept_of_entry (excl shared : Multiset Nat) (user : v < userPages)
    (mapped : pt.entry v = some e) : pte2pa e ∈ pt.kept excl shared := by
  obtain ⟨rfl, valid⟩ := entry_eq_some.1 mapped
  simp only [kept, mem_add]
  cases marked : (pt.leaf v).has pteCow with
  | false =>
    refine .inl (.inl (mem_mapped user ?_))
    rw [(privOf_private valid marked).1]
    exact mem_singleton_self _
  | true =>
    refine .inr (.inl (mem_mapped user ?_))
    rw [(privOf_cow valid marked).2]
    exact mem_singleton_self _

end PageTable

/-- Page `v` of `pt'` shows in `k'` the bytes that it shows of `pt` in `k`. -/
def SameBytes (k : Kmem) (pt : PageTable) (k' : Kmem) (pt' : PageTable) (v : Nat) : Prop :=
  ∀ o < pgsize, k'.mem (pte2pa (pt'.leaf v) + o) = k.mem (pte2pa (pt.leaf v) + o)

/-- Page `v` of `pt` is filled with zeros. -/
def ZeroPage (k : Kmem) (pt : PageTable) (v : Nat) : Prop :=
  ∀ o < pgsize, k.mem (pte2pa (pt.leaf v) + o) = 0

section Bytes

variable {k k₁ k₂ : Kmem} {pt pt₁ pt₂ : PageTable} {v : Nat} {kept : Multiset Nat}

theorem SameBytes.refl (k : Kmem) (pt : PageTable) (v : Nat) : SameBytes k pt k pt v :=
  fun _ _ => rfl

theorem SameBytes.trans (first : SameBytes k pt k₁ pt₁ v) (second : SameBytes k₁ pt₁ k₂ pt₂ v) :
    SameBytes k pt k₂ pt₂ v :=
  fun o lt => (second o lt).trans (first o lt)

theorem ZeroPage.of_sameBytes (zero : ZeroPage k pt v) (same : SameBytes k pt k₁ pt₁ v) :
    ZeroPage k₁ pt₁ v :=
  fun o lt => (same o lt).trans (zero o lt)

/-- An untouched page mapped at the same address shows the same bytes. -/
theorem Framed.sameBytes (framed : Framed k k₁ kept) (mem : pte2pa (pt.leaf v) ∈ kept)
    (same : pte2pa (pt₁.leaf v) = pte2pa (pt.leaf v)) : SameBytes k pt k₁ pt₁ v := by
  intro o lt
  rw [same]
  exact framed.same _ mem o lt

end Bytes

/-- `pt` becomes `pt'` while memory moves from `k` to `k'`: ownership follows, the rest
of the system is untouched, and pages mapped before and after show the same bytes. -/
structure Evolves (k : Kmem) (pt : PageTable) (k' : Kmem) (pt' : PageTable)
    (excl shared : Multiset Nat) : Prop where
  owned : Owned k' pt' excl shared
  framed : Framed k k' (excl + shared)
  bytes : ∀ v < userPages, (pt.entry v).isSome → (pt'.entry v).isSome → SameBytes k pt k' pt' v

namespace Evolves

variable {k k₁ k₂ : Kmem} {pt pt₁ pt₂ : PageTable} {excl shared : Multiset Nat}

theorem refl (owned : Owned k pt excl shared) : Evolves k pt k pt excl shared :=
  ⟨owned, .refl _ _, fun v _ _ _ => .refl k pt v⟩

/-- Two changes compose when no page is dropped by the first and mapped again by the
second. -/
theorem trans (first : Evolves k pt k₁ pt₁ excl shared) (second : Evolves k₁ pt₁ k₂ pt₂ excl shared)
    (between : ∀ v < userPages, (pt.entry v).isSome → (pt₂.entry v).isSome → (pt₁.entry v).isSome) :
    Evolves k pt k₂ pt₂ excl shared :=
  ⟨second.owned, first.framed.trans second.framed, fun v user before after =>
    have mid := between v user before after
    (first.bytes v user before mid).trans (second.bytes v user mid after)⟩

/-- A change of entries that keeps the pages of those still mapped. -/
theorem of_framed (owned : Owned k₁ pt₁ excl shared) (framed : Framed k k₁ (excl + shared))
    (kept : ∀ v < userPages, (pt.entry v).isSome → (pt₁.entry v).isSome →
      SamePage k.mem k₁.mem (pte2pa (pt.leaf v)) ∧ pte2pa (pt₁.leaf v) = pte2pa (pt.leaf v)) :
    Evolves k pt k₁ pt₁ excl shared := by
  refine ⟨owned, framed, fun v user before after o lt => ?_⟩
  obtain ⟨same, address⟩ := kept v user before after
  rw [address]
  exact same o lt

/-- A change that touches no page of the page table, and moves no page in it. -/
theorem of_kept (owned : Owned k₁ pt₁ excl shared) (framed : Framed k k₁ (pt.kept excl shared))
    (address : ∀ v < userPages, (pt.entry v).isSome → pte2pa (pt₁.leaf v) = pte2pa (pt.leaf v)) :
    Evolves k pt k₁ pt₁ excl shared := by
  refine .of_framed owned (framed.mono fun pa => rest_kept _) fun v user before _ => ?_
  obtain ⟨e, mapped⟩ := Option.isSome_iff_exists.1 before
  have mem := mem_kept_of_entry excl shared user mapped
  rw [← (entry_eq_some.1 mapped).1] at mem
  exact ⟨framed.same _ mem, address v user before⟩

end Evolves

section Allocation

variable {k k' : Kmem} {pt : PageTable} {excl shared : Multiset Nat} {pa : Nat}

/-- `kalloc` next to a page table: the caller becomes the owner of a page that nobody
held. -/
theorem kalloc_owned (owned : Owned k pt excl shared) (alloc : kalloc k = (k', some pa)) :
    Owned k' pt (pa ::ₘ excl) shared ∧ Framed k k' (pt.kept excl shared) ∧ k.IsPage pa ∧
      pa ∉ pt.kept excl shared := by
  obtain ⟨taken, framed, page, ⟨notExcl, notShared⟩, -⟩ := kalloc_some owned alloc
  refine ⟨?_, framed.mono fun pb mem => ?_, page, fun mem => ?_⟩
  · unfold Owned
    convert taken using 1
    rw [← singleton_add, ← singleton_add]
    abel
  · rw [add_assoc]
    exact mem_add.2 (.inr mem)
  · rcases mem_add.1 mem with mem | mem
    · exact notExcl (mem_add.2 (.inr mem))
    · exact notShared mem

/-- `kfree` by the owner of a page, next to a page table. -/
theorem kfree_owned (owned : Owned k pt (pa ::ₘ excl) shared) :
    ∃ k', kfree k pa = .ok k' ∧ Owned k' pt excl shared ∧
      Framed k k' (pt.kept excl shared) := by
  have held : Holds k (pa ::ₘ (pt.tables + (pt.privs + excl))) (pt.cows + shared) := by
    unfold Owned at owned
    convert owned using 1
    rw [← singleton_add, ← singleton_add]
    abel
  obtain ⟨k', freed, holds, framed, -⟩ := kfree_excl held
  refine ⟨k', freed, holds, framed.mono fun pb mem => ?_⟩
  rw [add_assoc]
  exact mem_add.2 (.inr mem)

theorem Owned.isPage_kept {pb : Nat} (owned : Owned k pt excl shared)
    (mem : pb ∈ pt.kept excl shared) : k.IsPage pb := by
  rcases mem_add.1 mem with mem | mem
  · exact Holds.isPage_excl owned (mem_add.2 (.inr mem))
  · exact Holds.isPage_shared owned mem

/-- Filling a page that the page table does not map changes nothing it shows. -/
theorem framed_fill {k : Kmem} {c : UInt8} {kept : Multiset Nat} (page : k.IsPage pa)
    (pages : ∀ pb ∈ kept, k.IsPage pb) (left : pa ∉ kept) :
    Framed k { k with mem := memset k.mem pa c pgsize } kept :=
  framed_memset page pages left k.freelist

end Allocation

/-! ## Shrinking and growing -/

section Resize

variable {k k' : Kmem} {pt pt' : PageTable} {excl shared : Multiset Nat} {v n oldsz newsz r : Nat}
  {perm xperm : Pte} {found : Bool}

theorem entry_zero_leaf (zero : pt.leaf v = 0) : pt.entry v = none :=
  entry_eq_none.2 (by rw [zero, Pte.has_zero])

/-- `uvmunmap` of user pages with `do_free`. -/
theorem uvmunmap_spec (user : v + n ≤ userPages)
    (run : uvmunmap k pt (v * pgsize) n true = .ok (k', pt')) (owned : Owned k pt excl shared) :
    Evolves k pt k' pt' excl shared ∧
      (∀ w, w * pgsize < maxva →
        pt'.entry w = if v ≤ w ∧ w < v + n then none else pt.entry w) ∧
      ∀ w, v ≤ w → w < v + n → (pt.entry w).isSome := by
  unfold uvmunmap at run
  split at run
  · cases run
  · obtain ⟨valids, leaves, -⟩ := unmapLoop_leaf run
    obtain ⟨owned', ⟨framed, -⟩⟩ := unmapLoop_owned user run owned
    have entries : ∀ w, w * pgsize < maxva →
        pt'.entry w = if v ≤ w ∧ w < v + n then none else pt.entry w := by
      intro w lt
      have leaf := leaves w lt
      split at leaf
      · rename_i inside
        rw [if_pos inside]
        exact entry_zero_leaf leaf
      · rename_i outside
        rw [if_neg outside]
        exact entry_congr leaf
    refine ⟨?_, entries, fun w low high => ?_⟩
    · refine .of_framed owned' (framed.mono fun pa mem => rest_kept _ mem)
        fun w userW before after => ?_
      have lt := userPage_lt userW
      have stays : ¬ (v ≤ w ∧ w < v + n) := by
        intro inside
        rw [entries w lt, if_pos inside] at after
        cases after
      have leaf := leaves w lt
      rw [if_neg stays] at leaf
      obtain ⟨e, mapped⟩ := Option.isSome_iff_exists.1 after
      have mem := mem_kept_of_entry excl shared userW mapped
      rw [← (entry_eq_some.1 mapped).1, leaf] at mem
      exact ⟨framed.same _ mem, by rw [leaf]⟩
    · exact Option.isSome_iff_exists.2 ⟨_, entry_of_valid (valids w low high).1 rfl⟩

/-- `uvmdealloc`. -/
theorem uvmdealloc_spec (small : oldsz ≤ trapframeVa)
    (run : uvmdealloc k pt oldsz newsz = .ok (k', pt', r)) (owned : Owned k pt excl shared) :
    Evolves k pt k' pt' excl shared ∧ r = min oldsz newsz ∧
      ∀ w, w * pgsize < maxva →
        pt'.entry w = if npages newsz ≤ w ∧ w < npages oldsz then none else pt.entry w := by
  unfold uvmdealloc at run
  have max : oldsz ≤ maxva := small.trans (by decide)
  split at run
  · rename_i grows
    cases run
    have := npages_mono grows
    refine ⟨.refl owned, by omega, fun w _ => ?_⟩
    rw [if_neg (by omega)]
  · rename_i shrinks
    rw [pgroundup_eq max, pgroundup_eq (by omega : newsz ≤ maxva)] at run
    have mono := npages_mono (by omega : newsz ≤ oldsz)
    have top := npages_le_userPages small
    split at run
    · rename_i less
      obtain ⟨⟨k₁, pt₁⟩, unmapped, last⟩ := of_bind_ok run
      cases last
      rw [page_sub_div] at unmapped
      obtain ⟨evolves, entries, -⟩ := uvmunmap_spec (by omega) unmapped owned
      refine ⟨evolves, by omega, fun w lt => ?_⟩
      rw [entries w lt]
      have : npages newsz + (npages oldsz - npages newsz) = npages oldsz := by omega
      rw [this]
    · rename_i none
      cases run
      refine ⟨.refl owned, by omega, fun w _ => ?_⟩
      have : ¬ npages newsz < npages oldsz := by
        intro lt
        exact none (Nat.mul_lt_mul_of_pos_right lt (by decide))
      rw [if_neg (by omega)]

/-- The permissions `uvmalloc` is called with: flags, and not the copy-on-write mark. -/
structure PlainPerm (perm : Pte) : Prop where
  flags : perm.toNat < 1024
  plain : perm.has pteCow = false

/-- What one round of the loop of `uvmalloc` does before it goes on. -/
theorem growRound_spec {k₁ k₂ : Kmem} {pt₂ : PageTable} {mem : Nat} (perms : PlainPerm perm)
    (user : v < userPages) (alloc : kalloc k = (k₁, some mem))
    (run : mapOne { k₁ with mem := memset k₁.mem mem 0 pgsize } pt (v * pgsize) mem perm =
      .ok (k₂, pt₂, found)) (owned : Owned k pt excl shared) :
    (found = true → Evolves k pt k₂ pt₂ excl shared ∧ pt.entry v = none ∧
      (∀ w, w * pgsize < maxva →
        pt₂.entry w = if w = v then some (mapEntry mem perm) else pt.entry w) ∧
      ZeroPage k₂ pt₂ v) ∧
    (found = false → Owned k₂ pt₂ (mem ::ₘ excl) shared ∧
      Framed k k₂ (pt.kept excl shared) ∧ ∀ w, pt₂.leaf w = pt.leaf w) := by
  obtain ⟨owned₁, framed₁, page, fresh⟩ := kalloc_owned owned alloc
  have lt := userPage_lt user
  have fill : Framed k₁ { k₁ with mem := memset k₁.mem mem 0 pgsize } (pt.kept excl shared) :=
    framed_fill (by rw [framed₁.isPage]; exact page)
      (fun pb held => by rw [framed₁.isPage]; exact owned.isPage_kept held) fresh
  have filled : Owned { k₁ with mem := memset k₁.mem mem 0 pgsize } pt (mem ::ₘ excl) shared :=
    owned₁.setMem _
  have wider : ∀ pb ∈ pt.kept excl shared, pb ∈ pt.kept (mem ::ₘ excl) shared := by
    intro pb held
    simp only [kept, mem_add, mem_cons] at held ⊢
    tauto
  have leaves := mapOne_leaf lt run
  constructor
  · rintro rfl
    obtain ⟨owned₂, framed₂⟩ := mapOne_priv user run perms.flags perms.plain filled
    obtain ⟨no, -⟩ | ⟨-, invalid, leaf⟩ := leaves
    · cases no
    · have framed := (framed₁.trans fill).trans (framed₂.mono wider)
      have absent := entry_eq_none.2 invalid
      refine ⟨.of_kept owned₂ framed fun w userW before => ?_, absent, fun w ltW => ?_,
        fun o small => ?_⟩
      · have other : w ≠ v := by
          rintro rfl
          rw [absent] at before
          cases before
        rw [leaf w (userPage_lt userW), if_neg other]
      · have here := leaf w ltW
        split at here
        · rename_i same
          rw [if_pos same]
          exact entry_of_valid (mapEntry_valid mem perm) here
        · rename_i other
          rw [if_neg other]
          exact entry_congr here
      · have address : pte2pa (pt₂.leaf v) = mem := by
          rw [leaf v lt, if_pos rfl, mapEntry_pa page.aligned page.lt perms.flags]
        have kept : mem ∈ pt.kept (mem ::ₘ excl) shared := by
          simp [kept]
        rw [address, framed₂.same mem kept o small]
        simp only [memset]
        rw [if_pos (by omega)]
  · rintro rfl
    obtain ⟨owned₂, framed₂⟩ := mapOne_null run filled
    obtain ⟨-, leaf⟩ | ⟨yes, -⟩ := leaves
    · exact ⟨owned₂, (framed₁.trans fill).trans (framed₂.mono wider), leaf⟩
    · cases yes

/-- The trapframe is mapped in every process's table, so that a request that reaches it
panics. -/
theorem mapOne_below_trapframe {pa : Nat} (user : v ≤ userPages) (top : (pt.entry userPages).isSome)
    (run : mapOne k pt (v * pgsize) pa perm = .ok (k', pt', found)) : v < userPages := by
  rcases Nat.lt_or_eq_of_le user with less | rfl
  · exact less
  · exfalso
    obtain ⟨e, mapped⟩ := Option.isSome_iff_exists.1 top
    obtain ⟨pt₁, walked, ⟨no, -⟩ | ⟨-, invalid, -⟩⟩ := mapOne_cases run
    · rw [walkAlloc_existing walked (lookup_isSome mapped)] at no
      cases no
    · rw [Nat.mul_div_cancel _ (by decide), walkAlloc_leaf walked] at invalid
      rw [entry_eq_none.2 invalid] at mapped
      cases mapped

/-- The loop of `uvmalloc` from page `v` on, for a request that started at page `v₀`:
it maps `n` zeroed pages, or it takes back everything the request has mapped. -/
theorem growLoop_spec {v₀ : Nat} {done : Bool} (perms : PlainPerm (pteR ||| pteU ||| xperm))
    (start : v₀ ≤ v) (user : v ≤ userPages) (top : (pt.entry userPages).isSome)
    (run : growLoop (v₀ * pgsize) xperm n k pt (v * pgsize) = .ok (k', pt', done))
    (owned : Owned k pt excl shared) : Evolves k pt k' pt' excl shared ∧
      (done = true → v + n ≤ userPages ∧
        (∀ w, v ≤ w → w < v + n → pt.entry w = none ∧ ZeroPage k' pt' w ∧
          ∃ pa, pt'.entry w = some (mapEntry pa (pteR ||| pteU ||| xperm))) ∧
        ∀ w, w * pgsize < maxva → ¬ (v ≤ w ∧ w < v + n) → pt'.entry w = pt.entry w) ∧
      (done = false → ∀ w, w * pgsize < maxva →
        pt'.entry w = if v₀ ≤ w ∧ w < v then none else pt.entry w) := by
  induction n generalizing k pt v with
  | zero =>
    cases run
    refine ⟨.refl owned, fun _ => ⟨user, fun w low high => by omega, fun w _ _ => rfl⟩, ?_⟩
    rintro ⟨⟩
  | succ n ih =>
    unfold growLoop at run
    cases alloc : kalloc k with
    | mk k₁ r =>
    cases r with
    | none =>
      obtain ⟨rfl, -⟩ := kalloc_none alloc
      simp only [alloc] at run
      obtain ⟨⟨k₂, pt₂, r⟩, dealloc, last⟩ := of_bind_ok run
      cases last
      obtain ⟨evolves, -, entries⟩ := uvmdealloc_spec (userPages_room user) dealloc owned
      refine ⟨evolves, by rintro ⟨⟩, fun _ w lt => ?_⟩
      rw [entries w lt, npages_mul, npages_mul]
    | some mem =>
      simp only [alloc] at run
      have lt : v * pgsize < maxva :=
        (Nat.mul_le_mul_right _ user).trans_lt userPages_lt_maxva
      rw [mappages_page lt] at run
      obtain ⟨⟨k₂, pt₂, r⟩, mapped, rest⟩ := of_bind_ok run
      obtain ⟨⟨k₃, pt₃, found⟩, one, last⟩ := of_bind_ok mapped
      cases last
      have inside := mapOne_below_trapframe user top one
      obtain ⟨mappedSpec, failedSpec⟩ := growRound_spec perms inside alloc one owned
      cases found with
      | true =>
        simp only [if_true, ne_eq, not_true_eq_false, if_false] at rest
        obtain ⟨evolves, absent, entries, zero⟩ := mappedSpec rfl
        have next : v * pgsize + pgsize = (v + 1) * pgsize := by ring
        have top' : (pt₂.entry userPages).isSome := by
          rw [entries _ userPages_lt_maxva, if_neg (by omega)]
          exact top
        rw [next] at rest
        obtain ⟨evolves', grown, failed⟩ := ih (by omega) (by omega) top' rest evolves.owned
        refine ⟨evolves.trans evolves' fun w userW before after => ?_, fun yes => ?_,
          fun no w ltW => ?_⟩
        · rw [entries w (userPage_lt userW)]
          split
          · rfl
          · exact before
        · obtain ⟨bound, fresh, others⟩ := grown yes
          refine ⟨by omega, fun w low high => ?_, fun w ltW outside => ?_⟩
          · have userW : w < userPages := by omega
            have ltW := userPage_lt userW
            by_cases first : w = v
            · subst first
              have here : pt'.entry w = some (mapEntry mem (pteR ||| pteU ||| xperm)) := by
                rw [others w ltW (by omega), entries w ltW, if_pos rfl]
              refine ⟨absent, zero.of_sameBytes (evolves'.bytes w userW ?_ ?_), _, here⟩
              · rw [entries w ltW, if_pos rfl]
                rfl
              · rw [here]
                rfl
            · obtain ⟨none, zeroW, entry⟩ := fresh w (by omega) (by omega)
              rw [entries w ltW, if_neg first] at none
              exact ⟨none, zeroW, entry⟩
          · rw [others w ltW (by omega), entries w ltW, if_neg (by omega)]
        · rw [failed no w ltW, entries w ltW]
          by_cases first : w = v
          · subst first
            rw [absent, if_pos (by omega), if_neg (by omega)]
          · by_cases within : v₀ ≤ w ∧ w < v
            · rw [if_pos (by omega), if_pos within]
            · rw [if_neg (by omega), if_neg within, if_neg first]
      | false =>
        simp only [Bool.false_eq_true, if_false, ne_eq] at rest
        obtain ⟨owned₂, framed₂, leaf⟩ := failedSpec rfl
        obtain ⟨k₄, freed, owned₄, framed₄⟩ := kfree_owned owned₂
        rw [if_pos (by decide)] at rest
        obtain ⟨k₄', freed', rest⟩ := of_bind_ok rest
        rw [freed] at freed'
        cases freed'
        obtain ⟨⟨k₅, pt₅, r⟩, dealloc, last⟩ := of_bind_ok rest
        cases last
        obtain ⟨evolves', -, entries⟩ :=
          uvmdealloc_spec (userPages_room user) dealloc owned₄
        have same (w : Nat) : pt₂.entry w = pt.entry w := entry_congr (leaf w)
        have framed : Framed k k₄ (pt.kept excl shared) := by
          refine framed₂.trans (framed₄.mono fun pb held => ?_)
          rw [kept, privs, cows, mapped_congr leaf, mapped_congr leaf]
          exact held
        have first : Evolves k pt k₄ pt₂ excl shared :=
          .of_kept owned₄ framed fun w _ _ => by rw [leaf]
        refine ⟨first.trans evolves' fun w _ before _ => ?_, by rintro ⟨⟩, fun _ w ltW => ?_⟩
        · rw [same]
          exact before
        · rw [entries w ltW, npages_mul, npages_mul, same]

/-- `uvmalloc` with memory below the trapframe. -/
theorem uvmalloc_spec (perms : PlainPerm (pteR ||| pteU ||| xperm)) (small : oldsz ≤ trapframeVa)
    (top : (pt.entry userPages).isSome) (run : uvmalloc k pt oldsz newsz xperm = .ok (k', pt', r))
    (owned : Owned k pt excl shared) : Evolves k pt k' pt' excl shared ∧
      ((r = max oldsz newsz ∧ r ≤ trapframeVa ∧
        (∀ w, npages oldsz ≤ w → w < npages r → pt.entry w = none ∧ ZeroPage k' pt' w ∧
          ∃ pa, pt'.entry w = some (mapEntry pa (pteR ||| pteU ||| xperm))) ∧
        ∀ w, w * pgsize < maxva → ¬ (npages oldsz ≤ w ∧ w < npages r) →
          pt'.entry w = pt.entry w) ∨
      (r = 0 ∧ ∀ w, w * pgsize < maxva → pt'.entry w = pt.entry w)) := by
  unfold uvmalloc at run
  split at run
  · rename_i shrinks
    cases run
    refine ⟨.refl owned, .inl ⟨by omega, small, fun w low high => by omega, fun w _ _ => rfl⟩⟩
  · rename_i grows
    have max : oldsz ≤ maxva := small.trans (by decide)
    simp only [pgroundup_eq max] at run
    obtain ⟨⟨k₁, pt₁, done⟩, loop, last⟩ := of_bind_ok run
    cases last
    obtain ⟨evolves, grown, failed⟩ :=
      growLoop_spec perms le_rfl (npages_le_userPages small) top loop owned
    refine ⟨evolves, ?_⟩
    have total : npages oldsz + npages (newsz - npages oldsz * pgsize) = npages newsz := by
      simp only [npages, pgsize]
      omega
    cases done with
    | true =>
      obtain ⟨bound, fresh, others⟩ := grown rfl
      rw [total] at bound fresh others
      refine .inl ⟨by simp; omega, ?_, fresh, others⟩
      simp only [npages, userPages_eq, pgsize, trapframeVa, trampolineVa, maxva] at bound ⊢
      simp
      omega
    | false =>
      refine .inr ⟨rfl, fun w lt => ?_⟩
      rw [failed rfl w lt, if_neg (by omega)]

end Resize

end Xv6
