import Xv6.Copyout
import Xv6.SpacesInv

/-!
# What a call does to the address spaces

For each call of the machine: the invariant is kept, the other address spaces show the
same bytes, and the one it works on evolves as the memory function says.
-/

namespace Xv6

open Ownership Fallible PageTable Multiset Option

namespace Machine

variable {m m' : Machine} {id parent child : SpaceId} {sp sc : Space} {r va pa newsz : Nat}
  {xperm : Pte} {src : List UInt8}

theorem get_ok {m : Machine} {id : SpaceId} {sp : Space} (got : m.get id = .ok sp) :
    m.space id = some sp := by
  unfold get at got
  split at got
  · rename_i space
    cases got
    exact space
  · cases got

/-- A call works on the address space that is there. -/
theorem of_get_ok {β : Type} {f : Space → Except String β} {b : β} (space : m.space id = some sp)
    (run : (m.get id >>= f) = .ok b) : f sp = .ok b := by
  unfold get at run
  rw [space] at run
  exact run

/-- The pages of the rest of the system, seen from one address space. -/
abbrev restExcl (m : Machine) (id : SpaceId) : Multiset Nat := m.exclOf (all.erase id)

abbrev restShared (m : Machine) (id : SpaceId) : Multiset Nat := m.sharedOf (all.erase id)

/-! ## Pages of the kernel -/

theorem exclOf_held (m : Machine) (k : Kmem) (pa : Nat) :
    ({ m with kmem := k, held := pa :: m.held } : Machine).exclOf all = pa ::ₘ m.exclOf all := by
  rw [exclOf_eq, exclOf_eq, ← cons_coe, add_cons]

/-- `kalloc` for the kernel changes no address space. -/
theorem kalloc_touches {r : Option Nat} (inv : m.Inv) (run : m.kalloc = (m', r)) :
    Touches m m' ∅ ∧ m'.space = m.space := by
  unfold kalloc at run
  split at run
  · rename_i k alloc
    cases run
    obtain ⟨rfl, -⟩ := kalloc_none alloc
    exact ⟨⟨inv, fun _ _ => rfl, fun _ _ _ _ _ _ _ => .refl _ _ _⟩, rfl⟩
  · rename_i k pa alloc
    cases run
    obtain ⟨taken, framed, -⟩ := kalloc_some inv.holds alloc
    refine ⟨⟨⟨?_, inv.table⟩, fun _ _ => rfl, fun j _ sp space v user => ?_⟩, rfl⟩
    · rw [exclOf_held, sharedOf_eq]
      rw [sharedOf_eq] at taken
      exact taken
    · exact sameBytes_of_framed framed (Finset.mem_univ j) space user

/-- A page of the kernel next to all other pages of the system. -/
theorem exclOf_of_held (held : pa ∈ m.held) :
    m.exclOf all = pa ::ₘ (∑ id ∈ all, spaceExcl (m.space id) + (m.held.erase pa)) := by
  rw [exclOf_eq, ← add_cons, ← coe_erase, cons_erase (mem_coe.2 held)]

/-- Whatever spares the pages of the address spaces leaves what they show. -/
theorem sameBytes_of_spared {kept : Multiset Nat} {v : Nat}
    (framed : Framed m.kmem k (∑ id ∈ all, spaceExcl (m.space id) + kept + m.sharedOf all))
    (space : m.space j = some sp) (user : v < userPages) (mapped : (sp.pagetable.entry v).isSome) :
    SameBytes m.kmem sp.pagetable k sp.pagetable v := by
  obtain ⟨e, entry⟩ := isSome_iff_exists.1 mapped
  refine framed.sameBytes ?_ rfl
  rw [(entry_eq_some.1 entry).1]
  have user' := mem_kept_of_entry 0 0 user entry
  rw [← Finset.add_sum_erase _ _ (Finset.mem_univ j), space, spaceExcl,
    sharedOf_split (Finset.mem_univ j), space, spaceShared]
  simp only [PageTable.kept, Multiset.mem_add, add_zero] at user' ⊢
  rcases user' with user' | user'
  · exact .inl (.inl (.inl (.inr user')))
  · exact .inr (.inl user')

/-- `kfree` of a page of the kernel changes no address space. -/
theorem kfree_touches (inv : m.Inv) (held : pa ∈ m.held) (run : m.kfree pa = .ok m') :
    Touches m m' ∅ ∧ m'.space = m.space := by
  unfold kfree at run
  obtain ⟨k, freed, last⟩ := of_bind_ok run
  cases last
  have holds := inv.holds
  rw [exclOf_of_held held] at holds
  obtain ⟨k', freed', holds', framed, -⟩ := kfree_excl holds
  rw [freed] at freed'
  cases freed'
  refine ⟨⟨⟨?_, inv.table⟩, fun _ _ => rfl, fun j _ sp space v user mapped => ?_⟩, rfl⟩
  · rw [exclOf_eq, sharedOf_eq]
    rw [sharedOf_eq] at holds'
    exact holds'
  · exact sameBytes_of_spared framed space user mapped

/-! ## Setting up and tearing down -/

theorem holds_rest (inv : m.Inv) (none : m.space id = none) :
    Holds m.kmem (m.restExcl id) (m.restShared id) := by
  have holds := inv.holds
  rwa [exclOf_split (Finset.mem_univ id), sharedOf_split (Finset.mem_univ id), none, spaceExcl,
    spaceShared, zero_add, zero_add] at holds

/-- `proc_pagetable` adds an address space without user memory, or nothing. -/
theorem procPagetable_touches {trapframe : Nat} {done : Bool} (inv : m.Inv)
    (none : m.space id = none) (run : m.procPagetable id trapframe = .ok (m', done)) :
    Touches m m' {id} ∧
      m'.space id = (if done then m'.space id else Option.none) ∧
      (done = true → ∃ pt, m'.space id = some ⟨pt, 0⟩ ∧ ∀ v < userPages, pt.entry v = Option.none) ∧
      m'.held = m.held := by
  unfold procPagetable at run
  obtain ⟨⟨k, result⟩, made, run⟩ := of_bind_ok run
  obtain ⟨framed, made⟩ := procPagetable_spec made (holds_rest inv none)
  cases result with
  | none =>
    cases run
    have same : ({ m with kmem := k } : Machine) = m.put id k Option.none := by
      simp only [put, Machine.mk.injEq, true_and, and_true]
      rw [← none, Function.update_eq_self]
    rw [same]
    refine ⟨inv.touches_none made framed, ?_, by rintro ⟨⟩, rfl⟩
    rw [put_space]
    rfl
  | some pt =>
    cases run
    obtain ⟨owned, table, empty⟩ := made
    exact ⟨inv.touches owned framed table, rfl, fun _ => ⟨pt, put_space _, empty⟩, rfl⟩

/-- `proc_freepagetable` removes an address space. -/
theorem procFreepagetable_touches (inv : m.Inv) (run : m.procFreepagetable id = .ok m') :
    Touches m m' {id} ∧ m'.space id = none ∧ m'.held = m.held := by
  unfold procFreepagetable at run
  obtain ⟨sp, got, run⟩ := of_bind_ok run
  obtain ⟨k, freed, last⟩ := of_bind_ok run
  cases last
  have space := get_ok got
  obtain ⟨holds, framed⟩ :=
    procFreepagetable_spec (inv.table id sp space).small freed (inv.owned space)
  exact ⟨inv.touches_none holds framed, put_space _, rfl⟩

/-! ## Resizing -/

theorem plainPerm_segment (mem : xperm ∈ segmentPerms) : PlainPerm (pteR ||| pteU ||| xperm) := by
  simp only [segmentPerms, List.mem_cons, List.not_mem_nil, or_false] at mem
  rcases mem with rfl | rfl | rfl | rfl <;> exact ⟨by decide, by decide⟩

theorem uvmalloc_touches (inv : m.Inv) (perms : xperm ∈ segmentPerms) (space : m.space id = some sp)
    (run : m.uvmalloc id newsz xperm = .ok (m', r)) :
    ∃ k pt, Xv6.uvmalloc m.kmem sp.pagetable sp.sz newsz xperm = .ok (k, pt, r) ∧
      m' = m.put id k (some ⟨pt, if r = 0 then sp.sz else r⟩) ∧ Touches m m' {id} ∧
      Evolves m.kmem sp.pagetable k pt (m.restExcl id) (m.restShared id) := by
  unfold uvmalloc at run
  obtain ⟨⟨k, pt, r⟩, grown, last⟩ := of_bind_ok (of_get_ok space run)
  cases last
  have table := inv.table id sp space
  have perms := plainPerm_segment perms
  have owned := inv.owned space
  obtain ⟨evolves, -⟩ := uvmalloc_spec perms table.small table.trapframe grown owned
  exact ⟨k, pt, grown, rfl, inv.touches evolves.owned evolves.framed (table.grow perms grown owned),
    evolves⟩

section

variable (inv : m.Inv) (space : m.space id = some sp)
include inv space

theorem uvmdealloc_touches (run : m.uvmdealloc id newsz = .ok (m', r)) :
    ∃ k pt, Xv6.uvmdealloc m.kmem sp.pagetable sp.sz newsz = .ok (k, pt, r) ∧
      m' = m.put id k (some ⟨pt, r⟩) ∧ Touches m m' {id} ∧
      Evolves m.kmem sp.pagetable k pt (m.restExcl id) (m.restShared id) := by
  unfold uvmdealloc at run
  obtain ⟨⟨k, pt, r⟩, shrunk, last⟩ := of_bind_ok (of_get_ok space run)
  cases last
  have table := inv.table id sp space
  have owned := inv.owned space
  obtain ⟨evolves, -⟩ := uvmdealloc_spec table.small shrunk owned
  exact ⟨k, pt, shrunk, rfl, inv.touches evolves.owned evolves.framed (table.shrink shrunk owned),
    evolves⟩

/-! ## Copying and writing -/

theorem dupPg_touches {r : Int} (run : m.dupPg id va = .ok (m', r)) :
    ∃ k pt, Xv6.dupPg m.kmem sp.pagetable va = .ok (k, pt, r) ∧
      m' = m.put id k (some ⟨pt, sp.sz⟩) ∧ Touches m m' {id} ∧
      Evolves m.kmem sp.pagetable k pt (m.restExcl id) (m.restShared id) := by
  unfold dupPg at run
  obtain ⟨⟨k, pt, r⟩, dup, last⟩ := of_bind_ok (of_get_ok space run)
  cases last
  have table := inv.table id sp space
  have owned := inv.owned space
  obtain ⟨evolves, table', -⟩ := dupPg_keeps table dup owned
  exact ⟨k, pt, dup, rfl, inv.touches evolves.owned evolves.framed table', evolves⟩

theorem write_touches {e : Pte} (user : va / pgsize < userPages)
    (mapped : sp.pagetable.entry (va / pgsize) = some e) (plain : e.has pteCow = false)
    (fits : va % pgsize + src.length ≤ pgsize) (run : m.write id va src = .ok m') :
    m' = m.put id { m.kmem with mem := memput m.kmem.mem (pte2pa e + va % pgsize) src } (some sp) ∧
      Touches m m' {id} ∧
      ∀ w < userPages, w ≠ va / pgsize → (sp.pagetable.entry w).isSome →
        SameBytes m.kmem sp.pagetable m'.kmem sp.pagetable w := by
  unfold write at run
  cases of_get_ok space run
  have table := inv.table id sp space
  rw [(entry_eq_some.1 mapped).1]
  obtain ⟨owned, framed, others⟩ := write_spec user mapped plain fits (inv.owned space)
  exact ⟨rfl, inv.touches owned framed table, others⟩

theorem uvmclear_touches (user : va / pgsize < userPages) (aligned : va % pgsize = 0)
    (run : m.uvmclear id va = .ok m') :
    ∃ pt, Xv6.uvmclear sp.pagetable va = .ok pt ∧ m' = m.put id m.kmem (some ⟨pt, sp.sz⟩) ∧
      Touches m m' {id} ∧
      Evolves m.kmem sp.pagetable m.kmem pt (m.restExcl id) (m.restShared id) := by
  unfold uvmclear at run
  obtain ⟨pt, cleared, last⟩ := of_bind_ok (of_get_ok space run)
  cases last
  have table := inv.table id sp space
  have owned := inv.owned space
  have page : va = va / pgsize * pgsize :=
    (Nat.div_mul_cancel (Nat.dvd_of_mod_eq_zero aligned)).symm
  have at' := cleared
  rw [page] at at'
  obtain ⟨owned', entries, address⟩ := uvmclear_spec user at' owned
  have evolves : Evolves m.kmem sp.pagetable m.kmem pt (m.restExcl id) (m.restShared id) :=
    .of_kept owned' (.refl _ _) fun v userV _ => address v (userPage_lt userV)
  refine ⟨pt, cleared, rfl, inv.touches owned' (.refl _ _) (table.edit table.small
    (fun w high lt => by rw [entries w lt, if_neg (by omega)]) fun w e userW mappedW => ?_),
    evolves⟩
  rw [entries w (userPage_lt userW)] at mappedW
  split_ifs at mappedW with here
  · obtain ⟨e₀, mapped, rfl⟩ := map_eq_some_iff.1 mappedW
    obtain ⟨low, readonly⟩ := table.entry user mapped
    rw [here]
    refine ⟨low, fun marked => ?_⟩
    rw [clear_has (by decide)] at marked ⊢
    exact readonly marked
  · exact table.entry userW mappedW

end

/-! ## Fork, the first process and exec -/

/-- The rest of the system next to two address spaces. -/
abbrev pairExcl (m : Machine) (parent child : SpaceId) : Multiset Nat :=
  m.exclOf ((all.erase child).erase parent)

abbrev pairShared (m : Machine) (parent child : SpaceId) : Multiset Nat :=
  m.sharedOf ((all.erase child).erase parent)

section

variable (inv : m.Inv) (distinct : parent ≠ child) (space : m.space parent = some sp)
include inv distinct space

/-- Two page tables next to the rest of the system. -/
theorem Inv.pairOwned (there : m.space child = some sc) : PairOwned m.kmem sp.pagetable sc.pagetable
      (m.pairExcl parent child) (m.pairShared parent child) := by
  have inRest : parent ∈ all.erase child := Finset.mem_erase.2 ⟨distinct, Finset.mem_univ _⟩
  have owned := inv.owned there
  rwa [exclOf_split inRest, sharedOf_split inRest, space, spaceExcl, spaceShared,
    add_assoc] at owned

/-- `uvmcowpy` between two address spaces, the child's one empty. -/
theorem uvmcowpy_touches (empty : m.space child = some sc) (zero : sc.sz = 0)
    (run : m.uvmcowpy parent child = .ok (m', r)) :
    ∃ k old new, Xv6.uvmcowpy m.kmem sp.pagetable sc.pagetable sp.sz = .ok (k, old, new, r) ∧
      m' = (m.put parent k (some ⟨old, sp.sz⟩)).put child k (some ⟨new, sp.sz⟩) ∧
      Touches m m' {parent, child} ∧
      CowCopied m.kmem sp.pagetable sc.pagetable k old new 0 (npages sp.sz) r
        (m.pairExcl parent child) (m.pairShared parent child) := by
  unfold uvmcowpy at run
  obtain ⟨⟨k, old, new, r⟩, copied, last⟩ := of_bind_ok (of_get_ok empty (of_get_ok space run))
  cases last
  have inRest : parent ∈ all.erase child := Finset.mem_erase.2 ⟨distinct, Finset.mem_univ _⟩
  have owned := inv.pairOwned distinct space empty
  have childTable := inv.table child sc empty
  rw [zero] at childTable
  obtain ⟨spec, oldTable, newTable⟩ :=
    uvmcowpy_spec (inv.table parent sp space) childTable copied owned
  refine ⟨k, old, new, copied, rfl, ⟨⟨?_, ?_⟩, ?_, ?_⟩, spec⟩
  · have outChild : child ∉ all.erase child := Finset.notMem_erase _ _
    have outParent : parent ∉ (all.erase child).erase parent := Finset.notMem_erase _ _
    rw [exclOf_split (Finset.mem_univ child), sharedOf_split (Finset.mem_univ child), put_space,
      exclOf_put _ outChild, sharedOf_put _ outChild, exclOf_split inRest, sharedOf_split inRest,
      put_space, exclOf_put _ outParent, sharedOf_put _ outParent]
    have both := spec.owned
    unfold PairOwned Owned at both
    simp only [spaceExcl, spaceShared, add_assoc]
    exact both
  · intro j sp' space'
    by_cases isChild : j = child
    · subst isChild
      rw [put_space] at space'
      cases space'
      exact newTable
    · rw [put_other _ isChild] at space'
      by_cases isParent : j = parent
      · subst isParent
        rw [put_space] at space'
        cases space'
        exact oldTable
      · rw [put_other _ isParent] at space'
        exact inv.table j sp' space'
  · intro j other
    simp only [Set.mem_insert_iff, Set.mem_singleton_iff, not_or] at other
    rw [put_other _ other.2, put_other _ other.1]
  · intro j other sp' space' v user mapped
    simp only [Set.mem_insert_iff, Set.mem_singleton_iff, not_or] at other
    have member : j ∈ (all.erase child).erase parent :=
      Finset.mem_erase.2 ⟨other.1, Finset.mem_erase.2 ⟨other.2, Finset.mem_univ j⟩⟩
    refine sameBytes_of_framed (spec.passes.framed.mono fun pa mem => ?_) member space' user mapped
    rw [pairKept_eq]
    simp only [mem_add] at mem ⊢
    exact .inr (.inr (.inr mem))

end

/-- The permissions of the first process's page. -/
def firstPerm : Pte := pteW ||| pteR ||| pteX ||| pteU

/-- `uvmfirst` gives an empty address space one page that starts with `src`. -/
theorem uvmfirst_touches (inv : m.Inv) (space : m.space id = some sp) (zero : sp.sz = 0)
    (room : 3 ≤ m.kmem.freelist.length) (run : m.uvmfirst id src = .ok m') :
    Touches m m' {id} ∧ ∃ pt mem, m'.space id = some ⟨pt, pgsize⟩ ∧
      (∀ w, w * pgsize < maxva → pt.entry w =
        if w = 0 then some (mapEntry mem firstPerm) else sp.pagetable.entry w) ∧
      ∀ o < pgsize, m'.kmem.mem (pte2pa (pt.leaf 0) + o) = src.getD o 0 := by
  unfold uvmfirst at run
  obtain ⟨⟨k', pt'⟩, first, last⟩ := of_bind_ok (of_get_ok space run)
  cases last
  unfold Xv6.uvmfirst at first
  split at first
  · cases first
  · rename_i short
    cases alloc : Xv6.kalloc m.kmem with
    | mk k₁ r =>
    rw [alloc] at first
    cases r with
    | none => cases first
    | some mem =>
      have user : 0 < userPages := by
        rw [userPages_eq]
        decide
      have page : mappages { k₁ with mem := memset k₁.mem mem 0 pgsize } sp.pagetable
          (0 * pgsize) pgsize mem firstPerm = mappages { k₁ with mem := memset k₁.mem mem 0 pgsize }
            sp.pagetable 0 pgsize mem firstPerm := by
        rw [Nat.zero_mul]
      rw [mappages_page (userPage_lt user)] at page
      obtain ⟨⟨k₂, pt₂, r⟩, mapped, last⟩ := of_bind_ok first
      cases last
      rw [show (pteW ||| pteR ||| pteX ||| pteU : Pte) = firstPerm from rfl, ← page] at mapped
      obtain ⟨⟨k₃, pt₃, found⟩, one, last⟩ := of_bind_ok mapped
      cases last
      have perms : PlainPerm firstPerm := ⟨by decide, by decide⟩
      have table := inv.table id sp space
      obtain ⟨grown, -⟩ := growRound_spec perms user alloc one (inv.owned space)
      -- two of the remaining pages are enough for the tables
      have yes : found = true := by
        obtain ⟨pt₀, walked, -⟩ := mapOne_cases one
        have length := walkAlloc_length walked
        have taken := kalloc_length alloc
        cases found with
        | true => rfl
        | false =>
          exfalso
          have small : sp.pagetable.missing (0 * pgsize) ≤ 2 := by
            unfold missing
            split
            · exact le_rfl
            · split <;> omega
          simp only [Bool.false_eq_true, if_false] at length
          omega
      obtain ⟨evolves, -, entries, zeroed⟩ := grown yes
      have entry := entries 0 (userPage_lt user)
      rw [if_pos rfl] at entry
      have plain : (mapEntry mem firstPerm).has pteCow = false := by
        rw [mapEntry_cow, perms.plain]
      obtain ⟨leaf, -⟩ := entry_eq_some.1 entry
      have isPage : k₂.IsPage (pte2pa (mapEntry mem firstPerm)) := evolves.owned.isPage_kept
        (mem_kept_of_entry _ _ user entry)
      have address : pte2pa (mapEntry mem firstPerm) = mem := by
        obtain ⟨-, -, page, -⟩ := kalloc_owned (inv.owned space) alloc
        exact mapEntry_pa page.aligned page.lt perms.flags
      have fits : 0 + src.length ≤ pgsize := by omega
      obtain ⟨owned, framed, -⟩ := write_spec user entry plain fits evolves.owned
      rw [address, Nat.add_zero] at owned framed
      refine ⟨inv.touches owned (evolves.framed.trans framed) ?_, _, mem, put_space _, entries,
        fun o small => ?_⟩
      · refine table.edit (by decide) (fun w high lt => by rw [entries w lt, if_neg (by omega)])
          fun v e userV mappedV => ?_
        rw [entries v (userPage_lt userV)] at mappedV
        split_ifs at mappedV with here
        · cases mappedV
          rw [here, plain]
          exact ⟨by decide, by rintro ⟨⟩⟩
        · have low := (table.entry userV mappedV).1
          rw [zero] at low
          exact absurd low (Nat.not_lt_zero v)
      · have old := zeroed o small
        rw [leaf, address] at old ⊢
        simp only [put, memput]
        split
        · rw [Nat.add_sub_cancel_left]
        · rename_i out
          rw [old, List.getD_eq_default]
          omega

/-- The commit of `exec` replaces the address space of the process. -/
theorem commit_touches {p : Fin nproc} {image : Space} (inv : m.Inv)
    (made : m.space (.image p) = some image) (run : m.commit p = .ok m') :
    Touches m m' {.proc p, .image p} ∧ m'.space (.proc p) = some image ∧
      m'.space (.image p) = none ∧ m'.held = m.held ∧
      ∀ v < userPages, (image.pagetable.entry v).isSome →
        SameBytes m.kmem image.pagetable m'.kmem image.pagetable v := by
  unfold commit at run
  obtain ⟨old, got, rest⟩ := of_bind_ok (of_get_ok made run)
  obtain ⟨k, freed, last⟩ := of_bind_ok rest
  cases last
  have space := get_ok got
  have distinct : (SpaceId.image p) ≠ .proc p := by rintro ⟨⟩
  obtain ⟨holds, framed⟩ :=
    procFreepagetable_spec (inv.table _ old space).small freed (inv.owned space)
  have inRest : SpaceId.image p ∈ all.erase (.proc p) :=
    Finset.mem_erase.2 ⟨distinct, Finset.mem_univ _⟩
  have spaces : ({ (m.put (.proc p) m.kmem (some image)).put (.image p) m.kmem none with
      kmem := k } : Machine).space =
        ((m.put (.image p) k none).put (.proc p) k (some image)).space := by
    funext j
    simp only [put]
    rw [Function.update_comm distinct]
  have same : ({ (m.put (.proc p) m.kmem (some image)).put (.image p) m.kmem none with
      kmem := k } : Machine) = (m.put (.image p) k none).put (.proc p) k (some image) := by
    rw [Machine.mk.injEq]
    exact ⟨rfl, spaces, rfl⟩
  rw [same]
  refine ⟨⟨⟨?_, ?_⟩, ?_, ?_⟩, put_space _, ?_, rfl, ?_⟩
  · have outProc : SpaceId.proc p ∉ all.erase (.proc p) := Finset.notMem_erase _ _
    have outImage : SpaceId.image p ∉ (all.erase (.proc p)).erase (.image p) :=
      Finset.notMem_erase _ _
    rw [exclOf_split inRest, sharedOf_split inRest, made] at holds
    rw [exclOf_split (Finset.mem_univ (.proc p)), sharedOf_split (Finset.mem_univ (.proc p)),
      put_space, exclOf_put _ outProc, sharedOf_put _ outProc, exclOf_split inRest,
      sharedOf_split inRest, put_space, exclOf_put _ outImage, sharedOf_put _ outImage]
    simp only [spaceExcl, spaceShared, zero_add] at holds ⊢
    exact holds
  · intro j sp' space'
    by_cases isProc : j = .proc p
    · subst isProc
      rw [put_space] at space'
      cases space'
      exact inv.table _ _ made
    · rw [put_other _ isProc] at space'
      by_cases isImage : j = .image p
      · subst isImage
        rw [put_space] at space'
        cases space'
      · rw [put_other _ isImage] at space'
        exact inv.table j sp' space'
  · intro j other
    simp only [Set.mem_insert_iff, Set.mem_singleton_iff, not_or] at other
    rw [put_other _ other.1, put_other _ other.2]
  · intro j other sp' space' v user mapped
    simp only [Set.mem_insert_iff, Set.mem_singleton_iff, not_or] at other
    exact sameBytes_of_framed framed (Finset.mem_erase.2 ⟨other.1, Finset.mem_univ j⟩) space' user
      mapped
  · rw [put_other _ distinct, put_space]
  · exact fun v user mapped => sameBytes_of_framed framed inRest made user mapped

/-! ## Every call keeps the invariant -/

theorem call_inv {c : Call} (inv : m.Inv) (allowed : m.Allows c) (called : m.call c = .ok m') :
    m'.Inv := by
  cases c with
  | kalloc =>
    cases called
    exact (kalloc_touches inv rfl).1.inv
  | kfree pa => exact (kfree_touches inv allowed called).1.inv
  | procPagetable id trapframe =>
    obtain ⟨done, run⟩ := of_fst_ok called
    exact (procPagetable_touches inv allowed.1 run).1.inv
  | uvmfirst id src =>
    obtain ⟨⟨sp, space, zero⟩, room⟩ := allowed
    exact (uvmfirst_touches inv space zero room called).1.inv
  | uvmalloc id newsz xperm =>
    obtain ⟨there, perms⟩ := allowed
    obtain ⟨sp, space⟩ := isSome_iff_exists.1 there
    obtain ⟨r, run⟩ := of_fst_ok called
    obtain ⟨k, pt, -, -, touches, -⟩ := uvmalloc_touches inv perms space run
    exact touches.inv
  | uvmdealloc id newsz =>
    obtain ⟨sp, space⟩ := isSome_iff_exists.1 allowed
    obtain ⟨r, run⟩ := of_fst_ok called
    obtain ⟨k, pt, -, -, touches, -⟩ := uvmdealloc_touches inv space run
    exact touches.inv
  | uvmcowpy parent child =>
    obtain ⟨distinct, there, sc, empty, zero⟩ := allowed
    obtain ⟨sp, space⟩ := isSome_iff_exists.1 there
    obtain ⟨r, run⟩ := of_fst_ok called
    obtain ⟨k, old, new, -, -, touches, -⟩ := uvmcowpy_touches inv distinct space empty zero run
    exact touches.inv
  | dupPg id va =>
    obtain ⟨sp, space⟩ := isSome_iff_exists.1 allowed
    obtain ⟨r, run⟩ := of_fst_ok called
    obtain ⟨k, pt, -, -, touches, -⟩ := dupPg_touches inv space run
    exact touches.inv
  | write id va src =>
    obtain ⟨user, fits, sp, space, writable⟩ := allowed
    obtain ⟨e, mapped, flags⟩ := (any_eq_true _ _).1 writable
    simp only [Bool.and_eq_true, Bool.not_eq_true'] at flags
    obtain ⟨-, plain⟩ := flags
    exact (write_touches inv space user mapped plain fits called).2.1.inv
  | uvmclear id va =>
    obtain ⟨there, user, aligned⟩ := allowed
    obtain ⟨sp, space⟩ := isSome_iff_exists.1 there
    obtain ⟨pt, -, -, touches, -⟩ := uvmclear_touches inv space user aligned called
    exact touches.inv
  | procFreepagetable id => exact (procFreepagetable_touches inv called).1.inv
  | commit p =>
    obtain ⟨image, made⟩ := isSome_iff_exists.1 allowed.1
    exact (commit_touches inv made called).1.inv

theorem Run.inv (run : Run m m') (inv : m.Inv) : m'.Inv := by
  induction run with
  | refl => exact inv
  | step _ allowed called ih => exact call_inv ih allowed called

end Machine

end Xv6
