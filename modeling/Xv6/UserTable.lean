import Xv6.CowMemory

/-!
# The page table of a process

`proc_pagetable` builds a table with the trampoline and the trapframe mapped and no
user memory; `proc_freepagetable` gives back everything such a table holds.
`UserTable pt sz` is what every operation keeps: user entries lie below `sz`, and the
two pages above user memory stay mapped and unmarked.
-/

namespace Xv6

open Ownership Fallible PageTable Nat

/-- The shape of a process's page table with user memory `[0, sz)`. -/
structure UserTable (pt : PageTable) (sz : Nat) : Prop where
  small : sz ≤ trapframeVa
  below : ∀ v < userPages, (pt.entry v).isSome → v < npages sz
  readonly : ∀ v e, v < userPages → pt.entry v = some e → e.has pteCow = true →
    e.has pteW = false
  top : TopPlain pt
  trapframe : (pt.entry userPages).isSome

variable {k k' : Kmem} {pt pt' : PageTable} {excl shared : Multiset Nat} {v sz r oldsz newsz : Nat}

/-! ## Tearing down -/

theorem PageTable.mapped_zero {kind : Pte → Multiset Nat}
    (none : ∀ v < userPages, kind (pt.leaf v) = 0) :
    pt.mapped kind = 0 := by
  rw [mapped_eq]
  exact Finset.sum_eq_zero fun v mem => none v (Finset.mem_range.1 mem)

/-- `freewalk` on a page table: it maps no page any more, and its table pages are freed. -/
theorem freewalk_owned (run : freewalk k pt = .ok k') (owned : Owned k pt excl shared) :
    Holds k' excl shared ∧ Framed k k' (excl + shared) := by
  have privs : pt.privs = 0 :=
    mapped_zero fun v _ => privOf_invalid (freewalk_leaf run v)
  have cows : pt.cows = 0 :=
    mapped_zero fun v _ => cowOf_invalid (freewalk_leaf run v)
  unfold Owned at owned
  rw [privs, cows, zero_add, zero_add] at owned
  exact freewalk_holds run owned

/-- `uvmfree`. -/
theorem uvmfree_spec (small : sz ≤ trapframeVa) (run : uvmfree k pt sz = .ok k')
    (owned : Owned k pt excl shared) : Holds k' excl shared ∧ Framed k k' (excl + shared) := by
  unfold uvmfree at run
  split at run
  · obtain ⟨⟨k₁, pt₁⟩, unmapped, walked⟩ := of_bind_ok run
    have count : pgroundup sz / pgsize = npages sz := by
      rw [pgroundup_eq (small.trans (by decide)), Nat.mul_div_cancel _ (by decide)]
    have start : uvmunmap k pt (0 * pgsize) (npages sz) true = .ok (k₁, pt₁) := by
      rw [zero_mul, ← count]
      exact unmapped
    have fits : 0 + npages sz ≤ userPages := by
      rw [zero_add]
      exact npages_le_userPages small
    obtain ⟨evolves, -⟩ := uvmunmap_spec fits start owned
    obtain ⟨holds, framed⟩ := freewalk_owned walked evolves.owned
    exact ⟨holds, evolves.framed.trans framed⟩
  · exact freewalk_owned run owned

/-- `uvmunmap` of one of the two pages above user memory: no page changes hands. -/
theorem unmapTop_spec (above : userPages ≤ v)
    (run : uvmunmap k pt (v * pgsize) 1 false = .ok (k', pt')) :
    k' = k ∧ ∀ excl shared, Owned k pt excl shared → Owned k pt' excl shared := by
  unfold uvmunmap at run
  split at run
  · cases run
  · obtain ⟨rfl, privs, cows⟩ := unmapLoop_keep above run
    obtain ⟨-, -, tables⟩ := unmapLoop_leaf run
    refine ⟨rfl, fun excl shared owned => ?_⟩
    unfold Owned
    rw [privs, cows, tables]
    exact owned

theorem trapframeVa_page : trapframeVa = userPages * pgsize := by
  rw [userPages_eq]
  decide

theorem trampolineVa_page : trampolineVa = (userPages + 1) * pgsize := by
  rw [userPages_eq]
  decide

/-- `proc_freepagetable` gives back what the page table holds. -/
theorem procFreepagetable_spec (small : sz ≤ trapframeVa) (run : procFreepagetable k pt sz = .ok k')
    (owned : Owned k pt excl shared) : Holds k' excl shared ∧ Framed k k' (excl + shared) := by
  unfold procFreepagetable at run
  obtain ⟨⟨k₁, pt₁⟩, trampoline, rest⟩ := of_bind_ok run
  obtain ⟨⟨k₂, pt₂⟩, trapframe, freed⟩ := of_bind_ok rest
  rw [trampolineVa_page] at trampoline
  rw [trapframeVa_page] at trapframe
  obtain ⟨rfl, keep₁⟩ := unmapTop_spec (by omega) trampoline
  obtain ⟨rfl, keep₂⟩ := unmapTop_spec le_rfl trapframe
  exact uvmfree_spec small freed (keep₂ _ _ (keep₁ _ _ owned))

/-! ## Setting up -/

/-- Mapping a page above user memory: only tables change hands. -/
theorem mapTop_spec {pa : Nat} {perm : Pte} {r : Int} (above : userPages ≤ v)
    (lt : v * pgsize < maxva) (run : mappages k pt (v * pgsize) pgsize pa perm = .ok (k', pt', r))
    (owned : Owned k pt excl shared) : Owned k' pt' excl shared ∧ Framed k k' (excl + shared) ∧
      ((r = 0 ∧ ∀ w, w * pgsize < maxva →
          pt'.entry w = if w = v then some (mapEntry pa perm) else pt.entry w) ∨
        (r = -1 ∧ ∀ w, pt'.entry w = pt.entry w)) := by
  rw [mappages_page lt] at run
  obtain ⟨⟨k₁, pt₁, found⟩, one, last⟩ := of_bind_ok run
  cases last
  cases found with
  | false =>
    obtain ⟨owned', framed⟩ := mapOne_null one owned
    obtain ⟨-, leaf⟩ | ⟨yes, -⟩ := mapOne_leaf lt one
    · exact ⟨owned', framed.mono fun _ => rest_kept _, .inr ⟨rfl, fun w => entry_congr (leaf w)⟩⟩
    · cases yes
  | true =>
    obtain ⟨pt₀, walked, ⟨no, -⟩ | ⟨-, -, rfl⟩⟩ := mapOne_cases one
    · cases no
    · obtain ⟨owned', framed⟩ := walkAlloc_owned walked owned
      have found := walkAlloc_found walked
      refine ⟨?_, framed.mono fun _ => rest_kept _, .inl ⟨rfl, fun w ltW => ?_⟩⟩
      · unfold Owned at owned' ⊢
        rw [tables_store, privs, cows, mapped_store_of_ge _ above lt found,
          mapped_store_of_ge _ above lt found]
        exact owned'
      · rw [entry_store lt ltW found (mapEntry_valid pa perm)]
        split
        · rfl
        · exact entry_congr (walkAlloc_leaf walked w)

theorem uvmcreate_leaf (new : uvmcreate k = (k', some pt)) (w : Nat) : pt.leaf w = 0 := by
  unfold leaf lookup
  rw [newTable_slots new]
  rfl

theorem uvmcreate_owned (new : uvmcreate k = (k', some pt)) (holds : Holds k excl shared) :
    Owned k' pt excl shared ∧ Framed k k' (excl + shared) := by
  obtain ⟨holds', framed⟩ := newTable_holds (slotPages lowPages) new rfl holds
  have invalid (w : Nat) : (pt.leaf w).has pteV = false := by
    rw [uvmcreate_leaf new, Pte.has_zero]
  have privs : pt.privs = 0 := mapped_zero fun v _ => privOf_invalid (invalid v)
  have cows : pt.cows = 0 := mapped_zero fun v _ => cowOf_invalid (invalid v)
  refine ⟨?_, framed⟩
  unfold Owned
  rw [privs, cows, zero_add, zero_add]
  exact holds'

/-- What `proc_pagetable` hands out: a table without user memory, or nothing. -/
theorem procPagetable_spec {trapframe : Nat} {result : Option PageTable}
    (run : procPagetable k trapframe = .ok (k', result)) (holds : Holds k excl shared) :
    Framed k k' (excl + shared) ∧
      match result with
      | none => Holds k' excl shared
      | some pt => Owned k' pt excl shared ∧ UserTable pt 0 ∧
          ∀ v < userPages, pt.entry v = none := by
  unfold procPagetable at run
  cases create : uvmcreate k with
  | mk k₁ new =>
  rw [create] at run
  cases new with
  | none =>
    cases run
    obtain ⟨rfl, -⟩ := newTable_null create
    exact ⟨.refl _ _, holds⟩
  | some pt₁ =>
    obtain ⟨owned₁, framed₁⟩ := uvmcreate_owned create holds
    obtain ⟨⟨k₂, pt₂, r⟩, trampoline, run⟩ := of_bind_ok run
    rw [trampolineVa_page] at trampoline
    have lt : (userPages + 1) * pgsize < maxva := by
      rw [userPages_eq]
      decide
    obtain ⟨owned₂, framed₂, ⟨rfl, entries₂⟩ | ⟨rfl, -⟩⟩ :=
      mapTop_spec (by omega) lt trampoline owned₁
    · simp only [Int.lt_irrefl, if_false] at run
      obtain ⟨⟨k₃, pt₃, r⟩, frame, run⟩ := of_bind_ok run
      rw [trapframeVa_page] at frame
      obtain ⟨owned₃, framed₃, ⟨rfl, entries₃⟩ | ⟨rfl, -⟩⟩ :=
        mapTop_spec le_rfl userPages_lt_maxva frame owned₂
      · simp only [Int.lt_irrefl, if_false] at run
        cases run
        have empty (w : Nat) : pt₁.entry w = none := entry_zero_leaf (uvmcreate_leaf create w)
        have entries (w : Nat) (ltW : w * pgsize < maxva) := entries₃ w ltW
        have unmapped (w : Nat) (user : w < userPages) : pt₃.entry w = none := by
          rw [entries w (userPage_lt user), if_neg (by omega),
            entries₂ w (userPage_lt user), if_neg (by omega), empty]
        refine ⟨(framed₁.trans framed₂).trans framed₃, owned₃, ⟨by decide, ?_, ?_, ?_, ?_⟩,
          unmapped⟩
        · intro v user mapped
          rw [unmapped v user] at mapped
          cases mapped
        · intro v e user mapped
          rw [unmapped v user] at mapped
          cases mapped
        · intro v e above ltV mapped
          rw [entries v ltV, entries₂ v ltV] at mapped
          split at mapped
          · cases mapped
            rw [mapEntry_has (by decide), mapEntry_has (by decide)]
            decide
          · split at mapped
            · cases mapped
              rw [mapEntry_has (by decide), mapEntry_has (by decide)]
              decide
            · rw [empty] at mapped
              cases mapped
        · rw [entries _ userPages_lt_maxva, if_pos rfl]
          rfl
      · simp only [Int.reduceNeg, Int.reduceLT, if_true] at run
        obtain ⟨⟨k₄, pt₄⟩, unmapped, run⟩ := of_bind_ok run
        obtain ⟨k₅, freed, last⟩ := of_bind_ok run
        cases last
        rw [trampolineVa_page] at unmapped
        obtain ⟨rfl, keep⟩ := unmapTop_spec (by omega) unmapped
        obtain ⟨holds', framed⟩ := uvmfree_spec (by decide) freed (keep _ _ owned₃)
        exact ⟨((framed₁.trans framed₂).trans framed₃).trans framed, holds'⟩
    · simp only [Int.reduceNeg, Int.reduceLT, if_true] at run
      obtain ⟨k₃, freed, last⟩ := of_bind_ok run
      cases last
      obtain ⟨holds', framed⟩ := uvmfree_spec (by decide) freed owned₂
      exact ⟨(framed₁.trans framed₂).trans framed, holds'⟩

/-! ## Losing user access -/

theorem clear_has {e m : Pte} (keeps : ~~~pteU &&& m = m) : (e &&& ~~~pteU).has m = e.has m :=
  Pte.has_and_of_subset keeps

/-- `uvmclear` changes the rights of one entry and no page. -/
theorem uvmclear_spec (user : v < userPages) (run : uvmclear pt (v * pgsize) = .ok pt')
    (owned : Owned k pt excl shared) : Owned k pt' excl shared ∧
      (∀ w, w * pgsize < maxva →
        pt'.entry w = if w = v then (pt.entry v).map (· &&& ~~~pteU) else pt.entry w) ∧
      ∀ w, w * pgsize < maxva → pte2pa (pt'.leaf w) = pte2pa (pt.leaf w) := by
  unfold uvmclear at run
  obtain ⟨found, walked, run⟩ := of_bind_ok run
  have lt := userPage_lt user
  rw [walk, if_neg (by omega)] at walked
  cases walked
  cases look : pt.lookup (v * pgsize) with
  | none =>
    rw [look] at run
    cases run
  | some e =>
    rw [look] at run
    cases run
    have found : (pt.lookup (v * pgsize)).isSome := by rw [look]; rfl
    have leaf : pt.leaf v = e := by
      have := leaf_of_lookup look
      rwa [Nat.mul_div_cancel _ (by decide)] at this
    have kept : pte2pa (e &&& ~~~pteU) = pte2pa e := Pte.pte2pa_and _ _ (by decide)
    have valid : (e &&& ~~~pteU).has pteV = e.has pteV := clear_has (by decide)
    have cow : (e &&& ~~~pteU).has pteCow = e.has pteCow := clear_has (by decide)
    refine ⟨?_, fun w ltW => ?_, fun w ltW => ?_⟩
    · obtain ⟨privRest, cowRest, priv, cowPages, stored⟩ := split_at user found
      obtain ⟨privs', cows'⟩ := stored (e &&& ~~~pteU)
      have samePriv : privOf (e &&& ~~~pteU) = privOf e := by
        simp only [privOf, valid, cow, kept]
      have sameCow : cowOf (e &&& ~~~pteU) = cowOf e := by
        simp only [cowOf, valid, cow, kept]
      unfold Owned at owned ⊢
      rw [leaf] at priv cowPages
      rw [tables_store, privs', cows', samePriv, sameCow, ← priv, ← cowPages]
      exact owned
    · have here := leaf_store (e &&& ~~~pteU) lt ltW found
      split at here
      · rename_i same
        rw [if_pos same]
        unfold entry
        rw [here, leaf, valid]
        split <;> rfl
      · rename_i other
        rw [if_neg other]
        exact entry_congr here
    · rw [leaf_store _ lt ltW found]
      split
      · rename_i same
        rw [same, leaf, kept]
      · rfl

/-! ## The shape is kept -/

namespace UserTable

theorem entry_above (table : UserTable pt sz) {w : Nat} (high : npages sz ≤ w)
    (user : w < userPages) : pt.entry w = none := by
  cases mapped : pt.entry w with
  | none => rfl
  | some e =>
    have := table.below w user (by rw [mapped]; rfl)
    omega

theorem entry {e : Pte} (table : UserTable pt sz) (user : v < userPages)
    (mapped : pt.entry v = some e) :
    v < npages sz ∧ (e.has pteCow = true → e.has pteW = false) :=
  ⟨table.below v user (by rw [mapped]; rfl), table.readonly v e user mapped⟩

/-- A change of user entries only. -/
theorem edit {sz' : Nat} (table : UserTable pt sz) (room : sz' ≤ trapframeVa)
    (top : ∀ w, userPages ≤ w → w * pgsize < maxva → pt'.entry w = pt.entry w)
    (users : ∀ v e, v < userPages → pt'.entry v = some e →
      v < npages sz' ∧ (e.has pteCow = true → e.has pteW = false)) : UserTable pt' sz' := by
  refine ⟨room, fun v user mapped => ?_, fun v e user mapped => (users v e user mapped).2,
    fun v e high lt mapped => ?_, ?_⟩
  · obtain ⟨e, entry⟩ := Option.isSome_iff_exists.1 mapped
    exact (users v e user entry).1
  · rw [top v high lt] at mapped
    exact table.top v e high lt mapped
  · rw [top _ le_rfl userPages_lt_maxva]
    exact table.trapframe

/-- A page that the user can write to lies below the trapframe and is not shared. -/
theorem writable {va : Nat} (table : UserTable pt sz) (lt : va < maxva)
    (hit : (pt.entry (va / pgsize)).any (fun e => e.has pteU && e.has pteW) = true) :
    ∃ e, va / pgsize < userPages ∧ pt.entry (va / pgsize) = some e ∧ e.has pteCow = false := by
  obtain ⟨e, mapped, flags⟩ := (Option.any_eq_true _ _).1 hit
  rw [Bool.and_eq_true] at flags
  have user : va / pgsize < userPages := by
    by_contra above
    have closed := (table.top _ e (Nat.le_of_not_lt above)
      ((Nat.div_mul_le_self _ _).trans_lt lt) mapped).2
    rw [closed] at flags
    cases flags.1
  refine ⟨e, user, mapped, ?_⟩
  cases marked : e.has pteCow with
  | false => rfl
  | true =>
    rw [table.readonly _ e user mapped marked] at flags
    cases flags.2

/-- Growing with permissions that do not contain the mark. -/
theorem grow {xperm : Pte} (perms : PlainPerm (pteR ||| pteU ||| xperm))
    (table : UserTable pt oldsz) (run : uvmalloc k pt oldsz newsz xperm = .ok (k', pt', r))
    (owned : Owned k pt excl shared) : UserTable pt' (if r = 0 then oldsz else r) := by
  obtain ⟨-, ⟨rmax, room, fresh, others⟩ | ⟨rfl, same⟩⟩ :=
    uvmalloc_spec perms table.small table.trapframe run owned
  · have size : (if r = 0 then oldsz else r) = r := by
      split <;> omega
    have grows : npages oldsz ≤ npages r := npages_mono (by omega)
    have limit := npages_le_userPages room
    have above (w : Nat) (high : userPages ≤ w) (lt : w * pgsize < maxva) :
        pt'.entry w = pt.entry w := others w lt (by omega)
    rw [size]
    refine table.edit room above fun v e user mapped => ?_
    by_cases new : npages oldsz ≤ v ∧ v < npages r
    · refine ⟨new.2, fun marked => ?_⟩
      obtain ⟨-, -, pa, entry⟩ := fresh v new.1 new.2
      rw [entry] at mapped
      cases mapped
      rw [mapEntry_cow, perms.plain] at marked
      cases marked
    · rw [others v (userPage_lt user) new] at mapped
      obtain ⟨low, readonly⟩ := table.entry user mapped
      exact ⟨by omega, readonly⟩
  · rw [if_pos rfl]
    refine table.edit table.small (fun w _ lt => same w lt) fun v e user mapped => ?_
    rw [same v (userPage_lt user)] at mapped
    exact table.entry user mapped

theorem shrink (table : UserTable pt oldsz) (run : uvmdealloc k pt oldsz newsz = .ok (k', pt', r))
    (owned : Owned k pt excl shared) : UserTable pt' r := by
  obtain ⟨-, rmin, entries⟩ := uvmdealloc_spec table.small run owned
  have limit := npages_le_userPages table.small
  have small := table.small
  refine table.edit (by omega) (fun w high lt => by rw [entries w lt, if_neg (by omega)])
    fun v e user mapped => ?_
  rw [entries v (userPage_lt user)] at mapped
  split_ifs at mapped with dropped
  obtain ⟨low, readonly⟩ := table.entry user mapped
  refine ⟨?_, readonly⟩
  rcases le_total oldsz newsz with le | le
  · rwa [rmin, min_eq_left le]
  · rw [rmin, min_eq_right le]
    omega

/-- A change of one user entry to a valid one that is not both marked and writable. -/
theorem set_entry {e₀ : Pte} (e₁ : Pte) (table : UserTable pt sz) (user : v < userPages)
    (mapped : pt.entry v = some e₀)
    (entries : ∀ w, w * pgsize < maxva → pt'.entry w = if w = v then some e₁ else pt.entry w)
    (readonly : e₁.has pteCow = true → e₁.has pteW = false) : UserTable pt' sz := by
  refine table.edit table.small (fun w high lt => by rw [entries w lt, if_neg (by omega)])
    fun w e userW mappedW => ?_
  rw [entries w (userPage_lt userW)] at mappedW
  split_ifs at mappedW with here
  · cases mappedW
    rw [here]
    exact ⟨(table.entry user mapped).1, readonly⟩
  · exact table.entry userW mappedW

end UserTable

theorem cowEntry_readonly (e : Pte) : (cowEntry e).has pteW = false := by
  rw [cowEntry, Pte.has_or, Pte.has_and_of_disjoint (by decide)]
  decide

theorem childEntry_readonly (e : Pte) : (childEntry e).has pteW = false := by
  rw [childEntry, mapEntry_has (by decide), Pte.has_or, Pte.has_pteFlags (by decide),
    cowEntry_readonly]
  decide

/-- Both tables after `uvmcowpy` into a table without user memory. -/
theorem uvmcowpy_spec {old new old' new' : PageTable} (parent : UserTable old sz)
    (child : UserTable new 0) (run : uvmcowpy k old new sz = .ok (k', old', new', r))
    (owned : PairOwned k old new excl shared) :
    CowCopied k old new k' old' new' 0 (npages sz) r excl shared ∧
      UserTable old' sz ∧ UserTable new' sz := by
  have fits : 0 + npages sz ≤ userPages := by
    rw [zero_add]
    exact npages_le_userPages parent.small
  have loop : cowLoop (npages sz) k old new (0 * pgsize) = .ok (k', old', new', r) := by
    rw [zero_mul]
    exact run
  have copied := cowLoop_spec fits loop owned
  have empty (v : Nat) (user : v < userPages) : new.entry v = none :=
    child.entry_above (zero_le v) user
  have grown (w : Nat) (lt : w * pgsize < maxva) :
      new'.entry w = new.entry w ∨ (w < npages sz ∧ ∃ e, new'.entry w = some (childEntry e)) := by
    rcases copied.child with ⟨-, all, others⟩ | ⟨-, others⟩
    · by_cases inside : w < npages sz
      · obtain ⟨e, -, -, -, entry⟩ := all w (by omega) (by omega)
        exact .inr ⟨inside, e, entry⟩
      · exact .inl (others w lt (by omega))
    · left
      rw [others w lt, if_neg (by omega)]
  refine ⟨copied, parent.edit parent.small (fun w high lt => ?_) fun v e user mapped => ?_,
    child.edit parent.small (fun w high lt => ?_) fun v e user mapped => ?_⟩
  · rcases copied.parent w lt with same | ⟨e', -, below, -⟩
    · exact same
    · omega
  · rcases copied.parent v (userPage_lt user) with same | ⟨e', -, below, -, after⟩
    · rw [same] at mapped
      exact parent.entry user mapped
    · rw [after] at mapped
      cases mapped
      exact ⟨by omega, fun _ => cowEntry_readonly e'⟩
  · rcases grown w lt with same | ⟨below, -⟩
    · exact same
    · omega
  · rcases grown v (userPage_lt user) with same | ⟨below, e', entry⟩
    · rw [same, empty v user] at mapped
      cases mapped
    · rw [entry] at mapped
      cases mapped
      exact ⟨below, fun _ => childEntry_readonly e'⟩

end Xv6
