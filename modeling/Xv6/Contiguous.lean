import Xv6.Copyout
import Xv6.DupPg
import Xv6.Teardown

/-!
# Contiguous user memory

The page table of a process maps exactly the pages of `[0, PGROUNDUP(sz))`, each readable.
Every function that changes it keeps this, and none of them panics on such a table: what
`uvmunmap` is asked to remove is there, what `mappages` is asked to add is not, and
`freewalk` finds no leaf.

A table cannot reach the trapframe either.  Its pages are different ones (`apart`), so that
it runs out of memory first.
-/

namespace Xv6

open Ownership Fallible PageTable Finset Nat Pte

variable {k k' : Kmem} {pt pt' old new old' new' : PageTable} {excl shared : Multiset Nat}
  {v w n n' oldsz newsz r sz : Nat} {e xperm f perm : Pte}

/-- A page table with the `n` lowest pages, the trapframe and the trampoline mapped. -/
structure Contiguous (pt : PageTable) (n : Nat) : Prop where
  low : LowHalf pt
  fits : n ≤ userPages
  mapped : ∀ v < userPages, (pt.entry v).isSome ↔ v < n
  top : ∀ v, userPages ≤ v → v * pgsize < maxva → (pt.entry v).isSome
  readable : ∀ v e, v * pgsize < maxva → pt.entry v = some e → e.has pteR = true
  apart : ∀ v w e f, v < userPages → w < userPages → pt.entry v = some e → pt.entry w = some f →
    e.has pteCow = true → f.has pteCow = true → pte2pa e = pte2pa f → v = w

/-- An entry with a permission is a leaf. -/
theorem leaf_of_readable (readable : e.has pteR = true) : pteFlags e ≠ pteV := by
  intro same
  rw [← has_pteFlags (by decide), same] at readable
  revert readable
  decide

namespace Contiguous

section

variable (pages : Contiguous pt n)
include pages

theorem entry_of_lt (lt : v < n) : ∃ e, pt.entry v = some e ∧ pteFlags e ≠ pteV := by
  have user := lt.trans_le pages.fits
  obtain ⟨e, entry⟩ := Option.isSome_iff_exists.1 ((pages.mapped v user).2 lt)
  exact ⟨e, entry, leaf_of_readable (pages.readable v e (userPage_lt user) entry)⟩

theorem entry_of_ge (ge : n ≤ v) (user : v < userPages) : pt.entry v = none := by
  cases entry : pt.entry v with
  | none => rfl
  | some e =>
    have := (pages.mapped v user).1 (by rw [entry]; rfl)
    omega

/-- A change of user entries that marks no page which was not marked. -/
theorem change (low : LowHalf pt') (fits : n' ≤ userPages)
    (mapped : ∀ v < userPages, (pt'.entry v).isSome ↔ v < n')
    (top : ∀ v, userPages ≤ v → v * pgsize < maxva → pt'.entry v = pt.entry v)
    (user : ∀ v < userPages, ∀ e, pt'.entry v = some e → e.has pteR = true ∧
      (e.has pteCow = true → ∃ f, pt.entry v = some f ∧ f.has pteCow = true ∧
        pte2pa e = pte2pa f)) : Contiguous pt' n' := by
  refine ⟨low, fits, mapped, fun v above lt => ?_, fun v e lt entry => ?_,
    fun v w e f userV userW entryV entryW markV markW same => ?_⟩
  · rw [top v above lt]
    exact pages.top v above lt
  · grind [pages.readable v e]
  · obtain ⟨e₀, before, mark, eq⟩ := (user v userV e entryV).2 markV
    obtain ⟨f₀, before', mark', eq'⟩ := (user w userW f entryW).2 markW
    exact pages.apart v w e₀ f₀ userV userW before before' mark mark' (by rw [← eq, ← eq', same])

/-- The same entries. -/
theorem congr (low : LowHalf pt')
    (same : ∀ v, v * pgsize < maxva → pt'.entry v = pt.entry v) : Contiguous pt' n := by
  refine pages.change low pages.fits (fun v user => ?_) (fun v _ lt => same v lt)
    fun v user e entry => ?_
  · grind [pages.mapped v user, userPage_lt user]
  · grind [pages.readable v e, userPage_lt user]

/-- Another entry for a page that is mapped. -/
theorem set_entry {e₀ e₁ : Pte} (low : LowHalf pt')
    (user : v < userPages) (mapped : pt.entry v = some e₀)
    (entries : ∀ w, w * pgsize < maxva → pt'.entry w = if w = v then some e₁ else pt.entry w)
    (readable : e₁.has pteR = true)
    (marked : e₁.has pteCow = true → e₀.has pteCow = true ∧ pte2pa e₁ = pte2pa e₀) :
    Contiguous pt' n := by
  refine pages.change low pages.fits (fun w userW => ?_) (fun w above lt => ?_)
    fun w userW e entry => ?_
  · grind [pages.mapped w userW, userPage_lt userW]
  · rw [entries w lt, if_neg (by omega)]
  · grind [pages.readable w e, userPage_lt userW]

end

/-! ## Different pages -/

section

variable (pages : Contiguous pt n) (owned : Owned k pt excl shared)
include pages owned

/-- Two user pages of a table are different pages of memory. -/
theorem injective (userV : v < userPages) (userW : w < userPages) (entryV : pt.entry v = some e)
    (entryW : pt.entry w = some f) (same : pte2pa e = pte2pa f) : v = w := by
  by_contra other
  cases markV : e.has pteCow with
  | false => exact owned.alone userV entryV markV userW (Ne.symm other) entryW same.symm
  | true =>
    cases markW : f.has pteCow with
    | false => exact owned.alone userW entryW markW userV other entryV same
    | true => exact other (pages.apart v w e f userV userW entryV entryW markV markW same)

/-- A table has no more user pages than there is memory. -/
theorem pages_le : n ≤ phystop / pgsize := by
  have held (v : Nat) (lt : v < n) : k.IsPage (pte2pa (pt.leaf v)) := by
    obtain ⟨e, entry, -⟩ := pages.entry_of_lt lt
    obtain ⟨leaf, valid⟩ := entry_eq_some.1 entry
    exact owned.isPage_leaf (lt.trans_le pages.fits) (by rw [leaf, valid])
  have room : (range n).card ≤ (range (phystop / pgsize)).card := by
    refine card_le_card_of_injOn (fun v => pte2pa (pt.leaf v) / pgsize)
      (fun v mem => ?_) fun v memV w memW same => ?_
    · obtain ⟨-, -, below⟩ := held v (mem_range.1 mem)
      exact mem_coe.2 (mem_range.2 (div_lt_div_of_lt_of_dvd (by decide) below))
    · have ltV := mem_range.1 (mem_coe.1 memV)
      have ltW := mem_range.1 (mem_coe.1 memW)
      obtain ⟨e, entryV, -⟩ := pages.entry_of_lt ltV
      obtain ⟨f, entryW, -⟩ := pages.entry_of_lt ltW
      have alignedV := (held v ltV).aligned
      have alignedW := (held w ltW).aligned
      refine pages.injective owned (ltV.trans_le pages.fits) (ltW.trans_le pages.fits) entryV
        entryW ?_
      rw [← (entry_eq_some.1 entryV).1, ← (entry_eq_some.1 entryW).1]
      simp only [pgsize] at *
      omega
  simpa using room

/-- So the next page is below the trapframe. -/
theorem lt_userPages : n < userPages := by
  refine (pages.pages_le owned).trans_lt ?_
  rw [userPages_eq]
  decide

end

end Contiguous

/-! ## Shrinking -/

theorem LowHalf.uvmdealloc {oldsz newsz r : Nat} (low : LowHalf pt)
    (run : uvmdealloc k pt oldsz newsz = .ok (k', pt', r)) : LowHalf pt' := by
  unfold Xv6.uvmdealloc at run
  split at run
  · cases run
    exact low
  · split at run
    · obtain ⟨⟨k₁, pt₁⟩, unmapped, last⟩ := of_bind_ok run
      cases last
      exact low.uvmunmap unmapped
    · cases run
      exact low

namespace Contiguous

/-- `uvmunmap` of the highest pages. -/
theorem unmapLoop_succeeds (pages : Contiguous pt n) (le : v ≤ n) (owned : Owned k pt excl shared) :
    Succeeds (unmapLoop true (n - v) k pt (v * pgsize)) := by
  have fits := pages.fits
  exact unmapLoop_ok (by omega) (fun w _ high => pages.entry_of_lt (by omega)) owned

theorem uvmdealloc_succeeds (newsz : Nat) (small : oldsz ≤ trapframeVa)
    (pages : Contiguous pt (npages oldsz)) (owned : Owned k pt excl shared) :
    Succeeds (uvmdealloc k pt oldsz newsz) := by
  have max : oldsz ≤ maxva := small.trans (by decide)
  unfold uvmdealloc
  split
  · exact .ok _
  · rename_i shrinks
    have fewer := npages_mono (show newsz ≤ oldsz by omega)
    rw [pgroundup_eq max, pgroundup_eq (show newsz ≤ maxva by omega)]
    split
    · simp only [page_sub_div]
      unfold uvmunmap
      rw [if_neg (by simp)]
      exact (pages.unmapLoop_succeeds fewer owned).bind fun _ _ => .ok _
    · exact .ok _

theorem shrink (small : oldsz ≤ trapframeVa) (pages : Contiguous pt (npages oldsz))
    (owned : Owned k pt excl shared) (run : uvmdealloc k pt oldsz newsz = .ok (k', pt', r)) :
    Contiguous pt' (npages r) := by
  obtain ⟨-, rfl, entries⟩ := uvmdealloc_spec small run owned
  have fewer : npages (min oldsz newsz) = min (npages oldsz) (npages newsz) := by
    simp only [npages, pgsize]
    omega
  have fits := pages.fits
  refine pages.change (pages.low.uvmdealloc run) (by omega) (fun v user => ?_)
    (fun v above lt => ?_) fun v user e entry => ?_
  · grind [pages.mapped v user, userPage_lt user]
  · rw [entries v lt, if_neg (by omega)]
  · grind [pages.readable v e, userPage_lt user]

/-! ## Growing -/

/-- A fresh page after the last one. -/
theorem push {mem : Nat} (perms : PlainPerm perm) (readable : perm.has pteR = true)
    (pages : Contiguous pt v) (user : v < userPages) (low : LowHalf pt')
    (entries : ∀ w, w * pgsize < maxva →
      pt'.entry w = if w = v then some (mapEntry mem perm) else pt.entry w) :
    Contiguous pt' (v + 1) := by
  refine pages.change low user (fun w userW => ?_) (fun w above lt => ?_) fun w userW e entry => ?_
  · grind [pages.mapped w userW, userPage_lt userW]
  · rw [entries w lt, if_neg (by omega)]
  · have made : (mapEntry mem perm).has pteR = true ∧ (mapEntry mem perm).has pteCow = false := by
      rw [mapEntry_has (by decide), mapEntry_cow, readable, perms.plain]
      exact ⟨rfl, rfl⟩
    grind [pages.readable w e, userPage_lt userW]

/-- The loop of `uvmalloc` runs out of memory before it runs into the trapframe. -/
theorem growLoop_succeeds {v₀ : Nat} (perms : PlainPerm (pteR ||| pteU ||| xperm)) (start : v₀ ≤ v)
    (pages : Contiguous pt v) (owned : Owned k pt excl shared) :
    Succeeds (growLoop (v₀ * pgsize) xperm n k pt (v * pgsize)) := by
  induction n generalizing k pt v with
  | zero => exact .ok _
  | succ n ih =>
    have user := pages.lt_userPages owned
    have lt := userPage_lt user
    have room := userPages_room pages.fits
    have back {k₁ : Kmem} {pt₁ : PageTable} (pages₁ : Contiguous pt₁ v)
        (owned₁ : Owned k₁ pt₁ excl shared) :
        Succeeds (uvmdealloc k₁ pt₁ (v * pgsize) (v₀ * pgsize)) :=
      uvmdealloc_succeeds _ room (by rwa [npages_mul]) owned₁
    unfold growLoop
    cases alloc : kalloc k with
    | mk k₁ r =>
    cases r with
    | none =>
      obtain ⟨rfl, -⟩ := kalloc_none alloc
      exact (back pages owned).bind fun _ _ => .ok _
    | some mem =>
      simp only [mappages_page lt]
      have absent := entry_eq_none.1 (pages.entry_of_ge le_rfl user)
      have maps : Succeeds (mapOne { k₁ with mem := memset k₁.mem mem 0 pgsize } pt (v * pgsize)
          mem (pteR ||| pteU ||| xperm)) := mapOne_ok lt absent
      obtain ⟨⟨k₂, pt₂, found⟩, one⟩ := maps
      simp only [one, bind, Except.bind]
      obtain ⟨mapped, failed⟩ := growRound_spec perms user alloc one owned
      have low := pages.low.mapOne one
      cases found with
      | true =>
        obtain ⟨evolves, -, entries, -⟩ := mapped rfl
        have readable : (pteR ||| pteU ||| xperm).has pteR = true := by
          rw [has_or, has_or]
          rfl
        have next : v * pgsize + pgsize = (v + 1) * pgsize := by ring
        simp only [if_true, ne_eq, not_true_eq_false, if_false, next]
        exact ih (by omega) (pages.push perms readable user low entries) evolves.owned
      | false =>
        obtain ⟨owned₂, -, leaves⟩ := failed rfl
        obtain ⟨k₃, freed, owned₃, -⟩ := kfree_owned owned₂
        simp only [Bool.false_eq_true, if_false]
        rw [if_pos (by decide), freed]
        have pages₂ := pages.congr low fun w _ => entry_congr (leaves w)
        exact (back pages₂ owned₃).bind fun _ _ => .ok _

theorem uvmalloc_succeeds (newsz : Nat) (perms : PlainPerm (pteR ||| pteU ||| xperm))
    (small : oldsz ≤ trapframeVa) (pages : Contiguous pt (npages oldsz))
    (owned : Owned k pt excl shared) : Succeeds (uvmalloc k pt oldsz newsz xperm) := by
  have max : oldsz ≤ maxva := small.trans (by decide)
  unfold uvmalloc
  split
  · exact .ok _
  · simp only [pgroundup_eq max]
    exact (pages.growLoop_succeeds perms le_rfl owned).bind fun _ _ => .ok _

end Contiguous

theorem LowHalf.growLoop {a : Nat} {done : Bool} (low : LowHalf pt)
    (run : growLoop oldsz xperm n k pt a = .ok (k', pt', done)) : LowHalf pt' := by
  induction n generalizing k pt a with
  | zero =>
    cases run
    exact low
  | succ n ih =>
    unfold Xv6.growLoop at run
    cases alloc : kalloc k with
    | mk k₁ new =>
    rw [alloc] at run
    cases new with
    | none =>
      obtain ⟨⟨k₂, pt₂, r⟩, back, last⟩ := of_bind_ok run
      cases last
      exact low.uvmdealloc back
    | some mem =>
      obtain ⟨⟨k₂, pt₂, r⟩, made, rest⟩ := of_bind_ok run
      have low₂ := low.mappages made
      simp only at rest
      split at rest
      · obtain ⟨k₃, -, rest⟩ := of_bind_ok rest
        obtain ⟨⟨k₄, pt₄, r₄⟩, back, last⟩ := of_bind_ok rest
        cases last
        exact low₂.uvmdealloc back
      · exact ih low₂ rest

theorem LowHalf.uvmalloc (low : LowHalf pt)
    (run : uvmalloc k pt oldsz newsz xperm = .ok (k', pt', r)) : LowHalf pt' := by
  unfold Xv6.uvmalloc at run
  split at run
  · cases run
    exact low
  · obtain ⟨⟨k₁, pt₁, done⟩, loop, last⟩ := of_bind_ok run
    cases last
    exact low.growLoop loop

theorem Contiguous.grow (perms : PlainPerm (pteR ||| pteU ||| xperm)) (table : UserTable pt oldsz)
    (pages : Contiguous pt (npages oldsz)) (owned : Owned k pt excl shared)
    (run : uvmalloc k pt oldsz newsz xperm = .ok (k', pt', r)) :
    Contiguous pt' (npages (if r = 0 then oldsz else r)) := by
  have low := pages.low.uvmalloc run
  obtain ⟨-, ⟨larger, room, fresh, others⟩ | ⟨rfl, same⟩⟩ :=
    uvmalloc_spec perms table.small table.trapframe run owned
  · have size : (if r = 0 then oldsz else r) = r := by
      split <;> omega
    have more : npages oldsz ≤ npages r := npages_mono (by omega)
    have fits := npages_le_userPages room
    rw [size]
    refine pages.change low fits (fun v user => ?_) (fun v above lt => others v lt (by omega))
      fun v user e entry => ?_
    · grind [pages.mapped v user, userPage_lt user]
    · have lt := userPage_lt user
      by_cases new : npages oldsz ≤ v ∧ v < npages r
      · obtain ⟨-, -, pa, made⟩ := fresh v new.1 new.2
        rw [made] at entry
        cases entry
        rw [mapEntry_has (by decide), mapEntry_cow, perms.plain, has_or, has_or]
        exact ⟨rfl, by rintro ⟨⟩⟩
      · rw [others v lt new] at entry
        exact ⟨pages.readable v e lt entry, fun mark => ⟨e, entry, mark, rfl⟩⟩
  · rw [if_pos rfl]
    exact pages.congr low same

/-! ## Copying -/

theorem LowHalf.cowLoop (lowOld : LowHalf old) (lowNew : LowHalf new)
    (run : cowLoop n k old new (v * pgsize) = .ok (k', old', new', r)) :
    LowHalf old' ∧ LowHalf new' := by
  induction n generalizing k old new v with
  | zero =>
    cases run
    exact ⟨lowOld, lowNew⟩
  | succ n ih =>
    obtain ⟨e, k₁, new₁, lt, -, ⟨one, rest⟩ | ⟨one, unmapped, rfl, -⟩⟩ := cowLoop_cases run
    · obtain ⟨k₂, found, mapped, -⟩ := cowmappage_cases lt one
      exact ih (lowOld.store _ _) (lowNew.mapOne mapped) rest
    · obtain ⟨k₂, found, mapped, -⟩ := cowmappage_cases lt one
      exact ⟨lowOld.store _ _, (lowNew.mapOne mapped).uvmunmap unmapped⟩

theorem cowEntry_readable (readable : e.has pteR = true) : (cowEntry e).has pteR = true := by
  rw [cowEntry_has (by decide), readable, Bool.true_or]

theorem childEntry_readable (readable : e.has pteR = true) : (childEntry e).has pteR = true := by
  rw [childEntry, mapEntry_has (by decide), has_or, has_pteFlags (by decide),
    cowEntry_readable readable]
  rfl

theorem dupEntry_readable (pa : Nat) : (dupEntry pa).has pteR = true := by
  rw [dupEntry, has_and_of_subset (by decide)]
  simp only [has_or, Bool.or_eq_true]
  simp [show pteR.has pteR = true by decide]

namespace Contiguous

/-- A table whose user pages are pages of another one. -/
theorem of_copy {base : PageTable} {f : Pte → Pte} (pages : Contiguous pt n)
    (owned : Owned k pt excl shared) (top : ∀ v, userPages ≤ v → v * pgsize < maxva →
      pt'.entry v = base.entry v) (above : ∀ v, userPages ≤ v → v * pgsize < maxva →
      ∃ e, base.entry v = some e ∧ e.has pteR = true) (low : LowHalf pt')
    (inside : ∀ v < n, ∃ e, pt.entry v = some e ∧ pt'.entry v = some (f e))
    (outside : ∀ v, n ≤ v → v < userPages → pt'.entry v = none)
    (same : ∀ v < n, ∀ e, pt.entry v = some e → pte2pa (f e) = pte2pa e)
    (readable : ∀ e, e.has pteR = true → (f e).has pteR = true) : Contiguous pt' n := by
  have fits := pages.fits
  have source (v : Nat) (e : Pte) (user : v < userPages) (entry : pt'.entry v = some e) :
      v < n ∧ ∃ e₀, pt.entry v = some e₀ ∧ e = f e₀ := by
    clear above readable
    grind
  refine ⟨low, fits, fun v user => ⟨fun mapped => ?_, fun lt => ?_⟩, fun v high lt => ?_,
    fun v e lt entry => ?_, fun v w e g userV userW entryV entryW _ _ equal => ?_⟩
  · obtain ⟨e, entry⟩ := Option.isSome_iff_exists.1 mapped
    exact (source v e user entry).1
  · obtain ⟨e, -, after⟩ := inside v lt
    rw [after]
    rfl
  · obtain ⟨e, there, -⟩ := above v high lt
    rw [top v high lt, there]
    rfl
  · rcases lt_or_ge v userPages with user | high
    · obtain ⟨-, e₀, before, rfl⟩ := source v e user entry
      exact readable e₀ (pages.readable v e₀ lt before)
    · obtain ⟨e₀, there, yes⟩ := above v high lt
      rw [top v high lt, there] at entry
      cases entry
      exact yes
  · obtain ⟨ltV, e₀, beforeV, rfl⟩ := source v e userV entryV
    obtain ⟨ltW, g₀, beforeW, rfl⟩ := source w g userW entryW
    rw [same v ltV e₀ beforeV, same w ltW g₀ beforeW] at equal
    exact pages.injective owned userV userW beforeV beforeW equal

theorem topEntry (pages : Contiguous pt n) (high : userPages ≤ v) (lt : v * pgsize < maxva) :
    ∃ e, pt.entry v = some e ∧ e.has pteR = true := by
  obtain ⟨e, entry⟩ := Option.isSome_iff_exists.1 (pages.top v high lt)
  exact ⟨e, entry, pages.readable v e lt entry⟩

/-- `uvmcowpy` into a table without user memory, when it returns zero. -/
theorem copy (parent : UserTable old sz) (child : UserTable new 0)
    (pagesOld : Contiguous old (npages sz)) (pagesNew : Contiguous new 0)
    (owned : PairOwned k old new excl shared)
    (run : uvmcowpy k old new sz = .ok (k', old', new', 0)) :
    Contiguous old' (npages sz) ∧ Contiguous new' (npages sz) := by
  obtain ⟨copied, -, -⟩ := uvmcowpy_spec parent child run owned
  have loop : cowLoop (npages sz) k old new (0 * pgsize) = .ok (k', old', new', 0) := by
    rw [zero_mul]
    exact run
  obtain ⟨lowOld, lowNew⟩ := pagesOld.low.cowLoop pagesNew.low loop
  have fits := pagesOld.fits
  obtain ⟨-, all, others⟩ | ⟨no, -⟩ := copied.child
  · refine ⟨of_copy (f := cowEntry) pagesOld owned.swap (fun v high lt => ?_)
      (fun v high lt => pagesOld.topEntry high lt) lowOld (fun v lt => ?_) (fun v ge user => ?_)
      (fun _ _ e _ => cowEntry_pa e) fun e => cowEntry_readable,
      of_copy (f := childEntry) pagesOld owned.swap (fun v high lt => ?_)
      (fun v high lt => pagesNew.topEntry high lt) lowNew (fun v lt => ?_) (fun v ge user => ?_)
      (fun v lt e entry => ?_) fun e => childEntry_readable⟩
    · rcases copied.parent v lt with same | ⟨e, -, inside, -⟩
      · exact same
      · omega
    · obtain ⟨e, before, after, -⟩ := all v (zero_le v) (by omega)
      exact ⟨e, before, after⟩
    · rcases copied.parent v (userPage_lt user) with same | ⟨e, -, inside, -⟩
      · rw [same]
        exact pagesOld.entry_of_ge ge user
      · omega
    · exact others v lt (by omega)
    · obtain ⟨e, before, -, -, after⟩ := all v (zero_le v) (by omega)
      exact ⟨e, before, after⟩
    · rw [others v (userPage_lt user) (by omega)]
      exact pagesNew.entry_of_ge (zero_le v) user
    · obtain ⟨leaf, valid⟩ := entry_eq_some.1 entry
      have page : k.IsPage (pte2pa (old.leaf v)) :=
        owned.swap.isPage_leaf (by omega) (by rw [leaf, valid])
      rw [leaf] at page
      exact childEntry_pa page
  · exact absurd no (by decide)

/-- `dup_pg`. -/
theorem dup {va : Nat} {r : Int} (table : UserTable pt sz) (pages : Contiguous pt n)
    (owned : Owned k pt excl shared) (run : dupPg k pt va = .ok (k', pt', r)) :
    Contiguous pt' n := by
  have low : LowHalf pt' := by
    cases dupPg_ends run with
    | copied => exact pages.low.store _ _
    | _ => exact pages.low
  obtain ⟨-, ⟨-, rfl, -⟩ | ⟨e, newpa, -, -, user, mapped, -, -, entries⟩⟩ :=
    dupPg_spec table.top run owned
  · exact pages
  · refine pages.set_entry low user mapped entries (dupEntry_readable newpa) fun marked => ?_
    rw [dupEntry_plain] at marked
    cases marked

/-- `uvmclear`. -/
theorem clear (pages : Contiguous pt n) (lt : v < n) (owned : Owned k pt excl shared)
    (run : uvmclear pt (v * pgsize) = .ok pt') : Contiguous pt' n := by
  have low : LowHalf pt' := by
    unfold uvmclear at run
    obtain ⟨found, -, run⟩ := of_bind_ok run
    cases found with
    | none => cases run
    | some e =>
      cases run
      exact pages.low.store _ _
  have user := lt.trans_le pages.fits
  obtain ⟨-, entries, -⟩ := uvmclear_spec user run owned
  obtain ⟨e, mapped, -⟩ := pages.entry_of_lt lt
  rw [mapped] at entries
  refine pages.set_entry low user mapped entries ?_ fun marked => ⟨?_, ?_⟩
  · rw [clear_has (by decide)]
    exact pages.readable v e (userPage_lt user) mapped
  · rwa [clear_has (by decide)] at marked
  · exact pte2pa_and _ _ (by decide)

theorem clear_succeeds (pages : Contiguous pt n) (lt : v < n) :
    Succeeds (uvmclear pt (v * pgsize)) := by
  obtain ⟨e, mapped, -⟩ := pages.entry_of_lt lt
  have below := userPage_lt (lt.trans_le pages.fits)
  unfold uvmclear walk
  rw [if_neg (by omega), lookup_of_entry mapped]
  exact .ok _

/-- `copyout`. -/
theorem copyoutLoop {fuel dstva : Nat} {src : List UInt8} {r : Int} (table : UserTable pt sz)
    (pages : Contiguous pt n) (owned : Owned k pt excl shared)
    (run : copyoutLoop fuel k pt dstva src = .ok (k', pt', r)) : Contiguous pt' n := by
  induction fuel generalizing k pt dstva src with
  | zero =>
    cases run
    exact pages
  | succ fuel ih =>
    unfold Xv6.copyoutLoop at run
    split at run
    · cases run
      exact pages
    · obtain ⟨⟨k₁, pt₁, r₁⟩, dup, run⟩ := of_bind_ok run
      have pages₁ := pages.dup table owned dup
      obtain ⟨evolves, table₁, -⟩ := dupPg_keeps table dup owned
      simp only at run
      split at run
      · cases run
        exact pages₁
      · obtain ⟨pa, -, run⟩ := of_bind_ok run
        split at run
        · cases run
          exact pages₁
        · exact ih table₁ pages₁ (evolves.owned.setMem _) run

end Contiguous

/-! ## Setting up and tearing down -/

/-- `uvmunmap` of one page that stays allocated. -/
theorem unmapTop_succeeds (lt : v * pgsize < maxva) (entry : pt.entry v = some e)
    (readable : e.has pteR = true) : Succeeds (uvmunmap k pt (v * pgsize) 1 false) := by
  obtain ⟨-, valid⟩ := entry_eq_some.1 entry
  unfold uvmunmap
  rw [if_neg (by simp)]
  unfold unmapLoop walk
  simp only [if_neg (not_le.2 lt), lookup_of_entry entry, valid,
    if_neg (leaf_of_readable readable), bind, Except.bind, kfreeIf, Bool.not_true,
    Bool.false_eq_true, if_false]
  exact .ok _

theorem unmapTop_entry (run : uvmunmap k pt (v * pgsize) 1 false = .ok (k', pt'))
    (lt : w * pgsize < maxva) : pt'.entry w = if w = v then none else pt.entry w := by
  unfold uvmunmap at run
  rw [if_neg (by simp)] at run
  obtain ⟨-, leaves, -⟩ := unmapLoop_leaf run
  have leaf := leaves w lt
  split at leaf
  · rename_i here
    rw [if_pos (by omega)]
    exact entry_zero_leaf leaf
  · rename_i other
    rw [if_neg (by omega)]
    exact entry_congr leaf

/-- `freewalk` on a table without entries. -/
theorem freewalk_empty (low : LowHalf pt) (empty : ∀ v, v * pgsize < maxva → pt.entry v = none)
    (owned : Owned k pt excl shared) : Succeeds (freewalk k pt) := by
  have holds : Holds k (pt.tables + (pt.privs + excl)) (pt.cows + shared) := owned
  exact freewalk_succeeds low (fun v lt => entry_eq_none.1 (empty v lt)) holds

/-- `uvmfree` of a table that maps the user pages below `sz` only. -/
theorem uvmfree_succeeds (small : sz ≤ trapframeVa) (low : LowHalf pt)
    (full : ∀ v < npages sz, ∃ e, pt.entry v = some e ∧ pteFlags e ≠ pteV)
    (rest : ∀ v, npages sz ≤ v → v * pgsize < maxva → pt.entry v = none)
    (owned : Owned k pt excl shared) : Succeeds (uvmfree k pt sz) := by
  unfold uvmfree
  split
  · have count : pgroundup sz / pgsize = npages sz := by
      rw [pgroundup_eq (small.trans (by decide)), Nat.mul_div_cancel _ (by decide)]
    have fits : 0 + npages sz ≤ userPages := by
      rw [zero_add]
      exact npages_le_userPages small
    have unmaps : Succeeds (uvmunmap k pt (0 * pgsize) (npages sz) true) := by
      unfold uvmunmap
      rw [if_neg (by simp)]
      exact unmapLoop_ok fits (fun w _ high => full w (by omega)) owned
    rw [count, ← zero_mul pgsize]
    refine unmaps.bind fun result run => ?_
    obtain ⟨k₁, pt₁⟩ := result
    obtain ⟨evolves, entries, -⟩ := uvmunmap_spec fits run owned
    refine freewalk_empty (low.uvmunmap run) (fun v lt => ?_) evolves.owned
    rw [entries v lt]
    split
    · rfl
    · exact rest v (by omega) lt
  · rename_i zero
    have none : sz = 0 := by omega
    subst none
    exact freewalk_empty low (fun v lt => rest v (zero_le v) lt) owned

theorem trampoline_lt : (userPages + 1) * pgsize < maxva := by
  rw [userPages_eq]
  decide

/-- The pages above user memory are the trapframe and the trampoline. -/
theorem top_page (above : userPages ≤ v) (lt : v * pgsize < maxva) :
    v = userPages ∨ v = userPages + 1 := by
  rw [userPages_eq] at *
  simp only [pgsize, maxva] at lt
  omega

/-- `proc_freepagetable` does not panic. -/
theorem Contiguous.free_succeeds (small : sz ≤ trapframeVa) (pages : Contiguous pt (npages sz))
    (owned : Owned k pt excl shared) : Succeeds (procFreepagetable k pt sz) := by
  have fits := pages.fits
  unfold procFreepagetable
  rw [trampolineVa_page, trapframeVa_page]
  obtain ⟨e, entry, readable⟩ := pages.topEntry (le_succ userPages) trampoline_lt
  refine (unmapTop_succeeds trampoline_lt entry readable).bind fun result run => ?_
  obtain ⟨k₁, pt₁⟩ := result
  obtain ⟨rfl, keep₁⟩ := unmapTop_spec (le_succ userPages) run
  have entries₁ (w : Nat) (lt : w * pgsize < maxva) := unmapTop_entry run lt
  obtain ⟨f, frame, readable⟩ := pages.topEntry le_rfl userPages_lt_maxva
  have frame₁ : pt₁.entry userPages = some f := by
    rw [entries₁ _ userPages_lt_maxva, if_neg (by omega), frame]
  refine (unmapTop_succeeds userPages_lt_maxva frame₁ readable).bind fun result run₂ => ?_
  obtain ⟨k₂, pt₂⟩ := result
  obtain ⟨rfl, keep₂⟩ := unmapTop_spec le_rfl run₂
  have entries₂ (w : Nat) (user : w < userPages) : pt₂.entry w = pt.entry w := by
    have lt := userPage_lt user
    rw [unmapTop_entry run₂ lt, if_neg (by omega), entries₁ w lt, if_neg (by omega)]
  refine uvmfree_succeeds small ((pages.low.uvmunmap run).uvmunmap run₂) (fun v lt => ?_)
    (fun v ge lt => ?_) (keep₂ _ _ (keep₁ _ _ owned))
  · rw [entries₂ v (by omega)]
    exact pages.entry_of_lt lt
  · rcases lt_or_ge v userPages with user | above
    · rw [entries₂ v user]
      exact pages.entry_of_ge ge user
    · rw [unmapTop_entry run₂ lt, entries₁ v lt]
      rcases top_page above lt with rfl | rfl
      · rw [if_pos rfl]
      · rw [if_neg (by omega), if_pos rfl]

theorem LowHalf.uvmcreate (new : uvmcreate k = (k', some pt)) : LowHalf pt :=
  fun i _ => newTable_slots new i

/-- `mappages` of one page that is not mapped does not panic. -/
theorem mapPage_succeeds {pa : Nat} (lt : v * pgsize < maxva) (absent : pt.entry v = none) :
    Succeeds (mappages k pt (v * pgsize) pgsize pa perm) := by
  rw [mappages_page lt]
  have one : Succeeds (mapOne k pt (v * pgsize) pa perm) :=
    mapOne_ok lt (entry_eq_none.1 absent)
  exact one.bind fun _ _ => .ok _

/-- A table with the trampoline, the trapframe and no user memory. -/
theorem Contiguous.fresh (low : LowHalf pt) (empty : ∀ v < userPages, pt.entry v = none)
    (trampoline : pt.entry (userPages + 1) = some e) (trapframe : pt.entry userPages = some f)
    (readableE : e.has pteR = true) (readableF : f.has pteR = true) : Contiguous pt 0 := by
  refine ⟨low, zero_le _, fun v user => ?_, fun v above lt => ?_, fun v g lt entry => ?_,
    fun v w g h user _ entry => ?_⟩
  · simp [empty v user]
  · grind [top_page above lt]
  · rcases lt_or_ge v userPages with user | above
    · grind
    · grind [top_page above lt]
  · grind

/-- `proc_pagetable` does not panic, and hands out a table without user memory. -/
theorem procPagetable_succeeds (trapframe : Nat) (holds : Holds k excl shared) :
    ∃ k' result, procPagetable k trapframe = .ok (k', result) ∧
      ∀ pt, result = some pt → Contiguous pt 0 := by
  unfold procPagetable
  cases create : uvmcreate k with
  | mk k₁ new =>
  cases new with
  | none => exact ⟨k₁, none, rfl, by rintro _ ⟨⟩⟩
  | some pt₁ =>
    obtain ⟨owned₁, -⟩ := uvmcreate_owned create holds
    have low₁ := LowHalf.uvmcreate create
    have empty₁ (w : Nat) : pt₁.entry w = none := entry_zero_leaf (uvmcreate_leaf create w)
    rw [trampolineVa_page, trapframeVa_page]
    obtain ⟨⟨k₂, pt₂, r⟩, trampoline⟩ : Succeeds (mappages k₁ pt₁ ((userPages + 1) * pgsize) pgsize
      k₁.trampoline (pteR ||| pteX)) := mapPage_succeeds trampoline_lt (empty₁ _)
    have low₂ := low₁.mappages trampoline
    simp only [trampoline, bind, Except.bind]
    obtain ⟨owned₂, -, ⟨rfl, entries₂⟩ | ⟨rfl, entries₂⟩⟩ :=
      mapTop_spec (le_succ userPages) trampoline_lt trampoline owned₁
    · simp only [Int.lt_irrefl, if_false]
      have absent₂ : pt₂.entry userPages = none := by
        rw [entries₂ _ userPages_lt_maxva, if_neg (by omega), empty₁]
      obtain ⟨⟨k₃, pt₃, r⟩, frame⟩ : Succeeds (mappages k₂ pt₂ (userPages * pgsize) pgsize
        trapframe (pteR ||| pteW)) := mapPage_succeeds userPages_lt_maxva absent₂
      have low₃ := low₂.mappages frame
      simp only [frame]
      obtain ⟨owned₃, -, ⟨rfl, entries₃⟩ | ⟨rfl, entries₃⟩⟩ :=
        mapTop_spec le_rfl userPages_lt_maxva frame owned₂
      · simp only [Int.lt_irrefl, if_false]
        refine ⟨k₃, some pt₃, rfl, ?_⟩
        rintro _ ⟨⟩
        have unmapped (w : Nat) (user : w < userPages) : pt₃.entry w = none := by
          have lt := userPage_lt user
          rw [entries₃ w lt, if_neg (by omega), entries₂ w lt, if_neg (by omega), empty₁]
        refine .fresh low₃ unmapped
          (e := mapEntry k₁.trampoline (pteR ||| pteX))
          (f := mapEntry trapframe (pteR ||| pteW)) ?_ ?_
          (by rw [mapEntry_has (by decide)]; decide) (by rw [mapEntry_has (by decide)]; decide)
        · rw [entries₃ _ trampoline_lt, if_neg (by omega), entries₂ _ trampoline_lt, if_pos rfl]
        · rw [entries₃ _ userPages_lt_maxva, if_pos rfl]
      · simp only [Int.reduceNeg, Int.reduceLT, if_true]
        have here : pt₃.entry (userPages + 1) = some (mapEntry k₁.trampoline (pteR ||| pteX)) := by
          rw [entries₃, entries₂ _ trampoline_lt, if_pos rfl]
        obtain ⟨⟨k₄, pt₄⟩, unmapped⟩ := unmapTop_succeeds (k := k₃) trampoline_lt here
          (by rw [mapEntry_has (by decide)]; decide)
        obtain ⟨rfl, keep⟩ := unmapTop_spec (le_succ userPages) unmapped
        have empty₄ (v : Nat) (lt : v * pgsize < maxva) : pt₄.entry v = none := by
          rw [unmapTop_entry unmapped lt, entries₃, entries₂ v lt, empty₁]
          split <;> rfl
        obtain ⟨k₅, freed⟩ : Succeeds (uvmfree k₄ pt₄ 0) :=
          freewalk_empty (low₃.uvmunmap unmapped) empty₄ (keep _ _ owned₃)
        simp only [unmapped, freed]
        exact ⟨k₅, none, rfl, by rintro _ ⟨⟩⟩
    · simp only [Int.reduceNeg, Int.reduceLT, if_true]
      obtain ⟨k₃, freed⟩ : Succeeds (uvmfree k₂ pt₂ 0) :=
        freewalk_empty low₂ (fun v _ => by rw [entries₂, empty₁]) owned₂
      simp only [freed]
      exact ⟨k₃, none, rfl, by rintro _ ⟨⟩⟩

end Xv6
