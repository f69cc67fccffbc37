import Xv6.ContiguousSpaces

/-!
# No teardown panics

The address spaces of all processes are contiguous in every reachable state, so that no
system call panics: not when a process shrinks, forks, executes a file, or is reaped.  The
one panic left is the exit of the first process.
-/

namespace Xv6

open Ownership Fallible PageTable Machine Option

/-- A stack page open to the user for writing, above a guard page that is closed. -/
structure GuardedStack (sp : Space) : Prop where
  whole : sp.sz % pgsize = 0
  room : 2 * pgsize ≤ sp.sz
  guard : ∃ e, sp.pagetable.entry (sp.sz / pgsize - 2) = some e ∧ e.has pteU = false
  stack : ∃ e, sp.pagetable.entry (sp.sz / pgsize - 1) = some e ∧ e.has pteU = true ∧
    e.has pteW = true

/-- The first of the two pages that an image has got last is closed. -/
theorem GuardedStack.of_cleared {pt pt' : PageTable} {n : Nat} (fits : n + 2 ≤ userPages)
    (fresh : ∀ v, n ≤ v → v < n + 2 →
      ∃ pa, pt.entry v = some (mapEntry pa (pteR ||| pteU ||| pteW)))
    (entries : ∀ w, w * pgsize < maxva → pt'.entry w =
      if w = n then (pt.entry n).map (· &&& ~~~pteU) else pt.entry w) :
    GuardedStack ⟨pt', (n + 2) * pgsize⟩ := by
  have pages : (n + 2) * pgsize / pgsize = n + 2 := Nat.mul_div_cancel _ (by decide)
  refine ⟨Nat.mul_mod_left _ _, by simp only [pgsize]; omega, ?_, ?_⟩
  · obtain ⟨pa, entry⟩ := fresh n le_rfl (by omega)
    refine ⟨mapEntry pa (pteR ||| pteU ||| pteW) &&& ~~~pteU, ?_,
      Pte.has_and_of_disjoint (by decide)⟩
    simp only [pages, Nat.add_sub_cancel]
    rw [entries _ (userPage_lt (by omega)), if_pos rfl, entry]
    rfl
  · obtain ⟨pa, entry⟩ := fresh (n + 1) (by omega) (by omega)
    refine ⟨mapEntry pa (pteR ||| pteU ||| pteW), ?_, ?_, ?_⟩
    · simp only [pages, show n + 2 - 1 = n + 1 by omega]
      rw [entries _ (userPage_lt (by omega)), if_neg (by omega), entry]
    all_goals
      rw [mapEntry_has (by decide)]
      decide

namespace Machine

variable {m₀ m m' : Machine} {id : SpaceId} {ids : Set SpaceId} {sp : Space}

/-! ## The image that exec builds -/

/-- An image while segments are loaded: all its pages are open to the user and not marked. -/
structure Loading (ids : Set SpaceId) (m₀ m : Machine) (id : SpaceId) (sp : Space) : Prop where
  keeps : KeepsOn ids m₀ m
  mem : id ∈ ids
  linked : 0 < m₀.kmem.kend
  space : m.space id = some sp
  plain : ∀ v < userPages, ∀ e, sp.pagetable.entry v = some e →
    e.has pteU = true ∧ e.has pteCow = false

theorem Loading.grow (newsz : Nat) {xperm : Pte} (loading : Loading ids m₀ m id sp)
    (perms : xperm ∈ segmentPerms) : Returns (m.uvmalloc id newsz xperm) fun r => ∃ pt,
      Loading ids m₀ r.1 id ⟨pt, if r.2 = 0 then sp.sz else r.2⟩ ∧
      (r.2 ≠ 0 → r.2 = max sp.sz newsz ∧ ∀ v, npages sp.sz ≤ v → v < npages r.2 →
        ∃ pa, pt.entry v = some (mapEntry pa (pteR ||| pteU ||| xperm))) := by
  obtain ⟨keeps, mem, linked, space, plain⟩ := loading
  obtain ⟨⟨m', r⟩, run, keeps'⟩ := uvmalloc_keeps newsz keeps mem perms space
  obtain ⟨k, pt, grown, same, -, -⟩ := uvmalloc_touches keeps.inv perms space run
  have space' : m'.space id = some ⟨pt, if r = 0 then sp.sz else r⟩ := by
    rw [same]
    exact put_space _
  have table := keeps.inv.table id sp space
  have perm := plainPerm_segment perms
  obtain ⟨-, result⟩ :=
    uvmalloc_spec perm table.small table.trapframe grown (keeps.inv.owned space)
  refine ⟨_, run, pt, ⟨keeps', mem, linked, space', fun v user e entry => ?_⟩, fun nonzero => ?_⟩
  · refine uvmalloc_entries keeps.inv perms space run space' plain (fun pa => ?_) user entry
    rw [mapEntry_has (by decide), mapEntry_cow, perm.plain, Pte.has_or, Pte.has_or]
    exact ⟨by simp [show pteU.has pteU = true by decide], rfl⟩
  · rcases result with ⟨larger, -, fresh, -⟩ | ⟨zero, -⟩
    · exact ⟨larger, fun v low high => (fresh v low high).2.2⟩
    · exact absurd zero nonzero

/-- The loop of `loadseg` finds every page of a segment. -/
theorem Loading.loadseg {va sz i : Nat} (file : List UInt8) (offset fuel : Nat)
    (loading : Loading ids m₀ m id sp) (aligned : (va + i) % pgsize = 0)
    (inside : va + sz ≤ sp.sz) :
    Returns (loadseg file va offset sz fuel m id i) fun r => Loading ids m₀ r.1 id sp := by
  induction fuel generalizing m i with
  | zero => exact .ok loading
  | succ fuel ih =>
    unfold Xv6.loadseg
    by_cases ended : sz ≤ i
    · rw [if_pos ended]
      exact .ok loading
    · rw [if_neg ended]
      refine get_returns loading.space ?_
      obtain ⟨keeps, mem, linked, space, plain⟩ := loading
      have pages := keeps.sound id mem sp space
      have page : (va + i) / pgsize * pgsize = va + i :=
        Nat.div_mul_cancel (Nat.dvd_of_mod_eq_zero aligned)
      have lt : (va + i) / pgsize < npages sp.sz := by
        simp only [npages, pgsize]
        omega
      have user := lt.trans_le pages.fits
      obtain ⟨e, entry, -⟩ := pages.entry_of_lt lt
      obtain ⟨leaf, valid⟩ := entry_eq_some.1 entry
      obtain ⟨open', unmarked⟩ := plain _ user e entry
      have addr : walkaddr sp.pagetable (va + i) = .ok (pte2pa e) := by
        rw [walkaddr_eq, leaf, if_pos ⟨userPage_lt user, by rw [leaf, valid], by rw [leaf, open']⟩]
      have nonzero : pte2pa e ≠ 0 := by
        obtain ⟨-, above, -⟩ := (keeps.inv.owned space).isPage_leaf user (by rw [leaf, valid])
        rw [leaf, keeps.kend] at above
        omega
      have short :
          (readFile file ((offset + i) % 2 ^ 32) (min (sz - i) pgsize)).length ≤ pgsize := by
        unfold readFile
        split
        · exact Nat.zero_le _
        · exact (List.length_take_le _ _).trans (min_le_right _ _)
      simp only [addr, bind, Except.bind, if_neg nonzero]
      refine (write_keeps keeps mem space user entry unmarked _ (by rw [aligned]; omega)).bind ?_
      rintro m₁ - ⟨keeps₁, space₁⟩
      have loading₁ : Loading ids m₀ m₁ id sp := ⟨keeps₁, mem, linked, space₁, plain⟩
      split
      · exact .ok loading₁
      · exact ih loading₁ (by rw [← Nat.add_assoc, Nat.add_mod_right, aligned])

/-- The loop over the program headers. -/
theorem Loading.segments (file : List UInt8) (n off : Nat) (loading : Loading ids m₀ m id sp) :
    Returns (loadSegments file id n m off) fun r => ∃ sp', Loading ids m₀ r.1 id sp' := by
  induction n generalizing m off sp with
  | zero => exact .ok ⟨sp, loading⟩
  | succ n ih =>
    unfold loadSegments
    cases header : readProghdr file off with
    | none => exact .ok ⟨sp, loading⟩
    | some ph =>
      simp only
      by_cases skip : ph.type ≠ elfProgLoad
      · rw [if_pos skip]
        exact ih _ loading
      · rw [if_neg skip]
        cases loads : ph.loads with
        | false => exact .ok ⟨sp, loading⟩
        | true =>
          simp only [Bool.not_true, Bool.false_eq_true, if_false]
          refine (loading.grow (ph.vaddr + ph.memsz) (flags2perm_segment ph.flags)).bind ?_
          rintro ⟨m₁, r⟩ - ⟨pt, loading₁, larger⟩
          simp only at loading₁ larger ⊢
          by_cases zero : r = 0
          · rw [if_pos zero]
            exact .ok ⟨_, loading₁⟩
          · rw [if_neg zero] at loading₁ ⊢
            simp only [Proghdr.loads, Bool.and_eq_true, decide_eq_true_eq] at loads
            have inside : ph.vaddr + ph.filesz % 2 ^ 32 ≤ r := by
              have := (larger zero).1
              have := Nat.mod_le ph.filesz (2 ^ 32)
              omega
            have aligned : (ph.vaddr + 0) % pgsize = 0 := loads.2
            refine (loading₁.loadseg file (ph.off % 2 ^ 32) (ph.filesz % 2 ^ 32) aligned
              inside).bind ?_
            rintro ⟨m₂, done⟩ - loading₂
            cases done with
            | false => exact .ok ⟨_, loading₂⟩
            | true => exact ih _ loading₂

section Push

variable (mem : id ∈ ids) (plain : Plain sp)
include mem plain

theorem pushStrings_keeps (stackbase top : Nat) (args : List (List UInt8)) (ustack : List Nat)
    (keeps : KeepsOn ids m₀ m) (space : m.space id = some sp) :
    Returns (pushStrings id stackbase args m top ustack) fun r =>
      KeepsOn ids m₀ r.1 ∧ r.1.space id = some sp := by
  induction args generalizing m top ustack with
  | nil => exact .ok ⟨keeps, space⟩
  | cons arg args ih =>
    unfold pushStrings
    split
    · exact .ok ⟨keeps, space⟩
    · simp only
      split
      · exact .ok ⟨keeps, space⟩
      · refine (copyout_keeps _ _ keeps mem space).bind ?_
        rintro ⟨m₁, r⟩ - ⟨keeps₁, -, same⟩
        simp only
        split
        · exact .ok ⟨keeps₁, same plain⟩
        · exact ih _ _ keeps₁ (same plain)

theorem pushArgs_keeps (sz : Nat) (argv : List (List UInt8)) (keeps : KeepsOn ids m₀ m)
    (space : m.space id = some sp) :
    Returns (pushArgs m id sz argv) fun r => KeepsOn ids m₀ r.1 ∧ r.1.space id = some sp := by
  unfold pushArgs
  refine (pushStrings_keeps mem plain (stackbase sz) sz argv [] keeps space).bind
    fun ⟨m₁, r⟩ _ ⟨keeps₁, space₁⟩ => ?_
  cases r with
  | none => exact .ok ⟨keeps₁, space₁⟩
  | some result =>
    unfold pushPointers
    simp only
    split
    · exact .ok ⟨keeps₁, space₁⟩
    · refine (copyout_keeps _ _ keeps₁ mem space₁).bind fun ⟨m₂, r⟩ _ ⟨keeps₂, _, same⟩ => ?_
      simp only
      split <;> exact .ok ⟨keeps₂, same plain⟩

end Push

/-- `sz = PGROUNDUP(sz)` gives the image no new page. -/
theorem Loading.round (loading : Loading ids m₀ m id sp) :
    Returns (m.roundSz id) fun r => r.2 = npages sp.sz * pgsize ∧
      Loading ids m₀ r.1 id ⟨sp.pagetable, npages sp.sz * pgsize⟩ := by
  obtain ⟨keeps, mem, linked, space, plain⟩ := loading
  have table := keeps.inv.table id sp space
  have rounded : pgroundup sp.sz = npages sp.sz * pgsize :=
    pgroundup_eq (table.small.trans (by decide))
  have pages := keeps.sound id mem sp space
  have table' : UserTable sp.pagetable (npages sp.sz * pgsize) :=
    ⟨userPages_room pages.fits,
      fun v user mapped => by rw [npages_mul]; exact table.below v user mapped,
      table.readonly, table.top, table.trapframe⟩
  refine get_returns space (.ok ?_)
  rw [rounded]
  exact ⟨rfl, keeps.put (keeps.inv.owned space) table' (by rwa [npages_mul]) rfl, mem, linked,
    put_space _, plain⟩

theorem Loading.plain_space (loading : Loading ids m₀ m id sp) : Plain sp := by
  intro v e lt entry
  by_cases user : v < userPages
  · exact (loading.plain v user e entry).2
  · exact ((loading.keeps.inv.table id sp loading.space).top v e (Nat.le_of_not_lt user) lt entry).1

theorem Loading.stack (argv : List (List UInt8)) (loading : Loading ids m₀ m id sp) :
    Returns (buildStack m id argv) fun r => KeepsOn ids m₀ r.1 ∧
      (r.2.isSome → ∃ sp', r.1.space id = some sp' ∧ GuardedStack sp') := by
  unfold buildStack
  refine loading.round.bind fun ⟨m₁, sz⟩ _ ⟨rounded, loading₁⟩ => ?_
  obtain rfl : sz = npages sp.sz * pgsize := rounded
  refine (loading₁.grow (npages sp.sz * pgsize + 2 * pgsize)
    (show pteW ∈ segmentPerms by decide)).bind fun ⟨m₂, r⟩ _ ⟨pt, loading₂, larger⟩ => ?_
  simp only at loading₂ larger ⊢
  by_cases zero : r = 0
  · rw [if_pos zero]
    exact .ok ⟨loading₂.keeps, by rintro ⟨⟩⟩
  · rw [if_neg zero] at loading₂ ⊢
    obtain ⟨larger, fresh⟩ := larger zero
    -- the guard page is the first of the two new pages
    obtain rfl : r = (npages sp.sz + 2) * pgsize := by
      rw [larger, Nat.add_mul]
      exact Nat.max_eq_right (Nat.le_add_right _ _)
    have guard : (npages sp.sz + 2) * pgsize - 2 * pgsize = npages sp.sz * pgsize := by
      rw [Nat.add_mul, Nat.add_sub_cancel]
    have fits := npages_le_userPages (loading₂.keeps.inv.table id _ loading₂.space).small
    rw [npages_mul] at fits fresh
    rw [npages_mul] at fresh
    rw [guard]
    refine (uvmclear_keeps loading₂.keeps loading₂.mem loading₂.space
      (by rw [npages_mul]; omega)).bind fun m₃ _ ⟨keeps₃, pt₃, space₃, entries⟩ => ?_
    have plain : Plain ⟨pt₃, (npages sp.sz + 2) * pgsize⟩ := by
      intro v e lt entry
      change pt₃.entry v = some e at entry
      rw [entries v lt] at entry
      split at entry
      · obtain ⟨e₀, old, rfl⟩ := map_eq_some_iff.1 entry
        rw [Pte.has_and_of_subset (by decide)]
        exact loading₂.plain_space _ e₀ (userPage_lt (by omega)) old
      · exact loading₂.plain_space v e lt entry
    obtain ⟨⟨m', r'⟩, run, keeps', space'⟩ :=
      pushArgs_keeps loading₂.mem plain ((npages sp.sz + 2) * pgsize) argv keeps₃ space₃
    exact ⟨_, run, keeps', fun _ => ⟨_, space', .of_cleared fits fresh entries⟩⟩

/-- The body of `exec`. -/
theorem buildImage_keeps {p : Fin nproc} (trapframe : Nat) (file : List UInt8)
    (argv : List (List UInt8)) (keeps : KeepsOn ids m₀ m) (linked : 0 < m₀.kmem.kend)
    (mem : .image p ∈ ids) (none : m.space (.image p) = none) :
    Returns (buildImage m p trapframe file argv) fun r => KeepsOn ids m₀ r.1 ∧
      (r.2.isSome → ∃ sp, r.1.space (.image p) = some sp ∧ GuardedStack sp) := by
  unfold buildImage
  cases readElfhdr file with
  | none => exact .ok ⟨keeps, by rintro ⟨⟩⟩
  | some elf =>
    simp only
    split
    · exact .ok ⟨keeps, by rintro ⟨⟩⟩
    · refine (procPagetable_keeps trapframe keeps none).bind fun ⟨m₁, done⟩ made keeps₁ => ?_
      obtain ⟨-, -, empty, -⟩ := procPagetable_touches keeps.inv none made
      cases done with
      | false => exact .ok ⟨keeps₁, by rintro ⟨⟩⟩
      | true =>
        obtain ⟨pt, space, unmapped⟩ := empty rfl
        have loading₁ : Loading ids m₀ m₁ (.image p) ⟨pt, 0⟩ := by
          refine ⟨keeps₁, mem, linked, space, fun v user e entry => ?_⟩
          rw [unmapped v user] at entry
          cases entry
        refine (loading₁.segments file elf.phnum (elf.phoff % 2 ^ 32)).bind
          fun ⟨m₂, done⟩ _ ⟨sp₂, loading₂⟩ => ?_
        cases done with
        | false => exact .ok ⟨loading₂.keeps, by rintro ⟨⟩⟩
        | true =>
          refine (loading₂.stack argv).bind fun ⟨m₃, r⟩ _ ⟨keeps₃, guarded⟩ => ?_
          cases r with
          | none => exact .ok ⟨keeps₃, by rintro ⟨⟩⟩
          | some top => exact .ok ⟨keeps₃, guarded⟩

end Machine

namespace Kernel

variable {m₀ : Machine} {s s' s₀ : Kernel} {p q : Fin nproc} {ids : Set SpaceId} {src : List UInt8}

/-! ## Processes -/

theorem freeproc_keeps (keeps : KeepsOn .univ m₀ s.machine)
    (held : ∀ pa, (s.proc p).trapframe = some pa → pa ∈ s.machine.held) :
    Returns (s.freeproc p) fun s' => KeepsOn .univ m₀ s'.machine := by
  have first : Returns (s.machine.freeTrapframe (s.proc p).trapframe) (KeepsOn .univ m₀) := by
    cases frame : (s.proc p).trapframe with
    | none => exact .ok keeps
    | some pa => exact kfree_keeps keeps (held pa frame)
  refine first.bind fun m₁ _ keeps₁ => ?_
  exact (freePagetable_keeps keeps₁ trivial).bind fun m₂ _ keeps₂ => .ok keeps₂

theorem allocproc_keeps (inv : s.Inv) (keeps : KeepsOn .univ m₀ s.machine) :
    Returns s.allocproc fun r => KeepsOn .univ m₀ r.1.machine := by
  unfold allocproc
  cases slot : s.unusedSlot with
  | none => exact .ok keeps
  | some p =>
    obtain ⟨noSpace, noFrame⟩ := inv.unused p (unusedSlot_unused slot)
    cases alloc : s.machine.kalloc with
    | mk m₁ r₁ =>
    have keeps₁ := kalloc_keeps keeps alloc
    obtain ⟨-, spaces₁⟩ := kalloc_touches inv.machine alloc
    cases r₁ with
    | none =>
      refine (freeproc_keeps (s := { s.claim p with machine := m₁ }) (p := p) keeps₁
        fun pa frame => ?_).bind fun s₂ _ keeps₂ => .ok keeps₂
      rw [claim_frame, noFrame] at frame
      cases frame
    | some pa =>
      have none₁ : m₁.space (.proc p) = none := by rw [spaces₁, noSpace]
      refine (procPagetable_keeps pa keeps₁ none₁).bind fun ⟨m₂, done⟩ made keeps₂ => ?_
      cases done with
      | true => exact .ok keeps₂
      | false =>
        obtain ⟨-, -, -, held₂⟩ := procPagetable_touches keeps₁.inv none₁ made
        obtain ⟨held₁, -⟩ := kalloc_fresh inv.machine alloc
        refine (freeproc_keeps (s := ({ s.claim p with machine := m₂ } : Kernel).setTrapframe p pa)
          (p := p) keeps₂ fun pb frame => ?_).bind fun s₃ _ keeps₃ => .ok keeps₃
        simp only [setTrapframe, modify_proc_self, some.injEq] at frame
        subst frame
        rw [show (setTrapframe _ p pa).machine = m₂ from rfl, held₂, held₁]
        exact List.mem_cons_self

theorem fork_keeps (inv : s.Inv) (keeps : KeepsOn .univ m₀ s.machine)
    (used : (s.proc p).state ≠ .unused)
    (copies : ∀ s' np r, s.forkCopy p = .ok (s', some (np, r)) → r = 0) :
    Returns (s.fork p) fun r => KeepsOn .univ m₀ r.1.machine := by
  obtain ⟨sp, space⟩ := isSome_iff_exists.1 (inv.inUse p used).1
  obtain ⟨⟨s₁, child⟩, alloc, keeps₁⟩ := allocproc_keeps inv keeps
  cases child with
  | none =>
    have copy : s.forkCopy p = .ok (s₁, none) := by
      unfold forkCopy
      rw [alloc]
      rfl
    unfold fork
    rw [copy]
    exact .ok keeps₁
  | some np =>
    have length := allocproc_pages alloc
    have full : s.Full p := fun sp' space' v lt =>
      have pages := keeps.sound _ trivial sp' space'
      (pages.mapped v (lt.trans_le pages.fits)).2 lt
    have allocated := allocproc_spec inv alloc
    cases allocated with
    | @made _ pt pa slot touches empty =>
    have ne : p ≠ np := by
      rintro rfl
      exact used (unusedSlot_unused slot)
    have space₁ : s₁.machine.space (.proc p) = some sp := by
      rw [touches.others _ (by simp [ne]), space]
    obtain ⟨s₂, r, copy, -⟩ := forkCopy_count inv full used space slot (by unfold free; omega)
    have zero := copies s₂ np r copy
    subst zero
    have copied := copy
    unfold forkCopy at copied
    obtain ⟨_, alloc', copied⟩ := of_bind_ok copied
    rw [alloc] at alloc'
    cases alloc'
    obtain ⟨⟨m₂, r₂⟩, cow, last⟩ := of_bind_ok copied
    cases last
    unfold fork
    rw [copy]
    exact .ok (uvmcowpy_keeps keeps₁ trivial trivial (by simp [ne]) space₁ empty rfl cow)

theorem exit_cases (s : Kernel) (p : Fin nproc) (status : Int) :
    (∃ s', s.exit p status = .ok s' ∧ s'.machine = s.machine) ∨
      s.exit p status = .error "init exiting" := by
  unfold exit
  split
  · exact .inr rfl
  · exact .inl ⟨_, rfl, rfl⟩

theorem store_keeps {va : Nat} (inv : s.Inv) (keeps : KeepsOn .univ m₀ s.machine)
    (used : (s.proc p).state ≠ .unused) (fits : va % pgsize + src.length ≤ pgsize) :
    Returns (s.store p va src) (fun r => KeepsOn .univ m₀ r.1.machine) ∨
      s.store p va src = .error "init exiting" := by
  obtain ⟨sp, space⟩ := isSome_iff_exists.1 (inv.inUse p used).1
  unfold store
  rw [get_of_space space]
  simp only [bind, Except.bind]
  split
  · rename_i hit
    obtain ⟨e, user, entry, plain⟩ := (inv.machine.table _ sp space).writable hit.1 hit.2
    refine .inl ((write_keeps keeps trivial space user entry plain src fits).bind
      fun m₁ _ keeps₁ => .ok keeps₁.1)
  · obtain ⟨⟨m₁, r⟩, dup, keeps₁⟩ := Machine.dupPg_keeps va keeps trivial space
    simp only [dup]
    split
    · exact .inl (.ok keeps₁)
    · rcases exit_cases (({ s with machine := m₁ } : Kernel).modify p
        fun q => { q with killed := true }) p (-1) with ⟨s₂, exited, same⟩ | failed
      · simp only [exited]
        refine .inl (.ok ?_)
        rw [same]
        exact keeps₁
      · refine .inr ?_
        simp only [failed]

theorem sbrk_keeps (n : Int) (inv : s.Inv) (keeps : KeepsOn .univ m₀ s.machine)
    (used : (s.proc p).state ≠ .unused) :
    Returns (s.sbrk p n) fun r => KeepsOn .univ m₀ r.1.machine := by
  obtain ⟨sp, space⟩ := isSome_iff_exists.1 (inv.inUse p used).1
  refine get_returns space ?_
  split
  · refine (uvmalloc_keeps _ keeps trivial (show pteW ∈ segmentPerms by decide) space).bind
      fun ⟨m₁, r⟩ _ keeps₁ => ?_
    simp only
    split <;> exact .ok keeps₁
  · split
    · exact (uvmdealloc_keeps _ keeps trivial space).bind fun ⟨m₁, r⟩ _ keeps₁ => .ok keeps₁
    · exact .ok keeps

theorem exec_keeps (path : List UInt8) (file : Option (List UInt8)) (argv : List (List UInt8))
    (inv : s.Inv) (keeps : KeepsOn ids m₀ s.machine) (linked : 0 < m₀.kmem.kend)
    (memImage : .image p ∈ ids) (memProc : .proc p ∈ ids)
    (used : (s.proc p).state ≠ .unused) (uint : ∀ f, file = some f → f.length < 2 ^ 32) :
    Returns (s.exec p path file argv) fun r => KeepsOn ids m₀ r.1.machine := by
  obtain ⟨there, frame⟩ := inv.inUse p used
  obtain ⟨old, space⟩ := isSome_iff_exists.1 there
  obtain ⟨trapframe, isFrame⟩ := isSome_iff_exists.1 frame
  cases file with
  | none => exact .ok keeps
  | some f =>
    unfold exec
    simp only [isFrame]
    refine (buildImage_keeps trapframe f argv keeps linked memImage (inv.image p)).bind
      fun ⟨m₁, r⟩ built ⟨keeps₁, image⟩ => ?_
    obtain ⟨works, -⟩ :=
      buildImage_shows inv.machine (inv.image p) (uint f rfl) built
    cases r with
    | none =>
      exact (freePagetable_keeps keeps₁ memImage).bind fun m₂ _ keeps₂ => .ok keeps₂
    | some result =>
      obtain ⟨im, made, -⟩ := image rfl
      have space₁ : m₁.space (.proc p) = some old := by
        rw [works.touches.others _ (by simp), space]
      exact (commit_keeps keeps₁ memImage memProc made space₁).bind fun m₂ _ keeps₂ => .ok keeps₂

theorem copyout_keeps (dstva : Nat) (src : List UInt8) (inv : s.Inv)
    (keeps : Machine.KeepsOn .univ m₀ s.machine) (used : (s.proc p).state ≠ .unused) :
    Returns (s.copyout p dstva src) fun r => Machine.KeepsOn .univ m₀ r.1.machine ∧
      r.1.proc = s.proc ∧ r.1.machine.held = s.machine.held := by
  obtain ⟨sp, space⟩ := isSome_iff_exists.1 (inv.inUse p used).1
  exact (Machine.copyout_keeps dstva src keeps trivial space).bind
    fun ⟨m₁, r⟩ _ ⟨keeps₁, held, _⟩ => .ok ⟨keeps₁, rfl, held⟩

theorem wait_keeps (addr : Nat) (inv : s.Inv) (keeps : KeepsOn .univ m₀ s.machine)
    (used : (s.proc p).state ≠ .unused) :
    Returns (s.wait p addr) fun r => KeepsOn .univ m₀ r.1.machine := by
  unfold wait
  cases found : s.zombieChild p with
  | none =>
    simp only
    split <;> exact .ok keeps
  | some q =>
    simp only
    split
    · exact (freeproc_keeps keeps (inv.held q)).bind fun s₁ _ keeps₁ => .ok keeps₁
    · refine (copyout_keeps addr (intBytes (s.proc q).xstate) inv keeps used).bind
        fun ⟨s₁, r⟩ _ ⟨keeps₁, procs, held⟩ => ?_
      simp only at procs held ⊢
      split
      · exact .ok keeps₁
      · refine (freeproc_keeps (p := q) keeps₁ fun pa frame => ?_).bind
          fun s₂ _ keeps₂ => .ok keeps₂
        rw [procs] at frame
        rw [held]
        exact inv.held q pa frame

/-! ## Runs -/

/-- No operation panics, apart from the exit of the first process. -/
theorem perform_keeps {op : Op} (inv : s.Inv) (keeps : KeepsOn .univ m₀ s.machine)
    (linked : 0 < m₀.kmem.kend) (allowed : s.Allows op) :
    Returns (s.perform op) (fun r => KeepsOn .univ m₀ r.1.machine) ∨
      s.perform op = .error "init exiting" := by
  obtain ⟨state, fits, copies⟩ := allowed
  have used : (s.proc op.actor).state ≠ .unused := by
    rw [state]
    rintro ⟨⟩
  cases op with
  | fork p =>
    refine .inl ((fork_keeps inv keeps used (copies p rfl)).bind fun ⟨s₁, r⟩ _ keeps₁ => ?_)
    cases s.unusedSlot <;> exact .ok keeps₁
  | store p va src =>
    rcases store_keeps (p := p) inv keeps used fits with stored | failed
    · refine .inl (stored.bind fun ⟨s₁, r⟩ _ keeps₁ => ?_)
      cases r <;> exact .ok keeps₁
    · refine .inr ?_
      simp only [perform, failed, bind, Except.bind]
  | copyout p dstva src =>
    exact .inl ((copyout_keeps dstva src inv keeps used).bind fun ⟨s₁, r⟩ _ keeps₁ => .ok keeps₁.1)
  | sbrk p n => exact .inl ((sbrk_keeps n inv keeps used).bind fun ⟨s₁, r⟩ _ keeps₁ => .ok keeps₁)
  | exec p path file argv =>
    have uint (f : List UInt8) (eq : file = some f) : f.length < 2 ^ 32 := by
      subst eq
      exact fits
    exact .inl ((exec_keeps path file argv inv keeps linked trivial trivial used uint).bind
      fun ⟨s₁, r⟩ _ keeps₁ => .ok keeps₁)
  | exit p status =>
    rcases exit_cases s p status with ⟨s₁, exited, same⟩ | failed
    · refine .inl (Succeeds.next ⟨s₁, exited⟩ fun s₂ again => ?_)
      rw [exited] at again
      cases again
      refine .ok ?_
      rw [same]
      exact keeps
    · refine .inr ?_
      simp only [perform, failed, bind, Except.bind]
  | wait p addr =>
    refine .inl ((wait_keeps addr inv keeps used).bind fun ⟨s₁, r⟩ _ keeps₁ => ?_)
    cases s.zombieChild p <;> exact .ok keeps₁

/-- `uvmfirst` maps the first page. -/
theorem uvmfirst_sound {m m' : Machine} {id : SpaceId} {pt : PageTable} (sound : m.SoundOn .univ)
    (inv : m.Inv) (space : m.space id = some ⟨pt, 0⟩) (room : 3 ≤ m.kmem.freelist.length)
    (run : m.uvmfirst id src = .ok m') : m'.SoundOn .univ := by
  obtain ⟨-, pt', mem, space', entries, -⟩ := uvmfirst_touches inv space rfl room run
  unfold Machine.uvmfirst at run
  obtain ⟨⟨k, pt₁⟩, first, last⟩ := of_bind_ok (of_get_ok space run)
  cases last
  rw [put_space] at space'
  cases space'
  have zero : npages 0 = 0 := rfl
  have pages : Contiguous pt (npages 0) := sound id trivial _ space
  rw [zero] at pages
  have low : LowHalf pt' := by
    unfold Xv6.uvmfirst at first
    split at first
    · cases first
    · split at first
      · cases first
      · obtain ⟨⟨k₂, pt₂, r⟩, mapped, last⟩ := of_bind_ok first
        cases last
        exact pages.low.mappages mapped
  have user : 0 < userPages := by
    rw [userPages_eq]
    decide
  have perms : PlainPerm firstPerm := ⟨by decide, by decide⟩
  have one : npages pgsize = 0 + 1 := by decide
  refine sound.put ?_
  rw [one]
  exact pages.push perms (by decide) user low entries

theorem booted_sound (booted : s.Booted) : s.machine.SoundOn .univ := by
  obtain ⟨kend, trampoline, mem, k, init, room, run⟩ := booted
  have inv := boot_inv init
  have sound : (boot k).machine.SoundOn .univ := by rintro _ _ _ ⟨⟩
  unfold userinit at run
  obtain ⟨⟨s₁, slot⟩, alloc, run⟩ := of_bind_ok run
  have keeps : KeepsOn .univ _ s₁.machine :=
    (allocproc_keeps inv ⟨inv.machine, sound, rfl⟩).result alloc
  cases slot with
  | none => cases run
  | some p =>
    have pages := allocproc_pages alloc
    have allocated := allocproc_spec inv alloc
    cases allocated with
    | @made _ pt pa slot touches space held fresh frame state others =>
    obtain ⟨m₂, first, last⟩ := of_bind_ok run
    cases last
    refine uvmfirst_sound keeps.sound keeps.inv space ?_ first
    have : (boot k).machine.kmem.freelist.length = k.freelist.length := rfl
    omega

/-- Whole runs from boot. -/
theorem run_keeps {ops : List (Op × Outcome)} (booted : s₀.Booted)
    (linked : kernbase ≤ s₀.machine.kmem.kend) (run : s₀.Run ops s) :
    s.Inv ∧ KeepsOn .univ s₀.machine s.machine := by
  obtain ⟨inv, mirrors⟩ := booted_simulates booted
  refine ⟨(run_simulates run inv mirrors).1, ?_⟩
  induction run with
  | refl => exact ⟨inv.machine, booted_sound booted, rfl⟩
  | step before allowed performed ih =>
    obtain ⟨inv₁, -⟩ := run_simulates before inv mirrors
    rcases perform_keeps inv₁ ih (lt_of_lt_of_le (by decide) linked) allowed with returns | failed
    · exact returns.result performed
    · rw [performed] at failed
      cases failed

end Kernel

open Kernel in
/-- In every reachable state the user pages of every process are those of
`[0, PGROUNDUP(sz))`, each valid and readable, and no operation of a process that runs
panics: the only error is the exit of the first process. -/
theorem images_contiguous {s₀ s : Kernel} {ops : List (Op × Outcome)} (booted : s₀.Booted)
    (linked : kernbase ≤ s₀.machine.kmem.kend) (run : s₀.Run ops s) :
    (∀ p sp, s.machine.space (.proc p) = some sp → ∀ v, v * pgsize < trapframeVa →
      (v * pgsize < pgroundup sp.sz ↔ (sp.pagetable.leaf v).has pteV = true) ∧
      ((sp.pagetable.leaf v).has pteV = true → (sp.pagetable.leaf v).has pteR = true)) ∧
    ∀ op, s.Allows op → ∀ why, s.perform op = .error why → why = "init exiting" := by
  obtain ⟨inv, keeps⟩ := run_keeps booted linked run
  have positive : 0 < s₀.machine.kmem.kend := lt_of_lt_of_le (by decide) linked
  refine ⟨fun p sp space v below => ?_, fun op allowed why failed => ?_⟩
  · have pages := keeps.sound _ trivial sp space
    have user : v < userPages := by
      rw [trapframeVa_page] at below
      exact Nat.lt_of_mul_lt_mul_right below
    have small := (inv.machine.table _ sp space).small
    have page : v * pgsize < pgroundup sp.sz ↔ v < npages sp.sz := by
      rw [pgroundup_eq (small.trans (by decide))]
      exact Nat.mul_lt_mul_right (by decide)
    rw [page, ← pages.mapped v user]
    cases entry : sp.pagetable.entry v with
    | none =>
      rw [entry_eq_none.1 entry]
      exact ⟨by simp, by rintro ⟨⟩⟩
    | some e =>
      obtain ⟨leaf, valid⟩ := entry_eq_some.1 entry
      rw [leaf, valid]
      exact ⟨by simp, fun _ => pages.readable v e (userPage_lt user) entry⟩
  · rcases perform_keeps inv keeps positive allowed with ⟨r, done, -⟩ | panic
    · rw [failed] at done
      cases done
    · rw [failed] at panic
      cases panic
      rfl

/-- The first process grows by two pages and a byte, forks, and shrinks below its first page. -/
def resizeOps : List Op := [.sbrk 0 8193, .fork 0, .sbrk 0 (-12000)]

/-- Afterwards the parent has one page and the child four. -/
theorem images_contiguous_resized : ∃ (s₀ s : Kernel) (ops : List (Op × Outcome)) (sp sc : Space),
    s₀.Booted ∧ kernbase ≤ s₀.machine.kmem.kend ∧ s₀.Run ops s ∧
      s.machine.space (.proc 0) = some sp ∧ sp.sz = 289 ∧
      s.machine.space (.proc 1) = some sc ∧ sc.sz = 12289 ∧
      (sp.pagetable.leaf 1).has pteV = false ∧ (sc.pagetable.leaf 3).has pteR = true := by
  have pass : Kernel.boots 24 (fun s₀ =>
      decide (kernbase ≤ s₀.machine.kmem.kend) && yields (s₀.performAll resizeOps) fun done =>
        (done.2.machine.space (.proc 0)).any (fun sp => decide (sp.sz = 289)) &&
          (done.2.machine.space (.proc 1)).any fun sc => decide (sc.sz = 12289)) = true := by
    decide +kernel
  obtain ⟨s₀, booted, test⟩ := Kernel.of_boots pass
  obtain ⟨linked, test⟩ := Bool.and_eq_true_iff.1 test
  obtain ⟨⟨ops, s⟩, performed, test⟩ := of_yields test
  obtain ⟨parent, child⟩ := Bool.and_eq_true_iff.1 test
  obtain ⟨sp, space, size⟩ := (any_eq_true _ _).1 parent
  obtain ⟨sc, spaceC, sizeC⟩ := (any_eq_true _ _).1 child
  have run := Kernel.run_of_performAll performed
  have linked := of_decide_eq_true linked
  obtain ⟨pages, -⟩ := images_contiguous booted linked run
  have size := of_decide_eq_true size
  have sizeC := of_decide_eq_true sizeC
  obtain ⟨gone, -⟩ := pages 0 sp space 1 (by decide)
  obtain ⟨mapped, readable⟩ := pages 1 sc spaceC 3 (by decide)
  rw [size] at gone
  rw [sizeC] at mapped
  refine ⟨s₀, s, ops, sp, sc, booted, linked, run, space, size, spaceC, sizeC, ?_,
    readable (mapped.1 (by decide))⟩
  cases valid : (sp.pagetable.leaf 1).has pteV with
  | false => rfl
  | true => exact absurd (gone.2 valid) (by decide)

end Xv6
