import Xv6.Shows

/-!
# The image that exec builds

`exec` works on the image alone, and when it comes to its commit the image shows the
memory that the reference machine computes from the file and the arguments.
-/

namespace Xv6

open Ownership Fallible Image List Nat

/-! ## Files and memory -/

theorem memput_nil (mem : Mem) (dst : Nat) : memput mem dst [] = mem := by
  funext a
  simp only [memput, length_nil, Nat.add_zero]
  rw [if_neg (by omega)]

theorem memput_append (mem : Mem) (dst : Nat) (xs ys : List UInt8) :
    memput (memput mem dst xs) (dst + xs.length) ys = memput mem dst (xs ++ ys) := by
  funext a
  simp only [memput, length_append]
  by_cases second : dst + xs.length ≤ a ∧ a < dst + xs.length + ys.length
  · rw [if_pos second, if_pos (by omega), getD_append_right _ _ _ _ (by omega)]
    congr 1
    omega
  · rw [if_neg second]
    by_cases first : dst ≤ a ∧ a < dst + xs.length
    · rw [if_pos first, if_pos (by omega), getD_append _ _ _ _ (by omega)]
    · rw [if_neg first, if_neg (by omega)]

theorem Image.write_nil (im : Image) (va : Nat) : im.write va [] = im := by
  unfold write
  rw [memput_nil]

theorem Image.write_append (im : Image) (va : Nat) (xs ys : List UInt8) :
    (im.write va xs).write (va + xs.length) ys = im.write va (xs ++ ys) := by
  unfold write
  rw [memput_append]

/-- A read that delivers all its bytes lies inside the file. -/
theorem readFile_full {file : List UInt8} {off n : Nat} (some : 0 < n)
    (full : (readFile file off n).length = n) :
    off + n ≤ file.length ∧ readFile file off n = (file.drop off).take n := by
  unfold readFile at full ⊢
  split at full
  · rw [length_nil] at full
    omega
  · rename_i inside
    rw [if_neg inside]
    rw [length_take, length_drop] at full
    exact ⟨by omega, rfl⟩

theorem readFile_of_le {file : List UInt8} {off n : Nat} (uint : file.length < 2 ^ 32)
    (le : off + n ≤ file.length) : readFile file off n = (file.drop off).take n := by
  unfold readFile
  rw [if_neg]
  rw [mod_eq_of_lt (by omega)]
  omega

namespace Machine

variable {m m' : Machine} {id : SpaceId} {im : Image} {file : List UInt8} {newsz r : Nat}
  {xperm : Pte} {done : Bool}

/-- No user page carries the mark. -/
def Unmarked (m : Machine) (id : SpaceId) : Prop :=
  ∀ sp, m.space id = some sp → ∀ v < userPages, ∀ e, sp.pagetable.entry v = some e →
    e.has pteCow = false

/-- The entries of a space that has grown are those it had, and those of the new pages. -/
theorem uvmalloc_entries {v : Nat} {e : Pte} {P : Pte → Prop} {sp sp' : Space} (inv : m.Inv)
    (perms : xperm ∈ segmentPerms) (space : m.space id = some sp)
    (run : m.uvmalloc id newsz xperm = .ok (m', r)) (space' : m'.space id = some sp')
    (old : ∀ v < userPages, ∀ e, sp.pagetable.entry v = some e → P e)
    (new : ∀ pa, P (mapEntry pa (pteR ||| pteU ||| xperm))) (user : v < userPages)
    (mapped : sp'.pagetable.entry v = some e) : P e := by
  obtain ⟨k, pt', grown, rfl, -, -⟩ := uvmalloc_touches inv perms space run
  have table := inv.table id _ space
  obtain ⟨-, result⟩ := uvmalloc_spec (plainPerm_segment perms) table.small table.trapframe grown
    (inv.owned space)
  rw [put_space] at space'
  cases space'
  have lt := PageTable.userPage_lt user
  rcases result with ⟨-, -, fresh, others⟩ | ⟨-, same⟩
  · by_cases added : npages sp.sz ≤ v ∧ v < npages r
    · obtain ⟨-, -, pa, entry⟩ := fresh v added.1 added.2
      rw [entry] at mapped
      cases mapped
      exact new pa
    · rw [others v lt added] at mapped
      exact old v user e mapped
  · rw [same v lt] at mapped
    exact old v user e mapped

theorem uvmalloc_unmarked (inv : m.Inv) (perms : xperm ∈ segmentPerms) (shows : m.Shows id im)
    (unmarked : m.Unmarked id) (run : m.uvmalloc id newsz xperm = .ok (m', r)) :
    m'.Unmarked id := by
  obtain ⟨pt, sz, space, -⟩ := shows
  intro sp space' v user e mapped
  refine uvmalloc_entries inv perms space run space' (unmarked _ space) (fun pa => ?_) user mapped
  rw [mapEntry_cow, (plainPerm_segment perms).plain]

/-- The loop of `loadseg` from the `i`-th byte of a segment on. -/
theorem loadseg_shows {va offset sz fuel i : Nat} (inv : m.Inv) (shows : m.Shows id im)
    (unmarked : m.Unmarked id) (aligned : (va + i) % pgsize = 0) (uint : file.length < 2 ^ 32)
    (enough : sz ≤ i + fuel) (run : loadseg file va offset sz fuel m id i = .ok (m', done)) :
    Works m m' {id} ∧ (done = true → m'.Unmarked id ∧ ∃ bytes, bytes.length = sz - i ∧
      (i < sz → bytes = readFile file ((offset + i) % 2 ^ 32) (sz - i)) ∧
      m'.Shows id (im.write (va + i) bytes)) := by
  have page : 0 < pgsize := by decide
  induction fuel generalizing m i im with
  | zero =>
    cases run
    refine ⟨.refl inv _, fun _ => ⟨unmarked, [], ?_, fun _ => by omega, ?_⟩⟩
    · rw [length_nil]
      omega
    · rwa [write_nil]
  | succ fuel ih =>
    unfold loadseg at run
    split at run
    · cases run
      refine ⟨.refl inv _, fun _ => ⟨unmarked, [], ?_, fun _ => by omega, ?_⟩⟩
      · rw [length_nil]
        omega
      · rwa [write_nil]
    · rename_i more
      obtain ⟨pt, size, space, shown⟩ := shows
      obtain ⟨pa, addr, run⟩ := of_bind_ok (of_get_ok space run)
      split at run
      · cases run
      · rename_i found
        obtain ⟨m₁, written, run⟩ := of_bind_ok run
        obtain ⟨user, e, mapped, -, -⟩ := walkaddr_spec (inv.table id _ space) addr found
        have plain := unmarked _ space _ user e mapped
        have short : (readFile file ((offset + i) % 2 ^ 32) (min (sz - i) pgsize)).length ≤
            min (sz - i) pgsize := by
          unfold readFile
          split
          · exact zero_le _
          · exact length_take_le _ _
        obtain ⟨works, shows₁⟩ := write_shows inv space shown user mapped plain
          (by rw [aligned]; omega) written
        have unmarked₁ : m₁.Unmarked id := by
          obtain ⟨rfl, -, -⟩ := write_touches inv space user mapped plain
            (by rw [aligned]; omega) written
          intro sp space' v userV e entry
          rw [put_space] at space'
          cases space'
          exact unmarked _ space v userV e entry
        split at run
        · cases run
          exact ⟨works, by rintro ⟨⟩⟩
        · rename_i full
          rw [not_not] at full
          obtain ⟨inside, eq⟩ := readFile_full (by omega) full
          obtain ⟨rest, result⟩ := ih works.touches.inv shows₁ unmarked₁
            (by rw [← add_assoc, add_mod, aligned, mod_self]; rfl) (by omega) run
          refine ⟨works.trans rest, fun yes => ?_⟩
          obtain ⟨unmarked', bytes, length, later, final⟩ := result yes
          refine ⟨unmarked', readFile file ((offset + i) % 2 ^ 32) (min (sz - i) pgsize) ++ bytes,
            ?_, fun _ => ?_, ?_⟩
          · rw [length_append, full, length]
            omega
          · by_cases last : sz ≤ i + pgsize
            · have none : bytes = [] := eq_nil_of_length_eq_zero (by omega)
              rw [none, append_nil, min_eq_left (by omega)]
            · rw [min_eq_right (by omega)] at inside eq ⊢
              have rest := later (by omega)
              rw [show (offset + (i + pgsize)) % 2 ^ 32 = (offset + i) % 2 ^ 32 + pgsize by omega]
                at rest
              rw [rest] at length
              obtain ⟨inside', eq'⟩ := readFile_full (by omega) length
              rw [rest, eq, eq', readFile_of_le uint (by omega), ← drop_drop, ← take_add,
                show pgsize + (sz - (i + pgsize)) = sz - i by omega]
          · rw [← write_append, full]
            by_cases last : sz ≤ i + pgsize
            · have none : bytes = [] := eq_nil_of_length_eq_zero (by omega)
              rw [none, write_nil] at final ⊢
              exact final
            · rw [min_eq_right (by omega)] at final ⊢
              rwa [add_assoc]

theorem flags2perm_segment (flags : Nat) : flags2perm flags ∈ segmentPerms := by
  unfold flags2perm
  cases flags.testBit 0 <;> cases flags.testBit 1 <;> decide

/-- The loop over the program headers. -/
theorem loadSegments_shows {n off : Nat} (inv : m.Inv) (shows : m.Shows id im)
    (unmarked : m.Unmarked id) (uint : file.length < 2 ^ 32)
    (run : loadSegments file id n m off = .ok (m', done)) :
    Works m m' {id} ∧ (done = true → ∃ im', Image.loadSegments file n off im = some im' ∧
      m'.Shows id im') := by
  induction n generalizing m off im with
  | zero =>
    cases run
    exact ⟨.refl inv _, fun _ => ⟨im, rfl, shows⟩⟩
  | succ n ih =>
    unfold loadSegments at run
    unfold Image.loadSegments
    cases header : readProghdr file off with
    | none =>
      rw [header] at run
      cases run
      exact ⟨.refl inv _, by rintro ⟨⟩⟩
    | some ph =>
      rw [header] at run
      simp only [Option.bind_eq_bind, Option.bind_some]
      by_cases skip : ph.type ≠ elfProgLoad
      · simp only [if_pos skip] at run ⊢
        exact ih inv shows unmarked run
      · simp only [if_neg skip] at run ⊢
        cases loads : ph.loads with
        | false =>
          simp only [loads, Bool.not_false, if_true] at run
          cases run
          exact ⟨.refl inv _, by rintro ⟨⟩⟩
        | true =>
          simp only [loads, Bool.not_true, Bool.false_eq_true, if_false] at run ⊢
          obtain ⟨⟨m₁, sz⟩, grown, run⟩ := of_bind_ok run
          have perms := flags2perm_segment ph.flags
          obtain ⟨works₁, -, shows₁⟩ := uvmalloc_shows inv perms shows grown
          by_cases zero : sz = 0
          · rw [if_pos zero] at run
            cases run
            exact ⟨works₁, by rintro ⟨⟩⟩
          · rw [if_neg zero] at run
            obtain ⟨⟨m₂, read⟩, loaded, run⟩ := of_bind_ok run
            have aligned : (ph.vaddr + 0) % pgsize = 0 := by
              simp only [Proghdr.loads, Bool.and_eq_true, decide_eq_true_eq] at loads
              exact loads.2
            obtain ⟨works₂, result⟩ := loadseg_shows works₁.touches.inv (shows₁ zero).2
              (uvmalloc_unmarked inv perms shows unmarked grown) aligned uint (by omega) loaded
            cases read with
            | false =>
              cases run
              exact ⟨works₁.trans works₂, by rintro ⟨⟩⟩
            | true =>
              obtain ⟨unmarked₂, bytes, length, eq, shows₂⟩ := result rfl
              obtain ⟨works₃, final⟩ := ih works₂.touches.inv shows₂ unmarked₂ run
              refine ⟨(works₁.trans works₂).trans works₃, fun yes => ?_⟩
              obtain ⟨im', segments, last⟩ := final yes
              have same : bytes = readFile file (ph.off % 2 ^ 32) (ph.filesz % 2 ^ 32) := by
                by_cases some : 0 < ph.filesz % 2 ^ 32
                · rw [eq some, Nat.add_zero, Nat.mod_mod, Nat.sub_zero]
                · have none : ph.filesz % 2 ^ 32 = 0 := by omega
                  rw [none] at length ⊢
                  rw [eq_nil_of_length_eq_zero length]
                  unfold readFile
                  split
                  · rfl
                  · rw [take_zero]
              rw [same, Nat.sub_zero] at length
              rw [same, Nat.add_zero] at segments
              rw [if_neg (not_not.2 length)]
              exact ⟨im', segments, last⟩

/-! ## The stack -/

end Machine

/-- The arguments are pushed, which leaves a stack pointer. -/
def Image.Pushes (im : Image) (argv : List (List UInt8)) (im' : Image) (top : Nat) : Prop :=
  ∃ im₁ sp ustack, pushStrings (stackbase im.sz) argv im im.sz [] = some (im₁, sp, ustack) ∧
    im₁.pushPointers (stackbase im.sz) argv.length sp ustack = some im' ∧
    top = push sp ((argv.length + 1) * 8)

theorem Image.Pushes.pushArgs {im im' : Image} {argv : List (List UInt8)} {top : Nat}
    (pushes : im.Pushes argv im' top) : im.pushArgs argv = some im' := by
  obtain ⟨im₁, sp, ustack, strings, pointers, -⟩ := pushes
  unfold Image.pushArgs
  rw [strings]
  exact pointers

namespace Machine

variable {m m' : Machine} {id : SpaceId} {im : Image} {file : List UInt8} {argv : List (List UInt8)}
  {r : Option Nat} {stackbase sp : Nat} {ustack : List Nat}

section

variable (inv : m.Inv) (shows : m.Shows id im)
include inv shows

theorem pushStrings_shows {args : List (List UInt8)} {r : Option (Nat × List Nat)}
    (run : pushStrings id stackbase args m sp ustack = .ok (m', r)) :
    Works m m' {id} ∧ ∀ sp' ustack', r = some (sp', ustack') →
      ∃ im', Image.pushStrings stackbase args im sp ustack = some (im', sp', ustack') ∧
        m'.Shows id im' := by
  induction args generalizing m sp ustack im with
  | nil =>
    cases run
    refine ⟨.refl inv _, fun sp' ustack' eq => ?_⟩
    cases eq
    exact ⟨im, rfl, shows⟩
  | cons arg args ih =>
    unfold pushStrings at run
    unfold Image.pushStrings
    split at run
    · cases run
      exact ⟨.refl inv _, by rintro _ _ ⟨⟩⟩
    · rename_i few
      simp only at run ⊢
      split at run
      · cases run
        exact ⟨.refl inv _, by rintro _ _ ⟨⟩⟩
      · rename_i fits
        obtain ⟨⟨m₁, r₁⟩, copied, run⟩ := of_bind_ok run
        obtain ⟨works₁, n, -, shows₁, result⟩ := copyout_shows inv shows copied
        simp only at run
        split at run
        · cases run
          exact ⟨works₁, by rintro _ _ ⟨⟩⟩
        · obtain ⟨works₂, final⟩ := ih works₁.touches.inv shows₁ run
          refine ⟨works₁.trans works₂, fun sp' ustack' eq => ?_⟩
          obtain ⟨im', pushed, last⟩ := final sp' ustack' eq
          have all : (arg ++ [0]).take n = arg ++ [0] := by
            rw [take_of_length_le (by omega)]
          rw [all] at pushed
          rw [if_neg (by omega)]
          exact ⟨im', pushed, last⟩

theorem pushPointers_shows {argc : Nat}
    (run : pushPointers m id stackbase argc sp ustack = .ok (m', r)) :
    Works m m' {id} ∧ ∀ top, r = some top → top = push sp ((argc + 1) * 8) ∧
      ∃ im', im.pushPointers stackbase argc sp ustack = some im' ∧ m'.Shows id im' := by
  unfold pushPointers at run
  unfold Image.pushPointers
  simp only at run ⊢
  split at run
  · cases run
    exact ⟨.refl inv _, by rintro _ ⟨⟩⟩
  · rename_i fits
    obtain ⟨⟨m₁, r₁⟩, copied, run⟩ := of_bind_ok run
    obtain ⟨works, n, -, shows₁, result⟩ := copyout_shows inv shows copied
    simp only at run
    split at run
    · cases run
      exact ⟨works, by rintro _ ⟨⟩⟩
    · cases run
      refine ⟨works, fun top eq => ⟨(Option.some.inj eq).symm, ?_⟩⟩
      rw [if_neg fits]
      refine ⟨_, rfl, ?_⟩
      rwa [take_of_length_le (by omega)] at shows₁

theorem pushArgs_shows (run : pushArgs m id im.sz argv = .ok (m', r)) :
    Works m m' {id} ∧ ∀ top, r = some top → ∃ im', im.Pushes argv im' top ∧ m'.Shows id im' := by
  unfold pushArgs at run
  obtain ⟨⟨m₁, r₁⟩, pushed, run⟩ := of_bind_ok run
  obtain ⟨works₁, strings⟩ := pushStrings_shows inv shows pushed
  cases r₁ with
  | none =>
    cases run
    exact ⟨works₁, by rintro _ ⟨⟩⟩
  | some result =>
    obtain ⟨sp, ustack⟩ := result
    obtain ⟨im₁, pushed', shows₁⟩ := strings sp ustack rfl
    obtain ⟨works₂, final⟩ := pushPointers_shows works₁.touches.inv shows₁ run
    refine ⟨works₁.trans works₂, fun top eq => ?_⟩
    obtain ⟨rfl, im', pointers, shows'⟩ := final top eq
    exact ⟨im', ⟨im₁, sp, ustack, pushed', pointers, rfl⟩, shows'⟩

end

/-- The size of an image with the two pages of its stack. -/
theorem stack_size (im : Image) :
    (im.round.grow (im.round.sz + 2 * pgsize)).sz = im.round.sz + 2 * pgsize := by
  unfold grow
  rw [if_neg (by omega)]

theorem stack_small (inv : m.Inv) (shows : m.Shows id (im.round.grow (im.round.sz + 2 * pgsize))) :
    im.round.sz + 2 * pgsize ≤ trapframeVa := by
  obtain ⟨pt, sz, space, shown⟩ := shows
  have small : sz ≤ trapframeVa := (inv.table id _ space).small
  rwa [shown.size, stack_size] at small

theorem guard_page {sz : Nat} (small : sz + 2 * pgsize ≤ trapframeVa) :
    sz / pgsize < userPages := by
  rw [userPages_eq]
  simp only [trapframeVa, trampolineVa, maxva, pgsize] at small ⊢
  omega

theorem buildStack_shows (inv : m.Inv) (shows : m.Shows id im)
    (run : buildStack m id argv = .ok (m', r)) :
    Works m m' {id} ∧ ∀ top, r = some top → ∃ im', im.round.sz + 2 * pgsize ≤ trapframeVa ∧
      (im.round.grow (im.round.sz + 2 * pgsize)).Pushes argv im' top ∧ m'.Shows id im' := by
  unfold buildStack at run
  obtain ⟨⟨m₁, sz₁⟩, rounded, run⟩ := of_bind_ok run
  obtain ⟨works₁, shows₁, rfl⟩ := roundSz_shows inv shows rounded
  obtain ⟨⟨m₂, sz₂⟩, grown, run⟩ := of_bind_ok run
  have inv₁ := works₁.touches.inv
  obtain ⟨works₂, -, result⟩ := uvmalloc_shows inv₁ (by decide) shows₁ grown
  simp only at run
  split at run
  · cases run
    exact ⟨works₁.trans works₂, by rintro _ ⟨⟩⟩
  · rename_i nonzero
    obtain ⟨rfl, shows₂⟩ := result nonzero
    obtain ⟨m₃, cleared, run⟩ := of_bind_ok run
    have inv₂ := works₂.touches.inv
    -- the guard page is the first of the two new pages
    have small := stack_small inv₂ shows₂
    have aligned : im.round.sz % pgsize = 0 := Nat.mul_mod_left _ _
    rw [stack_size, Nat.add_sub_cancel] at cleared
    obtain ⟨works₃, shows₃⟩ := uvmclear_shows inv₂ shows₂ (guard_page small) aligned cleared
    obtain ⟨works₄, final⟩ := pushArgs_shows works₃.touches.inv shows₃ run
    refine ⟨((works₁.trans works₂).trans works₃).trans works₄, fun top eq => ?_⟩
    obtain ⟨im', pushes, shows'⟩ := final top eq
    exact ⟨im', small, pushes, shows'⟩

/-- The body of `exec`. -/
theorem buildImage_shows {p : Fin nproc} {trapframe : Nat} {r : Option (Elfhdr × Nat)} (inv : m.Inv)
    (none : m.space (.image p) = none) (uint : file.length < 2 ^ 32)
    (run : buildImage m p trapframe file argv = .ok (m', r)) :
    Works m m' {.image p} ∧ ∀ elf top, r = some (elf, top) →
      ∃ im, Image.exec file argv = some im ∧ m'.Shows (.image p) im ∧
        ∃ im₀ : Image, im₀.round.sz + 2 * pgsize ≤ trapframeVa ∧
          (im₀.round.grow (im₀.round.sz + 2 * pgsize)).Pushes argv im top := by
  unfold buildImage at run
  unfold Image.exec
  cases header : readElfhdr file with
  | none =>
    rw [header] at run
    cases run
    exact ⟨.refl inv _, by rintro _ _ ⟨⟩⟩
  | some elf =>
    rw [header] at run
    simp only [Option.bind_eq_bind, Option.bind_some]
    by_cases magic : elf.magic ≠ elfMagic
    · simp only [if_pos magic] at run
      cases run
      exact ⟨.refl inv _, by rintro _ _ ⟨⟩⟩
    · simp only [if_neg magic] at run ⊢
      obtain ⟨⟨m₁, made⟩, created, run⟩ := of_bind_ok run
      obtain ⟨touches₁, -, empty, held₁⟩ := procPagetable_touches inv none created
      have works₁ : Works m m₁ {.image p} := ⟨touches₁, held₁⟩
      cases made with
      | false =>
        cases run
        exact ⟨works₁, by rintro _ _ ⟨⟩⟩
      | true =>
        obtain ⟨pt, space, unmapped⟩ := empty rfl
        have unmarked : m₁.Unmarked (.image p) := by
          intro sp space' v user e mapped
          rw [space] at space'
          cases space'
          rw [unmapped v user] at mapped
          cases mapped
        simp only [Bool.not_true, Bool.false_eq_true, if_false] at run
        obtain ⟨⟨m₂, loaded⟩, segments, run⟩ := of_bind_ok run
        obtain ⟨works₂, result⟩ := loadSegments_shows touches₁.inv
          (procPagetable_shows inv none created) unmarked uint segments
        cases loaded with
        | false =>
          cases run
          exact ⟨works₁.trans works₂, by rintro _ _ ⟨⟩⟩
        | true =>
          obtain ⟨im₁, segments', shows₂⟩ := result rfl
          simp only [Bool.not_true, Bool.false_eq_true, if_false] at run
          obtain ⟨⟨m₃, stack⟩, built, run⟩ := of_bind_ok run
          obtain ⟨works₃, final⟩ := buildStack_shows works₂.touches.inv shows₂ built
          have works := (works₁.trans works₂).trans works₃
          cases stack with
          | none =>
            cases run
            exact ⟨works, by rintro _ _ ⟨⟩⟩
          | some top =>
            cases run
            obtain ⟨im, small, pushes, shows₃⟩ := final top rfl
            refine ⟨works, fun _ _ eq => ?_⟩
            cases eq
            rw [segments']
            exact ⟨im, pushes.pushArgs, shows₃, im₁, small, pushes⟩

end Machine

end Xv6
