import Xv6.ArgStack
import Xv6.CopyIn

/-!
# The exec system call

`sys_exec` fetches the path and the argument strings from user memory, the strings into pages
of the kernel, calls `exec`, and gives the pages back.  Whatever the user passes and whatever
the file contains, the call returns; and when it returns `-1` the process, the memory of all
processes and the free pages are what they were before.
-/

namespace Xv6

open Ownership Fallible Multiset Machine List

def maxpath : Nat := 128

/-- `fetchaddr`: the `uint64` at `addr`, if the call returns zero. -/
def fetchaddr (k : Kmem) (sp : Space) (addr : Nat) : Except String (Option Nat) :=
  if sp.sz ≤ addr ∨ sp.sz < (addr + 8) % 2 ^ 64 then .ok none
  else do
    let (bytes, r) ← copyin k sp.pagetable addr 8
    .ok (if r ≠ 0 then none else some (fromLittleEndian bytes))

/-- The string in a buffer. -/
def cstring (bytes : List UInt8) : List UInt8 := bytes.takeWhile (· ≠ 0)

/-- `fetchstr`: what it stores in the buffer, and its result. -/
def fetchstr (k : Kmem) (sp : Space) (addr max : Nat) : Except String (List UInt8 × Int) := do
  let (bytes, r) ← copyinstr k sp.pagetable addr max
  .ok (bytes, if r < 0 then -1 else (cstring bytes).length)

/-- The kernel writes to a page that it holds. -/
def Machine.fill (m : Machine) (pa : Nat) (src : List UInt8) : Machine :=
  { m with kmem := { m.kmem with mem := memput m.kmem.mem pa src } }

/-- The loop of `sys_exec` over the arguments, with room for `n` more in `argv`; the flag is
false if it jumps to `bad`. -/
def fetchArgs (id : SpaceId) (uargv : Nat) :
    Nat → Machine → List Nat → Except String (Machine × List Nat × Bool)
  | 0, m, argv => .ok (m, argv, false)
  | n + 1, m, argv => do
      let sp ← m.get id
      match ← fetchaddr m.kmem sp ((uargv + 8 * argv.length) % 2 ^ 64) with
      | none => .ok (m, argv, false)
      | some uarg =>
        if uarg = 0 then .ok (m, argv, true)
        else
          match m.kalloc with
          | (m, none) => .ok (m, argv, false)
          | (m, some pa) => do
              let (bytes, r) ← fetchstr m.kmem sp uarg pgsize
              let m := m.fill pa bytes
              if r < 0 then .ok (m, argv ++ [pa], false) else fetchArgs id uargv n m (argv ++ [pa])

/-- The pages of the arguments are freed. -/
def freeArgs (m : Machine) (argv : List Nat) : Except String Machine :=
  argv.foldlM Machine.kfree m

/-- `sys_exec`, where `namei` says which file a path leads to. -/
def Kernel.sysExec (s : Kernel) (p : Fin nproc) (namei : List UInt8 → Option (List UInt8)) :
    Except String (Kernel × Int) := do
  let sp ← s.machine.get (.proc p)
  let (path, r) ← fetchstr s.machine.kmem sp (s.proc p).frame.a0 maxpath
  if r < 0 then .ok (s, -1)
  else do
    let (m, argv, done) ← fetchArgs (.proc p) (s.proc p).frame.a1 maxarg s.machine []
    if !done then do
      -- bad:
      let m ← freeArgs m argv
      .ok ({ s with machine := m }, -1)
    else do
      let strings := argv.map fun pa => cstring (memget m.kmem.mem pa pgsize)
      let (s, ret) ← { s with machine := m }.exec p (cstring path) (namei (cstring path)) strings
      let m ← freeArgs s.machine argv
      .ok ({ s with machine := m }, ret)

/-! ## Pages that the kernel borrows -/

namespace Machine

variable {m m₀ m' : Machine} {id : SpaceId} {ids : Set SpaceId} {sp : Space} {pages : List Nat}
  {pa : Nat} {src : List UInt8}

/-- The system as in `m₀`, while the kernel holds some pages more. -/
structure Borrows (ids : Set SpaceId) (m₀ m : Machine) (pages : List Nat) : Prop where
  keeps : KeepsOn ids m₀ m
  touches : Touches m₀ m ∅
  held : m.held.Perm (pages ++ m₀.held)

theorem Borrows.space (borrows : Borrows ids m₀ m pages) : m.space = m₀.space :=
  funext fun j => borrows.touches.others j (Set.notMem_empty j)

theorem Borrows.refl (inv : m.Inv) (sound : m.SoundOn ids) : Borrows ids m m [] :=
  ⟨⟨inv, sound, rfl⟩, (Works.refl inv ∅).touches, .refl _⟩

theorem fill_touches (inv : m.Inv) (held : pa ∈ m.held) (fits : src.length ≤ pgsize) :
    Touches m (m.fill pa src) ∅ := by
  have holds := inv.holds
  rw [exclOf_of_held held] at holds
  have page : m.kmem.IsPage pa := holds.isPage_excl (mem_cons_self _ _)
  have framed : Framed m.kmem (m.fill pa src).kmem
      (∑ id ∈ all, spaceExcl (m.space id) + (m.held.erase pa) + m.sharedOf all) := by
    refine ⟨rfl, rfl, fun pb mem => ?_⟩
    have other : pb ≠ pa := by
      rintro rfl
      rcases mem_add.1 mem with excl | shared
      · have once := Ledger.excl_nodup holds
        exact (nodup_cons.1 once).1 excl
      · exact Ledger.not_shared_of_excl holds (mem_cons_self _ _) shared
    have pageB : m.kmem.IsPage pb := by
      rcases mem_add.1 mem with excl | shared
      · exact holds.isPage_excl (mem_cons_of_mem excl)
      · exact holds.isPage_shared shared
    exact @SamePage.memput _ _ _ pageB.aligned page.aligned other 0 _ (by omega)
  refine ⟨⟨?_, inv.table⟩, fun _ _ => rfl, fun j _ sp space v user mapped => ?_⟩
  · have same := inv.holds.setMem (m.fill pa src).kmem.mem
    rw [exclOf_eq, sharedOf_eq] at same ⊢
    exact same
  · exact sameBytes_of_spared framed space user mapped

theorem Borrows.fill (borrows : Borrows ids m₀ m pages) (mem : pa ∈ pages)
    (fits : src.length ≤ pgsize) : Borrows ids m₀ (m.fill pa src) pages := by
  have held : pa ∈ m.held := borrows.held.mem_iff.2 (mem_append_left _ mem)
  have touches := fill_touches borrows.keeps.inv held fits
  exact ⟨⟨touches.inv, borrows.keeps.sound, borrows.keeps.kend⟩, borrows.touches.trans touches,
    borrows.held⟩

theorem Borrows.kalloc {r : Option Nat} (borrows : Borrows ids m₀ m pages)
    (run : m.kalloc = (m', r)) : Borrows ids m₀ m' (pages ++ r.toList) := by
  have touches := (kalloc_touches borrows.keeps.inv run).1
  refine ⟨kalloc_keeps borrows.keeps run, borrows.touches.trans touches, ?_⟩
  cases r with
  | none =>
    rw [Kernel.kalloc_none_held run, Option.toList_none, append_nil]
    exact borrows.held
  | some pa =>
    rw [(Kernel.kalloc_fresh borrows.keeps.inv run).1, Option.toList_some, append_assoc]
    exact (borrows.held.cons pa).trans perm_middle.symm

/-- Pages of the kernel go back one by one. -/
theorem freeArgs_keeps {rest : List Nat} (keeps : KeepsOn ids m₀ m)
    (held : m.held.Perm (pages ++ rest)) : Returns (freeArgs m pages) fun m' =>
      KeepsOn ids m₀ m' ∧ Touches m m' ∅ ∧ m'.held.Perm rest := by
  induction pages generalizing m with
  | nil => exact .ok ⟨keeps, (Works.refl keeps.inv ∅).touches, held⟩
  | cons pa pages ih =>
    have mem : pa ∈ m.held := held.mem_iff.2 mem_cons_self
    unfold freeArgs
    rw [foldlM_cons]
    refine (kfree_keeps keeps mem).bind fun m₁ freed keeps₁ => ?_
    have touches₁ := (kfree_touches keeps.inv mem freed).1
    have less : m₁.held = m.held.erase pa := by
      unfold Machine.kfree at freed
      obtain ⟨k, -, last⟩ := of_bind_ok freed
      cases last
      rfl
    have held₁ : m₁.held.Perm (pages ++ rest) := by
      rw [less, ← List.erase_cons_head pa (pages ++ rest)]
      exact held.erase pa
    obtain ⟨m', run, keeps', touches, held'⟩ := ih keeps₁ held₁
    exact ⟨m', run, keeps', touches₁.trans touches, held'⟩

/-- With nothing borrowed any more the free pages are those of before. -/
theorem Borrows.freelist (borrows : Borrows ids m₀ m []) (inv : m₀.Inv) :
    m.kmem.freelist.Perm m₀.kmem.freelist := by
  have after := borrows.keeps.inv.holds
  have held : (m.held : Multiset Nat) = m₀.held := coe_eq_coe.2 borrows.held
  rw [exclOf_eq, sharedOf_eq, borrows.space, held] at after
  have before := inv.holds
  rw [exclOf_eq, sharedOf_eq] at before
  rw [← zero_add (_ + _ : Multiset Nat)] at before
  have same := freed_once before after borrows.keeps.kend
  rw [zero_add] at same
  exact coe_eq_coe.1 same

/-! ## Fetching the arguments -/

theorem fetchaddr_succeeds (k : Kmem) (sp : Space) (addr : Nat) :
    Succeeds (fetchaddr k sp addr) := by
  unfold fetchaddr
  split
  · exact .ok none
  · obtain ⟨bytes, r, run, -⟩ := copyinLoop_spec k sp.pagetable addr (le_refl 8)
    exact Succeeds.bind ⟨_, run⟩ fun _ _ => .ok _

theorem fetchstr_returns (k : Kmem) (sp : Space) (addr max : Nat) :
    Returns (fetchstr k sp addr max) fun r => r.1.length ≤ max := by
  obtain ⟨bytes, r, run, short⟩ := copyinstrLoop_total k sp.pagetable max addr max
  unfold fetchstr copyinstr
  rw [run]
  exact .ok short

/-- The loop over the arguments returns, with the pages it has filled. -/
theorem Borrows.fetchArgs (uargv n : Nat) (borrows : Borrows ids m₀ m pages)
    (space : m₀.space id = some sp) :
    Returns (fetchArgs id uargv n m pages) fun r => Borrows ids m₀ r.1 r.2.1 := by
  induction n generalizing m pages with
  | zero => exact .ok borrows
  | succ n ih =>
    unfold Xv6.fetchArgs
    refine get_returns (by rw [borrows.space, space])
      ((fetchaddr_succeeds _ sp _).next fun word _ => ?_)
    cases word with
    | none => exact .ok borrows
    | some uarg =>
      simp only
      split
      · exact .ok borrows
      · cases alloc : m.kalloc with
        | mk m₁ r =>
        have borrows₁ := borrows.kalloc alloc
        cases r with
        | none =>
          rw [Option.toList_none, append_nil] at borrows₁
          exact .ok borrows₁
        | some pa =>
          refine (fetchstr_returns m₁.kmem sp uarg pgsize).bind fun ⟨bytes, r⟩ _ short => ?_
          have borrows₂ := borrows₁.fill
            (List.mem_append_right _ (List.mem_singleton_self pa)) short
          simp only
          split
          · exact .ok borrows₂
          · exact ih borrows₂

end Machine

namespace Kernel

variable {s s' : Kernel} {p : Fin nproc} {ids : Set SpaceId} {m : Machine} {pages : List Nat}
  {file : Option (List UInt8)}

/-- The invariant while the kernel holds some pages more. -/
theorem Inv.borrows (inv : s.Inv) (borrows : Borrows ids s.machine m pages) :
    ({ s with machine := m } : Kernel).Inv :=
  inv.alter borrows.keeps.inv (fun q => by simp only [borrows.space, inv.image q])
    (fun q => by simp only [borrows.space])
    (fun pa mem => borrows.held.mem_iff.2 (mem_append_right _ mem)) (fun _ => rfl) fun _ => .rfl

/-- `exec` gives back or keeps no page of the kernel, and changes nothing if it fails. -/
theorem exec_spec {path : List UInt8} {argv : List (List UInt8)} {r : Int} (inv : s.Inv)
    (uint : ∀ f, file = some f → f.length < 2 ^ 32) (run : s.exec p path file argv = .ok (s', r)) :
    s'.machine.held = s.machine.held ∧
      (r = -1 → s'.proc = s.proc ∧ Touches s.machine s'.machine ∅) := by
  unfold exec at run
  cases file with
  | none =>
    cases run
    exact ⟨rfl, fun _ => ⟨rfl, (Works.refl inv.machine ∅).touches⟩⟩
  | some f =>
    cases frame : (s.proc p).trapframe with
    | none =>
      rw [frame] at run
      cases run
    | some trapframe =>
      simp only [frame] at run
      obtain ⟨⟨m₁, r₁⟩, built, run⟩ := of_bind_ok run
      obtain ⟨works₁, shows⟩ :=
        buildImage_shows inv.machine (inv.image p) (uint f rfl) built
      cases r₁ with
      | none =>
        obtain ⟨m₂, freed, last⟩ := of_bind_ok run
        cases last
        obtain ⟨works₂, none⟩ := freePagetable_spec works₁.touches.inv freed
        have works := works₁.trans works₂
        refine ⟨works.held, fun _ => ⟨rfl, works.touches.inv, fun j _ => ?_,
          fun j _ sp space => ?_⟩⟩
        · by_cases image : j = .image p
          · rw [image, inv.image p]
            exact none
          · exact works.touches.others j image
        · refine works.touches.bytes j ?_ sp space
          rintro rfl
          rw [inv.image p] at space
          cases space
      | some result =>
        obtain ⟨elf, top⟩ := result
        obtain ⟨m₂, committed, last⟩ := of_bind_ok run
        cases last
        obtain ⟨im, -, shown, -⟩ := shows elf top rfl
        obtain ⟨works₂, -, -⟩ := commit_shows works₁.touches.inv shown committed
        refine ⟨works₂.held.trans works₁.held, fun failed => ?_⟩
        omega

/-- Nothing has changed for any process: the process table, the page tables and sizes, what the
pages show, and the free pages. -/
structure Same (s s' : Kernel) : Prop where
  proc : s'.proc = s.proc
  space : s'.machine.space = s.machine.space
  bytes : ∀ id sp, s.machine.space id = some sp → ∀ v < userPages, (sp.pagetable.entry v).isSome →
    SameBytes s.machine.kmem sp.pagetable s'.machine.kmem sp.pagetable v
  freelist : s'.machine.kmem.freelist.Perm s.machine.kmem.freelist

theorem Same.of_borrows (inv : s.Inv) (proc : s'.proc = s.proc)
    (borrows : Borrows ids s.machine s'.machine []) : s.Same s' :=
  ⟨proc, borrows.space, fun id sp space => borrows.touches.bytes id (Set.notMem_empty id) sp space,
    borrows.freelist inv.machine⟩

theorem Same.refl (inv : s.Inv) : s.Same s := by
  have none : s.machine.SoundOn ∅ := fun _ mem => mem.elim
  exact .of_borrows inv rfl (.refl inv.machine none)

/-- `exec` returns whatever the file and the arguments are, and changes nothing if it fails. -/
theorem exec_atomic (path : List UInt8) (argv : List (List UInt8)) (inv : s.Inv)
    (sound : s.machine.SoundOn {.proc p, .image p}) (linked : 0 < s.machine.kmem.kend)
    (used : (s.proc p).state ≠ .unused) (uint : ∀ f, file = some f → f.length < 2 ^ 32) :
    ∃ s' r, s.exec p path file argv = .ok (s', r) ∧ (r = -1 → s.Same s') := by
  obtain ⟨⟨s', r⟩, run, keeps⟩ := exec_keeps path file argv inv ⟨inv.machine, sound, rfl⟩ linked
    (by simp) (by simp) used uint
  obtain ⟨held, failed⟩ := exec_spec inv uint run
  refine ⟨s', r, run, fun minus => ?_⟩
  obtain ⟨procs, touches⟩ := failed minus
  exact .of_borrows inv procs ⟨keeps, touches, by rw [held]; exact .refl _⟩

theorem sysExec_returns {namei : List UInt8 → Option (List UInt8)} (inv : s.Inv)
    (sound : s.machine.SoundOn {.proc p, .image p}) (linked : 0 < s.machine.kmem.kend)
    (used : (s.proc p).state ≠ .unused) (uint : ∀ path f, namei path = some f → f.length < 2 ^ 32) :
    Returns (s.sysExec p namei) fun r => r.2 = -1 → s.Same r.1 := by
  obtain ⟨sp, space⟩ := Option.isSome_iff_exists.1 (inv.inUse p used).1
  refine get_returns space ((fetchstr_returns _ sp _ maxpath).bind fun ⟨path, r⟩ _ _ => ?_)
  simp only
  split
  · exact .ok fun _ => .refl inv
  · refine ((Borrows.refl inv.machine sound).fetchArgs (s.proc p).frame.a1 maxarg space).bind
      fun ⟨m₁, argv, done⟩ _ borrows₁ => ?_
    cases done with
    | false =>
      exact (freeArgs_keeps borrows₁.keeps borrows₁.held).bind
        fun m₂ _ ⟨keeps₂, touches₂, held₂⟩ => .ok fun _ =>
          .of_borrows inv rfl ⟨keeps₂, borrows₁.touches.trans touches₂, held₂⟩
    | true =>
      have inv₁ := inv.borrows borrows₁
      refine (exec_keeps (s := { s with machine := m₁ }) _ _ _ inv₁ borrows₁.keeps linked (by simp)
        (by simp) used (uint (cstring path))).bind fun ⟨s₂, ret⟩ executed keeps₂ => ?_
      obtain ⟨held, failed⟩ := exec_spec inv₁ (uint (cstring path)) executed
      -- the pages of the arguments go back whether or not the image was replaced
      have held₂ : s₂.machine.held.Perm (argv ++ s.machine.held) := by
        rw [held]
        exact borrows₁.held
      refine (freeArgs_keeps keeps₂ held₂).bind
        fun m₃ _ ⟨keeps₃, touches₃, held₃⟩ => .ok fun minus => ?_
      obtain ⟨procs, touches₂⟩ := failed minus
      exact .of_borrows inv procs ⟨keeps₃, (borrows₁.touches.trans touches₂).trans touches₃, held₃⟩

/-- `sys_exec` and `exec` return for every file, every argument vector and any amount of free
memory; and if the result is `-1` nothing has changed. -/
theorem sysExec_atomic {namei : List UInt8 → Option (List UInt8)} (inv : s.Inv)
    (sound : s.machine.SoundOn {.proc p, .image p}) (linked : 0 < s.machine.kmem.kend)
    (used : (s.proc p).state ≠ .unused)
    (uint : ∀ path f, namei path = some f → f.length < 2 ^ 32) :
    (∃ s' r, s.sysExec p namei = .ok (s', r) ∧ (r = -1 → s.Same s')) ∧
      ∀ path argv, argv.length < maxarg →
        ∃ s' r, s.exec p path (namei path) argv = .ok (s', r) ∧ (r = -1 → s.Same s') := by
  obtain ⟨⟨s', r⟩, run, same⟩ := sysExec_returns inv sound linked used uint
  exact ⟨⟨s', r, run, same⟩, fun path argv _ =>
    exec_atomic path argv inv sound linked used (uint path)⟩

/-- A program with one segment, of a megabyte. -/
def largeProgram : List UInt8 :=
  [0x7F, 0x45, 0x4C, 0x46] ++ List.replicate 28 0 ++ [64] ++ List.replicate 23 0 ++ [1] ++
    List.replicate 7 0 ++ [1] ++ List.replicate 41 0 ++ [0x10] ++ List.replicate 13 0

/-- The first process executes it as `initcode` does, on a machine with less memory. -/
theorem sysExec_without_memory : ∃ s s' : Kernel, s.Inv ∧
    s.sysExec 0 (fun _ => some largeProgram) = .ok (s', -1) ∧ s.Same s' := by
  have pass : Kernel.boots 24 (fun s =>
      decide (0 < s.machine.kmem.kend ∧ (s.proc 0).state = .runnable) &&
        yields ((s.modify 0 fun q =>
          { q with frame := { q.frame with a0 := 36, a1 := 43 } }).sysExec 0
          fun _ => some largeProgram) fun done => decide (done.2 = -1)) = true := by
    decide +kernel
  obtain ⟨s₀, booted, test⟩ := Kernel.of_boots pass
  obtain ⟨ready, test⟩ := Bool.and_eq_true_iff.1 test
  obtain ⟨⟨s', r⟩, executed, failed⟩ := of_yields test
  obtain ⟨linked, runnable⟩ := of_decide_eq_true ready
  have failed : r = -1 := of_decide_eq_true failed
  have inv : (s₀.modify 0 fun q => { q with frame := { q.frame with a0 := 36, a1 := 43 } }).Inv :=
    (booted_simulates booted).1.modify rfl .rfl
  obtain ⟨⟨s₁, r₁, run, same⟩, -⟩ := @sysExec_atomic _ 0 (fun _ => some largeProgram) inv
    (fun id _ => booted_sound booted id trivial) linked
    (by rw [modify_proc_self]; simp only [runnable]; rintro ⟨⟩)
    (fun path f eq => by cases eq; decide)
  rw [executed] at run
  cases run
  rw [failed] at executed
  exact ⟨_, s', inv, executed, same failed⟩

end Kernel

end Xv6
