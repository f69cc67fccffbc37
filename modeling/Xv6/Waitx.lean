import Xv6.ContiguousRun

/-!
# waitx

`waitx` frees the child before `sys_waitx` copies its times, and `sys_waitx` copies whatever
`wtime` and `rtime` hold after a `waitx` that freed none: the stack words they were declared with,
or the times of a child that is still there.  So a call that returns `-1` may have reaped a child,
and one that reaps none may write to the user.

As for `wait`, one scan of the process table is one step; a call that sleeps goes on with another
scan of the table it then finds.
-/

namespace Xv6

open Ownership Fallible Machine List Kernel Finset Function Option

/-- `wtime` and `rtime` of `sys_waitx`, as words modulo `2 ^ 32`. -/
structure Times where
  wtime : Int
  rtime : Int

namespace Kernel

/-- The times that `waitx` stores for a child. -/
def times (s : Kernel) (q : Fin nproc) : Times :=
  ⟨(s.proc q).etime - (s.proc q).ctime - (s.proc q).rtime, (s.proc q).rtime⟩

/-- `waitx`, one scan of the process table; no result if the process has to sleep. -/
def waitx (s : Kernel) (p : Fin nproc) (addr : Nat) (t : Times) :
    Except String (Kernel × Option Int × Times) :=
  match s.zombieChild p with
  | some q =>
    let pid := (s.proc q).pid
    let t := s.times q
    if addr = 0 then do
      let s ← s.freeproc q
      .ok (s, some pid, t)
    else do
      let (s, r) ← s.copyout p addr (intBytes (s.proc q).xstate)
      if r < 0 then .ok (s, some (-1), t)
      else do
        let s ← s.freeproc q
        .ok (s, some pid, t)
  | none =>
    if (∀ q, (s.proc q).parent ≠ some p) ∨ (s.proc p).killed then .ok (s, some (-1), t)
    else .ok (s, none, t)

/-- The copies of `sys_waitx`, after `waitx` has returned `ret`. -/
def copyTimes (s : Kernel) (p : Fin nproc) (addr1 addr2 : Nat) (ret : Int) (t : Times) :
    Except String (Kernel × Int) := do
  let (s, r) ← s.copyout p addr1 (intBytes t.wtime)
  if r < 0 then .ok (s, -1)
  else do
    let (s, r) ← s.copyout p addr2 (intBytes t.rtime)
    if r < 0 then .ok (s, -1) else .ok (s, ret)

/-- `sys_waitx`, with the words that `wtime` and `rtime` hold before they are set. -/
def sysWaitx (s : Kernel) (p : Fin nproc) (addr addr1 addr2 : Nat) (t : Times) :
    Except String (Kernel × Option Int) := do
  match ← s.waitx p addr t with
  | (s, none, _) => .ok (s, none)
  | (s, some ret, t) => do
      let (s, r) ← s.copyTimes p addr1 addr2 ret t
      .ok (s, some r)

variable {s s' s₁ : Kernel} {p q : Fin nproc} {addr addr1 addr2 : Nat} {t t' : Times} {ret r : Int}
  {sp : Space}

/-- A call that returns `-1` reaps no child; a call that reaps one has its times to copy; and one
that reaps none writes nothing, whatever it would copy. -/
structure WaitxContract (s : Kernel) (p : Fin nproc) (addr addr1 addr2 : Nat) : Prop where
  atomic : ∀ t s', s.sysWaitx p addr addr1 addr2 t = .ok (s', some (-1)) → s'.proc = s.proc
  determined : ∀ t s₁ ret t', s.waitx p addr t = .ok (s₁, some ret, t') → s₁.proc ≠ s.proc →
    ∃ q, s.zombieChild p = some q ∧ (s₁.proc q).state = .unused ∧ t' = s.times q
  silent : ∀ t s₁ ret t', s.waitx p addr t = .ok (s₁, some ret, t') → s₁.proc = s.proc →
    ∀ t s' r, s₁.copyTimes p addr1 addr2 ret t = .ok (s', r) →
      s₁.machine.Written s'.machine (.proc p) addr1 []

/-- A word that `copyout` writes whole: its first page, and then its last. -/
def GrantsWord (k : Kmem) (pt : PageTable) (a : Nat) : Prop :=
  Grants k pt (a / pgsize) ∧ GrantsAfter k pt (a / pgsize) ((a + 3) / pgsize)

/-- A page that `copyout` writes to after it has failed to write a word at `a`. -/
def GrantsStill (k : Kmem) (pt : PageTable) (a v : Nat) : Prop :=
  if Grants k pt (a / pgsize) then GrantsAfter k pt (a / pgsize) v else Grants k pt v

/-- A word on pages that are open to the user, none of them the first. -/
def WordOpened (pt : PageTable) (a : Nat) : Prop :=
  a / pgsize ≠ 0 ∧ Opened pt (a / pgsize) ∧ Opened pt ((a + 3) / pgsize)

instance {k : Kmem} {pt : PageTable} {a : Nat} : Decidable (GrantsWord k pt a) :=
  inferInstanceAs (Decidable (_ ∧ _))

instance {pt : PageTable} {a : Nat} : Decidable (WordOpened pt a) :=
  inferInstanceAs (Decidable (_ ∧ _ ∧ _))

/-- A call that can reap a child can also write to `addr1` and `addr2`, for which the pages of the
child are memory enough; one that returns without a child does not find a page to write to at
`addr1`. -/
def Copies (s : Kernel) (p : Fin nproc) (pt : PageTable) (addr addr1 addr2 : Nat) : Prop :=
  match s.zombieChild p with
  | some _ =>
    if addr = 0 ∨ GrantsWord s.machine.kmem pt addr then WordOpened pt addr1 ∧ WordOpened pt addr2
    else ¬GrantsStill s.machine.kmem pt addr (addr1 / pgsize)
  | none => (∀ q, (s.proc q).parent ≠ some p) ∨ (s.proc p).killed →
      ¬Grants s.machine.kmem pt (addr1 / pgsize)

/-! ## The parts -/

theorem copyout_proc {dstva : Nat} {src : List UInt8} (run : s.copyout p dstva src = .ok (s', r)) :
    s'.proc = s.proc := by
  obtain ⟨⟨m, r⟩, -, last⟩ := of_bind_ok run
  cases last
  rfl

theorem copyTimes_proc (run : s.copyTimes p addr1 addr2 ret t = .ok (s', r)) :
    s'.proc = s.proc := by
  obtain ⟨⟨s₁, r₁⟩, first, run⟩ := of_bind_ok run
  simp only at run
  split_ifs at run
  · cases run
    exact copyout_proc first
  · obtain ⟨⟨s₂, r₂⟩, second, run⟩ := of_bind_ok run
    have same := (copyout_proc second).trans (copyout_proc first)
    simp only at run
    split_ifs at run
    · cases run
      exact same
    · cases run
      exact same

theorem freeproc_proc (run : s.freeproc q = .ok s') :
    s'.proc = update s.proc q (s.proc q).freed := by
  obtain ⟨m, -, run⟩ := of_bind_ok run
  obtain ⟨m', -, last⟩ := of_bind_ok run
  cases last
  rfl

theorem intBytes_ne_nil (n : Int) : intBytes n ≠ [] := by
  simp [intBytes]

section

variable (inv : s.machine.Inv) (space : s.machine.space (.proc p) = some sp)
  (kernel : 0 < s.machine.kmem.kend)
include inv space kernel

/-- The copy of a word, on the machine of a kernel. -/
theorem copyout_word (dstva : Nat) (word : Int) :
    ∃ m' r n, s.copyout p dstva (intBytes word) = .ok ({ s with machine := m' }, r) ∧ m'.Inv ∧
      m'.kmem.kend = s.machine.kmem.kend ∧ n ≤ (intBytes word).length ∧
      s.machine.Written m' (.proc p) dstva ((intBytes word).take n) ∧
      (0 < n ↔ Grants s.machine.kmem sp.pagetable (dstva / pgsize)) ∧
      (r = 0 ∧ n = (intBytes word).length ∨ r = -1) := by
  obtain ⟨m', r, n, run, rest⟩ := Machine.copyout_spec inv space kernel dstva (intBytes_ne_nil word)
  refine ⟨m', r, n, ?_, rest⟩
  simp only [copyout, run, bind, Except.bind]

/-- The copy of a word, by its pages. -/
theorem copyout_pages (dstva : Nat) (word : Int) :
    ∃ m' sp' r, s.copyout p dstva (intBytes word) = .ok ({ s with machine := m' }, r) ∧
      m'.space (.proc p) = some sp' ∧ (∀ j ≠ .proc p, m'.space j = s.machine.space j) ∧
      (∀ w, Opened sp'.pagetable w ↔ Opened sp.pagetable w) ∧
      s.machine.kmem.freelist.length ≤ m'.kmem.freelist.length + 2 ∧
      ((r = 0 ∧ GrantsWord s.machine.kmem sp.pagetable dstva) ∨
      (r = -1 ∧ ¬GrantsWord s.machine.kmem sp.pagetable dstva ∧ ∀ w,
        Grants m'.kmem sp'.pagetable w ↔ GrantsStill s.machine.kmem sp.pagetable dstva w)) := by
  have four : (intBytes word).length = 4 := rfl
  obtain ⟨k', pt', r, run, opened, free, ends⟩ := copyoutLoop_short 4 (inv.table _ _ space)
    (inv.owned space) kernel dstva four.le (four ▸ by decide) (four ▸ by decide)
  refine ⟨s.machine.put (.proc p) k' (some ⟨pt', sp.sz⟩), ⟨pt', sp.sz⟩, r, ?_, put_space _,
    fun j other => put_other _ other, opened, free, ?_⟩
  · simp only [copyout, Machine.copyout, Machine.get, space, bind, Except.bind, Xv6.copyout, four,
      run]
  · unfold GrantsWord GrantsStill
    rw [four] at ends
    rcases ends with ⟨closed, rfl, rfl, rfl⟩ | ⟨grants, rfl, ready, closed⟩ | ⟨grants, rfl, after⟩
    · refine .inr ⟨rfl, fun both => closed both.1, fun w => ?_⟩
      rw [if_neg closed]
      rfl
    · refine .inr ⟨rfl, fun both => closed both.2, fun w => ?_⟩
      rw [if_pos grants]
      exact ready.grants
    · exact .inl ⟨rfl, grants, after⟩

end

/-- With two free pages, memory is no reason to refuse a word. -/
theorem grantsWord_iff {k : Kmem} {pt : PageTable} {a : Nat} (room : 2 ≤ k.freelist.length) :
    GrantsWord k pt a ↔ WordOpened pt a := by
  have some : k.freelist ≠ [] := ne_nil_of_length_pos (by omega)
  have few := spent_le k pt (a / pgsize)
  constructor
  · rintro ⟨first, last⟩
    exact ⟨first.1, first.2.1, last.2.1⟩
  · rintro ⟨nonzero, first, last⟩
    refine ⟨⟨nonzero, first, fun _ => some⟩, ?_, last, fun _ => .inr (by omega)⟩
    have : a / pgsize ≤ (a + 3) / pgsize := Nat.div_le_div_right (Nat.le_add_right a 3)
    have pos := Nat.pos_of_ne_zero nonzero
    omega

theorem wordOpened_congr {pt pt' : PageTable} (opened : ∀ w, Opened pt' w ↔ Opened pt w) (a : Nat) :
    WordOpened pt' a ↔ WordOpened pt a := by
  unfold WordOpened
  rw [opened, opened]

/-- Both copies, with memory for them. -/
theorem copyTimes_ends (addr1 addr2 : Nat) (inv : s.machine.Inv)
    (space : s.machine.space (.proc p) = some sp)
    (kernel : 0 < s.machine.kmem.kend) (room : 4 ≤ s.machine.kmem.freelist.length) (ret : Int)
    (t : Times) : ∃ s', s.copyTimes p addr1 addr2 ret t =
      .ok (s', if WordOpened sp.pagetable addr1 ∧ WordOpened sp.pagetable addr2 then ret
        else -1) := by
  obtain ⟨m₁, sp₁, r₁, copied₁, space₁, -, opened₁, free₁, ends₁⟩ :=
    copyout_pages inv space kernel addr1 t.wtime
  obtain ⟨m', r', n, copied', inv₁, kend, -⟩ := copyout_word inv space kernel addr1 t.wtime
  rw [copied₁] at copied'
  cases copied'
  rw [grantsWord_iff (by omega)] at ends₁
  unfold copyTimes
  simp only [copied₁, bind, Except.bind]
  rcases ends₁ with ⟨rfl, first⟩ | ⟨rfl, first, -⟩
  · obtain ⟨m₂, sp₂, r₂, copied₂, -, -, -, -, ends₂⟩ :=
      copyout_pages (s := { s with machine := m₁ }) inv₁ space₁ (kend ▸ kernel) addr2 t.rtime
    rw [grantsWord_iff (by simp only; omega), wordOpened_congr opened₁] at ends₂
    simp only [copied₂]
    rcases ends₂ with ⟨rfl, second⟩ | ⟨rfl, second, -⟩
    · exact ⟨_, by rw [if_neg (by decide), if_neg (by decide), if_pos ⟨first, second⟩]⟩
    · exact ⟨_, by rw [if_neg (by decide), if_pos (by decide), if_neg fun both => second both.2]⟩
  · exact ⟨_, by rw [if_pos (by decide), if_neg fun both => first both.1]⟩

/-! ## The child -/

/-- Freeing a child gives back its trapframe and its page table, four pages at least. -/
theorem freeproc_frees {m₀ : Machine} {pa : Nat} (keeps : KeepsOn .univ m₀ s.machine)
    (space : s.machine.space (.proc q) = some sp) (frame : (s.proc q).trapframe = some pa)
    (held : pa ∈ s.machine.held) :
    Returns (s.freeproc q) fun s' => KeepsOn .univ m₀ s'.machine ∧
      4 ≤ s'.machine.kmem.freelist.length ∧
      (∀ j ≠ .proc q, s'.machine.space j = s.machine.space j) ∧
      s'.proc = update s.proc q (s.proc q).freed := by
  have owns (pb : Nat) (other : (s.proc q).trapframe = some pb) : pb ∈ s.machine.held := by
    rw [frame] at other
    cases other
    exact held
  obtain ⟨s', run, keeps'⟩ := freeproc_keeps keeps owns
  obtain ⟨touches, none, held', -⟩ := freeproc_spec keeps.inv owns run
  refine ⟨s', run, keeps', ?_, fun j other => touches.others j other, freeproc_proc run⟩
  have page : s'.machine.kmem.IsPage = s.machine.kmem.IsPage := by
    funext pb
    simp only [Kmem.IsPage, keeps'.kend, keeps.kend]
  have before := keeps.inv.holds
  have after := keeps'.inv.holds
  unfold Holds at before after
  rw [page, exclOf_split (mem_univ (.proc q)), sharedOf_split (mem_univ (.proc q)),
    none,
    spaceExcl, spaceShared, Multiset.zero_add, Multiset.zero_add] at after
  have same (j : SpaceId) (mem : j ∈ all.erase (.proc q)) :
      s'.machine.space j = s.machine.space j :=
    touches.others j (ne_of_mem_erase mem)
  have excl : s'.machine.exclOf (all.erase (.proc q)) =
      ∑ j ∈ all.erase (.proc q), spaceExcl (s.machine.space j) + (s.machine.held.erase pa) := by
    rw [exclOf_eq, held', frame, sum_congr rfl fun j mem => by rw [same j mem]]
    rfl
  have shared : s'.machine.sharedOf (all.erase (.proc q)) ≤ s.machine.sharedOf all := by
    rw [sharedOf_eq, sharedOf_split (mem_univ (.proc q)), sharedOf_eq,
      sum_congr rfl fun j mem => by rw [same j mem]]
    exact Multiset.le_add_left _ _
  rw [excl] at after
  rw [exclOf_of_held held, ← add_sum_erase all _ (mem_univ (.proc q)), add_assoc,
    ← Multiset.cons_add] at before
  have back := before.card_le_free after shared
  obtain ⟨e, entry⟩ := isSome_iff_exists.1 (keeps.inv.table _ _ space).trapframe
  have three := PageTable.three_tables (PageTable.lookup_of_entry entry)
  rw [space, spaceExcl, Multiset.card_cons, Multiset.card_add] at back
  omega

theorem zombieChild_state (child : s.zombieChild p = some q) : (s.proc q).state = .zombie := by
  have found := find?_some child
  exact (of_decide_eq_true found).2

theorem reaped_ne (child : s.zombieChild p = some q)
    (reaped : s₁.proc = update s.proc q (s.proc q).freed) : s₁.proc ≠ s.proc := by
  intro same
  have state := congrArg (fun table => (table q).state) (reaped.symm.trans same)
  simp only [update_self, zombieChild_state child] at state
  cases state

/-! ## What is written -/

theorem intBytes_replicate (b : UInt8) : intBytes (b.toNat * 16843009) = replicate 4 b := by
  have all : ∀ n : Fin 256, intBytes (n.val * 16843009) = replicate 4 (UInt8.ofNat n.val) := by
    decide +kernel
  simpa using all ⟨b.toNat, b.toNat_lt⟩

section

variable (inv : s.machine.Inv) (space : s.machine.space (.proc p) = some sp)
include inv space

/-- Copies to a page that `copyout` does not write to. -/
theorem copyTimes_refused (kernel : 0 < s.machine.kmem.kend)
    (refused : ¬Grants s.machine.kmem sp.pagetable (addr1 / pgsize))
    (run : s.copyTimes p addr1 addr2 ret t = .ok (s', r)) :
    s.machine.Written s'.machine (.proc p) addr1 [] := by
  obtain ⟨m', r₁, n, copied, -, -, -, written, first, ended⟩ :=
    copyout_word inv space kernel addr1 t.wtime
  have none : n = 0 := Nat.eq_zero_of_not_pos fun pos => refused (first.1 pos)
  subst none
  have failed : r₁ = -1 := by
    rcases ended with ⟨-, empty⟩ | minus
    · exact absurd (length_eq_zero_iff.1 empty.symm) (intBytes_ne_nil _)
    · exact minus
  subst failed
  unfold copyTimes at run
  rw [copied] at run
  cases run
  exact written

/-- When all bytes of both words are `b`, a page that `copyout` writes to has `b` at `addr1`
afterwards: the second copy can only write `b` there again. -/
theorem copyTimes_writes (kernel : 0 < s.machine.kmem.kend)
    (grants : Grants s.machine.kmem sp.pagetable (addr1 / pgsize)) (b : UInt8) (addr2 : Nat)
    (ret : Int) :
    ∃ s' r sp', s.copyTimes p addr1 addr2 ret ⟨b.toNat * 16843009, b.toNat * 16843009⟩ =
        .ok (s', r) ∧ s'.machine.space (.proc p) = some sp' ∧
      shown s'.machine.kmem sp'.pagetable addr1 = b := by
  obtain ⟨user, mapped⟩ := grants.2.1.user (inv.table _ _ space)
  obtain ⟨m₁, r₁, n₁, copied₁, inv₁, kend₁, le₁, written₁, first₁, -⟩ :=
    copyout_word inv space kernel addr1 (b.toNat * 16843009)
  obtain ⟨sp₁, space₁, -, bytes₁⟩ := written₁ _ _ space
  obtain ⟨mapped₁, byte₁⟩ := bytes₁ addr1 user mapped
  have pos := first₁.2 grants
  rw [intBytes_replicate] at le₁ byte₁
  rw [length_replicate] at le₁
  have here₁ : shown m₁.kmem sp₁.pagetable addr1 = b := by
    rw [byte₁, take_replicate, length_replicate, if_pos ⟨rfl, le_rfl, by omega⟩,
      Nat.sub_self, getD_eq_getElem?_getD, getElem?_replicate_of_lt (by omega)]
    rfl
  unfold copyTimes
  simp only [copied₁, bind, Except.bind]
  split_ifs with negative
  · exact ⟨_, _, sp₁, rfl, space₁, here₁⟩
  · obtain ⟨m₂, r₂, n₂, copied₂, -, -, -, written₂, -, -⟩ :=
      copyout_word (s := { s with machine := m₁ }) inv₁ space₁ (kend₁ ▸ kernel) addr2
        (b.toNat * 16843009)
    obtain ⟨sp₂, space₂, -, bytes₂⟩ := written₂ _ _ space₁
    obtain ⟨-, byte₂⟩ := bytes₂ addr1 user mapped₁
    have here₂ : shown m₂.kmem sp₂.pagetable addr1 = b := by
      rw [byte₂, intBytes_replicate, take_replicate, length_replicate]
      split_ifs with inside
      · rw [getD_eq_getElem?_getD, getElem?_replicate_of_lt (by omega)]
        rfl
      · exact here₁
    simp only [copied₂]
    split_ifs
    · exact ⟨_, _, sp₂, rfl, space₂, here₂⟩
    · exact ⟨_, _, sp₂, rfl, space₂, here₂⟩

end

/-! ## The contract -/

section

variable (inv : s₁.machine.Inv) (space : s₁.machine.space (.proc p) = some sp)
  (kernel : 0 < s₁.machine.kmem.kend)
include inv space kernel

/-- After a `waitx` that has left the process table as it was, the first page of `addr1` decides. -/
theorem contract_kept (ends : ∀ t, ∃ t', s.waitx p addr t = .ok (s₁, some ret, t'))
    (same : s₁.proc = s.proc) : s.WaitxContract p addr addr1 addr2 ↔
      ¬Grants s₁.machine.kmem sp.pagetable (addr1 / pgsize) := by
  constructor
  · intro contract grants
    -- words of another byte than the one at addr1 would be seen there
    obtain ⟨t', waited⟩ := ends ⟨0, 0⟩
    obtain ⟨s', r, sp', copied, space', byte⟩ := copyTimes_writes inv space kernel grants
      (shown s₁.machine.kmem sp.pagetable addr1 + 1) addr2 ret
    obtain ⟨sp'', space'', -, bytes⟩ :=
      contract.silent _ s₁ ret t' waited same _ _ _ copied _ _ space
    obtain ⟨user, mapped⟩ := grants.2.1.user (inv.table _ _ space)
    obtain ⟨-, unchanged⟩ := bytes addr1 user mapped
    rw [space'] at space''
    cases space''
    rw [byte, length_nil, if_neg (by omega)] at unchanged
    exact absurd unchanged (by simp)
  · intro closed
    refine ⟨fun t s' returned => ?_, fun t s₂ ret' t₂ waited reaped => ?_,
      fun t s₂ ret' t₂ waited _ t₃ s' r copied => ?_⟩
    · obtain ⟨t', waited⟩ := ends t
      simp only [sysWaitx, waited, bind, Except.bind] at returned
      split at returned
      · cases returned
      · rename_i result copied
        simp only [Except.ok.injEq, Prod.mk.injEq] at returned
        rw [← returned.1]
        exact (copyTimes_proc copied).trans same
    · obtain ⟨t', again⟩ := ends t
      rw [waited] at again
      cases again
      exact absurd same reaped
    · obtain ⟨t', again⟩ := ends t
      rw [waited] at again
      cases again
      exact copyTimes_refused inv space kernel closed copied

/-- After a `waitx` that has reaped a child both words have to be written. -/
theorem contract_reaped (child : s.zombieChild p = some q)
    (ends : ∀ t, s.waitx p addr t = .ok (s₁, some (s.proc q).pid, s.times q))
    (reaped : s₁.proc = update s.proc q (s.proc q).freed)
    (room : 4 ≤ s₁.machine.kmem.freelist.length) : s.WaitxContract p addr addr1 addr2 ↔
      WordOpened sp.pagetable addr1 ∧ WordOpened sp.pagetable addr2 := by
  have gone := reaped_ne child reaped
  obtain ⟨s', copied⟩ := copyTimes_ends addr1 addr2 inv space kernel room (s.proc q).pid (s.times q)
  have returned (t : Times) : s.sysWaitx p addr addr1 addr2 t = .ok (s', some
      (if WordOpened sp.pagetable addr1 ∧ WordOpened sp.pagetable addr2 then ((s.proc q).pid : Int)
        else -1)) := by
    simp only [sysWaitx, ends t, copied, bind, Except.bind]
  constructor
  · intro contract
    by_contra closed
    have failed := returned ⟨0, 0⟩
    rw [if_neg closed] at failed
    exact gone ((copyTimes_proc copied).symm.trans (contract.atomic _ _ failed))
  · intro opened
    refine ⟨fun t s'' minus => ?_, fun t s₂ ret' t₂ waited _ => ?_,
      fun t s₂ ret' t₂ waited same => ?_⟩
    · rw [returned t, if_pos opened] at minus
      simp only [Except.ok.injEq, Prod.mk.injEq, some.injEq] at minus
      omega
    · rw [ends t] at waited
      cases waited
      refine ⟨q, child, ?_, rfl⟩
      rw [reaped, update_self]
      rfl
    · rw [ends t] at waited
      cases waited
      exact absurd same gone

end

/-- `sys_waitx` fails atomically and leaks nothing exactly under a condition on the page table of
the caller and the free pages before the call. -/
theorem waitx_contract_iff (inv : s.Inv) (sound : s.machine.SoundOn .univ)
    (alive : (s.proc p).state ≠ .zombie) (space : s.machine.space (.proc p) = some sp)
    (linked : kernbase ≤ s.machine.kmem.kend) :
    s.WaitxContract p addr addr1 addr2 ↔ s.Copies p sp.pagetable addr addr1 addr2 := by
  have kernel : 0 < s.machine.kmem.kend := lt_of_lt_of_le (by decide) linked
  have keeps : KeepsOn .univ s.machine s.machine := ⟨inv.machine, sound, rfl⟩
  unfold Copies
  cases child : s.zombieChild p with
  | none =>
    simp only
    by_cases returns : (∀ q, (s.proc q).parent ≠ some p) ∨ (s.proc p).killed
    · rw [forall_prop_of_true returns]
      refine contract_kept inv.machine space kernel
        (fun t => ⟨t, show s.waitx p addr t = .ok (s, some (-1), t) from ?_⟩) rfl
      simp only [waitx, child]
      rw [if_pos returns]
    · have sleeps (t : Times) : s.waitx p addr t = .ok (s, none, t) := by
        simp only [waitx, child]
        rw [if_neg returns]
      refine iff_of_true ⟨fun t s' returned => ?_, fun t s₁ ret t' waited => ?_,
        fun t s₁ ret t' waited => ?_⟩ fun now => absurd now returns
      · simp only [sysWaitx, sleeps, bind, Except.bind] at returned
        cases returned
      · rw [sleeps] at waited
        cases waited
      · rw [sleeps] at waited
        cases waited
  | some q =>
    have zombie := zombieChild_state child
    have other : p ≠ q := by
      rintro rfl
      exact alive zombie
    obtain ⟨there, framed⟩ := inv.inUse q (by rw [zombie]; rintro ⟨⟩)
    obtain ⟨sq, spaceQ⟩ := isSome_iff_exists.1 there
    obtain ⟨pa, frame⟩ := isSome_iff_exists.1 framed
    simp only
    by_cases null : addr = 0
    · rw [if_pos (.inl null)]
      obtain ⟨s₁, freed, keeps₁, room, others, reaped⟩ :=
        freeproc_frees keeps spaceQ frame (inv.held q pa frame)
      refine contract_reaped keeps₁.inv ?_ (keeps₁.kend ▸ kernel) child (fun t => ?_) reaped room
      · rw [others _ (by simp [other]), space]
      · simp only [waitx, child, null, freed, if_true, bind, Except.bind]
    · obtain ⟨m₁, sp₁, r, copied, space₁, others₁, opened, -, ends⟩ :=
        copyout_pages inv.machine space kernel addr (s.proc q).xstate
      have used : (s.proc p).state ≠ .unused := by
        intro unused
        rw [(inv.unused p unused).1] at space
        cases space
      obtain ⟨keeps₁, -, held⟩ :=
        (copyout_keeps addr (intBytes (s.proc q).xstate) inv keeps used).result copied
      rcases ends with ⟨rfl, word⟩ | ⟨rfl, closed, still⟩
      · rw [if_pos (.inr word)]
        obtain ⟨s₂, freed, keeps₂, room, others₂, reaped⟩ := freeproc_frees keeps₁
          ((others₁ (.proc q) (by simp [other.symm])).trans spaceQ) frame
          (held ▸ inv.held q pa frame)
        rw [← wordOpened_congr opened, ← wordOpened_congr opened]
        refine contract_reaped keeps₂.inv ?_ (keeps₂.kend ▸ kernel) child (fun t => ?_) reaped room
        · rw [others₂ _ (by simp [other])]
          exact space₁
        · simp only [waitx, child, copied, freed, bind, Except.bind]
          rw [if_neg null, if_neg (by decide)]
      · rw [if_neg (not_or.2 ⟨null, closed⟩), ← still]
        have ends (t : Times) :
            s.waitx p addr t = .ok ({ s with machine := m₁ }, some (-1), s.times q) := by
          simp only [waitx, child, copied, bind, Except.bind]
          rw [if_neg null, if_pos (by decide)]
        exact contract_kept keeps₁.inv space₁ (keeps₁.kend ▸ kernel) (fun t => ⟨_, ends t⟩) rfl

end Kernel

/-- A process that grows by a page, and a child of it that exits. -/
def growForkExitOps : List Op := [.sbrk 0 pgsize, .fork 0, .exit 1 5]

/-- The status and the times of the child are copied to the second page, which the child shares. -/
theorem waitx_contract_reaps : ∃ s : Kernel, s.zombieChild 0 = some 1 ∧
    s.WaitxContract 0 pgsize (pgsize + 8) (pgsize + 16) := by
  have pass : boots 24 (fun s₀ =>
      decide (kernbase ≤ s₀.machine.kmem.kend) &&
      yields (s₀.performAll growForkExitOps) fun done =>
        decide (done.2.zombieChild 0 = some 1 ∧ (done.2.proc 0).state ≠ .zombie) &&
        (done.2.machine.space (.proc 0)).any fun sp => decide (
          Kernel.GrantsWord done.2.machine.kmem sp.pagetable pgsize ∧
          Kernel.WordOpened sp.pagetable (pgsize + 8) ∧
          Kernel.WordOpened sp.pagetable (pgsize + 16))) = true := by
    decide +kernel
  obtain ⟨s₀, booted, test⟩ := of_boots pass
  obtain ⟨linked, test⟩ := Bool.and_eq_true_iff.1 test
  have linked := of_decide_eq_true linked
  obtain ⟨⟨ops, s⟩, performed, test⟩ := of_yields test
  obtain ⟨state, test⟩ := Bool.and_eq_true_iff.1 test
  obtain ⟨child, alive⟩ := of_decide_eq_true state
  obtain ⟨sp, space, test⟩ := (any_eq_true _ _).1 test
  obtain ⟨word, opened⟩ := of_decide_eq_true test
  obtain ⟨inv, keeps⟩ := run_keeps booted linked (run_of_performAll performed)
  refine ⟨s, child, (waitx_contract_iff inv keeps.sound alive space
    (keeps.kend ▸ linked)).2 ?_⟩
  simp only [Kernel.Copies, child]
  rw [if_pos (.inr word)]
  exact opened

/-- With a child to reap and `addr1` zero the call returns `-1` and the child is gone.  Without a
child it returns `-1` as well and has written the words 7 and 9 from the stack. -/
theorem waitx_fails_and_reaps : ∃ s₁ s₁' s₂ s₂' : Kernel, ∃ sp,
    s₁.zombieChild 0 = some 1 ∧
    s₁.sysWaitx 0 0 0 0 ⟨7, 9⟩ = .ok (s₁', some (-1)) ∧ s₁'.zombieChild 0 = none ∧
    (∀ q, (s₂.proc q).parent ≠ some 0) ∧
    s₂.sysWaitx 0 0 (pgsize + 8) (pgsize + 16) ⟨7, 9⟩ = .ok (s₂', some (-1)) ∧
    s₂'.machine.space (.proc 0) = some sp ∧
    shown s₂'.machine.kmem sp.pagetable (pgsize + 8) = 7 ∧
    shown s₂'.machine.kmem sp.pagetable (pgsize + 16) = 9 := by
  have pass : boots 24 (fun s₀ =>
      (yields (s₀.performAll growForkExitOps) fun done =>
        decide (done.2.zombieChild 0 = some 1) &&
        yields (done.2.sysWaitx 0 0 0 0 ⟨7, 9⟩) fun result =>
          decide (result.2 = some (-1) ∧ result.1.zombieChild 0 = none)) &&
      yields (s₀.performAll [.sbrk 0 pgsize]) fun done =>
        decide (∀ q, (done.2.proc q).parent ≠ some 0) &&
        yields (done.2.sysWaitx 0 0 (pgsize + 8) (pgsize + 16) ⟨7, 9⟩) fun result =>
          decide (result.2 = some (-1)) &&
          (result.1.machine.space (.proc 0)).any fun sp =>
            decide (shown result.1.machine.kmem sp.pagetable (pgsize + 8) = 7 ∧
              shown result.1.machine.kmem sp.pagetable (pgsize + 16) = 9)) = true := by
    decide +kernel
  obtain ⟨s₀, -, test⟩ := of_boots pass
  obtain ⟨reaps, writes⟩ := Bool.and_eq_true_iff.1 test
  obtain ⟨⟨ops₁, s₁⟩, -, test⟩ := of_yields reaps
  obtain ⟨child, test⟩ := Bool.and_eq_true_iff.1 test
  obtain ⟨⟨s₁', r₁⟩, run₁, test⟩ := of_yields test
  obtain ⟨rfl, gone⟩ := of_decide_eq_true test
  obtain ⟨⟨ops₂, s₂⟩, -, test⟩ := of_yields writes
  obtain ⟨alone, test⟩ := Bool.and_eq_true_iff.1 test
  obtain ⟨⟨s₂', r₂⟩, run₂, test⟩ := of_yields test
  obtain ⟨minus, test⟩ := Bool.and_eq_true_iff.1 test
  cases of_decide_eq_true minus
  obtain ⟨sp, space, test⟩ := (any_eq_true _ _).1 test
  obtain ⟨seven, nine⟩ := of_decide_eq_true test
  exact ⟨s₁, s₁', s₂, s₂', sp, of_decide_eq_true child, run₁, gone, of_decide_eq_true alone, run₂,
    space, seven, nine⟩

end Xv6
