import Xv6.Ipc.Piperead
import Xv6.Param

/-!
# Reading from a file

`fileread` hands its signed count to one of three functions: `piperead` and `consoleread` compare
it as an `int`, `readi` takes a `uint`.  The first two store nothing for a negative count.  In
`readi` a negative count is a huge one, which the test for overflow lets pass when the offset is
small; the count is then cut to the rest of the file, and all of it goes to user memory.
-/

namespace Xv6

open Fallible Ipc List

/-- The loop of `consoleread`, which has `n` characters to go out of `target`.  `input` are the
characters that arrive; the process is killed when it waits for more.  The result is what is
left of the input, and what the call returns. -/
def consolereadLoop (id : SpaceId) (target : Nat) :
    Nat → List UInt8 → Recorded → Nat → Except String (List UInt8 × Recorded × Int)
  | 0, input, u, _ => .ok (input, u, target)
  | _ + 1, [], u, _ => .ok ([], u, -1)
  | n + 1, c :: input, u, dst =>
    if c = 4 then
      -- end of file: left for the next call if this one has characters to return
      .ok (if n + 1 < target then c :: input else input, u, target - (n + 1))
    else do
      let (u, r) ← u.copyout id (dst % 2 ^ 64) [c]
      if r = -1 then .ok (input, u, target - (n + 1))
      else if c = 10 then .ok (input, u, target - n)
      else consolereadLoop id target n input u (dst + 1)

/-- `consoleread(1, dst, n)`. -/
def consoleread (input : List UInt8) (u : Recorded) (id : SpaceId) (dst : Nat) (n : Int) :
    Except String (List UInt8 × Recorded × Int) :=
  consolereadLoop id n.toNat n.toNat input u dst

/-- The loop of `readi(ip, 1, ..)` over the blocks of a file with contents `data`. -/
def readiLoop (id : SpaceId) (data : List UInt8) (n : Nat) :
    Nat → Recorded → Nat → Nat → Nat → Except String (Recorded × Int)
  | 0, u, _, _, tot => .ok (u, tot)
  | fuel + 1, u, dst, off, tot =>
    if n ≤ tot then .ok (u, tot)
    else do
      let m := min (n - tot) (bsize - off % bsize)
      let (u, r) ← u.copyout id (dst % 2 ^ 64) ((data.drop off).take m)
      if r = -1 then .ok (u, -1)
      else readiLoop id data n fuel u (dst + m) (off + m) (tot + m)

/-- `readi(ip, 1, dst, off, n)`; the size, the offset and the count are of type `uint`. -/
def readi (data : List UInt8) (u : Recorded) (id : SpaceId) (dst off n : Nat) :
    Except String (Recorded × Int) :=
  if data.length < off ∨ (off + n) % 2 ^ 32 < off then .ok (u, 0)
  else
    let n := if data.length < (off + n) % 2 ^ 32 then data.length - off else n
    readiLoop id data n n u dst off 0

/-- What an open file stands for: a pipe, a device, or an inode with the offset of the file. -/
inductive FileKind
  | pipe (ring : RingBuffer UInt8) (writeopen : Bool)
  | device (major : Int)
  | inode (data : List UInt8) (off : Nat)

structure File where
  readable : Bool
  kind : FileKind

/-- The major number of the only device with a `read` function. -/
def console : Int := 1

/-- `fileread(f, addr, n)`.  `killed` is whether the process is killed when it first looks, and
`input` what arrives on the console. -/
def fileread (f : File) (killed : Bool) (input : List UInt8) (u : Recorded) (id : SpaceId)
    (addr : Nat) (n : Int) : Except String (File × Recorded × Option Int) :=
  if !f.readable then .ok (f, u, some (-1))
  else
    match f.kind with
    | .pipe ring writeopen => do
        let (ring, u, r) ← piperead ring writeopen killed u id addr n
        .ok ({ f with kind := .pipe ring writeopen }, u, r)
    | .device major =>
      if major ≠ console then .ok (f, u, some (-1))
      else do
        let (_, u, r) ← consoleread input u id addr n
        .ok (f, u, some r)
    | .inode data off => do
        let (u, r) ← readi data u id addr off (n % 2 ^ 32).toNat
        let off := if 0 < r then (off + r.toNat) % 2 ^ 32 else off
        .ok ({ f with kind := .inode data off }, u, some r)

/-- The stores of a call are all in the buffer `[addr, addr + max(n, 0))`. -/
def StoresInside (stores : List (Nat × Nat)) (addr : Nat) (n : Int) : Prop :=
  ∀ a c, (a, c) ∈ stores → ∀ j < c, addr ≤ a + j ∧ ((a + j : Nat) : Int) < addr + max n 0

/-- The counters and sizes that a file can have. -/
def File.Valid (f : File) : Prop :=
  match f.kind with
  | .pipe ring _ => ∃ q, ring.Holds pipesize uint q
  | .device _ => True
  | .inode data off => data.length < 2 ^ 32 ∧ off < 2 ^ 32

/-- A negative count for an inode, at an offset inside the file that is too small for the sum to
overflow, and a page at the address of the buffer that `copyout` can write to. -/
def Overruns (f : File) (k : Kmem) (pt : PageTable) (addr : Nat) (n : Int) : Prop :=
  f.readable = true ∧ n < 0 ∧ Grants k pt (addr / pgsize) ∧
    ∃ data off, f.kind = .inode data off ∧ off < data.length ∧ (off : Int) < -n

/-! ## Stores in a range -/

variable {u u' : Recorded} {id : SpaceId} {sp : Space} {addr dst lo hi off : Nat} {n : Int}
  {data : List UInt8}

/-- What is known of a call when it returns: the stores it has made since are between `lo` and
`hi`, and the machine is as before apart from them. -/
structure StoredIn (u u' : Recorded) (lo hi : Nat) : Prop where
  stores : ∃ new, u'.stores = u.stores ++ new ∧ ∀ a c, (a, c) ∈ new → 0 < c → lo ≤ a ∧ a + c ≤ hi

theorem StoredIn.refl (u : Recorded) (lo hi : Nat) : StoredIn u u lo hi :=
  ⟨[], (append_nil _).symm, fun _ _ mem => by cases mem⟩

theorem StoredIn.cons {u₁ : Recorded} {start c : Nat} (first : u₁.stores = u.stores ++ [(start, c)])
    (low : lo ≤ start) (high : start + c ≤ hi) (rest : StoredIn u₁ u' lo hi) :
    StoredIn u u' lo hi := by
  obtain ⟨new, more, inside⟩ := rest.stores
  refine ⟨(start, c) :: new, by rw [more, first, append_assoc]; rfl, fun a d mem some => ?_⟩
  rcases mem_cons.1 mem with here | mem
  · cases here
    exact ⟨low, high⟩
  · exact inside a d mem some

theorem StoredIn.mono {lo' hi' : Nat} (stored : StoredIn u u' lo hi) (low : lo' ≤ lo)
    (high : hi ≤ hi') : StoredIn u u' lo' hi' := by
  obtain ⟨new, more, inside⟩ := stored.stores
  refine ⟨new, more, fun a c mem some => ?_⟩
  have := inside a c mem some
  omega

theorem StoredIn.inside (empty : u.stores = []) (stored : StoredIn u u' addr (addr + n.toNat)) :
    StoresInside u'.stores addr n := by
  obtain ⟨new, more, inside⟩ := stored.stores
  intro a c mem j lt
  rw [more, empty, nil_append] at mem
  have := inside a c mem (by omega)
  omega

theorem pipereadLoop_stores {i : Nat} (left : Nat) (ring : RingBuffer UInt8) (inv : u.machine.Inv)
    (space : u.machine.space id = some sp) (small : addr + i < 2 ^ 64) :
    ∃ ring' u' j, pipereadLoop id addr left ring u i = .ok (ring', u', j) ∧
      StoredIn u u' (addr + i) (addr + i + left) := by
  induction left generalizing ring u i sp with
  | zero => exact ⟨ring, u, i, rfl, .refl u _ _⟩
  | succ left ih =>
    unfold pipereadLoop
    split
    · exact ⟨ring, u, i, rfl, .refl u _ _⟩
    · rw [Nat.mod_eq_of_lt small]
      obtain ⟨u₁, r, c, sp₁, recorded, -, inv₁, space₁, -, stores, le, -, ended, below⟩ :=
        Recorded.copyout_spec (addr + i) [ring.front pipesize] inv space
      rw [length_singleton] at le ended
      simp only [recorded, bind, Except.bind]
      rcases ended with ⟨rfl, all⟩ | rfl
      · rw [if_neg (by decide)]
        have below := below 0 (by omega)
        obtain ⟨ring', u', j, run, rest⟩ := @ih u₁ _ (i + 1) (ring.pop uint) inv₁ space₁
          (by simp only [maxva] at below; omega)
        exact ⟨ring', u', j, run, .cons stores le_rfl (by omega) (rest.mono (by omega) (by omega))⟩
      · rw [if_pos rfl]
        exact ⟨_, u₁, i, rfl, .cons stores le_rfl (by omega) (.refl u₁ _ _)⟩

theorem piperead_stores (writeopen killed : Bool) (ring : RingBuffer UInt8) (inv : u.machine.Inv)
    (space : u.machine.space id = some sp) (small : addr < 2 ^ 64) :
    ∃ ring' u' r, piperead ring writeopen killed u id addr n = .ok (ring', u', r) ∧
      StoredIn u u' addr (addr + n.toNat) := by
  unfold piperead
  split
  · exact ⟨_, _, _, rfl, .refl u _ _⟩
  · obtain ⟨ring', u', j, run, stored⟩ :=
      pipereadLoop_stores (i := 0) n.toNat ring inv space small
    simp only [run, bind, Except.bind]
    exact ⟨_, _, _, rfl, stored⟩

theorem consolereadLoop_stores (target n : Nat) (input : List UInt8) (inv : u.machine.Inv)
    (space : u.machine.space id = some sp) (small : dst < 2 ^ 64) :
    ∃ left u' r, consolereadLoop id target n input u dst = .ok (left, u', r) ∧
      StoredIn u u' dst (dst + n) := by
  induction n generalizing u sp dst input with
  | zero => exact ⟨input, u, _, by rw [consolereadLoop], .refl u _ _⟩
  | succ n ih =>
    cases input with
    | nil => exact ⟨[], u, -1, by rw [consolereadLoop], .refl u _ _⟩
    | cons c input =>
      rw [consolereadLoop]
      split
      · exact ⟨_, u, _, rfl, .refl u _ _⟩
      · rw [Nat.mod_eq_of_lt small]
        obtain ⟨u₁, r, k, sp₁, recorded, -, inv₁, space₁, -, stores, le, -, ended, below⟩ :=
          Recorded.copyout_spec dst [c] inv space
        rw [length_singleton] at le ended
        have stored₁ : StoredIn u u₁ dst (dst + (n + 1)) :=
          .cons stores le_rfl (by omega) (.refl u₁ _ _)
        simp only [recorded, bind, Except.bind]
        rcases ended with ⟨rfl, all⟩ | rfl
        · rw [if_neg (by decide)]
          split
          · exact ⟨_, u₁, _, rfl, stored₁⟩
          · have below := below 0 (by omega)
            obtain ⟨left, u', r, run, rest⟩ := @ih u₁ _ (dst + 1) input inv₁ space₁
              (by simp only [maxva] at below; omega)
            exact ⟨left, u', r, run,
              .cons stores le_rfl (by omega) (rest.mono (by omega) (by omega))⟩
        · rw [if_pos rfl]
          exact ⟨_, u₁, _, rfl, stored₁⟩

theorem StoredIn.kept (stored : StoredIn u u' lo hi) {store : Nat × Nat} (mem : store ∈ u.stores) :
    store ∈ u'.stores := by
  obtain ⟨new, more, -⟩ := stored.stores
  rw [more]
  exact mem_append_left _ mem

/-- The loop of `readi` fills `[dst, dst + (n - tot))` from the front. -/
theorem readiLoop_stores {n tot : Nat} (fuel : Nat) (inv : u.machine.Inv)
    (space : u.machine.space id = some sp) (linked : 0 < u.machine.kmem.kend) (small : dst < 2 ^ 64)
    (within : off + (n - tot) ≤ data.length) :
    ∃ u' r, readiLoop id data n fuel u dst off tot = .ok (u', r) ∧
      StoredIn u u' dst (dst + (n - tot)) ∧
      (0 < fuel → tot < n →
        (Grants u.machine.kmem sp.pagetable (dst / pgsize) → ∃ c, 0 < c ∧ (dst, c) ∈ u'.stores) ∧
        (¬ Grants u.machine.kmem sp.pagetable (dst / pgsize) → StoredIn u u' dst dst)) := by
  induction fuel generalizing u sp dst off tot with
  | zero => exact ⟨u, _, rfl, .refl u _ _, fun positive => by omega⟩
  | succ fuel ih =>
    unfold readiLoop
    by_cases done : n ≤ tot
    · rw [if_pos done]
      exact ⟨u, _, rfl, .refl u _ _, fun _ more => by omega⟩
    · rw [if_neg done, Nat.mod_eq_of_lt small]
      have rest : off % bsize < bsize := Nat.mod_lt _ (by decide)
      obtain ⟨u₁, r, c, sp₁, recorded, -, inv₁, space₁, kend, stores, le, count, ended, below⟩ :=
        Recorded.copyout_spec dst
          ((data.drop off).take (min (n - tot) (bsize - off % bsize))) inv space
      have len : ((data.drop off).take (min (n - tot) (bsize - off % bsize))).length =
          min (n - tot) (bsize - off % bsize) := by
        rw [length_take, length_drop]
        omega
      have first : 0 < c ↔ Grants u.machine.kmem sp.pagetable (dst / pgsize) := by
        rw [count]
        exact copied_pos (inv.table id sp space) (inv.owned space) linked (by omega)
      rw [len] at le ended
      generalize chunk : min (n - tot) (bsize - off % bsize) = m at *
      have here : (dst, c) ∈ u₁.stores := by
        rw [stores]
        exact mem_append_right _ (mem_singleton_self _)
      simp only [recorded, bind, Except.bind]
      rcases ended with ⟨rfl, all⟩ | rfl
      · rw [if_neg (by decide)]
        have last := below (c - 1) (by omega)
        obtain ⟨u', r, run, stored, -⟩ := @ih u₁ _ (dst + m) (off + m) (tot + m) inv₁ space₁
          (kend ▸ linked) (by simp only [maxva] at last; omega) (by omega)
        refine ⟨u', r, run, .cons stores le_rfl (by omega) (stored.mono (by omega) (by omega)),
          fun _ _ => ⟨fun grants => ⟨c, first.2 grants, stored.kept here⟩, fun refuses => ?_⟩⟩
        exact absurd (first.1 (by omega)) refuses
      · rw [if_pos rfl]
        refine ⟨u₁, _, rfl, .cons stores le_rfl (by omega) (.refl u₁ _ _),
          fun _ _ => ⟨fun grants => ⟨c, first.2 grants, here⟩, fun refuses => ?_⟩⟩
        have none := mt first.1 refuses
        exact .cons stores le_rfl (by omega) (.refl u₁ _ _)

/-- `readi` with the count of `fileread`. -/
theorem readi_stores (inv : u.machine.Inv) (space : u.machine.space id = some sp)
    (linked : 0 < u.machine.kmem.kend) (small : addr < 2 ^ 64) (empty : u.stores = [])
    (size : data.length < 2 ^ 32) (offset : off < 2 ^ 32) (int : -2 ^ 31 ≤ n ∧ n < 2 ^ 31) :
    ∃ u' r, readi data u id addr off (n % 2 ^ 32).toNat = .ok (u', r) ∧
      (StoresInside u'.stores addr n ↔
        ¬ (n < 0 ∧ Grants u.machine.kmem sp.pagetable (addr / pgsize) ∧
        off < data.length ∧ (off : Int) < -n)) := by
  unfold readi
  generalize word : (n % 2 ^ 32).toNat = count
  have size_ : (count : Int) = n % 2 ^ 32 := by omega
  by_cases rejected : data.length < off ∨ (off + count) % 2 ^ 32 < off
  · rw [if_pos rejected]
    refine ⟨u, 0, rfl, iff_of_true ?_ ?_⟩
    · intro a c mem
      rw [empty] at mem
      cases mem
    · rintro ⟨negative, -, before, less⟩
      omega
  · rw [if_neg rejected]
    generalize cut :
      (if data.length < (off + count) % 2 ^ 32 then data.length - off else count) = c'
    have within : off + (c' - 0) ≤ data.length := by
      split at cut <;> omega
    obtain ⟨u', r, run, stored, first⟩ := readiLoop_stores c' inv space linked small within
    refine ⟨u', r, run, ?_⟩
    by_cases negative : n < 0
    · have less : (off : Int) < -n := by omega
      by_cases rest : off < data.length
      · have some : 0 < c' := by
          split at cut <;> omega
        obtain ⟨stores, refused⟩ := first some some
        by_cases granted : Grants u.machine.kmem sp.pagetable (addr / pgsize)
        · refine iff_of_false (fun inside => ?_) fun harmless =>
            harmless ⟨negative, granted, rest, less⟩
          obtain ⟨c, positive, mem⟩ := stores granted
          have := (inside addr c mem 0 positive).2
          omega
        · refine iff_of_true ?_ fun overruns => granted overruns.2.1
          refine StoredIn.inside empty ((refused granted).mono le_rfl ?_)
          omega
      · refine iff_of_true ?_ fun overruns => rest overruns.2.2.1
        refine StoredIn.inside empty (stored.mono le_rfl ?_)
        omega
    · refine iff_of_true ?_ fun overruns => negative overruns.1
      refine StoredIn.inside empty (stored.mono le_rfl ?_)
      split at cut <;> omega

/-- `fileread` returns, and its stores are in the buffer of the caller unless a negative count
overruns it. -/
theorem fileread_inside_iff {f : File} (killed : Bool) (input : List UInt8) (inv : u.machine.Inv)
    (space : u.machine.space id = some sp) (linked : 0 < u.machine.kmem.kend)
    (small : addr < 2 ^ 64)
    (empty : u.stores = []) (valid : f.Valid) (int : -2 ^ 31 ≤ n ∧ n < 2 ^ 31) :
    ∃ f' u' r, fileread f killed input u id addr n = .ok (f', u', r) ∧
      (StoresInside u'.stores addr n ↔ ¬ Overruns f u.machine.kmem sp.pagetable addr n) := by
  have nothing : StoresInside u.stores addr n := by
    intro a c mem
    rw [empty] at mem
    cases mem
  unfold fileread
  cases readable : f.readable with
  | false =>
    refine ⟨f, u, some (-1), rfl, iff_of_true nothing ?_⟩
    rintro ⟨yes, -⟩
    rw [readable] at yes
    cases yes
  | true =>
    rw [Bool.not_true, if_neg Bool.false_ne_true]
    unfold File.Valid at valid
    cases kind : f.kind with
    | pipe ring writeopen =>
      obtain ⟨ring', u', r, run, stored⟩ :=
        piperead_stores writeopen killed ring (n := n) inv space small
      simp only [run, bind, Except.bind]
      refine ⟨_, u', r, rfl, iff_of_true (stored.inside empty) ?_⟩
      rintro ⟨-, -, -, data, off, inode, -⟩
      rw [kind] at inode
      cases inode
    | device major =>
      have other : ¬ Overruns f u.machine.kmem sp.pagetable addr n := by
        rintro ⟨-, -, -, data, off, inode, -⟩
        rw [kind] at inode
        cases inode
      by_cases absent : major ≠ console
      · simp only [if_pos absent]
        exact ⟨f, u, _, rfl, iff_of_true nothing other⟩
      · simp only [if_neg absent]
        obtain ⟨left, u', r, run, stored⟩ :=
          consolereadLoop_stores n.toNat n.toNat input inv space small
        simp only [consoleread, run, bind, Except.bind]
        exact ⟨f, u', _, rfl, iff_of_true (stored.inside empty) other⟩
    | inode data off =>
      rw [kind] at valid
      obtain ⟨u', r, run, inside⟩ :=
        readi_stores inv space linked small empty valid.1 valid.2 int
      simp only [run, bind, Except.bind]
      refine ⟨_, u', _, rfl, inside.trans (not_congr ?_)⟩
      constructor
      · rintro ⟨negative, grants, rest, less⟩
        exact ⟨readable, negative, grants, data, off, kind, rest, less⟩
      · rintro ⟨-, negative, grants, data', off', same, rest, less⟩
        rw [kind] at same
        cases same
        exact ⟨negative, grants, rest, less⟩

/-- An open file of three bytes, at its beginning. -/
def threeBytes : File := ⟨true, .inode [1, 2, 3] 0⟩

/-- A process with two pages that reads from it with the count `n` into its second page, and what
the kernel stores there. -/
def readsThree (n : Int) (stores : List (Nat × Nat)) (s : Kernel) : Bool :=
  (s.machine.space (.proc 0)).isSome && (decide (0 < s.machine.kmem.kend) &&
    yields (fileread threeBytes false [] ⟨s.machine, []⟩ (.proc 0) pgsize n) fun done =>
      decide (done.2.1.stores = stores))

theorem of_readsThree (stores : List (Nat × Nat)) (pass : Kernel.boots 24 (fun s₀ =>
      yields (s₀.performAll [.sbrk 0 4096]) fun done => readsThree n stores done.2) = true) :
    ∃ (s : Kernel) (sp : Space) (f' : File) (u' : Recorded) (r : Option Int), s.Inv ∧
      0 < s.machine.kmem.kend ∧ s.machine.space (.proc 0) = some sp ∧
      fileread threeBytes false [] ⟨s.machine, []⟩ (.proc 0) pgsize n = .ok (f', u', r) ∧
      u'.stores = stores := by
  obtain ⟨s, inv, test⟩ := Kernel.of_ran 24 _ _ pass
  obtain ⟨there, test⟩ := Bool.and_eq_true_iff.1 test
  obtain ⟨linked, test⟩ := Bool.and_eq_true_iff.1 test
  obtain ⟨⟨f', u', r⟩, run, ends⟩ := of_yields test
  obtain ⟨sp, space⟩ := Option.isSome_iff_exists.1 there
  exact ⟨s, sp, f', u', r, inv, of_decide_eq_true linked, space, run, of_decide_eq_true ends⟩

/-- With the count `-1` the whole file goes to user memory. -/
theorem fileread_negative_count :
    ∃ (s : Kernel) (f' : File) (u' : Recorded) (r : Option Int), s.Inv ∧
    fileread threeBytes false [] ⟨s.machine, []⟩ (.proc 0) pgsize (-1) = .ok (f', u', r) ∧
      u'.stores = [(pgsize, 3)] ∧ ¬ StoresInside u'.stores pgsize (-1) := by
  obtain ⟨s, -, f', u', r, inv, -, -, run, stores⟩ :=
    of_readsThree (n := -1) [(pgsize, 3)] (by decide +kernel)
  refine ⟨s, f', u', r, inv, run, stores, fun inside => ?_⟩
  rw [stores] at inside
  have := (inside pgsize 3 (mem_singleton_self _) 0 (by decide)).2
  omega

/-- With the count `2` two bytes do. -/
theorem fileread_inside_two : ∃ (s : Kernel) (f' : File) (u' : Recorded) (r : Option Int), s.Inv ∧
    fileread threeBytes false [] ⟨s.machine, []⟩ (.proc 0) pgsize 2 = .ok (f', u', r) ∧
      u'.stores = [(pgsize, 2)] ∧ StoresInside u'.stores pgsize 2 := by
  obtain ⟨s, sp, f', u', r, inv, linked, space, run, stores⟩ :=
    of_readsThree (n := 2) [(pgsize, 2)] (by decide +kernel)
  obtain ⟨f₁, u₁, r₁, again, inside⟩ := fileread_inside_iff (u := ⟨s.machine, []⟩) (f := threeBytes)
    (n := 2) false [] inv.machine space linked (show pgsize < 2 ^ 64 by decide) rfl
    (show 3 < 2 ^ 32 ∧ 0 < 2 ^ 32 by decide) (by decide)
  rw [run] at again
  cases again
  exact ⟨s, f', u', r, inv, run, stores, inside.2 fun overruns => absurd overruns.2.1 (by decide)⟩

end Xv6
