import Xv6.Lib.Ownership
import Xv6.Lib.RacyCounter
import Xv6.Lib.Transitions

/-!
# Counting reads

`sys_read` begins with `readCount++`, which takes no lock and may be preempted between its load
and its store or run on two CPUs at once.  Two calls that load the same value count as one.  The
count is right when every load is made while no other call is between its load and its store.
-/

namespace Xv6.Sync

open RacyCounter Transitions

variable {P : Type} [DecidableEq P]

/-- Where a process is in `sys_read`. -/
inductive ReadPc
  | user
  /-- Before the load of `readCount`. -/
  | entered
  /-- Before the store. -/
  | loaded
  /-- In the rest of the call, which may succeed or not. -/
  | reading
deriving DecidableEq

structure Reads (P : Type) where
  readCount : Counter P 32
  pc : P → ReadPc
  /-- The calls that have returned. -/
  completed : Nat

namespace Reads

def boot : Reads P := ⟨Counter.init, fun _ => .user, 0⟩

def goto (s : Reads P) (p : P) (pc : ReadPc) : Reads P := { s with pc := Function.update s.pc p pc }

/-- The next step of a process that calls `sys_read` over and over. -/
def step (s : Reads P) (p : P) : Option (Reads P) :=
  match s.pc p with
  | .user => some (s.goto p .entered)
  | .entered => some { s.goto p .loaded with readCount := s.readCount.load p }
  | .loaded => some { s.goto p .reading with readCount := s.readCount.store p }
  | .reading => some { s.goto p .user with completed := s.completed + 1 }

/-- `sys_getreadcount`: an `int` as a `uint64`. -/
def sysGetreadcount (s : Reads P) : BitVec 64 := s.readCount.value.signExtend 64

/-- A load is made while no other call is between its load and its store. -/
def Apart (s : Reads P) (p : P) : Prop := s.pc p = .entered → ∀ q, s.pc q ≠ .loaded

instance [Fintype P] (s : Reads P) (p : P) : Decidable (s.Apart p) :=
  inferInstanceAs (Decidable (_ → ∀ q, s.pc q ≠ .loaded))

variable {s t : Reads P} {p : P} {ls : List P}

theorem goto_pc (s : Reads P) (p : P) (pc : ReadPc) : (s.goto p pc).pc p = pc :=
  Function.update_self ..

theorem goto_pc_ne {q : P} (s : Reads P) (pc : ReadPc) (ne : q ≠ p) :
    (s.goto p pc).pc q = s.pc q := Function.update_of_ne ne ..

variable [Fintype P]

/-- The calls that have counted themselves and have not returned. -/
def counted (s : Reads P) : Nat := ∑ p, if s.pc p = .reading then 1 else 0

structure Inv (s : Reads P) : Prop where
  alone : s.readCount.Alone
  loaded : ∀ p, (s.readCount.loaded p).isSome ↔ s.pc p = .loaded
  value : s.readCount.value = BitVec.ofNat 32 (s.completed + s.counted)

/-- Only the process that moves changes its part of the count. -/
theorem counted_goto (s : Reads P) (p : P) (pc : ReadPc) :
    (s.goto p pc).counted + (if s.pc p = .reading then 1 else 0) =
      s.counted + if pc = .reading then 1 else 0 := by
  have change := Ownership.sum_change (f := fun q => if s.pc q = .reading then 1 else 0)
    (g := fun q => if (s.goto p pc).pc q = .reading then 1 else 0) (Finset.mem_univ p)
    fun q _ ne => by rw [goto_pc_ne s pc ne]
  simp only [goto_pc] at change
  exact change

omit [DecidableEq P] in
theorem boot_inv : (boot : Reads P).Inv where
  alone := Counter.Quiet.alone fun _ => rfl
  loaded p := by simp [boot, Counter.init]
  value := by simp [boot, Counter.init, counted]

/-- A process that is not at a load or a store leaves the counter alone. -/
theorem Inv.goto {pc : ReadPc} (inv : s.Inv) (before : s.pc p ≠ .loaded) (after : pc ≠ .loaded)
    (value : s.completed + s.counted = t.completed + t.counted)
    (same : t.readCount = s.readCount) (moved : t.pc = (s.goto p pc).pc) : t.Inv where
  alone := by
    rw [same]
    exact inv.alone
  loaded q := by
    rw [same, moved, inv.loaded]
    rcases eq_or_ne q p with rfl | ne
    · rw [goto_pc]
      exact iff_of_false before after
    · rw [goto_pc_ne s pc ne]
  value := by
    rw [same, inv.value, value]

theorem step_inv (inv : s.Inv) (apart : s.Apart p) (step : s.step p = some t) : t.Inv := by
  unfold Reads.step at step
  cases at_p : s.pc p with
  | user =>
    rw [at_p] at step
    cases step
    have count := counted_goto s p .entered
    rw [at_p] at count
    simp only [reduceCtorEq, if_false, add_zero] at count
    refine inv.goto (p := p) (by rw [at_p]; simp) (by simp) ?_ rfl rfl
    change s.completed + s.counted = s.completed + (s.goto p .entered).counted
    rw [count]
  | reading =>
    rw [at_p] at step
    cases step
    have count := counted_goto s p .user
    rw [at_p] at count
    refine inv.goto (p := p) (by rw [at_p]; simp) (by simp) ?_ rfl rfl
    change s.completed + s.counted = s.completed + 1 + (s.goto p .user).counted
    simp only [if_true, reduceCtorEq, if_false] at count
    omega
  | entered =>
    rw [at_p] at step
    cases step
    have quiet : s.readCount.Quiet := by
      intro q
      have none := (inv.loaded q).not.2 (apart at_p q)
      simpa using none
    have count := counted_goto s p .loaded
    rw [at_p] at count
    simp only [reduceCtorEq, if_false, add_zero] at count
    exact
      { alone := Counter.load_alone quiet
        loaded := fun q => by
          rcases eq_or_ne q p with rfl | ne
          · rw [Counter.load_loaded, goto_pc]
            simp
          · rw [Counter.load_loaded_ne ne, goto_pc_ne s _ ne]
            exact inv.loaded q
        value := by
          change s.readCount.value = BitVec.ofNat 32 (s.completed + (s.goto p .loaded).counted)
          rw [count]
          exact inv.value }
  | loaded =>
    rw [at_p] at step
    cases step
    obtain ⟨v, has⟩ := Option.isSome_iff_exists.1 ((inv.loaded p).2 at_p)
    have count := counted_goto s p .reading
    rw [at_p] at count
    simp only [reduceCtorEq, if_false, if_true, add_zero] at count
    exact
      { alone := (Counter.store_quiet inv.alone has).alone
        loaded := fun q => by
          rw [Counter.store_quiet inv.alone has q]
          rcases eq_or_ne q p with rfl | ne
          · rw [goto_pc]
            simp
          · rw [goto_pc_ne s _ ne, ← inv.loaded q, (inv.alone p v has).2 q ne]
        value := by
          change (s.readCount.store p).value =
            BitVec.ofNat 32 (s.completed + (s.goto p .reading).counted)
          rw [Counter.store_value inv.alone has, count, inv.value, ← Nat.add_assoc,
            BitVec.ofNat_add (s.completed + s.counted)]
          rfl }

/-- When no `read` is under way, `getreadcount` returns the number of reads made, modulo `2 ^ 32`,
provided that no two of them have updated the counter at once. -/
theorem read_count (apart : Meets step Apart boot ls) (run : exec step boot ls = some s)
    (idle : ∀ p, s.pc p ≠ .reading) :
    s.sysGetreadcount.toNat % 2 ^ 32 = s.completed % 2 ^ 32 := by
  have inv : s.Inv := run_meets_invariant Inv (fun s p t inv apart step => step_inv inv apart step)
    boot_inv apart run
  have none : s.counted = 0 := Finset.sum_eq_zero fun p _ => if_neg (idle p)
  have low : s.sysGetreadcount.setWidth 32 = s.readCount.value := by
    unfold sysGetreadcount
    ext i below
    rw [BitVec.getElem_setWidth, BitVec.getLsbD_signExtend]
    simp [below, show i < 64 by omega]
  have value := congrArg BitVec.toNat low
  rw [inv.value, none, BitVec.toNat_setWidth] at value
  simpa using value

end Reads

/-- Two processes read one after the other. -/
def inTurn (p q : P) : List P := [p, p, p, p, q, q, q, q]

/-- Both load before either stores. -/
def together (p q : P) : List P := [p, p, q, q, p, p, q, q]

theorem read_count_in_turn : ∃ s : Reads (Fin 2),
    exec Reads.step Reads.boot (inTurn 0 1) = some s ∧ s.completed = 2 ∧
    s.sysGetreadcount.toNat % 2 ^ 32 = s.completed % 2 ^ 32 := by
  have apart : Meets Reads.step Reads.Apart (Reads.boot : Reads (Fin 2)) (inTurn 0 1) := by
    decide +kernel
  exact exists_exec (fun s => s.completed = 2 ∧ ∀ p, s.pc p ≠ .reading) (by decide +kernel)
    fun s run ⟨two, idle⟩ => ⟨two, Reads.read_count apart run idle⟩

/-- Two calls have returned and the count is one. -/
theorem read_count_loses : ∃ s : Reads (Fin 2),
    exec Reads.step Reads.boot (together 0 1) = some s ∧ (∀ p, s.pc p = .user) ∧
    s.completed = 2 ∧ s.sysGetreadcount = 1 := by
  exact exists_exec _ (by decide +kernel) fun _ _ => id

end Xv6.Sync
