import Xv6.Sched.Rbi

/-!
# Setting a priority

`sys_setpriority` looks for the first slot with a pid, whether the slot is in use or not, assigns
the priority and sets `RBI` to 25; but then `update_dp` computes `RBI` anew from the times of the
process, so that the 25 is lost, and the dynamic priority follows the recomputed index.  When no
slot has the pid the call returns the initial value of `old_priority`.

The contract one expects fails on every table in which free slots do not have the pid of a
process, as those of a running kernel.
-/

namespace Xv6.Sched

open Function UInt32

/-- A process table. -/
abbrev Table := Fin nproc → Proc

/-- The loop of `sys_setpriority`: the first slot with a pid. -/
def findPid (table : Table) (pid : Int) : Option (Fin nproc) :=
  (List.finRange nproc).find? fun p => (table p).pid = pid

/-- `sys_setpriority`: the result, whether the caller yields before it returns, and the table. -/
def sysSetpriority (table : Table) (pid newPriority : Int) : Int × Bool × Table :=
  if newPriority < 0 ∨ newPriority > 100 then (-1, false, table)
  else
    match findPid table pid with
    | some p =>
      let old := (table p).SP.toInt32.toInt
      (old, old ≠ -1 ∧ newPriority < old,
        Function.update table p ((table p).prioritized (UInt32.ofNat newPriority.toNat)))
    | none => (999999999, newPriority < 999999999, table)

/-- A process with a new static priority and the default index. -/
def Proc.reset (p : Proc) (newPriority : Int) : Proc :=
  { p with SP := UInt32.ofNat newPriority.toNat, RBI := 25,
           DP := UInt32.ofNat (min (newPriority.toNat + 25) 100) }

/-- What is expected of a call: it returns the old priority and resets the process with the
pid, or returns -1 when there is none. -/
def Contract (table : Table) (pid newPriority : Int) : Prop :=
  let result := sysSetpriority table pid newPriority
  (∀ p, (table p).state ≠ .unused → (table p).pid = pid →
    result.1 = (table p).SP.toInt32.toInt ∧
      result.2.2 = Function.update table p ((table p).reset newPriority)) ∧
  ((∀ p, (table p).state ≠ .unused → (table p).pid ≠ pid) →
    result.1 = -1 ∧ result.2.2 = table)

/-- The first slot with the pid is free and the call leaves it as it is, while a process with
this pid exists and every such process has the values already. -/
def Coincides (table : Table) (pid newPriority : Int) : Prop :=
  ∃ q, findPid table pid = some q ∧ (table q).state = .unused ∧
    (table q).prioritized (UInt32.ofNat newPriority.toNat) = table q ∧
    (∃ p, (table p).state ≠ .unused ∧ (table p).pid = pid) ∧
    ∀ p, (table p).state ≠ .unused → (table p).pid = pid →
      (table p).reset newPriority = table p ∧ (table q).SP.toInt32 = (table p).SP.toInt32

variable {table : Table} {pid newPriority : Int} {p q : Fin nproc}

theorem findPid_pid (found : findPid table pid = some q) : (table q).pid = pid := by
  have test := List.find?_some found
  exact of_decide_eq_true test

theorem findPid_none (none : findPid table pid = none) (p : Fin nproc) : (table p).pid ≠ pid := by
  have all := List.find?_eq_none.1 none p (List.mem_finRange p)
  simpa using all

/-- `calculate_rbi` is even, so that it never gives the default index. -/
theorem calculateRbi_ne (p : Proc) : p.calculateRbi.toUInt32 ≠ 25 := by
  have even (x : Int32) : (x * 50).toUInt32.toNat % 2 = 0 := by
    have word : (x * 50).toUInt32.toNat = x.toUInt32.toNat * 50 % 2 ^ 32 :=
      BitVec.toNat_mul x.toBitVec 50
    omega
  intro equal
  have odd : p.calculateRbi.toUInt32.toNat = 25 := by
    rw [equal]
    rfl
  unfold Proc.calculateRbi at odd
  simp only at odd
  split_ifs at odd with positive
  · have := even ((3 * p.RTime - p.STime - p.WTime).toInt32 /
      (p.RTime + p.WTime + p.STime + 1).toInt32)
    omega
  · exact absurd odd (by decide)

theorem prioritized_RBI (p : Proc) (priority : UInt32) : (p.prioritized priority).RBI ≠ 25 :=
  calculateRbi_ne { p with SP := priority, RBI := 25 }

section

variable (low : 0 ≤ newPriority) (high : newPriority ≤ 100)
include low high

/-- A call with a priority in range that finds a slot. -/
theorem sysSetpriority_some (found : findPid table pid = some q) :
    (sysSetpriority table pid newPriority).1 = (table q).SP.toInt32.toInt ∧
      (sysSetpriority table pid newPriority).2.2 =
        update table q ((table q).prioritized (ofNat newPriority.toNat)) := by
  unfold sysSetpriority
  rw [if_neg (by omega), found]
  exact ⟨rfl, rfl⟩

theorem sysSetpriority_none (none : findPid table pid = none) :
    (sysSetpriority table pid newPriority).1 = 999999999 := by
  unfold sysSetpriority
  rw [if_neg (by omega), none]

/-- A found slot gets the new priority. -/
theorem prioritized_SP (p : Proc) :
    (p.prioritized (ofNat newPriority.toNat)).SP.toInt32.toInt = newPriority := by
  have word : (ofNat newPriority.toNat).toNat = newPriority.toNat := by
    rw [toNat_ofNat']
    omega
  change (ofNat newPriority.toNat).toInt32.toInt = _
  rw [toInt_toInt32 (by omega), word]
  omega

end

/-- For a priority in range, `setpriority` meets its contract only where the process has the values
already and a free slot before it has the pid. -/
theorem setpriority_contract_iff (low : 0 ≤ newPriority) (high : newPriority ≤ 100) :
    Contract table pid newPriority ↔ Coincides table pid newPriority := by
  cases found : findPid table pid with
  | none =>
    -- the call returns 999999999
    refine iff_of_false (fun contract => ?_) fun coincides => ?_
    · have minus := (contract.2 fun p _ => findPid_none found p).1
      rw [sysSetpriority_none low high found] at minus
      omega
    · obtain ⟨q, some, -⟩ := coincides
      rw [found] at some
      cases some
  | some q =>
    obtain ⟨ret, changed⟩ := sysSetpriority_some low high found
    have pid_q := findPid_pid found
    have at_q : (sysSetpriority table pid newPriority).2.2 q =
        (table q).prioritized (ofNat newPriority.toNat) := by
      rw [changed, update_self]
    constructor
    · intro contract
      have free : (table q).state = .unused := by
        by_contra used
        have reset := (contract.1 q used pid_q).2
        have index : ((table q).prioritized (ofNat newPriority.toNat)).RBI = 25 := by
          rw [← at_q, reset, update_self]
          rfl
        exact prioritized_RBI _ _ index
      have exists_used : ∃ p, (table p).state ≠ .unused ∧ (table p).pid = pid := by
        by_contra no
        obtain ⟨minus, same⟩ := contract.2 fun p used eq => no ⟨p, used, eq⟩
        rw [same] at at_q
        have assigned := prioritized_SP low high (table q)
        rw [← at_q, ← ret, minus] at assigned
        omega
      have each (p : Fin nproc) (used : (table p).state ≠ .unused) (eq : (table p).pid = pid) :
          (table q).prioritized (ofNat newPriority.toNat) = table q ∧
            (table p).reset newPriority = table p := by
        have other : p ≠ q := by
          intro same
          rw [same] at used
          exact used free
        have reset := (contract.1 p used eq).2
        rw [changed] at reset
        have here := congrFun reset q
        have there := congrFun reset p
        rw [update_self, update_of_ne other.symm] at here
        rw [update_self, update_of_ne other] at there
        exact ⟨here, there.symm⟩
      obtain ⟨p, used, eq⟩ := exists_used
      refine ⟨q, found, free, (each p used eq).1, ⟨p, used, eq⟩, fun r used eq => ?_⟩
      refine ⟨(each r used eq).2, Int32.toInt_inj.1 ?_⟩
      rw [← ret]
      exact (contract.1 r used eq).1
    · intro coincides
      obtain ⟨q', same, free, kept, ⟨p, used, eq⟩, all⟩ := coincides
      rw [found] at same
      cases same
      have unchanged : (sysSetpriority table pid newPriority).2.2 = table := by
        rw [changed, kept, update_eq_self]
      refine ⟨fun r used eq => ?_, fun no => absurd eq (no p used)⟩
      obtain ⟨reset, priority⟩ := all r used eq
      rw [unchanged, reset, update_eq_self, ret, priority]
      exact ⟨rfl, rfl⟩

/-- The table after the boot: one process, with pid 1. -/
def bootTable : Table := (boot Unit .pbs).proc

/-- Setting the priority of the first process to 40: `RBI` is 0 and the dynamic priority 40, not
25 and 65.  A pid that does not exist gives 999999999, and pid 0 changes a free slot. -/
theorem setpriority_loses_reset :
    ((sysSetpriority bootTable 1 40).2.2 initproc).RBI = 0 ∧
    ((sysSetpriority bootTable 1 40).2.2 initproc).DP = 40 ∧
    (sysSetpriority bootTable 7 40).1 = 999999999 ∧
    (sysSetpriority bootTable 0 40).2.2 ≠ bootTable ∧ ¬Contract bootTable 1 40 := by
  have changed : ((sysSetpriority bootTable 0 40).2.2 1).SP ≠ (bootTable 1).SP := by decide +kernel
  have index : ((sysSetpriority bootTable 1 40).2.2 initproc).RBI = 0 := by decide +kernel
  refine ⟨index, by decide +kernel, by decide +kernel, fun same => ?_, fun contract => ?_⟩
  · rw [same] at changed
    exact changed rfl
  · have reset := (contract.1 initproc (by decide +kernel) (by decide +kernel)).2
    rw [reset, update_self] at index
    exact absurd index (by decide +kernel)

/-- In the table after the boot no free slot has pid 1, and the contract fails. -/
theorem setpriority_contract_boot : ¬Contract bootTable 1 40 := by
  intro contract
  obtain ⟨q, found, free, -⟩ := (setpriority_contract_iff (by decide) (by decide)).1 contract
  have first : findPid bootTable 1 = some initproc := by decide +kernel
  rw [first] at found
  cases found
  exact absurd free (by decide +kernel)

end Xv6.Sched
