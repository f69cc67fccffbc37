import Xv6.Sched.System

/-!
# The choice of the PBS scheduler

One pass of the scan over a process table that nobody else changes.  After every slot the scan
holds the least `RUNNABLE` process of the slots before it, in the order of static priority,
number of times scheduled, creation time and slot; when it has passed the last slot, that is the
least of the whole table.
-/

namespace Xv6.Sched

open State

variable {C : Type} {s t : State C} {c : C} {p q : Fin nproc} {i : Nat} {lowest : UInt32}
  {selected : Option (Fin nproc)}

/-- What the scheduler compares, and the slot. -/
def State.rank (s : State C) (p : Fin nproc) : ℕ ×ₗ ℕ ×ₗ ℕ ×ₗ ℕ :=
  toLex ((s.proc p).SP.toNat,
    toLex ((s.proc p).numScheduled.toNat, toLex ((s.proc p).ctime.toNat, p.val)))

theorem rank_le_iff : s.rank p ≤ s.rank q ↔
    (s.proc p).SP < (s.proc q).SP ∨ (s.proc p).SP = (s.proc q).SP ∧
      ((s.proc p).numScheduled < (s.proc q).numScheduled ∨
        (s.proc p).numScheduled = (s.proc q).numScheduled ∧
          ((s.proc p).ctime < (s.proc q).ctime ∨
            (s.proc p).ctime = (s.proc q).ctime ∧ p ≤ q)) := by
  simp only [rank, Prod.Lex.toLex_le_toLex, UInt32.lt_iff_toNat_lt, ← UInt32.toNat_inj, Fin.le_def]

/-- `selectHigherPriorityProcess` replaces by what comes first. -/
theorem replaces_iff (same : (s.proc p).SP = (s.proc q).SP) (later : q < p) :
    replaces (s.proc p) (s.proc q) = true ↔ s.rank p ≤ s.rank q := by
  have after : ¬p ≤ q := not_le.2 later
  rw [rank_le_iff, replaces]
  split_ifs with equal
  · simp [same, equal, after]
  · simp [same, Ne.symm equal]

/-- The scan before slot `i`: no process is `RUNNABLE` so far, or the least of them is
selected. -/
inductive Scanned (s : State C) (i : Nat) : UInt32 → Option (Fin nproc) → Prop
  | idle (empty : ∀ q : Fin nproc, q.val < i → (s.proc q).state ≠ .runnable) :
      Scanned s i 9999999 none
  | holds {p : Fin nproc} (before : p.val < i) (runnable : (s.proc p).state = .runnable)
      (least : ∀ q : Fin nproc, q.val < i → (s.proc q).state = .runnable → s.rank p ≤ s.rank q) :
      Scanned s i (s.proc p).SP (some p)

/-- A slot that is not `RUNNABLE` is passed over. -/
theorem Scanned.skip (scanned : Scanned s p.val lowest selected)
    (skip : (s.proc p).state ≠ .runnable) : Scanned s (p.val + 1) lowest selected := by
  have earlier (q : Fin nproc) (below : q.val < p.val + 1)
      (runnable : (s.proc q).state = .runnable) :
      q.val < p.val := by
    rcases Nat.lt_succ_iff_lt_or_eq.1 below with less | equal
    · exact less
    · rw [Fin.ext equal] at runnable
      exact absurd runnable skip
  cases scanned with
  | idle empty =>
    refine .idle fun q below runnable => ?_
    exact empty q (earlier q below runnable) runnable
  | holds before runnable least =>
    refine .holds (by omega) runnable fun q below runnable => ?_
    exact least q (earlier q below runnable) runnable

/-- At a `RUNNABLE` slot the scan keeps what it holds or takes the slot, whichever is less. -/
theorem Scanned.compare (scanned : Scanned s p.val lowest selected)
    (runnable : (s.proc p).state = .runnable) (free : ∀ q, s.lock q = none)
    (prio : (s.proc p).SP.toNat ≤ 100) :
    ∃ next, s.compare p lowest selected = some next ∧ Scanned s (p.val + 1) next.1 next.2 := by
  cases scanned with
  | idle empty =>
    -- nothing is selected, and every priority is below the initial one
    have ne : (s.proc p).SP ≠ 9999999 := by
      intro equal
      rw [equal] at prio
      exact absurd prio (by decide)
    have less : (9999999 : UInt32) > (s.proc p).SP := by
      rw [gt_iff_lt, UInt32.lt_iff_toNat_lt]
      have word : (9999999 : UInt32).toNat = 9999999 := rfl
      omega
    have step : s.compare p 9999999 none = some ((s.proc p).SP, some p) := by
      unfold State.compare
      rw [if_neg ne, if_pos less]
    refine ⟨_, step, .holds (Nat.lt_succ_self _) runnable ?_⟩
    intro q below other
    rcases Nat.lt_succ_iff_lt_or_eq.1 below with earlier | equal
    · exact absurd other (empty q earlier)
    · rw [Fin.ext equal]
  | @holds r before chosen least =>
    have later : r < p := before
    -- either of the two is below the slots before when it is below the other
    have keeps (le : s.rank r ≤ s.rank p) : Scanned s (p.val + 1) (s.proc r).SP (some r) := by
      refine .holds (by omega) chosen fun q below other => ?_
      rcases Nat.lt_succ_iff_lt_or_eq.1 below with earlier | equal
      · exact least q earlier other
      · rw [Fin.ext equal]
        exact le
    have takes (le : s.rank p ≤ s.rank r) : Scanned s (p.val + 1) (s.proc p).SP (some p) := by
      refine .holds (Nat.lt_succ_self _) runnable fun q below other => ?_
      rcases Nat.lt_succ_iff_lt_or_eq.1 below with earlier | equal
      · exact le.trans (least q earlier other)
      · rw [Fin.ext equal]
    by_cases same : (s.proc p).SP = (s.proc r).SP
    · have step : s.compare p (s.proc r).SP (some r) =
          some ((s.proc r).SP, if replaces (s.proc p) (s.proc r) then some p else some r) := by
        unfold State.compare
        rw [if_pos same]
        simp only [if_neg later.ne, if_pos (free r)]
      refine ⟨_, step, ?_⟩
      cases choice : replaces (s.proc p) (s.proc r) with
      | true =>
        have le := (replaces_iff same later).1 choice
        simpa [same] using takes le
      | false =>
        have not_le : ¬s.rank p ≤ s.rank r := by
          intro le
          rw [(replaces_iff same later).2 le] at choice
          cases choice
        simpa using keeps (le_of_not_ge not_le)
    · by_cases less : (s.proc r).SP > (s.proc p).SP
      · have step : s.compare p (s.proc r).SP (some r) = some ((s.proc p).SP, some p) := by
          unfold State.compare
          rw [if_neg same, if_pos less]
        refine ⟨_, step, takes ?_⟩
        rw [rank_le_iff]
        exact .inl less
      · have step : s.compare p (s.proc r).SP (some r) = some ((s.proc r).SP, some r) := by
          unfold State.compare
          rw [if_neg same, if_neg less]
        refine ⟨_, step, keeps ?_⟩
        rw [rank_le_iff]
        rw [gt_iff_lt, UInt32.lt_iff_toNat_lt] at less
        rw [← UInt32.toNat_inj] at same
        exact .inl (UInt32.lt_iff_toNat_lt.2 (by omega))

theorem compare_congr (proc : t.proc = s.proc) (lock : t.lock = s.lock) :
    t.compare p lowest selected = s.compare p lowest selected := by
  simp only [State.compare, proc, lock]

section scan

variable [DecidableEq C]

/-- The steps of one CPU's scheduler, with nothing in between. -/
def State.scheduled (s : State C) (c : C) : Nat → Option (State C)
  | 0 => some s
  | n + 1 => (s.scheduled c n).bind fun t => t.scheduler .pbs c

/-- The scan up to slot `i`. -/
theorem scan_slots (start : (s.cpu c).pc = CpuPc.restart) (free : ∀ p, s.lock p = none)
    (prio : ∀ p, (s.proc p).SP.toNat ≤ 100) (bound : i ≤ nproc) :
    ∃ t lowest selected, s.scheduled c i = some t ∧ t.proc = s.proc ∧ t.lock = s.lock ∧
      (t.cpu c).pc = .select i lowest selected ∧ Scanned s i lowest selected := by
  induction i with
  | zero => exact ⟨s, _, _, rfl, rfl, rfl, start, .idle fun q below => absurd below (by omega)⟩
  | succ i ih =>
    obtain ⟨t, lowest, selected, run, proc, lock, pc, scanned⟩ := ih (by omega)
    have at_slot : slot i = some ⟨i, bound⟩ := dif_pos bound
    have unlocked : t.lock ⟨i, bound⟩ = none := by
      rw [lock]
      exact free _
    have step : s.scheduled c (i + 1) = t.scheduler .pbs c := by
      rw [scheduled, run]
      rfl
    rw [step, scheduler, pc]
    simp only [at_slot, unlocked, if_true, proc]
    by_cases runnable : (s.proc ⟨i, bound⟩).state = .runnable
    · obtain ⟨next, compared, scanned'⟩ :=
        Scanned.compare (p := ⟨i, bound⟩) scanned runnable free (prio _)
      rw [if_pos runnable, compare_congr proc lock, compared]
      refine ⟨_, next.1, next.2, rfl, ?_, ?_, ?_, scanned'⟩
      · exact proc
      · exact lock
      · simp [record, setCpu]
    · rw [if_neg runnable]
      refine ⟨_, lowest, selected, rfl, proc, lock, ?_, ?_⟩
      · simp [setCpu]
      · exact Scanned.skip (p := ⟨i, bound⟩) scanned runnable

/-- One pass over the process table selects the RUNNABLE process that comes first by priority,
number of times scheduled, creation time and slot, and none exactly if there is none. -/
theorem pbs_selects_least (start : (s.cpu c).pc = CpuPc.restart) (free : ∀ p, s.lock p = none)
    (prio : ∀ p, (s.proc p).SP.toNat ≤ 100) :
    ∃ t lowest selected, s.scheduled c nproc = some t ∧ t.proc = s.proc ∧
      (t.cpu c).pc = .select nproc lowest selected ∧
      (selected = none ↔ ∀ p, (s.proc p).state ≠ .runnable) ∧
      ∀ p, selected = some p → (s.proc p).state = .runnable ∧
        ∀ q, (s.proc q).state = .runnable → s.rank p ≤ s.rank q := by
  obtain ⟨t, lowest, selected, run, proc, -, pc, scanned⟩ := scan_slots start free prio le_rfl
  refine ⟨t, lowest, selected, run, proc, pc, ?_⟩
  cases scanned with
  | idle empty =>
    refine ⟨iff_of_true rfl fun p => empty p p.isLt, fun p no => ?_⟩
    cases no
  | @holds r before runnable least =>
    refine ⟨iff_of_false (by simp) fun none => none r runnable, fun p eq => ?_⟩
    cases eq
    exact ⟨runnable, fun q => least q q.isLt⟩

end scan

/-- Three processes to choose from, two of them with the same priority, and one that sleeps. -/
def threeReady : State (Fin 1) :=
  { boot (Fin 1) .pbs with
    proc := fun p =>
      if p = 0 then { Proc.empty with state := .runnable, SP := 60 }
      else if p = 1 then { Proc.empty with state := .runnable, SP := 40, numScheduled := 3 }
      else if p = 2 then { Proc.empty with state := .runnable, SP := 40, numScheduled := 1 }
      else if p = 3 then { Proc.empty with state := .sleeping, SP := 10 }
      else Proc.empty }

/-- Of the two with the same priority the one that has run less often is selected. -/
theorem pbs_selects_tied : ∃ t lowest, threeReady.scheduled 0 nproc = some t ∧
    (t.cpu 0).pc = .select nproc lowest (some 2) := by
  obtain ⟨t, lowest, selected, run, -, pc, idle, least⟩ :=
    pbs_selects_least (s := threeReady) (c := 0) rfl (fun _ => rfl) (by decide)
  have first : ∀ p, (threeReady.proc p).state = .runnable →
      threeReady.rank p ≤ threeReady.rank 2 → p = 2 := by
    simp only [rank_le_iff]
    decide
  cases selected with
  | none => exact absurd rfl (idle.1 rfl 2)
  | some p =>
    obtain ⟨runnable, le⟩ := least p rfl
    rw [first p runnable (le 2 rfl)] at pc
    exact ⟨t, lowest, run, pc⟩

end Xv6.Sched
