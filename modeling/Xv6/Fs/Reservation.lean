import Xv6.Lib.Ownership
import Xv6.Fs.Bio

/-!
# The space that `begin_op` reserves

`begin_op` lets a call in when the blocks in the log and `MAXOPBLOCKS` for every call fit into
`LOGSIZE` blocks.  `mkfs` gives the log `LOGSIZE` blocks, of which the first is the header, and
`log_write` panics once all but two of them are taken, also for a block that is in the log
already.  So three calls that log `MAXOPBLOCKS` blocks each are let in and one of them panics;
calls that log fewer blocks always find room.
-/

namespace Xv6.Fs

open Function Finset Transitions

variable {T : Type}

/-- `sb.nlog`, as `mkfs` writes it. -/
def nlog : Int := logsize

/-- The log, the calls between `begin_op` and `end_op`, and the blocks each has logged. -/
structure Ops (T : Type) where
  log : Log T
  active : Finset T
  blocks : T → Finset Nat

inductive LogCall (T : Type)
  | beginOp (t : T)
  | logWrite (t : T) (b : Nat)
  | endOp (t : T)
  /-- The end of `commit`, and `log.committing = 0`. -/
  | committed (t : T)

namespace Ops

variable [DecidableEq T]

def step (size : Int) (s : Ops T) : LogCall T → Option (Ops T)
  | .beginOp t =>
    if t ∈ s.active then none
    else s.log.beginOp.map fun log =>
      ⟨log, insert t s.active, Function.update s.blocks t ∅⟩
  | .logWrite t b =>
    if t ∈ s.active then
      (s.log.write size b).map fun (log, _) =>
        { s with log := log, blocks := Function.update s.blocks t (insert b (s.blocks t)) }
    else none
  | .endOp t =>
    if t ∈ s.active then
      (s.log.endOp t).map fun (log, _) => { s with log := log, active := s.active.erase t }
    else none
  | .committed t =>
    if s.log.committing = some t then
      some { s with log := { s.log with lh := [], committing := none } }
    else none

end Ops

def Ops.boot (T : Type) : Ops T := ⟨⟨[], 0, none⟩, ∅, fun _ => ∅⟩

namespace Ops

variable {s s' : Ops T} {t : T} {b limit : Nat} {call : LogCall T}

/-- No call logs more than a number of distinct blocks. -/
def Within (limit : Nat) (s : Ops T) : LogCall T → Prop
  | .logWrite t b => (insert b (s.blocks t)).card ≤ limit
  | _ => True

instance (limit : Nat) (s : Ops T) : (call : LogCall T) → Decidable (s.Within limit call)
  | .logWrite t b => inferInstanceAs (Decidable ((insert b (s.blocks t)).card ≤ limit))
  | .beginOp _ | .endOp _ | .committed _ => isTrue trivial

/-- What a call may still log, when it keeps below what `begin_op` reserves for it. -/
def left (s : Ops T) (t : T) : Nat := maxopblocks - 1 - (s.blocks t).card

/-- The blocks in the log and those that may still come have room. -/
structure Reserved (s : Ops T) : Prop where
  outstanding : s.log.outstanding = s.active.card
  within : ∀ t ∈ s.active, (s.blocks t).card ≤ maxopblocks - 1
  logged : ∀ t ∈ s.active, ∀ b ∈ s.blocks t, b ∈ s.log.lh
  closed : s.log.committing ≠ none → s.active = ∅
  clean : s.active = ∅ → s.log.committing = none → s.log.lh = []
  room : s.log.lh.length + ∑ t ∈ s.active, s.left t ≤ logsize - 2

namespace Reserved

theorem boot : (Ops.boot T).Reserved :=
  ⟨rfl, by simp [Ops.boot], by simp [Ops.boot], fun _ => rfl, fun _ _ => rfl, by simp [Ops.boot]⟩

variable [DecidableEq T] (reserved : s.Reserved)
include reserved

/-- A call is let in.  The first call of a transaction finds the log empty; with a call before
it, the blocks that `begin_op` reserves for the two of them and that they do not use are the
two that `log_write` never gives out. -/
theorem beginOp (taken : s.step nlog (.beginOp t) = some s') : s'.Reserved := by
  simp only [step] at taken
  split_ifs at taken with inside
  obtain ⟨log, begins, rfl⟩ := Option.map_eq_some_iff.1 taken
  simp only [Log.beginOp] at begins
  split_ifs at begins with busy full
  cases begins
  have none : s.log.committing = none := by simpa using busy
  have card := card_insert_of_notMem inside
  have mem (u : T) (ne : u ≠ t) (there : u ∈ insert t s.active) : u ∈ s.active :=
    (mem_insert.1 there).resolve_left ne
  constructor
  case outstanding =>
    change s.log.outstanding + 1 = ((insert t s.active).card : Int)
    rw [card, reserved.outstanding]
    rfl
  case within =>
    intro u there
    by_cases same : u = t
    · simp [same]
    · simp only [update_of_ne same]
      exact reserved.within u (mem u same there)
  case logged =>
    intro u there b logged
    by_cases same : u = t
    · simp [same] at logged
    · simp only [update_of_ne same] at logged
      exact reserved.logged u (mem u same there) b logged
  case closed => exact fun some => absurd none some
  case clean => exact fun empty => absurd empty (insert_ne_empty t s.active)
  case room =>
    refine (Nat.add_le_add_left (sum_le_card_nsmul _ _ (maxopblocks - 1)
      fun u _ => Nat.sub_le _ _) _).trans ?_
    rw [card, smul_eq_mul]
    rw [reserved.outstanding] at full
    rcases eq_empty_or_nonempty s.active with empty | some
    · rw [reserved.clean empty none, empty]
      simp [maxopblocks, logsize]
    · have := some.card_pos
      simp only [maxopblocks, logsize] at full ⊢
      omega

omit [DecidableEq T] in
/-- `log_write` has room. -/
theorem not_full : s.log.full nlog = false := by
  have room := reserved.room
  refine decide_eq_false fun full => ?_
  simp only [nlog, logsize, maxopblocks] at room full
  omega

theorem logWrite (within : s.Within (maxopblocks - 1) (.logWrite t b))
    (taken : s.step nlog (.logWrite t b) = some s') : s'.Reserved := by
  simp only [step] at taken
  split_ifs at taken with inside
  obtain ⟨⟨log, new⟩, logs, rfl⟩ := Option.map_eq_some_iff.1 taken
  have sub : log.outstanding = s.log.outstanding ∧ log.committing = s.log.committing ∧
      b ∈ log.lh ∧ (∀ c ∈ s.log.lh, c ∈ log.lh) ∧
      (log.lh = s.log.lh ∨ b ∉ s.log.lh ∧ log.lh = s.log.lh ++ [b]) := by
    simp only [Log.write] at logs
    split_ifs at logs with full closed old <;> cases logs
    · exact ⟨rfl, rfl, old, fun _ => id, .inl rfl⟩
    · exact ⟨rfl, rfl, by simp, fun c there => by simp [there], .inr ⟨old, rfl⟩⟩
  obtain ⟨outstanding, committing, here, kept, grows⟩ := sub
  constructor
  case outstanding => exact outstanding.trans reserved.outstanding
  case within =>
    intro u there
    by_cases same : u = t
    · subst same
      simp only [update_self]
      exact within
    · simp only [update_of_ne same]
      exact reserved.within u there
  case logged =>
    intro u there c logged
    by_cases same : u = t
    · subst same
      simp only [update_self, mem_insert] at logged
      rcases logged with rfl | before
      · exact here
      · exact kept c (reserved.logged u there c before)
    · simp only [update_of_ne same] at logged
      exact kept c (reserved.logged u there c logged)
  case closed => exact fun some => reserved.closed (committing ▸ some)
  case clean =>
    intro empty
    change s.active = ∅ at empty
    rw [empty] at inside
    cases inside
  case room =>
    have before := reserved.room
    have change := Ownership.sum_change (f := s.left)
      (g := Ops.left { s with log := log, blocks := update s.blocks t (insert b (s.blocks t)) })
      inside fun u _ other => by simp only [left, update_of_ne other]
    simp only [left, update_self] at change before ⊢
    by_cases old : b ∈ s.blocks t
    · have same := grows.resolve_right fun both => both.1 (reserved.logged t inside b old)
      rw [insert_eq_of_mem old] at change ⊢
      rw [same]
      omega
    · change (insert b (s.blocks t)).card ≤ maxopblocks - 1 at within
      rw [card_insert_of_notMem old] at change within
      have length : log.lh.length ≤ s.log.lh.length + 1 := by
        rcases grows with same | ⟨-, more⟩
        · rw [same]
          exact Nat.le_succ _
        · rw [more, List.length_append, List.length_singleton]
      omega

theorem endOp (taken : s.step nlog (.endOp t) = some s') : s'.Reserved := by
  simp only [step] at taken
  split_ifs at taken with inside
  obtain ⟨⟨log, last⟩, ends, rfl⟩ := Option.map_eq_some_iff.1 taken
  have card := card_erase_of_mem inside
  have positive := card_pos.2 ⟨t, inside⟩
  have count := reserved.outstanding
  have same : log.lh = s.log.lh ∧ log.outstanding = s.log.outstanding - 1 ∧
      (log.committing ≠ none ↔ s.log.outstanding - 1 = 0) := by
    simp only [Log.endOp] at ends
    split_ifs at ends with busy zero <;> cases ends
    · exact ⟨rfl, rfl, by simp [zero]⟩
    · refine ⟨rfl, rfl, fun some => absurd ?_ some, fun eq => absurd eq zero⟩
      simpa using busy
  obtain ⟨lh, outstanding, commits⟩ := same
  constructor
  case outstanding =>
    change log.outstanding = ((s.active.erase t).card : Int)
    omega
  case within => exact fun u there => reserved.within u (mem_of_mem_erase there)
  case logged =>
    intro u there b logged
    change b ∈ log.lh
    rw [lh]
    exact reserved.logged u (mem_of_mem_erase there) b logged
  case closed =>
    intro some
    have zero := commits.1 some
    change s.active.erase t = ∅
    exact card_eq_zero.1 (by omega)
  case clean =>
    intro empty none
    have zero : (s.active.erase t).card = 0 := card_eq_zero.2 empty
    exact absurd none (commits.2 (by omega))
  case room =>
    have fewer : ∑ u ∈ s.active.erase t, s.left u ≤ ∑ u ∈ s.active, s.left u :=
      sum_le_sum_of_subset (erase_subset t s.active)
    have room := reserved.room
    change log.lh.length + ∑ u ∈ s.active.erase t, s.left u ≤ _
    rw [lh]
    omega

theorem committed (taken : s.step nlog (.committed t) = some s') : s'.Reserved := by
  simp only [step] at taken
  split_ifs at taken with committing
  cases taken
  have empty := reserved.closed (by simp [committing])
  have none (u : T) (there : u ∈ s.active) : False := by
    rw [empty] at there
    cases there
  refine ⟨reserved.outstanding, reserved.within, fun u there => (none u there).elim,
    fun some => absurd rfl some, fun _ _ => rfl, ?_⟩
  have room := reserved.room
  simp only [List.length_nil]
  change 0 + ∑ u ∈ s.active, s.left u ≤ _
  omega

theorem step (within : s.Within (maxopblocks - 1) call)
    (taken : s.step nlog call = some s') : s'.Reserved := by
  cases call with
  | beginOp t => exact reserved.beginOp taken
  | logWrite t b => exact reserved.logWrite within taken
  | endOp t => exact reserved.endOp taken
  | committed t => exact reserved.committed taken

end Reserved

end Ops

/-- In every run in which each call logs at most `MAXOPBLOCKS - 1` distinct blocks, `log_write`
has room for the next block of every call, and every block in the log has a slot in the blocks
that follow the header. -/
theorem log_has_room [DecidableEq T] {run : List (LogCall T)} {s : Ops T}
    (runs : exec (Ops.step nlog) (Ops.boot T) run = some s)
    (within : Transitions.Meets (Ops.step nlog) (Ops.Within (maxopblocks - 1)) (Ops.boot T) run) :
    (∀ t ∈ s.active, ∀ b, s.Within (maxopblocks - 1) (.logWrite t b) →
      s.log.full nlog = false) ∧
    ∀ slot < s.log.lh.length, (slot + 1 : Int) < nlog := by
  have reserved : s.Reserved := run_meets_invariant Ops.Reserved
    (fun _ _ _ reserved cond taken => reserved.step cond taken) .boot within runs
  refine ⟨fun t _ b _ => reserved.not_full, fun slot bound => ?_⟩
  have room := reserved.room
  simp only [nlog, logsize, maxopblocks] at room ⊢
  omega

/-- Three calls begin; two of them log `n` blocks each, and the third logs `m`. -/
def threeRun (t u v : T) (n m : Nat) : List (LogCall T) :=
  [.beginOp t, .beginOp u, .beginOp v] ++ (List.range' 0 n).map (.logWrite t) ++
    (List.range' n n).map (.logWrite u) ++ (List.range' (2 * n) m).map (.logWrite v)

theorem log_has_room_three : ∃ s : Ops (Fin 3),
    exec (Ops.step nlog) (Ops.boot (Fin 3)) (threeRun 0 1 2 9 9) = some s ∧
    s.log.lh.length = 27 ∧ s.log.full nlog = false := by
  have within : Transitions.Meets (Ops.step nlog) (Ops.Within (maxopblocks - 1))
      (Ops.boot (Fin 3)) (threeRun 0 1 2 9 9) := by
    decide +kernel
  exact exists_exec (fun s => s.log.lh.length = 27 ∧ 0 ∈ s.active ∧
    s.Within (maxopblocks - 1) (.logWrite 0 0)) (by decide +kernel)
      fun s run ⟨length, active, more⟩ => ⟨length, (log_has_room run within).1 0 active 0 more⟩

/-- Three calls that log at most `MAXOPBLOCKS` blocks each are let in, and the last block of the
last finds the log full. -/
theorem log_overflows : ∃ s : Ops (Fin 3),
    exec (Ops.step nlog) (Ops.boot (Fin 3)) (threeRun 0 1 2 10 9) = some s ∧
    Transitions.Meets (Ops.step nlog) (Ops.Within maxopblocks) (Ops.boot (Fin 3))
      (threeRun 0 1 2 10 9) ∧
    2 ∈ s.active ∧ s.Within maxopblocks (.logWrite 2 29) ∧ s.log.full nlog = true := by
  have within : Transitions.Meets (Ops.step nlog) (Ops.Within maxopblocks) (Ops.boot (Fin 3))
      (threeRun 0 1 2 10 9) := by
    decide +kernel
  exact exists_exec (fun s => 2 ∈ s.active ∧ s.Within maxopblocks (.logWrite 2 29) ∧
    s.log.full nlog = true) (by decide +kernel) fun s _ => And.intro within

end Xv6.Fs
