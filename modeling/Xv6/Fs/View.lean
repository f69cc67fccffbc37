import Xv6.Fs.Transparent
import Xv6.Fs.CrashAtomic

/-!
# The system with buffers refines the contents of the blocks

To the processes a block has the contents it was last given, wherever its buffer is; with the
disk and the header in memory this is a `Store`.  Steps inside `bread` and `brelse` do not change
it, and a command changes it as `Store.apply` says.  So any number of processes that share the
buffers make of the disk what one process makes of it without buffers, with the commands of all in
the order in which they are given.
-/

namespace Xv6.Fs.System

open Option Transitions

variable {T D : Type} {init : Nat → D} {area : Area D} {s s' : System T D} {t : T} {i : Fin nbuf}
  {b : Nat} {d : D} {owed : List Nat} {cmd : Cmd D}

/-- What the processes see. -/
def view (init : Nat → D) (s : System T D) : Store D := ⟨latest init s.events, s.disk, s.log.lh⟩

theorem latest_gave (init : Nat → D) (es : List (Event D)) (b : Nat) (d : D) :
    latest init (.gave b d :: es) = Function.update (latest init es) b d := by
  funext b'
  rw [Function.update_apply, latest]
  exact if_congr eq_comm rfl rfl

theorem view_give (home : (s.cache.buf i).blockno = b) :
    (s.give i d).view init = { s.view init with
      mem := Function.update (latest init s.events) b d } := by
  have last := latest_gave init s.events (s.cache.buf i).blockno d
  rw [home] at last
  simp only [view, give, home, last]
  rfl

variable [DecidableEq T] [Fintype T]

/-- What a process has in a buffer is what the block was last given. -/
theorem data_of_held (core : Core init owed s) (idle : (s.thread t).phase = .idle)
    (held : s.holds t b = some i) : (s.cache.buf i).data = latest init s.events b := by
  obtain ⟨lock, -, home⟩ := holds_some held
  rw [← home]
  exact core.current i (core.valid_of_held idle lock)

/-- A command changes the contents as it does without buffers. -/
theorem perform_view (core : Core init owed s) (idle : (s.thread t).phase = .idle)
    (eq : s.perform area t cmd = some s') : s'.view init = (s.view init).apply area cmd := by
  cases performs eq with
  | bread | brelse | bunpin | beginOp | endOp | commit | clear | finish => rfl
  | modify held => exact view_give (holds_some held).2.2
  | bwrite held =>
    rw [data_of_held core idle held]
    rfl
  | absorb _ _ old | pin _ _ old => simp [view, Store.apply, old, setTouched, setPins]
  | copy source held =>
    rw [data_of_held core idle source]
    exact view_give (holds_some held).2.2
  | head held =>
    rw [data_of_held core idle held]
    exact view_give (holds_some held).2.2

/-- The command that a step gives; the steps inside `bread` and `brelse` give none. -/
def given (s : System T D) : T × Cmd D → Option (Cmd D)
  | (t, chosen) => if (s.thread t).phase = .idle then s.command t chosen else none

/-- The commands of all processes in a run, those of `commit` among them, in order. -/
def commands (area : Area D) : System T D → List (T × Cmd D) → List (Cmd D)
  | _, [] => []
  | s, l :: ls => (s.given l).toList ++ (s.step area l).elim [] fun s' => commands area s' ls

theorem step_view {l : T × Cmd D} (inv : s.Inv area init) (eq : s.step area l = some s') :
    s'.view init = (s.view init).exec area (s.given l).toList := by
  obtain ⟨t, chosen⟩ := l
  simp only [step] at eq
  split at eq
  case h_1 i wait =>
    rw [given, if_neg (by simp [wait])]
    unfold acquired at eq
    split_ifs at eq <;> cases eq <;> rfl
  case h_2 i filling =>
    rw [given, if_neg (by simp [filling])]
    cases eq
    rfl
  case h_3 i leaving =>
    rw [given, if_neg (by simp [leaving])]
    cases eq
    rfl
  case h_4 idle =>
    obtain ⟨cmd, command, eq⟩ := bind_eq_some_iff.1 eq
    have popped : Core init s.owed (s.pop t) :=
      inv.core.congr rfl rfl rfl pop_phase rfl rfl rfl
    have seen : s'.view init = ((s.pop t).view init).apply area cmd :=
      perform_view popped ((pop_phase t).trans idle) eq
    rw [given, if_pos idle, command]
    exact seen

theorem run_view {run : List (T × Cmd D)} (inv : s.Inv area init)
    (disciplined : Meets (step area) Disciplined s run) (runs : exec (step area) s run = some s') :
    s'.view init = (s.view init).exec area (commands area s run) := by
  induction run generalizing s with
  | nil =>
    cases runs
    rfl
  | cons l ls ih =>
    obtain ⟨s₁, first, rest⟩ := exec_cons runs
    rw [ih (inv.step disciplined.1 first) (disciplined.2 s₁ first) rest, step_view inv first,
      ← Store.exec_append, commands, first]
    rfl

/-- In every interleaving the blocks, the disk and the header are what one process makes of them
without buffers. -/
theorem buffers_refine_store {zero : D} {run : List (T × Cmd D)}
    (runs : exec (step area) (boot T zero init) run = some s)
    (disciplined : Meets (step area) Disciplined (boot T zero init) run) :
    s.view init = Store.exec area ⟨init, init, []⟩ (commands area (boot T zero init) run) :=
  run_view (.boot zero) disciplined runs

/-- A transaction is committed while another process reads. -/
theorem buffers_refine_store_evicted : ∃ s : System Bool Nat,
    exec (step countArea) (boot Bool 0 fun _ => 0) (evictRun false true [8]) = some s ∧
    s.disk 7 = 1 ∧ s.view (fun _ => 0) = Store.exec countArea ⟨fun _ => 0, fun _ => 0, []⟩
      (commands countArea (boot Bool 0 fun _ => 0) (evictRun false true [8])) :=
  exists_exec (fun s => s.disk 7 = 1) (by decide +kernel) fun _ runs disk =>
    ⟨disk, buffers_refine_store runs (by decide +kernel)⟩

end Xv6.Fs.System
