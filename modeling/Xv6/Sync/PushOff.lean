import Xv6.Lib.Transitions

/-!
# Interrupts and nested locks

`push_off` and `pop_off`, `acquire` and `release`, and `sched`, for any number of CPUs and kernel
threads.  A CPU runs a thread or its own scheduler; interrupts are taken when they are on, and
what they interrupt waits for their end, on this CPU or another.  `push_off` has two steps: the
code may be interrupted between `intr_get` and `intr_off`.

The scheduler switches to a thread while it holds the lock of the process and no other, interrupt
handlers release what they acquire, and `intr_on` and `intr_off` are called with no lock held.

`depth` and `outer` are not in the kernel: how many more calls of `push_off` than of `pop_off` a
thread has made, and whether interrupts were on before the first of them.  A new thread starts
with the lock that the scheduler has acquired.
-/

namespace Xv6.Sync

open Transitions Option

/-- What a CPU runs: the scheduler of a CPU, or a thread. -/
abbrev Code (C T : Type) := C ⊕ T

/-- A part of `struct cpu`, and whether interrupts are on. -/
structure Hart (C T : Type) where
  noff : Nat
  intena : Bool
  intr : Bool
  runs : Code C T

/-- Where code is. -/
inductive Place (L : Type)
  | free
  /-- `push_off`: between `intr_get` and `intr_off`, when it is called by `acquire` or not. -/
  | pushes (old : Bool) (l : Option L)
  /-- `acquire`: at its loop. -/
  | spins (l : L)
deriving DecidableEq

/-- Whether a thread is on a CPU; in `sched`, its local variable `intena`. -/
inductive Life
  | new
  | on
  | out (intena : Bool)
deriving DecidableEq

structure Context (L : Type) where
  place : Place L
  /-- What the interrupt handlers in which the code is have interrupted. -/
  traps : List (Place L)
  life : Life
  depth : Nat
  outer : Option Bool

structure Nesting (C T L : Type) where
  cpu : C → Hart C T
  code : Code C T → Context L
  /-- The CPU that holds a lock. -/
  lock : L → Option C

inductive Nesting.Op (T L : Type)
  /-- `intr_get` of `push_off`, called by `acquire` or not. -/
  | get (l : Option L)
  /-- The rest of `push_off`. -/
  | off
  /-- The loop of `acquire` finds the lock free. -/
  | take
  | popOff
  | release (l : L)
  | sched
  | dispatch (t : T)
  | trap
  | sret
  | intrOn
  | intrOff

namespace Nesting

variable {C T L : Type} [DecidableEq C] [DecidableEq T] [DecidableEq L]

def setCpu (s : Nesting C T L) (c : C) (h : Hart C T) : Nesting C T L :=
  { s with cpu := Function.update s.cpu c h }

def setCode (s : Nesting C T L) (k : Code C T) (x : Context L) : Nesting C T L :=
  { s with code := Function.update s.code k x }

def setLock (s : Nesting C T L) (l : L) (holder : Option C) : Nesting C T L :=
  { s with lock := Function.update s.lock l holder }

/-- `push_off` from `intr_off` on.  `noff` is an `int`. -/
def pushOff (s : Nesting C T L) (c : C) (old : Bool) (next : Place L) : Option (Nesting C T L) :=
  let h := s.cpu c
  let x := s.code h.runs
  if h.noff + 1 < 2 ^ 31 then
    some ((s.setCpu c { h with
        intr := false, intena := if h.noff = 0 then old else h.intena, noff := h.noff + 1 }).setCode
      h.runs { x with
        place := next, depth := x.depth + 1
        outer := if x.depth = 0 then some h.intr else x.outer })
  else none

/-- `pop_off`, when it does not panic. -/
def popOff (s : Nesting C T L) (c : C) : Option (Nesting C T L) :=
  let h := s.cpu c
  let x := s.code h.runs
  if h.intr = false ∧ 1 ≤ h.noff then
    some ((s.setCpu c { h with
        noff := h.noff - 1, intr := h.noff - 1 = 0 ∧ h.intena }).setCode h.runs
      { x with depth := x.depth - 1 })
  else none

/-- `sched` up to `swtch`, when it does not panic. -/
def sched (plock : T → L) (s : Nesting C T L) (c : C) : Option (Nesting C T L) :=
  let h := s.cpu c
  match h.runs with
  | .inl _ => none
  | .inr t =>
    if s.lock (plock t) = some c ∧ h.noff = 1 ∧ h.intr = false then
      some ((s.setCpu c { h with runs := .inl c }).setCode (.inr t)
        { s.code (.inr t) with life := .out h.intena })
    else none

/-- The scheduler switches to a thread, which goes on after `swtch` or starts in `forkret`. -/
def dispatch (plock : T → L) (s : Nesting C T L) (c : C) (t : T) : Option (Nesting C T L) :=
  let h := s.cpu c
  let x := s.code (.inr t)
  let switched (intena : Bool) : Nesting C T L :=
    (s.setCpu c { h with runs := .inr t, intena := intena }).setCode (.inr t) { x with life := .on }
  if h.runs = .inl c ∧ (s.code (.inl c)).traps = [] ∧ s.lock (plock t) = some c ∧ h.noff = 1 then
    match x.life with
    | .new => some (switched h.intena)
    | .out intena => some (switched intena)
    | .on => none
  else none

/-- A step of the code that runs on a CPU. -/
def step (plock : T → L) (s : Nesting C T L) : C × Op T L → Option (Nesting C T L)
  | (c, op) =>
    let h := s.cpu c
    let x := s.code h.runs
    match x.place, op with
    | .pushes old l, .off => s.pushOff c old (l.elim .free .spins)
    | .spins l, .take =>
      if s.lock l = none then
        some ((s.setLock l (some c)).setCode h.runs { x with place := .free })
      else none
    | .free, .get l => some (s.setCode h.runs { x with place := .pushes h.intr l })
    | .free, .popOff => s.popOff c
    | .free, .release l =>
      if s.lock l = some c then (s.setLock l none).popOff c else none
    | .free, .sched => s.sched plock c
    | .free, .dispatch t => s.dispatch plock c t
    | place, .trap =>
      if h.intr then
        some ((s.setCpu c { h with intr := false }).setCode h.runs
          { x with place := .free, traps := place :: x.traps })
      else none
    | .free, .sret =>
      match x.traps with
      | [] => none
      | place :: traps =>
        if h.noff = 0 then
          some ((s.setCpu c { h with intr := true }).setCode h.runs
            { x with place := place, traps := traps })
        else none
    | .free, .intrOn => if h.noff = 0 then some (s.setCpu c { h with intr := true }) else none
    | .free, .intrOff => if h.noff = 0 then some (s.setCpu c { h with intr := false }) else none
    | _, _ => none

end Nesting

/-- Every CPU in its scheduler, every thread new. -/
def Nesting.boot (C T L : Type) : Nesting C T L where
  cpu c := ⟨0, false, false, .inl c⟩
  code := Sum.elim (fun _ => ⟨.free, [], .on, 0, none⟩) fun _ => ⟨.free, [], .new, 1, none⟩
  lock _ := none

namespace Nesting

variable {C T L : Type} {plock : T → L} {s s' : Nesting C T L} {c d : C} {t : T} {k : Code C T}

structure Inv (s : Nesting C T L) : Prop where
  off : ∀ c, 0 < (s.cpu c).noff → (s.cpu c).intr = false
  /-- A CPU runs its own scheduler, or a thread that no other CPU runs. -/
  own : ∀ c d, (s.cpu c).runs = .inl d → d = c
  unique : ∀ c d t, (s.cpu c).runs = .inr t → (s.cpu d).runs = .inr t → c = d
  on : ∀ c t, (s.cpu c).runs = .inr t → (s.code (.inr t)).life = .on
  depth : ∀ c t, (s.cpu c).runs = .inr t → (s.cpu c).noff = (s.code (.inr t)).depth
  intena : ∀ c t b, (s.cpu c).runs = .inr t → 0 < (s.cpu c).noff →
    (s.code (.inr t)).outer = some b → (s.cpu c).intena = b
  new : ∀ t, (s.code (.inr t)).life = .new →
    (s.code (.inr t)).depth = 1 ∧ (s.code (.inr t)).outer = none
  out : ∀ t b, (s.code (.inr t)).life = .out b →
    (s.code (.inr t)).depth = 1 ∧ ∀ b', (s.code (.inr t)).outer = some b' → b' = b
  /-- What `intr_get` has read is still so. -/
  old : ∀ c old l, (s.code (s.cpu c).runs).place = .pushes old l → old = (s.cpu c).intr
  traps : ∀ k old l, .pushes old l ∈ (s.code k).traps → old = true
  stopped : ∀ k, (∀ c, (s.cpu c).runs ≠ k) → (s.code k).place = .free

theorem Inv.boot : (boot C T L).Inv := by
  constructor <;> simp [Nesting.boot]

/-- No two CPUs run the same code. -/
theorem Inv.apart (inv : s.Inv) (same : (s.cpu c).runs = (s.cpu d).runs) : c = d := by
  cases runs : (s.cpu c).runs with
  | inl e => exact (inv.own c e runs).symm.trans (inv.own d e (same ▸ runs))
  | inr t => exact inv.unique c d t runs (same ▸ runs)

theorem code_setCpu [DecidableEq C] (h : Hart C T) : (s.setCpu c h).code = s.code := rfl

theorem code_setCode [DecidableEq C] [DecidableEq T] (x : Context L) :
    (s.setCode k x).code k = x := Function.update_self ..

theorem Inv.setLock [DecidableEq L] (inv : s.Inv) (l : L) (holder : Option C) :
    (s.setLock l holder).Inv :=
  { inv with }

variable [DecidableEq C] [DecidableEq T]

attribute [local grind =] Function.update_apply
attribute [local grind cases eager] Inv
attribute [local grind →] Inv.apart

/-- Code goes on, on its CPU. -/
theorem Inv.goes (inv : s.Inv) {h : Hart C T} {x : Context L} (runs : h.runs = (s.cpu c).runs)
    (life : x.life = (s.code (s.cpu c).runs).life) (off : 0 < h.noff → h.intr = false)
    (depth : ∀ t, (s.cpu c).runs = .inr t → h.noff = x.depth)
    (intena : ∀ t b, (s.cpu c).runs = .inr t → 0 < h.noff → x.outer = some b → h.intena = b)
    (old : ∀ old l, x.place = .pushes old l → old = h.intr)
    (traps : ∀ old l, .pushes old l ∈ x.traps → old = true) :
    ((s.setCpu c h).setCode (s.cpu c).runs x).Inv := by
  have apart := fun d => inv.apart (c := d) (d := c)
  constructor <;> simp only [setCode, setCpu]
  case stopped =>
    intro k away
    rw [Function.update_of_ne (by have := away c; grind)]
    exact inv.stopped k fun d => by have := away d; grind
  all_goals grind

theorem Inv.pushOff {old : Bool} {l : Option L} {next : Place L} (inv : s.Inv)
    (here : (s.code (s.cpu c).runs).place = .pushes old l) (free : ∀ old l, next ≠ .pushes old l)
    (taken : s.pushOff c old next = some s') : s'.Inv := by
  simp only [Nesting.pushOff, ite_none_right_eq_some, some.injEq] at taken
  obtain ⟨-, rfl⟩ := taken
  have read := inv.old c old l here
  refine inv.goes rfl rfl (fun _ => rfl) (fun t runs => ?_) (fun t b runs _ outer => ?_)
    (fun old l eq => absurd eq (free old l)) (inv.traps _)
  · rw [inv.depth c t runs, runs]
  · have depth := inv.depth c t runs
    have before := inv.intena c t b runs
    grind

section

variable (inv : s.Inv) (here : (s.code (s.cpu c).runs).place = .free)
include inv here

theorem Inv.popOff (taken : s.popOff c = some s') : s'.Inv := by
  simp only [Nesting.popOff, ite_none_right_eq_some, some.injEq] at taken
  obtain ⟨⟨-, nested⟩, rfl⟩ := taken
  refine inv.goes rfl rfl (fun more => ?_) (fun t runs => ?_) (fun t b runs more => ?_)
    (fun old l eq => ?_) (inv.traps _)
  · simp only at more
    simp [Nat.ne_of_gt more]
  · rw [inv.depth c t runs, runs]
  · rw [runs]
    exact inv.intena c t b runs (by omega)
  · rw [here] at eq
    cases eq

theorem Inv.sched (taken : s.sched plock c = some s') : s'.Inv := by
  simp only [Nesting.sched] at taken
  split at taken
  · cases taken
  · next t runs =>
    split_ifs at taken with holds
    cases taken
    have away : (s.code (.inl c)).place = .free := by
      refine inv.stopped _ fun d eq => ?_
      have := inv.own d c eq
      grind
    constructor <;> simp only [setCode, setCpu]
    case stopped =>
      intro k away
      by_cases mine : k = .inr t
      · rw [mine, Function.update_self, ← runs]
        exact here
      · rw [Function.update_of_ne mine]
        exact inv.stopped k fun d => by have := away d; grind
    all_goals grind

theorem Inv.dispatch (taken : s.dispatch plock c t = some s') : s'.Inv := by
  have switch (intena : Bool) (runs : (s.cpu c).runs = .inl c) (one : (s.cpu c).noff = 1)
      (away : (s.code (.inr t)).life ≠ .on) (depth : (s.code (.inr t)).depth = 1)
      (outer : ∀ b, (s.code (.inr t)).outer = some b → intena = b) :
      ((s.setCpu c { s.cpu c with runs := .inr t, intena := intena }).setCode (.inr t)
        { s.code (.inr t) with life := .on }).Inv := by
    have place : (s.code (.inr t)).place = .free := inv.stopped _ fun d eq => away (inv.on d t eq)
    constructor <;> simp only [setCode, setCpu]
    case stopped =>
      intro k away
      by_cases mine : k = .inl c
      · rw [mine, Function.update_of_ne (by simp), ← runs]
        exact here
      · rw [Function.update_of_ne (by have := away c; grind)]
        exact inv.stopped k fun d => by have := away d; grind
    all_goals grind
  simp only [Nesting.dispatch] at taken
  split_ifs at taken with guard
  obtain ⟨runs, -, -, one⟩ := guard
  split at taken
  · next new =>
    cases taken
    obtain ⟨depth, outer⟩ := inv.new t new
    exact switch _ runs one (by simp [new]) depth (by simp [outer])
  · next intena out =>
    cases taken
    obtain ⟨depth, outer⟩ := inv.out t intena out
    exact switch _ runs one (by simp [out]) depth fun b eq => (outer b eq).symm
  · cases taken

end

section

variable (inv : s.Inv)

include inv

/-- Code goes to another place, with no change on its CPU. -/
theorem Inv.place {place : Place L}
    (old : ∀ old l, place = .pushes old l → old = (s.cpu c).intr) :
    (s.setCode (s.cpu c).runs { s.code (s.cpu c).runs with place := place }).Inv := by
  have goes := inv.goes (x := { s.code (s.cpu c).runs with place := place }) (h := s.cpu c) rfl rfl
    (inv.off c) (fun t runs => by rw [inv.depth c t runs, runs])
    (fun t b runs => by rw [runs]; exact inv.intena c t b runs) old (inv.traps _)
  rwa [setCpu, Function.update_eq_self] at goes

/-- Interrupts are turned on or off while no lock is held. -/
theorem Inv.turns (zero : (s.cpu c).noff = 0) {b : Bool} {p : Place L}
    {traps : List (Place L)} (old : ∀ old l, p = .pushes old l → old = b)
    (stack : ∀ old l, .pushes old l ∈ traps → old = true) :
    ((s.setCpu c { s.cpu c with intr := b }).setCode (s.cpu c).runs
      { s.code (s.cpu c).runs with place := p, traps := traps }).Inv :=
  inv.goes rfl rfl (fun more => absurd zero more.ne')
    (fun t runs => by rw [inv.depth c t runs, runs]) (fun _ _ _ more => absurd zero more.ne') old
    stack

theorem Inv.intr (here : (s.code (s.cpu c).runs).place = .free)
    (zero : (s.cpu c).noff = 0) (intr : Bool) : (s.setCpu c { s.cpu c with intr := intr }).Inv := by
  have turns := inv.turns zero (b := intr) (p := .free) (by simp) (inv.traps (s.cpu c).runs)
  rw [← here] at turns
  simpa [setCode, setCpu] using turns

theorem popOff_ends (runs : (s.cpu c).runs = .inr t) (taken : s.popOff c = some s')
    (zero : (s'.code (.inr t)).depth = 0) : (s'.cpu c).intr = (s.cpu c).intena := by
  have depth := inv.depth c t runs
  simp only [Nesting.popOff, ite_none_right_eq_some, some.injEq] at taken
  obtain ⟨-, rfl⟩ := taken
  simp only [setCode, setCpu, runs, Function.update_self, ← depth] at zero ⊢
  simp [zero]

end

variable [DecidableEq L]

theorem Inv.step {l : C × Op T L} (inv : s.Inv) (taken : s.step plock l = some s') : s'.Inv := by
  obtain ⟨c, op⟩ := l
  simp only [Nesting.step] at taken
  split at taken
  case h_1 old l here => exact inv.pushOff here (by cases l <;> simp) taken
  case h_2 l here =>
    split_ifs at taken
    cases taken
    exact (inv.setLock l (some c)).place (by simp)
  case h_3 l here =>
    cases taken
    exact inv.place (by simp +contextual)
  case h_4 here => exact inv.popOff here taken
  case h_5 l here =>
    split_ifs at taken
    exact (inv.setLock l none).popOff here taken
  case h_6 here => exact inv.sched here taken
  case h_7 t here => exact inv.dispatch here taken
  case h_8 =>
    split_ifs at taken with on
    cases taken
    have zero : (s.cpu c).noff = 0 := by
      by_contra more
      simp [inv.off c (Nat.pos_of_ne_zero more)] at on
    refine inv.turns zero (by simp) fun old l mem => ?_
    rcases List.mem_cons.1 mem with here | below
    · exact (inv.old c old l here.symm).trans on
    · exact inv.traps _ old l below
  case h_9 here =>
    split at taken
    · cases taken
    · next place traps stack =>
      split_ifs at taken with zero
      cases taken
      have read := inv.traps (s.cpu c).runs
      rw [stack] at read
      exact inv.turns zero (fun old l eq => read old l (eq ▸ List.mem_cons_self))
        fun old l mem => read old l (List.mem_cons_of_mem _ mem)
  case h_10 here =>
    split_ifs at taken with zero
    cases taken
    exact inv.intr here zero true
  case h_11 here =>
    split_ifs at taken with zero
    cases taken
    exact inv.intr here zero false
  case h_12 => cases taken

attribute [local grind =] code_setCpu code_setCode

/-- The step of a thread that takes its nesting to zero is a `pop_off`. -/
theorem step_ends {op : Op T L} (inv : s.Inv) (runs : (s.cpu c).runs = .inr t)
    (taken : s.step plock (c, op) = some s') (nested : 0 < (s.code (.inr t)).depth)
    (zero : (s'.code (.inr t)).depth = 0) : (s'.cpu c).intr = (s.cpu c).intena := by
  simp only [Nesting.step, runs] at taken
  split at taken
  case h_4 => exact popOff_ends inv runs taken zero
  case h_5 l here =>
    split_ifs at taken
    exact popOff_ends (s := s.setLock l none) (inv.setLock l none) runs taken zero
  -- No other step makes the nesting less.
  all_goals grind [Nesting.pushOff, Nesting.sched, Nesting.dispatch]

/-- Interrupts are off on a CPU that has called `push_off`; a CPU counts the nesting of the thread
that it runs; when that nesting ends, interrupts are as they were before the thread's outermost
`push_off`. -/
theorem interrupts_restored {ls : List (C × Op T L)}
    (run : exec (step plock) (boot C T L) ls = some s) :
    (∀ c, 0 < (s.cpu c).noff → (s.cpu c).intr = false) ∧
    (∀ c t, (s.cpu c).runs = .inr t → (s.cpu c).noff = (s.code (.inr t)).depth) ∧
    ∀ c t op s' b, (s.cpu c).runs = .inr t → step plock s (c, op) = some s' →
      0 < (s.code (.inr t)).depth → (s'.code (.inr t)).depth = 0 →
      (s.code (.inr t)).outer = some b → (s'.cpu c).intr = b := by
  have inv := run_invariant Inv (fun s l s' inv => inv.step) Inv.boot run
  refine ⟨inv.off, inv.depth, fun c t op s' b runs taken nested zero outer => ?_⟩
  rw [step_ends inv runs taken nested zero]
  exact inv.intena c t b runs (inv.depth c t runs ▸ nested) outer

/-- A thread that has called `acquire` with interrupts on is switched out, and goes on on a CPU
whose scheduler had them off. -/
theorem interrupts_restored_moved : ∃ s, exec (step id) (boot Bool Unit Unit)
    [(false, .intrOn), (false, .get (some ())), (false, .off), (false, .take),
      (false, .dispatch ()),
      (false, .release ()), (false, .get (some ())), (false, .off), (false, .take), (false, .sched),
      (false, .release ()), (true, .get (some ())), (true, .off), (true, .take),
      (true, .dispatch ())] = some s ∧
    ∃ s', step id s (true, .release ()) = some s' ∧ (s'.cpu true).intr = true := by
  apply exists_exec (fun s => (s.cpu true).runs = .inr () ∧ 0 < (s.code (.inr ())).depth ∧
    (s.code (.inr ())).outer = some true ∧ (step id s (true, .release ())).any
      (fun s' => (s'.code (.inr ())).depth = 0) = true) (by decide)
  rintro s run ⟨runs, nested, outer, ends⟩
  obtain ⟨s', taken, zero⟩ := (any_eq_true _ _).1 ends
  exact ⟨s', taken, (interrupts_restored run).2.2 true () _ s' true runs taken nested
    (of_decide_eq_true zero) outer⟩

end Nesting

end Xv6.Sync
