import Xv6.Cafe.Handler
import Xv6.Lib.Ownership

/-!
# Baristas are held exclusively and returned

On every path of the handler the semaphore that a customer takes is posted once, by the same
customer.  `Pc.Logged` gives the log of a thread at each place; a step moves a unit between a
semaphore and its holder, so that each semaphore and its holders make one.
-/

namespace Xv6.Cafe

open Transitions Function State Thread Finset

variable {B : Nat} {C : Type} [DecidableEq C] {input : C → Order} {s s' : State B C} {c : C}
  {b : Fin B} {ls : List (Option C)} {l : Option C}

/-- The barista that serves the customer. -/
def Pc.holds : Pc B → Option (Fin B)
  | .ordered i | .quits i _ | .wastes i _ | .abandoned i | .served i | .takes i | .delayed i _
  | .prepares i => some i
  | _ => none

/-- The log of a thread at each place. -/
def Pc.Logged : Pc B → List (Event B) → Prop
  | .start, log | .tries _, log | .gettime, log | .waits _, log | .unserved, log | .counts, log
  | .goes, log => log = []
  | .ordered i, log | .takes i, log | .prepares i, log => log = [.took i]
  | .quits i _, log | .delayed i _, log | .served i, log => log = [.took i, .begins i]
  | .wastes i _, log | .abandoned i, log => log = [.took i, .begins i, .leavesWithout]
  | .departs, log => ∃ i, log = [.took i, .begins i, .posted i]
  | .done, log => log = [.leavesWithout] ∨
      ∃ i, log = [.took i, .begins i, .leavesWithout, .posted i] ∨
        log = [.took i, .begins i, .posted i, .leavesWith]

/-- The log of a thread is the one of its place. -/
def Thread.Logged (t : Thread B) : Prop := t.pc.Logged t.log

/-- One for the barista that serves the customer. -/
def held (t : Thread B) (b : Fin B) : Nat := if t.pc.holds = some b then 1 else 0

/-- What a step of the handler does to the semaphores and to its thread. -/
structure Handled (s s' : State B C) (c : C) (t' : Thread B) : Prop where
  clock : s'.clock = s.clock
  thread : s'.thread = Function.update s.thread c t'
  sem : ∀ b, s'.sem b + held t' b = s.sem b + held (s.thread c) b
  logged : (s.thread c).Logged → t'.Logged
  grows : (s.thread c).log <+: t'.log

section moves

variable {order : Order} {clock : Nat} {sem : Fin B → Nat} {t t' : Thread B} {a : Action B}

/-- The barista a thread has before and after a step. -/
def Action.Passes (a : Action B) (sem : Fin B → Nat) (before after : Option (Fin B)) : Prop :=
  match a with
  | .take i => 0 < sem i ∧ before = none ∧ after = some i
  | .post i => before = some i ∧ after = none
  | _ => after = before

section

variable (moves : Moves order clock sem t a t')
include moves

theorem Moves.passes : a.Passes sem t.pc.holds t'.pc.holds := by
  cases moves with
  | tryTakes pc free | waitTakes pc free =>
    rw [pc]
    exact ⟨free, rfl, rfl⟩
  | abandoned pc | served pc =>
    rw [pc]
    exact ⟨rfl, rfl⟩
  | _ => simp_all [Action.Passes, goto, sleep, record, Pc.holds]

theorem Moves.logged (logged : t.Logged) : t'.Logged := by
  cases moves with
  | departs pc =>
    rw [Logged, pc] at logged
    obtain ⟨i, log⟩ := logged
    exact .inr ⟨i, .inr (by simp [goto, record, log])⟩
  | _ => simp_all [Logged, goto, sleep, record, Pc.Logged]

theorem Moves.grows : t.log <+: t'.log := by
  cases moves <;> simp [goto, sleep, record]

end

end moves

theorem act_set (a : Action B) (t' : Thread B) : ((s.act c a).set c t').clock = s.clock ∧
    ((s.act c a).set c t').thread = update s.thread c t' := by
  cases a <;> exact ⟨rfl, rfl⟩

/-- Every step of the handler moves at most one unit between a semaphore and the thread, and
logs what its place asks for. -/
theorem handler_handled (run : s.handler input c = some s') : ∃ t', Handled s s' c t' := by
  obtain ⟨a, t', moves, rfl⟩ := handler_moves run
  refine ⟨t', (act_set a t').1, (act_set a t').2, fun b => ?_, moves.logged, moves.grows⟩
  have passes := moves.passes
  unfold Action.Passes at passes
  cases a with
  | take i =>
    obtain ⟨free, before, after⟩ := passes
    rcases eq_or_ne b i with rfl | ne
    · simp [held, before, after, State.act, State.set, State.setSem]
      omega
    · simp [held, before, after, State.act, State.set, State.setSem, ne, ne.symm]
  | post i =>
    obtain ⟨before, after⟩ := passes
    rcases eq_or_ne b i with rfl | ne
    · simp [held, before, after, State.act, State.set, State.setSem]
    · simp [held, before, after, State.act, State.set, State.setSem, ne, ne.symm]
  | _ => simp only [held, passes, State.act, State.set]

section runs

variable [Fintype C]

/-- A semaphore and the customers that its barista serves make one, and the logs are right. -/
structure Inv (s : State B C) : Prop where
  balanced : ∀ b, s.sem b + ∑ c, held (s.thread c) b = 1
  logged : ∀ c, (s.thread c).Logged

omit [DecidableEq C] in
theorem init_inv : Inv (init : State B C) where
  balanced b := by
    have none : ∑ c : C, held ((init : State B C).thread c) b = 0 :=
      sum_eq_zero fun c _ => rfl
    rw [none]
    rfl
  logged c := rfl

theorem Handled.inv {t' : Thread B} (handled : Handled s s' c t') (inv : Inv s) : Inv s' where
  balanced b := by
    have change := Ownership.sum_change (f := fun c => held (s.thread c) b)
      (g := fun c => held (s'.thread c) b) (mem_univ c) fun d _ ne => by
        rw [handled.thread, update_of_ne ne]
    have here : s'.thread c = t' := by rw [handled.thread, update_self]
    have moved := handled.sem b
    have before := inv.balanced b
    rw [here] at change
    omega
  logged d := by
    rw [handled.thread]
    rcases eq_or_ne d c with rfl | ne
    · rw [update_self]
      exact handled.logged (inv.logged d)
    · rw [update_of_ne ne]
      exact inv.logged d

theorem step_inv (inv : Inv s) (step : s.step input l = some s') : Inv s' := by
  cases l with
  | none =>
    cases step
    exact ⟨inv.balanced, inv.logged⟩
  | some c =>
    obtain ⟨t', handled⟩ := handler_handled (handler_of_step step).2
    exact handled.inv inv

theorem run_inv (run : exec (step input) init ls = some s) : Inv s :=
  run_invariant Inv (fun _ _ _ inv step => step_inv inv step) init_inv run

end runs

/-! ## What the logs show -/

/-- Calls on semaphores. -/
def Event.isSem : Event B → Bool
  | .took _ | .posted _ => true
  | _ => false

/-- The calls on semaphores of a customer, in order. -/
def State.visits (s : State B C) (c : C) : List (Event B) := (s.thread c).log.filter Event.isSem

/-- The customer has taken the barista and not returned it. -/
def State.Serves (s : State B C) (c : C) (b : Fin B) : Prop :=
  .took b ∈ (s.thread c).log ∧ .posted b ∉ (s.thread c).log

instance : Decidable (s.Serves c b) := inferInstanceAs (Decidable (_ ∧ _))

/-- A customer has not taken a barista, is served by one, or has returned the one it took. -/
inductive Visited (pc : Pc B) : List (Event B) → Prop
  | none (holds : pc.holds = none) : Visited pc []
  | served {b : Fin B} (holds : pc.holds = some b) : Visited pc [.took b]
  | returned {b : Fin B} (holds : pc.holds = none) : Visited pc [.took b, .posted b]

section

omit [DecidableEq C]

theorem visited (logged : (s.thread c).Logged) : Visited (s.thread c).pc (s.visits c) := by
  unfold Logged at logged
  unfold visits
  generalize (s.thread c).log = log at logged
  cases pc : (s.thread c).pc with
  | ordered i | takes i | prepares i | quits i rest | delayed i delay | served i | wastes i rest
  | abandoned i =>
    rw [pc] at logged
    rw [show log = _ from logged]
    exact .served rfl
  | departs =>
    rw [pc] at logged
    obtain ⟨i, posted⟩ := logged
    rw [posted]
    exact .returned rfl
  | done =>
    rw [pc] at logged
    rcases logged with left | ⟨i, left | posted⟩
    · rw [left]
      exact .none rfl
    · rw [left]
      exact .returned rfl
    · rw [posted]
      exact .returned rfl
  | _ =>
    rw [pc] at logged
    rw [show log = _ from logged]
    exact .none rfl

theorem mem_visits {e : Event B} (sem : e.isSem = true) :
    e ∈ (s.thread c).log ↔ e ∈ s.visits c := by
  rw [visits, List.mem_filter]
  simp [sem]

theorem serves_iff (logged : (s.thread c).Logged) :
    s.Serves c b ↔ (s.thread c).pc.holds = some b := by
  rw [Serves, mem_visits (c := c) rfl, mem_visits (c := c) rfl]
  have visited := visited logged
  generalize s.visits c = visits at visited
  cases visited with
  | none holds => simp [holds]
  | served holds => simp [holds, eq_comm]
  | returned holds => simp [holds]

end

/-- A thread that is not asleep has a step, unless it waits for a barista or has ended. -/
theorem awake_moves (input : C → Order) (awake : (s.thread c).wake ≤ s.clock)
    (alive : (s.thread c).pc ≠ .done)
    (unblocked : ∀ i : Fin B, (s.thread c).pc = .waits i → s.sem i = 0 →
      (s.thread c).deadline ≤ s.clock) : (s.step input (some c)).isSome := by
  simp only [step, if_pos awake, handler]
  cases pc : (s.thread c).pc with
  | waits i =>
    simp only
    split_ifs with below free late
    · rfl
    · rfl
    · exact absurd (unblocked ⟨i, below⟩ pc (by omega)) late
    · rfl
  | tries i | ordered i | takes i =>
    simp only
    split_ifs <;> rfl
  | done => exact absurd pc alive
  | _ => rfl

/-- A customer who is served is asleep or has a step. -/
theorem served_moves (logged : (s.thread c).Logged) (serves : s.Serves c b)
    (awake : (s.thread c).wake ≤ s.clock) : (s.step input (some c)).isSome := by
  rw [serves_iff logged] at serves
  refine awake_moves input awake (fun pc => ?_) fun i pc => ?_
  · rw [pc] at serves
    cases serves
  · rw [pc] at serves
    cases serves

/-! ## From the wait to the post -/

/-- A bound on the steps of a thread until it returns its barista. -/
def Pc.left : Pc B → Nat
  | .takes _ => 5
  | .ordered _ | .delayed _ _ => 4
  | .quits _ _ => 3
  | .wastes _ _ | .prepares _ => 2
  | .abandoned _ | .served _ => 1
  | _ => 0

theorem Pc.left_le (pc : Pc B) : pc.left ≤ 5 := by
  cases pc <;> simp [Pc.left]

theorem Pc.left_pos {pc : Pc B} (holds : pc.holds = some b) : 0 < pc.left := by
  cases pc with
  | ordered i | quits i rest | wastes i rest | abandoned i | served i | takes i | delayed i delay
  | prepares i => exact Nat.succ_pos _
  | _ => cases holds

/-- A step of a thread that is served is one step nearer to the post, or is the post. -/
theorem handler_left (holds : (s.thread c).pc.holds = some b) (run : s.handler input c = some s') :
    ((s'.thread c).pc.holds = some b ∧ (s'.thread c).pc.left < (s.thread c).pc.left) ∨
      .posted b ∈ (s'.thread c).log := by
  obtain ⟨a, t', moves, rfl⟩ := handler_moves run
  rw [(act_set a t').2, update_self]
  cases moves <;>
    simp_all [sleep, goto, record, Pc.holds, Pc.left]

theorem Handled.log_grows {t' : Thread B} (handled : Handled s s' c t') (d : C) :
    (s.thread d).log <+: (s'.thread d).log := by
  rw [handled.thread]
  rcases eq_or_ne d c with rfl | ne
  · rw [update_self]
    exact handled.grows
  · rw [update_of_ne ne]

theorem step_grows (step : s.step input l = some s') (d : C) :
    (s.thread d).log <+: (s'.thread d).log := by
  cases l with
  | none =>
    cases step
    exact List.prefix_rfl
  | some c =>
    obtain ⟨t', handled⟩ := handler_handled (handler_of_step step).2
    exact handled.log_grows d

/-- Steps of others leave a thread as it is. -/
theorem step_other (step : s.step input l = some s') (ne : l ≠ some c) :
    s'.thread c = s.thread c := by
  cases l with
  | none =>
    cases step
    rfl
  | some d =>
    obtain ⟨t', handled⟩ := handler_handled (handler_of_step step).2
    rw [handled.thread, update_of_ne fun eq => ne (congrArg some eq.symm)]

/-- A thread that is served and takes `left` steps returns its barista. -/
theorem run_posts (holds : (s.thread c).pc.holds = some b) (run : exec (step input) s ls = some s')
    (steps : (s.thread c).pc.left ≤ ls.count (some c)) : .posted b ∈ (s'.thread c).log := by
  induction ls generalizing s with
  | nil =>
    have := Pc.left_pos holds
    rw [List.count_nil] at steps
    omega
  | cons l ls ih =>
    obtain ⟨mid, step, rest⟩ := exec_cons run
    by_cases here : l = some c
    · subst here
      rw [List.count_cons_self] at steps
      rcases handler_left holds (handler_of_step step).2 with ⟨still, nearer⟩ | posted
      · exact ih still rest (by omega)
      · exact run_invariant (fun s => .posted b ∈ (s.thread c).log)
          (fun _ _ _ mem step => (step_grows step c).subset mem) posted rest
    · rw [List.count_cons_of_ne here] at steps
      have same := step_other step here
      exact ih (by rwa [same]) rest (by rwa [same])

section runs

variable [Fintype C]

omit [DecidableEq C] in
theorem Inv.sem_zero_iff (inv : Inv s) : s.sem b = 0 ↔ ∃! c, s.Serves c b := by
  have balanced := inv.balanced b
  simp only [held, Finset.sum_boole, Nat.cast_id] at balanced
  have one : (∃! c, s.Serves c b) ↔
      (Finset.univ.filter fun c => (s.thread c).pc.holds = some b).card = 1 := by
    rw [Finset.card_eq_one, ExistsUnique]
    simp only [serves_iff (inv.logged _), Finset.ext_iff, Finset.mem_filter, Finset.mem_univ,
      true_and, Finset.mem_singleton]
    constructor
    · rintro ⟨c, holds, unique⟩
      exact ⟨c, fun d => ⟨unique d, fun eq => by rw [eq]; exact holds⟩⟩
    · rintro ⟨c, all⟩
      exact ⟨c, (all c).2 rfl, fun d holds => (all d).1 holds⟩
  rw [one]
  omega

/-- In every run a barista serves at most one customer, its semaphore is 0 exactly while it serves
one, and a customer takes at most one barista and gives it back: within five steps of its own, none
of which can be blocked for good. -/
theorem baristas_exclusive (run : exec (State.step input) State.init ls = some s) :
    (∀ b, s.sem b ≤ 1) ∧ (∀ b, s.sem b = 0 ↔ ∃! c, s.Serves c b) ∧
    (∀ c, s.visits c = [] ∨ (∃ b, s.visits c = [.took b] ∧ s.Serves c b) ∨
      ∃ b, s.visits c = [.took b, .posted b]) ∧
    (∀ c b, s.Serves c b → (s.thread c).wake ≤ s.clock → (s.step input (some c)).isSome) ∧
    (∀ c b ls' s', s.Serves c b → exec (State.step input) s ls' = some s' →
      5 ≤ ls'.count (some c) → s'.visits c = [.took b, .posted b]) ∧
    (∀ c, (s.thread c).pc = .done → s.visits c = [] ∨ ∃ b, s.visits c = [.took b, .posted b]) ∧
    ((∀ c, (s.thread c).pc = .done) → ∀ b, s.sem b = 1) := by
  have inv : Inv s := run_inv run
  refine ⟨fun b => ?_, fun b => inv.sem_zero_iff, fun c => ?_,
    fun c b serves awake => served_moves (inv.logged c) serves awake,
    fun c b ls' s' serves rest steps => ?_, fun c ended => ?_, fun ended b => ?_⟩
  · have := inv.balanced b
    omega
  · have visited := visited (inv.logged c)
    generalize same : s.visits c = visits at visited
    cases visited with
    | none holds => exact .inl rfl
    | served holds => exact .inr (.inl ⟨_, rfl, (serves_iff (inv.logged c)).2 holds⟩)
    | returned holds => exact .inr (.inr ⟨_, rfl⟩)
  · have holds := (serves_iff (inv.logged c)).1 serves
    have posted := run_posts holds rest (le_trans (s.thread c).pc.left_le steps)
    have inv' : Inv s' := run_invariant Inv (fun _ _ _ inv step => step_inv inv step) inv rest
    have visited := visited (inv'.logged c)
    rw [mem_visits rfl] at posted
    generalize s'.visits c = visits at visited posted
    cases visited with
    | none holds => simp at posted
    | served holds => simp at posted
    | @returned d holds =>
      have same : b = d := by simpa using posted
      rw [same]
  · have visited := visited (inv.logged c)
    rw [ended] at visited
    generalize s.visits c = visits at visited
    cases visited with
    | none holds => exact .inl rfl
    | served holds => cases holds
    | returned holds => exact .inr ⟨_, rfl⟩
  · have none : ∑ c, held (s.thread c) b = 0 := by
      refine sum_eq_zero fun c _ => ?_
      rw [held, ended c]
      rfl
    have := inv.balanced b
    omega

/-- A second customer arrives while the barista serves the first. -/
theorem baristas_exclusive_two : ∃ s : State 1 (Fin 2),
    exec (State.step fun _ => ⟨0, 5, 3⟩) State.init
      [some 0, some 1, some 0, some 1, some 1, none, some 0] = some s ∧
    s.Serves 0 0 ∧ ¬s.Serves 1 0 ∧ s.sem 0 = 0 := by
  refine exists_exec (fun s => s.Serves 0 0 ∧ ¬s.Serves 1 0) (by decide +kernel)
    fun s run ⟨first, second⟩ => ⟨first, second, ?_⟩
  refine ((baristas_exclusive run).2.1 0).2 ⟨0, first, fun c serves => ?_⟩
  fin_cases c
  · rfl
  · exact absurd serves second

end runs

end Xv6.Cafe
