import Xv6.Cafe.Waiting

/-!
# The timetable of a barista

On the ideal clock a barista that is taken at a time `u` begins at `u + 1` and is returned after
the preparation time, on all paths but one: a customer who had to wait and will not wait long
enough prints "begins preparing" before the second passes, and later sleeps a second less.
-/

namespace Xv6.Cafe

open Transitions Thread

variable {B : Nat} {C : Type} {input : C → Order} {s s' : State B C} {c : C} {b : Fin B}
  {l : Option C} {ls : List (Option C)} {order : Order} {patient : Prop} {clock : Nat}
  {sem : Fin B → Nat} {t t' : Thread B} {a : Action B} {log : List (Nat × Event B)} {n : Int}

/-- Times of an `int` that are not negative. -/
structure Order.Valid (order : Order) : Prop where
  arrivalTime : 0 ≤ order.arrivalTime ∧ order.arrivalTime < 2 ^ 31
  tolerance : 0 ≤ order.tolerance ∧ order.tolerance < 2 ^ 31
  prepTime : 0 ≤ order.prepTime ∧ order.prepTime < 2 ^ 31

/-- A state, and what the customers have logged with the time `time(NULL) - abs_start_time`. -/
structure Timed (B : Nat) (C : Type) where
  state : State B C
  log : C → List (Nat × Event B)

def Timed.init : Timed B C := ⟨State.init, fun _ => []⟩

/-- A step on the ideal clock. -/
def Timed.step [DecidableEq C] [Fintype C] (input : C → Order) (w : Timed B C) (l : Option C) :
    Option (Timed B C) :=
  (w.state.ideal input l).map fun s => ⟨s, fun c => w.log c ++
    ((s.thread c).log.drop (w.state.thread c).log.length).map
      fun e => (w.state.clock - (w.state.thread c).absStartTime, e)⟩

/-- The argument of `sleep` in the next step of a thread, when it is not `sleep(1)`. -/
def Thread.sleeps (order : Order) (t : Thread B) : Option Int :=
  match t.pc with
  | .start => some order.arrivalTime
  | .ordered _ =>
    some (if order.tolerance < order.prepTime then order.tolerance else order.prepTime)
  | .wastes _ rest => some rest
  | .delayed _ delay => some (order.tolerance - delay)
  | .prepares _ => some order.prepTime
  | _ => none

/-- A customer who had to wait for its barista waits for its coffee as well. -/
def Patient (input : C → Order) (w : Timed B C) (l : Option C) : Prop :=
  ∀ c, l = some c → ∀ i, (w.state.thread c).pc = .takes i →
    (w.state.clock - (w.state.thread c).absStartTime - (input c).arrivalTime : Int) +
      (input c).prepTime ≤ (input c).tolerance

/-- A barista taken at `u` begins at `v`. -/
def Begins (patient : Prop) (u v : Nat) : Prop := v = u + 1 ∨ v = u ∧ ¬patient

/-- The log of a thread at each place, with its times. -/
def Thread.Timeline (order : Order) (patient : Prop) (clock : Nat) (t : Thread B)
    (log : List (Nat × Event B)) : Prop :=
  match t.pc with
  | .start => log = [] ∧ clock = 0 ∧ t.wake = 0
  | .tries _ => log = [] ∧ (t.wake : Int) = order.arrivalTime ∧ clock ≤ t.wake
  | .gettime => log = [] ∧ (clock : Int) = order.arrivalTime ∧ t.wake ≤ clock
  | .waits i => log = [] ∧ t.wake ≤ clock ∧ t.deadline = order.arrivalTime + order.tolerance ∧
      order.arrivalTime ≤ clock ∧ clock ≤ t.deadline ∧ (i = 0 ∨ clock = t.deadline)
  | .unserved | .counts =>
    log = [] ∧ t.wake ≤ clock ∧ (clock : Int) = order.arrivalTime + order.tolerance
  | .goes =>
    log = [] ∧ (t.wake : Int) = order.arrivalTime + order.tolerance + 1 ∧ clock ≤ t.wake
  | .ordered i => ∃ u : Nat, log = [(u, .took i)] ∧ (u : Int) = order.arrivalTime ∧
      t.wake = u + 1 ∧ clock ≤ t.wake
  | .takes i => log = [(clock, .took i)] ∧ t.wake ≤ clock ∧ order.arrivalTime ≤ clock ∧
      (clock : Int) ≤ order.arrivalTime + order.tolerance
  | .prepares i => ∃ u, log = [(u, .took i)] ∧ t.wake = u + 1 ∧ clock ≤ t.wake
  | .delayed i delay => ∃ u, log = [(u, .took i), (u, .begins i)] ∧ ¬patient ∧
      t.wake = u + 1 ∧ clock ≤ t.wake ∧ delay = u - order.arrivalTime ∧ 0 ≤ delay ∧
      delay ≤ order.tolerance ∧ order.tolerance < delay + order.prepTime
  | .served i => ∃ u, log = [(u, .took i), (u + 1, .begins i)] ∧
      (t.wake : Int) = u + 1 + order.prepTime ∧ clock ≤ t.wake
  | .quits i rest => ∃ u v, log = [(u, .took i), (v, .begins i)] ∧ Begins patient u v ∧
      (t.wake : Int) = order.arrivalTime + order.tolerance + 1 ∧ clock ≤ t.wake ∧
      rest = v + order.prepTime - t.wake ∧ 0 ≤ rest ∧ rest < 2 ^ 32
  | .wastes i rest => ∃ u v, log = [(u, .took i), (v, .begins i), (clock, .leavesWithout)] ∧
      Begins patient u v ∧ t.wake ≤ clock ∧
      (clock : Int) = order.arrivalTime + order.tolerance + 1 ∧
      rest = v + order.prepTime - clock ∧ 0 ≤ rest ∧ rest < 2 ^ 32
  | .abandoned i => ∃ u v x, log = [(u, .took i), (v, .begins i), (x, .leavesWithout)] ∧
      Begins patient u v ∧ (x : Int) = order.arrivalTime + order.tolerance + 1 ∧
      (t.wake : Int) = v + order.prepTime ∧ clock ≤ t.wake
  | .departs => t.wake ≤ clock ∧ ∃ i u y, log = [(u, .took i), (u + 1, .begins i), (y, .posted i)] ∧
      (y : Int) = u + 1 + order.prepTime
  | .done =>
    (∃ x, log = [(x, .leavesWithout)] ∧
      (x : Int) = order.arrivalTime + order.tolerance + 1) ∨
    (∃ i u v x y, log = [(u, .took i), (v, .begins i), (x, .leavesWithout), (y, .posted i)] ∧
      Begins patient u v ∧ (x : Int) = order.arrivalTime + order.tolerance + 1 ∧
      (y : Int) = v + order.prepTime) ∨
    ∃ i u y z, log = [(u, .took i), (u + 1, .begins i), (y, .posted i), (z, .leavesWith)] ∧
      (y : Int) = u + 1 + order.prepTime

theorem sleepUntil_eq (clock : Nat) (low : 0 ≤ n) (high : n < 2 ^ 32) :
    (sleepUntil clock n : Int) = clock + n := by
  unfold sleepUntil
  omega

/-- A thread runs to its timetable. -/
structure Thread.Punctual (order : Order) (patient : Prop) (clock : Nat) (t : Thread B)
    (log : List (Nat × Event B)) : Prop where
  start : t.absStartTime = 0
  timeline : t.Timeline order patient clock log

theorem Moves.punctual (some_barista : 0 < B) (valid : order.Valid)
    (moves : Moves order clock sem t a t') (awake : t.wake ≤ clock)
    (waits : patient → ∀ i, t.pc = .takes i →
      (clock - t.absStartTime - order.arrivalTime : Int) + order.prepTime ≤ order.tolerance)
    (time : t.Punctual order patient clock log) : t'.Punctual order patient clock
      (log ++ (t'.log.drop t.log.length).map fun e => (clock - t.absStartTime, e)) := by
  obtain ⟨start, time⟩ := time
  obtain ⟨⟨_, _⟩, ⟨_, _⟩, ⟨_, _⟩⟩ := valid
  unfold Timeline at time
  refine ⟨by cases moves <;> simp_all [sleep, goto, record], ?_⟩
  unfold Timeline
  have one : sleepUntil clock 1 = clock + 1 := rfl
  cases moves <;> rw [‹t.pc = _›] at time <;>
    simp only [start, sleep, goto, record, List.drop_length, List.map_nil,
      List.append_nil, List.drop_left, List.map_cons, Nat.sub_zero]
  case start pc =>
    obtain ⟨rfl, rfl, -⟩ := time
    exact ⟨rfl, by rw [sleepUntil_eq] <;> omega, Nat.zero_le _⟩
  case tryTakes i pc free =>
    obtain ⟨rfl, wake, before⟩ := time
    exact ⟨clock, rfl, by omega, rfl, by omega⟩
  case tryFails i pc busy =>
    exact time
  case tried i pc all =>
    obtain ⟨rfl, wake, before⟩ := time
    exact ⟨rfl, by omega, awake⟩
  case quits i pc short =>
    obtain ⟨u, rfl, arrived, wake, before⟩ := time
    have slept := sleepUntil_eq clock (n := order.tolerance) (by omega) (by omega)
    exact ⟨u, clock, rfl, .inl (by omega), by omega, by omega, by omega, by omega, by omega⟩
  case stays i pc long =>
    obtain ⟨u, rfl, arrived, wake, before⟩ := time
    obtain rfl : clock = u + 1 := by omega
    have slept := sleepUntil_eq (u + 1) (n := order.prepTime) (by omega) (by omega)
    exact ⟨u, rfl, by omega, by omega⟩
  case leaves i rest pc =>
    obtain ⟨u, v, rfl, begins, wake, before, left⟩ := time
    exact ⟨u, v, rfl, begins, awake, by omega, by omega, by omega⟩
  case wastes i rest pc =>
    obtain ⟨u, v, rfl, begins, -, now, left⟩ := time
    have slept := sleepUntil_eq clock (n := rest) (by omega) (by omega)
    exact ⟨u, v, clock, rfl, begins, now, by omega, by omega⟩
  case abandoned i pc =>
    obtain ⟨u, v, x, rfl, begins, left, wake, before⟩ := time
    exact .inr (.inl ⟨i, u, v, x, clock, rfl, begins, left, by omega⟩)
  case served i pc =>
    obtain ⟨u, rfl, wake, before⟩ := time
    exact ⟨awake, i, u, clock, rfl, by omega⟩
  case gettime pc =>
    obtain ⟨rfl, now, -⟩ := time
    exact ⟨rfl, awake, by omega, by omega, by omega, .inl trivial⟩
  case waitTakes i pc free =>
    obtain ⟨rfl, -, deadline, arrived, before, -⟩ := time
    exact ⟨rfl, awake, arrived, by omega⟩
  case waitFails i pc busy late =>
    obtain ⟨rfl, -, deadline, arrived, before, -⟩ := time
    exact ⟨rfl, awake, deadline, arrived, before, .inr (by omega)⟩
  case waited i pc all =>
    obtain ⟨rfl, -, deadline, arrived, before, last⟩ := time
    exact ⟨rfl, awake, by omega⟩
  case hurries i delay pc is short =>
    obtain ⟨rfl, -, arrived, before⟩ := time
    exact ⟨clock, rfl, fun yes => by have := waits yes i pc; omega, rfl, by omega, by omega,
      by omega, by omega, by omega⟩
  case accepts i pc long =>
    obtain ⟨rfl, -⟩ := time
    exact ⟨clock, rfl, rfl, by omega⟩
  case delayed i delay pc =>
    obtain ⟨u, rfl, no, wake, before, is, low, high, short⟩ := time
    have slept := sleepUntil_eq clock (n := order.tolerance - delay) (by omega) (by omega)
    exact ⟨u, u, rfl, .inr ⟨rfl, no⟩, by omega, by omega, by omega, by omega, by omega⟩
  case prepares i pc =>
    obtain ⟨u, rfl, wake, before⟩ := time
    obtain rfl : clock = u + 1 := by omega
    have slept := sleepUntil_eq (u + 1) (n := order.prepTime) (by omega) (by omega)
    exact ⟨u, rfl, by omega, by omega⟩
  case departs pc =>
    obtain ⟨-, i, u, y, rfl, posted⟩ := time
    exact .inr (.inr ⟨i, u, y, clock, rfl, posted⟩)
  case unserved pc =>
    exact time
  case counts pc =>
    obtain ⟨rfl, -, now⟩ := time
    exact ⟨rfl, by omega, by omega⟩
  case goes pc =>
    obtain ⟨rfl, wake, before⟩ := time
    exact .inl ⟨clock, rfl, by omega⟩

theorem init_punctual (c : C) : ((Timed.init : Timed B C).state.thread c).Punctual (input c)
    patient (Timed.init : Timed B C).state.clock ((Timed.init : Timed B C).log c) :=
  ⟨rfl, rfl, rfl, rfl⟩

theorem Thread.Timeline.times (time : t.Timeline order patient clock log) :
    (∀ x : Nat, (x, .leavesWithout) ∈ log →
      (x : Int) = order.arrivalTime + order.tolerance + 1) ∧
    ∀ b u, (u, .took b) ∈ log → (∀ v, (v, .begins b) ∈ log → Begins patient u v) ∧
      (∀ y : Nat, (y, .posted b) ∈ log →
        ∃ v : Nat, (v, .begins b) ∈ log ∧ (y : Int) = v + order.prepTime) ∧
      (t.pc = .done → ∃ y, (y, .posted b) ∈ log) := by
  unfold Timeline at time
  cases pc : t.pc with
  | abandoned i =>
    rw [pc] at time
    obtain ⟨u, v, x, rfl, begins, left, -⟩ := time
    simp [left, begins]
  | done =>
    rw [pc] at time
    rcases time with ⟨x, rfl, left⟩ | ⟨i, u, v, x, y, rfl, begins, left, posted⟩ |
      ⟨i, u, y, z, rfl, posted⟩
    · simp [left]
    · simp [left, begins, posted]
    · simp [Begins, posted]
  | _ =>
    simp only [pc] at time
    grind [Begins]

theorem Thread.Timeline.sleeps_nonneg (valid : order.Valid)
    (time : t.Timeline order patient clock log) (sleeps : t.sleeps order = some n) : 0 ≤ n := by
  obtain ⟨⟨_, _⟩, ⟨_, _⟩, ⟨_, _⟩⟩ := valid
  unfold Timeline at time
  unfold Thread.sleeps at sleeps
  cases pc : t.pc <;> simp only [pc] at time sleeps <;> grind

variable [DecidableEq C]

theorem tick_punctual (quiet : s.Quiet input)
    (time : (s.thread c).Punctual order patient s.clock log) :
    (s.thread c).Punctual order patient (s.clock + 1) log := by
  obtain ⟨start, time⟩ := time
  refine ⟨start, ?_⟩
  unfold Timeline at time ⊢
  cases pc : (s.thread c).pc with
  | done => simpa only [pc] using time
  | waits i =>
    simp only [pc] at time ⊢
    have before : (s.clock : Int) < (s.thread c).deadline := by
      by_contra late
      have moves := awake_moves input time.2.1 (by simp [pc]) fun _ _ _ => not_lt.1 late
      rw [quiet c] at moves
      cases moves
    exact ⟨time.1, by omega⟩
  | _ =>
    have asleep := quiet_asleep (c := c) quiet (by simp [pc]) (by simp [pc])
    simp only [pc] at time ⊢
    grind

variable [Fintype C]

theorem step_punctual {w w' : Timed B C} (baristas : 0 < B) (valid : ∀ c, (input c).Valid)
    (time : ∀ c, (w.state.thread c).Punctual (input c) patient w.state.clock (w.log c))
    (waits : patient → Patient input w l) (step : w.step input l = some w') (c : C) :
    (w'.state.thread c).Punctual (input c) patient w'.state.clock (w'.log c) := by
  obtain ⟨s', ideal, rfl⟩ := Option.map_eq_some_iff.1 step
  cases l with
  | none =>
    unfold State.ideal at ideal
    simp only at ideal
    split_ifs at ideal with quiet
    cases ideal
    simpa using tick_punctual quiet (time c)
  | some d =>
    obtain ⟨awake, run⟩ := handler_of_step ideal
    obtain ⟨a, t', moves, rfl⟩ := handler_moves run
    simp only [act_set]
    rcases eq_or_ne c d with rfl | ne
    · rw [Function.update_self]
      exact moves.punctual baristas (valid c) awake (fun yes => waits yes c rfl) (time c)
    · simpa [Function.update_of_ne ne] using time c

/-- Customers who leave without their coffee do so on time, no sleep is negative, and if customers
who had to wait are patient, every barista keeps to its timetable. -/
theorem barista_timetable {w : Timed B C} (baristas : 0 < B) (valid : ∀ c, (input c).Valid)
    (run : exec (Timed.step input) Timed.init ls = some w) :
    (∀ c n, (w.state.thread c).sleeps (input c) = some n → 0 ≤ n) ∧
    (∀ c x, (x, .leavesWithout) ∈ w.log c →
      (x : Int) = (input c).arrivalTime + (input c).tolerance + 1) ∧
    (Meets (Timed.step input) (Patient input) (Timed.init : Timed B C) ls →
      ∀ c b u, (u, .took b) ∈ w.log c →
        (∀ v, (v, .begins b) ∈ w.log c → v = u + 1) ∧
        (∀ y, (y, .posted b) ∈ w.log c → (y : Int) = u + 1 + (input c).prepTime) ∧
        ((w.state.thread c).pc = .done →
          (∃ v, (v, .begins b) ∈ w.log c) ∧ ∃ y, (y, .posted b) ∈ w.log c)) := by
  have punctual (patient : Prop)
      (meets : Meets (Timed.step input) (fun w l => patient → Patient input w l) Timed.init ls) :
      ∀ c, (w.state.thread c).Punctual (input c) patient w.state.clock (w.log c) :=
    run_meets_invariant
      (fun w : Timed B C => ∀ c,
        (w.state.thread c).Punctual (input c) patient w.state.clock (w.log c))
      (fun w l w' time waits step => step_punctual baristas valid time waits step)
      init_punctual meets run
  have always := punctual False (by simpa [false_imp_iff] using meets_true)
  refine ⟨fun c n => (always c).timeline.sleeps_nonneg (valid c), fun c x =>
    (always c).timeline.times.1 x, fun meets c b u took => ?_⟩
  obtain ⟨begins, posted, ended⟩ :=
    (punctual True (by simpa only [true_imp_iff] using meets) c).timeline.times.2 b u took
  have starts (v : Nat) (mem : (v, .begins b) ∈ w.log c) : v = u + 1 := by
    simpa [Begins] using begins v mem
  refine ⟨starts, fun y mem => ?_, fun done => ?_⟩
  · obtain ⟨v, began, eq⟩ := posted y mem
    have := starts v began
    omega
  · obtain ⟨y, mem⟩ := ended done
    obtain ⟨v, began, -⟩ := posted y mem
    exact ⟨⟨v, began⟩, y, mem⟩

/-- A customer of three seconds' patience gets the barista after three seconds, for a coffee of
five: the barista begins at once and is returned after five seconds, not six. -/
theorem barista_hurries : ∃ w : Timed 1 (Fin 2),
    exec (Timed.step ![⟨0, 9, 2⟩, ⟨0, 3, 5⟩]) Timed.init
      [some 0, some 0, some 1, some 1, some 1, some 1, none, some 0, none, none, some 0, some 0,
        some 1, some 1, none, some 1, some 1, some 1, none, none, none, none, some 1] = some w ∧
    w.log 1 = [(3, .took 0), (3, .begins 0), (4, .leavesWithout), (8, .posted 0)] := by
  exact exists_exec _ (by decide +kernel) fun _ _ => id

instance {w : Timed B C} : Decidable (Patient input w l) := by
  unfold Patient
  infer_instance

/-- Two customers of one barista, the second of whom waits for three seconds. -/
theorem barista_timetable_two : ∃ w : Timed 1 (Fin 2),
    exec (Timed.step fun _ => ⟨0, 9, 2⟩) Timed.init
      [some 0, some 0, some 1, some 1, some 1, some 1, none, some 0, none, none, some 0, some 0,
        some 1, some 1, none, some 1] = some w ∧
    (3, .took 0) ∈ w.log 1 ∧ ∀ v, (v, .begins 0) ∈ w.log 1 → v = 4 := by
  exact exists_exec (fun w => (3, .took 0) ∈ w.log 1) (by decide +kernel) fun w run took =>
    ⟨took, ((barista_timetable (by decide) (fun _ => ⟨by decide, by decide, by decide⟩) run).2.2
      (by decide +kernel) 1 0 3 took).1⟩

end Xv6.Cafe
