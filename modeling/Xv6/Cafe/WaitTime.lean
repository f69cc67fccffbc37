import Xv6.Cafe.Timetable

/-!
# The total of the waiting times

`average_wait_time += delay - 1` stands where a customer gets a barista in the second loop, after
waiting for it.  The waiting time ends when the barista becomes free, and a customer who waits for
it takes it in the same second: the second less is one too many.  The addition takes no lock, and is
a load and a store.  The total is right when baristas are taken in the first loop only.
-/

namespace Xv6.Cafe

open Transitions Function Thread

variable {B : Nat} {C : Type} [DecidableEq C] [Fintype C] {input : C → Order} {c : C} {b : Fin B}

/-- `average_wait_time`, what the threads that add to it have loaded, when each barista became
free, and for each customer with a barista when that one had become free. -/
structure Till (B : Nat) (C : Type) extends Timed B C where
  averageWaitTime : Int
  loaded : C → Option Int
  freed : Fin B → Nat
  since : C → Option Nat

namespace Till

def init : Till B C := ⟨Timed.init, 0, fun _ => none, fun _ => 0, fun _ => none⟩

/-- The load of `average_wait_time`, by a customer who has taken a barista after waiting. -/
def load (w : Till B C) (c : C) : Option (Till B C) :=
  match (w.state.thread c).pc, w.loaded c with
  | .takes _, none =>
    some { w with loaded := Function.update w.loaded c (some w.averageWaitTime) }
  | _, _ => none

/-- The rest of the step at which `average_wait_time` is stored. -/
def store (input : C → Order) (w : Till B C) (c : C) (t : Timed B C) : Option (Till B C) :=
  (w.loaded c).map fun v =>
    { w with
      toTimed := t
      averageWaitTime := v +
        (w.state.clock - (w.state.thread c).absStartTime - (input c).arrivalTime - 1)
      loaded := Function.update w.loaded c none }

/-- A step that is about a semaphore, or about none. -/
def other (w : Till B C) (c : C) (t : Timed B C) : Till B C :=
  { w with
    toTimed := t
    freed := match (w.state.thread c).pc.posts with
      | some b => Function.update w.freed b w.state.clock
      | none => w.freed
    since := match (w.state.thread c).pc.holds, (t.state.thread c).pc.holds with
      | none, some b => Function.update w.since c (some (w.freed b))
      | _, _ => w.since }

/-- A step on the ideal clock, or the load by a customer. -/
def step (input : C → Order) (w : Till B C) : Option C ⊕ C → Option (Till B C)
  | .inr c => w.load c
  | .inl none => (w.toTimed.step input none).map fun t => { w with toTimed := t }
  | .inl (some c) => (w.toTimed.step input (some c)).bind fun t =>
    match (w.state.thread c).pc with
    | .takes _ => w.store input c t
    | _ => some (w.other c t)

/-- How long a customer waited for its barista to become free. -/
def waited (w : Till B C) (input : C → Order) (c : C) : Int :=
  match w.since c with
  | some u => max 0 (u - (input c).arrivalTime)
  | none => 0

/-- No customer gets a barista in the second loop: one that goes on there finds it busy. -/
def Busy (w : Till B C) : Option C ⊕ C → Prop
  | .inl (some c) => ∀ i : Fin B, (w.state.thread c).pc = .waits i → w.state.sem i = 0
  | _ => True

instance {w : Till B C} : (l : Option C ⊕ C) → Decidable (Busy w l)
  | .inl (some _) => inferInstanceAs (Decidable (∀ _, _))
  | .inl none | .inr _ => instDecidableTrue

/-- Every customer with a barista got it on arrival. -/
structure Prompt (input : C → Order) (w : Till B C) : Prop where
  time : ∀ c, (w.state.thread c).Punctual (input c) False w.state.clock (w.log c)
  first : ∀ c i, (w.state.thread c).pc ≠ .takes i
  total : w.averageWaitTime = 0
  freed : ∀ b, w.freed b ≤ w.state.clock
  since : ∀ c, ∀ u ∈ w.since c, (u : Int) ≤ (input c).arrivalTime

variable {w w' : Till B C}

theorem tick_prompt (valid : ∀ c, (input c).Valid) (baristas : 0 < B) (prompt : Prompt input w)
    (step : w.step input (.inl none) = some w') : Prompt input w' := by
  obtain ⟨t, tick, rfl⟩ := Option.map_eq_some_iff.1 step
  have time := step_punctual baristas valid prompt.time (by rintro ⟨⟩) tick
  obtain ⟨s, ideal, rfl⟩ := Option.map_eq_some_iff.1 tick
  cases ideal_step ideal
  exact ⟨time, prompt.first, prompt.total, fun b => Nat.le_succ_of_le (prompt.freed b),
    prompt.since⟩

omit [Fintype C] in
/-- A customer who gets a barista does so in the first loop, when it arrives. -/
theorem since_other {t : Timed B C} {a : Action B} {t' : Thread B} (prompt : Prompt input w)
    (awake : (w.state.thread c).wake ≤ w.state.clock) (busy : Busy w (.inl (some c)))
    (moves : Moves (input c) w.state.clock w.state.sem (w.state.thread c) a t')
    (here : t.state.thread c = t') :
    ∀ d, ∀ u ∈ (w.other c t).since d, (u : Int) ≤ (input d).arrivalTime := by
  intro d u mem
  have passes := moves.passes
  cases a with
  | take i =>
    obtain ⟨-, before, after⟩ := passes
    simp only [other, here, before, after] at mem
    rcases eq_or_ne d c with rfl | ne
    · rw [update_self, Option.mem_some_iff] at mem
      have free := prompt.freed i
      have time := (prompt.time d).timeline
      unfold Timeline at time
      cases moves with
      | tryTakes pc _ =>
        rw [pc] at time
        obtain ⟨-, wake, early⟩ := time
        omega
      | waitTakes pc free => exact absurd (busy i pc) (Nat.pos_iff_ne_zero.1 free)
    · rw [update_of_ne ne] at mem
      exact prompt.since d u mem
  | _ =>
    have same : (w.other c t).since = w.since := by
      simp only [other, here]
      split
      · next none some => simp_all [Action.Passes]
      · rfl
    rw [same] at mem
    exact prompt.since d u mem

theorem run_prompt (valid : ∀ c, (input c).Valid) (baristas : 0 < B) (prompt : Prompt input w)
    (busy : Busy w (.inl (some c))) (step : w.step input (.inl (some c)) = some w') :
    Prompt input w' := by
  obtain ⟨t, run, rest⟩ := Option.bind_eq_some_iff.1 step
  have time := step_punctual baristas valid prompt.time (by rintro ⟨⟩) run
  obtain ⟨awake, a, t', moves, clock, thread⟩ : (w.state.thread c).wake ≤ w.state.clock ∧
      ∃ a t', Moves (input c) w.state.clock w.state.sem (w.state.thread c) a t' ∧
        t.state.clock = w.state.clock ∧ t.state.thread = update w.state.thread c t' := by
    obtain ⟨s, ideal, rfl⟩ := Option.map_eq_some_iff.1 run
    obtain ⟨awake, run⟩ := handler_of_step ideal
    obtain ⟨a, t', moves, rfl⟩ := handler_moves run
    exact ⟨awake, a, t', moves, act_set a t'⟩
  have here : t.state.thread c = t' := by rw [thread, update_self]
  split at rest
  · next i pc => exact absurd pc (prompt.first c i)
  · cases rest
    refine ⟨time, fun d i => ?_, prompt.total, fun b => ?_,
      since_other prompt awake busy moves here⟩
    · change (t.state.thread d).pc ≠ .takes i
      rw [thread]
      rcases eq_or_ne d c with rfl | ne
      · rw [update_self]
        cases moves with
        | waitTakes pc free => exact absurd (busy _ pc) (Nat.pos_iff_ne_zero.1 free)
        | _ => simp [sleep, record, goto]
      · rw [update_of_ne ne]
        exact prompt.first d i
    · change _ ≤ t.state.clock
      rw [clock]
      unfold other
      cases (w.state.thread c).pc.posts with
      | none => exact prompt.freed b
      | some i =>
        simp only [update_apply]
        split
        · exact le_rfl
        · exact prompt.freed b

/-- In a run in which every barista is taken in the first loop the total is the documented one, to
which such customers add nothing. -/
theorem average_wait_time_total {ls : List (Option C ⊕ C)} (baristas : 0 < B)
    (valid : ∀ c, (input c).Valid) (run : exec (step input) (init : Till B C) ls = some w)
    (busy : Meets (step input) Busy (init : Till B C) ls) :
    w.averageWaitTime = ∑ c, w.waited input c := by
  have start : Prompt input (init : Till B C) :=
    ⟨init_punctual, by rintro _ _ ⟨⟩, rfl, fun _ => le_rfl, by rintro _ _ ⟨⟩⟩
  have prompt : Prompt input w := by
    refine run_meets_invariant (Prompt input) (fun w l w' prompt busy step => ?_) start busy run
    match l with
    | .inr c =>
      have step : w.load c = some w' := step
      unfold load at step
      split at step
      · next i pc _ => exact absurd pc (prompt.first c i)
      · cases step
    | .inl none => exact tick_prompt valid baristas prompt step
    | .inl (some c) => exact run_prompt valid baristas prompt busy step
  rw [prompt.total, Finset.sum_eq_zero fun c _ => ?_]
  unfold waited
  cases since : w.since c with
  | none => rfl
  | some u =>
    have early := prompt.since c u since
    exact max_eq_left (by omega)

/-- Two customers at once for one barista, which becomes free after three seconds: two are
counted. -/
theorem average_wait_time_short :
    ((exec (step fun _ => ⟨0, 9, 2⟩) (init : Till 1 (Fin 2))
      [.inl (some 0), .inl (some 0), .inl (some 1), .inl (some 1), .inl (some 1), .inl (some 1),
        .inl none, .inl (some 0), .inl none, .inl none, .inl (some 0), .inl (some 0),
        .inl (some 1), .inr 1, .inl (some 1), .inl none, .inl (some 1), .inl none, .inl none,
        .inl (some 1), .inl (some 1)]).any fun w =>
      decide ((∀ c, (w.state.thread c).pc = .done) ∧ w.averageWaitTime = 2 ∧
        ∑ c, w.waited (fun _ => ⟨0, 9, 2⟩) c = 3)) = true := by
  decide +kernel

/-- One barista, who is busy when the second customer comes and while it waits, and free again when
the third one comes. -/
theorem average_wait_time_total_three : ∃ w : Till 1 (Fin 3),
    exec (step ![⟨0, 9, 2⟩, ⟨0, 2, 1⟩, ⟨3, 9, 1⟩]) init
      [.inl (some 0), .inl (some 0), .inl (some 1), .inl (some 1), .inl (some 1), .inl (some 1),
        .inl (some 2), .inl none, .inl (some 0), .inl none, .inl (some 1), .inl (some 1),
        .inl (some 1), .inl (some 1), .inl none, .inl (some 0), .inl (some 0), .inl (some 1),
        .inl (some 2), .inl none, .inl (some 2), .inl none, .inl (some 2), .inl (some 2)] = some w ∧
    (∀ c, (w.state.thread c).pc = .done) ∧ w.since 2 = some 3 ∧
    w.averageWaitTime = ∑ c, w.waited ![⟨0, 9, 2⟩, ⟨0, 2, 1⟩, ⟨3, 9, 1⟩] c := by
  refine exists_exec (fun w => (∀ c, (w.state.thread c).pc = .done) ∧ w.since 2 = some 3)
    (by decide +kernel) fun w run ⟨ended, since⟩ =>
      ⟨ended, since, average_wait_time_total (by decide) (fun c => ?_) run (by decide +kernel)⟩
  fin_cases c <;> exact ⟨by decide, by decide, by decide⟩

end Till

end Xv6.Cafe
