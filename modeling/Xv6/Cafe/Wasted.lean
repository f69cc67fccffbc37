import Xv6.Cafe.Semaphores

/-!
# Wasted coffee

`wasted_coffee++` stands at each place where a customer leaves without a coffee, also at the last
one, where no barista has begun one; and it takes no lock, so that increments are lost when
threads meet.  The count is right when no customer gives up on all baristas and every load is made
while no other thread is between its load and its store.
-/

namespace Xv6.Cafe

open RacyCounter Transitions State Thread Function Finset

variable {B : Nat} {C : Type} [DecidableEq C] {input : C → Order} {s s' : State B C} {c : C}
  {l : Option C} {ls : List (Option C)}

/-- A barista began the order of the customer, who left without it. -/
def Thread.Wasted (t : Thread B) : Prop := (∃ b, .begins b ∈ t.log) ∧ .leavesWithout ∈ t.log

instance (t : Thread B) : Decidable t.Wasted := inferInstanceAs (Decidable (_ ∧ _))

/-- Between the load and the store of `wasted_coffee++`. -/
def Pc.counting : Pc B → Bool
  | .wastes _ _ | .counts => true
  | _ => false

/-- At the load, with a barista at work. -/
def Pc.quitting : Pc B → Bool
  | .quits _ _ => true
  | _ => false

/-- No customer gives up on all baristas, and a load is made while no thread is between its load
and its store. -/
def Tallies (s : State B C) (l : Option C) : Prop :=
  ∀ c, l = some c → (s.thread c).pc ≠ .unserved ∧
    ((s.thread c).pc.quitting = true → ∀ d, (s.thread d).pc.counting = false)

instance [Fintype C] : Decidable (Tallies s l) := by
  unfold Tallies
  infer_instance

/-- One for a coffee that is wasted and counted. -/
def tally (t : Thread B) : Nat := if t.Wasted ∧ t.pc.counting = false then 1 else 0

/-- What a step of the handler does to the counter. -/
inductive Tallied (s s' : State B C) (c : C) (t' : Thread B) : Prop
  | load (before : (s.thread c).pc.quitting = true) (after : t'.pc.counting = true)
      (counter : s'.wastedCoffee = s.wastedCoffee.load c) (same : tally t' = tally (s.thread c))
  | store (before : (s.thread c).pc.counting = true) (after : t'.pc.counting = false)
      (counter : s'.wastedCoffee = s.wastedCoffee.store c)
      (more : tally t' = tally (s.thread c) + 1)
  | other (before : (s.thread c).pc.counting = false) (after : t'.pc.counting = false)
      (counter : s'.wastedCoffee = s.wastedCoffee) (same : tally t' = tally (s.thread c))

theorem handler_tallied (logged : (s.thread c).Logged) (served : (s.thread c).pc ≠ .unserved)
    (counts : (s.thread c).pc ≠ .counts) (run : s.handler input c = some s') :
    ∃ t', s'.thread = update s.thread c t' ∧ t'.pc ≠ .counts ∧
      Tallied s s' c t' := by
  obtain ⟨a, t', moves, rfl⟩ := handler_moves run
  refine ⟨t', (act_set a t').2, ?_⟩
  unfold Logged at logged
  cases moves with
  | unserved pc => exact absurd pc served
  | counts pc => exact absurd pc counts
  | leaves pc =>
    rw [pc] at logged
    refine ⟨by simp [goto], .load (by rw [pc]; rfl) rfl rfl ?_⟩
    simp_all [tally, Wasted, goto, record, Pc.counting, Pc.Logged]
  | wastes pc =>
    rw [pc] at logged
    refine ⟨by simp [sleep], .store (by rw [pc]; rfl) rfl rfl ?_⟩
    simp_all [tally, Wasted, sleep, Pc.counting, Pc.Logged]
  | _ pc =>
    rw [pc] at logged
    refine ⟨by simp [sleep, goto], .other (by rw [pc]; rfl) rfl rfl ?_⟩
    simp_all [tally, Wasted, goto, sleep, record, Pc.counting, Pc.Logged]

section runs

variable [Fintype C]

/-- The counter has the number of coffees wasted and counted. -/
structure Tally (s : State B C) : Prop where
  counts : ∀ c, (s.thread c).pc ≠ .counts
  alone : s.wastedCoffee.Alone
  loaded : ∀ c, (s.wastedCoffee.loaded c).isSome = (s.thread c).pc.counting
  value : s.wastedCoffee.value = BitVec.ofNat 32 (∑ c, tally (s.thread c))

omit [DecidableEq C] in
theorem init_tally : Tally (init : State B C) where
  counts c := by simp [init, start]
  alone := Counter.Quiet.alone fun _ => rfl
  loaded c := rfl
  value := by
    have none : ∑ c : C, tally ((init : State B C).thread c) = 0 :=
      sum_eq_zero fun c _ => by simp [tally, init, start, Wasted]
    rw [none]
    rfl

theorem sum_tally {t' : Thread B} (thread : s'.thread = update s.thread c t') :
    ∑ d, tally (s'.thread d) + tally (s.thread c) = ∑ d, tally (s.thread d) + tally t' := by
  have change := Ownership.sum_change (f := fun d => tally (s.thread d))
    (g := fun d => tally (s'.thread d)) (mem_univ c) fun d _ ne => by
      rw [thread, update_of_ne ne]
  have here : s'.thread c = t' := by rw [thread, update_self]
  rw [here] at change
  exact change

theorem handler_tally (inv : Inv s) (count : Tally s) (tallies : Tallies s (some c))
    (run : s.handler input c = some s') : Tally s' := by
  obtain ⟨served, apart⟩ := tallies c rfl
  obtain ⟨t', thread, counts, tallied⟩ :=
    handler_tallied (inv.logged c) served (count.counts c) run
  have here : s'.thread c = t' := by rw [thread, update_self]
  have there (d : C) (ne : d ≠ c) : s'.thread d = s.thread d := by
    rw [thread, update_of_ne ne]
  have sum := sum_tally thread
  have counts' (d : C) : (s'.thread d).pc ≠ .counts := by
    rcases eq_or_ne d c with rfl | ne
    · rwa [here]
    · rw [there d ne]
      exact count.counts d
  cases tallied with
  | load before after counter same =>
    have quiet : s.wastedCoffee.Quiet := fun d => by
      have none := count.loaded d
      rw [apart before d] at none
      simpa using none
    refine ⟨counts', ?_, fun d => ?_, ?_⟩
    · rw [counter]
      exact Counter.load_alone quiet
    · rw [counter]
      rcases eq_or_ne d c with rfl | ne
      · rw [Counter.load_loaded, here, after]
        rfl
      · rw [Counter.load_loaded_ne ne, there d ne, count.loaded d]
    · rw [counter]
      change s.wastedCoffee.value = _
      rw [count.value]
      congr 1
      omega
  | store before after counter more =>
    obtain ⟨v, has⟩ := Option.isSome_iff_exists.1 ((count.loaded c).trans before)
    have quiet := Counter.store_quiet count.alone has
    refine ⟨counts', ?_, fun d => ?_, ?_⟩
    · rw [counter]
      exact quiet.alone
    · rw [counter, quiet d]
      rcases eq_or_ne d c with rfl | ne
      · rw [here, after]
        rfl
      · rw [there d ne, ← count.loaded d, (count.alone c v has).2 d ne]
    · have next : ∑ d, tally (s'.thread d) = ∑ d, tally (s.thread d) + 1 := by omega
      rw [counter, Counter.store_value count.alone has, next, BitVec.ofNat_add, count.value]
      rfl
  | other before after counter same =>
    refine ⟨counts', ?_, fun d => ?_, ?_⟩
    · rw [counter]
      exact count.alone
    · rw [counter, count.loaded d]
      rcases eq_or_ne d c with rfl | ne
      · rw [here, before, after]
      · rw [there d ne]
    · rw [counter, count.value]
      congr 1
      omega

theorem step_tally (inv : Inv s) (count : Tally s) (tallies : Tallies s l)
    (step : s.step input l = some s') : Tally s' := by
  cases l with
  | none =>
    cases step
    exact ⟨count.counts, count.alone, count.loaded, count.value⟩
  | some c =>
    exact handler_tally inv count tallies (handler_of_step step).2

/-- If no customer gives up on all baristas and no two threads update the counter at once, it ends
as the number of coffees that were made and not taken. -/
theorem wasted_coffee_count (run : exec (State.step input) (State.init : State B C) ls = some s)
    (tallies : Meets (State.step input) Tallies (State.init : State B C) ls)
    (ended : ∀ c, (s.thread c).pc = .done) :
    s.wastedCoffee.value =
      BitVec.ofNat 32 (univ.filter fun c => (s.thread c).Wasted).card := by
  have invs : Inv s ∧ Tally s :=
    run_meets_invariant (fun s => Inv s ∧ Tally s) (fun s l s' invs tallies step =>
        ⟨step_inv invs.1 step, step_tally invs.1 invs.2 tallies step⟩)
      ⟨init_inv, init_tally⟩ tallies run
  rw [invs.2.value, card_filter]
  congr 1
  refine sum_congr rfl fun c _ => ?_
  rw [tally, ended c]
  simp [Pc.counting]

end runs

/-- Two customers leave their coffees to two baristas, one after the other. -/
theorem wasted_coffee_count_two : ∃ s : State 2 (Fin 2),
    exec (State.step fun _ => ⟨0, 1, 2⟩) State.init
      [some 0, some 0, some 1, some 1, some 1, none, some 0, some 1, none, some 0, some 0, some 1,
        some 1, none, some 0, some 1] = some s ∧ (∀ c, (s.thread c).pc = .done) ∧
    s.wastedCoffee.value =
      BitVec.ofNat 32 (univ.filter fun c => (s.thread c).Wasted).card := by
  exact exists_exec (fun s => ∀ c, (s.thread c).pc = .done) (by decide +kernel)
    fun s run ended => ⟨ended, wasted_coffee_count run (by decide +kernel) ended⟩

/-- One barista, and a second customer who leaves before it is free: one coffee is counted, and
none was begun in vain. -/
theorem wasted_coffee_unserved : ∃ s : State 1 (Fin 2),
    exec (State.step ![⟨0, 3, 3⟩, ⟨0, 1, 3⟩]) State.init
      [some 0, some 0, some 1, some 1, some 1, some 1, none, some 0, some 1, some 1, some 1,
        some 1, none, some 1, none, none, some 0, some 0] = some s ∧
    (∀ c, (s.thread c).pc = .done) ∧ (∀ c, ¬(s.thread c).Wasted) ∧ s.wastedCoffee.value = 1 := by
  exact exists_exec _ (by decide +kernel) fun _ _ => id

end Xv6.Cafe
