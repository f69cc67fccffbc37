import Xv6.Cafe.Semaphores

/-!
# Waiting for one barista while another is free

The clock is ideal: a second passes only when no thread has a step.  After the first loop a
customer waits for the first barista alone until its tolerance is over, and only then looks at
the others.  So a barista that is returned is noticed by the customers that still have to look at
it, and by no other.
-/

namespace Xv6.Cafe

open Transitions State Thread Function

variable {B : Nat} {C : Type} [DecidableEq C] {input : C → Order} {s s' : State B C}
  {c : C} {b : Fin B} {l : Option C} {ls : List (Option C)}

/-- No thread has a step before the next second. -/
def State.Quiet (input : C → Order) (s : State B C) : Prop := ∀ c, s.step input (some c) = none

instance [Fintype C] : Decidable (s.Quiet input) :=
  decidable_of_iff (∀ c, (s.step input (some c)).isNone = true) (by
    simp only [Option.isNone_iff_eq_none, Quiet])

/-- The machine on which only `sleep` and the semaphores take time. -/
def State.ideal [Fintype C] (input : C → Order) (s : State B C) : Option C → Option (State B C)
  | none => if s.Quiet input then s.step input none else none
  | some c => s.step input (some c)

/-- When the customer arrives. -/
def Order.arrival (order : Order) : Nat := sleepUntil 0 order.arrivalTime

/-- The customer has arrived, its tolerance is not over, and it has no barista. -/
def State.Waiting (input : C → Order) (s : State B C) (c : C) : Prop :=
  (input c).arrival ≤ s.clock ∧ s.clock ≤ (input c).arrival + (input c).tolerance ∧
    ∀ b, .took b ∉ (s.thread c).log

instance : Decidable (s.Waiting input c) := inferInstanceAs (Decidable (_ ∧ _ ∧ _))

/-- The thread looks at the barista before the next second, if no barista before is free. -/
def Thread.Looks (t : Thread B) (order : Order) (clock : Nat) (b : Fin B) : Prop :=
  match t.pc with
  | .start => True
  | .tries i => i ≤ b ∨ b.val = 0 ∨ order.tolerance ≤ 0
  | .gettime => b.val = 0 ∨ order.tolerance ≤ 0
  | .waits i => i = b ∨ i ≤ b ∧ t.deadline ≤ clock
  | _ => False

instance (t : Thread B) (order : Order) (clock : Nat) : Decidable (t.Looks order clock b) := by
  unfold Looks
  split <;> infer_instance

/-- The barista that a thread returns in its next step. -/
def Pc.posts : Pc B → Option (Fin B)
  | .abandoned i | .served i => some i
  | _ => none

/-- A barista is returned while every waiting customer still looks at it. -/
def Noticed (input : C → Order) (s : State B C) (l : Option C) : Prop :=
  ∀ d, l = some d → ∀ b, (s.thread d).pc.posts = some b →
    ∀ c, s.Waiting input c → (s.thread c).Looks (input c) s.clock b

instance [Fintype C] : Decidable (Noticed input s l) := by
  unfold Noticed
  infer_instance

/-- On the ideal clock a customer looks for a barista in the second of its arrival. -/
def Thread.OnTime (t : Thread B) (order : Order) (clock : Nat) : Prop :=
  match t.pc with
  | .start => clock = 0 ∧ t.wake = 0
  | .tries i => t.wake = order.arrival ∧ clock ≤ order.arrival ∧ (i = 0 ∨ clock = order.arrival)
  | .gettime => t.wake = order.arrival ∧ clock = order.arrival
  | .waits _ => t.wake ≤ clock ∧ order.arrival ≤ clock
  | _ => order.arrival ≤ clock

/-- While a customer waits, it looks at every free barista before the next second. -/
structure Watched (input : C → Order) (s : State B C) (c : C) : Prop where
  onTime : (s.thread c).OnTime (input c) s.clock
  looks : s.Waiting input c → ∀ b, 0 < s.sem b → (s.thread c).Looks (input c) s.clock b

/-! ## A second passes -/

/-- A thread that looks at a free barista has a step. -/
theorem looks_moves (onTime : (s.thread c).OnTime (input c) s.clock)
    (arrived : (input c).arrival ≤ s.clock) (free : 0 < s.sem b)
    (looks : (s.thread c).Looks (input c) s.clock b) : (s.step input (some c)).isSome := by
  unfold Looks at looks
  unfold OnTime at onTime
  refine awake_moves input ?_ (fun pc => ?_) fun i pc busy => ?_
  · cases pc : (s.thread c).pc <;> simp only [pc] at looks onTime <;> omega
  · simp only [pc] at looks
  · -- it waits here, so the free barista is not this one
    simp only [pc] at looks
    rcases looks with here | ⟨-, passed⟩
    · rw [Fin.ext here] at busy
      omega
    · exact passed

/-- When no thread has a step, no barista is free while a customer waits. -/
theorem quiet_busy (watched : Watched input s c) (quiet : s.Quiet input)
    (waiting : s.Waiting input c) : s.sem b = 0 := by
  by_contra free
  have free : 0 < s.sem b := Nat.pos_of_ne_zero free
  have moves := looks_moves watched.onTime waiting.1 free (watched.looks waiting b free)
  rw [quiet c] at moves
  cases moves

theorem quiet_asleep (quiet : s.Quiet input) (alive : (s.thread c).pc ≠ .done)
    (unblocked : ∀ i, (s.thread c).pc ≠ .waits i) : s.clock < (s.thread c).wake := by
  by_contra awake
  have moves := awake_moves input (Nat.le_of_not_lt awake) alive fun i pc => absurd pc (unblocked i)
  rw [quiet c] at moves
  cases moves

theorem tick_onTime (onTime : (s.thread c).OnTime (input c) s.clock) (quiet : s.Quiet input) :
    (s.thread c).OnTime (input c) (s.clock + 1) := by
  unfold OnTime at onTime ⊢
  cases pc : (s.thread c).pc with
  | start | tries i | gettime =>
    have := quiet_asleep (c := c) quiet (by simp [pc]) (by simp [pc])
    simp only [pc] at onTime ⊢
    omega
  | _ =>
    simp only [pc] at onTime ⊢
    omega

theorem tick_watched (watched : Watched input s c)
    (quiet : s.Quiet input) : Watched input { s with clock := s.clock + 1 } c where
  onTime := tick_onTime watched.onTime quiet
  looks waiting b free := by
    obtain ⟨arrived, tolerates, unassigned⟩ := waiting
    change (input c).arrival ≤ s.clock + 1 at arrived
    change ((s.clock + 1 : Nat) : Int) ≤ _ at tolerates
    rcases Nat.lt_or_ge s.clock (input c).arrival with before | since
    · -- it arrives with this second, and is about to try the first barista
      have onTime := watched.onTime
      unfold OnTime at onTime
      unfold Looks
      cases pc : (s.thread c).pc with
      | start => trivial
      | tries i =>
        rw [pc] at onTime
        obtain ⟨wake, -, first | now⟩ := onTime
        · subst first
          exact .inl (Nat.zero_le _)
        · omega
      | _ =>
        rw [pc] at onTime
        simp only at onTime
        omega
    · have busy := quiet_busy (b := b) watched quiet ⟨since, by omega, unassigned⟩
      exact absurd free (by simp [busy])

/-! ## A thread takes a step -/

/-- Only a thread about to post makes a barista free. -/
theorem handler_sem (run : s.handler input c = some s') (free : 0 < s'.sem b) :
    0 < s.sem b ∨ (s.thread c).pc.posts = some b := by
  obtain ⟨a, t', moves, rfl⟩ := handler_moves run
  cases moves with
  | abandoned pc | served pc =>
    simp only [State.act, State.set, State.setSem, update_apply] at free
    split at free
    · next here => exact .inr (by rw [pc, here]; rfl)
    · exact .inl free
  | tryTakes pc taken | waitTakes pc taken =>
    simp only [State.act, State.set, State.setSem, update_apply] at free
    split at free
    · next here => exact .inl (here ▸ taken)
    · exact .inl free
  | _ => exact .inl free

theorem handler_onTime (awake : (s.thread c).wake ≤ s.clock)
    (onTime : (s.thread c).OnTime (input c) s.clock) (run : s.handler input c = some s') :
    (s'.thread c).OnTime (input c) s'.clock := by
  obtain ⟨a, t', moves, rfl⟩ := handler_moves run
  rw [(act_set a t').1, (act_set a t').2, update_self]
  unfold OnTime at onTime ⊢
  cases moves with
  | start pc =>
    simp only [pc] at onTime
    simp [sleep, Order.arrival, onTime.1]
  | _ pc =>
    simp only [pc] at onTime
    simp only [sleep, goto, record]
    omega

/-- A thread that passes a barista by has found it busy. -/
theorem handler_looks (logged : (s.thread c).Logged)
    (looks : s.Waiting input c → ∀ b, 0 < s.sem b → (s.thread c).Looks (input c) s.clock b)
    (run : s.handler input c = some s') (waiting : s'.Waiting input c) (free : 0 < s'.sem b) :
    (s'.thread c).Looks (input c) s'.clock b := by
  obtain ⟨t', handled⟩ := handler_handled run
  have before : s.Waiting input c :=
    ⟨by rw [← handled.clock]; exact waiting.1, by rw [← handled.clock]; exact waiting.2.1,
      fun b took => waiting.2.2 b ((handled.log_grows c).subset took)⟩
  have held (i : Fin B) (holds : (s.thread c).pc.holds = some i) : False :=
    before.2.2 i ((serves_iff logged).2 holds).1
  obtain ⟨a, t', moves, rfl⟩ := handler_moves run
  have := b.isLt
  rw [Waiting, (act_set a t').2, update_self] at waiting
  rw [(act_set a t').1, (act_set a t').2, update_self]
  have passed (quiet : (s.act c a).sem = s.sem) := looks before b (by rw [← quiet]; exact free)
  unfold Looks at passed ⊢
  cases moves with
  | start pc => exact .inl (Nat.zero_le _)
  | @tryTakes i pc taken | @waitTakes i pc taken =>
    exact absurd (waiting.2.2 i) (by simp [sleep, goto, record])
  | @tryFails i pc busy | @waitFails i pc busy =>
    have passed := passed rfl
    have other : b ≠ i := by
      rintro rfl
      exact absurd free (by simp [State.act, State.set, busy])
    simp only [pc] at passed
    simp only [goto]
    omega
  | tried pc | gettime pc | waited pc =>
    have passed := passed rfl
    simp only [pc] at passed
    simp only [goto]
    omega
  | unserved pc | counts pc | goes pc =>
    have passed := passed rfl
    simp only [pc] at passed
  | departs pc =>
    rw [Logged, pc] at logged
    obtain ⟨i, log⟩ := logged
    exact absurd (before.2.2 i) (by simp [log])
  | _ pc => exact (held _ (by rw [pc]; rfl)).elim

theorem handler_watched {d : C} (awake : (s.thread d).wake ≤ s.clock)
    (logged : (s.thread c).Logged) (noticed : Noticed input s (some d))
    (run : s.handler input d = some s') (watched : Watched input s c) : Watched input s' c := by
  rcases eq_or_ne c d with rfl | ne
  · exact ⟨handler_onTime awake watched.onTime run,
      fun waiting b free => handler_looks logged watched.looks run waiting free⟩
  · obtain ⟨t', handled⟩ := handler_handled run
    have same : s'.thread c = s.thread c := by rw [handled.thread, update_of_ne ne]
    refine ⟨by rw [same, handled.clock]; exact watched.onTime, fun waiting b free => ?_⟩
    have before : s.Waiting input c := by
      unfold Waiting at waiting
      rwa [same, handled.clock] at waiting
    rw [same, handled.clock]
    rcases handler_sem run free with already | posts
    · exact watched.looks before b already
    · exact noticed d rfl b posts c before

/-! ## Runs -/

omit [DecidableEq C] in
theorem init_watched : Watched input (init : State B C) c where
  onTime := ⟨rfl, rfl⟩
  looks _ _ _ := trivial

variable [Fintype C]

theorem ideal_step (step : s.ideal input l = some s') : s.step input l = some s' := by
  cases l with
  | none =>
    unfold ideal at step
    simp only at step
    split_ifs at step
    exact step
  | some c => exact step

theorem ideal_watched (inv : Inv s) (watched : ∀ c, Watched input s c) (noticed : Noticed input s l)
    (step : s.ideal input l = some s') (c : C) : Watched input s' c := by
  cases l with
  | none =>
    unfold ideal at step
    simp only at step
    split_ifs at step with quiet
    cases step
    exact tick_watched (watched c) quiet
  | some d =>
    obtain ⟨awake, run⟩ := handler_of_step step
    exact handler_watched awake (inv.logged c) noticed run (watched c)

/-- If every barista is given back while all waiting customers still look at it, then no barista is
idle while a customer waits. -/
theorem no_barista_idle (run : exec (State.ideal input) (State.init : State B C) ls = some s)
    (noticed : Meets (State.ideal input) (Noticed input) (State.init : State B C) ls)
    (quiet : s.Quiet input)
    (waiting : s.Waiting input c) : ∀ b, s.sem b = 0 := by
  have invs : Inv s ∧ ∀ c, Watched input s c :=
    run_meets_invariant (fun s => Inv s ∧ ∀ c, Watched input s c) (fun s l s' invs noticed step =>
        ⟨step_inv invs.1 (ideal_step step), ideal_watched invs.1 invs.2 noticed step⟩)
      ⟨init_inv, fun c => init_watched⟩ noticed run
  exact fun b => quiet_busy (invs.2 c) quiet waiting

/-- Three customers at once for one barista: when the first is served the second takes the
barista, and the third goes on waiting. -/
theorem no_barista_idle_three : ∃ s : State 1 (Fin 3),
    exec (State.ideal fun _ => ⟨0, 9, 2⟩) State.init
      [some 0, some 0, some 1, some 1, some 1, some 1, some 2, some 2, some 2, some 2, none,
        some 0, none, none, some 0, some 0, some 1, some 1] = some s ∧
    .posted 0 ∈ (s.thread 0).log ∧ s.Waiting (fun _ => ⟨0, 9, 2⟩) 2 ∧ ∀ b, s.sem b = 0 := by
  exact exists_exec (fun s => .posted 0 ∈ (s.thread 0).log ∧ s.Waiting (fun _ => ⟨0, 9, 2⟩) 2 ∧
    s.Quiet fun _ => ⟨0, 9, 2⟩) (by decide +kernel) fun s run ⟨posted, waiting, quiet⟩ =>
      ⟨posted, waiting, no_barista_idle run (by decide +kernel) quiet waiting⟩

/-- The customers of `1.input`. -/
def sample : Fin 3 → Order
  | 0 => ⟨0, 15, 10⟩
  | 1 => ⟨3, 6, 3⟩
  | 2 => ⟨3, 5, 3⟩

/-- After seven seconds of the sample the second barista is free, and the third customer waits for
the first one. -/
theorem barista_idle_sample :
    ((exec (State.ideal sample) (State.init : State 2 (Fin 3))
      [some 0, some 0, some 1, some 2, none, some 0, none, none, some 1, some 1, some 2, some 2,
        some 2, some 2, none, some 1, none, none, none, some 1, some 1]).any fun s =>
      decide (s.clock = 7 ∧ s.Quiet sample ∧ s.Waiting sample 2 ∧ (s.thread 2).pc = .waits 0 ∧
        s.sem 1 = 1)) = true := by
  decide +kernel

end Xv6.Cafe
