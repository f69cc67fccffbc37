import Xv6.Lib.RacyCounter
import Xv6.Lib.Transitions

/-!
# The café

`customer_handler`: every customer is a thread, every barista a semaphore.  A customer who has
arrived first tries each barista once, and if all are busy waits for one after the other until
its tolerance is over.  A step of a thread is one call of the library or one access to the shared
counter, with the local code up to the next.  A thread that sleeps has no step before `wake`.

The arrays of `1.h` hold ten baristas (`MAX_BARISTAS`) and a hundred customers (`MAX_CUSTOMERS`);
inputs are taken to keep to that.  Time is in seconds and may pass at any moment; `State.ideal` is
the clock of a machine on which only `sleep` and the semaphores take time.  What a thread prints is
kept as its log.
-/

namespace Xv6.Cafe

open RacyCounter

/-- What `get_input` reads for a customer. -/
structure Order where
  arrivalTime : Int
  tolerance : Int
  prepTime : Int

/-- What is seen of a customer: calls on semaphores, and the lines printed. -/
inductive Event (B : Nat)
  /-- `sem_trywait` or `sem_timedwait` returned 0. -/
  | took (i : Fin B)
  /-- `sem_post`. -/
  | posted (i : Fin B)
  /-- "Barista begins preparing the order". -/
  | begins (i : Fin B)
  /-- "Customer leaves with their order". -/
  | leavesWith
  /-- "Customer leaves without their order". -/
  | leavesWithout
deriving DecidableEq

/-- Where a customer is in `customer_handler`. -/
inductive Pc (B : Nat)
  | start
  /-- In the first loop, at `sem_trywait` of semaphore `i`. -/
  | tries (i : Nat)
  /-- The first loop after `sleep(1)`. -/
  | ordered (i : Fin B)
  /-- At "leaves without their order" with a barista at work, who needs `rest` more seconds. -/
  | quits (i : Fin B) (rest : Int)
  /-- Between the load and the store of `wasted_coffee++`. -/
  | wastes (i : Fin B) (rest : Int)
  /-- At `sem_post` before `return NULL`. -/
  | abandoned (i : Fin B)
  /-- At `sem_post` after `served = 1`. -/
  | served (i : Fin B)
  /-- At `clock_gettime`. -/
  | gettime
  /-- In the second loop, at `sem_timedwait` of semaphore `i`. -/
  | waits (i : Nat)
  /-- The second loop after `sem_timedwait`. -/
  | takes (i : Fin B)
  /-- The second loop after `sleep(1)`, for a customer who will not wait long enough. -/
  | delayed (i : Fin B) (delay : Int)
  /-- The second loop after `sleep(1)`, for a customer who will. -/
  | prepares (i : Fin B)
  /-- After the loops, with `served` set. -/
  | departs
  /-- After the loops, at the load of `wasted_coffee++`. -/
  | unserved
  /-- At the store. -/
  | counts
  /-- At the last "leaves without their order". -/
  | goes
  | done
deriving DecidableEq

structure Thread (B : Nat) where
  pc : Pc B
  /-- The end of the last `sleep`. -/
  wake : Nat
  absStartTime : Nat
  /-- `ts`. -/
  deadline : Int
  log : List (Event B)
deriving DecidableEq

structure State (B : Nat) (C : Type) where
  clock : Nat
  sem : Fin B → Nat
  thread : C → Thread B
  wastedCoffee : Counter C 32

/-- `sleep(n)` at a time: the argument is converted to `unsigned`. -/
def sleepUntil (clock : Nat) (n : Int) : Nat := clock + (n % 2 ^ 32).toNat

namespace Thread

variable {B : Nat}

def start : Thread B := ⟨.start, 0, 0, 0, []⟩

def goto (t : Thread B) (pc : Pc B) : Thread B := { t with pc := pc }

/-- `sleep(n)`, and then on to `pc`. -/
def sleep (t : Thread B) (clock : Nat) (n : Int) (pc : Pc B) : Thread B :=
  { t with pc := pc, wake := sleepUntil clock n }

def record (t : Thread B) (e : Event B) : Thread B := { t with log := t.log ++ [e] }

end Thread

namespace State

variable {B : Nat} {C : Type} [DecidableEq C]

/-- `initialize_threads_semaphores` and `pthread_create`. -/
def init : State B C := ⟨0, fun _ => 1, fun _ => Thread.start, Counter.init⟩

def set (s : State B C) (c : C) (t : Thread B) : State B C :=
  { s with thread := Function.update s.thread c t }

def setSem (s : State B C) (i : Fin B) (n : Nat) : State B C :=
  { s with sem := Function.update s.sem i n }

/-- A step of the thread of a customer that is not asleep. -/
def handler (input : C → Order) (s : State B C) (c : C) : Option (State B C) :=
  let t := s.thread c
  let order := input c
  match t.pc with
  | .start =>
    some (s.set c { t.sleep s.clock order.arrivalTime (.tries 0) with absStartTime := s.clock })
  | .tries i =>
    if h : i < B then
      if 0 < s.sem ⟨i, h⟩ then
        some ((s.setSem ⟨i, h⟩ (s.sem ⟨i, h⟩ - 1)).set c
          ((t.record (.took ⟨i, h⟩)).sleep s.clock 1 (.ordered ⟨i, h⟩)))
      else some (s.set c (t.goto (.tries (i + 1))))
    else some (s.set c (t.goto .gettime))
  | .ordered i =>
    if order.tolerance < order.prepTime then
      some (s.set c ((t.record (.begins i)).sleep s.clock order.tolerance
        (.quits i (order.prepTime - order.tolerance))))
    else some (s.set c ((t.record (.begins i)).sleep s.clock order.prepTime (.served i)))
  | .quits i rest =>
    some { s.set c ((t.record .leavesWithout).goto (.wastes i rest)) with
      wastedCoffee := s.wastedCoffee.load c }
  | .wastes i rest =>
    some { s.set c (t.sleep s.clock rest (.abandoned i)) with
      wastedCoffee := s.wastedCoffee.store c }
  | .abandoned i =>
    some ((s.setSem i (s.sem i + 1)).set c ((t.record (.posted i)).goto .done))
  | .served i =>
    some ((s.setSem i (s.sem i + 1)).set c ((t.record (.posted i)).goto .departs))
  | .gettime =>
    some (s.set c { t.goto (.waits 0) with deadline := s.clock + order.tolerance })
  | .waits i =>
    if h : i < B then
      if 0 < s.sem ⟨i, h⟩ then
        some ((s.setSem ⟨i, h⟩ (s.sem ⟨i, h⟩ - 1)).set c
          ((t.record (.took ⟨i, h⟩)).goto (.takes ⟨i, h⟩)))
      else if t.deadline ≤ s.clock then some (s.set c (t.goto (.waits (i + 1))))
      else none
    else some (s.set c (t.goto .unserved))
  | .takes i =>
    let delay : Int := s.clock - t.absStartTime - order.arrivalTime
    if order.tolerance < delay + order.prepTime then
      some (s.set c ((t.record (.begins i)).sleep s.clock 1 (.delayed i delay)))
    else some (s.set c (t.sleep s.clock 1 (.prepares i)))
  | .delayed i delay =>
    some (s.set c (t.sleep s.clock (order.tolerance - delay)
      (.quits i (order.prepTime - order.tolerance + delay - 1))))
  | .prepares i =>
    some (s.set c ((t.record (.begins i)).sleep s.clock order.prepTime (.served i)))
  | .departs => some (s.set c ((t.record .leavesWith).goto .done))
  | .unserved =>
    some { s.set c (t.goto .counts) with wastedCoffee := s.wastedCoffee.load c }
  | .counts =>
    some { s.set c (t.sleep s.clock 1 .goes) with wastedCoffee := s.wastedCoffee.store c }
  | .goes => some (s.set c ((t.record .leavesWithout).goto .done))
  | .done => none

/-- A second passes, or a customer who is not asleep takes a step. -/
def step (input : C → Order) (s : State B C) : Option C → Option (State B C)
  | none => some { s with clock := s.clock + 1 }
  | some c => if (s.thread c).wake ≤ s.clock then s.handler input c else none

end State

/-! ## The steps of the handler -/

variable {B : Nat} {C : Type} [DecidableEq C]

theorem handler_of_step {input : C → Order} {s s' : State B C} {c : C}
    (step : s.step input (some c) = some s') :
    (s.thread c).wake ≤ s.clock ∧ s.handler input c = some s' := by
  simp only [State.step] at step
  split_ifs at step with awake
  exact ⟨awake, step⟩

/-- What a step does outside its thread. -/
inductive Action (B : Nat)
  | quiet
  | take (i : Fin B)
  | post (i : Fin B)
  | load
  | store

def State.act (s : State B C) (c : C) : Action B → State B C
  | .quiet => s
  | .take i => s.setSem i (s.sem i - 1)
  | .post i => s.setSem i (s.sem i + 1)
  | .load => { s with wastedCoffee := s.wastedCoffee.load c }
  | .store => { s with wastedCoffee := s.wastedCoffee.store c }

/-- The steps of a thread at a time, one for each branch of the handler. -/
inductive Moves (order : Order) (clock : Nat) (sem : Fin B → Nat) (t : Thread B) :
    Action B → Thread B → Prop
  | start (pc : t.pc = .start) : Moves order clock sem t .quiet
      { t.sleep clock order.arrivalTime (.tries 0) with absStartTime := clock }
  | tryTakes {i : Fin B} (pc : t.pc = .tries i) (free : 0 < sem i) : Moves order clock sem t
      (.take i) ((t.record (.took i)).sleep clock 1 (.ordered i))
  | tryFails {i : Fin B} (pc : t.pc = .tries i) (busy : sem i = 0) : Moves order clock sem t
      .quiet (t.goto (.tries (i + 1)))
  | tried {i : Nat} (pc : t.pc = .tries i) (all : B ≤ i) : Moves order clock sem t
      .quiet (t.goto .gettime)
  | quits {i : Fin B} (pc : t.pc = .ordered i) (short : order.tolerance < order.prepTime) :
      Moves order clock sem t .quiet ((t.record (.begins i)).sleep clock order.tolerance
        (.quits i (order.prepTime - order.tolerance)))
  | stays {i : Fin B} (pc : t.pc = .ordered i) (long : order.prepTime ≤ order.tolerance) :
      Moves order clock sem t .quiet
        ((t.record (.begins i)).sleep clock order.prepTime (.served i))
  | leaves {i : Fin B} {rest : Int} (pc : t.pc = .quits i rest) : Moves order clock sem t
      .load ((t.record .leavesWithout).goto (.wastes i rest))
  | wastes {i : Fin B} {rest : Int} (pc : t.pc = .wastes i rest) : Moves order clock sem t
      .store (t.sleep clock rest (.abandoned i))
  | abandoned {i : Fin B} (pc : t.pc = .abandoned i) : Moves order clock sem t
      (.post i) ((t.record (.posted i)).goto .done)
  | served {i : Fin B} (pc : t.pc = .served i) : Moves order clock sem t
      (.post i) ((t.record (.posted i)).goto .departs)
  | gettime (pc : t.pc = .gettime) : Moves order clock sem t
      .quiet { t.goto (.waits 0) with deadline := clock + order.tolerance }
  | waitTakes {i : Fin B} (pc : t.pc = .waits i) (free : 0 < sem i) : Moves order clock sem t
      (.take i) ((t.record (.took i)).goto (.takes i))
  | waitFails {i : Fin B} (pc : t.pc = .waits i) (busy : sem i = 0) (late : t.deadline ≤ clock) :
      Moves order clock sem t .quiet (t.goto (.waits (i + 1)))
  | waited {i : Nat} (pc : t.pc = .waits i) (all : B ≤ i) : Moves order clock sem t
      .quiet (t.goto .unserved)
  | hurries {i : Fin B} {delay : Int} (pc : t.pc = .takes i)
      (is : delay = clock - t.absStartTime - order.arrivalTime)
      (short : order.tolerance < delay + order.prepTime) : Moves order clock sem t
      .quiet ((t.record (.begins i)).sleep clock 1 (.delayed i delay))
  | accepts {i : Fin B} (pc : t.pc = .takes i)
      (long : (clock - t.absStartTime - order.arrivalTime : Int) + order.prepTime ≤
        order.tolerance) : Moves order clock sem t .quiet (t.sleep clock 1 (.prepares i))
  | delayed {i : Fin B} {delay : Int} (pc : t.pc = .delayed i delay) : Moves order clock sem t
      .quiet (t.sleep clock (order.tolerance - delay)
        (.quits i (order.prepTime - order.tolerance + delay - 1)))
  | prepares {i : Fin B} (pc : t.pc = .prepares i) : Moves order clock sem t
      .quiet ((t.record (.begins i)).sleep clock order.prepTime (.served i))
  | departs (pc : t.pc = .departs) : Moves order clock sem t
      .quiet ((t.record .leavesWith).goto .done)
  | unserved (pc : t.pc = .unserved) : Moves order clock sem t .load (t.goto .counts)
  | counts (pc : t.pc = .counts) : Moves order clock sem t .store (t.sleep clock 1 .goes)
  | goes (pc : t.pc = .goes) : Moves order clock sem t
      .quiet ((t.record .leavesWithout).goto .done)

theorem handler_moves {input : C → Order} {s s' : State B C} {c : C}
    (run : s.handler input c = some s') :
    ∃ a t', Moves (input c) s.clock s.sem (s.thread c) a t' ∧ s' = (s.act c a).set c t' := by
  have move {a : Action B} {t' : Thread B} (moves : Moves (input c) s.clock s.sem (s.thread c) a t')
      (ends : some ((s.act c a).set c t') = some s') :
      ∃ a t', Moves (input c) s.clock s.sem (s.thread c) a t' ∧ s' = (s.act c a).set c t' :=
    ⟨a, t', moves, (Option.some.inj ends).symm⟩
  unfold State.handler at run
  cases pc : (s.thread c).pc <;> simp only [pc] at run
  case start => exact move (.start pc) run
  case tries i =>
    split_ifs at run with below free
    · exact move (.tryTakes (i := ⟨i, below⟩) pc free) run
    · exact move (.tryFails (i := ⟨i, below⟩) pc (by omega)) run
    · exact move (.tried pc (by omega)) run
  case ordered i =>
    split_ifs at run with short
    · exact move (.quits pc short) run
    · exact move (.stays pc (by omega)) run
  case quits => exact move (.leaves pc) run
  case wastes => exact move (.wastes pc) run
  case abandoned => exact move (.abandoned pc) run
  case served => exact move (.served pc) run
  case gettime => exact move (.gettime pc) run
  case waits i =>
    split_ifs at run with below free late
    · exact move (.waitTakes (i := ⟨i, below⟩) pc free) run
    · exact move (.waitFails (i := ⟨i, below⟩) pc (by omega) late) run
    · exact move (.waited pc (by omega)) run
  case takes i =>
    split_ifs at run with short
    · exact move (.hurries pc rfl short) run
    · exact move (.accepts pc (by omega)) run
  case delayed => exact move (.delayed pc) run
  case prepares => exact move (.prepares pc) run
  case departs => exact move (.departs pc) run
  case unserved => exact move (.unserved pc) run
  case counts => exact move (.counts pc) run
  case goes => exact move (.goes pc) run
  case done => cases run

end Xv6.Cafe
