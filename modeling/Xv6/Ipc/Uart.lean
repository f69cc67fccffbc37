import Xv6.Lib.RingBuffer
import Xv6.Lib.Transitions

/-!
# The output of the UART

Any number of processes in `uartputc` and of interrupts in `uartintr`.  They share a ring under
`uart_tx_lock`, which a process in `uartputc` gives up only while it sleeps, and `uartstart` runs
in both.  The label of a step says whether the transmit register is idle.

`accepted` and `sent` are the characters that `uartputc` has put into the ring and that
`uartstart` has written to the transmit register, in order.
-/

namespace Xv6.Ipc

open Transitions

def uartTxBufSize : Nat := 32

/-- `uart_tx_w` and `uart_tx_r` are of type `uint64`. -/
def uint64 : Nat := 2 ^ 64

/-- Where a process or an interrupt is. -/
inductive Sends
  | out
  /-- `uartputc`: before `acquire`, at its start or at the end of `sleep`. -/
  | acquire (c : Int) (slept : Bool)
  /-- `uartputc`: at its loop, with the lock. -/
  | loop (c : Int)
  | asleep (c : Int)
  /-- `uartputc`: after a panic, with the lock. -/
  | spins
  /-- `uartintr`: before `acquire`. -/
  | intr
  /-- `uartstart`: at its loop, with the lock. -/
  | start
  /-- `uartstart`: before the write to the transmit register, with the lock. -/
  | write (c : UInt8)
deriving DecidableEq

namespace Sends

/-- `wakeup` of a process in `sleep`. -/
def wake : Sends → Sends
  | .asleep c => .acquire c true
  | a => a

def locks : Sends → Bool
  | .loop _ | .spins | .start | .write _ => true
  | _ => false

/-- The character that `uartstart` has taken out of the ring. -/
def inHand : Sends → List UInt8
  | .write c => [c]
  | _ => []

end Sends

structure Uart (T : Type) where
  /-- `uart_tx_buf`, with `uart_tx_r` as its head and `uart_tx_w` as its tail. -/
  ring : RingBuffer UInt8
  lock : Option T
  panicked : Bool
  pc : T → Sends
  accepted : List UInt8
  sent : List UInt8

inductive Uart.Step (T : Type)
  | putc (t : T) (c : Int)
  | intr (t : T)
  /-- The process goes on; `idle` is what it reads of `LSR`. -/
  | run (t : T) (idle : Bool)
  /-- `kill` of a process in `sleep`. -/
  | kill (t : T)
  | panic

namespace Uart

variable {T : Type} [DecidableEq T]

def goto (s : Uart T) (t : T) (a : Sends) : Uart T := { s with pc := Function.update s.pc t a }

/-- An `int` as a `char`. -/
def char (c : Int) : UInt8 := UInt8.ofNat (c % 256).toNat

/-- A test of the loop of `uartputc`, with what it leads to. -/
def uartputc (s : Uart T) (t : T) (c : Int) : Uart T :=
  if s.ring.tail = (s.ring.head + uartTxBufSize) % uint64 then
    { s.goto t (.asleep c) with lock := none }
  else
    { s.goto t .start with
      ring := s.ring.push uartTxBufSize uint64 (char c), accepted := s.accepted ++ [char c] }

/-- A round of the loop of `uartstart`, up to the write. -/
def uartstart (s : Uart T) (t : T) (idle : Bool) : Uart T :=
  if s.ring.tail = s.ring.head then { s.goto t .out with lock := none }
  else if idle then
    { s with ring := s.ring.pop uint64, pc := fun u => (s.pc u).wake }.goto t
      (.write (s.ring.front uartTxBufSize))
  else { s.goto t .out with lock := none }

def run (s : Uart T) (t : T) (idle : Bool) : Option (Uart T) :=
  match s.pc t with
  | .out | .asleep _ | .spins => none
  | .acquire c slept =>
    if s.lock = none then
      some { s.goto t (if s.panicked ∧ ¬slept then .spins else .loop c) with lock := some t }
    else none
  | .intr => if s.lock = none then some { s.goto t .start with lock := some t } else none
  | .loop c => some (s.uartputc t c)
  | .start => some (s.uartstart t idle)
  | .write c => some { s.goto t .start with sent := s.sent ++ [c] }

def step (s : Uart T) : Step T → Option (Uart T)
  | .putc t c => if s.pc t = .out then some (s.goto t (.acquire c false)) else none
  | .intr t => if s.pc t = .out then some (s.goto t .intr) else none
  | .run t idle => s.run t idle
  | .kill t => some (s.goto t (s.pc t).wake)
  | .panic => some { s with panicked := true }

end Uart

def Uart.boot (T : Type) (data : Nat → UInt8) : Uart T :=
  ⟨⟨data, 0, 0⟩, none, false, fun _ => .out, [], []⟩

namespace Uart

variable {T : Type} {s s' : Uart T} {t u : T} {a : Sends} {q : List UInt8}

/-- The character that is neither in the ring nor at the transmit register. -/
def inHand (s : Uart T) : List UInt8 :=
  match s.lock with
  | some t => (s.pc t).inHand
  | none => []

structure Inv (s : Uart T) : Prop where
  lock : ∀ t, (s.pc t).locks = true ↔ s.lock = some t
  queue : ∃ q, s.ring.Holds uartTxBufSize uint64 q ∧ s.accepted = s.sent ++ s.inHand ++ q

theorem Inv.boot (data : Nat → UInt8) : (boot T data).Inv :=
  ⟨fun _ => ⟨by rintro ⟨⟩, by rintro ⟨⟩⟩, [], .nil (by decide), rfl⟩

theorem Sends.inHand_of_locks (out : a.locks = false) : a.inHand = [] := by
  cases a <;> first | rfl | cases out

/-- Nobody else has a character in hand when a process has the lock, or may take it. -/
theorem inHand_eq (lock : (s.pc t).locks = true ↔ s.lock = some t)
    (holder : s.lock = none ∨ s.lock = some t) : s.inHand = (s.pc t).inHand := by
  rcases holder with free | mine
  · have out : (s.pc t).locks = false := by simpa [free] using lock
    rw [inHand, free, Sends.inHand_of_locks out]
  · rw [inHand, mine]

/-- A process that has the lock or takes it moves on; the others may be woken. -/
theorem Inv.holder (inv : s.Inv) (before : s.lock = none ∨ s.lock = some t)
    (others : ∀ u, u ≠ t → (s'.pc u).locks = (s.pc u).locks)
    (lock : s'.lock = if (s'.pc t).locks then some t else none)
    (queue : ∀ q, s.ring.Holds uartTxBufSize uint64 q →
      s.accepted = s.sent ++ (s.pc t).inHand ++ q →
      ∃ q', s'.ring.Holds uartTxBufSize uint64 q' ∧
        s'.accepted = s'.sent ++ (s'.pc t).inHand ++ q') : s'.Inv := by
  have mine : (s'.pc t).locks = true ↔ s'.lock = some t := by rw [lock]; split <;> simp_all
  refine ⟨fun u => ?_, ?_⟩
  · by_cases same : u = t
    · rw [same]
      exact mine
    · rw [others u same, inv.lock u, lock]
      rcases before with free | held
      · simp [free, Ne.symm same]
      · simp [held, Ne.symm same]
  · obtain ⟨q, ring, stream⟩ := inv.queue
    rw [inHand_eq (inv.lock t) before] at stream
    rw [inHand_eq mine (by rw [lock]; split <;> simp)]
    exact queue q ring stream

variable [DecidableEq T]

theorem goto_pc : (s.goto t a).pc u = if u = t then a else s.pc u := Function.update_apply ..

theorem others_goto (u : T) (ne : u ≠ t) : ((s.goto t a).pc u).locks = (s.pc u).locks := by
  rw [goto_pc, if_neg ne]

/-- A process without the lock moves on without it. -/
theorem Inv.outside (inv : s.Inv) (before : (s.pc t).locks = false) (after : a.locks = false) :
    (s.goto t a).Inv := by
  have free : s.lock ≠ some t := by rw [Ne, ← inv.lock, before]; decide
  refine ⟨fun u => ?_, ?_⟩
  · rw [goto_pc]
    split_ifs with same
    · rw [same, after]
      exact ⟨by rintro ⟨⟩, fun held => absurd held free⟩
    · exact inv.lock u
  · have same : (s.goto t a).inHand = s.inHand := by
      simp only [inHand, goto]
      split
      · next u held => rw [Function.update_of_ne fun eq => free (by rw [held, eq])]
      · rfl
    rw [same]
    exact inv.queue

/-- `acquire`, when the lock is free. -/
theorem Inv.acquire (inv : s.Inv) (free : s.lock = none) (locks : a.locks = true)
    (empty : a.inHand = []) : Inv { s.goto t a with lock := some t } := by
  have out : (s.pc t).locks = false := by simpa [free] using inv.lock t
  refine inv.holder (t := t) (.inl free) others_goto ?_ fun q ring stream => ⟨q, ring, ?_⟩
  · simp [goto, locks]
  · simpa [goto, Sends.inHand_of_locks out, empty] using stream

/-- `release` by the process that has the lock. -/
theorem Inv.release (inv : s.Inv) (locks : (s.pc t).locks = true) (empty : (s.pc t).inHand = [])
    (out : a.locks = false) : Inv { s.goto t a with lock := none } := by
  refine inv.holder (t := t) (.inr ((inv.lock t).1 locks)) others_goto ?_
    fun q ring stream => ⟨q, ring, ?_⟩
  · simp [goto, out]
  · simpa [goto, Sends.inHand_of_locks out, empty] using stream

theorem Inv.uartputc {c : Int} (inv : s.Inv) (here : s.pc t = .loop c) : (s.uartputc t c).Inv := by
  unfold Uart.uartputc
  split_ifs with full
  · exact inv.release (by rw [here]; rfl) (by rw [here]; rfl) rfl
  · have mine := (inv.lock t).1 (by rw [here]; rfl)
    refine inv.holder (t := t) (.inr mine) others_goto ?_ fun q ring stream => ?_
    · simpa [goto, Sends.locks] using mine
    · have room : q.length < uartTxBufSize :=
        lt_of_le_of_ne ring.size (mt (ring.full_iff (by decide)).2 full)
      refine ⟨_, ring.push (by decide) room, ?_⟩
      simp only [here, Sends.inHand, List.append_nil] at stream
      simp [goto, Sends.inHand, stream]

theorem wake_locks (a : Sends) : a.wake.locks = a.locks := by
  cases a <;> rfl

theorem Inv.uartstart {idle : Bool} (inv : s.Inv) (here : s.pc t = .start) :
    (s.uartstart t idle).Inv := by
  have leaves : Inv { s.goto t .out with lock := none } :=
    inv.release (by rw [here]; rfl) (by rw [here]; rfl) rfl
  unfold Uart.uartstart
  split_ifs with empty
  · exact leaves
  · have mine := (inv.lock t).1 (by rw [here]; rfl)
    refine inv.holder (t := t) (.inr mine) (fun u ne => ?_) ?_ fun q ring stream => ?_
    · rw [goto_pc, if_neg ne]
      exact wake_locks _
    · simpa [goto, Sends.locks] using mine
    · cases q with
      | nil => exact absurd ((ring.empty_iff (by decide)).2 rfl).symm empty
      | cons c q =>
        refine ⟨q, ring.pop (by decide), ?_⟩
        rw [here] at stream
        simpa [goto, Sends.inHand, ring.front] using stream
  · exact leaves

theorem Inv.write {c : UInt8} (inv : s.Inv) (here : s.pc t = .write c) :
    Inv { s.goto t .start with sent := s.sent ++ [c] } := by
  have mine := (inv.lock t).1 (by rw [here]; rfl)
  refine inv.holder (t := t) (.inr mine) others_goto ?_ fun q ring stream => ⟨q, ring, ?_⟩
  · simpa [goto, Sends.locks] using mine
  · rw [here] at stream
    simpa [goto, Sends.inHand] using stream

theorem Inv.step {l : Step T} (inv : s.Inv) (taken : s.step l = some s') : s'.Inv := by
  cases l with
  | putc | intr =>
    simp only [Uart.step] at taken
    split_ifs at taken with out
    cases taken
    exact inv.outside (by rw [out]; rfl) rfl
  | kill t =>
    cases taken
    cases place : s.pc t with
    | asleep c => exact inv.outside (by rw [place]; rfl) rfl
    | _ =>
      have same : s.goto t (s.pc t) = s := by simp [goto]
      rw [place] at same
      exact same.symm ▸ inv
  | panic =>
    cases taken
    exact ⟨inv.lock, inv.queue⟩
  | run t idle =>
    simp only [Uart.step, Uart.run] at taken
    split at taken
    case h_1 | h_2 | h_3 => cases taken
    case h_4 c slept here =>
      split_ifs at taken with free
      all_goals
        cases taken
        exact inv.acquire free rfl rfl
    case h_5 here =>
      split_ifs at taken with free
      cases taken
      exact inv.acquire free rfl rfl
    case h_6 c here =>
      cases taken
      exact inv.uartputc here
    case h_7 here =>
      cases taken
      exact inv.uartstart here
    case h_8 c here =>
      cases taken
      exact inv.write here

end Uart

/-- In every run the ring holds at most 32 characters, and the characters written to the transmit
register are the first ones that `uartputc` has accepted, in order and once each; the rest is in
the ring, but for one that a process with the lock has taken out and not yet written. -/
theorem uart_in_order {T : Type} [DecidableEq T] {data : Nat → UInt8} {ls : List (Uart.Step T)}
    {s : Uart T} (run : exec Uart.step (Uart.boot T data) ls = some s) :
    (s.ring.tail + uint64 - s.ring.head) % uint64 ≤ uartTxBufSize ∧
    ∃ q, s.accepted = s.sent ++ s.inHand ++ q ∧ s.ring.Holds uartTxBufSize uint64 q ∧
      (s.lock = none → s.inHand = []) := by
  have inv := run_invariant Uart.Inv (fun _ _ _ inv taken => inv.step taken) (.boot data) run
  obtain ⟨q, ring, stream⟩ := inv.queue
  refine ⟨?_, q, stream, ring, fun free => by rw [Uart.inHand, free]⟩
  rw [ring.length (by decide)]
  exact ring.size

/-- Two characters of one process; an interrupt sends the second one. -/
theorem uart_in_order_two : ∃ s : Uart Bool, exec Uart.step (Uart.boot Bool fun _ => 0)
      [.putc true 104, .run true false, .run true false, .run true true, .run true true,
        .run true false, .putc true 105, .run true false, .run true false, .run true false,
        .intr false, .run false false, .run false true] = some s ∧
    s.accepted = [104, 105] ∧ s.sent = [104] ∧ ∃ q, s.accepted = s.sent ++ s.inHand ++ q := by
  exact exists_exec (fun s => s.accepted = [104, 105] ∧ s.sent = [104]) (by decide +kernel)
    fun s run ⟨accepted, sent⟩ =>
      ⟨accepted, sent, (uart_in_order run).2.imp fun _ queue => queue.1⟩

end Xv6.Ipc
