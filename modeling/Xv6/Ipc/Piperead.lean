import Xv6.CopyoutBytes
import Xv6.Ipc.Pipe

/-!
# Reading from a pipe into user memory

One call of `piperead` with the real `copyout` behind it.  From the test of its first loop on
the call holds the lock of the pipe, so that what it takes from the ring and what it delivers
is a function of the pipe and of memory at that time.

The loop takes a byte from the ring before it copies it out.  A byte that cannot be copied out
is lost: the call is exact when and only when the bytes it is going to take can all be
delivered.
-/

namespace Xv6.Ipc

open Fallible Nat

/-- The second loop of `piperead`, with `left` rounds to go from the `i`-th on. -/
def pipereadLoop (id : SpaceId) (addr : Nat) :
    Nat → RingBuffer UInt8 → Recorded → Nat → Except String (RingBuffer UInt8 × Recorded × Nat)
  | 0, ring, u, i => .ok (ring, u, i)
  | left + 1, ring, u, i =>
    if ring.head = ring.tail then .ok (ring, u, i)
    else do
      let ch := ring.front pipesize
      let ring := ring.pop uint
      let (u, r) ← u.copyout id ((addr + i) % 2 ^ 64) [ch]
      if r = -1 then .ok (ring, u, i) else pipereadLoop id addr left ring u (i + 1)

/-- `piperead`, from a test of its first loop on; no result if the process has to sleep. -/
def piperead (ring : RingBuffer UInt8) (writeopen killed : Bool) (u : Recorded) (id : SpaceId)
    (addr : Nat) (n : Int) : Except String (RingBuffer UInt8 × Recorded × Option Int) :=
  if ring.head = ring.tail ∧ writeopen then
    .ok (ring, u, if killed then some (-1) else none)
  else do
    let (ring, u, i) ← pipereadLoop id addr n.toNat ring u 0
    .ok (ring, u, some i)

/-- The number of bytes taken from a ring: how far `nread` has moved. -/
def removed (ring ring' : RingBuffer UInt8) : Nat := (ring'.head + uint - ring.head) % uint

/-- The call has taken as many bytes as it returns, and none if it fails or sleeps. -/
def ReadExact (ring ring' : RingBuffer UInt8) : Option Int → Prop
  | none => removed ring ring' = 0
  | some r => (removed ring ring' : Int) = if r = -1 then 0 else r

variable {ring ring' : RingBuffer UInt8} {q : List UInt8} {u : Recorded} {id : SpaceId} {sp : Space}
  {addr i left : Nat}

theorem removed_of_head {c : Nat} (inside : ring.head < uint) (few : c < uint)
    (moved : ring'.head = (ring.head + c) % uint) : removed ring ring' = c := by
  unfold removed
  rw [moved]
  exact RingBuffer.distance inside few

/-- The loop copies out the bytes of the ring, up to the first one that fails and that is taken
nevertheless. -/
theorem pipereadLoop_spec (left : Nat) (holds : ring.Holds pipesize uint q) (inv : u.machine.Inv)
    (space : u.machine.space id = some sp) (small : addr + i < 2 ^ 64) :
    ∃ ring' u' c j m' r, pipereadLoop id addr left ring u i = .ok (ring', u', i + j) ∧
      u.machine.copyout id (addr + i) (q.take left) = .ok (m', r) ∧
      ring'.head = (ring.head + c) % uint ∧ c ≤ q.length ∧
      (r = 0 ∧ c = j ∨ r = -1 ∧ c = j + 1) := by
  induction left generalizing ring u q i sp with
  | zero =>
    refine ⟨ring, u, 0, 0, _, 0, rfl, Machine.copyout_nil space _, ?_, zero_le _,
      .inl ⟨rfl, rfl⟩⟩
    rw [add_zero, mod_eq_of_lt holds.head]
  | succ left ih =>
    unfold pipereadLoop
    have emptyIff := holds.empty_iff (show pipesize < uint by decide)
    cases q with
    | nil =>
      rw [if_pos (emptyIff.2 rfl)]
      refine ⟨ring, u, 0, 0, _, 0, rfl, Machine.copyout_nil space _, ?_, zero_le _,
        .inl ⟨rfl, rfl⟩⟩
      rw [add_zero, mod_eq_of_lt holds.head]
    | cons ch q =>
      have some : ¬ ring.head = ring.tail := by
        intro empty
        cases emptyIff.1 empty
      have popped := holds.pop (show pipesize ∣ uint by decide)
      rw [if_neg some, holds.front, mod_eq_of_lt small]
      obtain ⟨u₁, r, n, sp₁, recorded, copied, inv₁, space₁, -, -, -, -, ended, below⟩ :=
        Recorded.copyout_spec (addr + i) [ch] inv space
      rw [List.take_succ_cons, Machine.copyout_cons space, copied]
      simp only [recorded, bind, Except.bind]
      rcases ended with ⟨rfl, all⟩ | rfl
      · -- the byte is delivered, and so is what follows up to the next failure
        rw [if_neg (by decide), if_neg (by decide)]
        have below := below 0 (by rw [all]; exact one_pos)
        have next : addr + (i + 1) < 2 ^ 64 := by
          simp only [maxva] at below
          omega
        obtain ⟨ring', u', c, j, m', r, loop, rest, moved, few, result⟩ :=
          ih popped inv₁ space₁ next
        refine ⟨ring', u', c + 1, j + 1, m', r, ?_, rest, ?_, by rw [List.length_cons]; omega, ?_⟩
        · rw [loop, add_assoc, add_comm 1 j]
        · rw [moved]
          change ((ring.head + 1) % uint + c) % uint = _
          rw [mod_add_mod]
          congr 1
          omega
        · rcases result with ⟨zero, same⟩ | ⟨minus, more⟩
          · exact .inl ⟨zero, by omega⟩
          · exact .inr ⟨minus, by omega⟩
      · rw [if_pos rfl, if_pos (by decide)]
        exact ⟨_, u₁, 1, 0, _, -1, rfl, rfl, rfl, by rw [List.length_cons]; omega, .inr ⟨rfl, rfl⟩⟩

/-- A call of `piperead` takes as many bytes as it returns exactly when the bytes that it asks for
and finds can be copied out to its destination. -/
theorem piperead_exact_iff (writeopen killed : Bool) (n : Int) (holds : ring.Holds pipesize uint q)
    (inv : u.machine.Inv) (space : u.machine.space id = some sp) (small : addr < 2 ^ 64) :
    ∃ ring' u' result, piperead ring writeopen killed u id addr n = .ok (ring', u', result) ∧
      (ReadExact ring ring' result ↔
        ∃ m', u.machine.copyout id addr (q.take n.toNat) = .ok (m', 0)) := by
  have emptyIff := holds.empty_iff (show pipesize < uint by decide)
  unfold piperead
  by_cases waits : ring.head = ring.tail ∧ writeopen
  · rw [if_pos waits]
    refine ⟨ring, u, _, rfl, iff_of_true ?_ ⟨u.machine.put id u.machine.kmem (some sp), ?_⟩⟩
    · have none : removed ring ring = 0 := removed_of_head holds.head (by decide)
        (by rw [add_zero, mod_eq_of_lt holds.head])
      cases killed with
      | true => simp [ReadExact, none]
      | false => simp [ReadExact, none]
    · rw [emptyIff.1 waits.1, List.take_nil]
      exact Machine.copyout_nil space _
  · rw [if_neg waits]
    obtain ⟨ring', u', c, j, m', r, loop, whole, moved, few, result⟩ :=
      pipereadLoop_spec n.toNat holds inv space (i := 0) small
    have size := holds.size
    have gone := removed_of_head holds.head
      (lt_of_le_of_lt (few.trans size) (show pipesize < uint by decide)) moved
    rw [zero_add] at loop
    rw [add_zero] at whole
    simp only [loop, whole, bind, Except.bind]
    refine ⟨ring', u', _, rfl, ?_⟩
    have returned : ((j : Nat) : Int) ≠ -1 := by omega
    simp only [ReadExact, gone, if_neg returned]
    rcases result with ⟨rfl, rfl⟩ | ⟨rfl, rfl⟩
    · exact iff_of_true rfl ⟨m', rfl⟩
    · refine iff_of_false (by omega) ?_
      rintro ⟨m₁, same⟩
      cases same

/-- The ring of a pipe with one byte in it. -/
def oneByte : RingBuffer UInt8 := ⟨fun _ => 120, 0, 1⟩

theorem oneByte_holds : oneByte.Holds pipesize uint [120] := by
  refine ⟨by decide, by decide, by decide, fun k bound => ?_⟩
  cases k with
  | zero => rfl
  | succ k => exact absurd bound (by simp)

/-- The first process reads that byte to the end of its memory: the call returns zero, and the
pipe is empty. -/
theorem piperead_loses_byte : ∃ (s : Kernel) (ring' : RingBuffer UInt8) (u' : Recorded), s.Booted ∧
    piperead oneByte true false ⟨s.machine, []⟩ (.proc 0) pgsize 1 = .ok (ring', u', some 0) ∧
      ring'.head = ring'.tail ∧ ¬ ReadExact oneByte ring' (some 0) := by
  have pass : Kernel.boots 24 (fun s =>
      yields (piperead oneByte true false ⟨s.machine, []⟩ (.proc 0) pgsize 1) fun done =>
        decide (done.1.head = 1 ∧ done.1.tail = 1 ∧ done.2.2 = some 0)) = true := by
    decide +kernel
  obtain ⟨s, booted, test⟩ := Kernel.of_boots pass
  obtain ⟨⟨ring', u', result⟩, run, ends⟩ := of_yields test
  obtain ⟨head, tail, zero⟩ := of_decide_eq_true ends
  simp only at head tail zero
  rw [zero] at run
  refine ⟨s, ring', u', booted, run, ?_, ?_⟩
  · rw [head, tail]
  · have one : removed oneByte ring' = 1 := removed_of_head (by decide) (by decide) head
    simp [ReadExact, one]

/-- With a second page the process gets the byte. -/
theorem piperead_exact_page : ∃ (s : Kernel) (ring' : RingBuffer UInt8) (u' : Recorded), s.Inv ∧
    piperead oneByte true false ⟨s.machine, []⟩ (.proc 0) pgsize 1 = .ok (ring', u', some 1) ∧
      ReadExact oneByte ring' (some 1) := by
  obtain ⟨s, inv, test⟩ := Kernel.of_ran 24 [.sbrk 0 4096] (fun s =>
    (s.machine.space (.proc 0)).isSome &&
      (yields (s.machine.copyout (.proc 0) pgsize [120]) (fun copy => decide (copy.2 = 0)) &&
      yields (piperead oneByte true false ⟨s.machine, []⟩ (.proc 0) pgsize 1) fun read =>
        decide (read.2.2 = some 1))) (by decide +kernel)
  obtain ⟨there, test⟩ := Bool.and_eq_true_iff.1 test
  obtain ⟨copies, test⟩ := Bool.and_eq_true_iff.1 test
  obtain ⟨⟨m', zero⟩, copied, is⟩ := of_yields copies
  obtain ⟨⟨ring', u', result⟩, run, one⟩ := of_yields test
  obtain ⟨sp, space⟩ := Option.isSome_iff_exists.1 there
  have is : zero = 0 := of_decide_eq_true is
  have one : result = some 1 := of_decide_eq_true one
  obtain ⟨ring₁, u₁, result₁, again, exact⟩ := piperead_exact_iff true false 1 oneByte_holds
    (u := ⟨s.machine, []⟩) inv.machine space (show pgsize < 2 ^ 64 by decide)
  rw [run] at again
  cases again
  rw [is] at copied
  rw [one] at run exact
  exact ⟨s, ring', u', inv, run, exact.2 ⟨m', copied⟩⟩

end Xv6.Ipc
