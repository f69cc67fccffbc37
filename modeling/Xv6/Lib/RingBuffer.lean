import Mathlib

/-!
# Ring buffers with free-running counters

A ring of `n` places with two counters that count modulo `m`: `tail` where the next element is
put, `head` where the next one is taken.  When `n` divides `m` the counters may wrap: a ring that
`Holds` a queue still holds it with an element put at its end or taken from its front, and the
counters tell an empty ring from a full one when `n` is less than `m`.
-/

structure RingBuffer (α : Type*) where
  data : Nat → α
  head : Nat
  tail : Nat

namespace RingBuffer

open Nat List Function

variable {α : Type*} {n m a k : Nat} {r : RingBuffer α} {q : List α} {x : α}

def push (n m : Nat) (r : RingBuffer α) (x : α) : RingBuffer α :=
  { r with data := update r.data (r.tail % n) x, tail := (r.tail + 1) % m }

def front (n : Nat) (r : RingBuffer α) : α := r.data (r.head % n)

def pop (m : Nat) (r : RingBuffer α) : RingBuffer α := { r with head := (r.head + 1) % m }

/-- The elements in a ring, from the next one that is taken. -/
structure Holds (n m : Nat) (r : RingBuffer α) (q : List α) : Prop where
  size : q.length ≤ n
  head : r.head < m
  tail : r.tail = (r.head + q.length) % m
  data : ∀ k (bound : k < q.length), r.data ((r.head + k) % n) = q[k]

theorem Holds.nil {data : Nat → α} (positive : 0 < m) : Holds n m ⟨data, 0, 0⟩ [] :=
  ⟨zero_le n, positive, (zero_mod m).symm, by rintro k ⟨⟩⟩

/-- Two places of a ring are different when they are less than its size apart. -/
theorem add_mod_ne {j : Nat} (less : j < k) (near : k < j + n) : (a + j) % n ≠ (a + k) % n := by
  intro same
  have gap := (modEq_iff_dvd' (by omega)).1 same
  have := le_of_dvd (by omega) gap
  omega

/-- An element in the place after the last one. -/
def put (n : Nat) (r : RingBuffer α) (x : α) : RingBuffer α :=
  { r with data := update r.data (r.tail % n) x }

/-- The place after the last one becomes the last one. -/
def advance (m : Nat) (r : RingBuffer α) : RingBuffer α := { r with tail := (r.tail + 1) % m }

theorem Holds.tail_mod (holds : Holds n m r q) (divides : n ∣ m) :
    r.tail % n = (r.head + q.length) % n := by
  rw [holds.tail, mod_mod_of_dvd _ divides]

section

variable (holds : Holds n m r q) (divides : n ∣ m) (room : q.length < n)
include holds divides room

/-- The place after the last one is none of those in use. -/
theorem Holds.tail_ne (bound : k < q.length) : (r.head + k) % n ≠ r.tail % n := by
  rw [holds.tail_mod divides]
  exact add_mod_ne bound (by omega)

theorem Holds.put : Holds n m (r.put n x) q := by
  refine ⟨holds.size, holds.head, holds.tail, fun k bound => ?_⟩
  change update r.data (r.tail % n) x ((r.head + k) % n) = _
  rw [update_of_ne (holds.tail_ne divides room bound)]
  exact holds.data k bound

theorem Holds.advance (last : r.data (r.tail % n) = x) : Holds n m (r.advance m) (q ++ [x]) := by
  refine ⟨by simpa using room, holds.head, ?_, fun k bound => ?_⟩
  · change (r.tail + 1) % m = _
    rw [holds.tail, mod_add_mod, length_append, length_singleton, add_assoc]
    rfl
  · change r.data ((r.head + k) % n) = _
    rcases lt_or_ge k q.length with old | new
    · rw [holds.data k old, getElem_append_left old]
    · have last_ : k = q.length := by
        rw [length_append, length_singleton] at bound
        omega
      subst last_
      rw [getElem_concat_length rfl, ← holds.tail_mod divides, last]

theorem Holds.push : Holds n m (r.push n m x) (q ++ [x]) :=
  (holds.put divides room).advance divides room (update_self ..)

end

theorem Holds.front (holds : Holds n m r (x :: q)) : r.front n = x :=
  holds.data 0 (zero_lt_succ _)

theorem Holds.pop (holds : Holds n m r (x :: q)) (divides : n ∣ m) : Holds n m (r.pop m) q := by
  have size := holds.size
  have positive := zero_lt_of_lt holds.head
  rw [length_cons] at size
  refine ⟨by omega, mod_lt _ positive, ?_, fun k bound => ?_⟩
  · change r.tail = ((r.head + 1) % m + q.length) % m
    rw [holds.tail, length_cons, mod_add_mod]
    congr 1
    omega
  · change r.data (((r.head + 1) % m + k) % n) = q[k]
    have place : ((r.head + 1) % m + k) % n = (r.head + (k + 1)) % n := by
      rw [add_mod, mod_mod_of_dvd _ divides, ← add_mod]
      congr 1
      omega
    rw [place]
    exact holds.data (k + 1) (succ_lt_succ bound)

/-- How far a counter that counts modulo `m` has moved. -/
theorem distance {c : Nat} (inside : a < m) (few : c < m) : ((a + c) % m + m - a) % m = c := by
  rcases lt_or_ge (a + c) m with less | wrapped
  · have split : a + c + m - a = c + m := by omega
    rw [mod_eq_of_lt less, split, add_mod_right, mod_eq_of_lt few]
  · have rest : (a + c) % m = a + c - m := by
      rw [mod_eq_sub_mod wrapped, mod_eq_of_lt (by omega)]
    have split : a + c - m + m - a = c := by omega
    rw [rest, split, mod_eq_of_lt few]

section

variable (holds : Holds n m r q) (less : n < m)
include holds less

/-- The distance of the counters is the number of elements. -/
theorem Holds.length : (r.tail + m - r.head) % m = q.length := by
  rw [holds.tail]
  exact distance holds.head (lt_of_le_of_lt holds.size less)

theorem Holds.empty_iff : r.head = r.tail ↔ q = [] := by
  have length := holds.length less
  have head := holds.head
  constructor
  · intro same
    rw [← same, Nat.add_sub_cancel_left, Nat.mod_self] at length
    exact eq_nil_of_length_eq_zero length.symm
  · rintro rfl
    rw [holds.tail, length_nil, add_zero, mod_eq_of_lt head]

theorem Holds.full_iff : r.tail = (r.head + n) % m ↔ q.length = n := by
  constructor
  · intro same
    have length := holds.length less
    have whole : Holds n m ⟨fun _ => r.front n, r.head, r.tail⟩ (replicate n (r.front n)) :=
      ⟨by simp, holds.head, by simpa using same, by simp⟩
    have total := whole.length less
    rw [length_replicate] at total
    exact length.symm.trans total
  · intro same
    rw [holds.tail, same]

end

end RingBuffer
