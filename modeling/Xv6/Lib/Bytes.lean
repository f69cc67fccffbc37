import Mathlib

/-!
# Numbers in bytes

A memory is a function from offsets to bytes.  `getLE` reads a number of little-endian bytes
at an offset and `putLE` writes it.  A number that fits is read back, and a write does not
change what is read beside it; with these two rules records and tables in memory are treated
field by field.
-/

namespace Bytes

open Nat

variable {m m' : Nat → UInt8} {off off' n n' v i w : Nat} {vs : List Nat}

/-- The number in `n` little-endian bytes. -/
def getLE (m : Nat → UInt8) (off : Nat) : Nat → Nat
  | 0 => 0
  | n + 1 => (m off).toNat + 256 * getLE m (off + 1) n

/-- A number is written into `n` little-endian bytes. -/
def putLE (m : Nat → UInt8) (off v : Nat) : Nat → Nat → UInt8
  | 0 => m
  | n + 1 => Function.update (putLE m (off + 1) (v / 256) n) off (UInt8.ofNat v)

theorem putLE_outside (out : i < off ∨ off + n ≤ i) : putLE m off v n i = m i := by
  induction n generalizing off v with
  | zero => rfl
  | succ n ih =>
    have ne : i ≠ off := by omega
    rw [putLE, Function.update_of_ne ne]
    exact ih (by omega)

theorem getLE_congr (same : ∀ i, off ≤ i → i < off + n → m' i = m i) :
    getLE m' off n = getLE m off n := by
  induction n generalizing off with
  | zero => rfl
  | succ n ih =>
    rw [getLE, getLE, same off le_rfl (by omega)]
    rw [ih fun i low high => same i (by omega) (by omega)]

/-- A write leaves alone what does not overlap it. -/
theorem getLE_putLE_apart (apart : off' + n' ≤ off ∨ off + n ≤ off') :
    getLE (putLE m off v n) off' n' = getLE m off' n' :=
  getLE_congr fun _ _ _ => putLE_outside (by omega)

theorem getLE_putLE (m : Nat → UInt8) (off v n : Nat) :
    getLE (putLE m off v n) off n = v % 256 ^ n := by
  induction n generalizing off v with
  | zero => rw [getLE, pow_zero, mod_one]
  | succ n ih =>
    have rest : getLE (putLE m off v (n + 1)) (off + 1) n =
        getLE (putLE m (off + 1) (v / 256) n) (off + 1) n :=
      getLE_congr fun i low _ => by rw [putLE, Function.update_of_ne (by omega)]
    have first : (putLE m off v (n + 1) off).toNat = v % 256 := by
      rw [putLE, Function.update_self]
      exact UInt8.toNat_ofNat'
    rw [getLE, rest, first, ih, pow_succ', mod_mul]

theorem getLE_lt (m : Nat → UInt8) (off n : Nat) : getLE m off n < 256 ^ n := by
  induction n generalizing off with
  | zero => exact one_pos
  | succ n ih =>
    have byte := (m off).toNat_lt
    have rest := ih (off + 1)
    rw [getLE, pow_succ]
    omega

/-- A number that fits is read back. -/
theorem getLE_putLE_of_lt (fits : v < 256 ^ n) : getLE (putLE m off v n) off n = v := by
  rw [getLE_putLE, mod_eq_of_lt fits]

/-- A table of numbers of `w` bytes each is written. -/
def putAll (m : Nat → UInt8) (off w : Nat) : List Nat → Nat → UInt8
  | [] => m
  | v :: vs => putAll (putLE m off v w) (off + w) w vs

theorem getLE_putAll_apart (apart : off' + n' ≤ off ∨ off + w * vs.length ≤ off') :
    getLE (putAll m off w vs) off' n' = getLE m off' n' := by
  induction vs generalizing m off with
  | nil => rfl
  | cons v vs ih =>
    rw [List.length_cons, mul_succ] at apart
    rw [putAll, ih (by omega), getLE_putLE_apart (by omega)]

/-- An entry of a table is read back. -/
theorem getLE_putAll (bound : i < vs.length) (fits : vs[i] < 256 ^ w) :
    getLE (putAll m off w vs) (off + w * i) w = vs[i] := by
  induction vs generalizing m off i with
  | nil => cases bound
  | cons v vs ih =>
    rw [putAll]
    cases i with
    | zero =>
      rw [mul_zero, add_zero, getLE_putAll_apart (.inl le_rfl)]
      exact getLE_putLE_of_lt fits
    | succ i =>
      have here : off + w * (i + 1) = off + w + w * i := by rw [mul_succ]; omega
      rw [here]
      exact ih (lt_of_succ_lt_succ bound) fits

end Bytes
