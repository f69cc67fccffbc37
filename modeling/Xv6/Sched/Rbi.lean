import Xv6.Sched.Priority

/-!
# The recent behaviour index

`calculate_rbi` divides first and multiplies by fifty afterwards, so that the fraction is lost:
as long as the weighted sums fit an `int` the result is 0, 50 or 100.  It is the documented index

  max (floor (50 * (3 * RTime - STime - WTime) / (RTime + WTime + STime + 1)), 0)

when the numerator is not positive, or when the division leaves less than a fiftieth.
-/

namespace Xv6.Sched

/-- The index that the documentation gives for three times. -/
def documentedRbi (RTime STime WTime : Nat) : Int :=
  max ⌊(50 * (3 * RTime - STime - WTime) : ℚ) / (RTime + WTime + STime + 1)⌋ 0

/-- The numerator of the index. -/
def weighted (p : Proc) : Int := 3 * p.RTime.toNat - p.STime.toNat - p.WTime.toNat

/-- The denominator of the index. -/
def total (p : Proc) : Nat := p.RTime.toNat + p.WTime.toNat + p.STime.toNat + 1

/-- The weighted sums fit in an `int`. -/
def Fits (p : Proc) : Prop := 3 * p.RTime.toNat + p.STime.toNat + p.WTime.toNat + 1 < 2 ^ 31

instance (p : Proc) : Decidable (Fits p) := inferInstanceAs (Decidable (_ < 2 ^ 31))

theorem documentedRbi_eq (p : Proc) : documentedRbi p.RTime.toNat p.STime.toNat p.WTime.toNat =
      max (50 * weighted p / (total p : Int)) 0 := by
  rw [documentedRbi, ← Rat.floor_intCast_div_natCast]
  simp only [weighted, total]
  push_cast
  rfl

variable {p : Proc}

theorem toInt_numerator (fits : Fits p) :
    (3 * p.RTime - p.STime - p.WTime).toInt32.toInt = weighted p := by
  unfold Fits at fits
  have three : (3 : UInt32).toNat = 3 := rfl
  have word : (3 * p.RTime - p.STime - p.WTime).toNat =
      (2 ^ 32 - p.WTime.toNat + (2 ^ 32 - p.STime.toNat + 3 * p.RTime.toNat % 2 ^ 32) % 2 ^ 32) %
        2 ^ 32 := by
    rw [UInt32.toNat_sub, UInt32.toNat_sub, UInt32.toNat_mul, three]
  have value : (3 * p.RTime - p.STime - p.WTime).toBitVec.toNat = _ := word
  change (3 * p.RTime - p.STime - p.WTime).toBitVec.toInt = _
  rw [BitVec.toInt_eq_toNat_cond, value, weighted]
  split
  · omega
  · omega

theorem toInt_denominator (fits : Fits p) :
    (p.RTime + p.WTime + p.STime + 1).toInt32.toInt = total p := by
  unfold Fits at fits
  have sum : (p.RTime + p.WTime + p.STime + 1).toNat = total p := by
    simp only [UInt32.toNat_add, total]
    have one : (1 : UInt32).toNat = 1 := rfl
    omega
  rw [toInt_toInt32 (by rw [sum, total]; omega), sum]

theorem total_pos : 0 < total p := by
  simp only [total]
  omega

/-- A numerator that is not positive gives 0. -/
theorem quotient_of_nonpos (neg : weighted p ≤ 0) : (weighted p).tdiv (total p) = 0 := by
  have low : -(total p : Int) < weighted p := by
    simp only [weighted, total]
    omega
  rw [← neg_neg (weighted p), Int.neg_tdiv, Int.tdiv_eq_zero_of_lt (by omega) (by omega), neg_zero]

theorem quotient_bounds : 0 ≤ (weighted p).tdiv (total p) ∧ (weighted p).tdiv (total p) < 3 := by
  have pos := total_pos (p := p)
  have high : weighted p < 3 * total p := by
    simp only [weighted, total]
    omega
  rcases le_total 0 (weighted p) with nonneg | neg
  · rw [Int.tdiv_eq_ediv_of_nonneg nonneg]
    exact ⟨Int.ediv_nonneg nonneg (by omega), Int.ediv_lt_of_lt_mul (by omega) high⟩
  · rw [quotient_of_nonpos neg]
    decide

/-- The value of `calculate_rbi`, without overflow. -/
theorem calculateRbi_eq (fits : Fits p) :
    p.calculateRbi.toInt = (weighted p).tdiv (total p) * 50 := by
  obtain ⟨low, high⟩ := quotient_bounds (p := p)
  have numerator := toInt_numerator fits
  have denominator := toInt_denominator fits
  have fifty : (50 : Int32).toInt = 50 := rfl
  have zero : (0 : Int32).toInt = 0 := rfl
  have product : ((3 * p.RTime - p.STime - p.WTime).toInt32 /
      (p.RTime + p.WTime + p.STime + 1).toInt32 * 50).toInt =
      (weighted p).tdiv (total p) * 50 := by
    rw [Int32.toInt_mul, Int32.toInt_div, numerator, denominator, fifty]
    rw [Int.bmod_eq_of_le (n := (weighted p).tdiv (total p)) (by omega) (by omega)]
    exact Int.bmod_eq_of_le (by omega) (by omega)
  unfold Proc.calculateRbi
  simp only
  split_ifs with positive
  · exact product
  · rw [Int32.lt_iff_toInt_lt, product, zero] at positive
    rw [zero]
    omega

/-- Dividing before multiplying is exact when less than a fiftieth remains. -/
theorem fifty_mul_div {n : Int} {d : Nat} (pos : 0 < d) :
    n / d * 50 = 50 * n / d ↔ 50 * (n % d) < d := by
  have split : 50 * n / (d : Int) = 50 * (n / d) + 50 * (n % d) / d := by
    conv_lhs => rw [← Int.mul_ediv_add_emod n d]
    rw [mul_add, mul_left_comm, Int.mul_add_ediv_left _ _ (by omega : (d : Int) ≠ 0)]
  have rest : 0 ≤ 50 * (n % d) := by
    have := Int.emod_nonneg n (by omega : (d : Int) ≠ 0)
    omega
  rw [split]
  constructor
  · intro same
    have none : 50 * (n % d) / (d : Int) = 0 := by omega
    by_contra large
    have least : 1 ≤ 50 * (n % d) / (d : Int) :=
      Int.le_ediv_of_mul_le (by omega) (by omega)
    omega
  · intro small
    rw [Int.ediv_eq_zero_of_lt rest small]
    omega

/-- The numerator is not positive, or less than a fiftieth remains. -/
def Divides (p : Proc) : Prop := weighted p ≤ 0 ∨ 50 * (weighted p % total p) < total p

instance (p : Proc) : Decidable (Divides p) := inferInstanceAs (Decidable (_ ∨ _))

/-- `update_dp` adds the index to the static priority, up to 100. -/
theorem updateDp_DP (fits : Fits p) (prio : p.SP.toNat ≤ 100) :
    p.updateDp.RBI.toNat = p.calculateRbi.toInt ∧
      p.updateDp.DP.toNat = min (p.SP.toNat + p.updateDp.RBI.toNat) 100 := by
  have nonneg := Proc.calculateRbi_nonneg p
  have value := calculateRbi_eq fits
  obtain ⟨low, high⟩ := quotient_bounds (p := p)
  have rbi : (p.updateDp.RBI.toNat : Int) = p.calculateRbi.toInt := toNat_toUInt32 nonneg
  refine ⟨rbi, ?_⟩
  have sum : (p.SP + p.updateDp.RBI).toNat = p.SP.toNat + p.updateDp.RBI.toNat := by
    rw [UInt32.toNat_add, Nat.mod_eq_of_lt (by omega)]
  have temp : (p.SP + p.updateDp.RBI).toInt32.toInt = p.SP.toNat + p.updateDp.RBI.toNat := by
    rw [toInt_toInt32 (by omega), sum]
    push_cast
    rfl
  have hundred : (100 : Int32).toInt = 100 := rfl
  have dp : p.updateDp.DP = (if (p.SP + p.updateDp.RBI).toInt32 < 100 then
      (p.SP + p.updateDp.RBI).toInt32 else 100).toUInt32 := rfl
  rw [dp]
  split_ifs with less
  · rw [Int32.lt_iff_toInt_lt, temp, hundred] at less
    have word := toNat_toUInt32 (x := (p.SP + p.updateDp.RBI).toInt32) (by omega)
    omega
  · rw [Int32.lt_iff_toInt_lt, temp, hundred] at less
    have word : (100 : Int32).toUInt32.toNat = 100 := rfl
    omega

theorem calculateRbi_documented (fits : Fits p) :
    p.calculateRbi.toInt = documentedRbi p.RTime.toNat p.STime.toNat p.WTime.toNat ↔
      Divides p := by
  have pos := total_pos (p := p)
  rw [documentedRbi_eq, calculateRbi_eq fits, Divides]
  rcases le_or_gt (weighted p) 0 with neg | positive
  · have floor : 50 * weighted p / (total p : Int) < 1 :=
      Int.ediv_lt_of_lt_mul (by omega) (by omega)
    rw [quotient_of_nonpos neg, max_eq_right (by omega)]
    exact iff_of_true rfl (.inl neg)
  · have nonneg : 0 ≤ 50 * weighted p / (total p : Int) :=
      Int.ediv_nonneg (by omega) (by omega)
    rw [Int.tdiv_eq_ediv_of_nonneg positive.le, max_eq_left nonneg, fifty_mul_div pos]
    constructor
    · intro small
      exact .inr small
    · intro either
      rcases either with neg | small
      · omega
      · exact small

/-- The documented index is the one that `calculate_rbi` computes exactly when the division is
close enough, and the dynamic priority follows the computed one. -/
theorem rbi_documented_iff (fits : Fits p) (prio : p.SP.toNat ≤ 100) :
    (p.calculateRbi.toInt = documentedRbi p.RTime.toNat p.STime.toNat p.WTime.toNat ∧
      p.updateDp.RBI.toNat = p.calculateRbi.toInt ∧
      p.updateDp.DP.toNat = min (p.SP.toNat + p.updateDp.RBI.toNat) 100 ∧
      p.updateDp.DP.toNat ≤ 100) ↔ Divides p := by
  obtain ⟨rbi, dp⟩ := updateDp_DP fits prio
  rw [← calculateRbi_documented fits]
  constructor
  · intro all
    exact all.1
  · intro same
    exact ⟨same, rbi, dp, by omega⟩

/-- A process that has run for one tick. -/
def brief : Proc := { Proc.empty with SP := 50, RTime := 1 }

/-- A process that has only slept. -/
def sleeper : Proc := { Proc.empty with SP := 50, STime := 7 }

theorem rbi_documented_sleeper :
    sleeper.calculateRbi.toInt = documentedRbi 0 7 0 ∧ sleeper.updateDp.DP.toNat ≤ 100 := by
  have all := (rbi_documented_iff (p := sleeper) (by decide) (by decide)).2 (by decide)
  exact ⟨all.1, all.2.2.2⟩

/-- One tick of running gives 50, where the formula gives 75. -/
theorem rbi_truncates :
    brief.calculateRbi.toInt = 50 ∧ documentedRbi 1 0 0 = 75 := by
  have formula : documentedRbi brief.RTime.toNat brief.STime.toNat brief.WTime.toNat = 75 := by
    rw [documentedRbi_eq]
    decide
  exact ⟨by decide, formula⟩

end Xv6.Sched
