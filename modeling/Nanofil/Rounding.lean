import Nanofil.Patterns
import Nanofil.Lib.Nearest

/-! `round_ratio/5` rounds correctly: nearest, a tie to the even significand, infinity from the midpoint above the
largest finite number on. -/
namespace Nanofil.Ieee

/-- The finite numbers of the format, without their sign. -/
def Holds (k : Fmt) (v : ℚ) : Prop :=
  Nearest.Representable (fracBits k) (1 - bias k - fracBits k) (bias k - fracBits k) v

/-- Half a unit above the largest finite number. -/
def overflow (k : Fmt) : ℚ := (2 ^ (fracBits k + 1) - 1 / 2) * 2 ^ (bias k - fracBits k)

/-- A pattern whose integer bit, where the format has one, says whether the exponent is the least. -/
def Canonical (k : Fmt) (b : Int) : Prop :=
  Pattern k b ∧ (k = .x → (b / 2 ^ 63 % 2 = 1 ↔ b / 2 ^ 64 % 2 ^ 15 ≠ 0))

/-- The bits of a ratio from zero on. -/
def CorrectlyRounded (k : Fmt) (q : ℚ) (b : Int) : Prop :=
  (overflow k ≤ q ∧ b = infinity k 0) ∨
    q < overflow k ∧ Canonical k b ∧ ∃ m e : Int, decode k b = (0, .finite m e) ∧ Holds k (m * 2 ^ e) ∧
      ∀ v, Holds k v → |m * 2 ^ e - q| ≤ |v - q| ∧ (|m * 2 ^ e - q| = |v - q| → v = m * 2 ^ e ∨ m % 2 = 0)

/-! ### The quotient -/

theorem roundEven_half {n d : Int} (positive : 0 < d) : |(roundEven n d : ℚ) - n / d| ≤ 1 / 2 ∧
    (|(roundEven n d : ℚ) - n / d| = 1 / 2 → roundEven n d % 2 = 0) := by
  have unit : (0 : ℚ) < d := by exact_mod_cast positive
  have split : (n : ℚ) / d = (n / d : Int) + ((n % d : Int) : ℚ) / d := by
    rw [div_eq_iff unit.ne', add_mul, div_mul_cancel₀ _ unit.ne', mul_comm]
    exact_mod_cast (Int.mul_ediv_add_emod n d).symm
  have low : 0 ≤ ((n % d : Int) : ℚ) / d := div_nonneg (by exact_mod_cast Int.emod_nonneg n positive.ne') unit.le
  have high : ((n % d : Int) : ℚ) / d < 1 := by
    rw [div_lt_one unit]
    exact_mod_cast Int.emod_lt_of_pos n positive
  have scaled (r : ℚ) : ((n % d : Int) : ℚ) / d < r ↔ ((n % d : Int) : ℚ) < r * d := div_lt_iff₀ unit
  have halves : (2 * (n % d) < d ↔ ((n % d : Int) : ℚ) / d < 1 / 2) ∧ (2 * (n % d) = d ↔ ((n % d : Int) : ℚ) / d = 1 / 2) := by
    constructor
    · rw [scaled, ← Int.cast_lt (R := ℚ)]
      push_cast
      constructor <;> intro h <;> linarith
    · rw [div_eq_iff unit.ne', ← Int.cast_inj (α := ℚ)]
      push_cast
      constructor <;> intro h <;> linarith
  rw [split]
  generalize ((n % d : Int) : ℚ) / d = r at low high halves
  simp only [roundEven]
  by_cases up : 2 * (n % d) > d ∨ 2 * (n % d) = d ∧ n / d % 2 = 1
  · have above : 1 / 2 ≤ r := by
      by_contra less
      have := halves.1.2 (not_le.1 less)
      omega
    rw [if_pos up]
    push_cast
    rw [add_sub_add_left_eq_sub, abs_of_nonneg (by linarith)]
    refine ⟨by linarith, fun tie => ?_⟩
    have := halves.2.2 (by linarith)
    omega
  · have below : r ≤ 1 / 2 := by
      rcases lt_or_eq_of_le (show 2 * (n % d) ≤ d by omega) with less | eq
      · exact (halves.1.1 less).le
      · exact (halves.2.1 eq).le
    rw [if_neg up, sub_add_cancel_left, abs_neg, abs_of_nonneg low]
    refine ⟨below, fun tie => ?_⟩
    have := halves.2.2 tie
    omega

/-- A ratio from `2 ^ t` on rounds to at least `2 ^ t`. -/
theorem le_roundEven {n d : Int} (positive : 0 < d) {t : Nat} (above : (2 : ℚ) ^ t ≤ n / d) : 2 ^ t ≤ roundEven n d := by
  have floor : 2 ^ t ≤ n / d := by
    rw [Int.le_ediv_iff_mul_le positive]
    rw [le_div_iff₀ (by exact_mod_cast positive)] at above
    exact_mod_cast above
  simp only [roundEven]
  split <;> omega

/-- The exponent that the rounding finds is no more than the ratio's. -/
theorem ratio_above {n d : Int} (hn : 0 < n) (hd : 0 < d) : (2 : ℚ) ^
    (if (scale n d (-(ilog n - ilog d))).1 < (scale n d (-(ilog n - ilog d))).2 then ilog n - ilog d - 1
      else ilog n - ilog d) ≤ n / d := by
  have two : (2 : ℚ) ≠ 0 := by norm_num
  obtain ⟨positive, ratio⟩ := scale_ratio (n := n) hd (-(ilog n - ilog d))
  split
  · have low := (log2_bounds hn).1
    have high := (log2_bounds hd).2
    rw [le_div_iff₀ (by exact_mod_cast hd)]
    calc (2 : ℚ) ^ (ilog n - ilog d - 1) * d ≤ 2 ^ (ilog n - ilog d - 1) * 2 ^ (ilog d + 1) :=
          mul_le_mul_of_nonneg_left high.le (by positivity)
      _ = 2 ^ ilog n := by
        rw [← zpow_add₀ two]
        congr 1
        ring
      _ ≤ n := low
  · rename_i more
    have above : 1 ≤ ((scale n d (-(ilog n - ilog d))).1 : ℚ) / (scale n d (-(ilog n - ilog d))).2 := by
      rw [one_le_div (by exact_mod_cast positive)]
      exact_mod_cast not_lt.1 more
    rwa [ratio, zpow_neg, le_mul_inv_iff₀ (by positivity), one_mul] at above

/-! ### The bits -/

/-- The bits of a significand and an exponent, as the rounding puts them together. -/
def assembled (k : Fmt) (q e : Int) : Int :=
  signBits k 0 + (if q < 2 ^ fracBits k then ((0 : Int), q)
      else (e + bias k, q - (1 - integerBit k) * 2 ^ fracBits k)).1 * 2 ^ exponentShift k +
    (if q < 2 ^ fracBits k then ((0 : Int), q) else (e + bias k, q - (1 - integerBit k) * 2 ^ fracBits k)).2

section
variable {k : Fmt} {q e : Int}

/-- A significand short of the implied bit needs the least exponent. -/
theorem assembled_decode (nonneg : 0 ≤ q) (small : q < 2 ^ (fracBits k + 1)) (low : 1 - bias k ≤ e) (high : e ≤ bias k)
    (least : q < 2 ^ fracBits k → e = 1 - bias k) : decode k (assembled k q e) = (0, .finite q (e - fracBits k)) := by
  unfold assembled decode
  by_cases fraction : q < 2 ^ fracBits k
  · obtain rfl := least fraction
    simp only [if_pos fraction]
    cases k <;> simp only [signBits, exponentShift, fracBits, expBits, integerBit, bias] at * <;> norm_num at * <;>
      refine ⟨by omega, ?_⟩ <;> rw [if_neg (by omega), if_pos (by omega)] <;>
      congr 1 <;> omega
  · simp only [if_neg fraction]
    cases k <;> simp only [signBits, exponentShift, fracBits, expBits, integerBit, bias] at * <;> norm_num at * <;>
      refine ⟨by omega, ?_⟩ <;> rw [if_neg (by omega), if_neg (by omega)] <;>
      congr 1 <;> omega

theorem assembled_canonical (nonneg : 0 ≤ q) (small : q < 2 ^ (fracBits k + 1)) (low : 1 - bias k ≤ e)
    (high : e ≤ bias k) : Canonical k (assembled k q e) := by
  refine ⟨assembled_pattern (.inl rfl) nonneg small low high, ?_⟩
  rintro rfl
  unfold assembled
  by_cases fraction : q < 2 ^ fracBits .x <;> simp only [fraction, if_true, if_false] <;>
    simp only [signBits, exponentShift, fracBits, expBits, integerBit, bias] at * <;> norm_num at * <;> omega

theorem assembled_holds (nonneg : 0 ≤ q) (small : q < 2 ^ (fracBits k + 1)) (low : 1 - bias k ≤ e) (high : e ≤ bias k) :
    Holds k (q * 2 ^ (e - fracBits k)) :=
  ⟨q, e - fracBits k, nonneg, small, by omega, by omega, rfl⟩

/-- A significand that a nearest integer of steps makes is correctly rounded. -/
theorem finite_correct {r : ℚ} {n step : Int} (half : |n - r / 2 ^ step| ≤ 1 / 2)
    (tie : |n - r / 2 ^ step| = 1 / 2 → n % 2 = 0)
    (full : step = 1 - bias k - fracBits k ∨ (2 : ℚ) ^ (step + fracBits k) ≤ r) (below : r < overflow k) (nonneg : 0 ≤ q)
    (small : q < 2 ^ (fracBits k + 1)) (low : 1 - bias k ≤ e) (high : e ≤ bias k)
    (least : q < 2 ^ fracBits k → e = 1 - bias k) (same : (q : ℚ) * 2 ^ (e - fracBits k) = n * 2 ^ step)
    (even : n % 2 = 0 → q % 2 = 0) : CorrectlyRounded k r (assembled k q e) := by
  refine .inr ⟨below, assembled_canonical nonneg small low high, q, e - fracBits k,
    assembled_decode nonneg small low high least, assembled_holds nonneg small low high, fun v holds => ?_⟩
  obtain ⟨near, eq⟩ := Nearest.grid_nearest half full holds
  rw [same]
  exact ⟨near, fun as => (eq as).imp_right fun at_half => even (tie at_half)⟩

theorem overflow_pos : 0 < overflow k := by
  have unit : (1 : ℚ) ≤ 2 ^ (fracBits k + 1) := one_le_pow₀ (by norm_num)
  unfold overflow
  have half : (0 : ℚ) < 2 ^ (fracBits k + 1) - 1 / 2 := by linarith
  positivity

/-- The midpoint is between the last two powers of two. -/
theorem overflow_bounds : (2 : ℚ) ^ bias k ≤ overflow k ∧ overflow k ≤ 2 ^ (bias k + 1) := by
  have two : (2 : ℚ) ≠ 0 := by norm_num
  have unit : (1 : ℚ) ≤ 2 ^ fracBits k := one_le_pow₀ (by norm_num)
  have powers (i : Int) : (2 : ℚ) ^ (bias k + i) = 2 ^ (fracBits k + i) * 2 ^ (bias k - fracBits k) := by
    rw [← zpow_add₀ two]
    congr 1
    ring
  have double : (2 : ℚ) ^ (fracBits k + 1) = 2 ^ fracBits k * 2 := pow_succ _ _
  unfold overflow
  constructor
  · have zero := powers 0
    rw [add_zero, add_zero, zpow_natCast] at zero
    rw [zero]
    exact mul_le_mul_of_nonneg_right (by linarith) (by positivity)
  · rw [powers 1, ← Nat.cast_one (R := Int), ← Nat.cast_add, zpow_natCast]
    exact mul_le_mul_of_nonneg_right (by linarith) (by positivity)

/-- What the rounding makes of the nearest integer of steps: the significand doubled over, an infinity, or the bits. -/
theorem rounded_correct {r : ℚ} {n : Int} (above : 2 ^ e ≤ r) (below : r < 2 ^ (e + 1)) (nonneg : 0 ≤ n)
    (half : |n - r / 2 ^ (max e (1 - bias k) - fracBits k)| ≤ 1 / 2)
    (tie : |n - r / 2 ^ (max e (1 - bias k) - fracBits k)| = 1 / 2 → n % 2 = 0) (most : n ≤ 2 ^ (fracBits k + 1))
    (subnormal : e < 1 - bias k → n ≤ 2 ^ fracBits k) (normal : 1 - bias k ≤ e → 2 ^ fracBits k ≤ n) :
    CorrectlyRounded k r (let qe := if n ≥ 2 ^ (fracBits k + 1) then (n / 2, e + 1) else (n, max e (1 - bias k))
      if qe.2 > bias k then infinity k 0 else assembled k qe.1 qe.2) := by
  have two : (2 : ℚ) ≠ 0 := by norm_num
  have double : (2 : Int) ^ (fracBits k + 1) = 2 ^ fracBits k * 2 := pow_succ _ _
  have unit : (0 : Int) < 2 ^ fracBits k := by positivity
  have least : 1 - bias k ≤ bias k := by cases k <;> decide
  obtain ⟨midLow, midHigh⟩ := overflow_bounds (k := k)
  have full : max e (1 - bias k) - fracBits k = 1 - bias k - fracBits k ∨
      (2 : ℚ) ^ (max e (1 - bias k) - fracBits k + (fracBits k : Int)) ≤ r := by
    rcases le_total e (1 - bias k) with low | high
    · exact .inl (by rw [max_eq_right low])
    · exact .inr (by rwa [max_eq_left high, sub_add_cancel])
  have large (beyond : bias k < e) : overflow k ≤ r :=
    midHigh.trans ((zpow_le_zpow_right₀ (by norm_num) (by omega)).trans above)
  have little (under : e < bias k) : r < overflow k :=
    below.trans_le ((zpow_le_zpow_right₀ (by norm_num) (by omega)).trans midLow)
  obtain ⟨halfLow, halfHigh⟩ := abs_le.1 half
  have step : (0 : ℚ) < 2 ^ (max e (1 - bias k) - fracBits k) := by positivity
  by_cases carry : n ≥ 2 ^ (fracBits k + 1)
  · obtain rfl : n = 2 ^ (fracBits k + 1) := le_antisymm most carry
    have even : (2 : Int) ^ (fracBits k + 1) / 2 % 2 = 0 := by cases k <;> decide
    have high : 1 - bias k ≤ e := by
      by_contra less
      have := subnormal (not_le.1 less)
      omega
    simp only [if_pos carry]
    by_cases inf : e + 1 > bias k
    · rw [if_pos inf]
      refine .inl ⟨?_, rfl⟩
      rcases eq_or_lt_of_le (show bias k ≤ e by omega) with rfl | beyond
      · rw [max_eq_left least] at halfHigh step
        rw [overflow, ← le_div_iff₀ step]
        push_cast at halfHigh
        linarith
      · exact large beyond
    · rw [if_neg inf]
      refine finite_correct half tie full (little (by omega)) (by omega) (by omega) (by omega) (by omega) (by omega) ?_
        (fun _ => even)
      rw [max_eq_left high, double, Int.mul_ediv_cancel _ two_ne_zero, show e + 1 - (fracBits k : Int) = e - fracBits k + 1 by ring,
        zpow_add₀ two]
      push_cast
      ring
  · simp only [if_neg carry]
    by_cases inf : max e (1 - bias k) > bias k
    · rw [if_pos inf]
      exact .inl ⟨large (by omega), rfl⟩
    · rw [if_neg inf]
      refine finite_correct half tie full ?_ nonneg (not_le.1 carry) (le_max_right _ _) (not_lt.1 inf) ?_ rfl id
      · have count : (n : ℚ) ≤ 2 ^ (fracBits k + 1) - 1 := by exact_mod_cast Int.le_sub_one_of_lt (not_le.1 carry)
        have short : r / 2 ^ (max e (1 - bias k) - fracBits k) < 2 ^ (fracBits k + 1) - 1 / 2 := by
          refine lt_of_le_of_ne (by linarith) fun eq => ?_
          have last : n = 2 ^ (fracBits k + 1) - 1 := by
            have : (n : ℚ) = ((2 ^ (fracBits k + 1) - 1 : Int) : ℚ) := by
              push_cast
              linarith
            exact_mod_cast this
          have odd := tie (by rw [eq, last, abs_of_nonpos] <;> push_cast <;> linarith)
          omega
        rw [div_lt_iff₀ step] at short
        have positive : (0 : ℚ) ≤ 2 ^ (fracBits k + 1) - 1 / 2 := by
          have : (1 : ℚ) ≤ 2 ^ (fracBits k + 1) := one_le_pow₀ (by norm_num)
          linarith
        exact short.trans_le (mul_le_mul_of_nonneg_left (zpow_le_zpow_right₀ (by norm_num) (by omega)) positive)
      · intro short
        by_contra more
        have := normal (by omega)
        omega

theorem zero_correct : CorrectlyRounded k 0 (signBits k 0) := by
  have least : 1 - bias k ≤ bias k := by cases k <;> decide
  have same : assembled k 0 (1 - bias k) = signBits k 0 := by cases k <;> decide
  rw [← same]
  have half : |((0 : Int) : ℚ) - 0 / 2 ^ (1 - bias k - (fracBits k : Int))| ≤ 1 / 2 := by simp
  exact finite_correct half (fun _ => rfl) (.inl rfl) overflow_pos
    (le_refl _) (by positivity) (le_refl _) least (fun _ => rfl) (by simp) id

end

theorem roundRatio_correct {k : Fmt} {n d : Int} (nonneg : 0 ≤ n) (positive : 0 < d) :
    CorrectlyRounded k (n / d) (roundRatio k 0 n d) := by
  unfold roundRatio
  split
  · rename_i zero
    rw [zero, Int.cast_zero, zero_div]
    exact zero_correct
  · rename_i nonzero
    have hn : 0 < n := lt_of_le_of_ne nonneg (Ne.symm nonzero)
    have below := ratio_below hn positive
    have above := ratio_above hn positive
    dsimp only
    generalize (if (scale n d (-(ilog n - ilog d))).1 < (scale n d (-(ilog n - ilog d))).2 then ilog n - ilog d - 1
      else ilog n - ilog d) = e at above below ⊢
    obtain ⟨scaled, ratio⟩ := scale_ratio (n := n) positive (-(max e (1 - bias k) - fracBits k))
    have scaledNonneg : 0 ≤ (scale n d (-(max e (1 - bias k) - fracBits k))).1 := by
      unfold scale
      split <;> positivity
    generalize scale n d (-(max e (1 - bias k) - fracBits k)) = ac at scaled ratio scaledNonneg ⊢
    obtain ⟨half, tie⟩ := roundEven_half (n := ac.1) scaled
    rw [zpow_neg, ← div_eq_mul_inv] at ratio
    have two : (2 : ℚ) ≠ 0 := by norm_num
    have power (i : Int) : (2 : ℚ) ^ i / 2 ^ (max e (1 - bias k) - fracBits k) = 2 ^ (i - (max e (1 - bias k) - fracBits k)) :=
      (zpow_sub₀ two _ _).symm
    have step : (0 : ℚ) < 2 ^ (max e (1 - bias k) - fracBits k) := by positivity
    have upper {t : Nat} (le : e + 1 - (max e (1 - bias k) - fracBits k) ≤ t) : roundEven ac.1 ac.2 ≤ 2 ^ t := by
      refine roundEven_le scaled ?_
      rw [ratio, ← zpow_natCast]
      calc (n : ℚ) / d / 2 ^ (max e (1 - bias k) - fracBits k)
          < 2 ^ (e + 1) / 2 ^ (max e (1 - bias k) - fracBits k) := div_lt_div_of_pos_right below step
        _ = 2 ^ (e + 1 - (max e (1 - bias k) - fracBits k)) := power _
        _ ≤ 2 ^ (t : Int) := zpow_le_zpow_right₀ (by norm_num) le
    refine rounded_correct above below (roundEven_nonneg scaledNonneg scaled) (by rwa [← ratio]) (by rwa [← ratio])
      (upper (by push_cast; omega)) (fun less => upper (by omega)) fun high => le_roundEven scaled ?_
    rw [ratio]
    calc (2 : ℚ) ^ fracBits k = 2 ^ (e - (max e (1 - bias k) - fracBits k)) := by
          rw [← zpow_natCast]
          congr 1
          omega
      _ = 2 ^ e / 2 ^ (max e (1 - bias k) - fracBits k) := (power _).symm
      _ ≤ n / d / 2 ^ (max e (1 - bias k) - fracBits k) := div_le_div_of_nonneg_right above step.le

end Nanofil.Ieee
