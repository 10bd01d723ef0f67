import Nanofil.Ieee
import Nanofil.Lib.Bits
import Mathlib.Tactic.FieldSimp
import Mathlib.Tactic.Linarith
import Mathlib.Tactic.Ring
import Mathlib.Algebra.Order.Field.Power

/-! Every operation on floats gives a bit pattern of its format. -/
namespace Nanofil.Ieee
open Bits

def patternBits (k : Fmt) : Nat := exponentShift k + expBits k + 1

/-- A bit pattern of the format. -/
def Pattern (k : Fmt) (b : Int) : Prop := Fits (patternBits k) b

def SignBit (s : Int) : Prop := s = 0 ∨ s = 1

theorem SignBit.other {s : Int} (sign : SignBit s) : SignBit (1 - s) := by
  rcases sign with rfl | rfl <;> simp [SignBit]

variable {s b n a d : Int}

theorem SignBit.xor {t : Int} (left : SignBit s) (right : SignBit t) : SignBit (Int.xor s t) := by
  unfold SignBit
  rcases left with rfl | rfl <;> rcases right with rfl | rfl <;> decide

theorem signBit_if (p : Prop) [Decidable p] : SignBit (if p then 1 else 0) := by
  split
  · exact .inr rfl
  · exact .inl rfl

/-! ### Decoding -/

theorem decode_sign {k : Fmt} (pattern : Pattern k b) : SignBit (decode k b).1 := by
  obtain ⟨low, high⟩ := pattern
  have bits : (2 : Int) ^ patternBits k = 2 ^ (exponentShift k + expBits k) * 2 := pow_succ 2 _
  have positive : (0 : Int) < 2 ^ (exponentShift k + expBits k) := by positivity
  have nonneg : 0 ≤ b / 2 ^ (exponentShift k + expBits k) := Int.ediv_nonneg low positive.le
  have small : b / 2 ^ (exponentShift k + expBits k) < 2 := by
    rw [Int.ediv_lt_iff_lt_mul positive, mul_comm, ← bits]
    exact high
  show SignBit (b / 2 ^ (exponentShift k + expBits k))
  unfold SignBit
  omega

theorem decode_finite {k : Fmt} {p : Int} (decoded : decode k b = (s, .finite n p)) : 0 ≤ n := by
  unfold decode at decoded
  have fraction : 0 ≤ b % 2 ^ fracBits k := Int.emod_nonneg _ (by positivity)
  have significand : 0 ≤ b % 2 ^ exponentShift k := Int.emod_nonneg _ (by positivity)
  have integer : (0 : Int) ≤ 2 ^ fracBits k := by positivity
  simp only [Prod.mk.injEq] at decoded
  obtain ⟨_, num⟩ := decoded
  split at num
  · split at num <;> cases num
  · split at num <;> cases num
    · exact significand
    · omega

/-! ### Special patterns -/

theorem signBits_pattern {k : Fmt} (sign : SignBit s) : Pattern k (signBits k s) := by
  unfold Pattern Fits
  rcases sign with rfl | rfl <;> cases k <;> decide

theorem infinity_pattern {k : Fmt} (sign : SignBit s) : Pattern k (infinity k s) := by
  unfold Pattern Fits
  rcases sign with rfl | rfl <;> cases k <;> decide

theorem quiet_pattern {k : Fmt} (pattern : Pattern k a) : Pattern k (quiet k a) := by
  refine fits_lor pattern (fits_pow ?_)
  cases k <;> decide

theorem invalid_pattern (k : Fmt) : Pattern k (invalid k) := quiet_pattern (infinity_pattern (.inr rfl))

/-! ### Rounding -/

theorem log2_bounds (positive : 0 < n) : (2 : ℚ) ^ ilog n ≤ n ∧ (n : ℚ) < 2 ^ (ilog n + 1) := by
  obtain ⟨m, rfl⟩ := Int.eq_ofNat_of_zero_le positive.le
  have nonzero : m ≠ 0 := by rintro rfl; simp at positive
  have log : ilog (m : Int) = (Nat.log2 m : Nat) := by
    rw [ilog, if_neg (by omega)]
    simp
  have low : 2 ^ Nat.log2 m ≤ m := Nat.log2_self_le nonzero
  have high : m < 2 ^ (Nat.log2 m + 1) := Nat.lt_log2_self
  rw [log]
  constructor
  · rw [zpow_natCast]
    exact_mod_cast low
  · rw [show ((Nat.log2 m : Nat) : Int) + 1 = ((Nat.log2 m + 1 : Nat) : Int) by simp, zpow_natCast]
    exact_mod_cast high

/-- Scaling by a power of two scales the ratio. -/
theorem scale_ratio (positive : 0 < d) (e : Int) :
    0 < (scale n d e).2 ∧ ((scale n d e).1 : ℚ) / (scale n d e).2 = n / d * 2 ^ e := by
  have denominator : (d : ℚ) ≠ 0 := by exact_mod_cast positive.ne'
  unfold scale
  split
  · rename_i nonneg
    obtain ⟨m, rfl⟩ := Int.eq_ofNat_of_zero_le nonneg
    refine ⟨positive, ?_⟩
    push_cast
    rw [Int.toNat_natCast, zpow_natCast]
    ring
  · rename_i negative
    obtain ⟨m, same⟩ := Int.eq_ofNat_of_zero_le (show 0 ≤ -e by omega)
    refine ⟨by positivity, ?_⟩
    rw [show e = -(m : Int) by omega, zpow_neg, zpow_natCast]
    push_cast
    rw [neg_neg, Int.toNat_natCast]
    field_simp

theorem roundEven_nonneg (nonneg : 0 ≤ n) (positive : 0 < d) : 0 ≤ roundEven n d := by
  have quotient : 0 ≤ n / d := Int.ediv_nonneg nonneg positive.le
  simp only [roundEven]
  split <;> omega

/-- A ratio below `2 ^ t` rounds to at most `2 ^ t`. -/
theorem roundEven_le (positive : 0 < d) {t : Nat} (below : (n : ℚ) / d < 2 ^ t) : roundEven n d ≤ 2 ^ t := by
  have floor : n / d < 2 ^ t := by
    rw [Int.ediv_lt_iff_lt_mul positive]
    rw [div_lt_iff₀ (by exact_mod_cast positive)] at below
    exact_mod_cast below
  simp only [roundEven]
  split <;> omega

/-- The binary exponent of a ratio, as the rounding finds it. -/
theorem ratio_below (hn : 0 < n) (hd : 0 < d) : (n : ℚ) / d <
    2 ^ ((if (scale n d (-(ilog n - ilog d))).1 < (scale n d (-(ilog n - ilog d))).2 then ilog n - ilog d - 1
      else ilog n - ilog d) + 1) := by
  have two : (2 : ℚ) ≠ 0 := by norm_num
  obtain ⟨positive, ratio⟩ := scale_ratio (n := n) hd (-(ilog n - ilog d))
  split
  · rename_i less
    have below : ((scale n d (-(ilog n - ilog d))).1 : ℚ) / (scale n d (-(ilog n - ilog d))).2 < 1 := by
      rw [div_lt_one (by exact_mod_cast positive)]
      exact_mod_cast less
    rw [ratio, zpow_neg, mul_inv_lt_iff₀ (by positivity), one_mul] at below
    rwa [sub_add_cancel]
  · have low := (log2_bounds hd).1
    have high := (log2_bounds hn).2
    rw [div_lt_iff₀ (by exact_mod_cast hd)]
    calc (n : ℚ) < 2 ^ (ilog n + 1) := high
      _ = 2 ^ (ilog n - ilog d + 1) * 2 ^ ilog d := by
        rw [← zpow_add₀ two]
        congr 1
        ring
      _ ≤ 2 ^ (ilog n - ilog d + 1) * d := mul_le_mul_of_nonneg_left low (by positivity)

/-- A significand and an exponent of the format make a pattern of it. -/
theorem assembled_pattern {k : Fmt} {q e : Int} (sign : SignBit s) (nonneg : 0 ≤ q)
    (small : q < 2 ^ (fracBits k + 1)) (low : 1 - bias k ≤ e) (high : e ≤ bias k) :
    Pattern k (signBits k s + (if q < 2 ^ fracBits k then ((0 : Int), q)
        else (e + bias k, q - (1 - integerBit k) * 2 ^ fracBits k)).1 * 2 ^ exponentShift k +
      (if q < 2 ^ fracBits k then ((0 : Int), q)
        else (e + bias k, q - (1 - integerBit k) * 2 ^ fracBits k)).2) := by
  unfold Pattern Fits
  by_cases fraction : q < 2 ^ fracBits k
  · simp only [if_pos fraction]
    rcases sign with rfl | rfl <;> cases k <;>
      simp only [signBits, patternBits, exponentShift, fracBits, expBits, integerBit] at * <;> norm_num at * <;> omega
  · simp only [if_neg fraction]
    rcases sign with rfl | rfl <;> cases k <;>
      simp only [signBits, patternBits, exponentShift, fracBits, expBits, integerBit, bias] at * <;>
      norm_num at * <;> omega

theorem roundRatio_pattern {k : Fmt} (sign : SignBit s) (nonneg : 0 ≤ n) (positive : 0 < d) : Pattern k (roundRatio k s n d) := by
  unfold roundRatio
  split
  · exact signBits_pattern sign
  · rename_i nonzero
    have below := ratio_below (lt_of_le_of_ne nonneg (Ne.symm nonzero)) positive
    dsimp only
    generalize (if (scale n d (-(ilog n - ilog d))).1 < (scale n d (-(ilog n - ilog d))).2 then ilog n - ilog d - 1
      else ilog n - ilog d) = e at below ⊢
    obtain ⟨scaled, ratio⟩ := scale_ratio (n := n) positive (-(max e (1 - bias k) - fracBits k))
    have scaledNonneg : 0 ≤ (scale n d (-(max e (1 - bias k) - fracBits k))).1 := by
      unfold scale
      split <;> positivity
    generalize scale n d (-(max e (1 - bias k) - fracBits k)) = ac at scaled ratio scaledNonneg ⊢
    have rounded := roundEven_nonneg scaledNonneg scaled
    have bound : ∀ {t : Nat}, e + 1 - (max e (1 - bias k) - fracBits k) ≤ t → roundEven ac.1 ac.2 ≤ 2 ^ t := by
      intro t le
      refine roundEven_le scaled ?_
      rw [ratio]
      calc (n : ℚ) / d * 2 ^ (-(max e (1 - bias k) - fracBits k))
          < 2 ^ (e + 1) * 2 ^ (-(max e (1 - bias k) - fracBits k)) :=
            mul_lt_mul_of_pos_right below (by positivity)
        _ = 2 ^ (e + 1 - (max e (1 - bias k) - fracBits k)) := by
            rw [← zpow_add₀ (by norm_num)]
            congr 1
        _ ≤ 2 ^ (t : Int) := zpow_le_zpow_right₀ (by norm_num) le
        _ = 2 ^ t := zpow_natCast 2 t
    generalize roundEven ac.1 ac.2 = q at rounded bound ⊢
    have most : q ≤ 2 ^ (fracBits k + 1) := bound (by push_cast; omega)
    have subnormal : e < 1 - bias k → q ≤ 2 ^ fracBits k := fun less => bound (by omega)
    have double : (2 : Int) ^ (fracBits k + 1) = 2 ^ fracBits k * 2 := pow_succ 2 _
    have unit : (0 : Int) < 2 ^ fracBits k := by positivity
    split
    · rename_i large
      dsimp only
      split
      · exact infinity_pattern sign
      · rename_i notInf
        refine assembled_pattern sign ?_ ?_ ?_ (not_lt.1 notInf)
        · omega
        · omega
        · by_contra less
          have := subnormal (by omega)
          omega
    · rename_i fits
      dsimp only
      split
      · exact infinity_pattern sign
      · rename_i notInf
        exact assembled_pattern sign rounded (not_le.1 fits) (le_max_right _ _) (not_lt.1 notInf)

/-! ### Operations -/

theorem finiteRatio_pos {p : Int} (nonneg : 0 ≤ n) :
    0 ≤ (finiteRatio n p).1 ∧ 0 < (finiteRatio n p).2 ∧ (n ≠ 0 → 0 < (finiteRatio n p).1) := by
  unfold finiteRatio scale
  split
  · refine ⟨by positivity, by norm_num, fun nonzero => ?_⟩
    have positive : 0 < n := lt_of_le_of_ne nonneg (Ne.symm nonzero)
    positivity
  · exact ⟨nonneg, by positivity, fun nonzero => lt_of_le_of_ne nonneg (Ne.symm nonzero)⟩

theorem magnitude_nonneg (n : Int) : 0 ≤ magnitudeInteger n := by
  unfold magnitudeInteger
  split <;> omega

theorem ieeeFromInt_pattern (k : Fmt) (n : Int) : Pattern k (ieeeFromInt k n) :=
  roundRatio_pattern (signBit_if _) (magnitude_nonneg n) one_pos

theorem ieeeNeg_pattern {k : Fmt} (pattern : Pattern k a) : Pattern k (ieeeNeg k a) :=
  fits_xor pattern (signBits_pattern (.inr rfl))

theorem x87Nan_pattern (left : Pattern .x a) (right : Pattern .x b) : Pattern .x (x87Nan a b) := by
  unfold x87Nan
  refine quiet_pattern ?_
  repeat' split
  all_goals assumption

section
variable {k : Fmt} {sa sb : Int} {ta tb : Num}

theorem binaryAdd_pattern (signA : SignBit sa) (signB : SignBit sb) (finiteA : ∀ n p, ta = .finite n p → 0 ≤ n)
    (finiteB : ∀ n p, tb = .finite n p → 0 ≤ n) : Pattern k (binaryAdd k sa ta sb tb) := by
  unfold binaryAdd
  split
  · rename_i na pa nb pb
    refine roundRatio_pattern ?_ (magnitude_nonneg _) ?_
    · split
      · exact .inr rfl
      · exact signBit_if _
    · exact mul_pos (finiteRatio_pos (finiteA _ _ rfl)).2.1 (finiteRatio_pos (finiteB _ _ rfl)).2.1
  · split
    · exact invalid_pattern k
    · split
      · exact infinity_pattern signA
      · exact infinity_pattern signB

theorem binaryMul_pattern (sign : SignBit s) (finiteA : ∀ n p, ta = .finite n p → 0 ≤ n)
    (finiteB : ∀ n p, tb = .finite n p → 0 ≤ n) : Pattern k (binaryMul k s ta tb) := by
  unfold binaryMul
  split
  · exact invalid_pattern k
  · split
    · exact roundRatio_pattern sign (mul_nonneg (finiteRatio_pos (finiteA _ _ rfl)).1
        (finiteRatio_pos (finiteB _ _ rfl)).1)
        (mul_pos (finiteRatio_pos (finiteA _ _ rfl)).2.1 (finiteRatio_pos (finiteB _ _ rfl)).2.1)
    · exact infinity_pattern sign

theorem binaryDiv_pattern (sign : SignBit s) (finiteA : ∀ n p, ta = .finite n p → 0 ≤ n)
    (finiteB : ∀ n p, tb = .finite n p → 0 ≤ n) : Pattern k (binaryDiv k s ta tb) := by
  unfold binaryDiv
  split
  · exact invalid_pattern k
  split
  · exact infinity_pattern sign
  split
  · exact signBits_pattern sign
  split
  · exact infinity_pattern sign
  split
  · rename_i na pa nb pb _ _ nonzero _
    have divisor : nb ≠ 0 := by
      rintro rfl
      exact nonzero rfl
    have positive := (finiteRatio_pos (p := pb) (finiteB _ _ rfl)).2.2 divisor
    exact roundRatio_pattern sign (mul_nonneg (finiteRatio_pos (finiteA _ _ rfl)).1
      (finiteRatio_pos (finiteB _ _ rfl)).2.1.le) (mul_pos (finiteRatio_pos (finiteA _ _ rfl)).2.1 positive)
  · exact invalid_pattern k

end

theorem ieeeBinary_pattern {k : Fmt} {op : Arith} (left : Pattern k a) (right : Pattern k b) :
    Pattern k (ieeeBinary k op a b) := by
  have signA := decode_sign left
  have signB := decode_sign right
  have finiteA : ∀ n p, (decode k a).2 = .finite n p → 0 ≤ n := fun n p h => decode_finite (Prod.ext rfl h)
  have finiteB : ∀ n p, (decode k b).2 = .finite n p → 0 ≤ n := fun n p h => decode_finite (Prod.ext rfl h)
  unfold ieeeBinary
  dsimp only
  split
  · rename_i nans
    obtain ⟨_, _, rfl⟩ := nans
    exact x87Nan_pattern left right
  split
  · exact quiet_pattern left
  split
  · exact quiet_pattern right
  cases op with
  | add => exact binaryAdd_pattern signA signB finiteA finiteB
  | sub => exact binaryAdd_pattern signA signB.other finiteA finiteB
  | mul => exact binaryMul_pattern (signA.xor signB) finiteA finiteB
  | div => exact binaryDiv_pattern (signA.xor signB) finiteA finiteB

/-- A NaN's payload moved to another format is a fraction of it. -/
theorem payload_fits (src dst : Fmt) (a : Int) : Fits (fracBits dst)
    (if fracBits src ≤ fracBits dst then a % 2 ^ fracBits src * 2 ^ (fracBits dst - fracBits src)
      else a % 2 ^ fracBits src / 2 ^ (fracBits src - fracBits dst)) := by
  have low : 0 ≤ a % 2 ^ fracBits src := Int.emod_nonneg _ (by positivity)
  have high : a % 2 ^ fracBits src < 2 ^ fracBits src := Int.emod_lt_of_pos _ (by positivity)
  split
  · rename_i le
    refine ⟨by positivity, ?_⟩
    rw [show (2 : Int) ^ fracBits dst = 2 ^ fracBits src * 2 ^ (fracBits dst - fracBits src) by
      rw [← pow_add]; congr 1; omega]
    exact mul_lt_mul_of_pos_right high (by positivity)
  · rename_i le
    refine ⟨Int.ediv_nonneg low (by positivity), ?_⟩
    rw [Int.ediv_lt_iff_lt_mul (by positivity), ← pow_add, show fracBits dst + (fracBits src - fracBits dst) =
      fracBits src by omega]
    exact high

theorem ieeeConvert_pattern {src : Fmt} (dst : Fmt) (pattern : Pattern src a) : Pattern dst (ieeeConvert src dst a) := by
  have sign := decode_sign pattern
  unfold ieeeConvert
  split
  · rename_i s decoded
    rw [decoded] at sign
    exact infinity_pattern sign
  · rename_i s decoded
    rw [decoded] at sign
    refine quiet_pattern (fits_lor (infinity_pattern sign) ((payload_fits src dst a).mono ?_))
    cases dst <;> decide
  · rename_i s n p decoded
    rw [decoded] at sign
    have positive := finiteRatio_pos (p := p) (decode_finite decoded)
    exact roundRatio_pattern sign positive.1 positive.2.1

end Nanofil.Ieee
