import Mathlib.Algebra.Order.Field.Power
import Mathlib.Algebra.Order.Field.Rat
import Mathlib.Tactic.FieldSimp
import Mathlib.Tactic.Linarith
import Mathlib.Tactic.Positivity
import Mathlib.Tactic.Ring

/-! Rounding to the nearest of the numbers that a significand of `f + 1` bits and a bounded exponent make. -/
namespace Nearest

/-- The numbers of a format: a significand times a power of two. -/
def Representable (f : Nat) (lo hi : Int) (v : ℚ) : Prop :=
  ∃ m e : Int, 0 ≤ m ∧ m < 2 ^ (f + 1) ∧ lo ≤ e ∧ e ≤ hi ∧ v = m * 2 ^ e

variable {f : Nat} {lo hi step : Int} {q t v : ℚ} {n m : Int}

/-- An integer within a half is nearest; another is as near only at a half. -/
theorem integer_nearest (half : |n - t| ≤ 1 / 2) (m : Int) : |n - t| ≤ |m - t| ∧ (|n - t| = |m - t| → m = n ∨ |n - t| = 1 / 2) := by
  by_cases same : m = n
  · subst same
    exact ⟨le_refl _, fun _ => .inl rfl⟩
  · have apart : (1 : ℚ) ≤ |(m : ℚ) - n| := by
      have distinct : 1 ≤ |m - n| := Int.one_le_abs (sub_ne_zero.2 same)
      exact_mod_cast distinct
    have triangle : |(m : ℚ) - n| ≤ |m - t| + |n - t| := by
      rw [show (m : ℚ) - n = (m - t) - (n - t) by ring]
      exact abs_sub _ _
    exact ⟨by linarith, fun eq => .inr (by linarith)⟩

/-- A number of the format below the step's grid is below the last power of two. -/
theorem below_grid {e : Int} (small : m < 2 ^ (f + 1)) (below : e < step) : (m : ℚ) * 2 ^ e < 2 ^ (step + f) := by
  have two : (2 : ℚ) ≠ 0 := by norm_num
  calc (m : ℚ) * 2 ^ e < 2 ^ (f + 1) * 2 ^ e := by
        refine mul_lt_mul_of_pos_right ?_ (by positivity)
        exact_mod_cast small
    _ = 2 ^ (e + (f + 1 : Nat)) := by rw [zpow_add₀ two, zpow_natCast, mul_comm]
    _ ≤ 2 ^ (step + f) := zpow_le_zpow_right₀ (by norm_num) (by push_cast; omega)

/-- Rounding on the grid of a step is rounding among all numbers of the format, where the step is the least
or the number has all the bits. -/
theorem grid_nearest (half : |n - q / 2 ^ step| ≤ 1 / 2) (full : step = lo ∨ (2 : ℚ) ^ (step + f) ≤ q)
    (rep : Representable f lo hi v) :
    |n * 2 ^ step - q| ≤ |v - q| ∧ (|n * 2 ^ step - q| = |v - q| → v = n * 2 ^ step ∨ |n - q / 2 ^ step| = 1 / 2) := by
  obtain ⟨m, e, -, small, low, -, rfl⟩ := rep
  have unit : (0 : ℚ) < 2 ^ step := by positivity
  have two : (2 : ℚ) ≠ 0 := by norm_num
  have scaled (x : ℚ) : |x * 2 ^ step - q| = |x - q / 2 ^ step| * 2 ^ step := by
    rw [← abs_of_pos unit, ← abs_mul, abs_of_pos unit, sub_mul, div_mul_cancel₀ q unit.ne']
  rcases le_or_gt step e with on | under
  · obtain ⟨k, same⟩ := Int.eq_ofNat_of_zero_le (show 0 ≤ e - step by omega)
    have grid : (m : ℚ) * 2 ^ e = ((m * 2 ^ k : Int) : ℚ) * 2 ^ step := by
      rw [show e = (k : Int) + step by omega, zpow_add₀ two, zpow_natCast]
      push_cast
      ring
    obtain ⟨near, tie⟩ := integer_nearest half (m * 2 ^ k)
    rw [grid, scaled, scaled]
    refine ⟨mul_le_mul_of_nonneg_right near unit.le, fun eq => ?_⟩
    rcases tie (mul_right_cancel₀ unit.ne' eq) with same | tie
    · exact .inl (by rw [same])
    · exact .inr tie
  · have high : (2 : ℚ) ^ (step + f) ≤ q := full.resolve_left (by omega)
    have below := below_grid small under
    have power : (2 : ℚ) ^ (step + (f : Int)) = ((2 ^ f : Int) : ℚ) * 2 ^ step := by
      rw [zpow_add₀ two, zpow_natCast]
      push_cast
      ring
    have near := (integer_nearest half (2 ^ f)).1
    have strict : |n * 2 ^ step - q| < |m * 2 ^ e - q| := by
      calc |n * 2 ^ step - q| = |n - q / 2 ^ step| * 2 ^ step := scaled n
        _ ≤ |((2 ^ f : Int) : ℚ) - q / 2 ^ step| * 2 ^ step := mul_le_mul_of_nonneg_right near unit.le
        _ = |2 ^ (step + (f : Int)) - q| := by rw [← scaled, power]
        _ = q - 2 ^ (step + (f : Int)) := by rw [abs_sub_comm, abs_of_nonneg (by linarith)]
        _ < q - m * 2 ^ e := by linarith
        _ = |m * 2 ^ e - q| := by rw [abs_sub_comm, abs_of_nonneg (by linarith)]
    exact ⟨strict.le, fun eq => absurd eq strict.ne⟩

end Nearest
