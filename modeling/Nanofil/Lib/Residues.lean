import Mathlib.Data.Int.ModEq
import Mathlib.Tactic.Linarith

/-! Integers known up to a modulus to lie in an interval. -/
namespace Residues

/-- `n` is congruent modulo `m` to an integer of the interval. -/
def In (m n : Int) (i : Int × Int) : Prop := ∃ t, i.1 ≤ t ∧ t ≤ i.2 ∧ n ≡ t [ZMOD m]

variable {m x y : Int} {i j : Int × Int}

theorem In.of_mem (low : i.1 ≤ x) (high : x ≤ i.2) : In m x i := ⟨x, low, high, Int.ModEq.refl x⟩

theorem In.point (same : x ≡ y [ZMOD m]) : In m x (y, y) := ⟨y, le_rfl, le_rfl, same⟩

theorem In.congr (mem : In m x i) (same : y ≡ x [ZMOD m]) : In m y i := by
  obtain ⟨t, low, high, h⟩ := mem
  exact ⟨t, low, high, same.trans h⟩

theorem In.emod (mem : In m x i) : In m (x % m) i := mem.congr (Int.mod_modEq x m)

theorem In.add (left : In m x i) (right : In m y j) : In m (x + y) (i.1 + j.1, i.2 + j.2) := by
  obtain ⟨t, low, high, h⟩ := left
  obtain ⟨u, low', high', h'⟩ := right
  exact ⟨t + u, add_le_add low low', add_le_add high high', h.add h'⟩

theorem In.sub (left : In m x i) (right : In m y j) : In m (x - y) (i.1 - j.2, i.2 - j.1) := by
  obtain ⟨t, low, high, h⟩ := left
  obtain ⟨u, low', high', h'⟩ := right
  exact ⟨t - u, sub_le_sub low high', sub_le_sub high low', h.sub h'⟩

/-- Scaling by a non-negative factor keeps the ends in order, by a negative one swaps them. -/
theorem In.mul_nonneg {v : Int} (left : In m x i) (same : y ≡ v [ZMOD m]) (sign : 0 ≤ v) :
    In m (x * y) (i.1 * v, i.2 * v) := by
  obtain ⟨t, low, high, h⟩ := left
  exact ⟨t * v, mul_le_mul_of_nonneg_right low sign, mul_le_mul_of_nonneg_right high sign, h.mul same⟩

theorem In.mul_nonpos {v : Int} (left : In m x i) (same : y ≡ v [ZMOD m]) (sign : v ≤ 0) :
    In m (x * y) (i.2 * v, i.1 * v) := by
  obtain ⟨t, low, high, h⟩ := left
  exact ⟨t * v, mul_le_mul_of_nonpos_right high sign, mul_le_mul_of_nonpos_right low sign, h.mul same⟩

theorem In.exact {v : Int} (mem : In m x (v, v)) : x ≡ v [ZMOD m] := by
  obtain ⟨t, low, high, h⟩ := mem
  have same : t = v := le_antisymm high low
  exact same ▸ h

end Residues
