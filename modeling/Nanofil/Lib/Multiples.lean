import Mathlib.Algebra.Order.Ring.Nat

/-! Powers of two as alignments, and the next multiple of one. -/
namespace Multiples

def PowTwo (n : Nat) : Prop := ∃ k, n = 2 ^ k

theorem PowTwo.one : PowTwo 1 := ⟨0, rfl⟩

theorem PowTwo.pos {n : Nat} (pow : PowTwo n) : 0 < n := by
  obtain ⟨k, rfl⟩ := pow
  exact Nat.two_pow_pos k

/-- Of two powers of two the smaller one divides the other. -/
theorem PowTwo.dvd {m n : Nat} (first : PowTwo m) (second : PowTwo n) (le : m ≤ n) : m ∣ n := by
  obtain ⟨j, rfl⟩ := first
  obtain ⟨k, rfl⟩ := second
  exact Nat.pow_dvd_pow 2 ((Nat.pow_le_pow_iff_right (by decide)).1 le)

theorem PowTwo.max {m n : Nat} (first : PowTwo m) (second : PowTwo n) : PowTwo (max m n) := by
  rcases le_total m n with le | le
  · rwa [max_eq_right le]
  · rwa [max_eq_left le]

theorem PowTwo.dvd_max_left {m n : Nat} (first : PowTwo m) (second : PowTwo n) : m ∣ Max.max m n :=
  first.dvd (first.max second) (le_max_left m n)

theorem PowTwo.dvd_max_right {m n : Nat} (first : PowTwo m) (second : PowTwo n) : n ∣ Max.max m n :=
  second.dvd (first.max second) (le_max_right m n)

def nextMultiple (n a : Nat) : Nat := (n + a - 1) / a * a

theorem dvd_nextMultiple (n a : Nat) : a ∣ nextMultiple n a := Nat.dvd_mul_left a _

theorem le_nextMultiple (n : Nat) {a : Nat} (pos : 0 < a) : n ≤ nextMultiple n a := by
  have split := Nat.div_add_mod (n + a - 1) a
  have small := Nat.mod_lt (n + a - 1) pos
  rw [nextMultiple, Nat.mul_comm]
  omega

/-- A unit that starts before a multiple of its size ends there at the latest. -/
theorem unit_le {s off size : Nat} (first : s ∣ off) (second : s ∣ size) (lt : off < size) : off + s ≤ size := by
  obtain ⟨i, rfl⟩ := first
  obtain ⟨j, rfl⟩ := second
  have step : i + 1 ≤ j := Nat.lt_of_mul_lt_mul_left lt
  calc s * i + s = s * (i + 1) := (Nat.mul_succ s i).symm
    _ ≤ s * j := Nat.mul_le_mul_left s step

end Multiples
