import Mathlib.Data.Int.Bitwise
import Mathlib.Data.Nat.Bitwise
import Mathlib.Tactic.Positivity

/-! Bitwise operations on integers below a power of two. -/
namespace Bits

variable {a b : Int} {n : Nat}

/-- An integer that `n` bits hold. -/
def Fits (n : Nat) (a : Int) : Prop := 0 ≤ a ∧ a < 2 ^ n

theorem Fits.toNat (fits : Fits n a) : ∃ x : Nat, a = x ∧ x < 2 ^ n := by
  obtain ⟨x, rfl⟩ := Int.eq_ofNat_of_zero_le fits.1
  exact ⟨x, rfl, by exact_mod_cast fits.2⟩

theorem fits_nat {x : Nat} (lt : x < 2 ^ n) : Fits n x := ⟨by omega, by exact_mod_cast lt⟩

theorem Fits.mono {m : Nat} (fits : Fits n a) (le : n ≤ m) : Fits m a := by
  have grows : (2 : Int) ^ n ≤ 2 ^ m := by exact_mod_cast Nat.pow_le_pow_right (by omega) le
  exact ⟨fits.1, lt_of_lt_of_le fits.2 grows⟩

theorem fits_emod (a : Int) (n : Nat) : Fits n (a % 2 ^ n) :=
  ⟨Int.emod_nonneg _ (by positivity), Int.emod_lt_of_pos _ (by positivity)⟩

theorem fits_pow {m : Nat} (lt : m < n) : Fits n (2 ^ m) := by
  have natLt : 2 ^ m < 2 ^ n := Nat.pow_lt_pow_right (by omega) lt
  exact ⟨by positivity, by exact_mod_cast natLt⟩

theorem land_nonneg (ha : 0 ≤ a) (hb : 0 ≤ b) : 0 ≤ Int.land a b := by
  obtain ⟨x, rfl⟩ := Int.eq_ofNat_of_zero_le ha
  obtain ⟨y, rfl⟩ := Int.eq_ofNat_of_zero_le hb
  exact Int.natCast_nonneg (x &&& y)

theorem lor_nonneg (ha : 0 ≤ a) (hb : 0 ≤ b) : 0 ≤ Int.lor a b := by
  obtain ⟨x, rfl⟩ := Int.eq_ofNat_of_zero_le ha
  obtain ⟨y, rfl⟩ := Int.eq_ofNat_of_zero_le hb
  exact Int.natCast_nonneg (x ||| y)

theorem xor_nonneg (ha : 0 ≤ a) (hb : 0 ≤ b) : 0 ≤ Int.xor a b := by
  obtain ⟨x, rfl⟩ := Int.eq_ofNat_of_zero_le ha
  obtain ⟨y, rfl⟩ := Int.eq_ofNat_of_zero_le hb
  exact Int.natCast_nonneg (x ^^^ y)

theorem fits_land (ha : Fits n a) (hb : Fits n b) : Fits n (Int.land a b) := by
  obtain ⟨x, rfl, hx⟩ := ha.toNat
  obtain ⟨y, rfl, _⟩ := hb.toNat
  exact fits_nat (lt_of_le_of_lt Nat.and_le_left hx)

theorem fits_lor (ha : Fits n a) (hb : Fits n b) : Fits n (Int.lor a b) := by
  obtain ⟨x, rfl, hx⟩ := ha.toNat
  obtain ⟨y, rfl, hy⟩ := hb.toNat
  exact fits_nat (Nat.or_lt_two_pow hx hy)

theorem fits_xor (ha : Fits n a) (hb : Fits n b) : Fits n (Int.xor a b) := by
  obtain ⟨x, rfl, hx⟩ := ha.toNat
  obtain ⟨y, rfl, hy⟩ := hb.toNat
  exact fits_nat (Nat.xor_lt_two_pow hx hy)

end Bits
