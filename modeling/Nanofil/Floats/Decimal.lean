import Nanofil.Floats.Operations
import Nanofil.Constants.Floats

/-! `ieee_parse/3` reads every literal it accepts to the correctly rounded value, and what `ieee_decimal/3` prints of
a finite number is read back to the same bits. -/
namespace Nanofil.Ieee
open List Option
open Constants (Magnitude Mantissa Exponent AllDigits isDigit ieeeParse)

/-! ### Printing -/

/-- The host's text of an integer. -/
def numberChars (n : Int) : List Char := if n < 0 then '-' :: Nat.toDigits 10 (-n).toNat else Nat.toDigits 10 n.toNat

def ieeeDecimal (k : Fmt) (b : Int) : Option (List Char) :=
  match decode k b with
  | (s, .finite n e) =>
    let mp := if 0 ≤ e then (n * 2 ^ e.toNat, 0) else (n * 5 ^ (-e).toNat, e)
    some ((if s = 1 then ['-'] else []) ++ numberChars mp.1 ++ 'e' :: numberChars mp.2)
  | _ => none

/-! ### Bits from values -/

section
variable {k : Fmt} {s m m' e e' b r : Int} {q : ℚ}

/-- A canonical pattern's significand is full or its exponent is least, and they determine the pattern. -/
theorem canonical_fields (canonical : Canonical k b) (decoded : decode k b = (s, .finite m e)) : 0 ≤ m ∧ m < 2 ^ (fracBits k + 1) ∧
    1 - bias k - fracBits k ≤ e ∧ e ≤ bias k - fracBits k ∧ (m < 2 ^ fracBits k → e = 1 - bias k - fracBits k) ∧
      b = signBits k s + assembled k m (e + fracBits k) := by
  obtain ⟨⟨low, high⟩, integer⟩ := canonical
  unfold decode at decoded
  simp only [Prod.mk.injEq] at decoded
  obtain ⟨sign, num⟩ := decoded
  split at num
  · split at num <;> cases num
  · rename_i max
    have cases_num : (b / 2 ^ exponentShift k % 2 ^ expBits k = 0 ∧ m = b % 2 ^ exponentShift k ∧ e = 1 - bias k - fracBits k) ∨
        (b / 2 ^ exponentShift k % 2 ^ expBits k ≠ 0 ∧ m = 2 ^ fracBits k + b % 2 ^ fracBits k ∧
          e = b / 2 ^ exponentShift k % 2 ^ expBits k - bias k - fracBits k) := by
      split at num
      · rename_i zero
        cases num
        exact .inl ⟨zero, rfl, rfl⟩
      · rename_i nonzero
        cases num
        exact .inr ⟨nonzero, rfl, rfl⟩
    clear num
    unfold assembled
    rcases cases_num with ⟨zero, rfl, rfl⟩ | ⟨nonzero, rfl, rfl⟩
    · have fraction : b % 2 ^ exponentShift k < 2 ^ fracBits k := by
        cases k <;> simp only [exponentShift, fracBits, expBits, integerBit, patternBits] at * <;> norm_num at * <;> omega
      rw [if_pos fraction]
      cases k <;> simp only [signBits, exponentShift, fracBits, expBits, integerBit, bias, patternBits] at * <;> norm_num at * <;> omega
    · have full : ¬2 ^ fracBits k + b % 2 ^ fracBits k < 2 ^ fracBits k := by
        have := Int.emod_nonneg b (b := 2 ^ fracBits k) (by positivity)
        omega
      rw [if_neg full]
      cases k <;> simp only [signBits, exponentShift, fracBits, expBits, integerBit, bias, patternBits] at * <;> norm_num at * <;> omega

/-- Normal significands and exponents with one value are the same. -/
theorem fields_inj {f : Nat} {least : Int} (small : m < 2 ^ (f + 1)) (low : least ≤ e) (full' : m' < 2 ^ f → e' = least)
    (le : e ≤ e') (same : (m : ℚ) * 2 ^ e = m' * 2 ^ e') : m = m' ∧ e = e' := by
  obtain ⟨d, eq⟩ := Int.eq_ofNat_of_zero_le (show 0 ≤ e' - e by omega)
  obtain rfl : e' = e + d := by omega
  have unit : (2 : ℚ) ^ e ≠ 0 := by positivity
  have scaled : m = m' * 2 ^ d := by
    rw [zpow_add₀ (by norm_num), zpow_natCast, mul_comm ((2 : ℚ) ^ e), ← mul_assoc, mul_left_inj' unit] at same
    exact_mod_cast same
  cases d with
  | zero => simpa using scaled
  | succ d =>
    have full : 2 ^ f ≤ m' := by
      by_contra short
      have := full' (not_le.1 short)
      omega
    have : (2 : Int) ^ (f + 1) ≤ m' * 2 ^ (d + 1) := by
      rw [pow_succ, pow_succ]
      nlinarith [show (1 : Int) ≤ 2 ^ d from one_le_pow₀ (by norm_num), show (0 : Int) < 2 ^ f by positivity]
    omega

theorem holds_lt {v : ℚ} (holds : Holds k v) : v < overflow k := by
  obtain ⟨m, e, nonneg, small, -, high, rfl⟩ := holds
  have significand : (m : ℚ) < 2 ^ (fracBits k + 1) - 1 / 2 := by
    have le : (m : ℚ) ≤ 2 ^ (fracBits k + 1) - 1 := by exact_mod_cast Int.le_sub_one_of_lt small
    linarith
  have exponent : (2 : ℚ) ^ e ≤ 2 ^ (bias k - fracBits k) := zpow_le_zpow_right₀ (by norm_num) high
  have positive : (0 : ℚ) < 2 ^ (bias k - fracBits k) := by positivity
  calc (m : ℚ) * 2 ^ e ≤ m * 2 ^ (bias k - fracBits k) := mul_le_mul_of_nonneg_left exponent (by exact_mod_cast nonneg)
    _ < overflow k := mul_lt_mul_of_pos_right significand positive

/-- What a number of the format is rounded to is its own bits. -/
theorem rounded_self (canonical : Canonical k b) (decoded : decode k b = (s, .finite m e)) (rounded : Rounded k s (m * 2 ^ e) r) :
    r = b := by
  obtain ⟨nonneg, small, low, high, least, fields⟩ := canonical_fields canonical decoded
  have holds : Holds k (m * 2 ^ e) := ⟨m, e, nonneg, small, low, high, rfl⟩
  rcases rounded with ⟨above, -⟩ | ⟨-, canonical', m', e', decoded', -, nearest⟩
  · exact absurd (holds_lt holds) (not_lt.2 above)
  · obtain ⟨nonneg', small', low', high', least', fields'⟩ := canonical_fields canonical' decoded'
    have same : (m' : ℚ) * 2 ^ e' = m * 2 ^ e := by
      have near := (nearest _ holds).1
      rw [sub_self, abs_zero] at near
      exact sub_eq_zero.1 (abs_eq_zero.1 (le_antisymm near (abs_nonneg _)))
    have both : m' = m ∧ e' = e := by
      rcases le_total e' e with le | le
      · exact fields_inj small' low' least le same
      · obtain ⟨eqM, eqE⟩ := fields_inj small low least' le same.symm
        exact ⟨eqM.symm, eqE.symm⟩
    rw [fields', fields, both.1, both.2]

end

/-! ### Reading -/

/-- A literal without a sign and its exact value: one of C's, or decimal digits alone. -/
inductive Unsigned : List Char → ℚ → Prop
  | constant {cs : List Char} {q : ℚ} (magnitude : Magnitude cs q) : Unsigned cs q
  | digits {cs : List Char} (filled : cs ≠ []) (digits : AllDigits 10 cs) : Unsigned cs (Constants.value 10 cs)

/-- A literal that `ieee_parse/3` reads: its sign and its magnitude. -/
inductive Literal : List Char → Int → ℚ → Prop
  | mk {sg cs : List Char} {s : Int} {q : ℚ} (sign : Constants.Sign sg (1 - 2 * s)) (unsigned : Unsigned cs q) : Literal (sg ++ cs) s q

section
variable {k : Fmt} {s b : Int} {cs sg : List Char} {q : ℚ}

theorem unsigned_spelled (unsigned : Unsigned cs q) :
    ∃ n radix e, Constants.magnitude cs = some (n, radix, e) ∧ 0 < radix ∧ q = n * (radix : ℚ) ^ e := by
  cases unsigned with
  | constant magnitude => exact Constants.magnitude_spelled magnitude
  | digits filled digits =>
    have mantissa : Mantissa 10 cs _ := .whole filled digits
    have plain : Constants.prefixed ['x', 'X'] (cs ++ []) = none := Constants.mantissa_not_prefixed [] mantissa (by simp) (by simp)
    obtain ⟨n, places, read, eq⟩ := Constants.significand_spelled [] (by decide) mantissa (by simp)
    rw [append_nil] at plain read
    refine ⟨n, 10, 0 - places, ?_, by decide, ?_⟩
    · simp [Constants.magnitude, plain, read, Constants.decimalExponent]
    · rw [eq, zero_sub, zpow_neg, zpow_natCast]
      push_cast
      rw [div_eq_mul_inv]

theorem mantissa_head {base : Nat} {m : List Char} (mantissa : Mantissa base m q) : ∃ c rest, m = c :: rest ∧ (isDigit base c = true ∨ c = '.') := by
  cases mantissa with
  | whole filled digits =>
    obtain ⟨c, rest, rfl⟩ := exists_cons_of_ne_nil filled
    exact ⟨c, rest, rfl, .inl (digits c mem_cons_self)⟩
  | point filled left right =>
    rename_i before after
    cases before with
    | nil => exact ⟨'.', after, rfl, .inr rfl⟩
    | cons c rest => exact ⟨c, _, rfl, .inl (left c mem_cons_self)⟩

/-- A literal starts with no sign. -/
theorem unsigned_head (unsigned : Unsigned cs q) : cs.head? ≠ some '-' ∧ cs.head? ≠ some '+' := by
  have of_char {c : Char} {rest : List Char} (first : isDigit 10 c = true ∨ c = '.') :
      (c :: rest).head? ≠ some '-' ∧ (c :: rest).head? ≠ some '+' := by
    constructor <;>
    · rintro ⟨⟩
      exact absurd first (by decide)
  cases unsigned with
  | digits filled digits =>
    obtain ⟨c, rest, rfl⟩ := exists_cons_of_ne_nil filled
    exact of_char (.inl (digits c mem_cons_self))
  | constant magnitude =>
    cases magnitude with
    | fractional mantissa | scientific mantissa =>
      obtain ⟨c, rest, rfl, first⟩ := mantissa_head mantissa
      exact of_char first
    | hexadecimal => exact ⟨by simp, by simp⟩

theorem sign_spelled (signed : Constants.Sign sg (1 - 2 * s)) (unsigned : Unsigned cs q) : Constants.sign (sg ++ cs) = (s, cs) := by
  obtain ⟨minus, plus⟩ := unsigned_head unsigned
  generalize one : 1 - 2 * s = t at signed
  cases signed with
  | none =>
    obtain rfl : s = 0 := by omega
    rw [nil_append, Constants.sign, if_neg minus, if_neg plus]
  | plus =>
    obtain rfl : s = 0 := by omega
    rfl
  | minus =>
    obtain rfl : s = 1 := by omega
    rfl

/-- Every literal is read, to its correctly rounded value. -/
theorem ieeeParse_rounded (literal : Literal cs s q) : ∃ b, ieeeParse k cs = some b ∧ Rounded k s q b := by
  cases literal with
  | mk signed unsigned =>
    have sign : SignBit s := by
      generalize one : 1 - 2 * s = t at signed
      unfold SignBit
      cases signed <;> omega
    obtain ⟨n, radix, e, read, positive, rfl⟩ := unsigned_spelled unsigned
    unfold ieeeParse
    rw [sign_spelled signed unsigned]
    simp only [read, bind_eq_bind, bind_some]
    have nonneg : (0 : Int) ≤ n := Int.natCast_nonneg n
    split_ifs with up
    · obtain ⟨i, rfl⟩ := Int.eq_ofNat_of_zero_le up
      exact ⟨_, rfl, roundRatio_rounded sign (by positivity) one_pos (by simp)⟩
    · obtain ⟨i, eq⟩ := Int.eq_ofNat_of_zero_le (show 0 ≤ -e by omega)
      obtain rfl : e = -(i : Int) := by omega
      exact ⟨_, rfl, roundRatio_rounded sign nonneg (by positivity) (by simp [div_eq_mul_inv])⟩

/-- What is read is a literal. -/
theorem ieeeParse_literal (read : ieeeParse k cs = some b) : ∃ s q, Literal cs s q := by
  obtain ⟨sg, parts, signed⟩ := Constants.sign_sound cs
  unfold ieeeParse at read
  simp only [bind_eq_bind, bind_eq_some_iff] at read
  obtain ⟨⟨n, radix, e⟩, magnitude, -⟩ := read
  rw [parts]
  rcases Constants.magnitude_sound magnitude with ⟨q, spelled⟩ | ⟨filled, digits⟩
  · exact ⟨_, q, .mk signed (.constant spelled)⟩
  · exact ⟨_, _, .mk signed (.digits filled digits)⟩

/-! ### Round trips -/

theorem toDigits_spelled (n : Nat) : Nat.toDigits 10 n ≠ [] ∧ AllDigits 10 (Nat.toDigits 10 n) ∧ Constants.value 10 (Nat.toDigits 10 n) = n := by
  have digit : ∀ d < 10, AllDigits 10 [Nat.digitChar d] ∧ Constants.value 10 [Nat.digitChar d] = d := by
    have all : ∀ d < 10, isDigit 10 (Nat.digitChar d) = true ∧ Constants.value 10 [Nat.digitChar d] = d := by decide
    exact fun d less => ⟨fun c mem => by rw [mem_singleton.1 mem]; exact (all d less).1, (all d less).2⟩
  induction n using Nat.strongRecOn with
  | _ n ih =>
    rcases Nat.lt_or_ge n 10 with less | le
    · rw [Nat.toDigits_of_lt_base less]
      exact ⟨by simp, digit n less⟩
    · obtain ⟨-, digits, value⟩ := ih (n / 10) (by omega)
      obtain ⟨last, lastValue⟩ := digit (n % 10) (Nat.mod_lt _ (by decide))
      rw [Nat.toDigits_of_base_le (by decide) le]
      refine ⟨by simp, digits.append last, ?_⟩
      rw [Constants.value_append, value, lastValue]
      show n / 10 * 10 ^ 1 + n % 10 = n
      omega

theorem numberChars_exponent (n : Int) : Exponent ['e', 'E'] ('e' :: numberChars n) n := by
  unfold numberChars
  split_ifs with negative
  · obtain ⟨filled, digits, value⟩ := toDigits_spelled (-n).toNat
    have exponent : Exponent ['e', 'E'] ('e' :: ['-'] ++ Nat.toDigits 10 (-n).toNat) _ := .mk (by decide) .minus filled digits
    rw [value, Int.toNat_of_nonneg (by omega), neg_mul, one_mul, neg_neg] at exponent
    exact exponent
  · obtain ⟨filled, digits, value⟩ := toDigits_spelled n.toNat
    have exponent : Exponent ['e', 'E'] ('e' :: [] ++ Nat.toDigits 10 n.toNat) _ := .mk (by decide) .none filled digits
    rw [value, Int.toNat_of_nonneg (by omega), one_mul] at exponent
    exact exponent

/-- The number printed is exact. -/
theorem printed_literal {m p : Int} (sign : SignBit s) (nonneg : 0 ≤ m) :
    Literal ((if s = 1 then ['-'] else []) ++ (numberChars m ++ 'e' :: numberChars p)) s (m * 10 ^ p) := by
  have signed : Constants.Sign (if s = 1 then ['-'] else []) (1 - 2 * s) := by
    rcases sign with rfl | rfl
    · exact .none
    · exact .minus
  obtain ⟨filled, digits, value⟩ := toDigits_spelled m.toNat
  have mantissa : Mantissa 10 (numberChars m) m := by
    have whole : Mantissa 10 (Nat.toDigits 10 m.toNat) _ := .whole filled digits
    rw [value] at whole
    unfold numberChars
    rw [if_neg (not_lt.2 nonneg)]
    have cast : ((m.toNat : Nat) : ℚ) = m := by exact_mod_cast Int.toNat_of_nonneg nonneg
    rwa [cast] at whole
  exact .mk signed (.constant (.scientific mantissa (numberChars_exponent p)))

/-- Printing a finite number and reading it gives its bits. -/
theorem decimal_roundTrip {m e : Int} (canonical : Canonical k b) (decoded : decode k b = (s, .finite m e)) :
    ∃ cs, ieeeDecimal k b = some cs ∧ ieeeParse k cs = some b := by
  have sign : SignBit s := by
    have := decode_sign canonical.1
    rwa [decoded] at this
  have nonneg := decode_finite decoded
  unfold ieeeDecimal
  simp only [decoded, append_assoc]
  refine ⟨_, rfl, ?_⟩
  have exact_value {n p : Int} (nonneg : 0 ≤ n) (value : (n : ℚ) * 10 ^ p = m * 2 ^ e) :
      ieeeParse k ((if s = 1 then ['-'] else []) ++ (numberChars n ++ 'e' :: numberChars p)) = some b := by
    obtain ⟨r, read, rounded⟩ := ieeeParse_rounded (k := k) (printed_literal (p := p) sign nonneg)
    rw [value] at rounded
    rw [read, rounded_self canonical decoded rounded]
  by_cases up : 0 ≤ e
  · obtain ⟨i, rfl⟩ := Int.eq_ofNat_of_zero_le up
    rw [if_pos up]
    exact exact_value (by positivity) (by simp)
  · obtain ⟨i, eq⟩ := Int.eq_ofNat_of_zero_le (show 0 ≤ -e by omega)
    obtain rfl : e = -(i : Int) := by omega
    rw [if_neg up]
    refine exact_value (by positivity) ?_
    have ten : (10 : ℚ) ^ i = 5 ^ i * 2 ^ i := by rw [← mul_pow]; norm_num
    simp only [neg_neg, Int.toNat_natCast, zpow_neg, zpow_natCast, ten]
    push_cast
    field_simp

end

/-- Finite numbers are read back from their decimals, and every literal is read to its correctly rounded value. -/
theorem decimal_exact (k : Fmt) :
    (∀ b, Canonical k b → (∃ s m e, decode k b = (s, .finite m e)) → ∃ cs, ieeeDecimal k b = some cs ∧ ieeeParse k cs = some b) ∧
      ∀ cs b, ieeeParse k cs = some b → (∃ s q, Literal cs s q) ∧ ∀ s q, Literal cs s q → Rounded k s q b := by
  refine ⟨fun b canonical ⟨s, m, e, decoded⟩ => decimal_roundTrip canonical decoded, fun cs b read => ?_⟩
  refine ⟨ieeeParse_literal read, fun s q literal => ?_⟩
  obtain ⟨r, again, rounded⟩ := ieeeParse_rounded (k := k) literal
  obtain rfl : b = r := Option.some.inj (read.symm.trans again)
  exact rounded

/-- The least subnormal `double` is read back from its decimal. -/
theorem least_decimal : ∃ cs, ieeeDecimal .d 1 = some cs ∧ ieeeParse .d cs = some 1 :=
  (decimal_exact .d).1 1 ⟨⟨by decide, by decide⟩, fun no => by cases no⟩ ⟨0, 1, -1074, by decide⟩

end Nanofil.Ieee
