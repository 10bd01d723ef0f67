import Mathlib.Data.Rat.Floor
import Nanofil.Floats.Decimal

/-! What `ieee.pl` does without rounding: wider formats, integers that fit, comparisons. -/
namespace Nanofil.Ieee

variable {k l : Fmt} {s m e b r : Int} {q : ℚ}

/-- A number of the format is rounded to itself. -/
theorem Rounded.exact (rounded : Rounded k s q r) (holds : Holds k q) :
    Canonical k r ∧ ∃ m e : Int, decode k r = (s, .finite m e) ∧ (m : ℚ) * 2 ^ e = q := by
  rcases rounded with ⟨above, -⟩ | ⟨-, canonical, m, e, decoded, -, nearest⟩
  · exact absurd (holds_lt holds) (not_lt.2 above)
  · have near := (nearest q holds).1
    rw [sub_self, abs_zero] at near
    exact ⟨canonical, m, e, decoded, sub_eq_zero.1 (abs_eq_zero.1 (le_antisymm near (abs_nonneg _)))⟩

theorem Holds.wider (wide : fracBits k < fracBits l) (holds : Holds k q) : Holds l q := by
  obtain ⟨m, e, nonneg, small, low, high, rfl⟩ := holds
  have more : (2 : Int) ^ (fracBits k + 1) ≤ 2 ^ (fracBits l + 1) := pow_le_pow_right₀ (by norm_num) (by omega)
  have range : 1 - bias l - fracBits l ≤ 1 - bias k - fracBits k ∧ bias k - fracBits k ≤ bias l - fracBits l := by
    revert wide
    cases k <;> cases l <;> decide
  exact ⟨m, e, nonneg, small.trans_le more, range.1.trans low, high.trans range.2, rfl⟩

/-- Without an integer bit an infinity is one pattern. -/
theorem infinite_pattern (wide : fracBits k < fracBits l) (decoded : decode k b = (s, .inf)) : b = infinity k s := by
  unfold decode at decoded
  simp only [Prod.mk.injEq] at decoded
  obtain ⟨sign, num⟩ := decoded
  split at num
  · split at num
    · cases k
      case x => cases l <;> exact absurd wide (by decide)
      all_goals
        simp only [infinity, signBits, exponentShift, fracBits, expBits, integerBit] at *
        norm_num at *
        omega
    · cases num
  · split at num <;> cases num

/-- A wider format has every number of a narrower one, and a conversion there and back changes no bit. -/
theorem convert_widens (k l : Fmt) (b : Int) (wide : fracBits k < fracBits l) (canonical : Canonical k b) (number : datum k b ≠ .nan) :
    datum l (ieeeConvert k l b) = datum k b ∧ ieeeConvert l k (ieeeConvert k l b) = b := by
  have sign := decode_sign canonical.1
  have widened : ConversionResult k l b _ := ieeeConvert_correct canonical.1
  rw [ConversionResult] at widened
  rcases decoded : decode k b with ⟨s, num⟩
  rw [decoded] at widened sign
  cases num with
  | nan => exact absurd (datum_nan.2 (congrArg Prod.snd decoded)) number
  | inf =>
    dsimp only at widened
    rw [widened]
    have back : decode l (infinity l s) = (s, .inf) := by rcases sign with rfl | rfl <;> cases l <;> decide
    have narrowed : ConversionResult l k _ _ := ieeeConvert_correct (infinity_pattern sign)
    rw [ConversionResult, back] at narrowed
    exact ⟨by rw [datum, datum, back, decoded], narrowed.trans (infinite_pattern wide decoded).symm⟩
  | finite m e =>
    have holds : Holds k (m * 2 ^ e) := by
      obtain ⟨nonneg, small, low, high, -, -⟩ := canonical_fields canonical decoded
      exact ⟨m, e, nonneg, small, low, high, rfl⟩
    obtain ⟨canonical', m', e', back, same⟩ := widened.exact (holds.wider wide)
    have narrowed : ConversionResult l k _ _ := ieeeConvert_correct canonical'.1
    simp only [ConversionResult, back, same] at narrowed
    constructor
    · rw [datum, datum, back, decoded, Datum.of, Datum.of, same]
    · exact rounded_self canonical decoded narrowed

/-- The least subnormal. -/
theorem convert_widens_least : datum .d (ieeeConvert .s .d 1) = datum .s 1 ∧ ieeeConvert .d .s (ieeeConvert .s .d 1) = 1 :=
  convert_widens .s .d 1 (by decide) ⟨⟨by decide, by decide⟩, fun no => by cases no⟩ fun nan => by cases nan

/-! ### Integers -/

/-- A finite number is cut off towards zero. -/
theorem ieeeToInt_floor (decoded : decode k b = (s, .finite m e)) : ieeeToInt k b = some ((1 - 2 * s) * ⌊(m : ℚ) * 2 ^ e⌋) := by
  obtain ⟨-, positive, -⟩ := finiteRatio_pos (p := e) (decode_finite decoded)
  obtain ⟨d, eq⟩ := Int.eq_ofNat_of_zero_le positive.le
  rw [ieeeToInt, decoded, ← finiteRatio_value, eq, Int.cast_natCast, Rat.floor_intCast_div_natCast]
  dsimp only
  rw [eq]

theorem holds_integer {n : Int} (nonneg : 0 ≤ n) (fits : n ≤ 2 ^ (fracBits k + 1)) : Holds k n := by
  have range : 1 - bias k - fracBits k ≤ 0 ∧ 1 ≤ bias k - fracBits k := by cases k <;> decide
  rcases fits.lt_or_eq with less | rfl
  · exact ⟨n, 0, nonneg, less, range.1, by omega, by simp⟩
  · refine ⟨2 ^ fracBits k, 1, by positivity, pow_lt_pow_right₀ one_lt_two (Nat.lt_succ_self _), by omega, range.2, ?_⟩
    push_cast
    rw [pow_succ]

/-- A float's integer is its value cut off towards zero, and an integer of the format's precision comes back from its float. -/
theorem toInt_exact (k : Fmt) : (∀ b n, ieeeToInt k b = some n ↔ ∃ s v, datum k b = .finite s v ∧ n = (1 - 2 * s) * ⌊v⌋) ∧
    ∀ n : Int, |n| ≤ 2 ^ (fracBits k + 1) → ieeeToInt k (ieeeFromInt k n) = some n := by
  constructor
  · intro b n
    rcases decoded : decode k b with ⟨s, num⟩
    cases num with
    | nan | inf => simp [ieeeToInt, datum, decoded, Datum.of]
    | finite m e =>
      rw [ieeeToInt_floor decoded, datum, decoded]
      simp [Datum.of, eq_comm]
  · intro n fits
    have rounded : Rounded k _ _ (ieeeFromInt k n) := ieeeFromInt_correct
    rw [← Int.cast_abs] at rounded
    obtain ⟨-, m, e, decoded, same⟩ := rounded.exact (holds_integer (abs_nonneg n) fits)
    rw [ieeeToInt_floor decoded, same, Int.floor_intCast]
    congr 1
    split_ifs with negative
    · rw [abs_of_neg negative]
      ring
    · rw [abs_of_nonneg (not_lt.1 negative)]
      ring

/-! ### Comparisons -/

/-- Where a number lies among the others; a NaN lies nowhere. -/
def Datum.place : Datum → Option (WithBot (WithTop ℚ))
  | .nan => none
  | .inf s => some (if s = 1 then ⊥ else ((⊤ : WithTop ℚ) : WithBot (WithTop ℚ)))
  | .finite s v => some ((signedValue s v : WithTop ℚ) : WithBot (WithTop ℚ))

def Datum.against (a b : Datum) : Order :=
  match a.place, b.place with
  | some x, some y => if x < y then .lt else if x = y then .eq else .gt
  | _, _ => .unordered

/-- `ieee_compare/5` compares exact values: the zeros are equal, the infinities lie outside, and a NaN is unordered. -/
theorem order_exact (k : Fmt) (a b : Int) (left : Canonical k a) (right : Canonical k b) :
    order k a b = (datum k a).against (datum k b) := by
  rcases decodedA : decode k a with ⟨sa, ta⟩
  rcases decodedB : decode k b with ⟨sb, tb⟩
  have signA : SignBit sa := by simpa [decodedA] using decode_sign left.1
  have signB : SignBit sb := by simpa [decodedB] using decode_sign right.1
  rw [order, datum, datum, decodedA, decodedB, Datum.against]
  cases ta with
  | nan => rfl
  | inf =>
    cases tb with
    | nan => rfl
    | inf => rcases signA with rfl | rfl <;> rcases signB with rfl | rfl <;> rfl
    | finite n q => rcases signA with rfl | rfl <;> simp [Datum.of, Datum.place]
  | finite m p =>
    cases tb with
    | nan => rfl
    | inf => rcases signB with rfl | rfl <;> simp [Datum.of, Datum.place]
    | finite n q =>
      obtain ⟨posA, valueA⟩ := signedRatio_value signA (decode_finite decodedA) (e := p)
      obtain ⟨posB, valueB⟩ := signedRatio_value signB (decode_finite decodedB) (e := q)
      have unitA : (0 : ℚ) < (signedRatio sa m p).2 := by exact_mod_cast posA
      have unitB : (0 : ℚ) < (signedRatio sb n q).2 := by exact_mod_cast posB
      simp only [Datum.of, Datum.place, ← valueA, ← valueB, WithBot.coe_lt_coe, WithTop.coe_lt_coe, WithBot.coe_inj, WithTop.coe_inj, compareInts,
        div_lt_div_iff₀ unitA unitB, div_eq_div_iff unitA.ne' unitB.ne']
      norm_cast

theorem order_exact_least : order .s 1 2 = (datum .s 1).against (datum .s 2) :=
  order_exact .s 1 2 ⟨⟨by decide, by decide⟩, fun no => by cases no⟩ ⟨⟨by decide, by decide⟩, fun no => by cases no⟩

end Nanofil.Ieee
