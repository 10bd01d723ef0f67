import Nanofil.Rounding

/-! The arithmetic of `ieee.pl` is IEEE 754's: exact results correctly rounded, with the sign of zeros, the
infinities and the NaNs. -/
namespace Nanofil.Ieee

/-! ### Values -/

/-- A NaN, an infinity or a number, with its sign. -/
inductive Datum
  | nan
  | inf (s : Int)
  | finite (s : Int) (v : ℚ)

def Datum.of (s : Int) : Num → Datum
  | .nan => .nan
  | .inf => .inf s
  | .finite m e => .finite s (m * 2 ^ e)

def datum (k : Fmt) (b : Int) : Datum := .of (decode k b).1 (decode k b).2

def signedValue (s : Int) (v : ℚ) : ℚ := if s = 1 then -v else v

/-- The format's number of the sign nearest to a magnitude, a tie to the even significand; an infinity from
half a unit above the largest on. -/
def Rounded (k : Fmt) (s : Int) (q : ℚ) (r : Int) : Prop :=
  (overflow k ≤ q ∧ r = infinity k s) ∨
    q < overflow k ∧ Canonical k r ∧ ∃ m e : Int, decode k r = (s, .finite m e) ∧ Holds k (m * 2 ^ e) ∧
      ∀ v, Holds k v → |m * 2 ^ e - q| ≤ |v - q| ∧ (|m * 2 ^ e - q| = |v - q| → v = m * 2 ^ e ∨ m % 2 = 0)

/-- An exact sum of zero is negative where both operands are. -/
def sumSign (s t : Int) (q : ℚ) : Int := if q < 0 ∨ q = 0 ∧ s = 1 ∧ t = 1 then 1 else 0

/-! ### Results -/

def Sum (k : Fmt) (x y : Datum) (r : Int) : Prop :=
  match x, y with
  | .finite s v, .finite t w => Rounded k (sumSign s t (signedValue s v + signedValue t w)) |signedValue s v + signedValue t w| r
  | .inf s, .inf t => r = if s = t then infinity k s else invalid k
  | .inf s, .finite _ _ => r = infinity k s
  | .finite _ _, .inf t => r = infinity k t
  | .nan, _ | _, .nan => False

def Product (k : Fmt) (x y : Datum) (r : Int) : Prop :=
  match x, y with
  | .finite s v, .finite t w => Rounded k (Int.xor s t) (v * w) r
  | .inf s, .inf t => r = infinity k (Int.xor s t)
  | .inf s, .finite t v | .finite s v, .inf t => (v = 0 ∧ r = invalid k) ∨ (v ≠ 0 ∧ r = infinity k (Int.xor s t))
  | .nan, _ | _, .nan => False

def Quotient (k : Fmt) (x y : Datum) (r : Int) : Prop :=
  match x, y with
  | .finite s v, .finite t w => (v = 0 ∧ w = 0 ∧ r = invalid k) ∨ (v ≠ 0 ∧ w = 0 ∧ r = infinity k (Int.xor s t)) ∨
      (w ≠ 0 ∧ Rounded k (Int.xor s t) (v / w) r)
  | .inf _, .inf _ => r = invalid k
  | .inf s, .finite t _ => r = infinity k (Int.xor s t)
  | .finite s _, .inf t => r = signBits k (Int.xor s t)
  | .nan, _ | _, .nan => False

def Datum.neg : Datum → Datum
  | .nan => .nan
  | .inf s => .inf (1 - s)
  | .finite s v => .finite (1 - s) v

/-- The NaN operand that a result is made of: SSE's the first; the x87's a quiet one, then the one with the larger
significand, then the first. -/
def Selected (k : Fmt) (a b w : Int) : Prop :=
  let quietNan (c : Int) : Prop := c / 2 ^ 62 % 2 = 1
  (datum k a = .nan → datum k b ≠ .nan → w = a) ∧ (datum k a ≠ .nan → datum k b = .nan → w = b) ∧
    (datum k a = .nan → datum k b = .nan →
      (k ≠ .x → w = a) ∧
      (k = .x → quietNan a → ¬quietNan b → w = a) ∧ (k = .x → ¬quietNan a → quietNan b → w = b) ∧
      (k = .x → (quietNan a ↔ quietNan b) → w = if a % 2 ^ 64 < b % 2 ^ 64 then b else a))

/-- IEEE 754's result of an operation. -/
def OperationResult (k : Fmt) (op : Arith) (a b r : Int) : Prop :=
  ((datum k a = .nan ∨ datum k b = .nan) → ∃ w, Selected k a b w ∧ r = quiet k w) ∧
    (datum k a ≠ .nan → datum k b ≠ .nan →
      match op with
      | .add => Sum k (datum k a) (datum k b) r
      | .sub => Sum k (datum k a) (datum k b).neg r
      | .mul => Product k (datum k a) (datum k b) r
      | .div => Quotient k (datum k a) (datum k b) r)

/-- A NaN's fraction is aligned at the top and quieted. -/
def ConversionResult (src dst : Fmt) (a r : Int) : Prop :=
  match decode src a with
  | (s, .nan) => decode dst r = (s, .nan) ∧ r % 2 ^ fracBits dst =
      quiet dst (a % 2 ^ fracBits src * 2 ^ fracBits dst / 2 ^ fracBits src)
  | (s, .inf) => r = infinity dst s
  | (s, .finite m e) => Rounded dst s (m * 2 ^ e) r

section
variable {k : Fmt} {s t n d b : Int} {q : ℚ}

/-! ### Signs -/

/-- A sign above a pattern without one leaves its fields. -/
theorem signBits_fields (low : 0 ≤ b) (high : b < signBits k 1) :
    (signBits k s + b) / 2 ^ (exponentShift k + expBits k) = s ∧ (signBits k s + b) % 2 ^ fracBits k = b % 2 ^ fracBits k ∧
      (signBits k s + b) % 2 ^ exponentShift k = b % 2 ^ exponentShift k ∧
      (signBits k s + b) / 2 ^ exponentShift k % 2 ^ expBits k = b / 2 ^ exponentShift k % 2 ^ expBits k := by
  cases k <;> simp only [signBits, exponentShift, expBits, fracBits, integerBit] at * <;> norm_num at * <;> omega

theorem decode_signBits (low : 0 ≤ b) (high : b < signBits k 1) : decode k (signBits k s + b) = (s, (decode k b).2) := by
  obtain ⟨sign, fraction, significand, exponent⟩ := signBits_fields (s := s) low high
  simp only [decode, sign, fraction, significand, exponent]

theorem canonical_signBits (sign : SignBit s) (canonical : Canonical k b) (high : b < signBits k 1) : Canonical k (signBits k s + b) := by
  obtain ⟨⟨low, -⟩, integer⟩ := canonical
  refine ⟨?_, fun is => ?_⟩
  · have pattern : (2 : Int) ^ patternBits k = 2 * signBits k 1 := by
      rw [patternBits, pow_succ, signBits]
      ring
    have zero : signBits k 0 = 0 := by simp [signBits]
    refine ⟨?_, ?_⟩
    · rcases sign with rfl | rfl <;> omega
    · rw [pattern]
      rcases sign with rfl | rfl <;> omega
  · subst is
    have := integer rfl
    simp only [signBits, exponentShift, expBits, fracBits, integerBit] at *
    norm_num at *
    omega

theorem roundRatio_sign : roundRatio k s n d = signBits k s + roundRatio k 0 n d := by
  have zero : signBits k 0 = 0 := by simp [signBits]
  have top : infinity k s = signBits k s + infinity k 0 := by
    unfold infinity
    rw [zero]
    ring
  unfold roundRatio
  rw [zero]
  by_cases none : n = 0
  · rw [if_pos none, if_pos none, add_zero]
  · rw [if_neg none, if_neg none]
    dsimp only
    split_ifs <;> first
    | exact top
    | ring

/-- A rounding with a sign is that of the magnitude. -/
theorem roundRatio_rounded (sign : SignBit s) (nonneg : 0 ≤ n) (positive : 0 < d) (eq : q = n / d) :
    Rounded k s q (roundRatio k s n d) := by
  subst eq
  rw [roundRatio_sign]
  rcases roundRatio_correct (k := k) nonneg positive with ⟨above, inf⟩ | ⟨below, canonical, m, e, decoded, holds, nearest⟩
  · refine .inl ⟨above, ?_⟩
    rw [inf]
    unfold infinity
    have zero : signBits k 0 = 0 := by simp [signBits]
    rw [zero]
    ring
  · have low := canonical.1.1
    have high : roundRatio k 0 n d < signBits k 1 := by
      have none : roundRatio k 0 n d / 2 ^ (exponentShift k + expBits k) = 0 := congrArg Prod.fst decoded
      have positive : (0 : Int) < 2 ^ (exponentShift k + expBits k) := by positivity
      rw [signBits, one_mul]
      by_contra above
      have := Int.ediv_le_ediv positive (not_lt.1 above)
      rw [Int.ediv_self positive.ne', none] at this
      omega
    refine .inr ⟨below, canonical_signBits sign canonical high, m, e, ?_, holds, nearest⟩
    rw [decode_signBits low high, decoded]

/-! ### Operations -/

variable {e m a : Int} {ta tb : Num}

theorem finiteRatio_value : ((finiteRatio m e).1 : ℚ) / (finiteRatio m e).2 = m * 2 ^ e := by
  have ratio := (scale_ratio (n := m) one_pos e).2
  rw [finiteRatio, ratio, Int.cast_one, div_one]

theorem signedRatio_value (sign : SignBit s) (nonneg : 0 ≤ m) : 0 < (signedRatio s m e).2 ∧
    ((signedRatio s m e).1 : ℚ) / (signedRatio s m e).2 = signedValue s (m * 2 ^ e) := by
  refine ⟨(finiteRatio_pos nonneg).2.1, ?_⟩
  rw [signedValue, ← finiteRatio_value, signedRatio]
  rcases sign with rfl | rfl
  · simp
  · simp [neg_div]

theorem magnitudeInteger_abs : magnitudeInteger n = |n| := by
  unfold magnitudeInteger
  split_ifs with negative
  · rw [abs_of_neg negative, zero_sub]
  · rw [abs_of_nonneg (not_lt.1 negative)]

/-- The sign, the zero and the magnitude of a ratio are its numerator's. -/
theorem ratio_signs (positive : 0 < d) (eq : q = n / d) : (q < 0 ↔ n < 0) ∧ (q = 0 ↔ n = 0) ∧ |q| = (|n| : Int) / d := by
  subst eq
  have unit : (0 : ℚ) < d := by exact_mod_cast positive
  refine ⟨?_, ?_, ?_⟩
  · rw [div_neg_iff]
    constructor
    · rintro (⟨-, negative⟩ | ⟨negative, -⟩)
      · exact absurd unit (not_lt.2 negative.le)
      · exact_mod_cast negative
    · exact fun negative => .inr ⟨by exact_mod_cast negative, unit⟩
  · rw [div_eq_zero_iff, or_iff_left unit.ne']
    exact_mod_cast Iff.rfl
  · rw [abs_div, abs_of_pos unit]
    push_cast
    rfl

theorem binaryAdd_correct {sa sb : Int} (signA : SignBit sa) (signB : SignBit sb) (numA : ta ≠ .nan) (numB : tb ≠ .nan)
    (nonnegA : ∀ n p, ta = .finite n p → 0 ≤ n) (nonnegB : ∀ n p, tb = .finite n p → 0 ≤ n) :
    Sum k (.of sa ta) (.of sb tb) (binaryAdd k sa ta sb tb) := by
  cases ta with
  | nan => exact absurd rfl numA
  | inf =>
    cases tb with
    | nan => exact absurd rfl numB
    | inf =>
      show binaryAdd k sa .inf sb .inf = _
      unfold binaryAdd
      by_cases same : sa = sb <;> simp [same]
    | finite m e => simp [Sum, Datum.of, binaryAdd]
  | finite m e =>
    cases tb with
    | nan => exact absurd rfl numB
    | inf => simp [Sum, Datum.of, binaryAdd]
    | finite m' e' =>
      obtain ⟨posA, valueA⟩ := signedRatio_value (e := e) signA (nonnegA m e rfl)
      obtain ⟨posB, valueB⟩ := signedRatio_value (e := e') signB (nonnegB m' e' rfl)
      have unitA : (0 : ℚ) < (signedRatio sa m e).2 := by exact_mod_cast posA
      have unitB : (0 : ℚ) < (signedRatio sb m' e').2 := by exact_mod_cast posB
      show Rounded k (sumSign sa sb (signedValue sa (m * 2 ^ e) + signedValue sb (m' * 2 ^ e'))) _ _
      rw [← valueA, ← valueB, div_add_div _ _ unitA.ne' unitB.ne']
      unfold binaryAdd
      dsimp only
      generalize signedRatio sa m e = a at posA unitA ⊢
      generalize signedRatio sb m' e' = b at posB unitB ⊢
      have positive : 0 < a.2 * b.2 := mul_pos posA posB
      have eq : ((a.1 : ℚ) * b.2 + a.2 * b.1) / (a.2 * b.2) = ((a.1 * b.2 + b.1 * a.2 : Int) : ℚ) / ((a.2 * b.2 : Int) : ℚ) := by
        push_cast
        ring
      obtain ⟨negative, zero, magnitude⟩ := ratio_signs positive eq
      have sign : sumSign sa sb (((a.1 : ℚ) * b.2 + a.2 * b.1) / (a.2 * b.2)) =
          if a.1 * b.2 + b.1 * a.2 < 0 then 1 else if a.1 * b.2 + b.1 * a.2 = 0 ∧ sa = 1 ∧ sb = 1 then 1 else 0 := by
        unfold sumSign
        simp only [negative, zero]
        split_ifs <;> simp_all
      rw [sign, magnitudeInteger_abs]
      refine roundRatio_rounded ?_ (abs_nonneg _) positive magnitude
      split
      · exact .inr rfl
      · exact signBit_if _

theorem scaled_zero : (m : ℚ) * 2 ^ e = 0 ↔ m = 0 := by
  rw [mul_eq_zero, or_iff_left (by positivity)]
  exact_mod_cast Iff.rfl

theorem binaryMul_correct (sign : SignBit (Int.xor s t)) (numA : ta ≠ .nan) (numB : tb ≠ .nan)
    (nonnegA : ∀ n p, ta = .finite n p → 0 ≤ n) (nonnegB : ∀ n p, tb = .finite n p → 0 ≤ n) :
    Product k (.of s ta) (.of t tb) (binaryMul k (Int.xor s t) ta tb) := by
  cases ta with
  | nan => exact absurd rfl numA
  | inf =>
    cases tb with
    | nan => exact absurd rfl numB
    | inf => simp [Product, Datum.of, binaryMul, Num.isZero]
    | finite m e =>
      have unit : (2 : ℚ) ^ e ≠ 0 := by positivity
      by_cases zero : m = 0 <;> simp [Product, Datum.of, binaryMul, Num.isZero, zero, unit]
  | finite m e =>
    cases tb with
    | nan => exact absurd rfl numB
    | inf =>
      have unit : (2 : ℚ) ^ e ≠ 0 := by positivity
      by_cases zero : m = 0 <;> simp [Product, Datum.of, binaryMul, Num.isZero, zero, unit]
    | finite m' e' =>
      obtain ⟨nonneg, positive, -⟩ := finiteRatio_pos (p := e) (nonnegA m e rfl)
      obtain ⟨nonneg', positive', -⟩ := finiteRatio_pos (p := e') (nonnegB m' e' rfl)
      have value : (m : ℚ) * 2 ^ e * (m' * 2 ^ e') =
          (((finiteRatio m e).1 * (finiteRatio m' e').1 : Int) : ℚ) / (((finiteRatio m e).2 * (finiteRatio m' e').2 : Int) : ℚ) := by
        rw [← finiteRatio_value, ← finiteRatio_value]
        push_cast
        ring
      exact roundRatio_rounded sign (mul_nonneg nonneg nonneg') (mul_pos positive positive') value

theorem binaryDiv_correct (sign : SignBit (Int.xor s t)) (numA : ta ≠ .nan) (numB : tb ≠ .nan)
    (nonnegA : ∀ n p, ta = .finite n p → 0 ≤ n) (nonnegB : ∀ n p, tb = .finite n p → 0 ≤ n) :
    Quotient k (.of s ta) (.of t tb) (binaryDiv k (Int.xor s t) ta tb) := by
  cases ta with
  | nan => exact absurd rfl numA
  | inf =>
    cases tb with
    | nan => exact absurd rfl numB
    | inf => simp [Quotient, Datum.of, binaryDiv, Num.isZero]
    | finite m e => simp [Quotient, Datum.of, binaryDiv, Num.isZero]
  | finite m e =>
    cases tb with
    | nan => exact absurd rfl numB
    | inf => simp [Quotient, Datum.of, binaryDiv, Num.isZero]
    | finite m' e' =>
      show (_ ∧ _ ∧ _) ∨ (_ ∧ _ ∧ _) ∨ (_ ∧ _)
      rw [Ne, Ne, scaled_zero, scaled_zero]
      by_cases divisor : m' = 0
      · by_cases zero : m = 0 <;> simp [binaryDiv, Num.isZero, zero, divisor]
      · refine .inr (.inr ⟨divisor, ?_⟩)
        obtain ⟨nonneg, positive, -⟩ := finiteRatio_pos (p := e) (nonnegA m e rfl)
        obtain ⟨-, positive', numerator⟩ := finiteRatio_pos (p := e') (nonnegB m' e' rfl)
        have unit : 0 < (finiteRatio m' e').1 := numerator divisor
        have value : (m : ℚ) * 2 ^ e / (m' * 2 ^ e') =
            (((finiteRatio m e).1 * (finiteRatio m' e').2 : Int) : ℚ) / (((finiteRatio m e).2 * (finiteRatio m' e').1 : Int) : ℚ) := by
          rw [← finiteRatio_value, ← finiteRatio_value, div_div_div_eq]
          push_cast
          rfl
        have code : binaryDiv k (Int.xor s t) (.finite m e) (.finite m' e') =
            roundRatio k (Int.xor s t) ((finiteRatio m e).1 * (finiteRatio m' e').2) ((finiteRatio m e).2 * (finiteRatio m' e').1) := by
          simp [binaryDiv, Num.isZero, divisor]
        rw [code]
        exact roundRatio_rounded sign (mul_nonneg nonneg positive'.le) (mul_pos positive unit) value

/-! ### NaNs -/

theorem datum_nan : datum k b = .nan ↔ (decode k b).2 = .nan := by
  unfold datum
  cases (decode k b).2 <;> simp [Datum.of]

theorem x87_selected {b : Int} (nanA : datum .x a = .nan) (nanB : datum .x b = .nan) : ∃ w, Selected .x a b w ∧ x87Nan a b = quiet .x w := by
  refine ⟨_, ⟨fun _ no => absurd nanB no, fun no => absurd nanA no, fun _ _ => ⟨fun no => absurd rfl no, fun _ => ?_, fun _ => ?_, fun _ => ?_⟩⟩, rfl⟩
  · intro quietA signalingB
    rw [if_pos (by omega)]
  · intro signalingA quietB
    rw [if_neg (by omega), if_pos (by omega)]
  · intro same
    rw [if_neg (by omega), if_neg (by omega)]

theorem ieeeBinary_nan {op : Arith} {b : Int} (nan : datum k a = .nan ∨ datum k b = .nan) :
    ∃ w, Selected k a b w ∧ ieeeBinary k op a b = quiet k w := by
  have code : ieeeBinary k op a b = if (decode k a).2 = .nan ∧ (decode k b).2 = .nan ∧ k = .x then x87Nan a b
      else if (decode k a).2 = .nan then quiet k a else if (decode k b).2 = .nan then quiet k b
      else binary op k (decode k a).1 (decode k a).2 (decode k b).1 (decode k b).2 := rfl
  rw [code]
  by_cases first : (decode k a).2 = .nan
  · have nanA := datum_nan.2 first
    by_cases both : (decode k b).2 = .nan ∧ k = .x
    · obtain ⟨second, rfl⟩ := both
      rw [if_pos ⟨first, second, rfl⟩]
      exact x87_selected nanA (datum_nan.2 second)
    · have not_x (nanB : datum k b = .nan) (is : k = .x) : False := both ⟨datum_nan.1 nanB, is⟩
      rw [if_neg fun all => both all.2, if_pos first]
      exact ⟨a, ⟨fun _ _ => rfl, fun no => absurd nanA no, fun _ nanB => ⟨fun _ => rfl, fun is => (not_x nanB is).elim,
        fun is => (not_x nanB is).elim, fun is => (not_x nanB is).elim⟩⟩, rfl⟩
  · have notA : datum k a ≠ .nan := fun nanA => first (datum_nan.1 nanA)
    have second := datum_nan.1 (nan.resolve_left notA)
    rw [if_neg fun all => first all.1, if_neg first, if_pos second]
    exact ⟨b, ⟨fun nanA => absurd nanA notA, fun _ _ => rfl, fun nanA => absurd nanA notA⟩, rfl⟩

theorem lor_low {f : Nat} {J p Q : Int} (nonneg : 0 ≤ J) (hp : Bits.Fits f p) (hQ : Bits.Fits f Q) :
    Int.lor (Int.lor (2 ^ f * J) p) Q = 2 ^ f * J + Int.lor p Q := by
  obtain ⟨j, rfl⟩ := Int.eq_ofNat_of_zero_le nonneg
  obtain ⟨p, rfl, smallP⟩ := hp.toNat
  obtain ⟨Q, rfl, smallQ⟩ := hQ.toNat
  have both : p ||| Q < 2 ^ f := Nat.or_lt_two_pow smallP smallQ
  have nat : (2 ^ f * j ||| p) ||| Q = 2 ^ f * j + (p ||| Q) := by
    rw [Nat.or_assoc, ← Nat.two_pow_add_eq_or_of_lt both]
  have cast : (2 : Int) ^ f * (j : Int) = ((2 ^ f * j : Nat) : Int) := by push_cast; rfl
  rw [cast]
  show (((2 ^ f * j ||| p) ||| Q : Nat) : Int) = ((2 ^ f * j : Nat) : Int) + ((p ||| Q : Nat) : Int)
  rw [nat]
  push_cast
  rfl

/-- A nonzero fraction above an infinity makes a NaN. -/
theorem decode_payload {p : Int} (positive : 0 < p) (small : p < 2 ^ fracBits k) : decode k (infinity k s + p) = (s, .nan) ∧
    (infinity k s + p) % 2 ^ fracBits k = p := by
  have zero : signBits k 0 = 0 := by simp [signBits]
  have top : infinity k s + p = signBits k s + (infinity k 0 + p) := by
    unfold infinity
    rw [zero]
    ring
  have low : 0 ≤ infinity k 0 + p := by cases k <;> exact add_nonneg (by decide) positive.le
  have high : infinity k 0 + p < signBits k 1 := by
    cases k <;> simp only [infinity, signBits, exponentShift, expBits, fracBits, integerBit] at * <;> norm_num at * <;> omega
  have fields : (infinity k 0 + p) % 2 ^ fracBits k = p ∧ (infinity k 0 + p) / 2 ^ exponentShift k % 2 ^ expBits k = 2 ^ expBits k - 1 := by
    cases k <;> simp only [infinity, signBits, exponentShift, expBits, fracBits, integerBit] at * <;> norm_num at * <;> omega
  rw [top, decode_signBits low high, (signBits_fields low high).2.1, fields.1]
  refine ⟨?_, rfl⟩
  simp only [decode, fields.1, fields.2, if_true, if_neg positive.ne']

/-! ### Correctness -/

theorem ieeeBinary_correct {op : Arith} {b : Int} (left : Pattern k a) (right : Pattern k b) :
    OperationResult k op a b (ieeeBinary k op a b) := by
  refine ⟨ieeeBinary_nan, fun numA numB => ?_⟩
  have signA := decode_sign left
  have signB := decode_sign right
  have nonnegA : ∀ n p, (decode k a).2 = .finite n p → 0 ≤ n := fun n p eq => decode_finite (Prod.ext rfl eq)
  have nonnegB : ∀ n p, (decode k b).2 = .finite n p → 0 ≤ n := fun n p eq => decode_finite (Prod.ext rfl eq)
  rw [Ne, datum_nan] at numA numB
  have code : ieeeBinary k op a b = binary op k (decode k a).1 (decode k a).2 (decode k b).1 (decode k b).2 := by
    unfold ieeeBinary
    dsimp only
    rw [if_neg (fun no => numA no.1), if_neg numA, if_neg numB]
  rw [code]
  cases op with
  | add => exact binaryAdd_correct signA signB numA numB nonnegA nonnegB
  | sub =>
    have neg : (datum k b).neg = .of (1 - (decode k b).1) (decode k b).2 := by
      unfold datum
      cases (decode k b).2 <;> rfl
    show Sum k _ (datum k b).neg _
    rw [neg]
    exact binaryAdd_correct signA signB.other numA numB nonnegA nonnegB
  | mul => exact binaryMul_correct (signA.xor signB) numA numB nonnegA nonnegB
  | div => exact binaryDiv_correct (signA.xor signB) numA numB nonnegA nonnegB

theorem ieeeFromInt_correct : Rounded k (if n < 0 then 1 else 0) |(n : ℚ)| (ieeeFromInt k n) := by
  refine roundRatio_rounded (signBit_if _) (magnitude_nonneg n) one_pos ?_
  rw [magnitudeInteger_abs]
  push_cast
  rw [div_one]

theorem ieeeConvert_correct {src dst : Fmt} (pattern : Pattern src a) : ConversionResult src dst a (ieeeConvert src dst a) := by
  have sign := decode_sign pattern
  unfold ConversionResult ieeeConvert
  rcases decoded : decode src a with ⟨s, num⟩
  rw [decoded] at sign
  cases num with
  | nan =>
    have aligned : (if fracBits src ≤ fracBits dst then a % 2 ^ fracBits src * 2 ^ (fracBits dst - fracBits src)
        else a % 2 ^ fracBits src / 2 ^ (fracBits src - fracBits dst)) = a % 2 ^ fracBits src * 2 ^ fracBits dst / 2 ^ fracBits src := by
      split_ifs with le
      · rw [← Nat.add_sub_cancel' le, pow_add, mul_left_comm, Int.mul_ediv_cancel_left _ (by positivity), Nat.add_sub_cancel_left]
      · have split : (2 : Int) ^ fracBits src = 2 ^ (fracBits src - fracBits dst) * 2 ^ fracBits dst := by
          rw [← pow_add]
          congr 1
          omega
        conv_rhs => rw [split, Int.mul_ediv_mul_of_pos_left _ _ (by positivity), ← split]
    have fits := payload_fits src dst a
    rw [aligned] at fits
    dsimp only
    rw [aligned]
    generalize a % 2 ^ fracBits src * 2 ^ fracBits dst / 2 ^ fracBits src = p at fits
    have top : Bits.Fits (fracBits dst) (2 ^ (fracBits dst - 1)) := Bits.fits_pow (by cases dst <;> decide)
    obtain ⟨j, nonneg, eq⟩ : ∃ j, 0 ≤ j ∧ infinity dst s = 2 ^ fracBits dst * j := by
      refine ⟨infinity dst s / 2 ^ fracBits dst, Int.ediv_nonneg (infinity_pattern sign).1 (by positivity), ?_⟩
      rcases sign with rfl | rfl <;> cases dst <;> decide
    have code : quiet dst (Int.lor (infinity dst s) p) = infinity dst s + quiet dst p := by
      rw [quiet, eq, lor_low nonneg fits top]
      rfl
    have quieted := Bits.fits_lor fits top
    have positive : 0 < Int.lor p (2 ^ (fracBits dst - 1)) := by
      obtain ⟨x, rfl, -⟩ := fits.toNat
      obtain ⟨y, eq, -⟩ := top.toNat
      have le : y ≤ x ||| y := Nat.right_le_or
      have pos : 0 < y := by
        have : (0 : Int) < 2 ^ (fracBits dst - 1) := by positivity
        omega
      rw [eq]
      show (0 : Int) < ((x ||| y : Nat) : Int)
      omega
    rw [code]
    exact decode_payload positive quieted.2
  | inf => rfl
  | finite m e =>
    obtain ⟨nonneg, positive, -⟩ := finiteRatio_pos (p := e) (decode_finite decoded)
    exact roundRatio_rounded sign nonneg positive finiteRatio_value.symm

end

/-- Every operation, every conversion of an integer and every conversion between formats is correctly rounded. -/
theorem arithmetic_correct (k : Fmt) :
    (∀ op a b, Canonical k a → Canonical k b → OperationResult k op a b (ieeeBinary k op a b)) ∧
      (∀ n : Int, Rounded k (if n < 0 then 1 else 0) |(n : ℚ)| (ieeeFromInt k n)) ∧
        ∀ dst a, Canonical k a → ConversionResult k dst a (ieeeConvert k dst a) :=
  ⟨fun _ _ _ left right => ieeeBinary_correct left.1 right.1, fun _ => ieeeFromInt_correct, fun _ _ canonical =>
    ieeeConvert_correct canonical.1⟩

/-- The least subnormal of binary32, halved by a division and doubled by a sum. -/
theorem least_correct : OperationResult .s .div 1 0x40000000 0 ∧ OperationResult .s .add 1 1 2 ∧ ConversionResult .s .d 1 0x36a0000000000000 := by
  have canonical (b : Int) (low : 0 ≤ b) (high : b < 2 ^ 32) : Canonical .s b := ⟨⟨low, high⟩, fun no => by cases no⟩
  obtain ⟨operations, -, conversions⟩ := arithmetic_correct .s
  have quotient : ieeeBinary .s .div 1 0x40000000 = 0 := by decide +kernel
  have sum : ieeeBinary .s .add 1 1 = 2 := by decide +kernel
  have wide : ieeeConvert .s .d 1 = 0x36a0000000000000 := by decide +kernel
  exact ⟨quotient ▸ operations .div _ _ (canonical 1 (by decide) (by decide)) (canonical 0x40000000 (by decide) (by decide)),
    sum ▸ operations .add _ _ (canonical 1 (by decide) (by decide)) (canonical 1 (by decide) (by decide)),
    wide ▸ conversions .d _ (canonical 1 (by decide) (by decide))⟩

end Nanofil.Ieee
