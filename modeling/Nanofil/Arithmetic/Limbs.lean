import Nanofil.Arithmetic.Conversions
import Nanofil.Lib.Bitwords

/-! The exact result of checked arithmetic in two limbs, and the test whether what was stored is it. -/
namespace Nanofil.Arithmetic
open Switching (IntType size sign convertInt span lowest InRange)

/-- Two 64-bit words hold a number modulo 2^128. -/
def Limbs (env : Env) (r : Value × Value) (x : Int) : Prop := (bits env r.1 : Int) + 2 ^ 64 * bits env r.2 = x % 2 ^ 128

def CheckedOp.exact : CheckedOp → Int → Int → Int
  | .add, x, y => x + y
  | .sub, x, y => x - y
  | .mul, x, y => x * y

section
variable {env : Env} {a : Lowered} {t : IntType} {x y xh yh : Value} {known : List Value} {X Y XH YH : Nat} {m n : Int}

/-! ### Widening -/

theorem value_bounds (value : convertInt m t = m) : -2 ^ 63 ≤ m ∧ m < 2 ^ 64 := by
  have inM := value_inRange value
  rw [InRange, lowest] at inM
  cases as : sign t <;> rw [as] at inM <;> dsimp only at inM <;>
    rcases span_cases t with ⟨-, is⟩ | ⟨-, is⟩ | ⟨-, is⟩ | ⟨-, is⟩ <;> omega

theorem sign_limb (small : X < 2 ^ 64) : onBits .sar .l [X, low 63] = if 2 ^ 63 ≤ X then 2 ^ 64 - 1 else 0 := by
  show (if 2 ^ 63 ≤ X then X + (2 ^ 128 - 2 ^ 64) else X) / 2 ^ 63 % 2 ^ 64 = _
  split_ifs <;> omega

/-- The value's low limb. -/
def lowLimb (a : Lowered) : Emitting Value :=
  if size a.type < 8 then let_ .l (.ext (narrowOp 4 (sign a.type))) [a.v] else pure a.v

theorem overflowWiden_eq : overflowWiden a = (lowLimb a >>= fun v =>
    (if sign a.type = .signed then let_ .l .sar [v, .const 63] else pure (.const 0)) >>= fun high => pure (v, high)) := by
  have op : (if sign a.type = .signed then LoadType.sw else .uw) = narrowOp 4 (sign a.type) := by cases sign a.type <;> rfl
  unfold overflowWiden lowLimb
  rw [op]
  split_ifs <;> rfl

theorem gives_lowLimb (here : Usable known a.v) :
    Gives known (lowLimb a) (fun v => [v]) fun env v => ∀ m, Represents env a m → (bits env v : Int) = m % 2 ^ 64 := by
  obtain ⟨⟨ka, table⟩, eq⟩ := onBits_ext 4 (sign a.type) .l (.inl rfl) (by decide)
  unfold lowLimb
  split_ifs with narrow
  · refine (Gives.unary here ⟨ka, table⟩).weaken fun env v out m represents => ?_
    rw [out, eq, if_pos rfl]
    exact extended_half (value_inRange represents.value) narrow (word_half represents.word)
  · refine .pure (by simpa using here) fun env m represents => ?_
    have wide : size a.type = 8 := by have := span_cases a.type; omega
    have word := represents.word
    rw [wordSpan, if_pos wide] at word
    rw [← word]
    have := bits_lt env a.v
    omega

theorem gives_overflowWiden (here : Usable known a.v) :
    Gives known (overflowWiden a) (fun r => [r.1, r.2]) fun env r => ∀ m, Represents env a m → Limbs env r m := by
  have half : 2 * (span a.type / 2) = span a.type ∧ span a.type ≤ 2 ^ 64 := by
    rcases span_cases a.type with ⟨-, is⟩ | ⟨-, is⟩ | ⟨-, is⟩ | ⟨-, is⟩ <;> rw [is] <;> decide
  rw [overflowWiden_eq]
  refine .bind (gives_lowLimb here) fun v => ?_
  split_ifs with signed
  · refine .bind (.binary (by simp) (by simp) ⟨_, _, rfl⟩) fun high => .pure (by simp) fun env out word m represents => ?_
    rw [bits_const, sign_limb (bits_lt _ _)] at out
    have inM := value_inRange represents.value
    rw [InRange, lowest, signed] at inM
    rw [Limbs, out, word m represents]
    have eq := word m represents
    dsimp only at inM
    split_ifs <;> omega
  · show Gives _ (pure (v, Value.const 0)) _ _
    refine .pure (by simp) fun env word m represents => ?_
    have inM := value_inRange represents.value
    have unsigned : sign a.type = .unsigned := by cases is : sign a.type <;> simp_all
    rw [InRange, lowest, unsigned] at inM
    rw [Limbs, word m represents, bits_const]
    show _ + 2 ^ 64 * ((0 : Nat) : Int) = _
    dsimp only at inM
    omega

/-! ### Two limbs -/

/-- A flag on 64 bits. -/
theorem extended_flag (p : Prop) [Decidable p] : onBits (.ext .uw) .l [if p then 1 else 0] = if p then 1 else 0 := by
  split_ifs <;> rfl

theorem gives_add (hx : Usable known x) (hxh : Usable known xh) (hy : Usable known y) (hyh : Usable known yh) :
    Gives known (overflowExact .add x xh y yh) (fun r => [r.1, r.2]) fun env r => ∀ m n, Limbs env (x, xh) m → Limbs env (y, yh) n →
      Limbs env r (m + n) := by
  unfold overflowExact
  refine .bind (.binary hx hy ⟨_, _, rfl⟩) fun low => ?_
  refine .bind (.binary (by simp) (by simp [hx]) ⟨_, _, rfl⟩) fun carry => ?_
  refine .bind (.unary (by simp) ⟨_, rfl⟩) fun c => ?_
  refine .bind (.binary (by simp [hxh]) (by simp [hyh]) ⟨_, _, rfl⟩) fun h => ?_
  refine .bind (.binary (by simp) (by simp) ⟨_, _, rfl⟩) fun high => .pure (by simp) fun env => ?_
  intro hhigh hh hc (hcarry : bits env carry = if bits env low < bits env x then 1 else 0) hlow m n hm hn
  have := bits_lt env x
  have := bits_lt env y
  rw [hcarry, extended_flag] at hc
  simp only [onBits, Limbs] at *
  rw [hh, hc] at hhigh
  split_ifs at hhigh <;> omega

theorem gives_sub (hx : Usable known x) (hxh : Usable known xh) (hy : Usable known y) (hyh : Usable known yh) :
    Gives known (overflowExact .sub x xh y yh) (fun r => [r.1, r.2]) fun env r => ∀ m n, Limbs env (x, xh) m → Limbs env (y, yh) n →
      Limbs env r (m - n) := by
  unfold overflowExact
  refine .bind (.binary hx hy ⟨_, _, rfl⟩) fun low => ?_
  refine .bind (.binary (by simp [hx]) (by simp [hy]) ⟨_, _, rfl⟩) fun borrow => ?_
  refine .bind (.unary (by simp) ⟨_, rfl⟩) fun c => ?_
  refine .bind (.binary (by simp [hxh]) (by simp [hyh]) ⟨_, _, rfl⟩) fun h => ?_
  refine .bind (.binary (by simp) (by simp) ⟨_, _, rfl⟩) fun high => .pure (by simp) fun env => ?_
  intro hhigh hh hc (hborrow : bits env borrow = if bits env x < bits env y then 1 else 0) hlow m n hm hn
  have := bits_lt env x
  have := bits_lt env y
  have := bits_lt env yh
  rw [hborrow, extended_flag] at hc
  simp only [onBits, Limbs] at *
  rw [hh, hc] at hhigh
  split_ifs at hhigh <;> omega

/-- A limb of the sign selects a word or nothing. -/
theorem sign_select (limbs : Limbs env (x, xh) m) (low : -2 ^ 63 ≤ m) (high : m < 2 ^ 64) (small : Y < 2 ^ 64) :
    (m : Int) = bits env x - 2 ^ 64 * (if m < 0 then 1 else 0) ∧ bits env xh &&& Y = if m < 0 then Y else 0 := by
  have := bits_lt env x
  have := bits_lt env xh
  rw [Limbs] at limbs
  dsimp only at limbs
  split_ifs with negative
  · have ones : bits env xh = 2 ^ 64 - 1 := by omega
    refine ⟨by omega, ?_⟩
    rw [ones, Nat.and_comm, Nat.and_two_pow_sub_one_eq_mod, Nat.mod_eq_of_lt small]
  · have none : bits env xh = 0 := by omega
    refine ⟨by omega, ?_⟩
    rw [none, Nat.zero_and]

theorem gives_mul (hx : Usable known x) (hxh : Usable known xh) (hy : Usable known y) (hyh : Usable known yh) :
    Gives known (overflowExact .mul x xh y yh) (fun r => [r.1, r.2]) fun env r => ∀ m n, Limbs env (x, xh) m → Limbs env (y, yh) n →
      -2 ^ 63 ≤ m → m < 2 ^ 64 → -2 ^ 63 ≤ n → n < 2 ^ 64 → Limbs env r (m * n) := by
  unfold overflowExact
  refine .bind (.binary hx hy ⟨_, _, rfl⟩) fun bottom => ?_
  refine .bind (.binary (by simp [hx]) (by simp) ⟨_, _, rfl⟩) fun xl => ?_
  refine .bind (.binary (by simp [hx]) (by simp) ⟨_, _, rfl⟩) fun xu => ?_
  refine .bind (.binary (by simp [hy]) (by simp) ⟨_, _, rfl⟩) fun yl => ?_
  refine .bind (.binary (by simp [hy]) (by simp) ⟨_, _, rfl⟩) fun yu => ?_
  refine .bind (.binary (by simp) (by simp) ⟨_, _, rfl⟩) fun ll => ?_
  refine .bind (.binary (by simp) (by simp) ⟨_, _, rfl⟩) fun ul => ?_
  refine .bind (.binary (by simp) (by simp) ⟨_, _, rfl⟩) fun lu => ?_
  refine .bind (.binary (by simp) (by simp) ⟨_, _, rfl⟩) fun uu => ?_
  refine .bind (.binary (by simp) (by simp) ⟨_, _, rfl⟩) fun llh => ?_
  refine .bind (.binary (by simp) (by simp) ⟨_, _, rfl⟩) fun ull => ?_
  refine .bind (.binary (by simp) (by simp) ⟨_, _, rfl⟩) fun lul => ?_
  refine .bind (.binary (by simp) (by simp) ⟨_, _, rfl⟩) fun mid0 => ?_
  refine .bind (.binary (by simp) (by simp) ⟨_, _, rfl⟩) fun mid => ?_
  refine .bind (.binary (by simp) (by simp) ⟨_, _, rfl⟩) fun carry => ?_
  refine .bind (.binary (by simp) (by simp) ⟨_, _, rfl⟩) fun ulh => ?_
  refine .bind (.binary (by simp) (by simp) ⟨_, _, rfl⟩) fun luh => ?_
  refine .bind (.binary (by simp) (by simp) ⟨_, _, rfl⟩) fun h0 => ?_
  refine .bind (.binary (by simp) (by simp) ⟨_, _, rfl⟩) fun h1 => ?_
  refine .bind (.binary (by simp) (by simp) ⟨_, _, rfl⟩) fun h2 => ?_
  refine .bind (.binary (by simp [hxh]) (by simp [hy]) ⟨_, _, rfl⟩) fun cx => ?_
  refine .bind (.binary (by simp [hyh]) (by simp [hx]) ⟨_, _, rfl⟩) fun cy => ?_
  refine .bind (.binary (by simp) (by simp) ⟨_, _, rfl⟩) fun h3 => ?_
  refine .bind (.binary (by simp) (by simp) ⟨_, _, rfl⟩) fun high => .pure (by simp) fun env => ?_
  have lowMask (w : Nat) : w &&& 4294967295 = w % 2 ^ 32 := Nat.and_two_pow_sub_one_eq_mod w 32
  simp only [onBits, bits_const, low, Int.reducePow, Int.reduceMod, Int.reduceToNat, Nat.reduceMod, lowMask]
  intro hhigh hh3 hcy hcx hh2 hh1 hh0 hluh hulh hcarry hmid hmid0 hlul hull hllh huu hlu hul hll hyu hyl hxu hxl hbottom
    m n limbsX limbsY lowM highM lowN highN
  have smallX := bits_lt env x
  have smallY := bits_lt env y
  obtain ⟨eqX, selectX⟩ := sign_select limbsX lowM highM smallY
  obtain ⟨eqY, selectY⟩ := sign_select limbsY lowN highN smallX
  obtain ⟨LL, UL, LU, UU, eqLL, eqUL, eqLU, eqUU, smallLL, smallUL, smallLU, smallUU, whole, product⟩ :=
    Bitwords.high_product smallX smallY
  rw [hxl, hyl, ← eqLL, Nat.mod_eq_of_lt smallLL] at hll
  rw [hxu, hyl, ← eqUL, Nat.mod_eq_of_lt smallUL] at hul
  rw [hxl, hyu, ← eqLU, Nat.mod_eq_of_lt smallLU] at hlu
  rw [hxu, hyu, ← eqUU, Nat.mod_eq_of_lt smallUU] at huu
  have unsigned : bits env h2 = bits env x * bits env y / 2 ^ 64 := by
    rw [product] at whole ⊢
    rw [hh2, hh1, hh0, hluh, hulh, hcarry, hmid, hmid0, hlul, hull, hllh, huu, hlu, hul, hll]
    clear * - smallLL smallUL smallLU smallUU whole
    omega
  have exact_product : ∃ k : Int, m * n = (bits env x * bits env y : Nat) - 2 ^ 64 * ((if m < 0 then bits env y else 0 : Nat) : Int) -
      2 ^ 64 * ((if n < 0 then bits env x else 0 : Nat) : Int) + 2 ^ 128 * k := by
    refine ⟨(if m < 0 then 1 else 0) * (if n < 0 then 1 else 0), ?_⟩
    rw [Nat.cast_mul]
    split_ifs at eqX eqY ⊢ <;> rw [eqX, eqY] <;> push_cast <;> ring
  obtain ⟨k, eq⟩ := exact_product
  rw [Limbs, hhigh, hh3, unsigned, hcx, hcy, selectX, selectY, hbottom, eq]
  generalize bits env x * bits env y = P at whole ⊢
  clear * - whole smallX smallY
  split_ifs <;> omega

theorem gives_overflowExact (op : CheckedOp) (hx : Usable known x) (hxh : Usable known xh) (hy : Usable known y)
    (hyh : Usable known yh) : Gives known (overflowExact op x xh y yh) (fun r => [r.1, r.2]) fun env r => ∀ m n,
      Limbs env (x, xh) m → Limbs env (y, yh) n → -2 ^ 63 ≤ m → m < 2 ^ 64 → -2 ^ 63 ≤ n → n < 2 ^ 64 → Limbs env r (op.exact m n) := by
  cases op with
  | add => exact (gives_add hx hxh hy hyh).weaken fun env r limbs m n hm hn _ _ _ _ => limbs m n hm hn
  | sub => exact (gives_sub hx hxh hy hyh).weaken fun env r limbs m n hm hn _ _ _ _ => limbs m n hm hn
  | mul => exact gives_mul hx hxh hy hyh

/-- Exact results differ from a 64-bit value by less than two limbs hold. -/
theorem exact_bounds (op : CheckedOp) {k : Int} (lowM : -2 ^ 63 ≤ m) (highM : m < 2 ^ 64) (lowN : -2 ^ 63 ≤ n) (highN : n < 2 ^ 64)
    (lowK : -2 ^ 63 ≤ k) (highK : k < 2 ^ 64) : -2 ^ 128 < op.exact m n - k ∧ op.exact m n - k < 2 ^ 128 := by
  cases op with
  | add => exact ⟨by rw [CheckedOp.exact]; omega, by rw [CheckedOp.exact]; omega⟩
  | sub => exact ⟨by rw [CheckedOp.exact]; omega, by rw [CheckedOp.exact]; omega⟩
  | mul =>
    rw [CheckedOp.exact]
    have upper : m * n ≤ (2 ^ 64 - 1) * (2 ^ 64 - 1) := by nlinarith
    have lower : -(2 ^ 63 * (2 ^ 64 - 1)) ≤ m * n := by nlinarith
    constructor <;> linarith

/-! ### The flag -/

theorem limbs_eq {r back : Value × Value} {k : Int} (exact : Limbs env r m) (stored : Limbs env back k) (low : -2 ^ 128 < m - k)
    (high : m - k < 2 ^ 128) : bits env r.1 = bits env back.1 ∧ bits env r.2 = bits env back.2 ↔ m = k := by
  have := bits_lt env r.1
  have := bits_lt env back.1
  rw [Limbs] at exact stored
  constructor <;> omega

theorem gives_overflowFlag {exact : Value × Value} {stored : Lowered} (h1 : Usable known exact.1) (h2 : Usable known exact.2)
    (h3 : Usable known stored.v) :
    Gives known (overflowFlag exact stored) (fun r => [r.v]) fun env r => r.type = .bool ∧ ∀ m k, Limbs env exact m →
      Represents env stored k → -2 ^ 128 < m - k → m - k < 2 ^ 128 → Represents env r (if m = k then 0 else 1) := by
  unfold overflowFlag
  refine .bind (gives_overflowWiden h3) fun ⟨back, backH⟩ => ?_
  refine .bind (.binary (by simp [h1]) (by simp) ⟨_, _, rfl⟩) fun badLow => ?_
  refine .bind (.binary (by simp [h2]) (by simp) ⟨_, _, rfl⟩) fun badHigh => ?_
  refine .bind (Gives.fresh (.binary (by simp) (by simp) ⟨_, _, rfl⟩) fun s => ⟨_, rfl⟩) fun flag => .pure (by simp) fun env => ?_
  rintro ⟨hflag, fresh⟩ (hHigh : bits env badHigh = if bits env exact.2 = bits env backH then 0 else 1)
    (hLow : bits env badLow = if bits env exact.1 = bits env back then 0 else 1) limbs
  refine ⟨rfl, fun m k hm hk low high => ⟨?_, ?_, fun c const => absurd const (fresh c)⟩⟩
  · split_ifs <;> rfl
  · have same := limbs_eq hm (limbs k hk) low high
    have value : bits env flag = if m = k then 0 else 1 := by
      rw [hflag, hHigh, hLow, onBits]
      by_cases eq : m = k
      · obtain ⟨eqLow, eqHigh⟩ := same.2 eq
        rw [if_pos eqLow, if_pos eqHigh, if_pos eq]
        rfl
      · rw [if_neg eq]
        split_ifs with eqLow eqHigh
        · exact absurd (same.1 ⟨eqLow, eqHigh⟩) eq
        all_goals rfl
    rw [value]
    split_ifs <;> rfl

/-! ### What is stored -/

/-- The operand's value in the exact result: a fixed builtin converts it first. -/
def operandValue (fixed : Option IntType) (m : Int) : Int :=
  match fixed with
  | none => m
  | some t => convertInt m t

theorem gives_overflowOperand (fixed : Option IntType) (here : Usable known a.v) :
    Gives known (overflowOperand fixed a) (fun r => [r.v]) fun env r => ∀ m, Represents env a m →
      Represents env r (operandValue fixed m) := by
  cases fixed with
  | none => exact .pure (by simpa using here) fun env m represents => represents
  | some t => exact (gives_convert here).weaken fun env r out => out.2

theorem convertInt_low (other : t ≠ .bool) : convertInt (m % 2 ^ 64) t = convertInt m t := by
  have dvd : span t ∣ 2 ^ 64 := by rcases span_cases t with ⟨-, is⟩ | ⟨-, is⟩ | ⟨-, is⟩ | ⟨-, is⟩ <;> rw [is] <;> decide
  have eq (k : Int) : convertInt k t = Switching.signedWord (sign t) (k % span t) (span t) := by
    cases t <;> first | rfl | exact absurd rfl other
  rw [eq, eq, Int.emod_emod_of_dvd _ dvd]

theorem limbs_ulong {r : Value × Value} (fresh : ∀ n, r.1 ≠ .const n) (limbs : Limbs env r m) :
    Represents env ⟨r.1, .ulong⟩ (m % 2 ^ 64) := by
  have := bits_lt env r.1
  rw [Limbs] at limbs
  refine ⟨?_, ?_, fun n const => absurd const (fresh n)⟩
  · show m % 2 ^ 64 % 2 ^ 64 = m % 2 ^ 64
    omega
  · show (bits env r.1 : Int) % 2 ^ 64 = m % 2 ^ 64 % 2 ^ 64
    omega

theorem gives_overflowStored {op : CheckedOp} {fixed : Option IntType} {a b : Lowered} (other : t ≠ .bool) (hereA : Usable known a.v)
    (hereB : Usable known b.v) : Gives known (overflowStored op fixed a b t) (fun r => [r.1.1, r.1.2, r.2.v]) fun env r =>
      r.2.type = t ∧ ∀ m n, Represents env a m → Represents env b n →
        ∃ e, e = op.exact (operandValue fixed m) (operandValue fixed n) ∧ Limbs env r.1 e ∧ Represents env r.2 (convertInt e t) ∧
          -2 ^ 128 < e - convertInt e t ∧ e - convertInt e t < 2 ^ 128 := by
  unfold overflowStored
  refine .bind (gives_overflowOperand fixed hereA) fun va => ?_
  refine .bind (gives_overflowOperand fixed (by simp [hereB])) fun vb => ?_
  refine .bind (gives_overflowWiden (by simp)) fun ⟨x, xh⟩ => ?_
  refine .bind (gives_overflowWiden (by simp)) fun ⟨y, yh⟩ => ?_
  refine .bind ((gives_overflowExact op (by simp) (by simp) (by simp) (by simp)).also
    (F := fun r => ∀ n, r.1 ≠ .const n) fun s n eq => by cases op <;> cases eq) fun exact => ?_
  refine .bind (gives_convert (by simp)) fun stored => .pure (by simp) fun env => ?_
  rintro ⟨type, converted⟩ ⟨limbs, fresh⟩ limbsY limbsX valueB valueA
  refine ⟨type, fun m n hm hn => ⟨_, rfl, ?_⟩⟩
  obtain ⟨lowM, highM⟩ := value_bounds (valueA m hm).value
  obtain ⟨lowN, highN⟩ := value_bounds (valueB n hn).value
  have both := limbs _ _ (limbsX _ (valueA m hm)) (limbsY _ (valueB n hn)) lowM highM lowN highN
  have value := converted _ (limbs_ulong fresh both)
  rw [convertInt_low other] at value
  obtain ⟨lowK, highK⟩ := value_bounds value.value
  exact ⟨both, value, exact_bounds op lowM highM lowN highN lowK highK⟩

end

end Nanofil.Arithmetic
