import Nanofil.Arithmetic.Conversions
import Nanofil.Lib.Bitwords

/-! The branch-free code of the bit builtins on 64-bit words. -/
namespace Nanofil.Arithmetic
open Bitwords (ones trailing leading Smeared)

/-- What a builtin counts in `n` bits. -/
def BitOp.count (op : BitOp) (n x : Nat) : Nat :=
  match op with
  | .ctz => trailing n x
  | .clz => leading n x
  | .popcount => ones n x
  | .ffs => if x = 0 then 0 else trailing n x + 1

section
variable {known : List Value} {x : Value} {X n : Nat}

theorem sub_word {x y : Nat} (le : y ≤ x) (small : x < 2 ^ 64) : (x + (2 ^ 64 - y)) % 2 ^ 64 = x - y := by omega

theorem gives_popcount64 (here : Usable known x) :
    Gives known (popcount64 x) (fun v => [v]) fun env v => bits env v = ones 64 (bits env x) := by
  unfold popcount64
  refine .bind (.binary here (by simp) ⟨_, _, rfl⟩) fun a1 => ?_
  refine .bind (.binary (by simp) (by simp) ⟨_, _, rfl⟩) fun a2 => ?_
  refine .bind (.binary (by simp [here]) (by simp) ⟨_, _, rfl⟩) fun b => ?_
  refine .bind (.binary (by simp) (by simp) ⟨_, _, rfl⟩) fun c1 => ?_
  refine .bind (.binary (by simp) (by simp) ⟨_, _, rfl⟩) fun c2 => ?_
  refine .bind (.binary (by simp) (by simp) ⟨_, _, rfl⟩) fun c3 => ?_
  refine .bind (.binary (by simp) (by simp) ⟨_, _, rfl⟩) fun c => ?_
  refine .bind (.binary (by simp) (by simp) ⟨_, _, rfl⟩) fun d1 => ?_
  refine .bind (.binary (by simp) (by simp) ⟨_, _, rfl⟩) fun d2 => ?_
  refine .bind (.binary (by simp) (by simp) ⟨_, _, rfl⟩) fun d => ?_
  refine .bind (.binary (by simp) (by simp) ⟨_, _, rfl⟩) fun e => ?_
  refine (Gives.binary (by simp) (by simp) ⟨_, _, rfl⟩).weaken fun env n => ?_
  obtain ⟨b', c', d', le, hb, hc, hd, -, small_c, eq⟩ := Bitwords.parallel_ones (bits_lt env x)
  simp only [onBits, bits_const, low, Int.reducePow, Int.reduceMod, Int.reduceToNat, Nat.reduceMod, ← Nat.shiftRight_eq_div_pow]
  intro hn he hd' hd2 hd1 hc' hc3 hc2 hc1 hb' ha2 ha1
  have same_b : bits env b = b' := by rw [hb', ha2, ha1, hb, sub_word le (bits_lt _ _)]
  have same_c : bits env c = c' := by
    rw [hc', hc3, hc2, hc1, same_b, ← hc]
    exact Nat.mod_eq_of_lt (Nat.lt_of_le_of_lt (Nat.le_add_right _ _) small_c)
  rw [hn, he, hd', hd2, hd1, same_c, Nat.mod_eq_of_lt small_c, ← hd, Nat.shiftRight_eq_div_pow]
  exact eq

/-! ### Trailing zeros -/

/-- The lowest one of a word, by its negative. -/
theorem lowest_word (small : X < 2 ^ 64) (positive : X ≠ 0) : ∃ t < 64, X &&& (2 ^ 64 - X) % 2 ^ 64 = 2 ^ t ∧
    X.testBit t = true ∧ ∀ i < t, X.testBit i = false := by
  obtain ⟨t, q, rfl⟩ := Bitwords.exists_lowest positive
  have less : t < 64 := by
    by_contra high
    have : 2 ^ 64 ≤ 2 ^ t := Nat.pow_le_pow_right (by decide) (by omega)
    have : 2 ^ t * 1 ≤ 2 ^ t * (2 * q + 1) := Nat.mul_le_mul_left _ (by omega)
    omega
  refine ⟨t, less, ?_, Bitwords.lowest_testBit⟩
  rw [Nat.mod_eq_of_lt (by omega)]
  exact Bitwords.lowest_and small

theorem ones_below {t : Nat} (le : t ≤ 64) : ones 64 ((2 ^ t % 2 ^ 64 + (2 ^ 64 - 1)) % 2 ^ 64) = t := by
  have positive : 0 < 2 ^ t := Nat.two_pow_pos t
  have below : (2 ^ t % 2 ^ 64 + (2 ^ 64 - 1)) % 2 ^ 64 = 2 ^ t - 1 := by
    rcases Nat.lt_or_ge t 64 with less | top
    · have : 2 ^ t < 2 ^ 64 := Nat.pow_lt_pow_right (by decide) less
      omega
    · obtain rfl : t = 64 := by omega
      rfl
  rw [below, Bitwords.ones_low le]

theorem trailing_word (small : X < 2 ^ 64) :
    ones 64 (((X &&& (2 ^ 64 - X) % 2 ^ 64) + (2 ^ 64 - 1)) % 2 ^ 64) = trailing 64 X := by
  by_cases zero : X = 0
  · subst zero
    decide
  · obtain ⟨t, less, eq, bit, below⟩ := lowest_word small zero
    have power : 2 ^ t < 2 ^ 64 := Nat.pow_lt_pow_right (by decide) less
    rw [eq, Bitwords.trailing_one bit below less, ← Nat.mod_eq_of_lt power, ones_below (Nat.le_of_lt less)]

/-- A one above the bits stops the count. -/
theorem trailing_stop (small : X < 2 ^ n) (less : n < 64) : trailing 64 (X ||| 2 ^ n) = trailing n X := by
  have above (i : Nat) (le : n ≤ i) : X.testBit i = false :=
    Nat.testBit_lt_two_pow (Nat.lt_of_lt_of_le small (Nat.pow_le_pow_right (by decide) le))
  have other (i : Nat) (less : i < n) : (X ||| 2 ^ n).testBit i = X.testBit i := by
    rw [Nat.testBit_or, Nat.testBit_two_pow_of_ne (by omega), Bool.or_false]
  by_cases zero : X = 0
  · subst zero
    have stop : (0 ||| 2 ^ n).testBit n = true := by simp
    rw [Bitwords.trailing_one stop (fun i le => (other i le).trans (Nat.zero_testBit i)) less,
      Bitwords.trailing_none fun i _ => Nat.zero_testBit i]
  · obtain ⟨t, q, eq⟩ := Bitwords.exists_lowest zero
    obtain ⟨bit, below⟩ := Bitwords.lowest_testBit (t := t) (q := q)
    rw [← eq] at bit below
    have inside : t < n := by
      by_contra out
      rw [above t (by omega)] at bit
      cases bit
    rw [Bitwords.trailing_one bit below inside, Bitwords.trailing_one ((other t inside).trans bit)
      (fun i le => (other i (by omega)).trans (below i le)) (by omega)]

/-- The count of trailing zeros once the stop is set. -/
def countTrailing (x : Value) : Emitting Value := do
  let m ← let_ .l .neg [x]
  let low ← let_ .l .and [x, m]
  let below ← let_ .l .sub [low, .const 1]
  popcount64 below

theorem bitCount_ctz : bitCount .ctz n x = if n < 64 then let_ .l .or [x, .const (2 ^ n)] >>= countTrailing else countTrailing x := by
  unfold bitCount
  split_ifs <;> rfl

theorem gives_countTrailing (here : Usable known x) :
    Gives known (countTrailing x) (fun v => [v]) fun env v => bits env v = trailing 64 (bits env x) := by
  unfold countTrailing
  refine .bind (.unary here ⟨_, rfl⟩) fun m => ?_
  refine .bind (.binary (by simp [here]) (by simp) ⟨_, _, rfl⟩) fun lowest => ?_
  refine .bind (.binary (by simp) (by simp) ⟨_, _, rfl⟩) fun below => ?_
  refine (gives_popcount64 (by simp)).weaken fun env v => ?_
  intro hv (hbelow : bits env below = (bits env lowest + (2 ^ 64 - 1)) % 2 ^ 64) hlowest hm
  rw [hv, hbelow, hlowest, hm]
  exact trailing_word (bits_lt _ _)

theorem low_power (less : n < 64) : low (2 ^ n) = 2 ^ n := by
  have : ((2 ^ n : Nat) : Int) = 2 ^ n := by push_cast; rfl
  rw [← this, low_cast (Nat.pow_lt_pow_right (by decide) less)]

theorem gives_ctz (here : Usable known x) (le : n ≤ 64) : Gives known (bitCount .ctz n x) (fun v => [v]) fun env v =>
    bits env x < 2 ^ n → bits env v = trailing n (bits env x) := by
  rw [bitCount_ctz]
  split_ifs with less
  · refine .bind (.binary here (by simp) ⟨_, _, rfl⟩) fun stopped => ?_
    refine (gives_countTrailing (by simp)).weaken fun env v => ?_
    intro hv hstopped small
    rw [bits_const, low_power less] at hstopped
    rw [hv, hstopped]
    exact trailing_stop small less
  · obtain rfl : n = 64 := by omega
    exact (gives_countTrailing here).weaken fun env v hv _ => hv

/-! ### The first one -/

theorem any_top (small : X < 2 ^ 64) : (X ||| (2 ^ 64 - X) % 2 ^ 64) / 2 ^ 63 = if X = 0 then 0 else 1 := by
  split_ifs with zero
  · subst zero
    rfl
  · rw [Nat.mod_eq_of_lt (by omega)]
    have left : X ≤ X ||| (2 ^ 64 - X) := Nat.left_le_or
    have right : 2 ^ 64 - X ≤ X ||| (2 ^ 64 - X) := Nat.right_le_or
    have : X ||| (2 ^ 64 - X) < 2 ^ 64 := Nat.or_lt_two_pow small (by omega)
    omega

theorem trailing_low (small : X < 2 ^ n) (positive : X ≠ 0) (le : n ≤ 64) : trailing n X = trailing 64 X := by
  obtain ⟨t, q, eq⟩ := Bitwords.exists_lowest positive
  obtain ⟨bit, below⟩ := Bitwords.lowest_testBit (t := t) (q := q)
  rw [← eq] at bit below
  have inside : t < n := by
    by_contra out
    rw [Nat.testBit_lt_two_pow (Nat.lt_of_lt_of_le small (Nat.pow_le_pow_right (by decide) (by omega)))] at bit
    cases bit
  rw [Bitwords.trailing_one bit below inside, Bitwords.trailing_one bit below (by omega)]

theorem first_word (small : X < 2 ^ 64) (positive : X ≠ 0) :
    ones 64 ((((X &&& (2 ^ 64 - X) % 2 ^ 64) + (X &&& (2 ^ 64 - X) % 2 ^ 64)) % 2 ^ 64 + (2 ^ 64 - 1)) % 2 ^ 64) = trailing 64 X + 1 := by
  obtain ⟨t, less, eq, bit, below⟩ := lowest_word small positive
  rw [eq, Bitwords.trailing_one bit below less, ← Nat.two_mul, Nat.mul_comm, ← Nat.pow_succ]
  exact ones_below less

theorem gives_ffs (here : Usable known x) (le : n ≤ 64) : Gives known (bitCount .ffs n x) (fun v => [v]) fun env v =>
    bits env x < 2 ^ n → bits env v = BitOp.ffs.count n (bits env x) := by
  unfold bitCount
  refine .bind (.unary here ⟨_, rfl⟩) fun m => ?_
  refine .bind (.binary (by simp [here]) (by simp) ⟨_, _, rfl⟩) fun lowest => ?_
  refine .bind (.binary (by simp) (by simp) ⟨_, _, rfl⟩) fun twice => ?_
  refine .bind (.binary (by simp) (by simp) ⟨_, _, rfl⟩) fun upto => ?_
  refine .bind (gives_popcount64 (by simp)) fun p => ?_
  refine .bind (.binary (by simp [here]) (by simp) ⟨_, _, rfl⟩) fun any => ?_
  refine .bind (.binary (by simp) (by simp) ⟨_, _, rfl⟩) fun nz => ?_
  refine (Gives.binary (by simp) (by simp) ⟨_, _, rfl⟩).weaken fun env v => ?_
  intro hv (hnz : bits env nz = bits env any / 2 ^ 63) hany hp
    (hupto : bits env upto = (bits env twice + (2 ^ 64 - 1)) % 2 ^ 64) htwice hlowest hm small
  have whole := bits_lt env x
  simp only [onBits] at hv hany htwice hlowest hm
  rw [hm] at hlowest hany
  rw [hlowest] at htwice
  rw [hany, any_top whole] at hnz
  rw [htwice] at hupto
  rw [hv, hp, hnz, hupto, BitOp.count]
  split_ifs with zero
  · show ones 64 _ * 0 % 2 ^ 64 = 0
    rw [Nat.mul_zero, Nat.zero_mod]
  · rw [first_word whole zero, trailing_low small zero le, Nat.mul_one]
    have : trailing 64 (bits env x) ≤ 64 := by
      have := (List.takeWhile_sublist (l := List.range 64) fun i => !(bits env x).testBit i).length_le
      rwa [List.length_range] at this
    exact Nat.mod_eq_of_lt (by omega)

/-! ### Leading zeros -/

theorem gives_smear (shs : List Nat) (here : Usable known x) (less : ∀ sh ∈ shs, sh < 64) :
    Gives known (smear shs x) (fun v => [v]) fun env v => bits env v = shs.foldl (fun y sh => y ||| y >>> sh) (bits env x) := by
  induction shs generalizing known x with
  | nil => exact .pure (by simpa using here) fun env => rfl
  | cons sh shs ih =>
    refine .bind (.binary here (by simp) ⟨_, _, rfl⟩) fun t => ?_
    refine .bind (.binary (by simp [here]) (by simp) ⟨_, _, rfl⟩) fun x1 => ?_
    refine (ih (by simp) fun sh mem => less sh (List.mem_cons_of_mem _ mem)).weaken fun env v hv hx1 ht => ?_
    have small := less sh List.mem_cons_self
    rw [bits_const, low_cast (by omega)] at ht
    simp only [onBits, Nat.mod_eq_of_lt small, ← Nat.shiftRight_eq_div_pow] at ht hx1
    rw [hv, hx1, ht]
    rfl

theorem smeared_word : Smeared 64 X ([1, 2, 4, 8, 16, 32].foldl (fun y sh => y ||| y >>> sh) X) :=
  Bitwords.smeared_self.double.double.double.double.double.double

theorem gives_clz (here : Usable known x) (le : n ≤ 64) : Gives known (bitCount .clz n x) (fun v => [v]) fun env v =>
    bits env x < 2 ^ n → bits env v = leading n (bits env x) := by
  unfold bitCount
  refine .bind (gives_smear [1, 2, 4, 8, 16, 32] here (by decide)) fun s => ?_
  refine .bind (gives_popcount64 (by simp)) fun p => ?_
  refine .bind (.binary (by simp) (by simp) ⟨_, _, rfl⟩) fun negN => ?_
  refine (Gives.unary (by simp) ⟨_, rfl⟩).weaken fun env v => ?_
  intro hv hnegN hp hs small
  obtain ⟨t, inside, top, above⟩ := Bitwords.exists_top small
  rw [hs, Bitwords.smeared_top smeared_word (by omega) top above, Bitwords.ones_low (by omega)] at hp
  rw [bits_const, low_cast (by omega), hp] at hnegN
  rw [hv, hnegN, Bitwords.leading_top top above inside]
  simp only [onBits]
  omega

theorem ones_word (small : X < 2 ^ n) (le : n ≤ 64) : ones 64 X = ones n X := by
  have split := Bitwords.ones_add (m := n) (n := 64 - n) (x := X)
  have none : ones (64 - n) (X >>> n) = 0 := by
    rw [Nat.shiftRight_eq_div_pow, Nat.div_eq_of_lt small]
    exact List.countP_eq_zero.2 fun i _ => by simp
  rw [show n + (64 - n) = 64 by omega, none, Nat.add_zero] at split
  exact split

/-- The code of each bit builtin counts. -/
theorem gives_bitCount (op : BitOp) (here : Usable known x) (le : n ≤ 64) : Gives known (bitCount op n x) (fun v => [v]) fun env v =>
    bits env x < 2 ^ n → bits env v = op.count n (bits env x) := by
  cases op with
  | ctz => exact gives_ctz here le
  | clz => exact gives_clz here le
  | ffs => exact gives_ffs here le
  | popcount => exact (gives_popcount64 here).weaken fun env v hv small => hv.trans (ones_word small le)

end

end Nanofil.Arithmetic
