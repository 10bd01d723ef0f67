import Nanofil.Arithmetic.Straight

/-! The operations of straight code on 64-bit words, and rules that give what the equations of emitted code
say of its values. -/
namespace Nanofil.Arithmetic
open List Option

/-! ### Operations -/

/-- The word as 64 bits. -/
def low (x : Int) : Nat := (x % 2 ^ 64).toNat

/-- The low bytes with the sign copied up to 64 bits, or zeros. -/
def extended (size : Nat) (sign : Signedness) (x : Nat) : Nat :=
  if sign = .signed ∧ 2 ^ (8 * size - 1) ≤ x % 2 ^ (8 * size) then x % 2 ^ (8 * size) + (2 ^ 64 - 2 ^ (8 * size))
  else x % 2 ^ (8 * size)

/-- The value of `n` bits in two's complement. -/
def signedBits (n x : Nat) : Int := if 2 ^ (n - 1) ≤ x then (x : Int) - (2 ^ n : Nat) else x

/-- The operations of the table on 64-bit words. -/
def onBits : Op → Cls → List Nat → Nat
  | .add, .l, [x, y] => (x + y) % 2 ^ 64
  | .sub, .l, [x, y] => (x + (2 ^ 64 - y)) % 2 ^ 64
  | .mul, .l, [x, y] => x * y % 2 ^ 64
  | .and, .l, [x, y] => x &&& y
  | .or, .l, [x, y] => x ||| y
  | .or, .w, [x, y] => x % 2 ^ 32 ||| y % 2 ^ 32
  | .shl, .l, [x, y] => x * 2 ^ (y % 64) % 2 ^ 64
  | .shr, .l, [x, y] => x / 2 ^ (y % 64)
  | .sar, .l, [x, y] => (if 2 ^ 63 ≤ x then x + (2 ^ 128 - 2 ^ 64) else x) / 2 ^ (y % 64) % 2 ^ 64
  | .neg, .l, [x] => (2 ^ 64 - x) % 2 ^ 64
  | .ext t, k, [x] =>
    match narrowType t with
    | some (size, sign) => if k = .l then extended size sign x else extended size sign x % 2 ^ 32
    | none => 0
  | .cmp .ne .l, .w, [x, y] => if x = y then 0 else 1
  | .cmp .ne .w, .w, [x, y] => if x % 2 ^ 32 = y % 2 ^ 32 then 0 else 1
  | .cmp .ult .l, .w, [x, y] => if x < y then 1 else 0
  | .xor, .l, [x, y] => x ^^^ y
  | .sub, .w, [x, y] => (x % 2 ^ 32 + (2 ^ 32 - y % 2 ^ 32)) % 2 ^ 32
  | .and, .w, [x, y] => x % 2 ^ 32 &&& y % 2 ^ 32
  | .xor, .w, [x, y] => x % 2 ^ 32 ^^^ y % 2 ^ 32
  | .shl, .w, [x, y] => x % 2 ^ 32 * 2 ^ (y % 32) % 2 ^ 32
  | .copy, .w, [x] => x % 2 ^ 32
  | .cmp .eq .l, .w, [x, y] => if x = y then 1 else 0
  | .cmp .slt .l, .w, [x, y] => if signedBits 64 x < signedBits 64 y then 1 else 0
  | .cmp .sle .l, .w, [x, y] => if signedBits 64 x ≤ signedBits 64 y then 1 else 0
  | .cmp .eq .w, .w, [x, y] => if x % 2 ^ 32 = y % 2 ^ 32 then 1 else 0
  | .cmp .slt .w, .w, [x, y] => if signedBits 32 (x % 2 ^ 32) < signedBits 32 (y % 2 ^ 32) then 1 else 0
  | .cmp .sle .w, .w, [x, y] => if signedBits 32 (x % 2 ^ 32) ≤ signedBits 32 (y % 2 ^ 32) then 1 else 0
  | _, _, _ => 0

section
variable {x y : Int} {a b : Nat}

theorem low_lt : low x < 2 ^ 64 := by
  have := Int.emod_lt_of_pos x (b := 2 ^ 64) (by decide)
  have := Int.emod_nonneg x (b := 2 ^ 64) (by decide)
  unfold low
  omega

theorem atClass_l : atClass .l x = low x := by
  show x % 18446744073709551616 = _
  unfold low
  omega

theorem atClass_w : atClass .w x = (low x % 2 ^ 32 : Nat) := by
  show x % 4294967296 = _
  unfold low
  omega

theorem low_cast (small : a < 2 ^ 64) : low a = a := by
  unfold low
  omega

theorem shift_cast : (2 : Int) ^ ((b : Int) % 64).toNat = (2 ^ (b % 64) : Nat) := by
  rw [show ((b : Int) % 64).toNat = b % 64 by omega]
  rfl

theorem low_extension {t : LoadType} {size : Nat} {sign : Signedness} (narrow : narrowType t = some (size, sign)) :
    ∃ e, extension t (low x % 2 ^ 32 : Nat) = .ok e ∧ e % 18446744073709551616 = extended size sign (low x) ∧
      e % 4294967296 = (extended size sign (low x) % 2 ^ 32 : Nat) := by
  have := low_lt (x := x)
  cases t <;> cases narrow
  all_goals
    refine ⟨_, rfl, ?_, ?_⟩ <;>
    · simp only [signExtension, extended, true_and, reduceCtorEq, false_and, if_false, Nat.reduceMul, Nat.reduceSub, Nat.reducePow]
      try split_ifs
      all_goals omega

/-- A shift of the sign goes on past the word's top. -/
theorem sar_cast (small : a < 2 ^ 64) (less : b < 64) :
    signExtension 18446744073709551616 9223372036854775808 a / (2 ^ b : Nat) % 18446744073709551616 =
      ((if 2 ^ 63 ≤ a then a + (2 ^ 128 - 2 ^ 64) else a) / 2 ^ b % 2 ^ 64 : Nat) := by
  have word : (a : Int) % 18446744073709551616 = a := by omega
  rw [signExtension, word]
  by_cases top : 2 ^ 63 ≤ a
  · have past : (2 : Int) ^ 128 = 18446744073709551616 * 2 ^ (64 - b) * (2 ^ b : Nat) := by
      rw [Nat.cast_pow, Nat.cast_two, mul_assoc, ← pow_add, show 64 - b + b = 64 by omega]
      norm_num
    rw [if_pos top, if_pos (by omega), Int.natCast_emod, Int.natCast_ediv,
      show ((a + (2 ^ 128 - 2 ^ 64) : Nat) : Int) = a - 18446744073709551616 + 2 ^ 128 by omega, past,
      Int.add_mul_ediv_right _ _ (by positivity)]
    omega
  · rw [if_neg top, if_neg (by omega)]
    rfl

theorem extended_lt {size : Nat} {sign : Signedness} (le : size ≤ 8) : extended size sign a < 2 ^ 64 := by
  have span : 2 ^ (8 * size) ≤ 2 ^ 64 := Nat.pow_le_pow_right (by decide) (by omega)
  have := Nat.mod_lt a (Nat.two_pow_pos (8 * size))
  unfold extended
  split_ifs <;> omega

theorem signed_word (less : a < 2 ^ 32) : signExtension 4294967296 2147483648 a = signedBits 32 a := by
  unfold signExtension signedBits
  split_ifs <;> omega

theorem signed_long (less : a < 2 ^ 64) : signExtension 18446744073709551616 9223372036854775808 a = signedBits 64 a := by
  unfold signExtension signedBits
  split_ifs <;> omega

theorem bit_nat (p : Prop) [Decidable p] : bit p = ((if p then 1 else 0 : Nat) : Int) ∧ (if p then 1 else 0) < 2 ^ 64 := by
  split_ifs with h <;> simp [bit, h]

/-- What an operation of the table gives, on 64 bits. -/
theorem compute_bits {op : Op} {k : Cls} {ks : List Cls} {xs : List Int} (known : machine op k = some ks)
    (length : xs.length = ks.length) : compute op k xs = onBits op k (xs.map low) ∧ onBits op k (xs.map low) < 2 ^ 64 := by
  unfold machine at known
  split at known
  case h_28 => cases known
  case h_21 =>
    cases known
    obtain ⟨x, rfl⟩ := length_eq_one_iff.1 length
    show atClass .w x = (low x % 2 ^ 32 : Nat) ∧ low x % 2 ^ 32 < 2 ^ 64
    rw [atClass_w]
    omega
  case h_9 =>
    cases known
    obtain ⟨x, rfl⟩ := length_eq_one_iff.1 length
    have := low_lt (x := x)
    show -(atClass .l x) % 18446744073709551616 = ((2 ^ 64 - low x) % 2 ^ 64 : Nat) ∧ (2 ^ 64 - low x) % 2 ^ 64 < 2 ^ 64
    rw [atClass_l]
    omega
  case h_11 t | h_12 t =>
    split_ifs at known with narrow
    cases known
    obtain ⟨x, rfl⟩ := length_eq_one_iff.1 length
    have table {k : Cls} (is : k = .l ∨ k = .w) : machine (.ext t) k = some [.w] := by
      rcases is with rfl | rfl <;> exact if_pos narrow
    obtain ⟨⟨size, sign⟩, narrow⟩ := isSome_iff_exists.1 narrow
    obtain ⟨e, eq, long, word⟩ := low_extension (x := x) narrow
    have le : size ≤ 8 := by cases t <;> cases narrow <;> decide
    have : extended size sign (low x) < 2 ^ 64 := extended_lt le
    simp only [compute, table, getD_some, List.zipWith, atClass_w, alu, eq, bind, Except.bind, pure, Except.pure,
      onBits, List.map, narrow, true_or, or_true, reduceCtorEq, if_false, if_true]
    first
    | exact ⟨long, this⟩
    | exact ⟨word, by omega⟩
  all_goals
    cases known
    obtain ⟨x, y, rfl⟩ := length_eq_two.1 length
    have := low_lt (x := x)
    have := low_lt (x := y)
  · show (atClass .l x + atClass .l y) % 18446744073709551616 = ((low x + low y) % 2 ^ 64 : Nat) ∧ (low x + low y) % 2 ^ 64 < 2 ^ 64
    rw [atClass_l, atClass_l]
    omega
  · show (atClass .l x - atClass .l y) % 18446744073709551616 = ((low x + (2 ^ 64 - low y)) % 2 ^ 64 : Nat) ∧
      (low x + (2 ^ 64 - low y)) % 2 ^ 64 < 2 ^ 64
    rw [atClass_l, atClass_l]
    omega
  · show atClass .l x * atClass .l y % 18446744073709551616 = (low x * low y % 2 ^ 64 : Nat) ∧ low x * low y % 2 ^ 64 < 2 ^ 64
    rw [atClass_l, atClass_l]
    exact ⟨rfl, Nat.mod_lt _ (by decide)⟩
  · show Int.land (atClass .l x) (atClass .l y) = (low x &&& low y : Nat) ∧ low x &&& low y < 2 ^ 64
    rw [atClass_l, atClass_l]
    exact ⟨rfl, Nat.and_lt_two_pow _ low_lt⟩
  · show Int.lor (atClass .l x) (atClass .l y) = (low x ||| low y : Nat) ∧ low x ||| low y < 2 ^ 64
    rw [atClass_l, atClass_l]
    exact ⟨rfl, Nat.or_lt_two_pow low_lt low_lt⟩
  · show atClass .l x * 2 ^ (atClass .w y % 64).toNat % 18446744073709551616 = (low x * 2 ^ (low y % 64) % 2 ^ 64 : Nat) ∧
      low x * 2 ^ (low y % 64) % 2 ^ 64 < 2 ^ 64
    rw [atClass_l, atClass_w, shift_cast, Nat.mod_mod_of_dvd _ (by decide)]
    exact ⟨rfl, Nat.mod_lt _ (by decide)⟩
  · show (atClass .l x).tdiv (2 ^ (atClass .w y % 64).toNat) = (low x / 2 ^ (low y % 64) : Nat) ∧ low x / 2 ^ (low y % 64) < 2 ^ 64
    rw [atClass_l, atClass_w, shift_cast, Nat.mod_mod_of_dvd _ (by decide)]
    exact ⟨rfl, Nat.lt_of_le_of_lt (Nat.div_le_self _ _) low_lt⟩
  · show signExtension 18446744073709551616 9223372036854775808 (atClass .l x) / 2 ^ (atClass .w y % 64).toNat %
      18446744073709551616 = ((if 2 ^ 63 ≤ low x then low x + (2 ^ 128 - 2 ^ 64) else low x) / 2 ^ (low y % 64) % 2 ^ 64 : Nat) ∧ _ % 2 ^ 64 < 2 ^ 64
    rw [atClass_l, atClass_w, shift_cast, Nat.mod_mod_of_dvd _ (by decide)]
    exact ⟨sar_cast low_lt (Nat.mod_lt _ (by decide)), Nat.mod_lt _ (by decide)⟩
  · show Int.lor (atClass .w x) (atClass .w y) = (low x % 2 ^ 32 ||| low y % 2 ^ 32 : Nat) ∧ low x % 2 ^ 32 ||| low y % 2 ^ 32 < 2 ^ 64
    rw [atClass_w, atClass_w]
    exact ⟨rfl, Nat.or_lt_two_pow (by omega) (by omega)⟩
  · show bit (atClass .l x ≠ atClass .l y) = (if low x = low y then 0 else 1 : Nat) ∧ (if low x = low y then 0 else 1) < 2 ^ 64
    rw [atClass_l, atClass_l]
    split_ifs <;> simp [bit, *]
  · show bit (atClass .l x < atClass .l y) = (if low x < low y then 1 else 0 : Nat) ∧ (if low x < low y then 1 else 0) < 2 ^ 64
    rw [atClass_l, atClass_l]
    split_ifs <;> simp [bit, *]
  · show bit (atClass .w x ≠ atClass .w y) = (if low x % 2 ^ 32 = low y % 2 ^ 32 then 0 else 1 : Nat) ∧
      (if low x % 2 ^ 32 = low y % 2 ^ 32 then 0 else 1) < 2 ^ 64
    rw [atClass_w, atClass_w]
    generalize low x % 2 ^ 32 = u
    generalize low y % 2 ^ 32 = v
    split_ifs <;> simp [bit, *]
  · show Int.xor (atClass .l x) (atClass .l y) = (low x ^^^ low y : Nat) ∧ low x ^^^ low y < 2 ^ 64
    rw [atClass_l, atClass_l]
    exact ⟨rfl, Nat.xor_lt_two_pow low_lt low_lt⟩
  · show (atClass .w x - atClass .w y) % 4294967296 = ((low x % 2 ^ 32 + (2 ^ 32 - low y % 2 ^ 32)) % 2 ^ 32 : Nat) ∧ _ % 2 ^ 32 < 2 ^ 64
    rw [atClass_w, atClass_w]
    omega
  · show Int.land (atClass .w x) (atClass .w y) = (low x % 2 ^ 32 &&& low y % 2 ^ 32 : Nat) ∧ low x % 2 ^ 32 &&& low y % 2 ^ 32 < 2 ^ 64
    rw [atClass_w, atClass_w]
    exact ⟨rfl, Nat.and_lt_two_pow _ (by omega)⟩
  · show Int.xor (atClass .w x) (atClass .w y) = (low x % 2 ^ 32 ^^^ low y % 2 ^ 32 : Nat) ∧ low x % 2 ^ 32 ^^^ low y % 2 ^ 32 < 2 ^ 64
    rw [atClass_w, atClass_w]
    exact ⟨rfl, Nat.xor_lt_two_pow (by omega) (by omega)⟩
  · show atClass .w x * 2 ^ (atClass .w y % 32).toNat % 4294967296 = (low x % 2 ^ 32 * 2 ^ (low y % 32) % 2 ^ 32 : Nat) ∧ _ % 2 ^ 32 < 2 ^ 64
    rw [atClass_w, atClass_w, show ((low y % 2 ^ 32 : Nat) : Int) % 32 = (low y % 32 : Nat) by omega, Int.toNat_natCast]
    exact ⟨by push_cast; rfl, by omega⟩
  · show bit (atClass .l x = atClass .l y) = (if low x = low y then 1 else 0 : Nat) ∧ (if low x = low y then 1 else 0) < 2 ^ 64
    rw [atClass_l, atClass_l]
    simpa using bit_nat (low x = low y)
  · show bit (signExtension 18446744073709551616 9223372036854775808 (atClass .l x) < signExtension 18446744073709551616 9223372036854775808 (atClass .l y)) =
      (if signedBits 64 (low x) < signedBits 64 (low y) then 1 else 0 : Nat) ∧ _ < 2 ^ 64
    rw [atClass_l, atClass_l, signed_long low_lt, signed_long low_lt]
    exact bit_nat _
  · show bit (signExtension 18446744073709551616 9223372036854775808 (atClass .l x) ≤ signExtension 18446744073709551616 9223372036854775808 (atClass .l y)) =
      (if signedBits 64 (low x) ≤ signedBits 64 (low y) then 1 else 0 : Nat) ∧ _ < 2 ^ 64
    rw [atClass_l, atClass_l, signed_long low_lt, signed_long low_lt]
    exact bit_nat _
  · show bit (atClass .w x = atClass .w y) = (if low x % 2 ^ 32 = low y % 2 ^ 32 then 1 else 0 : Nat) ∧
      (if low x % 2 ^ 32 = low y % 2 ^ 32 then 1 else 0) < 2 ^ 64
    rw [atClass_w, atClass_w]
    generalize low x % 2 ^ 32 = u
    generalize low y % 2 ^ 32 = v
    simpa using bit_nat (u = v)
  · show bit (signExtension 4294967296 2147483648 (atClass .w x) < signExtension 4294967296 2147483648 (atClass .w y)) =
      (if signedBits 32 (low x % 2 ^ 32) < signedBits 32 (low y % 2 ^ 32) then 1 else 0 : Nat) ∧ _ < 2 ^ 64
    rw [atClass_w, atClass_w, signed_word (by omega), signed_word (by omega)]
    exact bit_nat _
  · show bit (signExtension 4294967296 2147483648 (atClass .w x) ≤ signExtension 4294967296 2147483648 (atClass .w y)) =
      (if signedBits 32 (low x % 2 ^ 32) ≤ signedBits 32 (low y % 2 ^ 32) then 1 else 0 : Nat) ∧ _ < 2 ^ 64
    rw [atClass_w, atClass_w, signed_word (by omega), signed_word (by omega)]
    exact bit_nat _

end

/-! ### Rules -/

/-- The value's word. -/
def bits (env : Env) (v : Value) : Nat := low (word env v)

/-- A constant or one of the values. -/
def Usable (known : List Value) (v : Value) : Prop := (∃ n, v = .const n) ∨ v ∈ known

/-- Where the values may be read, the code is straight, gives values that may be read, and where its equations hold
they do what the last argument says. -/
def Gives {α : Type} (known : List Value) (m : Emitting α) (out : α → List Value) (P : Env → α → Prop) : Prop :=
  ∀ inputs s0 is s, Straight inputs s0 is s → (∀ v ∈ known, Avail inputs is v) →
    ∃ js, Straight inputs s0 (is ++ js) (m s).2 ∧ (∀ v ∈ out (m s).1, Avail inputs (is ++ js) v) ∧
      ∀ env, Solves env (is ++ js) → P env (m s).1

section
variable {α β : Type} {known : List Value} {m : Emitting α} {f : α → Emitting β} {out : α → List Value} {out1 : β → List Value}
  {P P1 : Env → α → Prop} {Q : Env → β → Prop} {op : Op} {k : Cls} {ks : List Cls} {args : List Value} {a b : Value}

theorem bits_lt (env : Env) (a : Value) : bits env a < 2 ^ 64 := low_lt

theorem bits_const {env : Env} {n : Int} : bits env (.const n) = low n := rfl

@[simp] theorem usable_const {n : Int} : Usable known (.const n) := .inl ⟨n, rfl⟩

@[simp] theorem usable_cons : Usable (b :: known) a ↔ a = b ∨ Usable known a := by
  simp only [Usable, mem_cons]
  exact or_left_comm

theorem Usable.avail {inputs : List Value} {is : List Inst} (usable : Usable known a) (avail : ∀ v ∈ known, Avail inputs is v) :
    Avail inputs is a := by
  rcases usable with const | mem
  · exact .inl const
  · exact avail a mem

theorem Gives.pure {x : α} (usable : ∀ v ∈ out x, Usable known v) (holds : ∀ env, P env x) : Gives known (pure x) out P := by
  intro inputs s0 is s straight avail
  refine ⟨[], ?_, fun v mem => ?_, fun env _ => holds env⟩
  · rwa [append_nil]
  · rw [append_nil]
    exact (usable v mem).avail avail

theorem Gives.bind (first : Gives known m out P) (next : ∀ x, Gives (out x ++ known) (f x) out1 fun env y => P env x → Q env y) :
    Gives known (m >>= f) out1 Q := by
  intro inputs s0 is s straight avail
  obtain ⟨js, straight1, avail1, holds⟩ := first inputs s0 is s straight avail
  have both : ∀ v ∈ out (m s).1 ++ known, Avail inputs (is ++ js) v := fun v mem => by
    rcases mem_append.1 mem with given | before
    · exact avail1 v given
    · exact (avail v before).append js
  obtain ⟨ks, straight2, avail2, then_holds⟩ := next (m s).1 inputs s0 (is ++ js) (m s).2 straight1 both
  refine ⟨js ++ ks, ?_, ?_, fun env solves => ?_⟩
  · rw [← append_assoc]
    exact straight2
  · rw [← append_assoc]
    exact avail2
  · rw [← append_assoc] at solves
    exact then_holds env solves (holds env solves.prefix)

theorem Gives.weaken (gives : Gives known m out P) (weaker : ∀ env x, P env x → P1 env x) : Gives known m out P1 := by
  intro inputs s0 is s straight avail
  obtain ⟨js, straight, avail, holds⟩ := gives inputs s0 is s straight avail
  exact ⟨js, straight, avail, fun env solves => weaker env _ (holds env solves)⟩

theorem Gives.also {F : α → Prop} (gives : Gives known m out P) (fact : ∀ s, F (m s).1) :
    Gives known m out fun env x => P env x ∧ F x := by
  intro inputs s0 is s straight avail
  obtain ⟨js, straight, avail, holds⟩ := gives inputs s0 is s straight avail
  exact ⟨js, straight, avail, fun env solves => ⟨holds env solves, fact s⟩⟩

theorem Gives.fresh {m : Emitting Value} {out : Value → List Value} {P : Env → Value → Prop} (gives : Gives known m out P)
    (tmp : ∀ s, ∃ n, (m s).1 = .tmp n) : Gives known m out fun env v => P env v ∧ ∀ n, v ≠ .const n :=
  gives.also fun s c const => by
    obtain ⟨n, eq⟩ := tmp s
    rw [eq] at const
    cases const

theorem Gives.inst (usable : ∀ v ∈ args, Usable known v) (in_table : machine op k = some ks) (length : args.length = ks.length) :
    Gives known (let_ k op args) (fun v => [v]) fun env v => bits env v = onBits op k (args.map (bits env)) := by
  intro inputs s0 is s straight avail
  refine ⟨[.let_ (Switching.tempName s.n) k op args], straight.snoc in_table length fun a mem => (usable a mem).avail avail,
    fun v mem => ?_, fun env solves => ?_⟩
  · rw [mem_singleton.1 mem]
    exact .inr (.inr ⟨_, k, op, args, rfl, mem_append_right _ mem_cons_self⟩)
  · have equation := solves _ k op args (mem_append_right is mem_cons_self)
    have fits : (args.map (word env)).length = ks.length := by rw [length_map, length]
    obtain ⟨eq, small⟩ := compute_bits in_table fits
    rw [List.map_map] at eq small
    show low (word env (.tmp (Switching.tempName s.n))) = _
    rw [equation, eq]
    exact low_cast small

theorem Gives.unary (usable : Usable known a) (in_table : ∃ ka, machine op k = some [ka]) :
    Gives known (let_ k op [a]) (fun v => [v]) fun env v => bits env v = onBits op k [bits env a] := by
  obtain ⟨ka, in_table⟩ := in_table
  exact .inst (by simpa using usable) in_table rfl

theorem Gives.binary (usableA : Usable known a) (usableB : Usable known b) (in_table : ∃ ka kb, machine op k = some [ka, kb]) :
    Gives known (let_ k op [a, b]) (fun v => [v]) fun env v => bits env v = onBits op k [bits env a, bits env b] := by
  obtain ⟨ka, kb, in_table⟩ := in_table
  exact .inst (by simpa using ⟨usableA, usableB⟩) in_table rfl

end

end Nanofil.Arithmetic
