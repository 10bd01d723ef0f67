import Nanofil.Arithmetic.Builtins

/-! `c_lower.pl`: C's binary operators on integers and a selection without a branch, and rules for code in which
one value's number follows from the numbers of others. -/
namespace Nanofil.Arithmetic
open List
open Switching (IntType Emit size sign typeClass convertInt span lowest InRange integerType integerPromotion Computes Kept)

/-! ### Operators -/

inductive BinOp
  | sub | and | or | xor | shl | eq | ne | lt | le
deriving DecidableEq

def BinOp.compares : BinOp → Bool
  | .eq | .ne | .lt | .le => true
  | _ => false

def rank (t : IntType) : Nat := (integerType t).2.2

def unsignedOf : IntType → IntType
  | .int => .uint
  | .long => .ulong
  | .llong => .ullong
  | t => t

/-- `usual_arith_conversion/3` of integer types. -/
def usualConversion (a0 b0 : IntType) : IntType :=
  let a := integerPromotion a0
  let b := integerPromotion b0
  if a = b then a
  else if sign a = sign b then (if rank a ≥ rank b then a else b)
  else if sign a = .unsigned ∧ rank a ≥ rank b then a
  else if sign b = .unsigned ∧ rank b ≥ rank a then b
  else if sign a = .signed ∧ size a > size b then a
  else if sign b = .signed ∧ size b > size a then b
  else if sign a = .signed then unsignedOf a
  else unsignedOf b

/-- `binary_operands/6` of integer types: what each operand converts to, and the result's type. -/
def operandTypes (op : BinOp) (a b : IntType) : IntType × IntType × IntType :=
  if op = .shl then (integerPromotion a, integerPromotion b, integerPromotion a)
  else (usualConversion a b, usualConversion a b, if op.compares then .int else usualConversion a b)

/-- `cmp_op/3` and `arith_op/3`: the class and the operation for operands of a sign and a class. -/
def BinOp.ir (op : BinOp) (s : Signedness) (k : Cls) : Cls × Op :=
  match op with
  | .sub => (k, .sub)
  | .and => (k, .and)
  | .or => (k, .or)
  | .xor => (k, .xor)
  | .shl => (k, .shl)
  | .eq => (.w, .cmp .eq k)
  | .ne => (.w, .cmp .ne k)
  | .lt => (.w, .cmp (if s = .signed then .slt else .ult) k)
  | .le => (.w, .cmp (if s = .signed then .sle else .ule) k)

/-- `binary//5` of integers. -/
def binary (op : BinOp) (a b : Lowered) : Emitting Lowered := do
  let types := operandTypes op a.type b.type
  let a1 ← convert a types.1
  let b1 ← convert b types.2.1
  let ir := op.ir (sign types.1) (typeClass types.1)
  let v ← let_ ir.1 ir.2 [a1.v, b1.v]
  pure ⟨v, types.2.2⟩

def k (n : Int) : Lowered := ⟨.const n, .int⟩

/-- The first of two values where the int is 1 and the second where it is 0. -/
def isel (c a b : Lowered) (t : IntType) : Emitting Lowered := do
  let a1 ← convert a t
  let b1 ← convert b t
  let m0 ← binary .sub (k 0) c
  let m ← convert m0 t
  let d ← binary .xor a1 b1
  let d1 ← binary .and d m
  let r0 ← binary .xor b1 d1
  convert r0 t

/-- A predicate on each element, after another. -/
def each {α β : Type} (f : α → Emitting β) : List α → Emitting (List β)
  | [] => pure []
  | a :: as => do
    let b ← f a
    let bs ← each f as
    pure (b :: bs)

/-! ### What they give -/

/-- The word that holds a number at a type's width. -/
def wordOf (c : IntType) (u : Int) : Nat := (u % span c).toNat

/-- C's operators on numbers of a type, the bitwise ones on their words. -/
def BinOp.apply (op : BinOp) (c : IntType) (u v : Int) : Int :=
  match op with
  | .sub => convertInt (u - v) c
  | .and => convertInt (wordOf c u &&& wordOf c v : Nat) c
  | .or => convertInt (wordOf c u ||| wordOf c v : Nat) c
  | .xor => convertInt (wordOf c u ^^^ wordOf c v : Nat) c
  | .shl => convertInt (u * 2 ^ (v % (8 * size c)).toNat) c
  | .eq => (decide (u = v)).toInt
  | .ne => (decide (u ≠ v)).toInt
  | .lt => (decide (u < v)).toInt
  | .le => (decide (u ≤ v)).toInt

/-- The types that these values are computed at. -/
def Plain (c : IntType) : Prop := c = .int ∨ c = .long

section
variable {c t : IntType} {u v x y : Int} {p q : Nat}

theorem Plain.other (plain : Plain c) : c ≠ .bool := by rcases plain with rfl | rfl <;> decide

theorem Plain.table (op : BinOp) (plain : Plain c) :
    ∃ ka kb, machine (op.ir (sign c) (typeClass c)).2 (op.ir (sign c) (typeClass c)).1 = some [ka, kb] := by
  rcases plain with rfl | rfl <;> cases op <;> exact ⟨_, _, rfl⟩

theorem decide_word (n : Prop) [Decidable n] {m : Prop} [Decidable m] (same : m ↔ n) :
    ((if m then 1 else 0 : Nat) : Int) % 2 ^ 32 = (decide n).toInt % 2 ^ 32 := by
  by_cases holds : n
  · rw [if_pos (same.2 holds), decide_eq_true holds]
    rfl
  · rw [if_neg (mt same.1 holds), decide_eq_false holds]
    rfl

theorem decide_word_not (n : Prop) [Decidable n] {m : Prop} [Decidable m] (same : m ↔ ¬ n) :
    ((if m then 0 else 1 : Nat) : Int) % 2 ^ 32 = (decide n).toInt % 2 ^ 32 := by
  by_cases holds : n
  · rw [if_neg fun isM => same.1 isM holds, decide_eq_true holds]
    rfl
  · rw [if_pos (same.2 holds), decide_eq_false holds]
    rfl

theorem signedBits_int (inU : InRange .int u) (word : (p : Int) % 2 ^ 32 = u % 2 ^ 32) : signedBits 32 (p % 2 ^ 32) = u := by
  change -2147483648 ≤ u ∧ u < -2147483648 + 4294967296 at inU
  unfold signedBits
  split_ifs <;> omega

theorem signedBits_long (inU : InRange .long u) (small : p < 2 ^ 64) (word : (p : Int) % 2 ^ 64 = u % 2 ^ 64) : signedBits 64 p = u := by
  change -9223372036854775808 ≤ u ∧ u < -9223372036854775808 + 18446744073709551616 at inU
  unfold signedBits
  split_ifs <;> omega

theorem shift_word {n : Nat} (word : (p : Int) % n = u % n) (k : Nat) : ((p * 2 ^ k % n : Nat) : Int) % n = u * 2 ^ k % n := by
  rw [Int.natCast_mod, Int.emod_emod_of_dvd _ (dvd_refl _), Nat.cast_mul, Int.mul_emod, word, ← Int.mul_emod, Nat.cast_pow]
  rfl

/-- The operations on words of two numbers give the operator's word. -/
theorem apply_int (op : BinOp) (inU : InRange .int u) (inV : InRange .int v) (wordP : (p : Int) % 2 ^ 32 = u % 2 ^ 32)
    (wordQ : (q : Int) % 2 ^ 32 = v % 2 ^ 32) :
    (onBits (op.ir .signed .w).2 (op.ir .signed .w).1 [p, q] : Int) % 2 ^ 32 = op.apply .int u v % 2 ^ 32 := by
  have conv (z : Int) : convertInt z .int % 2 ^ 32 = z % 2 ^ 32 := (convertInt_span (x := z) (t := .int) (by decide)).2
  have hp : p % 2 ^ 32 = wordOf .int u := by
    show _ = (u % 2 ^ 32).toNat
    omega
  have hq : q % 2 ^ 32 = wordOf .int v := by
    show _ = (v % 2 ^ 32).toNat
    omega
  have signedP := signedBits_int inU wordP
  have signedQ := signedBits_int inV wordQ
  change -2147483648 ≤ u ∧ u < -2147483648 + 4294967296 at inU
  change -2147483648 ≤ v ∧ v < -2147483648 + 4294967296 at inV
  cases op with
  | sub =>
    show (((p % 2 ^ 32 + (2 ^ 32 - q % 2 ^ 32)) % 2 ^ 32 : Nat) : Int) % 2 ^ 32 = convertInt (u - v) .int % 2 ^ 32
    rw [conv]
    omega
  | and =>
    show ((p % 2 ^ 32 &&& q % 2 ^ 32 : Nat) : Int) % 2 ^ 32 = convertInt _ .int % 2 ^ 32
    rw [conv, hp, hq]
  | or =>
    show ((p % 2 ^ 32 ||| q % 2 ^ 32 : Nat) : Int) % 2 ^ 32 = convertInt _ .int % 2 ^ 32
    rw [conv, hp, hq]
  | xor =>
    show ((p % 2 ^ 32 ^^^ q % 2 ^ 32 : Nat) : Int) % 2 ^ 32 = convertInt _ .int % 2 ^ 32
    rw [conv, hp, hq]
  | shl =>
    show ((p % 2 ^ 32 * 2 ^ (q % 32) % 2 ^ 32 : Nat) : Int) % 2 ^ 32 = convertInt (u * 2 ^ (v % 32).toNat) .int % 2 ^ 32
    have count : (v % 32).toNat = q % 32 := by omega
    rw [conv, count]
    exact shift_word (p := p % 2 ^ 32) (n := 2 ^ 32) (by omega) _
  | eq => exact decide_word (u = v) (by omega)
  | ne => exact decide_word_not (u ≠ v) (by omega)
  | lt => exact decide_word (u < v) (by rw [signedP, signedQ])
  | le => exact decide_word (u ≤ v) (by rw [signedP, signedQ])

theorem apply_long (op : BinOp) (inU : InRange .long u) (inV : InRange .long v) (smallP : p < 2 ^ 64) (smallQ : q < 2 ^ 64)
    (wordP : (p : Int) % 2 ^ 64 = u % 2 ^ 64) (wordQ : (q : Int) % 2 ^ 64 = v % 2 ^ 64) :
    (onBits (op.ir .signed .l).2 (op.ir .signed .l).1 [p, q] : Int) % wordSpan (if op.compares then .int else .long) =
      op.apply .long u v % wordSpan (if op.compares then .int else .long) := by
  have conv (z : Int) : convertInt z .long % 2 ^ 64 = z % 2 ^ 64 := (convertInt_span (x := z) (t := .long) (by decide)).2
  have hp : p = wordOf .long u := by
    show _ = (u % 2 ^ 64).toNat
    omega
  have hq : q = wordOf .long v := by
    show _ = (v % 2 ^ 64).toNat
    omega
  have signedP := signedBits_long inU smallP wordP
  have signedQ := signedBits_long inV smallQ wordQ
  change -9223372036854775808 ≤ u ∧ u < -9223372036854775808 + 18446744073709551616 at inU
  change -9223372036854775808 ≤ v ∧ v < -9223372036854775808 + 18446744073709551616 at inV
  cases op with
  | sub =>
    show (((p + (2 ^ 64 - q)) % 2 ^ 64 : Nat) : Int) % 2 ^ 64 = convertInt (u - v) .long % 2 ^ 64
    rw [conv]
    omega
  | and =>
    show ((p &&& q : Nat) : Int) % 2 ^ 64 = convertInt _ .long % 2 ^ 64
    rw [conv, hp, hq]
  | or =>
    show ((p ||| q : Nat) : Int) % 2 ^ 64 = convertInt _ .long % 2 ^ 64
    rw [conv, hp, hq]
  | xor =>
    show ((p ^^^ q : Nat) : Int) % 2 ^ 64 = convertInt _ .long % 2 ^ 64
    rw [conv, hp, hq]
  | shl =>
    show ((p * 2 ^ (q % 64) % 2 ^ 64 : Nat) : Int) % 2 ^ 64 = convertInt (u * 2 ^ (v % 64).toNat) .long % 2 ^ 64
    have count : (v % 64).toNat = q % 64 := by omega
    rw [conv, count]
    exact shift_word (n := 2 ^ 64) wordP _
  | eq => exact decide_word (u = v) (by omega)
  | ne => exact decide_word_not (u ≠ v) (by omega)
  | lt => exact decide_word (u < v) (by rw [signedP, signedQ])
  | le => exact decide_word (u ≤ v) (by rw [signedP, signedQ])

theorem apply_word (op : BinOp) (plain : Plain c) (inU : InRange c u) (inV : InRange c v) (smallP : p < 2 ^ 64) (smallQ : q < 2 ^ 64)
    (wordP : (p : Int) % wordSpan c = u % wordSpan c) (wordQ : (q : Int) % wordSpan c = v % wordSpan c) :
    (onBits (op.ir (sign c) (typeClass c)).2 (op.ir (sign c) (typeClass c)).1 [p, q] : Int) %
      wordSpan (if op.compares then .int else c) = op.apply c u v % wordSpan (if op.compares then .int else c) := by
  rcases plain with rfl | rfl
  · rw [ite_self]
    exact apply_int op inU inV wordP wordQ
  · exact apply_long op inU inV smallP smallQ wordP wordQ

theorem apply_value (op : BinOp) : convertInt (op.apply c u v) (if op.compares then .int else c) = op.apply c u v := by
  have value (b : Bool) : convertInt b.toInt .int = b.toInt := by cases b <;> rfl
  cases op with
  | sub | and | or | xor | shl => exact convertInt_fixed
  | eq | ne | lt | le => exact value _

/-! ### Numbers of truth values -/

@[simp] theorem bit_and (p q : Bool) : BinOp.and.apply .int p.toInt q.toInt = (p && q).toInt := by cases p <;> cases q <;> rfl

@[simp] theorem bit_or (p q : Bool) : BinOp.or.apply .int p.toInt q.toInt = (p || q).toInt := by cases p <;> cases q <;> rfl

@[simp] theorem bit_xor (p q : Bool) : BinOp.xor.apply .int p.toInt q.toInt = (p ^^ q).toInt := by cases p <;> cases q <;> rfl

theorem wordOf_convert (plain : Plain c) (small : (p : Int) < span c) : wordOf c (convertInt p c) = p := by
  unfold wordOf
  rw [(convertInt_span plain.other).2, Int.emod_eq_of_lt (by omega) small, Int.toNat_natCast]

theorem convert_wordOf (plain : Plain c) (value : convertInt x c = x) : convertInt (wordOf c x) c = x := by
  obtain ⟨inside, same⟩ := convertInt_span (x := wordOf c x) plain.other
  have inX := value_inRange value
  generalize convertInt (wordOf c x) c = y at inside same
  rcases plain with rfl | rfl
  · change y % 2 ^ 32 = ((x % 2 ^ 32).toNat : Int) % 2 ^ 32 at same
    change -2147483648 ≤ x ∧ x < -2147483648 + 4294967296 at inX
    change -2147483648 ≤ y ∧ y < -2147483648 + 4294967296 at inside
    omega
  · change y % 2 ^ 64 = ((x % 2 ^ 64).toNat : Int) % 2 ^ 64 at same
    change -9223372036854775808 ≤ x ∧ x < -9223372036854775808 + 18446744073709551616 at inX
    change -9223372036854775808 ≤ y ∧ y < -9223372036854775808 + 18446744073709551616 at inside
    omega

/-- The mask of ones keeps the difference, and that of zeros drops it. -/
theorem select_apply (plain : Plain t) (b : Bool) (valueX : convertInt x t = x) (valueY : convertInt y t = y) :
    BinOp.xor.apply t y (BinOp.and.apply t (BinOp.xor.apply t x y) (convertInt (BinOp.sub.apply .int 0 b.toInt) t)) =
      if b then x else y := by
  obtain ⟨n, width, full⟩ : ∃ n, span t = (2 ^ n : Nat) ∧ wordOf t (convertInt (BinOp.sub.apply .int 0 true.toInt) t) = 2 ^ n - 1 := by
    rcases plain with rfl | rfl
    · exact ⟨32, rfl, rfl⟩
    · exact ⟨64, rfl, rfl⟩
  have bound (z : Int) : wordOf t z < 2 ^ n := by
    have := Int.emod_lt_of_pos z (b := (2 ^ n : Nat)) (by positivity)
    have := Int.emod_nonneg z (b := (2 ^ n : Nat)) (by positivity)
    unfold wordOf
    rw [width]
    omega
  cases b with
  | false =>
    have zero : wordOf t (convertInt (BinOp.sub.apply .int 0 false.toInt) t) = 0 := by rcases plain with rfl | rfl <;> rfl
    have none : wordOf t (convertInt (0 : Nat) t) = 0 := by rcases plain with rfl | rfl <;> rfl
    simp only [BinOp.apply] at zero ⊢
    rw [zero, Nat.and_zero, none, Nat.xor_zero]
    exact convert_wordOf plain valueY
  | true =>
    have less := Nat.xor_lt_two_pow (bound x) (bound y)
    have kept {m : Nat} (small : m < 2 ^ n) : wordOf t (convertInt m t) = m := wordOf_convert plain (by rw [width]; exact_mod_cast small)
    simp only [BinOp.apply] at full ⊢
    rw [full, kept less, Nat.and_two_pow_sub_one_eq_mod, Nat.mod_eq_of_lt less, kept less, Nat.xor_comm (wordOf t x), ← Nat.xor_assoc,
      Nat.xor_self, Nat.zero_xor]
    exact convert_wordOf plain valueX

end

/-! ### Numbers known of values -/

/-- A value and the number it stands for. -/
abbrev Fact := Lowered × Int

/-- A constant's number is known without a fact. -/
def Knows (known : List Fact) (a : Lowered) (x : Int) : Prop := (a, x) ∈ known ∨ a.v = .const x ∧ convertInt x a.type = x

/-- The code is straight, keeps what is known of values and adds to it. -/
def Yields {α : Type} (known : List Fact) (m : Emitting α) (Q : List Fact → α → Prop) : Prop :=
  ∀ s, ∃ more, known ⊆ more ∧ Q more (m s).1 ∧ ∀ inputs s0 is, Straight inputs s0 is s → (∀ p ∈ known, Avail inputs is p.1.v) →
    ∃ js, Straight inputs s0 (is ++ js) (m s).2 ∧ (∀ p ∈ more, Avail inputs (is ++ js) p.1.v) ∧
      ∀ env, Solves env (is ++ js) → (∀ p ∈ known, Represents env p.1 p.2) → ∀ p ∈ more, Represents env p.1 p.2

/-- A result whose number is known. -/
def Is (x : Int) (t : IntType) (known : List Fact) (a : Lowered) : Prop := Knows known a x ∧ a.type = t

section
variable {α β : Type} {known more : List Fact} {m : Emitting α} {f : α → Emitting β} {Q R : List Fact → α → Prop}
  {S : List Fact → β → Prop} {a b : Lowered} {x y : Int} {c t : IntType} {env : Env}

theorem Knows.mono (knows : Knows known a x) (sub : known ⊆ more) : Knows more a x := knows.imp_left (@sub _)

theorem Is.mono (is : Is x t known a) (sub : known ⊆ more) : Is x t more a := ⟨is.1.mono sub, is.2⟩

theorem Knows.usable (knows : Knows known a x) : Usable (known.map (·.1.v)) a.v := by
  rcases knows with mem | ⟨const, -⟩
  · exact .inr (mem_map_of_mem (f := (·.1.v)) mem)
  · exact .inl ⟨x, const⟩

theorem Knows.represents (knows : Knows known a x) (given : ∀ p ∈ known, Represents env p.1 p.2) : Represents env a x := by
  rcases knows with mem | ⟨const, value⟩
  · exact given _ mem
  · refine ⟨value, ?_, fun n eq => ?_⟩
    · rw [const]
      exact word_const
    · rw [const] at eq
      cases eq
      rfl

theorem Yields.pure {r : α} (holds : Q known r) : Yields known (pure r) Q := by
  refine fun s => ⟨known, List.Subset.refl _, holds, fun inputs s0 is straight avail => ⟨[], ?_, ?_, fun env _ given => given⟩⟩
  · rwa [append_nil]
  · rwa [append_nil]

theorem Yields.bind (first : Yields known m Q) (next : ∀ more r, known ⊆ more → Q more r → Yields more (f r) S) :
    Yields known (m >>= f) S := by
  intro s
  obtain ⟨more, sub, holds, code⟩ := first s
  obtain ⟨most, sub1, holds1, code1⟩ := next more _ sub holds (m s).2
  refine ⟨most, List.Subset.trans sub sub1, holds1, fun inputs s0 is straight avail => ?_⟩
  obtain ⟨js, straight, avail, solved⟩ := code inputs s0 is straight avail
  obtain ⟨ks, straight1, avail1, solved1⟩ := code1 inputs s0 (is ++ js) straight avail
  refine ⟨js ++ ks, ?_, ?_, fun env solves given => ?_⟩
  · rw [← append_assoc]
    exact straight1
  · rw [← append_assoc]
    exact avail1
  · rw [← append_assoc] at solves
    exact solved1 env solves (solved env solves.prefix given)

theorem Yields.weaken (yields : Yields known m Q) (weaker : ∀ more r, known ⊆ more → Q more r → R more r) : Yields known m R := by
  intro s
  obtain ⟨more, sub, holds, code⟩ := yields s
  exact ⟨more, sub, weaker more _ sub holds, code⟩

/-- One more number is known. -/
theorem Gives.yields {m : Emitting Lowered} (gives : Gives (known.map (·.1.v)) m (fun r => [r.v]) fun env r =>
      (∀ p ∈ known, Represents env p.1 p.2) → Represents env r y) (typed : ∀ s, (m s).1.type = t) : Yields known m (Is y t) := by
  intro s
  refine ⟨((m s).1, y) :: known, subset_cons_self _ _, ⟨.inl mem_cons_self, typed s⟩, fun inputs s0 is straight avail => ?_⟩
  have values : ∀ v ∈ known.map (·.1.v), Avail inputs is v := by
    intro v mem
    obtain ⟨p, there, rfl⟩ := mem_map.1 mem
    exact avail p there
  obtain ⟨js, straight, avail1, holds⟩ := gives inputs s0 is s straight values
  refine ⟨js, straight, fun p mem => ?_, fun env solves given p mem => ?_⟩
  · rcases mem_cons.1 mem with rfl | before
    · exact avail1 _ mem_cons_self
    · exact (avail p before).append js
  · rcases mem_cons.1 mem with rfl | before
    · exact holds env solves given
    · exact given p before

theorem convert_type (s : Emit) : (convert a t s).1.type = t := by
  unfold convert
  split_ifs with same isBool narrow
  · exact same
  · exact isBool.symm
  · exact isBool.symm
  · obtain ⟨v, src⟩ := a
    cases v <;> rfl

theorem yields_convert (knows : Knows known a x) (t : IntType) : Yields known (convert a t) (Is (convertInt x t) t) :=
  ((gives_convert knows.usable).weaken fun _ _ ⟨_, out⟩ given => out x (knows.represents given)).yields convert_type

theorem yields_binary (op : BinOp) (types : operandTypes op a.type b.type = (c, c, if op.compares then .int else c)) (plain : Plain c)
    (knowsA : Knows known a x) (knowsB : Knows known b y) (fitsA : convertInt x a.type = x → convertInt x c = x)
    (fitsB : convertInt y b.type = y → convertInt y c = y) :
    Yields known (binary op a b) (Is (op.apply c x y) (if op.compares then .int else c)) := by
  refine Gives.yields ?_ fun s => by rw [binary, types]; rfl
  unfold binary
  rw [types]
  refine .bind (gives_convert knowsA.usable) fun a1 => ?_
  refine .bind (gives_convert (by simp [knowsB.usable])) fun b1 => ?_
  refine .bind (Gives.fresh (.binary (by simp) (by simp) (plain.table op)) fun s => ⟨_, rfl⟩) fun v => .pure (by simp) fun env => ?_
  rintro ⟨out, fresh⟩ ⟨typeB, valueB⟩ ⟨typeA, valueA⟩ given
  have isA := knowsA.represents given
  have isB := knowsB.represents given
  have wordA := valueA x isA
  have wordB := valueB y isB
  have fitA := fitsA isA.value
  have fitB := fitsB isB.value
  rw [fitA] at wordA
  rw [fitB] at wordB
  have fullA := wordA.word
  have fullB := wordB.word
  rw [typeA] at fullA
  rw [typeB] at fullB
  refine ⟨apply_value op, ?_, fun n const => absurd const (fresh n)⟩
  show (bits env v : Int) % _ = _
  rw [out]
  exact apply_word op plain (value_inRange fitA) (value_inRange fitB) (bits_lt _ _) (bits_lt _ _) fullA fullB

/-- Promoted to int. -/
def Small (t : IntType) : Prop := integerPromotion t = .int

instance (t : IntType) : Decidable (Small t) := inferInstanceAs (Decidable (_ = _))

theorem small_value (small : Small t) (value : convertInt x t = x) : convertInt x .int = x := by
  by_cases same : t = .int
  · rwa [← same]
  · have fits : representable (size t) (sign t) (size .int) (sign .int) = true := by
      cases t <;> first
      | rfl
      | exact absurd rfl same
      | exact absurd small (by decide)
    exact convertInt_self (by decide) (representable_inRange fits (value_inRange value))

theorem small_types (op : BinOp) (smallA : Small a.type) (smallB : Small b.type) :
    operandTypes op a.type b.type = (.int, .int, if op.compares then .int else .int) := by
  have usual : usualConversion a.type b.type = .int := by
    unfold usualConversion
    rw [smallA, smallB]
    rfl
  unfold operandTypes
  rw [usual, smallA, smallB]
  split_ifs <;> rfl

/-- An operator on values that are promoted to int. -/
theorem yields_small (op : BinOp) (knowsA : Knows known a x) (knowsB : Knows known b y) (smallA : Small a.type) (smallB : Small b.type) :
    Yields known (binary op a b) (Is (op.apply .int x y) .int) := by
  have gives := yields_binary op (small_types op smallA smallB) (.inl rfl) knowsA knowsB (small_value smallA) (small_value smallB)
  rwa [ite_self] at gives

/-- An operator on two ints. -/
theorem yields_int (op : BinOp) (isA : Is x .int known a) (isB : Is y .int known b) :
    Yields known (binary op a b) (Is (op.apply .int x y) .int) :=
  yields_small op isA.1 isB.1 (by rw [isA.2]; rfl) (by rw [isB.2]; rfl)

theorem is_const (n : Int) (t : IntType) (value : convertInt n t = n) : Is n t known ⟨.const n, t⟩ := ⟨.inr ⟨rfl, value⟩, rfl⟩

theorem is_bit (b : Bool) : Is b.toInt .int known (k b.toInt) := is_const _ _ (by cases b <;> rfl)

theorem plain_types (op : BinOp) (shift : op ≠ .shl) (isA : a.type = t) (isB : b.type = t) (plain : Plain t) :
    operandTypes op a.type b.type = (t, t, if op.compares then .int else t) := by
  rw [isA, isB]
  unfold operandTypes
  rw [if_neg shift]
  rcases plain with rfl | rfl <;> rfl

theorem yields_isel {p : Bool} {cond : Lowered} (plain : Plain t) (isC : Is p.toInt .int known cond) (knowsA : Knows known a x)
    (knowsB : Knows known b y) (valueA : convertInt x t = x) (valueB : convertInt y t = y) :
    Yields known (isel cond a b t) (Is (if p then x else y) t) := by
  unfold isel
  refine .bind (yields_convert knowsA t) fun _ a1 sub1 isA1 => ?_
  refine .bind (yields_convert (knowsB.mono sub1) t) fun _ b1 sub2 isB1 => ?_
  rw [valueA] at isA1
  rw [valueB] at isB1
  replace isA1 := isA1.mono sub2
  refine .bind (yields_int .sub (is_const 0 .int rfl) ((isC.mono sub1).mono sub2)) fun _ m0 sub3 isM0 => ?_
  refine .bind (yields_convert isM0.1 t) fun _ m sub4 isM => ?_
  replace isA1 := (isA1.mono sub3).mono sub4
  replace isB1 := (isB1.mono sub3).mono sub4
  have plainly {u v : Lowered} (isU : u.type = t) (isV : v.type = t) (op : BinOp) (shift : op ≠ .shl) := plain_types op shift isU isV plain
  refine .bind (yields_binary .xor (plainly isA1.2 isB1.2 .xor (by decide)) plain isA1.1 isB1.1 (fun h => isA1.2 ▸ h) fun h => isB1.2 ▸ h)
    fun _ d sub5 isD => ?_
  replace isD : Is _ t _ d := isD
  replace isM := isM.mono sub5
  replace isB1 := isB1.mono sub5
  refine .bind (yields_binary .and (plainly isD.2 isM.2 .and (by decide)) plain isD.1 isM.1 (fun h => isD.2 ▸ h) fun h => isM.2 ▸ h)
    fun _ d1 sub6 isD1 => ?_
  replace isD1 : Is _ t _ d1 := isD1
  replace isB1 := isB1.mono sub6
  refine .bind (yields_binary .xor (plainly isB1.2 isD1.2 .xor (by decide)) plain isB1.1 isD1.1 (fun h => isB1.2 ▸ h) fun h => isD1.2 ▸ h)
    fun _ r0 sub7 isR0 => ?_
  refine (yields_convert isR0.1 t).weaken fun more r _ isR => ?_
  rw [select_apply plain p valueA valueB] at isR
  rwa [show convertInt (if p then x else y) t = if p then x else y by split_ifs <;> assumption] at isR

/-! ### Lists of values -/

def nth0 (j : Nat) (ls : List Lowered) : Lowered := ls.getD j (k 0)

/-- The numbers of a list's values, all of one type. -/
structure Listed (x : Nat → Int) (n : Nat) (t : IntType) (known : List Fact) (ls : List Lowered) : Prop where
  length : ls.length = n
  is : ∀ j < n, Is (x j) t known (nth0 j ls)

theorem Listed.mono {u : Nat → Int} {n : Nat} {ls : List Lowered} (listed : Listed u n t known ls) (sub : known ⊆ more) :
    Listed u n t more ls :=
  ⟨listed.length, fun j less => (listed.is j less).mono sub⟩

theorem Listed.cons {u : Nat → Int} {n : Nat} {ls : List Lowered} (first : Is (u 0) t known a) (rest : Listed (fun j => u (j + 1)) n t known ls) :
    Listed u (n + 1) t known (a :: ls) := by
  refine ⟨congrArg (· + 1) rest.length, fun j less => ?_⟩
  cases j with
  | zero => exact first
  | succ j => exact rest.is j (by omega)

theorem Listed.get {u : Nat → Int} {n j : Nat} {ls : List Lowered} (listed : Listed u n t known ls) (there : ls[j]? = some a) :
    j < n ∧ Is (u j) t known a := by
  obtain ⟨less, -⟩ := List.getElem?_eq_some_iff.1 there
  have same : nth0 j ls = a := by rw [nth0, getD_eq_getElem?_getD, there]; rfl
  rw [listed.length] at less
  exact ⟨less, same ▸ listed.is j less⟩

/-- A list's values one by one. -/
theorem yields_each {f : α → Emitting Lowered} {u : Nat → Int} {n : Nat} (as : List α) (length : as.length = n)
    (one : ∀ j a, as[j]? = some a → ∀ more, known ⊆ more → Yields more (f a) (Is (u j) t)) :
    Yields known (each f as) (Listed u n t) := by
  induction as generalizing known u n with
  | nil =>
    subst length
    exact .pure ⟨rfl, fun j less => absurd less (Nat.not_lt_zero j)⟩
  | cons a as ih =>
    subst length
    refine .bind (one 0 a rfl known (List.Subset.refl _)) fun more r sub isR => ?_
    refine .bind (ih rfl fun j b there most sub1 => one (j + 1) b there most (List.Subset.trans sub sub1)) fun most rs sub1 listed => ?_
    exact .pure (.cons (isR.mono sub1) listed)

/-- A value carried through a list. -/
theorem yields_fold {f : Lowered → α → Emitting Lowered} {z : Nat → Int} {n : Nat} {acc : Lowered} (as : List α) (length : as.length = n)
    (start : Is (z 0) t known acc) (one : ∀ j a, as[j]? = some a → ∀ more acc, known ⊆ more → Is (z j) t more acc →
      Yields more (f acc a) (Is (z (j + 1)) t)) : Yields known (as.foldlM f acc) (Is (z n) t) := by
  induction as generalizing known acc z n with
  | nil =>
    subst length
    exact .pure start
  | cons a as ih =>
    subst length
    refine .bind (one 0 a rfl known acc (List.Subset.refl _) start) fun more r sub isR => ?_
    exact ih (z := fun j => z (j + 1)) rfl isR fun j b there most acc sub1 => one (j + 1) b there most acc (List.Subset.trans sub sub1)

theorem Listed.tail {u : Nat → Int} {n : Nat} {ls : List Lowered} (listed : Listed u (n + 1) t known (a :: ls)) :
    Is (u 0) t known a ∧ Listed (fun j => u (j + 1)) n t known ls :=
  ⟨listed.is 0 (Nat.succ_pos n), Nat.succ_injective listed.length, fun j less => listed.is (j + 1) (Nat.succ_lt_succ less)⟩

end

end Nanofil.Arithmetic
