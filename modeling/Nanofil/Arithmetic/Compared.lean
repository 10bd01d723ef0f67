import Nanofil.Arithmetic.Pcmpstr
import Nanofil.Arithmetic.Processor

/-! The lowered string compares give what the processor's definition says. -/
namespace Nanofil.Arithmetic
open List Option
open Switching (IntType Emit size sign typeClass convertInt InRange Computes Kept)
open Processor (Compare)

/-! ### Loops over elements -/

variable {j : Nat}

section
variable {known more : List Fact} {a b l : Lowered} {as bs vs ls : List Lowered} {u w : Nat → Int} {p q : Nat → Bool} {n m : Nat}
  {t t1 : IntType} {x y : Int}

theorem Is.small (is : Is x .int known a) : Small a.type := by rw [is.2]; rfl

/-- Before the first zero. -/
theorem yields_nonzero (small : Small t) (listed : Listed u n t known ls) {P : Bool} {acc : Lowered} (isP : Is P.toInt .int known acc) :
    Yields known (pcmpNonzero ls acc) (Listed (fun j => (P && (List.range (j + 1)).all fun i => u i ≠ 0).toInt) n .int) := by
  induction ls generalizing known u n P acc with
  | nil =>
    obtain ⟨rfl, -⟩ := listed
    exact .pure ⟨rfl, fun j less => absurd less (Nat.not_lt_zero j)⟩
  | cons l ls ih =>
    obtain ⟨rfl, -⟩ := id listed
    obtain ⟨first, rest⟩ := listed.tail
    refine .bind (yields_small .ne first.1 (is_const 0 .int rfl).1 (first.2 ▸ small) rfl) fun _ nz sub isNz => ?_
    refine .bind (yields_int .and (isP.mono sub) isNz) fun more v sub1 isV => ?_
    replace isV : Is (P && decide (u 0 ≠ 0)).toInt .int more v := by
      rw [show BinOp.ne.apply .int (u 0) 0 = (decide (u 0 ≠ 0)).toInt from rfl, bit_and] at isV
      exact isV
    refine .bind (ih ((rest.mono sub).mono sub1) isV) fun _ vs sub2 isVs => .pure ?_
    refine .cons (u := fun j => (P && (List.range (j + 1)).all fun i => u i ≠ 0).toInt) ?_ ⟨isVs.length, fun j less => ?_⟩
    · simpa using isV.mono sub2
    · have is := isVs.is j less
      rw [Bool.and_assoc] at is
      rw [range_succ_eq_map, all_cons, List.all_map]
      exact is

theorem range_get {i : Nat} (there : (List.range n)[j]? = some i) : j < n ∧ i = j := by
  obtain ⟨less, same⟩ := List.getElem?_eq_some_iff.1 there
  rw [getElem_range] at same
  rw [length_range] at less
  exact ⟨less, same.symm⟩

theorem long_value (low : -2 ^ 63 ≤ x) (high : x < 2 ^ 63) : convertInt x .long = x :=
  convertInt_self (by decide) ⟨low, by show x < -9223372036854775808 + 18446744073709551616; omega⟩

theorem int_value (low : -2 ^ 31 ≤ x) (high : x < 2 ^ 31) : convertInt x .int = x :=
  convertInt_self (by decide) ⟨low, by show x < -2147483648 + 4294967296; omega⟩

/-- A validity test for each element below the length. -/
theorem yields_below (isL : Is x .long known l) (small : n ≤ 16) :
    Yields known (pcmpBelow l (List.range n)) (Listed (fun j => (decide ((j : Int) < x)).toInt) n .int) := by
  refine yields_each _ length_range fun j i there more sub => ?_
  obtain ⟨less, rfl⟩ := range_get there
  have isJ : Is (i : Int) .long more ⟨.const i, .long⟩ := is_const _ _ (long_value (by omega) (by omega))
  exact yields_binary .lt (c := .long) (plain_types .lt (by decide) rfl (isL.mono sub).2 (.inr rfl)) (.inr rfl) isJ.1 (isL.mono sub).1 id
    fun value => by rwa [isL.2] at value

/-- The absolute value of an int length. -/
theorem yields_explicit (isL : Is x .int known l) (low : -2 ^ 31 ≤ x) (high : x < 2 ^ 31) (length : ls.length = n) (small : n ≤ 16) :
    Yields known (pcmpValid ls (some l)) (Listed (fun j => (decide (j < x.natAbs)).toInt) n .int) := by
  have zero {known : List Fact} : Is 0 .long known ⟨.const 0, .long⟩ := is_const _ _ rfl
  have value := long_value (x := x) (by omega) (by omega)
  have value' := long_value (x := 0 - x) (by omega) (by omega)
  refine .bind (yields_convert isL.1 .long) fun _ l1 sub1 isL1 => ?_
  rw [value] at isL1
  refine .bind (yields_binary .lt (c := .long) (plain_types .lt (by decide) isL1.2 rfl (.inr rfl)) (.inr rfl) isL1.1 zero.1
    (fun _ => value) id) fun _ neg sub2 isNeg => ?_
  replace isL1 := isL1.mono sub2
  refine .bind (yields_binary .sub (c := .long) (plain_types .sub (by decide) rfl isL1.2 (.inr rfl)) (.inr rfl) zero.1 isL1.1
    id fun _ => value) fun more negL sub3 isNegL => ?_
  replace isNegL : Is (0 - x) .long more negL := by
    rw [show BinOp.sub.apply .long 0 x = convertInt (0 - x) .long from rfl, value'] at isNegL
    exact isNegL
  refine .bind (yields_isel (.inr rfl) (p := decide (x < 0)) (isNeg.mono sub3) isNegL.1 (isL1.mono sub3).1 value' value) fun _ abs sub4 isAbs => ?_
  rw [length]
  refine (yields_below isAbs small).weaken fun more vs _ listed => ⟨listed.length, fun j less => ?_⟩
  have is := listed.is j less
  rwa [show decide ((j : Int) < if decide (x < 0) then 0 - x else x) = decide (j < x.natAbs) from decide_eq_decide.2 (by
    simp only [decide_eq_true_eq]
    split_ifs <;> omega)] at is

theorem zip_get {r : Lowered × Lowered} (listedA : Listed u n t known as) (listedB : Listed w n t1 known vs)
    (there : (as.zip vs)[j]? = some r) : j < n ∧ Is (u j) t known r.1 ∧ Is (w j) t1 known r.2 := by
  obtain ⟨thereA, thereB⟩ := getElem?_zip_eq_some.1 there
  exact ⟨(listedA.get thereA).1, (listedA.get thereA).2, (listedB.get thereB).2⟩

theorem zip_length (listedA : Listed u n t known as) (listedB : Listed w n t1 known vs) : (as.zip vs).length = n := by
  rw [length_zip, listedA.length, listedB.length, Nat.min_self]

theorem yields_masked (listed : Listed u n t known as) (valid : Listed (fun j => (p j).toInt) n .int known vs)
    (values : ∀ j < n, convertInt (u j) .int = u j) :
    Yields known (pcmpMasked as vs) (Listed (fun j => if p j then u j else 65536) n .int) := by
  refine yields_each _ (zip_length listed valid) fun j r there more sub => ?_
  obtain ⟨less, isA, isV⟩ := zip_get listed valid there
  exact yields_isel (.inl rfl) (isV.mono sub) (isA.mono sub).1 (is_const 65536 .int rfl).1 (values j less) rfl

/-- The bounds of ranges, with the lower bound out of reach where one of the two is invalid. -/
def ranges (u : Nat → Int) (p : Nat → Bool) (i : Nat) : Int :=
  if i % 2 = 0 then (if p i && p (i + 1) then u i else 65536) else u i

theorem yields_maskedRanges (listed : Listed u (2 * n) t known as) (valid : Listed (fun j => (p j).toInt) (2 * n) .int known vs)
    (values : ∀ j < 2 * n, convertInt (u j) .int = u j) :
    Yields known (pcmpMaskedRanges as vs) (Listed (ranges u p) (2 * n) .int) := by
  induction n generalizing known as vs u p with
  | zero =>
    have none := eq_nil_of_length_eq_zero listed.length
    subst none
    exact .pure ⟨rfl, fun j less => absurd less (Nat.not_lt_zero j)⟩
  | succ n ih =>
    obtain ⟨lo, as, rfl⟩ := exists_cons_of_length_pos (by rw [listed.length]; omega : 0 < as.length)
    obtain ⟨vLo, vs, rfl⟩ := exists_cons_of_length_pos (by rw [valid.length]; omega : 0 < vs.length)
    obtain ⟨isLo, listed⟩ := listed.tail (n := 2 * n + 1)
    obtain ⟨isVLo, valid⟩ := valid.tail (n := 2 * n + 1)
    obtain ⟨hi, as, rfl⟩ := exists_cons_of_length_pos (by rw [listed.length]; omega : 0 < as.length)
    obtain ⟨vHi, vs, rfl⟩ := exists_cons_of_length_pos (by rw [valid.length]; omega : 0 < vs.length)
    obtain ⟨isHi, listed⟩ := listed.tail
    obtain ⟨isVHi, valid⟩ := valid.tail
    refine .bind (yields_int .and isVLo isVHi) fun _ v sub1 isV => ?_
    rw [bit_and] at isV
    refine .bind (yields_isel (.inl rfl) isV (isLo.mono sub1).1 (is_const 65536 .int rfl).1 (values 0 (by omega)) rfl) fun _ lo1 sub2 isLo1 => ?_
    refine .bind (yields_convert ((isHi.mono sub1).mono sub2).1 .int) fun _ hi1 sub3 isHi1 => ?_
    rw [values 1 (by omega)] at isHi1
    refine .bind (ih (((listed.mono sub1).mono sub2).mono sub3) (((valid.mono sub1).mono sub2).mono sub3) fun j less => values (j + 2) (by omega))
      fun _ ys sub4 isYs => .pure ?_
    refine .cons (u := ranges u p) ((isLo1.mono sub3).mono sub4) (.cons (u := fun j => ranges u p (j + 1)) (isHi1.mono sub4) ⟨isYs.length, fun j less => ?_⟩)
    have is := isYs.is j less
    unfold ranges at is ⊢
    rwa [show (j + 1 + 1) % 2 = j % 2 by omega]

theorem any_next {f : Nat → Bool} : (List.range (j + 1)).any f = ((List.range j).any f || f j) := by
  rw [range_succ, any_append, any_cons, any_nil, Bool.or_false]

theorem all_next {f : Nat → Bool} : (List.range (j + 1)).all f = ((List.range j).all f && f j) := by
  rw [range_succ, all_append, all_cons, all_nil, Bool.and_true]

theorem yields_any (listed : Listed u n .int known as) (knowsB : Is y t known b) (small : Small t) :
    Yields known (pcmpAny as b (k 0)) (Is ((List.range n).any fun i => decide (u i = y)).toInt .int) := by
  refine yields_fold (z := fun j => ((List.range j).any fun i => decide (u i = y)).toInt) as listed.length (is_bit false)
    fun j a there more acc sub isAcc => ?_
  obtain ⟨-, isA⟩ := listed.get there
  refine .bind (yields_small .eq (isA.mono sub).1 (knowsB.mono sub).1 isA.small (knowsB.2 ▸ small)) fun _ e sub1 isE => ?_
  refine (yields_int .or (isAcc.mono sub1) isE).weaken fun _ r _ isR => ?_
  rw [show BinOp.eq.apply .int (u j) y = (decide (u j = y)).toInt from rfl, bit_or] at isR
  rwa [any_next]

theorem yields_ranges (listed : Listed u (2 * n) .int known as) (knowsB : Is y t known b) (small : Small t) {P : Bool} {acc : Lowered}
    (isP : Is P.toInt .int known acc) : Yields known (pcmpRanges as b acc)
      (Is (P || (List.range n).any fun i => decide (u (2 * i) ≤ y) && decide (y ≤ u (2 * i + 1))).toInt .int) := by
  induction n generalizing known as u P acc with
  | zero =>
    have none := eq_nil_of_length_eq_zero listed.length
    subst none
    refine .pure ?_
    rw [range_zero, any_nil, Bool.or_false]
    exact isP
  | succ n ih =>
    obtain ⟨lo, as, rfl⟩ := exists_cons_of_length_pos (by rw [listed.length]; omega : 0 < as.length)
    obtain ⟨isLo, listed⟩ := listed.tail (n := 2 * n + 1)
    obtain ⟨hi, as, rfl⟩ := exists_cons_of_length_pos (by rw [listed.length]; omega : 0 < as.length)
    obtain ⟨isHi, listed⟩ := listed.tail
    have smallB : Small b.type := knowsB.2 ▸ small
    refine .bind (yields_small .le isLo.1 knowsB.1 isLo.small smallB) fun _ c1 sub1 isC1 => ?_
    replace knowsB := knowsB.mono sub1
    refine .bind (yields_small .le knowsB.1 (isHi.mono sub1).1 smallB isHi.small) fun _ c2 sub2 isC2 => ?_
    refine .bind (yields_int .and (isC1.mono sub2) isC2) fun _ c sub3 isC => ?_
    rw [show BinOp.le.apply .int (u 0) y = (decide (u 0 ≤ y)).toInt from rfl,
      show BinOp.le.apply .int y (u (0 + 1)) = (decide (y ≤ u 1)).toInt from rfl, bit_and] at isC
    refine .bind (yields_int .or (((isP.mono sub1).mono sub2).mono sub3) isC) fun _ acc1 sub4 isAcc => ?_
    rw [bit_or] at isAcc
    refine (ih (((((listed.mono sub1).mono sub2).mono sub3).mono sub4)) (((knowsB.mono sub2).mono sub3).mono sub4) isAcc).weaken
      fun _ r _ isR => ?_
    rw [range_succ_eq_map, any_cons, List.any_map, ← Bool.or_assoc]
    exact isR

theorem yields_nots (valid : Listed (fun j => (p j).toInt) n .int known vs) :
    Yields known (pcmpNots vs) (Listed (fun j => (!p j).toInt) n .int) := by
  refine yields_each _ valid.length fun j v there more sub => ?_
  obtain ⟨-, isV⟩ := valid.get there
  refine (yields_int .xor (isV.mono sub) (is_bit true)).weaken fun _ r _ isR => ?_
  rwa [bit_xor, Bool.xor_true] at isR

/-- One bit of IntRes1 from the values that the aggregation gets. -/
def aggregate (agg n : Nat) (u w : Nat → Int) (p q : Nat → Bool) (j : Nat) : Bool :=
  match agg with
  | 0 => ((List.range n).any fun i => decide (u i = w j)) && q j
  | 1 => ((List.range (n / 2)).any fun i => decide (u (2 * i) ≤ w j) && decide (w j ≤ u (2 * i + 1))) && q j
  | 2 => (p j && q j && decide (u j = w j)) || !(p j || q j)
  | _ => (List.range (n - j)).all fun i => p i || decide (u i = w (j + i))

theorem yields_ordered (smallA : Small t) (smallB : Small t1) (listedA : Listed u n t known as) (listedB : Listed w n t1 known bs)
    (valid : Listed (fun j => (p j).toInt) n .int known vs) (le : m + j ≤ n) :
    Yields known (pcmpOrdered (List.range m) j as bs vs (k 1)) (Is ((List.range m).all fun i => p i || decide (u i = w (j + i))).toInt .int) := by
  refine yields_fold (z := fun m => ((List.range m).all fun i => p i || decide (u i = w (j + i))).toInt) _ length_range (is_bit true)
    fun i i1 there more acc sub isAcc => ?_
  obtain ⟨less, rfl⟩ := range_get there
  have isA := (listedA.is i1 (by omega)).mono sub
  have isB := (listedB.is (j + i1) (by omega)).mono sub
  have isV := (valid.is i1 (by omega)).mono sub
  refine .bind (yields_small .eq isA.1 isB.1 (isA.2 ▸ smallA) (isB.2 ▸ smallB)) fun _ e sub1 isE => ?_
  refine .bind (yields_int .or (isV.mono sub1) isE) fun _ t2 sub2 isT => ?_
  rw [show BinOp.eq.apply .int (u i1) (w (j + i1)) = (decide (u i1 = w (j + i1))).toInt from rfl, bit_or] at isT
  refine (yields_int .and ((isAcc.mono sub1).mono sub2) isT).weaken fun _ r _ isR => ?_
  rw [bit_and] at isR
  rwa [all_next]

theorem yields_bits (agg : Nat) (smallA : Small t) (smallB : Small t1) (listedA : Listed u n t known as) (listedB : Listed w n t1 known bs)
    (validA : Listed (fun j => (p j).toInt) n .int known vs) (validB : Listed (fun j => (q j).toInt) n .int known ls)
    (masked : agg < 2 → t = .int) (even : n % 2 = 0) :
    Yields known (pcmpBits agg as bs vs ls) (Listed (fun j => (aggregate agg n u w p q j).toInt) n .int) := by
  refine yields_each _ (by rw [length_range, listedB.length]) fun j i there more sub => ?_
  obtain ⟨less, rfl⟩ := range_get there
  rw [listedB.length] at less
  replace listedA := listedA.mono sub
  replace validA := validA.mono sub
  have isB := (listedB.is i less).mono sub
  have isQ := (validB.is i less).mono sub
  rcases agg with _ | _ | _ | agg <;> unfold pcmpBit aggregate
  · obtain rfl := masked (by omega)
    refine .bind (yields_any listedA isB smallB) fun _ any sub1 isAny => ?_
    refine (yields_int .and isAny (isQ.mono sub1)).weaken fun _ r _ isR => ?_
    rwa [bit_and] at isR
  · obtain rfl := masked (by omega)
    obtain ⟨m, rfl⟩ : ∃ m, n = 2 * m := ⟨n / 2, by omega⟩
    refine .bind (yields_ranges listedA isB smallB (is_bit false)) fun _ any sub1 isAny => ?_
    refine (yields_int .and isAny (isQ.mono sub1)).weaken fun _ r _ isR => ?_
    rw [bit_and, Bool.false_or] at isR
    rwa [Nat.mul_div_cancel_left m (by decide)]
  · have isA := listedA.is i less
    have isP := validA.is i less
    refine .bind (yields_small .eq isA.1 isB.1 (isA.2 ▸ smallA) (isB.2 ▸ smallB)) fun _ e sub1 isE => ?_
    refine .bind (yields_int .and (isP.mono sub1) (isQ.mono sub1)) fun _ both sub2 isBoth => ?_
    rw [bit_and] at isBoth
    refine .bind (yields_int .and isBoth (isE.mono sub2)) fun _ t2 sub3 isT => ?_
    rw [show BinOp.eq.apply .int (u i) (w i) = (decide (u i = w i)).toInt from rfl, bit_and] at isT
    refine .bind (yields_int .or (((isP.mono sub1).mono sub2).mono sub3) (((isQ.mono sub1).mono sub2).mono sub3)) fun _ either sub4 isEither => ?_
    rw [bit_or] at isEither
    refine .bind (yields_int .xor isEither (is_bit true)) fun _ neither sub5 isNeither => ?_
    rw [bit_xor, Bool.xor_true] at isNeither
    refine (yields_int .or ((isT.mono sub4).mono sub5) isNeither).weaken fun _ r _ isR => ?_
    rwa [bit_or] at isR
  · rw [listedA.length]
    exact yields_ordered (m := n - i) (j := i) smallA smallB listedA (listedB.mono sub) validA (by omega)

/-- The values that an aggregation compares. -/
def aggregated (agg n : Nat) (u w : Nat → Int) (p q : Nat → Bool) : Nat → Bool :=
  match agg with
  | 0 => aggregate 0 n (fun i => if p i then u i else 65536) w p q
  | 1 => aggregate 1 n (ranges u p) w p q
  | 3 => aggregate 3 n u (fun j => if q j then w j else 65536) (fun i => !p i) q
  | agg => aggregate agg n u w p q

theorem yields_aggregated (agg : Nat) (small : Small t) (listedA : Listed u n t known as) (listedB : Listed w n t known bs)
    (validA : Listed (fun j => (p j).toInt) n .int known vs) (validB : Listed (fun j => (q j).toInt) n .int known ls)
    (valuesA : ∀ j < n, convertInt (u j) .int = u j) (valuesB : ∀ j < n, convertInt (w j) .int = w j) (even : n % 2 = 0) :
    Yields known (pcmpAggregated agg as bs vs ls) (Listed (fun j => (aggregated agg n u w p q j).toInt) n .int) := by
  rcases agg with _ | _ | _ | _ | agg <;> unfold pcmpAggregated aggregated
  · refine .bind (yields_masked listedA validA valuesA) fun _ as1 sub listed => ?_
    exact yields_bits 0 (show Small .int from rfl) small listed (listedB.mono sub) (validA.mono sub) (validB.mono sub) (fun _ => rfl) even
  · obtain ⟨m, rfl⟩ : ∃ m, n = 2 * m := ⟨n / 2, by omega⟩
    refine .bind (yields_maskedRanges listedA validA valuesA) fun _ as1 sub listed => ?_
    exact yields_bits 1 (show Small .int from rfl) small listed (listedB.mono sub) (validA.mono sub) (validB.mono sub) (fun _ => rfl) even
  · exact yields_bits 2 small small listedA listedB validA validB (fun less => absurd less (by omega)) even
  · refine .bind (yields_masked listedB validB valuesB) fun _ bs1 sub listed => ?_
    refine .bind (yields_nots (validA.mono sub)) fun _ nas sub1 nots => ?_
    exact yields_bits 3 small (show Small .int from rfl) ((listedA.mono sub).mono sub1) (listed.mono sub1) nots ((validB.mono sub).mono sub1)
      (fun less => absurd less (by omega)) even
  · exact yields_bits (agg + 4) small small listedA listedB validA validB (fun less => absurd less (by omega)) even

theorem yields_polarity (pol : Nat) (less : pol < 4) (listed : Listed (fun j => (p j).toInt) n .int known as)
    (valid : Listed (fun j => (q j).toInt) n .int known vs) : Yields known (pcmpPolarity pol as vs)
      (Listed (fun j => (p j ^^ (decide (pol = 1) || (decide (pol = 3) && q j))).toInt) n .int) := by
  unfold pcmpPolarity
  split_ifs with even one
  · have none : decide (pol = 1) = false ∧ decide (pol = 3) = false := ⟨decide_eq_false (by omega), decide_eq_false (by omega)⟩
    simp only [none.1, none.2, Bool.false_and, Bool.or_false, Bool.xor_false]
    exact .pure listed
  · subst one
    refine yields_each _ listed.length fun j r there more sub => ?_
    obtain ⟨-, isR⟩ := listed.get there
    refine (yields_int .xor (isR.mono sub) (is_bit true)).weaken fun _ r _ isR => ?_
    rwa [bit_xor] at isR
  · obtain rfl : pol = 3 := by omega
    refine yields_each _ (zip_length listed valid) fun j r there more sub => ?_
    obtain ⟨-, isR, isV⟩ := zip_get listed valid there
    refine (yields_int .xor (isR.mono sub) (isV.mono sub)).weaken fun _ r _ isR => ?_
    rwa [bit_xor] at isR

end

/-! ### The processor's intermediate results -/

section
variable {c : Compare} {n : Nat} {known : List Fact} {as bs vs ls : List Lowered} {t : IntType}

theorem element_bounds (c : Compare) (v : BitVec 128) (j : Nat) : -32768 ≤ c.element v j ∧ c.element v j < 65536 := by
  have width : c.width = 8 ∨ c.width = 16 := by
    unfold Compare.width
    split_ifs
    · exact .inr rfl
    · exact .inl rfl
  unfold Compare.element
  generalize c.width * j = start
  generalize c.width = w at width
  have unsigned := (v.extractLsb' start w).isLt
  have lowest := (v.extractLsb' start w).le_two_mul_toInt
  have highest := (v.extractLsb' start w).two_mul_toInt_lt
  rcases width with rfl | rfl <;> split_ifs <;> omega

theorem number_cases (c : Compare) : c.number = 8 ∨ c.number = 16 := by
  unfold Compare.number
  split_ifs
  · exact .inl rfl
  · exact .inr rfl

theorem fields_less (c : Compare) : c.aggregation < 4 ∧ c.polarity < 4 := ⟨BitVec.isLt _, BitVec.isLt _⟩

theorem any_and {α : Type} {f : α → Bool} {b : Bool} (l : List α) : (l.any f && b) = l.any fun i => f i && b := by
  cases b
  · simp
  · simp

/-- BoolRes is the comparison of valid elements, and else the override of its aggregation. -/
theorem boolRes_eq (c : Compare) (j i : Nat) : c.boolRes j i = ((c.validA i && c.validB j && c.compares j i) ||
    (!c.validA i && decide (c.aggregation = 3)) || (!c.validA i && !c.validB j && decide (c.aggregation = 2))) := by
  have less := (fields_less c).1
  unfold Compare.boolRes
  generalize c.compares j i = same
  obtain is | is | is | is : c.aggregation = 0 ∨ c.aggregation = 1 ∨ c.aggregation = 2 ∨ c.aggregation = 3 := by omega
  all_goals
    rcases Bool.eq_false_or_eq_true (c.validA i) with isA | isA <;> rcases Bool.eq_false_or_eq_true (c.validB j) with isB | isB <;>
      simp [is, isA, isB]

/-- The masked values aggregate to IntRes1. -/
theorem aggregated_eq (c : Compare) (j : Nat) :
    aggregated c.aggregation c.number (c.element c.a) (c.element c.b) c.validA c.validB j = c.intRes1 j := by
  have none (v : BitVec 128) (i : Nat) : c.element v i ≠ 65536 ∧ ¬ 65536 ≤ c.element v i := by
    have := element_bounds c v i
    omega
  have less := (fields_less c).1
  obtain is | is | is | is : c.aggregation = 0 ∨ c.aggregation = 1 ∨ c.aggregation = 2 ∨ c.aggregation = 3 := by omega
  all_goals simp only [aggregated, aggregate, Compare.intRes1, boolRes_eq, Compare.compares, is]
  · rw [any_and]
    refine congrArg (List.any _) (funext fun i => ?_)
    rcases Bool.eq_false_or_eq_true (c.validA i) with isA | isA <;> rcases Bool.eq_false_or_eq_true (c.validB j) with isB | isB <;>
      simp [isA, isB, (none c.b j).1.symm]
  · rw [any_and]
    refine congrArg (List.any _) (funext fun i => ?_)
    have even : 2 * i % 2 = 0 := by omega
    have odd : (2 * i + 1) % 2 ≠ 0 := by omega
    simp only [ranges, if_pos even, if_neg odd, ge_iff_le, if_true]
    cases c.validA (2 * i) <;> cases c.validA (2 * i + 1) <;> cases c.validB j <;> simp [(none c.b j).2]
  · cases c.validA j <;> cases c.validB j <;> simp
  · refine congrArg (List.all _) (funext fun i => ?_)
    rcases Bool.eq_false_or_eq_true (c.validA i) with isA | isA <;> rcases Bool.eq_false_or_eq_true (c.validB (j + i)) with isB | isB <;>
      simp [isA, isB, (none c.a i).1]

theorem polarity_eq (c : Compare) (j : Nat) :
    (c.intRes1 j ^^ (decide (c.polarity = 1) || (decide (c.polarity = 3) && c.validB j))) = c.intRes2 j := by
  have less := (fields_less c).2
  obtain is | is | is | is : c.polarity = 0 ∨ c.polarity = 1 ∨ c.polarity = 2 ∨ c.polarity = 3 := by omega
  all_goals simp only [Compare.intRes2, is]
  · simp
  · simp
  · simp
  · cases c.validB j <;> simp

/-- The lengths in the explicit forms, as values of type int. -/
def Lengths (known : List Fact) : Option Lowered → Option Int → Prop
  | none, none => True
  | some l, some x => Is x .int known l ∧ convertInt x .int = x
  | _, _ => False

theorem Lengths.mono {more : List Fact} {lv : Option Lowered} {length : Option Int} (lengths : Lengths known lv length) (sub : known ⊆ more) :
    Lengths more lv length := by
  cases lv <;> cases length
  · trivial
  · exact lengths
  · exact lengths
  · exact ⟨lengths.1.mono sub, lengths.2⟩

theorem yields_valid (c : Compare) (v : BitVec 128) {lv : Option Lowered} {length : Option Int} (lengths : Lengths known lv length)
    (small : Small t) (listed : Listed (c.element v) c.number t known ls) :
    Yields known (pcmpValid ls lv) (Listed (fun j => (c.valid v length j).toInt) c.number .int) := by
  have few : c.number ≤ 16 := by have := number_cases c; omega
  cases lv with
  | none =>
    cases length with
    | none => exact yields_nonzero small listed (is_bit true)
    | some x => exact absurd lengths id
  | some l =>
    cases length with
    | none => exact absurd lengths id
    | some x =>
      obtain ⟨isL, value⟩ := lengths
      have inX : -2147483648 ≤ x ∧ x < -2147483648 + 4294967296 := value_inRange value
      refine (yields_explicit isL (by omega) (by omega) listed.length few).weaken fun more vs _ out => ⟨out.length, fun j less => ?_⟩
      have same : c.valid v (some x) j = decide (j < x.natAbs) := decide_eq_decide.2 (by omega)
      rw [same]
      exact out.is j less

/-- The lowered aggregation and polarity give IntRes2. -/
theorem yields_intRes2 (c : Compare) (small : Small t) (listedA : Listed (c.element c.a) c.number t known as)
    (listedB : Listed (c.element c.b) c.number t known bs) (validA : Listed (fun j => (c.validA j).toInt) c.number .int known vs)
    (validB : Listed (fun j => (c.validB j).toInt) c.number .int known ls) :
    Yields known (pcmpAggregated c.aggregation as bs vs ls >>= fun r1 => pcmpPolarity c.polarity r1 ls)
      (Listed (fun j => (c.intRes2 j).toInt) c.number .int) := by
  have values (v : BitVec 128) (j : Nat) (_ : j < c.number) : convertInt (c.element v j) .int = c.element v j := by
    have := element_bounds c v j
    exact int_value (by omega) (by omega)
  have even : c.number % 2 = 0 := by have := number_cases c; omega
  refine .bind (yields_aggregated c.aggregation small listedA listedB validA validB (values c.a) (values c.b) even) fun _ r1 sub listed => ?_
  simp only [aggregated_eq] at listed
  have out := yields_polarity c.polarity (fields_less c).2 listed (validB.mono sub)
  simp only [polarity_eq] at out
  exact out

/-! ### Masks and indices -/

/-- The bits as a number. -/
def maskOf (r : Nat → Bool) : Nat → Nat
  | 0 => 0
  | n + 1 => maskOf r n ||| if r n then 2 ^ n else 0

theorem maskOf_bit (r : Nat → Bool) (n i : Nat) : (maskOf r n).testBit i = (decide (i < n) && r i) := by
  induction n with
  | zero => simp [maskOf]
  | succ n ih =>
    have bit : (if r n then 2 ^ n else 0 : Nat).testBit i = (decide (n = i) && r n) := by
      split_ifs with set
      · rw [Nat.testBit_two_pow, set, Bool.and_true]
      · simp [set]
    rw [maskOf, Nat.testBit_or, ih, bit]
    by_cases same : n = i
    · subst same
      simp
    · have next : decide (i < n + 1) = decide (i < n) := decide_eq_decide.2 (by omega)
      rw [decide_eq_false same, Bool.false_and, Bool.or_false, next]

theorem maskOf_lt (r : Nat → Bool) (n : Nat) : maskOf r n < 2 ^ n := by
  refine Nat.lt_pow_two_of_testBit _ fun i le => ?_
  rw [maskOf_bit, decide_eq_false (by omega), Bool.false_and]

theorem or_nat {x y : Nat} (smallX : x < 2 ^ 31) (smallY : y < 2 ^ 31) : BinOp.or.apply .int x y = (x ||| y : Nat) := by
  have kept {z : Nat} (small : z < 2 ^ 31) : wordOf .int z = z := by
    show ((z : Int) % 2 ^ 32).toNat = z
    omega
  rw [BinOp.apply, kept smallX, kept smallY]
  have := Nat.or_lt_two_pow smallX smallY
  exact int_value (by omega) (by omega)

theorem bit_shift {b : Bool} (small : j < 16) : BinOp.shl.apply .int b.toInt j = (if b then 2 ^ j else 0 : Nat) := by
  have count : ((j : Int) % (8 * size .int : Nat)).toNat = j := by
    show ((j : Int) % 32).toNat = j
    omega
  have less : 2 ^ j < 2 ^ 16 := Nat.pow_lt_pow_right (by decide) small
  have cast : ((2 ^ j : Nat) : Int) = 2 ^ j := by push_cast; rfl
  rw [BinOp.apply]
  cases b with
  | false => rw [show ((if false then 2 ^ j else 0 : Nat) : Int) = 0 from rfl, show (false.toInt * _ : Int) = 0 from Int.zero_mul _]; rfl
  | true =>
    rw [show (true.toInt * 2 ^ ((j : Int) % (8 * size .int)).toNat : Int) = 2 ^ j by
      rw [show true.toInt = 1 from rfl, Int.one_mul]
      exact congrArg (2 ^ ·) count, if_pos rfl, cast]
    have positive : (0 : Int) < 2 ^ j := by positivity
    exact int_value (by omega) (by omega)

variable {r : Nat → Bool} {X : Nat}

theorem yields_mask (listed : Listed (fun j => (r j).toInt) n .int known bs) (few : n ≤ 16) :
    Yields known (pcmpMask bs (List.range bs.length) (k 0)) (Is (maskOf r n) .int) := by
  have length : (bs.zip (List.range bs.length)).length = n := by rw [length_zip, length_range, Nat.min_self, listed.length]
  refine yields_fold (z := fun j => (maskOf r j : Int)) _ length (is_const 0 .int rfl) fun j b there more acc sub isAcc => ?_
  obtain ⟨thereB, thereJ⟩ := getElem?_zip_eq_some.1 there
  obtain ⟨less, isB⟩ := listed.get thereB
  obtain ⟨-, same⟩ := range_get thereJ
  rw [same]
  refine .bind (yields_int .shl (isB.mono sub) (is_const j .int (int_value (by omega) (by omega)))) fun _ s sub1 isS => ?_
  rw [bit_shift (by omega)] at isS
  refine (yields_int .or (isAcc.mono sub1) isS).weaken fun _ m _ isM => ?_
  have bound {m : Nat} (le : m ≤ 16) : (2 : Nat) ^ m ≤ 2 ^ 16 := Nat.pow_le_pow_right (by decide) le
  have small := bound (m := j) (by omega)
  have lessJ := maskOf_lt r j
  rwa [or_nat (by omega) (by split_ifs <;> omega)] at isM

/-- A number's word at an unsigned long. -/
theorem ullong_value (small : X < 2 ^ 31) : convertInt X .ullong = X :=
  convertInt_self (by decide) ⟨by show (0 : Int) ≤ X; omega, by show (X : Int) < 0 + 18446744073709551616; omega⟩

theorem ullong_bits {env : Env} {x : Lowered} (isX : Represents env x X) (type : x.type = .ullong) (small : X < 2 ^ 31) :
    bits env x.v = X := by
  have word := isX.word
  rw [type] at word
  change (bits env x.v : Int) % 2 ^ 64 = (X : Int) % 2 ^ 64 at word
  have := bits_lt env x.v
  omega

theorem yields_first {m : Lowered} (isM : Is X .int known m) (small : X < 2 ^ n) (few : n ≤ 16) :
    Yields known (pcmpFirst n m) (Is (Bitwords.trailing 32 (X ||| 2 ^ n)) .int) := by
  have top : 2 ^ n ≤ 2 ^ 16 := Nat.pow_le_pow_right (by decide) few
  have cast : ((2 ^ n : Nat) : Int) = 2 ^ n := by push_cast; rfl
  have less : X ||| 2 ^ n < 2 ^ 17 := Nat.or_lt_two_pow (by omega) (by omega)
  refine .bind (yields_int .or isM (is_const (2 ^ n) .int (by rw [← cast]; exact int_value (by omega) (by omega)))) fun _ m1 sub1 isM1 => ?_
  rw [← cast, or_nat (by omega) (by omega)] at isM1
  refine .bind (yields_convert isM1.1 .ullong) fun more x sub2 isX => ?_
  rw [ullong_value (by omega)] at isX
  refine Gives.yields ?_ fun s => rfl
  refine .bind (gives_ctz isX.1.usable (by decide)) fun count => ?_
  refine .bind (Gives.fresh (.unary (by simp) ⟨_, rfl⟩) fun s => ⟨_, rfl⟩) fun i => .pure (by simp) fun env ⟨copied, fresh⟩ counted given => ?_
  have word := ullong_bits (isX.1.represents given) isX.2 (by omega)
  rw [word] at counted
  have few : Bitwords.trailing 32 (X ||| 2 ^ n) ≤ 32 := (takeWhile_sublist _).length_le.trans_eq length_range
  refine ⟨int_value (by omega) (by omega), ?_, fun n const => absurd const (fresh n)⟩
  show (bits env i : Int) % 2 ^ 32 = _ % 2 ^ 32
  rw [copied, counted (by omega)]
  show ((_ % 2 ^ 32 : Nat) : Int) % 2 ^ 32 = _ % 2 ^ 32
  omega

theorem yields_top {m : Lowered} {t : Nat} (isM : Is X .int known m) (small : X < 2 ^ 16) (le : t ≤ 16)
    (top : t = 0 ∨ X.testBit (t - 1) = true) (above : ∀ i, t ≤ i → X.testBit i = false) :
    Yields known (pcmpTop m) (Is ((t : Int) - 1) .int) := by
  refine .bind (yields_convert isM.1 .ullong) fun more x sub1 isX => ?_
  rw [ullong_value (by omega)] at isX
  refine Gives.yields ?_ fun s => rfl
  refine .bind (gives_smear [1, 2, 4, 8, 16] isX.1.usable (by decide)) fun y => ?_
  refine .bind (gives_popcount64 (by simp)) fun p => ?_
  refine .bind (.binary (by simp) (by simp) ⟨_, _, rfl⟩) fun hi => ?_
  refine .bind (Gives.fresh (.unary (by simp) ⟨_, rfl⟩) fun s => ⟨_, rfl⟩) fun hiW => .pure (by simp) fun env => ?_
  rintro ⟨copied, fresh⟩ less counted smeared given
  have smearing : Bitwords.Smeared 32 X ([1, 2, 4, 8, 16].foldl (fun y sh => y ||| y >>> sh) X) :=
    Bitwords.smeared_self.double.double.double.double.double
  rw [ullong_bits (isX.1.represents given) isX.2 (by omega), Bitwords.smeared_top smearing (by omega) top above] at smeared
  rw [smeared, Bitwords.ones_low (by omega)] at counted
  rw [counted, bits_const] at less
  refine ⟨int_value (by omega) (by omega), ?_, fun n const => absurd const (fresh n)⟩
  show (bits env hiW : Int) % 2 ^ 32 = _ % 2 ^ 32
  rw [copied, less]
  show ((((t + (2 ^ 64 - low 1)) % 2 ^ 64) % 2 ^ 32 : Nat) : Int) % 2 ^ 32 = _ % 2 ^ 32
  rw [show low 1 = 1 from rfl]
  omega

/-- The first bit of a mask from below, with a bit above it to stop at. -/
theorem first_index (r : Nat → Bool) (few : n ≤ 16) :
    Bitwords.trailing 32 (maskOf r n ||| 2 ^ n) = ((List.range n).find? r).getD n := by
  have bit (i : Nat) : (maskOf r n ||| 2 ^ n).testBit i = ((decide (i < n) && r i) || decide (n = i)) := by
    rw [Nat.testBit_or, maskOf_bit, Nat.testBit_two_pow]
  cases found : (List.range n).find? r with
  | none =>
    have none := find?_eq_none.1 found
    rw [getD_none]
    refine Bitwords.trailing_one ?_ (fun i less => ?_) (by omega)
    · rw [bit]
      simp
    · have unset : r i = false := by simpa using none i (mem_range.2 less)
      rw [bit, unset, Bool.and_false, Bool.false_or, decide_eq_false (by omega)]
  | some t =>
    obtain ⟨set, less, before⟩ := find?_range_eq_some.1 found
    rw [mem_range] at less
    rw [getD_some]
    refine Bitwords.trailing_one ?_ (fun i below => ?_) (by omega)
    · rw [bit, set, decide_eq_true less]
      rfl
    · have unset : r i = false := by simpa using before i below
      rw [bit, unset, Bool.and_false, Bool.false_or, decide_eq_false (by omega)]

/-- The first set element from above. -/
theorem last_found {d t : Nat} (top : t = 0 ∨ t - 1 < n ∧ r (t - 1) = true) (above : ∀ i, t ≤ i → i < n → r i = false) :
    ((List.range n).reverse.find? r).getD d = if t = 0 then d else t - 1 := by
  induction n with
  | zero =>
    obtain rfl : t = 0 := top.resolve_right fun inside => absurd inside.1 (Nat.not_lt_zero _)
    rfl
  | succ n ih =>
    rw [range_succ, reverse_append, reverse_singleton, singleton_append]
    cases set : r n with
    | true =>
      have high : ¬ t ≤ n := fun le => by
        rw [above n le (Nat.lt_succ_self n)] at set
        cases set
      rw [find?_cons_of_pos set, getD_some, if_neg (by omega)]
      omega
    | false =>
      rw [find?_cons_of_neg (by simp [set])]
      refine ih (top.imp_right fun ⟨less, bit⟩ => ⟨?_, bit⟩) fun i le less => above i le (Nat.lt_succ_of_lt less)
      by_contra no
      rw [show t - 1 = n by omega, set] at bit
      cases bit

theorem yields_last {m : Lowered} (isM : Is (maskOf r n) .int known m) (few : n ≤ 16) :
    Yields known (do
      let hi ← pcmpTop m
      let none ← binary .eq m (k 0)
      isel none (k n) hi .int) (Is (((List.range n).reverse.find? r).getD n : Nat) .int) := by
  have small : maskOf r n < 2 ^ 16 := Nat.lt_of_lt_of_le (maskOf_lt r n) (Nat.pow_le_pow_right (by decide) few)
  obtain ⟨t, le, top, above⟩ := Bitwords.exists_top (maskOf_lt r n)
  have found : ((List.range n).reverse.find? r).getD n = if t = 0 then n else t - 1 := by
    refine last_found (top.imp_right fun bit => ?_) fun i le less => ?_
    · rw [maskOf_bit, Bool.and_eq_true, decide_eq_true_eq] at bit
      exact bit
    · have bit := above i le
      rwa [maskOf_bit, decide_eq_true less, Bool.true_and] at bit
  have zero : maskOf r n = 0 ↔ t = 0 := by
    constructor
    · intro none
      refine top.resolve_right fun bit => ?_
      rw [none, Nat.zero_testBit] at bit
      cases bit
    · rintro rfl
      refine Nat.eq_of_testBit_eq fun i => ?_
      rw [above i (Nat.zero_le i), Nat.zero_testBit]
  refine .bind (yields_top isM small (by omega) top above) fun _ hi sub1 isHi => ?_
  refine .bind (yields_int .eq (isM.mono sub1) (is_const 0 .int rfl)) fun _ none sub2 isNone => ?_
  refine (yields_isel (.inl rfl) (p := decide ((maskOf r n : Int) = 0)) isNone (is_const n .int (int_value (by omega) (by omega))).1
    (isHi.mono sub2).1 (int_value (by omega) (by omega)) (int_value (by omega) (by omega))).weaken fun _ result _ out => ?_
  rw [found]
  by_cases nothing : t = 0
  · rw [if_pos (decide_eq_true (by exact_mod_cast zero.2 nothing))] at out
    rwa [if_pos nothing]
  · have some : ¬ (maskOf r n : Int) = 0 := fun none => nothing (zero.1 (by exact_mod_cast none))
    rw [if_neg (by simpa using some)] at out
    rwa [if_neg nothing, Nat.cast_sub (by omega)]

/-! ### Flags and lanes -/

theorem yields_or (listed : Listed (fun j => (r j).toInt) n .int known bs) (positive : 0 < n) :
    Yields known (pcmpOr bs) (Is ((List.range n).any r).toInt .int) := by
  obtain ⟨m, rfl⟩ := Nat.exists_eq_succ_of_ne_zero positive.ne'
  obtain ⟨b, bs, rfl⟩ := exists_cons_of_length_pos (by rw [listed.length]; omega : 0 < bs.length)
  obtain ⟨first, rest⟩ := listed.tail
  refine yields_fold (z := fun j => ((List.range (j + 1)).any r).toInt) bs rest.length (by simpa using first) fun j a there more acc sub isAcc => ?_
  obtain ⟨-, isA⟩ := rest.get there
  refine (yields_int .or isAcc (isA.mono sub)).weaken fun _ result _ out => ?_
  rw [bit_or] at out
  rwa [any_next (j := j + 1)]

theorem yields_units (listed : Listed (fun j => (r j).toInt) n .int known bs) :
    Yields known (pcmpUnits bs) (Listed (fun j => -(r j).toInt) n .int) := by
  refine yields_each _ listed.length fun j b there more sub => ?_
  obtain ⟨-, isB⟩ := listed.get there
  refine (yields_int .sub (is_const 0 .int rfl) (isB.mono sub)).weaken fun _ result _ out => ?_
  rwa [show BinOp.sub.apply .int 0 (r j).toInt = -(r j).toInt by cases r j <;> rfl] at out

theorem yields_lanes {u : Nat → Int} {t1 : IntType} (listed : Listed u n t1 known ls) (e : IntType) :
    Yields known (laneConverted ls e) (Listed (fun j => convertInt (u j) e) n e) := by
  refine yields_each _ listed.length fun j l there more sub => ?_
  exact yields_convert ((listed.get there).2.mono sub).1 e

end

end Nanofil.Arithmetic
