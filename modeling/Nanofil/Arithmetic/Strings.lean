import Nanofil.Arithmetic.Compared

/-! Runs of the lowered string compares give the processor's results. -/
namespace Nanofil.Arithmetic
open List
open Switching (IntType Emit size sign typeClass convertInt InRange Computes Kept)
open Processor (Compare)

/-! ### Formats -/

/-- A lane of a vector of the element type, as it is loaded. -/
def lane (t : IntType) (v : BitVec 128) (j : Nat) : Int := convertInt (v.extractLsb' (8 * size t * j) (8 * size t)).toNat t

/-- The number that an index or a flag is. -/
def scalar (c : Compare) : Out → Int
  | .i => c.index
  | .ia => c.above.toInt
  | .ic => c.carry.toInt
  | .io => c.overflow.toInt
  | .is => c.sign.toInt
  | .iz => c.zero.toInt
  | .m => 0

/-- The lanes that a mask is made of. -/
def maskFormat (c : Compare) (imm : Int) : IntType × Nat := if c.most then pcmpFormat imm else (.ushort, 8)

/-- The result as the processor's definition has it. -/
def Shows (c : Compare) (imm : Int) (out : Out) (env : Env) : PcmpResult → Prop
  | .int r => out ≠ .m ∧ r.type = .int ∧ Represents env r (scalar c out)
  | .vector ls => out = .m ∧ ls.length = (maskFormat c imm).2 ∧ ∀ j < (maskFormat c imm).2,
      (nth0 j ls).type = (maskFormat c imm).1 ∧ Represents env (nth0 j ls) (lane (maskFormat c imm).1 c.mask j)

section
variable {c : Compare} {imm : Int} {n : Nat} {known : List Fact}

theorem imm_word (is : c.imm8 = BitVec.ofInt 8 imm) : (c.imm8.toNat : Int) = imm % 256 := by
  rw [is, BitVec.toNat_ofInt]
  omega

theorem imm_bit (c : Compare) (i : Nat) : c.imm8.getLsbD i = decide (c.imm8.toNat / 2 ^ i % 2 = 1) :=
  Nat.testBit_eq_decide_div_mod_eq

/-- The fields of the control byte. -/
theorem imm_fields (is : c.imm8 = BitVec.ofInt 8 imm) :
    (imm / 4 % 4).toNat = c.aggregation ∧ (imm / 16 % 4).toNat = c.polarity ∧ (imm / 64 % 2).toNat = if c.most then 1 else 0 := by
  have word := imm_word is
  have most : c.most = decide (c.imm8.toNat / 2 ^ 6 % 2 = 1) := imm_bit c 6
  rw [most, Compare.aggregation, Compare.polarity, BitVec.extractLsb'_toNat, BitVec.extractLsb'_toNat]
  simp only [Nat.shiftRight_eq_div_pow, decide_eq_true_eq]
  refine ⟨by omega, by omega, ?_⟩
  split_ifs <;> omega

theorem format_cases (is : c.imm8 = BitVec.ofInt 8 imm) : pcmpFormat imm = (match c.signed, c.words with
    | false, false => (.uchar, 16)
    | false, true => (.ushort, 8)
    | true, false => (.schar, 16)
    | true, true => (.short, 8)) := by
  have word := imm_word is
  have words : c.words = decide (c.imm8.toNat / 2 ^ 0 % 2 = 1) := imm_bit c 0
  have signed : c.signed = decide (c.imm8.toNat / 2 ^ 1 % 2 = 1) := imm_bit c 1
  unfold pcmpFormat
  obtain low | low | low | low : imm % 4 = 0 ∨ imm % 4 = 1 ∨ imm % 4 = 2 ∨ imm % 4 = 3 := by omega
  · rw [words, signed, decide_eq_false (by omega), decide_eq_false (by omega), low]
    rfl
  · rw [words, signed, decide_eq_false (by omega), decide_eq_true (by omega), low]
    rfl
  · rw [words, signed, decide_eq_true (by omega), decide_eq_false (by omega), low]
    rfl
  · rw [words, signed, decide_eq_true (by omega), decide_eq_true (by omega), low]
    rfl

/-- A lane is the element in the control byte's format. -/
theorem lane_element (is : c.imm8 = BitVec.ofInt 8 imm) (v : BitVec 128) (j : Nat) : lane (pcmpFormat imm).1 v j = c.element v j := by
  have byte (x : BitVec 8) : convertInt x.toNat .uchar = x.toNat ∧ convertInt x.toNat .schar = x.toInt := by
    have small := x.isLt
    rw [BitVec.toInt_eq_toNat_cond]
    refine ⟨convertInt_self (by decide) ⟨Int.natCast_nonneg _, by show (x.toNat : Int) < 0 + 256; omega⟩, ?_⟩
    show (if (x.toNat : Int) % 256 ≥ 256 / 2 then (x.toNat : Int) % 256 - 256 else (x.toNat : Int) % 256) = _
    split_ifs <;> omega
  have word (x : BitVec 16) : convertInt x.toNat .ushort = x.toNat ∧ convertInt x.toNat .short = x.toInt := by
    have small := x.isLt
    rw [BitVec.toInt_eq_toNat_cond]
    refine ⟨convertInt_self (by decide) ⟨Int.natCast_nonneg _, by show (x.toNat : Int) < 0 + 65536; omega⟩, ?_⟩
    show (if (x.toNat : Int) % 65536 ≥ 65536 / 2 then (x.toNat : Int) % 65536 - 65536 else (x.toNat : Int) % 65536) = _
    split_ifs <;> omega
  rw [format_cases is]
  unfold Compare.element Compare.width
  cases c.signed <;> cases c.words
  · exact (byte _).1
  · exact (word _).1
  · exact (byte _).2
  · exact (word _).2

theorem format_number (is : c.imm8 = BitVec.ofInt 8 imm) :
    (pcmpFormat imm).2 = c.number ∧ Small (pcmpFormat imm).1 ∧ 8 * size (pcmpFormat imm).1 = c.width ∧ c.width * c.number = 128 := by
  rw [format_cases is]
  unfold Compare.number Compare.width
  cases c.signed <;> cases c.words <;> decide

/-! ### Masks -/

theorem extract_bit {f : Nat → Bool} {start width i : Nat} (inside : start + width ≤ 128) :
    ((BitVec.ofNat 128 (Nat.ofBits fun i : Fin 128 => f i)).extractLsb' start width).toNat.testBit i = (decide (i < width) && f (start + i)) := by
  rw [BitVec.extractLsb'_toNat, Nat.testBit_mod_two_pow, Nat.testBit_shiftRight, BitVec.toNat_ofNat, Nat.testBit_mod_two_pow]
  by_cases less : i < width
  · rw [decide_eq_true less, decide_eq_true (by omega), Nat.testBit_ofBits_lt _ _ (by omega), Bool.true_and]
  · rw [decide_eq_false less, Bool.false_and, Bool.false_and]

/-- An element of a mask of units is all ones or zero. -/
theorem unit_lane (is : c.imm8 = BitVec.ofInt 8 imm) (most : c.most = true) {j : Nat} (less : j < c.number) :
    convertInt (-(c.intRes2 j).toInt) (pcmpFormat imm).1 = lane (pcmpFormat imm).1 c.mask j := by
  obtain ⟨-, -, width, whole⟩ := format_number is
  have positive : 0 < c.width := by
    by_contra none
    rw [Nat.eq_zero_of_not_pos none, Nat.zero_mul] at whole
    cases whole
  have fits : c.width * j + c.width ≤ 128 := by
    have := Nat.mul_le_mul_left c.width (Nat.succ_le_of_lt less)
    rw [whole] at this
    exact this
  have unit : (c.mask.extractLsb' (c.width * j) c.width).toNat = if c.intRes2 j then 2 ^ c.width - 1 else 0 := by
    refine Nat.eq_of_testBit_eq fun i => ?_
    rw [Compare.mask, if_pos most, extract_bit (f := fun i => c.intRes2 (i / c.width)) fits]
    by_cases low : i < c.width
    · rw [Nat.mul_add_div positive, Nat.div_eq_of_lt low, Nat.add_zero]
      split_ifs with set
      · rw [Nat.testBit_two_pow_sub_one, set, Bool.and_true]
      · simp [set]
    · rw [decide_eq_false low, Bool.false_and]
      split_ifs with set
      · rw [Nat.testBit_two_pow_sub_one, decide_eq_false low]
      · rw [Nat.zero_testBit]
  rw [lane, width, unit, ← width, format_cases is]
  cases c.signed <;> cases c.words <;> cases c.intRes2 j <;> decide

/-- The mask of bits is in the first lane. -/
theorem bits_lane (least : c.most = false) {j : Nat} (less : j < 8) :
    lane .ushort c.mask j = convertInt (if j = 0 then (maskOf c.intRes2 c.number : Int) else 0) .ushort := by
  have few : c.number ≤ 16 := by have := number_cases c; omega
  have bits : (c.mask.extractLsb' (16 * j) 16).toNat = if j = 0 then maskOf c.intRes2 c.number else 0 := by
    refine Nat.eq_of_testBit_eq fun i => ?_
    rw [Compare.mask, if_neg (by simp [least]), extract_bit (f := fun i => decide (i < c.number) && c.intRes2 i) (by omega)]
    split_ifs with first
    · subst first
      rw [maskOf_bit, Nat.mul_zero, Nat.zero_add]
      by_cases inside : i < c.number
      · rw [decide_eq_true inside, decide_eq_true (by omega), Bool.true_and]
      · rw [decide_eq_false inside, Bool.false_and, Bool.and_false]
    · rw [decide_eq_false (by omega : ¬ 16 * j + i < c.number), Bool.false_and, Bool.and_false, Nat.zero_testBit]
  show convertInt ((c.mask.extractLsb' (16 * j) 16).toNat : Int) .ushort = _
  rw [bits]
  split_ifs <;> rfl

/-! ### Results -/

/-- What is known of a result. -/
def Known (c : Compare) (imm : Int) (out : Out) (known : List Fact) : PcmpResult → Prop
  | .int r => out ≠ .m ∧ Is (scalar c out) .int known r
  | .vector ls => out = .m ∧ Listed (lane (maskFormat c imm).1 c.mask) (maskFormat c imm).2 (maskFormat c imm).1 known ls

theorem yields_scalar {m : Emitting Lowered} {out : Out} (other : out ≠ .m) (yields : Yields known m (Is (scalar c out) .int)) :
    Yields known (m >>= fun r => pure (.int r)) (Known c imm out) :=
  .bind yields fun _ _ _ isR => .pure ⟨other, isR⟩

theorem yields_not {b : Bool} {a : Lowered} (isA : Is b.toInt .int known a) : Yields known (binary .xor a (k 1)) (Is (!b).toInt .int) := by
  refine (yields_int .xor isA (is_bit true)).weaken fun _ r _ isR => ?_
  rwa [bit_xor, Bool.xor_true] at isR

/-- Past an invalid element all are. -/
theorem valid_before (c : Compare) {v : BitVec 128} {length : Option Int} {i j : Nat} (le : i ≤ j) (valid : c.valid v length j = true) :
    c.valid v length i = true := by
  cases length with
  | none =>
    refine all_eq_true.2 fun l mem => all_eq_true.1 valid l (mem_range.2 ?_)
    have := mem_range.1 mem
    omega
  | some x =>
    have below := of_decide_eq_true valid
    exact decide_eq_true (by omega)

theorem any_invalid (c : Compare) (v : BitVec 128) (length : Option Int) :
    ((List.range c.number).any fun j => !c.valid v length j) = !c.valid v length (c.number - 1) := by
  have positive : 0 < c.number := by have := number_cases c; omega
  rw [Bool.eq_iff_iff, any_eq_true]
  constructor
  · rintro ⟨j, mem, invalid⟩
    by_contra last
    rw [valid_before c (i := j) (j := c.number - 1) (by have := mem_range.1 mem; omega) (by simpa using last)] at invalid
    cases invalid
  · exact fun last => ⟨_, mem_range.2 (by omega), last⟩

theorem yields_bitMask {r2 : List Lowered} (listed : Listed (fun j => (c.intRes2 j).toInt) c.number .int known r2) :
    Yields known (pcmpMask r2 (List.range r2.length) (k 0)) (Is (maskOf c.intRes2 c.number) .int) :=
  yields_mask listed (by have := number_cases c; omega)

/-- The results from IntRes2 and the last elements' validity. -/
theorem yields_result (is : c.imm8 = BitVec.ofInt 8 imm) (out : Out) {r2 : List Lowered} {vaN vbN : Lowered}
    (listed : out ≠ .is → out ≠ .iz → Listed (fun j => (c.intRes2 j).toInt) c.number .int known r2)
    (validA : Is (c.validA (c.number - 1)).toInt .int known vaN) (validB : Is (c.validB (c.number - 1)).toInt .int known vbN) :
    Yields known (pcmpResult out (if c.most then 1 else 0) (pcmpFormat imm) r2 vaN vbN) (Known c imm out) := by
  obtain ⟨number, -, -, -⟩ := format_number is
  have few : c.number ≤ 16 := by have := number_cases c; omega
  have positive : 0 < c.number := by have := number_cases c; omega
  have zero : c.zero = !c.validB (c.number - 1) := any_invalid c c.b _
  cases out with
  | i =>
    replace listed := listed (by decide) (by decide)
    cases most : c.most with
    | false =>
      have value : scalar c .i = (((List.range c.number).find? c.intRes2).getD c.number : Nat) := by
        rw [scalar, Compare.index, if_neg (by simp [most])]
      refine .bind (yields_bitMask listed) fun _ m sub isM => yields_scalar (by decide) ?_
      rw [number, value, ← first_index c.intRes2 few]
      exact yields_first isM (maskOf_lt _ _) few
    | true =>
      have value : scalar c .i = (((List.range c.number).reverse.find? c.intRes2).getD c.number : Nat) := by
        rw [scalar, Compare.index, if_pos most]
      refine .bind (yields_bitMask listed) fun _ m sub isM => ?_
      rw [number]
      have last := yields_last isM few
      rw [← value] at last
      exact yields_scalar (by decide) last
  | m =>
    replace listed := listed (by decide) (by decide)
    cases most : c.most with
    | false =>
      refine .bind (yields_bitMask listed) fun more m sub isM => ?_
      have eight : Listed (fun j => if j = 0 then (maskOf c.intRes2 c.number : Int) else 0) 8 .int more [m, k 0, k 0, k 0, k 0, k 0, k 0, k 0] := by
        refine ⟨rfl, fun j less => ?_⟩
        rcases j with _ | _ | _ | _ | _ | _ | _ | _ | j
        · exact isM
        all_goals exact is_const 0 .int rfl
      refine .bind (yields_lanes eight .ushort) fun _ ls sub1 lanes => .pure ⟨rfl, ?_⟩
      rw [maskFormat, if_neg (by simp [most])]
      refine ⟨lanes.length, fun j less => ?_⟩
      rw [bits_lane most less]
      exact lanes.is j less
    | true =>
      refine .bind (yields_units listed) fun _ us sub units => ?_
      refine .bind (yields_lanes units (pcmpFormat imm).1) fun _ ls sub1 lanes => .pure ⟨rfl, ?_⟩
      rw [maskFormat, if_pos most, number]
      refine ⟨lanes.length, fun j less => ?_⟩
      rw [← unit_lane is most less]
      exact lanes.is j less
  | ic => exact yields_scalar (by decide) (yields_or (listed (by decide) (by decide)) positive)
  | ia =>
    have value : scalar c .ia = (!c.carry && c.validB (c.number - 1)).toInt := by
      rw [scalar, Compare.above, zero, Bool.not_not]
    refine .bind (yields_or (listed (by decide) (by decide)) positive) fun _ carry sub isC => ?_
    refine .bind (yields_not isC) fun _ nc sub1 isNc => yields_scalar (by decide) ?_
    rw [value, ← bit_and]
    exact yields_int .and isNc ((validB.mono sub).mono sub1)
  | io => exact .pure ⟨by decide, (listed (by decide) (by decide)).is 0 positive⟩
  | is =>
    have value : scalar c .is = (!c.validA (c.number - 1)).toInt := congrArg Bool.toInt (any_invalid c c.a _)
    have flag := yields_not validA
    rw [← value] at flag
    exact yields_scalar (by decide) flag
  | iz =>
    have value : scalar c .iz = (!c.validB (c.number - 1)).toInt := congrArg Bool.toInt zero
    have flag := yields_not validB
    rw [← value] at flag
    exact yields_scalar (by decide) flag

/-- The whole lowering. -/
theorem yields_pcmpstr (is : c.imm8 = BitVec.ofInt 8 imm) (out : Out) {la lb : List Lowered} {lens : Option (Lowered × Lowered)}
    (listedA : Listed (c.element c.a) c.number (pcmpFormat imm).1 known la) (listedB : Listed (c.element c.b) c.number (pcmpFormat imm).1 known lb)
    (lengthA : Lengths known (lens.map Prod.fst) (c.lengths.map Prod.fst)) (lengthB : Lengths known (lens.map Prod.snd) (c.lengths.map Prod.snd)) :
    Yields known (pcmpstr out imm la lb lens) (Known c imm out) := by
  obtain ⟨-, small, -, -⟩ := format_number is
  obtain ⟨aggregation, polarity, most⟩ := imm_fields is
  have positive : 0 < c.number := by have := number_cases c; omega
  unfold pcmpstr
  rw [most]
  refine .bind (yields_valid c c.a lengthA small listedA) fun _ va sub1 validA => ?_
  refine .bind (yields_valid c c.b (lengthB.mono sub1) small (listedB.mono sub1)) fun known2 vb sub2 validB => ?_
  replace validA := validA.mono sub2
  have decided : Yields known2 (pcmpDecided out imm la lb va vb) fun more r2 =>
      out ≠ .is → out ≠ .iz → Listed (fun j => (c.intRes2 j).toInt) c.number .int more r2 := by
    unfold pcmpDecided
    rw [aggregation, polarity]
    split_ifs with flag
    · exact .pure fun notS notZ => absurd flag (by simp [notS, notZ])
    · refine (yields_intRes2 c small ((listedA.mono sub1).mono sub2) ((listedB.mono sub1).mono sub2) validA validB).weaken ?_
      exact fun _ _ _ out _ _ => out
  refine .bind decided fun _ r2 sub3 listed => ?_
  rw [validA.length, validB.length]
  exact yields_result is out listed ((validA.is (c.number - 1) (by omega)).mono sub3) ((validB.is (c.number - 1) (by omega)).mono sub3)

/-! ### Runs -/

/-- What is known of values holds of a run. -/
theorem Yields.runs {α : Type} {m : Emitting α} {Q : List Fact → α → Prop} {d : Nanofil.Ctx} {s : Emit} {env : Env}
    (yields : Yields known m Q) (operands : ∀ p ∈ known, Operand s env p.1 p.2) :
    ∃ is env1 more, Adds s (m s).2 is ∧ Computes d is env env1 ∧ Kept s.n env env1 ∧ Q more (m s).1 ∧
      ∀ p ∈ more, Represents env1 p.1 p.2 := by
  obtain ⟨more, sub, holds, code⟩ := yields s
  obtain ⟨js, straight, avail, solved⟩ := code (known.map (·.1.v)) s [] .nil fun p mem => .inr (.inl (mem_map_of_mem (f := (·.1.v)) mem))
  have each {P : Value → Prop} (one : ∀ p ∈ known, P p.1.v) : ∀ v ∈ known.map (·.1.v), P v := by
    intro v mem
    obtain ⟨p, there, rfl⟩ := mem_map.1 mem
    exact one p there
  obtain ⟨env1, ran, solves, kept, -⟩ := straight.run (c := d) (each fun p mem => (operands p mem).old)
    (each fun p mem => (operands p mem).holds)
  exact ⟨js, env1, more, ⟨straight.insts, straight.blocks⟩, ran, kept, holds,
    solved env1 solves fun p mem => represents_kept kept (operands p mem).old (operands p mem).represents⟩

theorem Known.shows {out : Out} {env : Env} {r : PcmpResult} (holds : Known c imm out known r) (given : ∀ p ∈ known, Represents env p.1 p.2) :
    Shows c imm out env r := by
  cases r with
  | int r => exact ⟨holds.1, holds.2.2, holds.2.1.represents given⟩
  | vector ls => exact ⟨holds.1, holds.2.length, fun j less => ⟨(holds.2.is j less).2, (holds.2.is j less).1.represents given⟩⟩

/-- A vector's lanes, loaded before the state's code. -/
structure Lanes (s : Emit) (env : Env) (format : IntType × Nat) (v : BitVec 128) (ls : List Lowered) : Prop where
  length : ls.length = format.2
  each : ∀ j < format.2, (nth0 j ls).type = format.1 ∧ Operand s env (nth0 j ls) (lane format.1 v j)

/-- The two lengths of an explicit form are ints. -/
def Given (s : Emit) (env : Env) : Option (Lowered × Lowered) → Option (Int × Int) → Prop
  | none, none => True
  | some (la, lb), some (x, y) => la.type = .int ∧ lb.type = .int ∧ Operand s env la x ∧ Operand s env lb y
  | _, _ => False

/-- The facts that the arguments are. -/
def argumentFacts (format : IntType × Nat) (a b : BitVec 128) (la lb : List Lowered) (lens : Option (Lowered × Lowered))
    (lengths : Option (Int × Int)) : List Fact :=
  (List.range format.2).map (fun j => (nth0 j la, lane format.1 a j)) ++ (List.range format.2).map (fun j => (nth0 j lb, lane format.1 b j)) ++
    match lens, lengths with
    | some l, some x => [(l.1, x.1), (l.2, x.2)]
    | _, _ => []

/-- For every control byte, operands and lengths, the lowered code runs to what the processor's compare gives. -/
theorem pcmpstr_exact (ctx : Nanofil.Ctx) (s : Emit) (env : Env) (out : Out) (imm : Int) (a b : BitVec 128) (lengths : Option (Int × Int))
    (la lb : List Lowered) (lens : Option (Lowered × Lowered)) (lanesA : Lanes s env (pcmpFormat imm) a la)
    (lanesB : Lanes s env (pcmpFormat imm) b lb) (given : Given s env lens lengths) :
    ∃ is env1, Adds s (pcmpstr out imm la lb lens s).2 is ∧ Computes ctx is env env1 ∧ Kept s.n env env1 ∧
      Shows ⟨BitVec.ofInt 8 imm, a, b, lengths⟩ imm out env1 (pcmpstr out imm la lb lens s).1 := by
  let c : Compare := ⟨BitVec.ofInt 8 imm, a, b, lengths⟩
  let known := argumentFacts (pcmpFormat imm) a b la lb lens lengths
  obtain ⟨number, -, -, -⟩ := format_number (c := c) rfl
  have listed {v : BitVec 128} {ls : List Lowered} (lanes : Lanes s env (pcmpFormat imm) v ls)
      (there : ∀ j < c.number, (nth0 j ls, lane (pcmpFormat imm).1 v j) ∈ known) :
      Listed (c.element v) c.number (pcmpFormat imm).1 known ls := by
    refine ⟨lanes.length.trans number, fun j less => ⟨.inl ?_, (lanes.each j (number ▸ less)).1⟩⟩
    rw [← lane_element (c := c) rfl]
    exact there j less
  have inA (j : Nat) (less : j < c.number) : (nth0 j la, lane (pcmpFormat imm).1 a j) ∈ known :=
    mem_append_left _ (mem_append_left _ (mem_map.2 ⟨j, mem_range.2 (number ▸ less), rfl⟩))
  have inB (j : Nat) (less : j < c.number) : (nth0 j lb, lane (pcmpFormat imm).1 b j) ∈ known :=
    mem_append_left _ (mem_append_right _ (mem_map.2 ⟨j, mem_range.2 (number ▸ less), rfl⟩))
  have operands : ∀ p ∈ known, Operand s env p.1 p.2 := by
    intro p mem
    rcases mem_append.1 mem with lanes | rest
    · rcases mem_append.1 lanes with lanes | lanes
      · obtain ⟨j, less, rfl⟩ := mem_map.1 lanes
        exact (lanesA.each j (mem_range.1 less)).2
      · obtain ⟨j, less, rfl⟩ := mem_map.1 lanes
        exact (lanesB.each j (mem_range.1 less)).2
    · cases lens with
      | none => cases rest
      | some l =>
        cases lengths with
        | none => cases rest
        | some x =>
          obtain ⟨-, -, first, second⟩ := given
          rcases mem_cons.1 rest with rfl | rest
          · exact first
          · cases mem_singleton.1 rest
            exact second
  have both : Lengths known (lens.map Prod.fst) (c.lengths.map Prod.fst) ∧ Lengths known (lens.map Prod.snd) (c.lengths.map Prod.snd) := by
    cases lens with
    | none =>
      cases lengths with
      | none => exact ⟨trivial, trivial⟩
      | some x => exact absurd given id
    | some l =>
      cases lengths with
      | none => exact absurd given id
      | some x =>
        obtain ⟨typeA, typeB, first, second⟩ := given
        have inL : (l.1, x.1) ∈ known ∧ (l.2, x.2) ∈ known :=
          ⟨mem_append_right _ mem_cons_self, mem_append_right _ (mem_cons_of_mem _ mem_cons_self)⟩
        refine ⟨⟨⟨.inl inL.1, typeA⟩, ?_⟩, ⟨⟨.inl inL.2, typeB⟩, ?_⟩⟩
        · have value := first.represents.value
          rwa [typeA] at value
        · have value := second.represents.value
          rwa [typeB] at value
  obtain ⟨is, env1, more, adds, ran, kept, holds, represents⟩ :=
    (yields_pcmpstr (c := c) rfl out (listed lanesA inA) (listed lanesB inB) both.1 both.2).runs (d := ctx) operands
  exact ⟨is, env1, adds, ran, kept, holds.shows represents⟩

/-- The lanes of a vector as constants. -/
def constantLanes (format : IntType × Nat) (v : BitVec 128) : List Lowered :=
  (List.range format.2).map fun j => ⟨.const (lane format.1 v j), format.1⟩

theorem operand_const {s : Emit} {env : Env} {t : IntType} {x : Int} (value : convertInt x t = x) : Operand s env ⟨.const x, t⟩ x :=
  ⟨fun _ _ eq => (nomatch eq), trivial, ⟨value, word_const, fun n eq => by cases eq; rfl⟩⟩

theorem lanes_const (s : Emit) (env : Env) (format : IntType × Nat) (v : BitVec 128) : Lanes s env format v (constantLanes format v) := by
  refine ⟨by rw [constantLanes, length_map, length_range], fun j less => ?_⟩
  have same : nth0 j (constantLanes format v) = ⟨.const (lane format.1 v j), format.1⟩ := by
    rw [nth0, constantLanes, getD_eq_getElem?_getD, getElem?_map, getElem?_range less]
    rfl
  rw [same]
  exact ⟨rfl, operand_const convertInt_fixed⟩

end

/-- The two bytes "el", of length -2, begin at the byte 1 of "hello". -/
theorem pcmpstr_hello : ∃ is env1, Adds ⟨none, [], [], 0, []⟩ (pcmpstr .i 12 (constantLanes (.uchar, 16) 0x6c65#128)
      (constantLanes (.uchar, 16) 0x6f6c6c6568#128) (some (⟨.const (-2), .int⟩, ⟨.const 5, .int⟩)) ⟨none, [], [], 0, []⟩).2 is ∧
    Computes noCode is emptyEnv env1 ∧ ∃ r, (pcmpstr .i 12 (constantLanes (.uchar, 16) 0x6c65#128)
      (constantLanes (.uchar, 16) 0x6f6c6c6568#128) (some (⟨.const (-2), .int⟩, ⟨.const 5, .int⟩)) ⟨none, [], [], 0, []⟩).1 = .int r ∧
      Represents env1 r 1 := by
  obtain ⟨is, env1, adds, ran, -, shows⟩ := pcmpstr_exact noCode ⟨none, [], [], 0, []⟩ emptyEnv .i 12 0x6c65#128 0x6f6c6c6568#128
    (some (-2, 5)) _ _ (some (⟨.const (-2), .int⟩, ⟨.const 5, .int⟩)) (lanes_const _ _ (.uchar, 16) _) (lanes_const _ _ (.uchar, 16) _)
    ⟨rfl, rfl, operand_const rfl, operand_const rfl⟩
  refine ⟨is, env1, adds, ran, ?_⟩
  have index : scalar ⟨BitVec.ofInt 8 12, 0x6c65#128, 0x6f6c6c6568#128, some (-2, 5)⟩ .i = 1 := by decide
  revert shows
  generalize (pcmpstr .i 12 _ _ _ _).1 = r
  cases r with
  | int r => exact fun shows => ⟨r, rfl, index ▸ shows.2.2⟩
  | vector ls => exact fun shows => absurd shows.1 (by decide)

end Nanofil.Arithmetic
