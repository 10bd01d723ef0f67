import Nanofil.Lib.Amd64

/-! `filc_amd64.pl`'s access checks: the lines that test a pointer in `%rax` against its lower in `%rcx`, the upper before it and
the object's flags. -/
namespace Nanofil.Emission
open List Amd64

/-- What `--bounds` selects. -/
inductive Shape
  | split | merged | sign | or
deriving DecidableEq, Repr

inductive Selection
  | stack | local_
deriving DecidableEq, Repr

inductive Bound
  | upper | lower
deriving DecidableEq, Repr

def upperOf : Operand := .mem (-16) .rcx

def flagsOf : Operand := .mem (-2) .rcx

/-! ### Full checks -/

/-- With local selection a nonnull lower's upper is at least 16. -/
def borrowCheck (selection : Selection) (size : Nat) (fail : String) : List Ins :=
  if selection = .local_ ∧ size ≤ 16 then [] else [.jump .b fail]

def orBounds (size : Nat) : List Ins :=
  [.mov (.reg .rax) .rsi, .sub (.reg .rcx) .rsi, .mov upperOf .rdx, .sub (.reg .rax) .rdx, .sub (.imm size) .rdx, .or .rsi .rdx]

def mergedBounds (size : Nat) (fail : String) : List Ins :=
  [.mov (.reg .rax) .rsi, .sub (.reg .rcx) .rsi, .mov upperOf .rdx, .sub (.reg .rcx) .rdx] ++
    (if 1 < size then [.sub (.imm (size - 1)) .rdx, .cmov .b .rdx .rsi] else []) ++
    [.cmp (.reg .rdx) .rsi, .jump .ae fail]

def boundsShape (shape : Shape) (selection : Selection) (size : Nat) (fail : String) : List Ins :=
  match shape with
  | .split =>
    [.cmp (.reg .rcx) .rax, .jump .b fail, .mov upperOf .rdx, .sub (.imm size) .rdx] ++ borrowCheck selection size fail ++
      [.cmp (.reg .rdx) .rax, .jump .a fail]
  | .merged => mergedBounds size fail
  | .sign => orBounds size ++ [.jump .s fail]
  | .or => orBounds size ++ [.shr 56 .rdx, .jump .nz fail]

def boundsCheck (shape : Shape) (selection : Selection) (size : Nat) (fail : String) : List Ins :=
  [.test .rcx .rcx, .jump .z fail] ++ boundsShape shape selection size fail

def writeCheck (write : Bool) (fail : String) : List Ins := if write then [.testb 6 flagsOf, .jump .nz fail] else []

def alignCheck (align : Nat) (fail : String) : List Ins :=
  match align with
  | 2 => [.testb 1 (.reg .rax), .jump .nz fail]
  | 4 => [.testb 3 (.reg .rax), .jump .nz fail]
  | 8 => [.testb 7 (.reg .rax), .jump .nz fail]
  | _ => []

def accessCheck (shape : Shape) (selection : Selection) (size : Nat) (write : Bool) (align : Nat) (fail : String) : List Ins :=
  boundsCheck shape selection size fail ++ writeCheck write fail ++ alignCheck align fail

/-! ### Limits -/

def orLimitValue (size : Nat) (done : String) : List Ins :=
  [.mov (.imm (-1)) .rdx, .test .rcx .rcx, .jump .z done, .mov upperOf .rdx, .sub (.imm size) .rdx, .label done]

def limitValue (shape : Shape) (size : Nat) (done : String) : List Ins :=
  match shape with
  | .split =>
    [.xorl .rdx .rdx, .test .rcx .rcx, .jump .z done, .mov upperOf .rdx, .sub (.imm (size - 1)) .rdx, .jump .ae done,
      .xorl .rdx .rdx, .label done]
  | .merged =>
    [.xorl .rdx .rdx, .test .rcx .rcx, .jump .z done, .mov upperOf .rdx, .sub (.reg .rcx) .rdx, .sub (.imm (size - 1)) .rdx,
      .jump .ae done, .xorl .rdx .rdx, .label done]
  | .sign | .or => orLimitValue size done

def renewMask (write : Bool) : Nat := if write then 6 else 4

def flagsCheck (write : Bool) (fail : String) : List Ins := [.testb (renewMask write) flagsOf, .jump .nz fail]

def orLimitTerms : List Ins := [.mov (.reg .rax) .rsi, .sub (.reg .rcx) .rsi, .sub (.reg .rax) .rdx, .or .rsi .rdx]

def limitShape (shape : Shape) (fail : String) : List Ins :=
  match shape with
  | .split => [.cmp (.reg .rcx) .rax, .jump .b fail, .cmp (.reg .rdx) .rax, .jump .ae fail]
  | .merged => [.mov (.reg .rax) .rsi, .sub (.reg .rcx) .rsi, .cmp (.reg .rdx) .rsi, .jump .ae fail]
  | .or => orLimitTerms ++ [.shr 56 .rdx, .jump .nz fail]
  | .sign => orLimitTerms ++ [.jump .s fail]

def limitCheck (shape : Shape) (write : Bool) (fail : String) : List Ins := limitShape shape fail ++ flagsCheck write fail

/-! ### Half checks and spans -/

def halfBounds (bound : Bound) (selection : Selection) (size : Nat) (write : Bool) (fail : String) : List Ins :=
  match bound with
  | .upper =>
    [.mov upperOf .rdx, .sub (.imm size) .rdx] ++ borrowCheck selection size fail ++ [.cmp (.reg .rdx) .rax, .jump .a fail] ++
      writeCheck write fail
  | .lower => [.cmp (.reg .rcx) .rax, .jump .l fail] ++ flagsCheck write fail

def spanEnd (off : Int) (reg : Reg) : List Ins :=
  if -2147483648 ≤ off ∧ off ≤ 2147483647 then [.lea (.mem off .rax) reg]
  else [.movabs (off % 18446744073709551616) .rsi, .lea (.sum 0 .rax .rsi) reg]

def spanTest (lo hi : Int) (zero done : String) : List Ins :=
  [.test .rcx .rcx, .jump .z zero] ++ spanEnd lo .rdx ++ [.cmp (.reg .rcx) .rdx, .jump .b zero] ++ spanEnd hi .rax ++
    [.cmp (.reg .rdx) .rax, .jump .be zero, .cmp upperOf .rax, .jump .a zero, .movl 1 .rax, .jmp done, .label zero, .xorl .rax .rax,
      .label done]

/-! ### Known bounds -/

def nearOffset (k : Int) : Bool := -2 ^ 62 ≤ k && k ≤ 2 ^ 62

def halfSide (bound : Bound) (e f : Int) : Bool :=
  match bound with
  | .upper => 0 ≤ e
  | .lower => f ≤ 0

/-- `ir.pl`'s rule for a half check of `[lo, hi)` at a pointer `d0` from one whose check of `[lo1, hi1)` passed. -/
def halfKnown (bound : Bound) (lo hi d0 lo1 hi1 : Int) : Bool :=
  let d := (d0 + 2 ^ 63) % 2 ^ 64 - 2 ^ 63
  let e := d + lo - lo1
  let f := d + hi - hi1
  nearOffset e && nearOffset f && hi - lo ≤ 2 ^ 62 && halfSide bound e f

/-! ### Conditions -/

/-- What the runtime has of a capability: its lower is null, or above a header and not above its upper, in user space. -/
def Capability (lower upper : Word) : Prop := lower = 0 ∨ 16 ≤ lower.toNat ∧ lower.toNat ≤ upper.toNat ∧ upper.toNat < 2 ^ 56

def Accessible (ptr lower upper : Word) (size : Nat) : Prop := lower ≠ 0 ∧ lower.toNat ≤ ptr.toNat ∧ ptr.toNat + size ≤ upper.toNat

def Aligned (align : Nat) (ptr : Word) : Prop := align ∈ [2, 4, 8] → align ∣ ptr.toNat

/-- Fil-C's full check: neither flag is set for a write. -/
def Permitted (ptr lower upper : Word) (flags : BitVec 8) (size : Nat) (write : Bool) (align : Nat) : Prop :=
  Accessible ptr lower upper size ∧ (write = true → flags &&& 6 = 0) ∧ Aligned align ptr

/-- An object's upper and flags later: its upper then, or after a free its lower with the free flag set. -/
def Since (lower upper later : Word) (flags : BitVec 8) : Prop := later = upper ∧ flags &&& 4 = 0 ∨ later = lower ∧ flags &&& 4 ≠ 0

/-- The header before a lower. -/
structure Header (m : Memory) (lower upper : Word) (flags : BitVec 8) : Prop where
  upper : quad m (lower - 16) = upper
  flags : m (lower - 2) = flags

/-! Each shape's lines test exactly the bounds. -/

variable {m : Memory} {s : State} {fail : String} {ptr lower upper : Word} {flags : BitVec 8} {size : Nat} {write : Bool} {align : Nat}
  {shape : Shape} {selection : Selection}

/-! ### Values -/

theorem imm_toNat (small : size < 2 ^ 31) : (BitVec.ofInt 64 (size : Int)).toNat = size := by
  rw [BitVec.ofInt_natCast, BitVec.toNat_ofNat]
  omega

theorem last_toNat (positive : 1 ≤ size) (small : size < 2 ^ 31) : (BitVec.ofInt 64 ((size : Int) - 1)).toNat = size - 1 := by
  rw [← imm_toNat (Nat.lt_of_le_of_lt (Nat.sub_le size 1) small), Nat.cast_sub positive]
  rfl

theorem Header.bound (header : Header m lower upper flags) : quad m (BitVec.ofInt 64 (-16) + lower) = upper := by
  rw [← header.upper, BitVec.add_comm, BitVec.sub_eq_add_neg]
  rfl

theorem Header.byte (header : Header m lower upper flags) : m (BitVec.ofInt 64 (-2) + lower) = flags := by
  rw [← header.flags, BitVec.add_comm, BitVec.sub_eq_add_neg]
  rfl

/-! ### Bounds -/

theorem null_guards : Guards m [.test .rcx .rcx, .jump .z fail] fail (s.get .rcx ≠ 0) s := by
  rw [Guards]
  simp only [run_test, run_jump, run_nil, holds_z, flags_flag, zero_logic, BitVec.and_self, decide_eq_true_eq]
  exact .jump .rfl (get_flag ..) (get_flag ..)

theorem above_guards : Guards m [.cmp (.reg .rcx) .rax, .jump .b fail] fail ((s.get .rcx).toNat ≤ (s.get .rax).toNat) s := by
  rw [Guards]
  simp only [run_cmp, run_jump, run_nil, holds_b, value_reg, flags_flag, carry_differ, decide_eq_true_eq]
  exact .jump Nat.not_lt (get_flag ..) (get_flag ..)

/-- Without the borrow's jump the size has room below the upper. -/
theorem upper_guards (header : Header m lower upper flags) (base : s.get .rcx = lower) (small : size < 2 ^ 31) (room : 16 ≤ upper.toNat) :
    Guards m ([.mov upperOf .rdx, .sub (.imm size) .rdx] ++ borrowCheck selection size fail ++ [.cmp (.reg .rdx) .rax, .jump .a fail]) fail
      ((s.get .rax).toNat + size ≤ upper.toNat) s := by
  have size_ := imm_toNat small
  have left := sub_toNat upper (BitVec.ofInt 64 size)
  rw [size_] at left
  rw [Guards, borrowCheck]
  split_ifs with short
  · simp only [cons_append, nil_append, append_nil, run_mov, run_sub, run_cmp, run_jump, run_nil, upperOf, value_mem, base,
      header.bound, value_imm, value_reg, holds_a, flags_flag, get_flag, get_set, carry_differ, zero_differ, if_true, reduceCtorEq, if_false,
      Bool.and_eq_true, Bool.not_eq_true', decide_eq_false_iff_not]
    rw [if_pos (Nat.le_trans short.2 room)] at left
    exact .jump (by omega) (by simp) (by simp)
  · simp only [cons_append, nil_append, run_mov, run_sub, run_cmp, run_jump, run_nil, upperOf, value_mem, base, header.bound,
      value_imm, value_reg, holds_a, holds_b, flags_flag, get_flag, get_set, carry_differ, zero_differ, if_true, reduceCtorEq, if_false,
      Bool.and_eq_true, Bool.not_eq_true', decide_eq_false_iff_not, decide_eq_true_eq, size_]
    refine .branch (fun borrow => ?_) fun enough => ?_
    · rw [run_seek (by simp)]
      exact .stops (by omega) (by simp) (by simp)
    · rw [if_pos (Nat.le_of_not_lt enough)] at left
      exact .jump (by omega) (by simp) (by simp)

theorem merged_guards (header : Header m lower upper flags) (base : s.get .rcx = lower) (positive : 1 ≤ size) (small : size < 2 ^ 31)
    (ordered : lower.toNat ≤ upper.toNat) (user : upper.toNat < 2 ^ 56) :
    Guards m (mergedBounds size fail) fail (lower.toNat ≤ (s.get .rax).toNat ∧ (s.get .rax).toNat + size ≤ upper.toNat) s := by
  have offset := sub_toNat (s.get .rax) lower
  have length_ := sub_toNat upper lower
  have bound := (s.get .rax).isLt
  rw [if_pos ordered] at length_
  rw [Guards, mergedBounds]
  split_ifs with long
  · have last_ := last_toNat positive small
    have valid := sub_toNat (upper - lower) (BitVec.ofInt 64 ((size : Int) - 1))
    rw [last_] at valid
    by_cases borrow : (upper - lower).toNat < size - 1 <;>
      simp only [cons_append, nil_append, run_mov, run_sub, run_cmp, run_cmov, run_jump, run_nil, upperOf, value_mem, base,
        header.bound, value_imm, value_reg, holds_ae, holds_b, flags_flag, get_flag, get_set, carry_differ, if_true, reduceCtorEq, if_false,
        last_, borrow, decide_true, decide_false, Bool.false_eq_true, Bool.not_eq_true', decide_eq_false_iff_not]
    · -- The object is shorter than the access, and the difference is compared with itself.
      exact .jump (by omega) (by simp) (by simp)
    · refine .jump ?_ (by simp) (by simp)
      split_ifs at * <;> omega
  · simp only [cons_append, nil_append, append_nil, run_mov, run_sub, run_cmp, run_jump, run_nil, upperOf, value_mem, base,
      header.bound, value_reg, holds_ae, flags_flag, get_flag, get_set, carry_differ, if_true, reduceCtorEq, if_false, Bool.not_eq_true',
      decide_eq_false_iff_not]
    refine .jump ?_ (by simp) (by simp)
    split_ifs at * <;> omega

/-- A term out of bounds is at least `2 ^ 56`, or negative. -/
theorem or_guards (header : Header m lower upper flags) (base : s.get .rcx = lower) (positive : 1 ≤ size) (small : size < 2 ^ 31)
    (ordered : lower.toNat ≤ upper.toNat) (user : upper.toNat < 2 ^ 56) :
    Guards m (orBounds size ++ [.shr 56 .rdx, .jump .nz fail]) fail
      (lower.toNat ≤ (s.get .rax).toNat ∧ (s.get .rax).toNat + size ≤ upper.toNat) s := by
  have offset := sub_toNat (s.get .rax) lower
  have length_ := sub_toNat upper (s.get .rax)
  have rest := sub_toNat (upper - s.get .rax) (BitVec.ofInt 64 size)
  have bound := (s.get .rax).isLt
  rw [imm_toNat small] at rest
  rw [Guards, orBounds]
  simp only [cons_append, nil_append, run_mov, run_sub, run_or, run_shr, run_jump, run_nil, upperOf, value_mem, base, header.bound,
    value_imm, value_reg, holds_nz, flags_flag, get_flag, get_set, if_true, reduceCtorEq, if_false, Bool.not_eq_true',
    decide_eq_false_iff_not, high_or]
  refine .jump ?_ (by simp) (by simp)
  split_ifs at * <;> omega

theorem no_borrow_label : Ins.label fail ∉ borrowCheck selection size fail := by
  rw [borrowCheck]
  split_ifs <;> simp

theorem no_shape_label : Ins.label fail ∉ boundsShape shape selection size fail := by
  cases shape <;> simp [boundsShape, mergedBounds, orBounds, no_borrow_label]

theorem shape_guards (exact_ : shape ≠ .sign) (header : Header m lower upper flags) (base : s.get .rcx = lower) (positive : 1 ≤ size)
    (small : size < 2 ^ 31) (room : 16 ≤ lower.toNat) (ordered : lower.toNat ≤ upper.toNat) (user : upper.toNat < 2 ^ 56) :
    Guards m (boundsShape shape selection size fail) fail (lower.toNat ≤ (s.get .rax).toNat ∧ (s.get .rax).toNat + size ≤ upper.toNat) s := by
  cases shape with
  | split =>
    have above : Guards m [.cmp (.reg .rcx) .rax, .jump .b fail] fail (lower.toNat ≤ (s.get .rax).toNat) s := base ▸ above_guards
    have none_ : Ins.label fail ∉ [.mov upperOf .rdx, .sub (.imm size) .rdx] ++ borrowCheck selection size fail ++
        [.cmp (.reg .rdx) .rax, .jump .a fail] := by simp [no_borrow_label]
    refine above.append (fun _ s' rax rcx => ?_) none_
    rw [← rax]
    exact upper_guards header (rcx.trans base) small (Nat.le_trans room ordered)
  | merged => exact merged_guards header base positive small ordered user
  | sign => exact absurd rfl exact_
  | or => exact or_guards header base positive small ordered user

/-! ### Flags -/

theorem testb_guards (mask : Nat) (header : Header m lower upper flags) (base : s.get .rcx = lower) :
    Guards m [.testb mask flagsOf, .jump .nz fail] fail (flags &&& BitVec.ofNat 8 mask = 0) s := by
  rw [Guards, flagsOf]
  simp only [run_testb, run_jump, run_nil, holds_nz, flags_flag, zero_logic, byte_mem, base, header.byte, Bool.not_eq_true',
    decide_eq_false_iff_not]
  exact .jump not_not (get_flag ..) (get_flag ..)

theorem write_guards (header : Header m lower upper flags) (base : s.get .rcx = lower) :
    Guards m (writeCheck write fail) fail (write = true → flags &&& 6 = 0) s := by
  cases write with
  | false => exact .goes nofun rfl rfl
  | true => exact (testb_guards 6 header base).iff ⟨fun clear _ => clear, fun clear => clear rfl⟩

theorem low_zero (w : Word) {k : Nat} (within : k ≤ 8) : w.setWidth 8 &&& BitVec.ofNat 8 (2 ^ k - 1) = 0 ↔ 2 ^ k ∣ w.toNat := by
  have divides : 2 ^ k ∣ 2 ^ 8 := Nat.pow_dvd_pow 2 within
  have mask : 2 ^ k - 1 < 2 ^ 8 := by have := Nat.pow_le_pow_right Nat.two_pos within; have := Nat.two_pow_pos k; omega
  rw [← BitVec.toNat_inj, BitVec.toNat_and, BitVec.toNat_setWidth, BitVec.toNat_ofNat, Nat.mod_eq_of_lt mask, Nat.and_two_pow_sub_one_eq_mod,
    Nat.mod_mod_of_dvd _ divides, Nat.dvd_iff_mod_eq_zero]
  rfl

theorem low_guards {k : Nat} (within : k ≤ 8) :
    Guards m [.testb (2 ^ k - 1) (.reg .rax), .jump .nz fail] fail (2 ^ k ∣ (s.get .rax).toNat) s := by
  rw [Guards]
  simp only [run_testb, run_jump, run_nil, holds_nz, flags_flag, zero_logic, byte_reg, Bool.not_eq_true', decide_eq_false_iff_not]
  exact .jump (not_not.trans (low_zero _ within)) (get_flag ..) (get_flag ..)

theorem align_guards : Guards m (alignCheck align fail) fail (Aligned align (s.get .rax)) s := by
  unfold alignCheck
  split
  · exact (low_guards (k := 1) (by decide)).iff ⟨fun aligned _ => aligned, fun aligned => aligned (by decide)⟩
  · exact (low_guards (k := 2) (by decide)).iff ⟨fun aligned _ => aligned, fun aligned => aligned (by decide)⟩
  · exact (low_guards (k := 3) (by decide)).iff ⟨fun aligned _ => aligned, fun aligned => aligned (by decide)⟩
  · exact .goes (fun listed => by simp_all) rfl rfl

/-! ### Full checks -/

theorem bounds_guards (exact_ : shape ≠ .sign) (capability : Capability lower upper) (header : lower ≠ 0 → Header m lower upper flags)
    (base : s.get .rcx = lower) (positive : 1 ≤ size) (small : size < 2 ^ 31) :
    Guards m (boundsCheck shape selection size fail) fail (Accessible (s.get .rax) lower upper size) s := by
  have nonnull : Guards m [.test .rcx .rcx, .jump .z fail] fail (lower ≠ 0) s := base ▸ null_guards
  refine nonnull.append (fun some_ s' rax rcx => ?_) no_shape_label
  obtain null | ⟨room, ordered, user⟩ := capability
  · exact absurd null some_
  · rw [← rax]
    exact shape_guards exact_ (header some_) (rcx.trans base) positive small room ordered user

theorem no_align_label : Ins.label fail ∉ alignCheck align fail := by
  unfold alignCheck
  split <;> simp

/-- The flags and the alignment are tested once the bounds passed. -/
theorem rest_guards {is is' : List Ins} {bounds flagged : Prop} (within : Guards m is fail bounds s)
    (next : bounds → ∀ s', s'.get .rcx = s.get .rcx → Guards m is' fail flagged s') (none_ : Ins.label fail ∉ is') :
    Guards m (is ++ is' ++ alignCheck align fail) fail (bounds ∧ flagged ∧ Aligned align (s.get .rax)) s := by
  have both := within.append (fun holds s' _ rcx => next holds s' rcx) none_
  refine (both.append (fun _ s' rax _ => ?_) no_align_label).iff and_assoc
  rw [← rax]
  exact align_guards

theorem access_guards (exact_ : shape ≠ .sign) (capability : Capability lower upper) (header : lower ≠ 0 → Header m lower upper flags)
    (base : s.get .rcx = lower) (positive : 1 ≤ size) (small : size < 2 ^ 31) :
    Guards m (accessCheck shape selection size write align fail) fail (Permitted (s.get .rax) lower upper flags size write align) s := by
  refine rest_guards (bounds_guards exact_ capability header base positive small) (fun within s' rcx => ?_) ?_
  · exact write_guards (header within.1) (rcx.trans base)
  · cases write <;> simp [writeCheck]

end Nanofil.Emission
