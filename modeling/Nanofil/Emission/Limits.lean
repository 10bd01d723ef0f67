import Nanofil.Emission.Checks

/-! A limit is read once, before a loop, and tested in it: the object may be freed in between. -/
namespace Nanofil.Emission
open Amd64

section
variable {m : Memory} {s : State} {fail done : String} {ptr lower upper later : Word} {flags : BitVec 8} {size : Nat} {write : Bool} {align : Nat}
  {shape : Shape} {selection : Selection}

/-- The limit of a lower and its upper, by the shape that reads it. -/
def limitOf (shape : Shape) (size : Nat) (lower upper : Word) : Nat :=
  match shape with
  | .split => if lower = 0 then 0 else upper.toNat - (size - 1)
  | .merged => if lower = 0 then 0 else upper.toNat - lower.toNat - (size - 1)
  | .sign | .or => if lower = 0 then 2 ^ 64 - 1 else (upper - BitVec.ofInt 64 size).toNat

/-- An outcome with a number in `%rdx`, with the registers `%rax` and `%rcx` as they were. -/
def Leaves (o : Outcome) (n : Nat) (s : State) : Prop :=
  ∃ s', o = .through s' ∧ (s'.get .rdx).toNat = n ∧ s'.get .rax = s.get .rax ∧ s'.get .rcx = s.get .rcx

theorem null_limit (base : s.get .rcx = 0) : Leaves (run m (limitValue shape size done) none s) (limitOf shape size 0 upper) s := by
  cases shape <;>
    simp only [limitValue, orLimitValue, limitOf, run_xorl, run_mov, run_test, run_jump, get_flag, get_set, reduceCtorEq, if_false, base, holds_z,
      flags_flag, zero_logic, BitVec.and_self, decide_true, if_true, run_past, run_at, run_nil, ne_eq, not_false_eq_true, value_imm] <;>
    exact ⟨_, rfl, by simp, by simp, by simp [base]⟩

theorem limit_leaves (capability : Capability lower upper) (header : lower ≠ 0 → Header m lower upper flags) (base : s.get .rcx = lower)
    (positive : 1 ≤ size) (small : size < 2 ^ 31) :
    Leaves (run m (limitValue shape size done) none s) (limitOf shape size lower upper) s := by
  obtain null | some_ := eq_or_ne lower 0
  · subst null
    exact null_limit base
  obtain null | ⟨-, ordered, -⟩ := capability
  · exact absurd null some_
  have last_ := last_toNat positive small
  have length_ := sub_toNat upper lower
  rw [if_pos ordered] at length_
  cases shape with
  | split =>
    have left := sub_toNat upper (BitVec.ofInt 64 ((size : Int) - 1))
    rw [last_] at left
    by_cases borrow : upper.toNat < size - 1 <;>
      simp only [limitValue, limitOf, run_xorl, run_mov, run_test, run_sub, run_jump, run_past, run_at, run_label, run_nil, get_flag, get_set,
        reduceCtorEq, ne_eq, not_false_eq_true, if_true, if_false, holds_z, holds_ae, flags_flag, zero_logic, carry_differ, BitVec.and_self,
        decide_false, decide_true, Bool.false_eq_true, Bool.not_true, Bool.not_false, upperOf, value_mem, value_imm, base, some_,
        (header some_).bound, last_, borrow]
    · exact ⟨_, rfl, by simp; omega, by simp, by simp⟩
    · rw [if_pos (Nat.le_of_not_lt borrow)] at left
      exact ⟨_, rfl, by simp [left], by simp, by simp⟩
  | merged =>
    have left := sub_toNat (upper - lower) (BitVec.ofInt 64 ((size : Int) - 1))
    rw [last_] at left
    by_cases borrow : (upper - lower).toNat < size - 1 <;>
      simp only [limitValue, limitOf, run_xorl, run_mov, run_test, run_sub, run_jump, run_past, run_at, run_label, run_nil, get_flag, get_set,
        reduceCtorEq, ne_eq, not_false_eq_true, if_true, if_false, holds_z, holds_ae, flags_flag, zero_logic, carry_differ, BitVec.and_self,
        decide_false, decide_true, Bool.false_eq_true, Bool.not_true, Bool.not_false, upperOf, value_mem, value_reg, value_imm, base, some_,
        (header some_).bound, last_, borrow]
    · exact ⟨_, rfl, by simp; omega, by simp, by simp⟩
    · rw [if_pos (Nat.le_of_not_lt borrow), length_] at left
      exact ⟨_, rfl, by simp [left], by simp, by simp⟩
  | sign | or =>
    simp only [limitValue, orLimitValue, limitOf, run_mov, run_test, run_sub, run_jump, run_label, run_nil, get_flag, get_set, reduceCtorEq,
      if_true, if_false, holds_z, flags_flag, zero_logic, BitVec.and_self, decide_false, Bool.false_eq_true, upperOf, value_mem, value_imm,
      base, some_, (header some_).bound]
    exact ⟨_, rfl, by simp, by simp, by simp⟩

/-! ### Their checks -/

theorem limit_guards (exact_ : shape ≠ .sign) (capability : Capability lower upper) (base : s.get .rcx = lower)
    (limit : (s.get .rdx).toNat = limitOf shape size lower upper) (positive : 1 ≤ size) (small : size < 2 ^ 31) :
    Guards m (limitShape shape fail) fail (Accessible (s.get .rax) lower upper size) s := by
  have offset := sub_toNat (s.get .rax) lower
  have bound := (s.get .rax).isLt
  have zero_ : lower = 0 ↔ lower.toNat = 0 := BitVec.toNat_inj.symm
  simp only [Capability, zero_] at capability
  simp only [Guards, Accessible, ne_eq, zero_]
  cases shape with
  | split =>
    simp only [limitShape, run_cmp, run_jump, run_nil, holds_b, holds_ae, value_reg, flags_flag, get_flag, carry_differ, decide_eq_true_eq,
      Bool.not_eq_true', decide_eq_false_iff_not, base]
    simp only [limitOf, zero_] at limit
    refine .branch (fun below => ?_) fun above => ?_
    · rw [run_seek (by simp)]
      exact .stops (by omega) (by simp) (by simp)
    · refine .jump ?_ (by simp) (by simp)
      split_ifs at * <;> omega
  | merged =>
    simp only [limitShape, run_mov, run_sub, run_cmp, run_jump, run_nil, holds_ae, value_reg, flags_flag, get_flag, get_set, reduceCtorEq,
      if_true, if_false, carry_differ, Bool.not_eq_true', decide_eq_false_iff_not, base]
    simp only [limitOf, zero_] at limit
    refine .jump ?_ (by simp) (by simp)
    split_ifs at * <;> omega
  | sign => exact absurd rfl exact_
  | or =>
    have last_ := sub_toNat upper (BitVec.ofInt 64 size)
    have rest := sub_toNat (s.get .rdx) (s.get .rax)
    rw [imm_toNat small] at last_
    simp only [limitShape, orLimitTerms, List.cons_append, List.nil_append, run_mov, run_sub, run_or, run_shr, run_jump, run_nil, holds_nz,
      value_reg, flags_flag, get_flag, get_set, reduceCtorEq, if_true, if_false, Bool.not_eq_true', decide_eq_false_iff_not, base, high_or]
    simp only [limitOf, zero_] at limit
    refine .jump ?_ (by simp) (by simp)
    split_ifs at * <;> omega

theorem free_clear (clear : flags &&& 6 = 0) : flags &&& 4 = 0 := by
  have mask : (6 : BitVec 8) &&& 4 = 4 := rfl
  rw [← mask, ← BitVec.and_assoc, clear]
  rfl

/-- A freed object has no bytes, so the free flag adds nothing to the bounds as they are then. -/
theorem since_permitted (since : lower ≠ 0 → Since lower upper later flags) (positive : 1 ≤ size) :
    Accessible ptr lower upper size ∧ flags &&& BitVec.ofNat 8 (renewMask write) = 0 ↔
      Accessible ptr lower later size ∧ (write = true → flags &&& 6 = 0) := by
  by_cases null : lower = 0
  · exact ⟨fun both => absurd null both.1.1, fun both => absurd null both.1.1⟩
  obtain ⟨same, free⟩ | ⟨empty, freed⟩ := since null
  · rw [same]
    cases write with
    | false => exact and_congr_right fun _ => ⟨nofun, fun _ => free⟩
    | true => exact and_congr_right fun _ => ⟨fun clear _ => clear, fun clear => clear rfl⟩
  · refine ⟨fun both => absurd ?_ freed, fun both => ?_⟩
    · cases write with
      | false => exact both.2
      | true => exact free_clear both.2
    · have := both.1.2.1
      have := empty ▸ both.1.2.2
      omega

theorem flags_guards (header : Header m lower later flags) (base : s.get .rcx = lower) :
    Guards m (flagsCheck write fail) fail (flags &&& BitVec.ofNat 8 (renewMask write) = 0) s := testb_guards _ header base

/-- The lines of a limit's check, with the limit as its value's lines left it, stop where the full check would then. -/
theorem limit_check_guards (exact_ : shape ≠ .sign) (capability : Capability lower upper) (since : lower ≠ 0 → Since lower upper later flags)
    (header : lower ≠ 0 → Header m lower later flags) (base : s.get .rcx = lower)
    (limit : (s.get .rdx).toNat = limitOf shape size lower upper) (positive : 1 ≤ size) (small : size < 2 ^ 31) :
    Guards m (limitCheck shape write fail ++ alignCheck align fail) fail (Permitted (s.get .rax) lower later flags size write align) s := by
  have bounds : Guards m _ fail _ s := limit_guards exact_ capability base limit positive small
  refine (rest_guards bounds (fun within s' rcx => flags_guards (header within.1) (rcx.trans base)) (by simp [flagsCheck])).iff ?_
  rw [← and_assoc, since_permitted since positive, and_assoc]
  rfl

/-! ### Half checks -/

theorem at_distance (p1 : Word) (lo d0 lo1 : Int) : p1 + BitVec.ofInt 64 d0 + BitVec.ofInt 64 lo =
    p1 + BitVec.ofInt 64 lo1 + BitVec.ofInt 64 ((d0 + 2 ^ 63) % 2 ^ 64 - 2 ^ 63 + lo - lo1) := by
  apply BitVec.eq_of_toNat_eq
  simp only [BitVec.toNat_add, BitVec.toNat_ofInt]
  omega

/-- A near offset from a user address is exact, taken signed. -/
theorem near_toInt (w : Word) {e : Int} (user : w.toNat < 2 ^ 56) (near : nearOffset e = true) : (w + BitVec.ofInt 64 e).toInt = w.toNat + e := by
  rw [nearOffset, Bool.and_eq_true, decide_eq_true_eq, decide_eq_true_eq] at near
  rw [BitVec.toInt_eq_toNat_bmod, BitVec.toNat_add, BitVec.toNat_ofInt, Int.bmod_def]
  omega

theorem user_toInt (user : lower.toNat < 2 ^ 56) : lower.toInt = lower.toNat := by
  rw [BitVec.toInt_eq_toNat_cond, if_pos (by omega)]

theorem signed_guards (base : s.get .rcx = lower) (user : lower.toNat < 2 ^ 56) :
    Guards m [.cmp (.reg .rcx) .rax, .jump .l fail] fail ((lower.toNat : Int) ≤ (s.get .rax).toInt) s := by
  rw [Guards, ← user_toInt user]
  simp only [run_cmp, run_jump, run_nil, holds_l, value_reg, flags_flag, decide_eq_true_eq, base]
  exact .jump Int.not_lt (get_flag ..) (get_flag ..)

/-- What the earlier check leaves known of the access: its end for `lower`, its start for `upper`. -/
theorem half_known {bound : Bound} {p1 : Word} {lo hi d0 lo1 hi1 : Int} (known : halfKnown bound lo hi d0 lo1 hi1 = true)
    (user : upper.toNat < 2 ^ 56) (passed : Accessible (p1 + BitVec.ofInt 64 lo1) lower upper (hi1 - lo1).toNat) (ordered : lo1 < hi1)
    (at_ : ptr = p1 + BitVec.ofInt 64 d0 + BitVec.ofInt 64 lo) (length_ : hi - lo = size) :
    match bound with
    | .upper => lower.toNat ≤ ptr.toNat
    | .lower => ptr.toInt + size ≤ upper.toNat ∧ (0 ≤ ptr.toInt → ptr.toInt = ptr.toNat) := by
  obtain ⟨-, above, within⟩ := passed
  simp only [halfKnown, Bool.and_eq_true, decide_eq_true_eq] at known
  obtain ⟨⟨⟨near, -⟩, -⟩, side⟩ := known
  rw [at_distance p1 lo d0 lo1] at at_
  have exact_ := near_toInt (p1 + BitVec.ofInt 64 lo1) (by omega) near
  rw [← at_] at exact_
  have signed := BitVec.toInt_eq_toNat_cond ptr
  have bound_ := ptr.isLt
  cases bound with
  | upper =>
    simp only [halfSide, decide_eq_true_eq] at side
    split_ifs at signed <;> omega
  | lower =>
    simp only [halfSide, decide_eq_true_eq] at side
    split_ifs at signed <;> omega

theorem half_guards {bound : Bound} {p1 : Word} {lo hi d0 lo1 hi1 : Int} (known : halfKnown bound lo hi d0 lo1 hi1 = true)
    (capability : Capability lower upper) (passed : Accessible (p1 + BitVec.ofInt 64 lo1) lower upper (hi1 - lo1).toNat) (ordered : lo1 < hi1)
    (since : Since lower upper later flags) (header : Header m lower later flags) (base : s.get .rcx = lower)
    (at_ : s.get .rax = p1 + BitVec.ofInt 64 d0 + BitVec.ofInt 64 lo) (length_ : hi - lo = size) (positive : 1 ≤ size) (small : size < 2 ^ 31) :
    Guards m (halfBounds bound selection size write fail ++ alignCheck align fail) fail
      (Permitted (s.get .rax) lower later flags size write align) s := by
  have some_ := passed.1
  obtain null | ⟨room, _, user⟩ := capability
  · exact absurd null some_
  have facts := half_known known user passed ordered at_ length_
  cases bound with
  | upper =>
    have wide : 16 ≤ later.toNat := by
      obtain ⟨same, -⟩ | ⟨empty, -⟩ := since
      · rw [same]
        omega
      · rwa [empty]
    refine (rest_guards (upper_guards header base small wide) (fun _ s' rcx => write_guards header (rcx.trans base)) ?_).iff ?_
    · cases write <;> simp [writeCheck]
    · rw [Permitted, Accessible, and_assoc, and_assoc]
      exact ⟨fun both => ⟨some_, facts, both⟩, fun both => both.2.2⟩
  | lower =>
    have bounds : Guards m [.cmp (.reg .rcx) .rax, .jump .l fail] fail (Accessible (s.get .rax) lower upper size) s := by
      refine (signed_guards base (by omega)).iff ⟨fun above => ?_, fun permitted => ?_⟩
      · have := facts.2 (by omega)
        exact ⟨some_, by omega, by omega⟩
      · obtain ⟨_, above, within⟩ := permitted
        have := BitVec.toInt_eq_toNat_cond (s.get .rax)
        split_ifs at this <;> omega
    refine (rest_guards bounds (fun _ s' rcx => flags_guards header (rcx.trans base)) (by simp [flagsCheck])).iff ?_
    rw [← and_assoc, since_permitted (fun _ => since) positive, and_assoc]
    rfl

end

/-! A span test gives a number and never stops; its addresses are taken modulo `2 ^ 64`. -/

variable {m : Memory} {s : State} {l zero done : String} {ptr lower upper later : Word} {flags : BitVec 8} {lo hi off : Int} {reg : Reg}
  {shape : Shape} {size : Nat}

/-- The address an offset from a pointer, modulo `2 ^ 64`. -/
def spanAt (ptr : Word) (off : Int) : Nat := ((ptr.toNat + off) % 2 ^ 64).toNat

def InSpan (ptr lower upper : Word) (lo hi : Int) : Prop :=
  lower ≠ 0 ∧ lower.toNat ≤ spanAt ptr lo ∧ spanAt ptr lo < spanAt ptr hi ∧ spanAt ptr hi ≤ upper.toNat

theorem off_toNat (ptr : Word) (off : Int) : (BitVec.ofInt 64 off + ptr).toNat = spanAt ptr off := by
  rw [BitVec.toNat_add, BitVec.toNat_ofInt, spanAt]
  omega

theorem wide_off (off : Int) : BitVec.ofInt 64 (off % 18446744073709551616) = BitVec.ofInt 64 off := by
  apply BitVec.eq_of_toNat_eq
  rw [BitVec.toNat_ofInt, BitVec.toNat_ofInt]
  omega

theorem run_spanEnd (off : Int) (reg : Reg) (s : State) : ∃ s', (∀ is, run m (spanEnd off reg ++ is) none s = run m is none s') ∧
    (s'.get reg).toNat = spanAt (s.get .rax) off ∧ ∀ r, r ≠ reg → r ≠ .rsi → s'.get r = s.get r := by
  rw [spanEnd]
  split_ifs with near
  · refine ⟨_, fun is => run_lea .., ?_, fun r other _ => ?_⟩
    · rw [get_set, if_pos rfl, address_mem, off_toNat]
    · rw [get_set, if_neg other]
  · refine ⟨_, fun is => (run_movabs ..).trans (run_lea ..), ?_, fun r other scratch => ?_⟩
    · simp [wide_off, BitVec.add_comm, ← off_toNat]
    · rw [get_set, if_neg other, get_set, if_neg scratch]

theorem no_span_label : Ins.label l ∉ spanEnd off reg := by
  rw [spanEnd]
  split_ifs <;> simp

theorem span_test (distinct : zero ≠ done) (header : lower ≠ 0 → Header m lower upper flags) (base : s.get .rcx = lower) :
    ∃ s', run m (spanTest lo hi zero done) none s = .through s' ∧ (InSpan (s.get .rax) lower upper lo hi → s'.get .rax = 1) ∧
      (¬InSpan (s.get .rax) lower upper lo hi → s'.get .rax = 0) := by
  rw [InSpan]
  simp only [spanTest, List.append_assoc, List.cons_append, List.nil_append, run_test, run_jump, holds_z, flags_flag, zero_logic,
    BitVec.and_self, base, decide_eq_true_eq]
  split_ifs with null
  · simp only [run_over no_span_label, run_past, run_at, run_xorl, run_label, run_nil, ne_eq, reduceCtorEq, not_false_eq_true]
    exact ⟨_, rfl, fun holds => absurd null holds.1, fun _ => by simp⟩
  obtain ⟨s₁, first, start, kept⟩ := run_spanEnd (m := m) lo .rdx (s.flag (logic lower))
  have lower₁ : s₁.get .rcx = lower := by rw [kept .rcx nofun nofun, get_flag, base]
  have ptr₁ : s₁.get .rax = s.get .rax := by rw [kept .rax nofun nofun, get_flag]
  rw [get_flag] at start
  rw [first]
  simp only [run_cmp, run_jump, holds_b, flags_flag, value_reg, carry_differ, decide_eq_true_eq, lower₁, start]
  split_ifs with below
  · simp only [run_over no_span_label, run_past, run_at, run_xorl, run_label, run_nil, ne_eq, reduceCtorEq, not_false_eq_true]
    exact ⟨_, rfl, fun holds => absurd below (Nat.not_lt_of_le holds.2.1), fun _ => by simp⟩
  obtain ⟨s₂, second, end_, kept'⟩ := run_spanEnd (m := m) hi .rax (s₁.flag (differ (s₁.get .rdx) lower))
  have lower₂ : s₂.get .rcx = lower := by rw [kept' .rcx nofun nofun, get_flag, lower₁]
  have start₂ : (s₂.get .rdx).toNat = spanAt (s.get .rax) lo := by rw [kept' .rdx nofun nofun, get_flag, start]
  rw [get_flag, ptr₁] at end_
  rw [second]
  simp only [run_cmp, run_jump, holds_be, holds_a, flags_flag, get_flag, value_reg, carry_differ, zero_differ, Bool.or_eq_true,
    Bool.and_eq_true, Bool.not_eq_true', decide_eq_false_iff_not, decide_eq_true_eq, start₂, end_, upperOf, value_mem, lower₂, (header null).bound]
  split_ifs with empty beyond
  · simp only [run_past, run_at, run_xorl, run_label, run_nil, ne_eq, reduceCtorEq, not_false_eq_true]
    exact ⟨_, rfl, fun holds => by omega, fun _ => by simp⟩
  · simp only [run_past, run_at, run_xorl, run_label, run_nil, ne_eq, reduceCtorEq, not_false_eq_true]
    exact ⟨_, rfl, fun holds => by omega, fun _ => by simp⟩
  · simp only [run_movl, run_jmp, run_past, run_at, run_nil, ne_eq, reduceCtorEq, not_false_eq_true, Ins.label.injEq, distinct]
    refine ⟨_, rfl, fun _ => by simp, fun fails => absurd ?_ fails⟩
    exact ⟨null, by omega, by omega, by omega⟩

/-! ### Every check -/

theorem Capability.since (capability : Capability lower upper) (since : lower ≠ 0 → Since lower upper later flags) : Capability lower later := by
  obtain null | ⟨room, ordered, user⟩ := capability
  · exact .inl null
  by_cases null : lower = 0
  · exact .inl null
  obtain ⟨rfl, -⟩ | ⟨rfl, -⟩ := since null
  · exact .inr ⟨room, ordered, user⟩
  · exact .inr ⟨room, Nat.le_refl _, by omega⟩

/-- Full checks, limits with their checks at any later moment, spans and half checks decide what the IR says; the later checks decide it of
the object as it is by then. -/
theorem checks_exact (exact_ : shape ≠ .sign) (capability : Capability lower upper) (positive : 1 ≤ size) (small : size < 2 ^ 31)
    (selection : Selection) (write : Bool) (align : Nat) (fail zero done : String) (distinct : zero ≠ done) :
    (∀ m s flags, s.get .rcx = lower → (lower ≠ 0 → Header m lower upper flags) →
      Guards m (boundsCheck shape selection size fail) fail (Accessible (s.get .rax) lower upper size) s ∧
      Guards m (accessCheck shape selection size write align fail) fail (Permitted (s.get .rax) lower upper flags size write align) s) ∧
    (∀ m s flags, s.get .rcx = lower → (lower ≠ 0 → Header m lower upper flags) →
      ∃ s', run m (limitValue shape size done) none s = .through s' ∧ s'.get .rax = s.get .rax ∧ s'.get .rcx = s.get .rcx ∧
        ∀ m' t later flags', t.get .rcx = lower → t.get .rdx = s'.get .rdx → (lower ≠ 0 → Header m' lower later flags') →
          (lower ≠ 0 → Since lower upper later flags') →
          Guards m' (limitCheck shape write fail ++ alignCheck align fail) fail (Permitted (t.get .rax) lower later flags' size write align) t ∧
          Guards m' (accessCheck shape selection size write align fail) fail
            (Permitted (t.get .rax) lower later flags' size write align) t) ∧
    (∀ m s flags lo hi, s.get .rcx = lower → (lower ≠ 0 → Header m lower upper flags) →
      ∃ s', run m (spanTest lo hi zero done) none s = .through s' ∧ (InSpan (s.get .rax) lower upper lo hi → s'.get .rax = 1) ∧
        (¬InSpan (s.get .rax) lower upper lo hi → s'.get .rax = 0)) ∧
    (∀ m s flags later bound p1 lo hi d0 lo1 hi1, s.get .rcx = lower → halfKnown bound lo hi d0 lo1 hi1 = true → lo1 < hi1 →
      Accessible (p1 + BitVec.ofInt 64 lo1) lower upper (hi1 - lo1).toNat → hi - lo = size →
      s.get .rax = p1 + BitVec.ofInt 64 d0 + BitVec.ofInt 64 lo → Header m lower later flags → Since lower upper later flags →
      Guards m (halfBounds bound selection size write fail ++ alignCheck align fail) fail
        (Permitted (s.get .rax) lower later flags size write align) s ∧
      Guards m (accessCheck shape selection size write align fail) fail (Permitted (s.get .rax) lower later flags size write align) s) := by
  refine ⟨fun m s flags base header => ⟨?_, ?_⟩, fun m s flags base header => ?_, fun m s flags lo hi base header => ?_, ?_⟩
  · exact bounds_guards exact_ capability header base positive small
  · exact access_guards exact_ capability header base positive small
  · obtain ⟨s', through, limit, rax, rcx⟩ := @limit_leaves m s done lower upper flags size shape capability header base positive small
    refine ⟨s', through, rax, rcx, fun m' t later flags' base' same header' since => ⟨?_, ?_⟩⟩
    · exact limit_check_guards exact_ capability since header' base' (same ▸ limit) positive small
    · exact access_guards exact_ (capability.since since) header' base' positive small
  · exact span_test distinct header base
  · intro m s flags later bound p1 lo hi d0 lo1 hi1 base known ordered passed length_ at_ header since
    refine ⟨?_, ?_⟩
    · exact half_guards known capability passed ordered since header base at_ length_ positive small
    · exact access_guards exact_ (capability.since fun _ => since) (fun _ => header) base positive small

/-- An object of four bytes, after its header. -/
def four : Memory := fun a => if a = 4080 then 4 else if a = 4081 then 16 else 0

/-- Its read as eight bytes stops. -/
theorem checks_exact_four :
    ∃ s', run four (boundsCheck .merged .stack 8 "fail") none ⟨4096, 4096, 0, 0, ⟨false, false, false, false⟩⟩ = .left "fail" s' := by
  have header : Header four 4096 4100 0 := ⟨by decide, by decide⟩
  have exact_ := @checks_exact 4096 4100 .merged 8 nofun (.inr (by decide)) (by decide) (by decide) .stack false 1 "fail" "zero" "done"
    (by decide)
  refine (exact_.1 four _ 0 rfl fun _ => header).1.left.2 fun within => ?_
  exact absurd within.2.2 (by decide)

end Nanofil.Emission
