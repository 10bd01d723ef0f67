import Mathlib.Data.BitVec
import Mathlib.Tactic.SplitIfs

/-! Lines of x86-64 code whose jumps go forward: four registers, flags, a memory that is only read. -/
namespace Amd64

abbrev Word := BitVec 64

/-- A byte for each address. -/
abbrev Memory := Word → BitVec 8

def quad (m : Memory) (a : Word) : Word :=
  m (a + 7) ++ m (a + 6) ++ m (a + 5) ++ m (a + 4) ++ m (a + 3) ++ m (a + 2) ++ m (a + 1) ++ m a

inductive Reg
  | rax | rcx | rdx | rsi
deriving DecidableEq, Repr

structure Flags where
  carry : Bool
  zero : Bool
  sign : Bool
  overflow : Bool
deriving DecidableEq, Repr

structure State where
  rax : Word
  rcx : Word
  rdx : Word
  rsi : Word
  flags : Flags
deriving DecidableEq, Repr

/-- An address is a displacement from one register or from the sum of two. -/
inductive Operand
  | reg (r : Reg)
  | imm (n : Int)
  | mem (disp : Int) (base : Reg)
  | sum (disp : Int) (base index : Reg)
deriving DecidableEq, Repr

/-- Conditions of jumps and moves, by their suffixes. -/
inductive Cond
  | b | ae | a | be | z | nz | s | l
deriving DecidableEq, Repr

/-- Quads but for the suffixes `l` and `b`; sources come first. -/
inductive Ins
  | mov (src : Operand) (dst : Reg)
  | movl (n : Int) (dst : Reg)
  | movabs (n : Int) (dst : Reg)
  | lea (src : Operand) (dst : Reg)
  | cmov (c : Cond) (src dst : Reg)
  | cmp (src : Operand) (dst : Reg)
  | sub (src : Operand) (dst : Reg)
  | test (src dst : Reg)
  | testb (n : Nat) (dst : Operand)
  | or (src dst : Reg)
  | xorl (src dst : Reg)
  | shr (n : Nat) (dst : Reg)
  | jump (c : Cond) (label : String)
  | jmp (label : String)
  | label (name : String)
deriving DecidableEq, Repr

def State.get (s : State) : Reg → Word
  | .rax => s.rax
  | .rcx => s.rcx
  | .rdx => s.rdx
  | .rsi => s.rsi

def State.set (s : State) (r : Reg) (w : Word) : State :=
  match r with
  | .rax => { s with rax := w }
  | .rcx => { s with rcx := w }
  | .rdx => { s with rdx := w }
  | .rsi => { s with rsi := w }

def State.flag (s : State) (f : Flags) : State := { s with flags := f }

def State.address (s : State) : Operand → Word
  | .mem d base => BitVec.ofInt 64 d + s.get base
  | .sum d base index => BitVec.ofInt 64 d + s.get base + s.get index
  | _ => 0

def State.value (m : Memory) (s : State) : Operand → Word
  | .reg r => s.get r
  | .imm n => BitVec.ofInt 64 n
  | o => quad m (s.address o)

def State.byte (m : Memory) (s : State) : Operand → BitVec 8
  | .reg r => (s.get r).setWidth 8
  | .imm n => BitVec.ofInt 8 n
  | o => m (s.address o)

/-- The flags of a difference. -/
def differ (a b : Word) : Flags :=
  ⟨a.toNat < b.toNat, a = b, (a - b).msb, (a - b).toInt ≠ a.toInt - b.toInt⟩

/-- The flags of a result of logic. -/
def logic {n : Nat} (w : BitVec n) : Flags := ⟨false, w = 0, w.msb, false⟩

def Cond.holds (f : Flags) : Cond → Bool
  | .b => f.carry
  | .ae => !f.carry
  | .a => !f.carry && !f.zero
  | .be => f.carry || f.zero
  | .z => f.zero
  | .nz => !f.zero
  | .s => f.sign
  | .l => f.sign != f.overflow

/-- What an instruction that is no jump leaves. -/
def Ins.exec (m : Memory) (s : State) : Ins → State
  | .mov src dst => s.set dst (s.value m src)
  | .movl n dst => s.set dst ((BitVec.ofInt 32 n).setWidth 64)
  | .movabs n dst => s.set dst (BitVec.ofInt 64 n)
  | .lea src dst => s.set dst (s.address src)
  | .cmov c src dst => if c.holds s.flags then s.set dst (s.get src) else s
  | .cmp src dst => s.flag (differ (s.get dst) (s.value m src))
  | .sub src dst => (s.set dst (s.get dst - s.value m src)).flag (differ (s.get dst) (s.value m src))
  | .test src dst => s.flag (logic (s.get dst &&& s.get src))
  | .testb n dst => s.flag (logic (s.byte m dst &&& BitVec.ofNat 8 n))
  | .or src dst => (s.set dst (s.get dst ||| s.get src)).flag (logic (s.get dst ||| s.get src))
  | .xorl src dst =>
    let low := (s.get dst).setWidth 32 ^^^ (s.get src).setWidth 32
    (s.set dst (low.setWidth 64)).flag (logic low)
  | .shr n dst =>
    let w := s.get dst >>> n
    (s.set dst w).flag ⟨(s.get dst).getLsbD (n - 1), w = 0, w.msb, n = 1 && (s.get dst).msb⟩
  | _ => s

/-- Lines are left at their end, or for a label that does not come. -/
inductive Outcome
  | through (s : State)
  | left (label : String) (s : State)
deriving DecidableEq, Repr

/-- A jump's lines are passed until its label comes. -/
def run (m : Memory) : List Ins → Option String → State → Outcome
  | [], none, s => .through s
  | [], some l, s => .left l s
  | i :: is, some l, s => run m is (if i = .label l then none else some l) s
  | i :: is, none, s =>
    match i with
    | .jump c l => run m is (if c.holds s.flags then some l else none) s
    | .jmp l => run m is (some l) s
    | i => run m is none (i.exec m s)

variable {m : Memory} {is is' : List Ins} {s : State} {l : String} {a b : Word} {p q : Prop}

/-! ### Reading and writing -/

section
variable (m : Memory) (is : List Ins) (s : State) (l : String) (c : Cond)

@[simp] theorem get_set (r r' : Reg) (w : Word) : (s.set r w).get r' = if r' = r then w else s.get r' := by cases r <;> cases r' <;> rfl

@[simp] theorem get_flag (f : Flags) (r : Reg) : (s.flag f).get r = s.get r := by cases r <;> rfl

@[simp] theorem flags_flag (f : Flags) : (s.flag f).flags = f := rfl

@[simp] theorem value_reg (r : Reg) : s.value m (.reg r) = s.get r := rfl

@[simp] theorem value_imm (n : Int) : s.value m (.imm n) = BitVec.ofInt 64 n := rfl

@[simp] theorem value_mem (d : Int) (r : Reg) : s.value m (.mem d r) = quad m (BitVec.ofInt 64 d + s.get r) := rfl

@[simp] theorem address_mem (d : Int) (r : Reg) : s.address (.mem d r) = BitVec.ofInt 64 d + s.get r := rfl

@[simp] theorem address_sum (d : Int) (r r' : Reg) : s.address (.sum d r r') = BitVec.ofInt 64 d + s.get r + s.get r' := rfl

@[simp] theorem byte_mem (d : Int) (r : Reg) : s.byte m (.mem d r) = m (BitVec.ofInt 64 d + s.get r) := rfl

@[simp] theorem byte_reg (r : Reg) : s.byte m (.reg r) = (s.get r).setWidth 8 := rfl

@[simp] theorem run_nil : run m [] none s = .through s := rfl

@[simp] theorem run_jump : run m (.jump c l :: is) none s = if c.holds s.flags then run m is (some l) s else run m is none s := by
  rw [run]
  split_ifs <;> rfl

@[simp] theorem run_jmp : run m (.jmp l :: is) none s = run m is (some l) s := rfl

@[simp] theorem run_label : run m (.label l :: is) none s = run m is none s := rfl

@[simp] theorem run_mov (src : Operand) (dst : Reg) : run m (.mov src dst :: is) none s = run m is none (s.set dst (s.value m src)) := rfl

@[simp] theorem run_movl (n : Int) (dst : Reg) :
    run m (.movl n dst :: is) none s = run m is none (s.set dst ((BitVec.ofInt 32 n).setWidth 64)) := rfl

@[simp] theorem run_movabs (n : Int) (dst : Reg) : run m (.movabs n dst :: is) none s = run m is none (s.set dst (BitVec.ofInt 64 n)) := rfl

@[simp] theorem run_lea (src : Operand) (dst : Reg) : run m (.lea src dst :: is) none s = run m is none (s.set dst (s.address src)) := rfl

@[simp] theorem run_cmov (src dst : Reg) :
    run m (.cmov c src dst :: is) none s = run m is none (if c.holds s.flags then s.set dst (s.get src) else s) := rfl

@[simp] theorem run_cmp (src : Operand) (dst : Reg) :
    run m (.cmp src dst :: is) none s = run m is none (s.flag (differ (s.get dst) (s.value m src))) := rfl

@[simp] theorem run_sub (src : Operand) (dst : Reg) : run m (.sub src dst :: is) none s =
    run m is none ((s.set dst (s.get dst - s.value m src)).flag (differ (s.get dst) (s.value m src))) := rfl

@[simp] theorem run_test (src dst : Reg) :
    run m (.test src dst :: is) none s = run m is none (s.flag (logic (s.get dst &&& s.get src))) := rfl

@[simp] theorem run_testb (n : Nat) (dst : Operand) :
    run m (.testb n dst :: is) none s = run m is none (s.flag (logic (s.byte m dst &&& BitVec.ofNat 8 n))) := rfl

@[simp] theorem run_or (src dst : Reg) : run m (.or src dst :: is) none s =
    run m is none ((s.set dst (s.get dst ||| s.get src)).flag (logic (s.get dst ||| s.get src))) := rfl

@[simp] theorem run_shr (n : Nat) (dst : Reg) : run m (.shr n dst :: is) none s = run m is none ((s.set dst (s.get dst >>> n)).flag
    ⟨(s.get dst).getLsbD (n - 1), s.get dst >>> n = 0, (s.get dst >>> n).msb, n = 1 && (s.get dst).msb⟩) := rfl

/-- The idiom that clears a register. -/
@[simp] theorem run_xorl (dst : Reg) : run m (.xorl dst dst :: is) none s = run m is none ((s.set dst 0).flag ⟨false, true, false, false⟩) := by
  rw [run, Ins.exec]
  · simp [logic]
  all_goals nofun

@[simp] theorem run_at : run m (.label l :: is) (some l) s = run m is none s := by rw [run, if_pos rfl]

@[simp] theorem run_past (i : Ins) (other : i ≠ .label l) : run m (i :: is) (some l) s = run m is (some l) s := by rw [run, if_neg other]

@[simp] theorem holds_b (f : Flags) : Cond.b.holds f = f.carry := rfl

@[simp] theorem holds_ae (f : Flags) : Cond.ae.holds f = !f.carry := rfl

@[simp] theorem holds_a (f : Flags) : Cond.a.holds f = (!f.carry && !f.zero) := rfl

@[simp] theorem holds_be (f : Flags) : Cond.be.holds f = (f.carry || f.zero) := rfl

@[simp] theorem holds_z (f : Flags) : Cond.z.holds f = f.zero := rfl

@[simp] theorem holds_nz (f : Flags) : Cond.nz.holds f = !f.zero := rfl

end

@[simp] theorem carry_differ : (differ a b).carry = decide (a.toNat < b.toNat) := rfl

@[simp] theorem zero_differ : (differ a b).zero = decide (a.toNat = b.toNat) := by
  rw [differ, decide_eq_decide]
  exact BitVec.toNat_inj.symm

@[simp] theorem zero_logic {n : Nat} (w : BitVec n) : (logic w).zero = decide (w = 0) := rfl

/-- `jl` compares as signed. -/
@[simp] theorem holds_l : Cond.l.holds (differ a b) = decide (a.toInt < b.toInt) := by
  have lowA : -2 ^ 63 ≤ a.toInt := BitVec.le_toInt a
  have highA : a.toInt < 2 ^ 63 := BitVec.toInt_lt
  have lowB : -2 ^ 63 ≤ b.toInt := BitVec.le_toInt b
  have highB : b.toInt < 2 ^ 63 := BitVec.toInt_lt
  have difference := @BitVec.toInt_sub 64 a b
  rw [Int.bmod_def] at difference
  rw [Cond.holds, differ, BitVec.msb_eq_toInt, Bool.eq_iff_iff, bne_iff_ne, Ne, decide_eq_decide, decide_eq_true_eq]
  split_ifs at difference <;> omega

/-! ### Words -/

theorem sub_toNat (a b : Word) : (a - b).toNat = if b.toNat ≤ a.toNat then a.toNat - b.toNat else a.toNat + 2 ^ 64 - b.toNat := by
  rw [BitVec.toNat_sub]
  have lowA := a.isLt
  have lowB := b.isLt
  split_ifs <;> omega

theorem high_or (a b : Word) : (a ||| b) >>> 56 = 0 ↔ a.toNat < 2 ^ 56 ∧ b.toNat < 2 ^ 56 := by
  have high (n : Nat) : n / 2 ^ 56 = 0 ↔ n < 2 ^ 56 := by omega
  rw [← BitVec.toNat_inj, BitVec.toNat_ushiftRight, BitVec.toNat_or, Nat.shiftRight_eq_div_pow]
  refine (high _).trans ⟨fun both => ⟨?_, ?_⟩, fun ⟨first, second⟩ => Nat.or_lt_two_pow first second⟩
  · exact Nat.lt_of_le_of_lt Nat.left_le_or both
  · exact Nat.lt_of_le_of_lt Nat.right_le_or both

/-! ### Running -/

/-- Lines after lines: what is left for a label is left for it in the later lines too, if they do not have it. -/
theorem run_append {seek : Option String} : run m (is ++ is') seek s =
    match run m is seek s with
    | .through s => run m is' none s
    | .left l s => run m is' (some l) s := by
  induction is generalizing seek s with
  | nil => cases seek <;> rfl
  | cons i is ih =>
    cases seek with
    | some l => rw [List.cons_append, run, run, ih]
    | none => cases i <;> rw [List.cons_append, run, run] <;> first | exact ih | nofun

theorem run_seek (none_ : Ins.label l ∉ is) : run m is (some l) s = .left l s := by
  induction is with
  | nil => rfl
  | cons i is ih =>
    rw [List.mem_cons, not_or] at none_
    rw [run, if_neg (Ne.symm none_.1), ih none_.2]

theorem run_over (none_ : Ins.label l ∉ is) : run m (is ++ is') (some l) s = run m is' (some l) s := by rw [run_append, run_seek none_]

/-- An outcome that goes on if something holds, and is left for a label if not, with the registers `%rax` and `%rcx` as they were. -/
def Tests (o : Outcome) (l : String) (p : Prop) (s : State) : Prop :=
  ∃ s', s'.get .rax = s.get .rax ∧ s'.get .rcx = s.get .rcx ∧ (p → o = .through s') ∧ (¬p → o = .left l s')

theorem Tests.goes {s' : State} (holds : p) (rax : s'.get .rax = s.get .rax) (rcx : s'.get .rcx = s.get .rcx) :
    Tests (.through s') l p s := ⟨s', rax, rcx, fun _ => rfl, fun fails => absurd holds fails⟩

theorem Tests.stops {s' : State} (fails : ¬p) (rax : s'.get .rax = s.get .rax) (rcx : s'.get .rcx = s.get .rcx) :
    Tests (.left l s') l p s := ⟨s', rax, rcx, fun holds => absurd holds fails, fun _ => rfl⟩

theorem Tests.branch {c : Prop} [Decidable c] {o o' : Outcome} (taken : c → Tests o l p s) (not_ : ¬c → Tests o' l p s) :
    Tests (if c then o else o') l p s := by
  split_ifs with holds
  exacts [taken holds, not_ holds]

theorem Tests.jump {c : Prop} [Decidable c] {s' : State} (agrees : ¬c ↔ p) (rax : s'.get .rax = s.get .rax) (rcx : s'.get .rcx = s.get .rcx) :
    Tests (if c then run m [] (some l) s' else .through s') l p s :=
  .branch (fun taken => .stops (fun holds => agrees.2 holds taken) rax rcx) fun not_ => .goes (agrees.1 not_) rax rcx

def Guards (m : Memory) (is : List Ins) (l : String) (p : Prop) (s : State) : Prop := Tests (run m is none s) l p s

theorem Guards.left (guards : Guards m is l p s) : (∃ s', run m is none s = .left l s') ↔ ¬p := by
  obtain ⟨s', -, -, goes, stops⟩ := guards
  refine ⟨fun ⟨_, left⟩ holds => ?_, fun fails => ⟨s', stops fails⟩⟩
  rw [goes holds] at left
  cases left

theorem Guards.iff (guards : Guards m is l p s) (same : p ↔ q) : Guards m is l q s := by
  rwa [← propext same]

theorem Guards.append (first : Guards m is l p s) (next : p → ∀ s', s'.get .rax = s.get .rax → s'.get .rcx = s.get .rcx → Guards m is' l q s')
    (none_ : Ins.label l ∉ is') : Guards m (is ++ is') l (p ∧ q) s := by
  obtain ⟨s', rax, rcx, goes, stops⟩ := first
  by_cases holds : p
  · obtain ⟨s'', rax', rcx', goes', stops'⟩ := next holds s' rax rcx
    refine ⟨s'', rax'.trans rax, rcx'.trans rcx, fun both => ?_, fun fails => ?_⟩
    · rw [run_append, goes holds]
      exact goes' both.2
    · rw [run_append, goes holds]
      exact stops' fun later => fails ⟨holds, later⟩
  · refine ⟨s', rax, rcx, fun both => absurd both.1 holds, fun _ => ?_⟩
    rw [run_append, stops holds]
    exact run_seek none_

end Amd64
