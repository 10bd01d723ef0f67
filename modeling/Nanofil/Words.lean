import Nanofil.Patterns
import Nanofil.Regions
import Nanofil.Valid
import Nanofil.Lib.Ends

/-! The words a class has, and the results of the operations on them: each operation gives a
word of its result's class, whatever words of its operands' classes it reads. -/
namespace Nanofil
open Results Bits

/-- The failures that stand for code the interpreter does not have. -/
def Gap (e : RunError) : Prop := e = .setjmp ∨ ∃ n, e = .external n

def Registered (mem : Mem) (base : Int) : Prop := ∃ r, objectRegion base mem.regions = .ok r

/-- A capability names a registered object, or a function that can be called. -/
def CapOk (prep : Prep) (mem : Mem) (c : Cap) : Prop :=
  (∀ base, capBase c = some base → Registered mem base) ∧ ∀ f, c = .fn f → (prep.funcs f).isSome

/-- The symbols' addresses and those that memory has given out lie below `2 ^ 64`. -/
structure AddressesFit (prep : Prep) (mem : Mem) : Prop where
  symbols : ∀ g a, (prep.globals g = some (.int a) ∨ ∃ c, prep.globals g = some (.ptr a c)) → a < 2 ^ 64
  next : mem.next ≤ 2 ^ 64

def classWidth (k : Cls) : Nat := ((classTable k).map (·.2)).getD 0

/-- An integer in the range of a class that may hold an address. -/
def Within (prep : Prep) (mem : Mem) (k : Cls) (n : Int) : Prop :=
  0 ≤ n ∧ ((k = .l ∨ k = .p → AddressesFit prep mem) → n < 2 ^ classWidth k)

inductive WordOk (prep : Prep) (mem : Mem) : Cls → Word → Prop
  | int {k : Cls} {n : Int} : numericClass k = true → Within prep mem k n → WordOk prep mem k (.int n)
  | ptr {a : Int} {c : Cap} : CapOk prep mem c → Within prep mem .p a → WordOk prep mem .p (.ptr a c)
  | proof {k : Cls} {a : Int} {c : Cap} : proofClass k = true → CapOk prep mem c → WordOk prep mem k (.ptr a c)

section
variable {prep : Prep} {mem : Mem}

/-! ### Ranges -/

theorem modulus_width {k : Cls} {m : Int} (known : modulus k = some m) : m = 2 ^ classWidth k := by
  cases k <;> cases known <;> rfl

variable {n x y : Int} {op : Op} {ck : Cls} {xs : List Word} {f : Ieee.Fmt}

theorem Within.fits {k : Cls} (fits : Fits (classWidth k) n) : Within prep mem k n :=
  ⟨fits.1, fun _ => fits.2⟩

theorem Within.emod {k : Cls} {m : Int} (known : modulus k = some m) (n : Int) : Within prep mem k (n % m) := by
  rw [modulus_width known]
  exact .fits (fits_emod n _)

/-- What follows from two operands' ranges alone. -/
theorem Within.of_two {k : Cls} (hx : Within prep mem k x) (hy : Within prep mem k y) (low : 0 ≤ n)
    (fits : Fits (classWidth k) x → Fits (classWidth k) y → n < 2 ^ classWidth k) : Within prep mem k n :=
  ⟨low, fun address => fits ⟨hx.1, hx.2 address⟩ ⟨hy.1, hy.2 address⟩⟩

theorem Within.le {k : Cls} (hx : Within prep mem k x) (low : 0 ≤ n) (le : n ≤ x) : Within prep mem k n :=
  ⟨low, fun address => lt_of_le_of_lt le (hx.2 address)⟩

/-- Only a class that addresses have may hold more than its bits. -/
theorem Within.bits {k : Cls} (within : Within prep mem k n) (notLong : k ≠ .l) (notPointer : k ≠ .p) : Fits (classWidth k) n :=
  ⟨within.1, within.2 fun h => by rcases h with h | h <;> contradiction⟩

theorem bit_within {k : Cls} (int : intClass k = true) (b : Bool) : Within prep mem k (bit b) := by
  refine .fits ⟨?_, ?_⟩
  · cases b <;> simp [bit]
  · cases k <;> cases int <;> cases b <;> decide

theorem intClass_cases {k : Cls} (int : intClass k = true) : k = .w ∨ k = .l := by
  cases k <;> simp_all [intClass, classTable]

/-! ### Integers -/

theorem ends_orNoRule {α : Type} {x : Option α} {Q : α → Prop} (known : x.isSome) (holds : ∀ a, x = some a → Q a) :
    Ends Gap Q (orNoRule x) := by
  cases x with
  | none => cases known
  | some a => exact holds a rfl

theorem modulus_known {k : Cls} (any : anyClass k = true) : (modulus k).isSome := by
  cases k <;> first | rfl | cases any

theorem signed_ends {k : Cls} (int : intClass k = true) (u : Int) : Ends Gap (fun _ => True) (signed k u) := by
  rcases intClass_cases int with rfl | rfl <;> exact trivial

/-- What ends in a reduction is in range. -/
theorem ends_emod {k : Cls} (int : intClass k = true) (n : Int) :
    Ends Gap (Within prep mem k) (do return n % (← orNoRule (modulus k))) := by
  refine Ends.bind (ends_orNoRule (Q := fun m => modulus k = some m) ?_ fun a h => h) fun m known => ?_
  · rcases intClass_cases int with rfl | rfl <;> rfl
  · exact Ends.pure (Within.emod known n)

theorem shiftFactor_ends {k : Cls} (int : intClass k = true) (y : Int) : Ends Gap (0 < ·) (shiftFactor k y) := by
  have positive : ∀ n : Nat, (0 : Int) < 2 ^ n := fun n => by positivity
  rcases intClass_cases int with rfl | rfl <;> exact positive _

theorem tdiv_within {k : Cls} (hx : Within prep mem k x) (hy : 0 ≤ y) : Within prep mem k (x.tdiv y) := by
  rw [Int.tdiv_eq_ediv_of_nonneg hx.1]
  exact hx.le (Int.ediv_nonneg hx.1 hy) (Int.ediv_le_self y hx.1)

theorem signedDivision_ends {k : Cls} (int : intClass k = true) (x y : Int) (div : Int → Int → Int) :
    Ends Gap (Within prep mem k) (signedDivision k x y div) := by
  refine Ends.bind (signed_ends int x) fun sx _ => Ends.bind (signed_ends int y) fun sy _ => ?_
  split
  · exact Ends.pure (.fits ⟨le_rfl, by positivity⟩)
  · exact ends_emod int _

def arithmeticOp : Op → Bool
  | .add | .sub | .mul | .div | .udiv | .rem | .urem | .and | .or | .xor => true
  | _ => false

theorem intOp_ends {k : Cls} (arithmetic : arithmeticOp op = true) (int : intClass k = true)
    (hx : Within prep mem k x) (hy : Within prep mem k y) : Ends Gap (Within prep mem k) (intOp op k x y) := by
  unfold intOp
  cases op <;> cases arithmetic
  case add => exact ends_emod int _
  case sub => exact ends_emod int _
  case mul => exact ends_emod int _
  case and => exact Ends.pure (.of_two hx hy (land_nonneg hx.1 hy.1) fun fx fy => (fits_land fx fy).2)
  case or => exact Ends.pure (.of_two hx hy (lor_nonneg hx.1 hy.1) fun fx fy => (fits_lor fx fy).2)
  case xor => exact Ends.pure (.of_two hx hy (xor_nonneg hx.1 hy.1) fun fx fy => (fits_xor fx fy).2)
  case div => exact signedDivision_ends int _ _ _
  case rem => exact signedDivision_ends int _ _ _
  case udiv =>
    refine Ends.pure ?_
    unfold unsignedDivision
    split
    · exact hx.le le_rfl hx.1
    · exact tdiv_within hx hy.1
  case urem =>
    refine Ends.pure ?_
    unfold unsignedDivision
    split
    · exact hx.le le_rfl hx.1
    · rename_i nonzero
      refine hy.le (Int.emod_nonneg x nonzero) (Int.emod_lt_of_pos x ?_).le
      exact lt_of_le_of_ne hy.1 (Ne.symm nonzero)

def shiftOp : Op → Bool
  | .sar | .shr | .shl => true
  | _ => false

theorem shift_ends {k : Cls} (shift : shiftOp op = true) (int : intClass k = true)
    (hx : Within prep mem k x) (y : Int) : Ends Gap (Within prep mem k) (intOp op k x y) := by
  unfold intOp
  cases op <;> cases shift
  case shl => exact Ends.bind (shiftFactor_ends int y) fun f _ => ends_emod int _
  case shr => exact Ends.bind (shiftFactor_ends int y) fun f positive => Ends.pure (tdiv_within hx positive.le)
  case sar =>
    exact Ends.bind (signed_ends int x) fun sx _ => Ends.bind (shiftFactor_ends int y) fun f _ => ends_emod int _

theorem condBit_ends {c : Cond} {k : Cls} (cond : cmpCond c = true) (compared : intClass ck = true)
    (int : intClass k = true) (x y : Int) : Ends Gap (Within prep mem k) (condBit c ck x y) := by
  have bits : ∀ b, Ends Gap (Within prep mem k) (.ok (bit b)) := fun b => Ends.ok (bit_within int b)
  unfold condBit
  cases c <;> cases cond
  case eq => exact bits _
  case ne => exact bits _
  case ult => exact bits _
  case ule => exact bits _
  case ugt => exact bits _
  case uge => exact bits _
  all_goals exact Ends.bind (signed_ends compared x) fun sx _ => Ends.bind (signed_ends compared y) fun sy _ => bits _

theorem extension_ends {t : LoadType} (narrow : (narrowType t).isSome) (x : Int) :
    Ends Gap (fun _ => True) (extension t x) := by
  cases t <;> cases narrow <;> exact trivial

/-! ### Words -/

theorem WordOk.toInt {k : Cls} {x : Word} (ok : WordOk prep mem k x) (numeric : numericClass k = true) :
    ∃ n, x = .int n ∧ Within prep mem k n := by
  cases ok with
  | int _ within => exact ⟨_, rfl, within⟩
  | ptr => cases numeric
  | proof proof =>
    cases k <;> cases numeric <;> cases proof

theorem WordOk.toPtr {x : Word} (ok : WordOk prep mem .p x) :
    ∃ a c, x = .ptr a c ∧ CapOk prep mem c ∧ Within prep mem .p a := by
  cases ok with
  | int numeric => cases numeric
  | ptr cap within => exact ⟨_, _, rfl, cap, within⟩
  | proof proof => cases proof

theorem WordOk.toProof {k : Cls} {x : Word} (ok : WordOk prep mem k x) (proof : proofClass k = true) :
    ∃ a c, x = .ptr a c ∧ CapOk prep mem c := by
  cases ok with
  | int numeric => cases k <;> cases numeric <;> cases proof
  | ptr => cases proof
  | proof _ cap => exact ⟨_, _, rfl, cap⟩

theorem numeric_int {k : Cls} (int : intClass k = true) : numericClass k = true := by
  rw [numericClass, int, Bool.true_or]

theorem numeric_float {k : Cls} (float : floatClass k = true) : numericClass k = true := by
  rw [numericClass, float, Bool.or_true]

theorem capOk_none : CapOk prep mem .none := ⟨fun _ h => by (cases h), fun _ h => by (cases h)⟩

theorem capOk_ext (n : Name) : CapOk prep mem (.ext n) := ⟨fun _ h => by (cases h), fun _ h => by (cases h)⟩

/-- The words of the classes at which a list of operands is read. -/
abbrev WordsOk (prep : Prep) (mem : Mem) (ks : List Cls) (xs : List Word) : Prop := List.Forall₂ (WordOk prep mem) ks xs

theorem WordsOk.one {k : Cls} (ok : WordsOk prep mem [k] xs) : ∃ x, xs = [x] ∧ WordOk prep mem k x := by
  cases ok with
  | cons head rest =>
    cases rest
    exact ⟨_, rfl, head⟩

theorem WordsOk.two {k j : Cls} (ok : WordsOk prep mem [k, j] xs) :
    ∃ x y, xs = [x, y] ∧ WordOk prep mem k x ∧ WordOk prep mem j y := by
  cases ok with
  | cons head rest =>
    obtain ⟨y, rfl, hy⟩ := WordsOk.one rest
    exact ⟨_, y, rfl, head, hy⟩

theorem WordsOk.three {k j i : Cls} (ok : WordsOk prep mem [k, j, i] xs) :
    ∃ x y z, xs = [x, y, z] ∧ WordOk prep mem k x ∧ WordOk prep mem j y ∧ WordOk prep mem i z := by
  cases ok with
  | cons head rest =>
    obtain ⟨y, z, rfl, hy, hz⟩ := WordsOk.two rest
    exact ⟨_, y, z, rfl, head, hy, hz⟩

/-! ### Operations on integers and pointers -/

theorem alu_arithmetic {k : Cls} (arithmetic : arithmeticOp op = true)
    (int : intClass k = true) (ok : WordsOk prep mem [k, k] xs) : Ends Gap (WordOk prep mem k) (alu op k xs) := by
  obtain ⟨x, y, rfl, hx, hy⟩ := ok.two
  obtain ⟨a, rfl, ha⟩ := hx.toInt (numeric_int int)
  obtain ⟨b, rfl, hb⟩ := hy.toInt (numeric_int int)
  have step : alu op k [.int a, .int b] = (do return .int (← intOp op k a b)) := by
    cases op <;> rfl
  rw [step]
  exact (intOp_ends arithmetic int ha hb).bind fun n within => Ends.pure (.int (numeric_int int) within)

theorem alu_shift {k : Cls} (shift : shiftOp op = true) (int : intClass k = true)
    (ok : WordsOk prep mem [k, .w] xs) : Ends Gap (WordOk prep mem k) (alu op k xs) := by
  obtain ⟨x, y, rfl, hx, hy⟩ := ok.two
  obtain ⟨a, rfl, ha⟩ := hx.toInt (numeric_int int)
  obtain ⟨b, rfl, _⟩ := hy.toInt rfl
  have step : alu op k [.int a, .int b] = (do return .int (← intOp op k a b)) := by
    cases op <;> rfl
  rw [step]
  exact (shift_ends shift int ha b).bind fun n within => Ends.pure (.int (numeric_int int) within)

theorem alu_compare {c : Cond} {k : Cls} (cond : cmpCond c = true) (compared : intClass ck = true)
    (int : intClass k = true) (ok : WordsOk prep mem [ck, ck] xs) :
    Ends Gap (WordOk prep mem k) (alu (.cmp c ck) k xs) := by
  obtain ⟨x, y, rfl, hx, hy⟩ := ok.two
  obtain ⟨a, rfl, _⟩ := hx.toInt (numeric_int compared)
  obtain ⟨b, rfl, _⟩ := hy.toInt (numeric_int compared)
  exact (condBit_ends cond compared int a b).bind fun n within => Ends.pure (.int (numeric_int int) within)

theorem alu_neg {k : Cls} (int : intClass k = true) (ok : WordsOk prep mem [k] xs) :
    Ends Gap (WordOk prep mem k) (alu .neg k xs) := by
  obtain ⟨x, rfl, hx⟩ := ok.one
  obtain ⟨a, rfl, _⟩ := hx.toInt (numeric_int int)
  refine (ends_orNoRule (Q := fun m => modulus k = some m) ?_ fun a h => h).bind
    fun m known => Ends.pure (.int (numeric_int int) (.emod known (-a)))
  rcases intClass_cases int with rfl | rfl <;> rfl

theorem alu_copy {k : Cls} (ok : WordsOk prep mem [k] xs) : Ends Gap (WordOk prep mem k) (alu .copy k xs) := by
  obtain ⟨x, rfl, hx⟩ := ok.one
  have step : alu .copy k [x] = .ok x := by cases x <;> rfl
  rw [step]
  exact Ends.ok hx

theorem alu_ptoi (ok : WordsOk prep mem [.p] xs) : Ends Gap (WordOk prep mem .l) (alu .ptoi .l xs) := by
  obtain ⟨x, rfl, hx⟩ := ok.one
  obtain ⟨a, c, rfl, _, within⟩ := hx.toPtr
  exact Ends.ok (.int rfl ⟨within.1, fun fit => within.2 fun _ => fit (.inl rfl)⟩)

theorem alu_itop (ok : WordsOk prep mem [.l] xs) : Ends Gap (WordOk prep mem .p) (alu .itop .p xs) := by
  obtain ⟨x, rfl, hx⟩ := ok.one
  obtain ⟨a, rfl, within⟩ := hx.toInt rfl
  exact Ends.ok (.ptr capOk_none ⟨within.1, fun fit => within.2 fun _ => fit (.inr rfl)⟩)

theorem alu_ext {t : LoadType} {k : Cls} (narrow : (narrowType t).isSome) (int : intClass k = true)
    (ok : WordsOk prep mem [.w] xs) : Ends Gap (WordOk prep mem k) (alu (.ext t) k xs) := by
  obtain ⟨x, rfl, hx⟩ := ok.one
  obtain ⟨a, rfl, _⟩ := hx.toInt rfl
  refine (extension_ends narrow a).bind fun n _ => (ends_orNoRule (Q := fun m => modulus k = some m) ?_ fun a h => h).bind
    fun m known => Ends.pure (.int (numeric_int int) (.emod known n))
  rcases intClass_cases int with rfl | rfl <;> rfl

theorem additive_pointer (additive : op = .add ∨ op = .sub)
    (ok : WordsOk prep mem [.p, .l] xs) : Ends Gap (WordOk prep mem .p) (additiveRes .p op xs) := by
  obtain ⟨x, y, rfl, hx, hy⟩ := ok.two
  obtain ⟨a, c, rfl, cap, _⟩ := hx.toPtr
  obtain ⟨b, rfl, _⟩ := hy.toInt rfl
  have range : ∀ n : Int, Within prep mem .p (n % 18446744073709551616) := fun n => .emod (k := .p) rfl n
  rcases additive with rfl | rfl <;> exact Ends.ok (.ptr cap (range _))

/-! ### Operations on floats -/

theorem fmt_width {k : Cls} (format : fmt k = some f) : Ieee.patternBits f = classWidth k := by
  cases k <;> cases format <;> rfl

theorem float_known {k : Cls} (float : floatClass k = true) : ∃ f, fmt k = some f := by
  cases k <;> cases float <;> exact ⟨_, rfl⟩

theorem WordOk.pattern {k : Cls} {x : Word} (ok : WordOk prep mem k x) (format : fmt k = some f) :
    ∃ n, x = .int n ∧ Ieee.Pattern f n := by
  have numeric : numericClass k = true ∧ k ≠ .l ∧ k ≠ .p := by
    cases k <;> cases format <;> exact ⟨rfl, by decide, by decide⟩
  obtain ⟨n, rfl, within⟩ := ok.toInt numeric.1
  refine ⟨n, rfl, ?_⟩
  rw [Ieee.Pattern, fmt_width format]
  exact within.bits numeric.2.1 numeric.2.2

theorem wordOk_pattern {k : Cls} (format : fmt k = some f) (pattern : Ieee.Pattern f n) : WordOk prep mem k (.int n) := by
  refine .int ?_ (.fits ?_)
  · cases k <;> cases format <;> rfl
  · rw [← fmt_width format]
    exact pattern

theorem floatArithmetic_two {k : Cls} (format : fmt k = some f) (known : (floatOp op).isSome) (ok : WordsOk prep mem [k, k] xs) :
    Ends Gap (WordOk prep mem k) (floatArithmetic op f xs) := by
  obtain ⟨x, y, rfl, hx, hy⟩ := ok.two
  obtain ⟨a, rfl, ha⟩ := hx.pattern format
  obtain ⟨b, rfl, hb⟩ := hy.pattern format
  have step : floatArithmetic op f [.int a, .int b] = (do return .int (Ieee.ieeeBinary f (← orNoRule (floatOp op)) a b)) := by
    cases op <;> rfl
  rw [step]
  exact (ends_orNoRule (Q := fun _ => True) known fun _ _ => trivial).bind fun arith _ =>
    Ends.pure (wordOk_pattern format (Ieee.ieeeBinary_pattern ha hb))

theorem floatArithmetic_one {k : Cls} (format : fmt k = some f) (one : op = .copy ∨ op = .neg) (ok : WordsOk prep mem [k] xs) :
    Ends Gap (WordOk prep mem k) (floatArithmetic op f xs) := by
  obtain ⟨x, rfl, hx⟩ := ok.one
  obtain ⟨a, rfl, ha⟩ := hx.pattern format
  rcases one with rfl | rfl
  · exact Ends.ok (wordOk_pattern format ha)
  · exact Ends.ok (wordOk_pattern format (Ieee.ieeeNeg_pattern ha))

theorem ieeeCompare_within (f : Ieee.Fmt) (c : Cond) (a b : Int) :
    Within prep mem .w (Ieee.ieeeCompare f c a b) := by
  refine .fits ?_
  unfold Ieee.ieeeCompare
  split <;> exact ⟨by decide, by decide⟩

theorem floatConvert_ends {k : Cls} (result : kindResultOk .floatConvert op .filc k = true)
    (classes : kindArgClasses .floatConvert op k .filc = some [ck]) (ok : WordsOk prep mem [ck] xs) :
    ∃ n, xs = [.int n] ∧ Ends Gap (WordOk prep mem k) (floatConvert op k n) := by
  obtain ⟨x, rfl, hx⟩ := ok.one
  have convert : ∀ {src dst : Ieee.Fmt} {n : Int}, fmt k = some dst → Ieee.Pattern src n →
      WordOk prep mem k (.int (Ieee.ieeeConvert src dst n)) :=
    fun format pattern => wordOk_pattern format (Ieee.ieeeConvert_pattern _ pattern)
  unfold kindArgClasses at classes
  dsimp only at classes
  split at classes <;> cases classes
  · obtain ⟨n, rfl, pattern⟩ := hx.pattern (f := .s) rfl
    cases k <;> cases result <;> exact ⟨n, rfl, convert rfl pattern⟩
  · obtain ⟨n, rfl, pattern⟩ := hx.pattern (f := .d) rfl
    cases k <;> cases result
    exact ⟨n, rfl, convert rfl pattern⟩
  · obtain ⟨n, rfl, pattern⟩ := hx.pattern (f := .d) rfl
    cases k <;> cases result
    exact ⟨n, rfl, convert rfl pattern⟩
  · obtain ⟨n, rfl, pattern⟩ := hx.pattern (f := .x) rfl
    cases k <;> cases result <;> exact ⟨n, rfl, convert rfl pattern⟩

/-- A conversion to an integer gives one of the class, or is undefined. -/
theorem floatInteger_ends {k : Cls} (source : (floatSource op).isSome) (int : intClass k = true) (n : Int) :
    Ends Gap (fun r => ∀ x, r = .val x → WordOk prep mem k x) (floatInteger op k n) := by
  refine (ends_orNoRule (Q := fun _ => True) source fun _ _ => trivial).bind fun src _ =>
    (ends_orNoRule (Q := fun m => modulus k = some m) ?_ fun a h => h).bind fun m known => ?_
  · rcases intClass_cases int with rfl | rfl <;> rfl
  · cases Ieee.ieeeToInt src.1 n with
    | none => exact Ends.ok fun x value => by cases value
    | some v =>
      have only : ∀ {p : Prop} [Decidable p] {x : Word},
          (if p then Res.val (.int (v % m)) else .ub .floatConversion) = .val x → x = .int (v % m) := by
        intro p _ x value
        split at value <;> cases value
        rfl
      refine Ends.ok fun x value => ?_
      cases only value
      exact .int (numeric_int int) (.emod known v)

theorem integerSource_ends (source : op = .swtof ∨ op = .sltof ∨ op = .uwtof ∨ op = .ultof) (n : Int) :
    Ends Gap (fun _ => True) (integerSource op n) := by
  rcases source with rfl | rfl | rfl | rfl <;> exact trivial

end

end Nanofil
