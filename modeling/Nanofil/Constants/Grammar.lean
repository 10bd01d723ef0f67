import Mathlib.Data.Nat.Digits.Defs
import Mathlib.Data.List.TakeWhile
import Mathlib.Tactic.FinCases
import Mathlib.Tactic.IntervalCases
import Nanofil.Constants.Lexing
import Nanofil.Rounding

/-! The constants of C11 6.4.4.1 and 6.4.4.2 and the binary integers, with their values: spellings as the standard
puts them together, apart from any reading of them. -/
namespace Nanofil.Constants
open List
open Switching (IntType)

/-- A pp-number (6.4.8), `$` among the letters. -/
inductive PpNumber : List Char → Prop
  | digit {c : Char} (digit : decimal c = true) : PpNumber [c]
  | point {c : Char} (digit : decimal c = true) : PpNumber ['.', c]
  | char {cs : List Char} {c : Char} (spelled : PpNumber cs) (char : identChar c = true ∨ c = '.') : PpNumber (cs ++ [c])
  | exponent {cs : List Char} {e s : Char} (spelled : PpNumber cs) (mark : e ∈ ['e', 'E', 'p', 'P'])
      (sign : s ∈ ['+', '-']) : PpNumber (cs ++ [e, s])

/-! ### Digits -/

def isDigit (base : Nat) (c : Char) : Bool :=
  match digitWeight c with
  | some w => w < base
  | none => false

def AllDigits (base : Nat) (ds : List Char) : Prop := ∀ d ∈ ds, isDigit base d = true

/-- The number that digits spell, the most significant first. -/
def value (base : Nat) (ds : List Char) : Nat := Nat.ofDigits base (ds.reverse.map fun d => (digitWeight d).getD 0)

/-! ### Integer constants -/

inductive SuffixSpelling : List Char → Suffix → Prop
  | none : SuffixSpelling [] .none
  | u {a : Char} (u : a ∈ ['u', 'U']) : SuffixSpelling [a] .u
  | l {b : Char} (l : b ∈ ['l', 'L']) : SuffixSpelling [b] .l
  | ll {b : Char} (l : b ∈ ['l', 'L']) : SuffixSpelling [b, b] .ll
  | ul {a b : Char} (u : a ∈ ['u', 'U']) (l : b ∈ ['l', 'L']) : SuffixSpelling [a, b] .ul
  | lu {a b : Char} (u : a ∈ ['u', 'U']) (l : b ∈ ['l', 'L']) : SuffixSpelling [b, a] .ul
  | ull {a b : Char} (u : a ∈ ['u', 'U']) (l : b ∈ ['l', 'L']) : SuffixSpelling [a, b, b] .ull
  | llu {a b : Char} (u : a ∈ ['u', 'U']) (l : b ∈ ['l', 'L']) : SuffixSpelling [b, b, a] .ull

/-- A spelling, its value, and what selects its type. -/
inductive IntegerConstant : List Char → Nat → Suffix → Radix → Prop
  | decimal {d : Char} {ds tail : List Char} {s : Suffix} (nonzero : d ≠ '0') (digits : AllDigits 10 (d :: ds))
      (suffix : SuffixSpelling tail s) : IntegerConstant (d :: ds ++ tail) (value 10 (d :: ds)) s .dec
  | octal {ds tail : List Char} {s : Suffix} (digits : AllDigits 8 ds) (suffix : SuffixSpelling tail s) :
      IntegerConstant ('0' :: ds ++ tail) (value 8 ds) s .other
  | hexadecimal {x : Char} {ds tail : List Char} {s : Suffix} (mark : x ∈ ['x', 'X']) (filled : ds ≠ [])
      (digits : AllDigits 16 ds) (suffix : SuffixSpelling tail s) :
      IntegerConstant ('0' :: x :: ds ++ tail) (value 16 ds) s .other
  | binary {x : Char} {ds tail : List Char} {s : Suffix} (mark : x ∈ ['b', 'B']) (filled : ds ≠ [])
      (digits : AllDigits 2 ds) (suffix : SuffixSpelling tail s) :
      IntegerConstant ('0' :: x :: ds ++ tail) (value 2 ds) s .other

def Suffix.unsigned : Suffix → Bool
  | .u | .ul | .ull => true
  | _ => false

/-- The least rank that the suffix asks for. -/
def Suffix.rank : Suffix → Nat
  | .none | .u => 3
  | .l | .ul => 4
  | .ll | .ull => 5

/-- The types that a constant may have, in their order. -/
def listed (radix : Radix) (suffix : Suffix) : List IntType :=
  [.int, .uint, .long, .ulong, .llong, .ullong].filter fun t =>
    suffix.rank ≤ (Switching.integerType t).2.2 &&
      (if suffix.unsigned then Switching.sign t = .unsigned else radix = .other || Switching.sign t = .signed)

def largest (t : IntType) : Nat :=
  match Switching.sign t with
  | .signed => 2 ^ (8 * Switching.size t - 1) - 1
  | .unsigned => 2 ^ (8 * Switching.size t) - 1

/-- The first of the types that can hold the value. -/
def FirstHolding (v : Nat) (types : List IntType) (t : IntType) : Prop :=
  ∃ before after, types = before ++ t :: after ∧ v ≤ largest t ∧ ∀ u ∈ before, largest u < v

/-! ### Floating constants -/

/-- Digits, with or without a point among them or at an end, and their value. -/
inductive Mantissa (base : Nat) : List Char → ℚ → Prop
  | whole {ds : List Char} (filled : ds ≠ []) (digits : AllDigits base ds) : Mantissa base ds (value base ds)
  | point {before after : List Char} (filled : before ++ after ≠ []) (left : AllDigits base before)
      (right : AllDigits base after) :
      Mantissa base (before ++ '.' :: after) (value base before + value base after / (base : ℚ) ^ after.length)

inductive Sign : List Char → Int → Prop
  | none : Sign [] 1
  | plus : Sign ['+'] 1
  | minus : Sign ['-'] (-1)

/-- An exponent part after one of the marks, and its value. -/
inductive Exponent (marks : List Char) : List Char → Int → Prop
  | mk {c : Char} {sg ds : List Char} {s : Int} (mark : c ∈ marks) (sign : Sign sg s) (filled : ds ≠ [])
      (digits : AllDigits 10 ds) : Exponent marks (c :: sg ++ ds) (s * value 10 ds)

inductive FloatSuffix : List Char → FloatType → Prop
  | none : FloatSuffix [] .double
  | f {c : Char} (f : c ∈ ['f', 'F']) : FloatSuffix [c] .float
  | l {c : Char} (l : c ∈ ['l', 'L']) : FloatSuffix [c] .ldouble

/-- A spelling without a suffix, and its exact value. -/
inductive Magnitude : List Char → ℚ → Prop
  | fractional {m : List Char} {q : ℚ} (mantissa : Mantissa 10 m q) (point : '.' ∈ m) : Magnitude m q
  | scientific {m x : List Char} {q : ℚ} {n : Int} (mantissa : Mantissa 10 m q) (exponent : Exponent ['e', 'E'] x n) :
      Magnitude (m ++ x) (q * 10 ^ n)
  | hexadecimal {c : Char} {m x : List Char} {q : ℚ} {n : Int} (mark : c ∈ ['x', 'X']) (mantissa : Mantissa 16 m q)
      (exponent : Exponent ['p', 'P'] x n) : Magnitude ('0' :: c :: (m ++ x)) (q * 2 ^ n)

/-- A spelling, its exact value and its type. -/
inductive FloatingConstant : List Char → ℚ → FloatType → Prop
  | mk {body tail : List Char} {q : ℚ} {t : FloatType} (magnitude : Magnitude body q) (suffix : FloatSuffix tail t) :
      FloatingConstant (body ++ tail) q t

/-! ### Spellings that are neither and are read all the same -/

def NoInteger (cs : List Char) : Prop := ∀ v s r, ¬ IntegerConstant cs v s r

def NoFloating (cs : List Char) : Prop := ∀ q t, ¬ FloatingConstant cs q t

/-- Decimal digits without a point or an exponent, alone or with a suffix, that are no integer constant. -/
def BareDigits (cs : List Char) : Prop :=
  NoInteger cs ∧ ∃ ds tail t, cs = ds ++ tail ∧ ds ≠ [] ∧ AllDigits 10 ds ∧ FloatSuffix tail t

/-- A suffix of two long letters in different cases. -/
def MixedSuffix (tail : List Char) : Prop :=
  'l' ∈ tail ∧ 'L' ∈ tail ∧ tail.map suffixLower ∈ [['l', 'l'], ['u', 'l', 'l'], ['l', 'l', 'u']]

/-- An integer constant's digits with such a suffix. -/
def MixedLong (cs : List Char) : Prop :=
  ∃ body tail v r, cs = body ++ tail ∧ IntegerConstant body v .none r ∧ MixedSuffix tail

/-! Runs of digits as the code tells and reads them. -/

theorem digitValue_eq (c : Char) : digitValue c = digitWeight c := by
  have spelled (n : Nat) (eq : c.toNat = n) : c = Char.ofNat n := by rw [← eq, Char.ofNat_toNat]
  unfold digitValue
  split_ifs with number lower upper
  · obtain ⟨low, high⟩ := number
    generalize eq : c.toNat = n at low high
    obtain rfl := spelled n eq
    interval_cases n <;> rfl
  · obtain ⟨low, high⟩ := lower
    generalize eq : c.toNat = n at low high
    obtain rfl := spelled n eq
    interval_cases n <;> rfl
  · obtain ⟨low, high⟩ := upper
    generalize eq : c.toNat = n at low high
    obtain rfl := spelled n eq
    interval_cases n <;> rfl
  · have small : c ∉ ['0', '1', '2', '3', '4', '5', '6', '7', '8', '9', 'a', 'b', 'c', 'd', 'e', 'f'] := by
      intro mem
      fin_cases mem <;> simp_all
    have capital : c ∉ ['A', 'B', 'C', 'D', 'E', 'F'] := by
      intro mem
      fin_cases mem <;> simp_all
    rw [digitWeight, idxOf?_eq_none_iff.2 small, idxOf?_eq_none_iff.2 capital]
    rfl

theorem decimal_toNat (c : Char) : decimal c = decide (48 ≤ c.toNat ∧ c.toNat ≤ 57) := by
  rw [decimal, Bool.eq_iff_iff]
  simp only [Bool.and_eq_true, decide_eq_true_eq, Char.le_def, UInt32.le_iff_toNat_le]
  rfl

theorem decimal_eq (c : Char) : decimal c = isDigit 10 c := by
  rw [decimal_toNat, isDigit, ← digitValue_eq, digitValue, Bool.eq_iff_iff]
  split_ifs <;> simp <;> omega

theorem octDigit_eq (c : Char) : octDigit c = isDigit 8 c := by
  have below : c < '8' ↔ c.toNat < 56 := by
    rw [Char.lt_def, UInt32.lt_iff_toNat_lt]
    rfl
  rw [octDigit, decimal_toNat, isDigit, ← digitValue_eq, digitValue, Bool.eq_iff_iff]
  split_ifs <;> simp [below] <;> omega

theorem hexDigit_eq (c : Char) : hexDigit c = isDigit 16 c := by
  rw [hexDigit, isDigit, ← digitValue_eq, digitValue]
  split_ifs <;> simp <;> omega

theorem binDigit_eq (c : Char) : binDigit c = isDigit 2 c := by
  have zero : c = '0' ↔ c.toNat = 48 := Char.toNat_inj.symm
  have one : c = '1' ↔ c.toNat = 49 := Char.toNat_inj.symm
  rw [binDigit, isDigit, ← digitValue_eq, digitValue, Bool.eq_iff_iff]
  split_ifs <;> simp [zero, one] <;> omega

theorem baseDigit_eq (base : Nat) (c : Char) : baseDigit base c = isDigit base c := by
  cases weight : digitWeight c <;> simp only [baseDigit, isDigit, digitValue_eq, weight]

theorem isDigit_mono {small large : Nat} {c : Char} (le : small ≤ large) (digit : isDigit small c = true) :
    isDigit large c = true := by
  rw [isDigit] at *
  cases weight : digitWeight c with
  | none => simp [weight] at digit
  | some w =>
    simp only [weight, decide_eq_true_eq] at digit ⊢
    omega

theorem AllDigits.append {base : Nat} {left right : List Char} (first : AllDigits base left) (second : AllDigits base right) :
    AllDigits base (left ++ right) := fun d mem => (mem_append.1 mem).elim (first d) (second d)

/-! ### Values -/

theorem foldl_value (f : Nat → Char → Nat) (base : Nat) (ds : List Char)
    (step : ∀ v d, f v d = v * base + (digitWeight d).getD 0) : ds.foldl f 0 = value base ds := by
  rw [value, Nat.ofDigits_eq_foldr, foldr_map, foldr_reverse]
  congr 1
  funext v d
  rw [step]
  simp [Nat.add_comm, Nat.mul_comm]

theorem baseValue_eq (base : Nat) (ds : List Char) : baseValue ds base = value base ds :=
  foldl_value _ base ds fun _ _ => rfl

theorem digitsNumber_eq (base : Nat) (ds : List Char) : digitsNumber ds base = value base ds :=
  foldl_value _ base ds fun _ _ => by rw [digitValue_eq]

theorem value_append (base : Nat) (left right : List Char) :
    value base (left ++ right) = value base left * base ^ right.length + value base right := by
  rw [value, reverse_append, map_append, Nat.ofDigits_append, length_map, length_reverse]
  simp only [value]
  ring

/-! ### Runs -/

section
variable {base : Nat} {ds : List Char}

/-- Digits that something else follows are the whole run. -/
theorem run_digits (rest : List Char) (digits : AllDigits base ds) (stop : ∀ c, rest.head? = some c → isDigit base c = false) :
    (ds ++ rest).takeWhile (isDigit base) = ds ∧ (ds ++ rest).dropWhile (isDigit base) = rest := by
  have ends : rest.takeWhile (isDigit base) = [] ∧ rest.dropWhile (isDigit base) = rest := by
    cases rest with
    | nil => exact ⟨rfl, rfl⟩
    | cons c rest =>
      have not_digit := stop c rfl
      simp [not_digit]
  rw [takeWhile_append_of_pos digits, dropWhile_append_of_pos digits, ends.1, ends.2, append_nil]
  exact ⟨rfl, rfl⟩

theorem run_allDigits (base : Nat) (cs : List Char) : AllDigits base (cs.takeWhile (isDigit base)) := fun _ mem => mem_takeWhile_imp mem

end

end Nanofil.Constants
