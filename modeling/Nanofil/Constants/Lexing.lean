import Nanofil.Ieee
import Nanofil.Switching.Emission

/-! Numeric constants from their spelling to their type and value: `c_lex.pl` (pp-numbers and their tokens),
`c_types.pl` (`num_type/3`, `float_literal/3`) and the parser of `ieee.pl`. -/
namespace Nanofil.Constants
open Switching (IntType)

/-! ### Characters and pp-numbers (`c_lex.pl`) -/

def decimal (c : Char) : Bool := '0' ≤ c && c ≤ '9'
def letter (c : Char) : Bool := ('a' ≤ c && c ≤ 'z') || ('A' ≤ c && c ≤ 'Z')
def identChar (c : Char) : Bool := letter c || decimal c || c = '_' || c = '$'

/-- `pp_number_rest//1`: the longest run, and what follows it. -/
def ppNumberRest : List Char → List Char × List Char
  | [] => ([], [])
  | [c] => if identChar c || c = '.' then ([c], []) else ([], [c])
  | e :: s :: cs =>
    if e ∈ ['e', 'E', 'p', 'P'] ∧ s ∈ ['+', '-'] then
      (e :: s :: (ppNumberRest cs).1, (ppNumberRest cs).2)
    else if identChar e || e = '.' then (e :: (ppNumberRest (s :: cs)).1, (ppNumberRest (s :: cs)).2)
    else ([], e :: s :: cs)

/-- The value of a hexadecimal digit. -/
def digitWeight (d : Char) : Option Nat :=
  match ['0', '1', '2', '3', '4', '5', '6', '7', '8', '9', 'a', 'b', 'c', 'd', 'e', 'f'].idxOf? d with
  | some w => some w
  | none => (['A', 'B', 'C', 'D', 'E', 'F'].idxOf? d).map (· + 10)

def hexDigit (c : Char) : Bool := (digitWeight c).isSome
def binDigit (c : Char) : Bool := c ∈ ['0', '1']
def octDigit (c : Char) : Bool := decimal c && c < '8'

def addDigit (base v : Nat) (d : Char) : Nat := v * base + (digitWeight d).getD 0
def baseValue (ds : List Char) (base : Nat) : Nat := ds.foldl (addDigit base) 0

/-! ### Tokens -/

inductive Radix
  | dec | other
deriving DecidableEq

inductive Suffix
  | none | u | l | ul | ll | ull
deriving DecidableEq

def suffixLower (c : Char) : Char := if c = 'U' then 'u' else if c = 'L' then 'l' else if c = 'X' then 'x' else c

def suffixName (cs : List Char) : Option Suffix :=
  if cs = [] then some .none
  else if cs = ['u'] then some .u
  else if cs = ['l'] then some .l
  else if cs = ['l', 'l'] then some .ll
  else if cs = ['u', 'l'] then some .ul
  else if cs = ['l', 'u'] then some .ul
  else if cs = ['u', 'l', 'l'] then some .ull
  else if cs = ['l', 'l', 'u'] then some .ull
  else none

def intSuffix (cs : List Char) : Option Suffix := suffixName (cs.map suffixLower)

/-- The longest run of digits, which only an octal constant may lack, and the suffix after it. -/
def digitsSuffix (digit : Char → Bool) (base : Nat) (radix : Radix) (lack : Bool) (cs : List Char) :
    Option (Nat × Suffix × Radix) :=
  if cs.takeWhile digit = [] ∧ !lack then none
  else (intSuffix (cs.dropWhile digit)).map (baseValue (cs.takeWhile digit) base, ·, radix)

/-- A `0` and one of the letters: the rest after them. -/
def prefixed (xs : List Char) : List Char → Option (List Char)
  | z :: x :: rest => if z = '0' ∧ x ∈ xs then some rest else none
  | _ => none

def integerLiteral (cs : List Char) : Option (Nat × Suffix × Radix) :=
  match prefixed ['x', 'X'] cs with
  | some rest => digitsSuffix hexDigit 16 .other false rest
  | none =>
    match prefixed ['b', 'B'] cs with
    | some rest => digitsSuffix binDigit 2 .other false rest
    | none =>
      if cs.head? = some '0' then digitsSuffix octDigit 8 .other true cs.tail
      else digitsSuffix decimal 10 .dec false cs

def floatChar (c : Char) : Bool :=
  decimal c || c ∈ ['.', 'e', 'E', '+', '-', 'f', 'F', 'l', 'L', 'x', 'X', 'p', 'P'] || (digitWeight c).isSome

inductive Token
  | int (v : Nat) (suffix : Suffix) (radix : Radix)
  | float (cs : List Char)
deriving DecidableEq

def numberToken (cs : List Char) : Except String Token :=
  match integerLiteral cs with
  | some (v, suffix, radix) => .ok (.int v suffix radix)
  | none => if cs.all floatChar then .ok (.float cs) else .error ("bad number " ++ String.ofList cs)

/-! ### Types of integer constants (`c_types.pl`) -/

def constantTypes : Radix → Suffix → List IntType
  | .dec, .none => [.int, .long, .llong]
  | .dec, .u => [.uint, .ulong, .ullong]
  | .dec, .l => [.long, .llong]
  | .dec, .ul => [.ulong, .ullong]
  | .dec, .ll => [.llong]
  | .dec, .ull => [.ullong]
  | .other, .none => [.int, .uint, .long, .ulong, .llong, .ullong]
  | .other, .u => [.uint, .ulong, .ullong]
  | .other, .l => [.long, .ulong, .llong, .ullong]
  | .other, .ul => [.ulong, .ullong]
  | .other, .ll => [.llong, .ullong]
  | .other, .ull => [.ullong]

def belowMax (sign : Signedness) (v bits : Nat) : Bool :=
  match sign with
  | .signed => v < 2 ^ (bits - 1)
  | .unsigned => v < 2 ^ bits

def fits (v : Nat) (t : IntType) : Bool := belowMax (Switching.sign t) v (8 * Switching.size t)

def numType (v : Nat) (suffix : Suffix) (radix : Radix) : IntType :=
  ((constantTypes radix suffix).find? (fits v ·)).getD .ullong

/-! ### Floating constants (`ieee.pl`, `c_types.pl`) -/

def digitValue (c : Char) : Option Nat :=
  if 48 ≤ c.toNat ∧ c.toNat ≤ 57 then some (c.toNat - 48)
  else if 97 ≤ c.toNat ∧ c.toNat ≤ 102 then some (c.toNat - 87)
  else if 65 ≤ c.toNat ∧ c.toNat ≤ 70 then some (c.toNat - 55)
  else none

/-- A digit of the base, as `digit_list//2` takes them. -/
def baseDigit (base : Nat) (c : Char) : Bool :=
  match digitValue c with
  | some n => n < base
  | none => false

def digitsNumber (ds : List Char) (base : Nat) : Nat := ds.foldl (fun a d => a * base + (digitValue d).getD 0) 0

def fraction (base : Nat) (cs : List Char) : List Char × List Char :=
  if cs.head? = some '.' then (cs.tail.takeWhile (baseDigit base), cs.tail.dropWhile (baseDigit base)) else ([], cs)

/-- The digits' number, how many are after the point, and the rest. -/
def significand (base : Nat) (cs : List Char) : Option (Nat × Nat × List Char) :=
  let before := cs.takeWhile (baseDigit base)
  let after := fraction base (cs.dropWhile (baseDigit base))
  if before ++ after.1 = [] then none else some (digitsNumber (before ++ after.1) base, after.1.length, after.2)

/-- `sign//1`: 1 after a minus. -/
def sign (cs : List Char) : Int × List Char :=
  if cs.head? = some '-' then (1, cs.tail) else if cs.head? = some '+' then (0, cs.tail) else (0, cs)

def exponentValue (cs : List Char) : Option (Int × List Char) :=
  let ds := (sign cs).2.takeWhile (baseDigit 10)
  if ds = [] then none
  else some ((1 - 2 * (sign cs).1) * digitsNumber ds 10, (sign cs).2.dropWhile (baseDigit 10))

def decimalExponent (cs : List Char) : Option (Int × List Char) :=
  match cs with
  | c :: rest => if c ∈ ['e', 'E'] then exponentValue rest else some (0, cs)
  | [] => some (0, cs)

def binaryExponent (cs : List Char) : Option (Int × List Char) :=
  match cs with
  | c :: rest => if c ∈ ['p', 'P'] then exponentValue rest else none
  | [] => none

/-- `magnitude//3` over a whole text: the number, the radix and the exponent. -/
def magnitude (cs : List Char) : Option (Nat × Nat × Int) :=
  match prefixed ['x', 'X'] cs with
  | some rest => do
    let (n, places, rest) ← significand 16 rest
    let (ex, rest) ← binaryExponent rest
    if rest = [] then some (n, 2, ex - 4 * places) else none
  | none => do
    let (n, places, rest) ← significand 10 cs
    let (ex, rest) ← decimalExponent rest
    if rest = [] then some (n, 10, ex - places) else none

def ieeeParse (k : Ieee.Fmt) (cs : List Char) : Option Int := do
  let (n, radix, e) ← magnitude (sign cs).2
  if 0 ≤ e then some (Ieee.roundRatio k (sign cs).1 (n * radix ^ e.toNat) 1)
  else some (Ieee.roundRatio k (sign cs).1 n (radix ^ (-e).toNat))

inductive FloatType
  | float | double | ldouble
deriving DecidableEq

/-- `type_class/2` at the floating types. -/
def floatClass : FloatType → Ieee.Fmt
  | .float => .s
  | .double => .d
  | .ldouble => .x

def floatLiteral (cs : List Char) : Option (Int × FloatType) := do
  let suffix ← cs.getLast?
  let (type, digits) := if suffix ∈ ['f', 'F'] then (FloatType.float, cs.dropLast)
    else if suffix ∈ ['l', 'L'] then (.ldouble, cs.dropLast)
    else (.double, cs)
  (ieeeParse (floatClass type) digits).map (·, type)

inductive Constant
  | integer (v : Nat) (type : IntType)
  | floating (bits : Int) (type : FloatType)
deriving DecidableEq

/-- A pp-number's constant, by its token; none where the spelling is refused. -/
def constant (cs : List Char) : Option Constant :=
  match numberToken cs with
  | .error _ => none
  | .ok (.int v suffix radix) => some (.integer v (numType v suffix radix))
  | .ok (.float cs) => (floatLiteral cs).map fun r => .floating r.1 r.2

end Nanofil.Constants
