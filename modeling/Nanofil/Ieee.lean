import Nanofil.Syntax

/-! `ieee.pl`: binary32, binary64 and the x87 extended format as unsigned bit
patterns. A finite value is an exact ratio and `roundRatio` is the one place
where rounding happens. The decimal parser and printer are the frontend's. -/
namespace Nanofil.Ieee

inductive Fmt
  | s | d | x
deriving DecidableEq, Repr

def fracBits : Fmt → Nat
  | .s => 23 | .d => 52 | .x => 63
def expBits : Fmt → Nat
  | .s => 8 | .d => 11 | .x => 15
def bias : Fmt → Int
  | .s => 127 | .d => 1023 | .x => 16383
def integerBit : Fmt → Nat
  | .x => 1
  | _ => 0
def exponentShift (k : Fmt) : Nat := fracBits k + integerBit k

/-- What a pattern is: an infinity, a NaN or the finite value `n * 2 ^ p`. -/
inductive Num
  | inf
  | nan
  | finite (n p : Int)
deriving DecidableEq, Repr

def decode (k : Fmt) (b : Int) : Int × Num :=
  let f := fracBits k
  let e := expBits k
  let sh := exponentShift k
  let m := b % 2 ^ f
  let x := b / 2 ^ sh % 2 ^ e
  let t :=
    if x = 2 ^ e - 1 then (if m = 0 then .inf else .nan)
    else if x = 0 then .finite (b % 2 ^ sh) (1 - bias k - f)
    else .finite (2 ^ f + m) (x - bias k - f)
  (b / 2 ^ (sh + e), t)

def signBits (k : Fmt) (s : Int) : Int := s * 2 ^ (exponentShift k + expBits k)
def infinity (k : Fmt) (s : Int) : Int :=
  signBits k s + (2 ^ expBits k - 1) * 2 ^ exponentShift k + integerBit k * 2 ^ fracBits k
def quiet (k : Fmt) (a : Int) : Int := Int.lor a (2 ^ (fracBits k - 1))
def invalid (k : Fmt) : Int := quiet k (infinity k 1)

/-- `ilog/2`: the floor of the binary logarithm, and -1 at zero. -/
def ilog (n : Int) : Int := if n ≤ 0 then -1 else Nat.log2 n.toNat

def scale (n d e : Int) : Int × Int :=
  if 0 ≤ e then (n * 2 ^ e.toNat, d) else (n, d * 2 ^ (-e).toNat)

/-- The quotient rounded to nearest, a tie to the even neighbour. -/
def roundEven (n d : Int) : Int :=
  let q0 := n / d
  let twice := 2 * (n % d)
  if twice > d ∨ (twice = d ∧ q0 % 2 = 1) then q0 + 1 else q0

def roundRatio (k : Fmt) (s n d : Int) : Int :=
  if n = 0 then signBits k s else
    let f := fracBits k
    let e0 := ilog n - ilog d
    let ab := scale n d (-e0)
    let e := if ab.1 < ab.2 then e0 - 1 else e0
    let emin := 1 - bias k
    let step := max e emin - f
    let ac := scale n d (-step)
    let q := roundEven ac.1 ac.2
    let qe := if q ≥ 2 ^ (f + 1) then (q / 2, e + 1) else (q, max e emin)
    if qe.2 > bias k then infinity k s
    else
      let em := if qe.1 < 2 ^ f then (0, qe.1)
                else (qe.2 + bias k, qe.1 - (1 - integerBit k) * 2 ^ f)
      signBits k s + em.1 * 2 ^ exponentShift k + em.2

def finiteRatio (n p : Int) : Int × Int := scale n 1 p
def signedRatio (s n p : Int) : Int × Int :=
  let r := finiteRatio n p
  ((1 - 2 * s) * r.1, r.2)

def magnitudeInteger (n : Int) : Int := if n < 0 then 0 - n else n

def ieeeFromInt (k : Fmt) (n : Int) : Int :=
  roundRatio k (if n < 0 then 1 else 0) (magnitudeInteger n) 1

/-- The finite float truncated toward zero; none for an infinity or a NaN. -/
def ieeeToInt (k : Fmt) (b : Int) : Option Int :=
  match decode k b with
  | (s, .finite n p) =>
    let r := finiteRatio n p
    some ((1 - 2 * s) * (r.1 / r.2))
  | _ => none

def ieeeNeg (k : Fmt) (a : Int) : Int := Int.xor a (signBits k 1)

inductive Arith
  | add | sub | mul | div
deriving DecidableEq, Repr

/-- Between two NaN operands the x87 takes a quiet one, then the larger significand. -/
def x87Nan (a b : Int) : Int :=
  let qa := a / 2 ^ 62 % 2
  let qb := b / 2 ^ 62 % 2
  let ma := a % 2 ^ 64
  let mb := b % 2 ^ 64
  quiet .x (if qa > qb then a else if qb > qa then b else if mb > ma then b else a)

def Num.isZero : Num → Bool
  | .finite n _ => n = 0
  | _ => false

def binaryAdd (k : Fmt) (sa : Int) (ta : Num) (sb : Int) (tb : Num) : Int :=
  match ta, tb with
  | .finite na pa, .finite nb pb =>
    let a := signedRatio sa na pa
    let b := signedRatio sb nb pb
    let n := a.1 * b.2 + b.1 * a.2
    let s := if n < 0 then 1 else if n = 0 ∧ sa = 1 ∧ sb = 1 then 1 else 0
    roundRatio k s (magnitudeInteger n) (a.2 * b.2)
  | _, _ =>
    if ta = .inf ∧ tb = .inf ∧ sa ≠ sb then invalid k
    else if ta = .inf then infinity k sa
    else infinity k sb

def binaryMul (k : Fmt) (s : Int) (ta tb : Num) : Int :=
  if (ta = .inf ∧ tb.isZero) ∨ (tb = .inf ∧ ta.isZero) then invalid k
  else match ta, tb with
    | .finite na pa, .finite nb pb =>
      let a := finiteRatio na pa
      let b := finiteRatio nb pb
      roundRatio k s (a.1 * b.1) (a.2 * b.2)
    | _, _ => infinity k s

def binaryDiv (k : Fmt) (s : Int) (ta tb : Num) : Int :=
  if (ta = .inf ∧ tb = .inf) ∨ (ta.isZero ∧ tb.isZero) then invalid k
  else if ta = .inf then infinity k s
  else if tb = .inf then signBits k s
  else if tb.isZero then infinity k s
  else match ta, tb with
    | .finite na pa, .finite nb pb =>
      let a := finiteRatio na pa
      let b := finiteRatio nb pb
      roundRatio k s (a.1 * b.2) (a.2 * b.1)
    | _, _ => invalid k

def binary (op : Arith) (k : Fmt) (sa : Int) (ta : Num) (sb : Int) (tb : Num) : Int :=
  match op with
  | .add => binaryAdd k sa ta sb tb
  | .sub => binaryAdd k sa ta (1 - sb) tb
  | .mul => binaryMul k (Int.xor sa sb) ta tb
  | .div => binaryDiv k (Int.xor sa sb) ta tb

def ieeeBinary (k : Fmt) (op : Arith) (a b : Int) : Int :=
  let da := decode k a
  let db := decode k b
  if da.2 = .nan ∧ db.2 = .nan ∧ k = .x then x87Nan a b
  else if da.2 = .nan then quiet k a
  else if db.2 = .nan then quiet k b
  else binary op k da.1 da.2 db.1 db.2

/-- A NaN keeps as much of its payload as fits, aligned at the top, and is quieted. -/
def ieeeConvert (src dst : Fmt) (a : Int) : Int :=
  match decode src a with
  | (s, .inf) => infinity dst s
  | (s, .nan) =>
    let payload := a % 2 ^ fracBits src
    let p := if fracBits src ≤ fracBits dst then payload * 2 ^ (fracBits dst - fracBits src)
             else payload / 2 ^ (fracBits src - fracBits dst)
    quiet dst (Int.lor (infinity dst s) p)
  | (s, .finite n p) =>
    let r := finiteRatio n p
    roundRatio dst s r.1 r.2

inductive Order
  | lt | eq | gt | unordered
deriving DecidableEq, Repr

def compareInts (x y : Int) : Order := if x < y then .lt else if x = y then .eq else .gt

def order (k : Fmt) (a b : Int) : Order :=
  match decode k a, decode k b with
  | (_, .nan), _ | _, (_, .nan) => .unordered
  | (sa, .inf), (sb, .inf) => compareInts sb sa
  | (sa, .inf), _ => if sa = 1 then .lt else .gt
  | _, (sb, .inf) => if sb = 1 then .gt else .lt
  | (sa, .finite na pa), (sb, .finite nb pb) =>
    let r := signedRatio sa na pa
    let t := signedRatio sb nb pb
    compareInts (r.1 * t.2) (t.1 * r.2)

/-- `condition/2`; none for an integer condition. -/
def condition : Cond → Order → Option Bool
  | .eq, o => some (o = .eq)
  | .ne, o => some (o ≠ .eq)
  | .lt, o => some (o = .lt)
  | .le, o => some (o = .lt ∨ o = .eq)
  | .gt, o => some (o = .gt)
  | .ge, o => some (o = .gt ∨ o = .eq)
  | .o, o => some (o ≠ .unordered)
  | .uo, o => some (o = .unordered)
  | _, _ => none

def ieeeCompare (k : Fmt) (c : Cond) (a b : Int) : Int :=
  if condition c (order k a b) = some true then 1 else 0

-- Rounding to nearest, a tie to even, and a quotient below the least subnormal.
example : ieeeBinary .s .add 0x3f800000 0x33800000 = 0x3f800000 := by decide +kernel
example : ieeeBinary .d .div 0x3ff0000000000000 0x4008000000000000 = 0x3fd5555555555555 := by decide +kernel

end Nanofil.Ieee
