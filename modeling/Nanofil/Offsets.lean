import Nanofil.Syntax

/-! How `ir.pl` relates two pointers of a function: single definitions, chains of
flights with the interval of their offsets, and the exact distances read off them. -/
namespace Nanofil

inductive Def
  | param
  | phi (ph : Phi)
  | inst (i : Inst)
deriving DecidableEq, Repr

def blockDefs (b : Block) : List (Name × Def) :=
  b.phis.map (fun ph => (ph.dst, .phi ph)) ++
    b.insts.flatMap (fun i => (instDefs i).map (fun d => (d, .inst i)))

def tempDefs (params : List Param) (bs : List Block) : List (Name × Def) :=
  params.map (fun p => (p.name, .param)) ++ bs.flatMap blockDefs

abbrev Once := Name → Option Def

/-- `single_definitions/3`: each temporary with exactly one definition, and that. -/
def singleDefinitions (params : List Param) (bs : List Block) : Once := fun n =>
  match (tempDefs params bs).filter (fun nd => nd.1 = n) with
  | [nd] => some nd.2
  | _ => none

/-! ### Offset intervals -/

def signedValue (k : Cls) (c : Int) : Option Int := do
  let bits ← classBits k
  let u := c % 2 ^ bits
  return if u ≥ 2 ^ (bits - 1) then u - 2 ^ bits else u

def intervalFits (k : Cls) (i : Int × Int) : Bool :=
  match k with
  | .w => -2147483648 ≤ i.1 ∧ i.2 ≤ 2147483647
  | .l => true
  | _ => false

def narrowRange : LoadType → Option (Int × Int)
  | .ub => some (0, 255)
  | .uh => some (0, 65535)
  | .sb => some (-128, 127)
  | .sh => some (-32768, 32767)
  | _ => none

abbrev Memo := List ((Name × Cls) × (Int × Int))

def Memo.get (m : Memo) (key : Name × Cls) : Option (Int × Int) := (m.find? (fun e => e.1 = key)).map (·.2)

abbrev IntervalOf := Value → Cls → Memo → Option ((Int × Int) × Memo)

def maskOf (k : Cls) : Value → Option Int
  | .const c => (signedValue k c).filter (0 ≤ ·)
  | _ => none

/-- The factor a product is scaled by, and what it scales. -/
def scaled : List Value → Option (Value × Int)
  | [.const _, .const _] => none
  | [v, .const c] | [.const c, v] => some (v, c)
  | _ => none

def scaleInterval (i : Int × Int) (v : Int) : Int × Int :=
  if v ≥ 0 then (i.1 * v, i.2 * v) else (i.2 * v, i.1 * v)

/-- `op_interval/9`, with the interval of an operand for `offset_interval/8`. -/
def opInterval (interval : IntervalOf) (op : Op) (args : List Value) (k : Cls) (m : Memo) :
    Option ((Int × Int) × Memo) :=
  match op, args with
  | .rawLoad t _, _ => do return (← narrowRange t, m)
  | .ext .sw, [a] => interval a .w m
  | .ext .uw, [a] => do
    let r ← interval a .w m
    if r.1.1 ≥ 0 then return r else none
  | .ext t, _ => do return (← narrowRange t, m)
  | .copy, [a] => interval a k m
  | .and, [a, b] => do
    let mask ← (maskOf k b).or (maskOf k a)
    return ((0, mask), m)
  | .urem, [_, .const c] => do
    let bits ← classBits k
    let u := c % 2 ^ bits
    if 0 < u ∧ u ≤ 2 ^ (bits - 1) then return ((0, u - 1), m) else none
  | .shl, [a, .const n] => do
    let bits ← classBits k
    if 0 ≤ n ∧ n < bits then
      let r ← interval a k m
      return ((r.1.1 * 2 ^ n.toNat, r.1.2 * 2 ^ n.toNat), r.2)
    else none
  | .mul, args => do
    let ac ← scaled args
    let v ← signedValue k ac.2
    let r ← interval ac.1 k m
    return (scaleInterval r.1 v, r.2)
  | .add, [a, b] => do
    let r1 ← interval a k m
    let r2 ← interval b k r1.2
    return ((r1.1.1 + r2.1.1, r1.1.2 + r2.1.2), r2.2)
  | .sub, [a, .const c] => do
    let v ← signedValue k c
    let r ← interval a k m
    return ((r.1.1 - v, r.1.2 - v), r.2)
  | _, _ => none

/-- `offset_interval/8`; the number is how many more definitions may be unfolded. A
name's interval is memoised, so a name found is not walked again at any depth. -/
def offsetInterval (once : Once) : Nat → IntervalOf
  | _, .const c, k, m => do
    let v ← signedValue k c
    return ((v, v), m)
  | n, .tmp x, k, m =>
    match m.get (x, k) with
    | some i => some (i, m)
    | none =>
      match n, once x with
      | n + 1, some (.inst (.let_ _ k' op args)) =>
        if k' = k then do
          let r ← opInterval (offsetInterval once n) op args k m
          if intervalFits k r.1 then return (r.1, ((x, k), r.1) :: r.2) else none
        else none
      | _, _ => none
  | _, .global _, _, _ => none

/-! ### Chains of flights -/

inductive Sign
  | pos | neg
deriving DecidableEq

def flightTerm (op : Op) (args : List FlightArg) (b : Value) : Option (Value × Sign) :=
  match op, args with
  | .add, [.address b0, .value o] => if b0 = b then some (o, .pos) else none
  | .sub, [.address b0, .value o] => if b0 = b then some (o, .neg) else none
  | .copy, [.address b0] => if b0 = b then some (.const 0, .pos) else none
  | _, _ => none

def offsetBy (i : Int × Int) (sign : Sign) (o : Int × Int) : Int × Int :=
  match sign with
  | .pos => (i.1 + o.1, i.2 + o.2)
  | .neg => (i.1 - o.2, i.2 - o.1)

/-- The base of a single-definition flight and the interval of its offset from it. -/
def flightStep (once : Once) : Value → Option (Value × Sign × (Int × Int))
  | .tmp x =>
    match once x with
    | some (.inst (.flight _ op args (.lower b))) => do
      let t ← flightTerm op args b
      let o ← offsetInterval once 32 t.1 .l []
      return (b, t.2, o.1)
    | _ => none
  | _ => none

def guardChainFrom (once : Once) : Nat → Value → Int × Int → List (Value × (Int × Int))
  | 0, p, i => [(p, i)]
  | n + 1, p, i =>
    match flightStep once p with
    | some (b, sign, o) => (p, i) :: guardChainFrom once n b (offsetBy i sign o)
    | none => [(p, i)]

def guardChain (once : Once) (p : Value) : List (Value × (Int × Int)) :=
  guardChainFrom once 64 p (0, 0)

/-- The single-definition bases of `p` at an exact offset. -/
def exactBases (once : Once) (p : Value) : List (Name × Int) :=
  (guardChain once p).filterMap (fun e =>
    match e.1 with
    | .tmp n => if (once n).isSome ∧ e.2.1 = e.2.2 then some (n, e.2.1) else none
    | _ => none)

def pointerDistance (once : Once) (p p1 : Value) : Option Int :=
  (exactBases once p).findSome? (fun e =>
    ((exactBases once p1).find? (fun e1 => e1.1 = e.1)).map (fun e1 => e.2 - e1.2))

/-- `lower_chain/4`: `p` has the lower of `b`; the number bounds the flights walked. -/
def lowerChain (once : Once) : Nat → Value → Value → Bool
  | n, p, b =>
    if p = b then true
    else match n, p with
      | n + 1, .tmp x =>
        match once x with
        | some (.inst (.flight _ _ _ (.lower d))) => lowerChain once n d b
        | _ => false
      | _, _ => false

/-! ### Coverage rules -/

def nearOffset (k : Int) : Bool := -2 ^ 62 ≤ k ∧ k ≤ 2 ^ 62

def signedDistance (d : Int) : Int := (d + 2 ^ 63) % 2 ^ 64 - 2 ^ 63

def halfSide (bound : Bound) (e f : Int) : Bool :=
  match bound with
  | .upper => e ≥ 0
  | .lower => f ≤ 0

/-- A passed check of `[lo1, hi1)` proves the end that a half check does not test. -/
def halfKnown (bound : Bound) (lo hi d0 lo1 hi1 : Int) : Bool :=
  let e := signedDistance d0 + lo - lo1
  let f := signedDistance d0 + hi - hi1
  nearOffset e && nearOffset f && hi - lo ≤ 2 ^ 62 && halfSide bound e f

def guardCovers (once : Once) (p g : Value) (lo hi : Int) : Bool :=
  match g with
  | .tmp gn =>
    match once gn with
    | some (.inst (.let_ _ .w (.spanTest glo ghi) [.tmp n0])) =>
      (once n0).isSome &&
        match (guardChain once p).find? (fun e => e.1 = .tmp n0) with
        | some e => glo ≤ e.2.1 + lo && e.2.2 + hi ≤ ghi
        | none => false
    | _ => false
  | _ => false

def limitCovers (once : Once) (p u : Value) (lo hi : Int) : Bool :=
  match u with
  | .tmp un =>
    match once un with
    | some (.inst (.let_ _ .l (.limit size) [.tmp n0])) =>
      lo = 0 && hi = size && (once n0).isSome && lowerChain once 64 p (.tmp n0)
    | _ => false
  | _ => false

end Nanofil
