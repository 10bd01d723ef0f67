import Nanofil.Arithmetic.Operators

/-! `c_lower.pl`: the SSE4.2 string compares. The operands' elements have been loaded before, and those of a mask
are stored after. -/
namespace Nanofil.Arithmetic
open Switching (IntType)

/-- A result: an index, a mask or one of the flags. -/
inductive Out
  | m | i | ia | ic | io | is | iz
deriving DecidableEq

inductive PcmpResult
  | int (r : Lowered)
  | vector (ls : List Lowered)

/-- The elements' type and their number. -/
def pcmpFormat (imm : Int) : IntType × Nat :=
  match (imm % 4).toNat with
  | 0 => (.uchar, 16)
  | 1 => (.ushort, 8)
  | 2 => (.schar, 16)
  | _ => (.short, 8)

/-! ### Validity -/

def pcmpNonzero : List Lowered → Lowered → Emitting (List Lowered)
  | [], _ => pure []
  | l :: ls, p => do
    let nz ← binary .ne l (k 0)
    let v ← binary .and p nz
    let vs ← pcmpNonzero ls v
    pure (v :: vs)

def pcmpBelow (a : Lowered) : List Nat → Emitting (List Lowered) :=
  each fun j => binary .lt ⟨.const j, .long⟩ a

/-- 1 for each element within its length, else 0. An explicit length is given. -/
def pcmpValid (ls : List Lowered) : Option Lowered → Emitting (List Lowered)
  | none => pcmpNonzero ls (k 1)
  | some lv => do
    let l ← convert lv .long
    let neg ← binary .lt l ⟨.const 0, .long⟩
    let negL ← binary .sub ⟨.const 0, .long⟩ l
    let abs ← isel neg negL l .long
    pcmpBelow abs (List.range ls.length)

/-! ### Aggregations -/

/-- 65536 equals no element and lies in no range of them. -/
def pcmpMasked (xs vs : List Lowered) : Emitting (List Lowered) :=
  each (fun p => isel p.2 p.1 (k 65536) .int) (xs.zip vs)

/-- A range whose bounds are not both valid gets an empty one. -/
def pcmpMaskedRanges : List Lowered → List Lowered → Emitting (List Lowered)
  | lo :: hi :: xs, vLo :: vHi :: vs => do
    let v ← binary .and vLo vHi
    let lo1 ← isel v lo (k 65536) .int
    let hi1 ← convert hi .int
    let ys ← pcmpMaskedRanges xs vs
    pure (lo1 :: hi1 :: ys)
  | _, _ => pure []

def pcmpNots (vs : List Lowered) : Emitting (List Lowered) := each (fun v => binary .xor v (k 1)) vs

def pcmpAny (as : List Lowered) (b acc : Lowered) : Emitting Lowered :=
  as.foldlM (fun acc a => do
    let e ← binary .eq a b
    binary .or acc e) acc

def pcmpRanges : List Lowered → Lowered → Lowered → Emitting Lowered
  | lo :: hi :: as, b, acc => do
    let c1 ← binary .le lo b
    let c2 ← binary .le b hi
    let c ← binary .and c1 c2
    let acc1 ← binary .or acc c
    pcmpRanges as b acc1
  | _, _, acc => pure acc

def pcmpOrdered (ks : List Nat) (j : Nat) (as bs nas : List Lowered) (acc : Lowered) : Emitting Lowered :=
  ks.foldlM (fun acc i => do
    let e ← binary .eq (nth0 i as) (nth0 (j + i) bs)
    let t ← binary .or (nth0 i nas) e
    binary .and acc t) acc

def pcmpBit (agg : Nat) (as bs vas vbs : List Lowered) (j : Nat) : Emitting Lowered :=
  match agg with
  | 0 => do
    let any ← pcmpAny as (nth0 j bs) (k 0)
    binary .and any (nth0 j vbs)
  | 1 => do
    let any ← pcmpRanges as (nth0 j bs) (k 0)
    binary .and any (nth0 j vbs)
  | 2 => do
    let e ← binary .eq (nth0 j as) (nth0 j bs)
    let both ← binary .and (nth0 j vas) (nth0 j vbs)
    let t ← binary .and both e
    let either ← binary .or (nth0 j vas) (nth0 j vbs)
    let neither ← binary .xor either (k 1)
    binary .or t neither
  | _ => pcmpOrdered (List.range (as.length - j)) j as bs vas (k 1)

def pcmpBits (agg : Nat) (as bs vas vbs : List Lowered) : Emitting (List Lowered) :=
  each (pcmpBit agg as bs vas vbs) (List.range bs.length)

/-- IntRes1, with the overrides for invalid elements. -/
def pcmpAggregated (agg : Nat) (as bs vas vbs : List Lowered) : Emitting (List Lowered) :=
  match agg with
  | 0 => do
    let as1 ← pcmpMasked as vas
    pcmpBits 0 as1 bs vas vbs
  | 1 => do
    let as1 ← pcmpMaskedRanges as vas
    pcmpBits 1 as1 bs vas vbs
  | 3 => do
    let bs1 ← pcmpMasked bs vbs
    let nas ← pcmpNots vas
    pcmpBits 3 as bs1 nas vbs
  | agg => pcmpBits agg as bs vas vbs

/-- IntRes2. -/
def pcmpPolarity (pol : Nat) (r1 vbs : List Lowered) : Emitting (List Lowered) :=
  if pol % 2 = 0 then pure r1
  else if pol = 1 then each (fun r => binary .xor r (k 1)) r1
  else each (fun p => binary .xor p.1 p.2) (r1.zip vbs)

/-! ### Results -/

def pcmpMask (bs : List Lowered) (js : List Nat) (m0 : Lowered) : Emitting Lowered :=
  (bs.zip js).foldlM (fun m p => do
    let s ← binary .shl p.1 (k p.2)
    binary .or m s) m0

def pcmpUnits (bs : List Lowered) : Emitting (List Lowered) := each (fun b => binary .sub (k 0) b) bs

def pcmpOr : List Lowered → Emitting Lowered
  | [] => pure (k 0)
  | b :: bs => bs.foldlM (fun r b => binary .or r b) b

def laneConverted (ls : List Lowered) (e : IntType) : Emitting (List Lowered) := each (fun l => convert l e) ls

/-- The lowest bit's index: trailing zeros below a bit at the top. -/
def pcmpFirst (n : Nat) (m0 : Lowered) : Emitting Lowered := do
  let m1 ← binary .or m0 (k (2 ^ n))
  let x ← convert m1 .ullong
  let c ← bitCount .ctz 32 x.v
  let i ← let_ .w .copy [c]
  pure ⟨i, .int⟩

/-- The bits up to the highest, counted, less one. -/
def pcmpTop (m : Lowered) : Emitting Lowered := do
  let x ← convert m .ullong
  let s ← smear [1, 2, 4, 8, 16] x.v
  let p ← popcount64 s
  let hi ← let_ .l .sub [p, .const 1]
  let hiW ← let_ .w .copy [hi]
  pure ⟨hiW, .int⟩

def pcmpResult (out : Out) (msb : Nat) (format : IntType × Nat) (r2 : List Lowered) (vaN vbN : Lowered) : Emitting PcmpResult :=
  match out, msb with
  | .i, 0 => do
    let m0 ← pcmpMask r2 (List.range r2.length) (k 0)
    let r ← pcmpFirst format.2 m0
    pure (.int r)
  | .i, _ => do
    let m ← pcmpMask r2 (List.range r2.length) (k 0)
    let hi ← pcmpTop m
    let none ← binary .eq m (k 0)
    let r ← isel none (k format.2) hi .int
    pure (.int r)
  | .m, 0 => do
    let m ← pcmpMask r2 (List.range r2.length) (k 0)
    let ls ← laneConverted [m, k 0, k 0, k 0, k 0, k 0, k 0, k 0] .ushort
    pure (.vector ls)
  | .m, _ => do
    let us ← pcmpUnits r2
    let ls ← laneConverted us format.1
    pure (.vector ls)
  | .ic, _ => do
    let r ← pcmpOr r2
    pure (.int r)
  | .ia, _ => do
    let c ← pcmpOr r2
    let nc ← binary .xor c (k 1)
    let r ← binary .and nc vbN
    pure (.int r)
  | .io, _ => pure (.int (nth0 0 r2))
  | .is, _ => do
    let r ← binary .xor vaN (k 1)
    pure (.int r)
  | .iz, _ => do
    let r ← binary .xor vbN (k 1)
    pure (.int r)

/-- IntRes2, of which two of the flags need nothing: the lengths alone decide them. -/
def pcmpDecided (out : Out) (imm : Int) (la lb va vb : List Lowered) : Emitting (List Lowered) :=
  if out = .is ∨ out = .iz then pure []
  else do
    let r1 ← pcmpAggregated (imm / 4 % 4).toNat la lb va vb
    pcmpPolarity (imm / 16 % 4).toNat r1 vb

/-- The compare of the elements of two vectors, with their lengths in the explicit forms. -/
def pcmpstr (out : Out) (imm : Int) (la lb : List Lowered) (lens : Option (Lowered × Lowered)) : Emitting PcmpResult := do
  let va ← pcmpValid la (lens.map Prod.fst)
  let vb ← pcmpValid lb (lens.map Prod.snd)
  let r2 ← pcmpDecided out imm la lb va vb
  pcmpResult out (imm / 64 % 2).toNat (pcmpFormat imm) r2 (nth0 (va.length - 1) va) (nth0 (vb.length - 1) vb)

end Nanofil.Arithmetic
