import Mathlib.Data.BitVec
import Mathlib.Data.Nat.Init

/-! PCMPISTRI, PCMPISTRM, PCMPESTRI and PCMPESTRM, as the processor's manual defines them: the elements of the
operands, BoolRes, IntRes1, IntRes2 and the results. -/
namespace Nanofil.Processor

/-- An instruction's control byte and operands, the lengths in the explicit forms only. -/
structure Compare where
  imm8 : BitVec 8
  a : BitVec 128
  b : BitVec 128
  lengths : Option (Int × Int)

section
variable (c : Compare)

def Compare.words : Bool := c.imm8.getLsbD 0

def Compare.signed : Bool := c.imm8.getLsbD 1

def Compare.aggregation : Nat := (c.imm8.extractLsb' 2 2).toNat

def Compare.polarity : Nat := (c.imm8.extractLsb' 4 2).toNat

def Compare.most : Bool := c.imm8.getLsbD 6

/-- Bits of an element. -/
def Compare.width : Nat := if c.words then 16 else 8

/-- Elements of an operand. -/
def Compare.number : Nat := if c.words then 8 else 16

/-- Element `j` of an operand in the control byte's format. -/
def Compare.element (v : BitVec 128) (j : Nat) : Int :=
  if c.signed then (v.extractLsb' (c.width * j) c.width).toInt else (v.extractLsb' (c.width * j) c.width).toNat

/-- Before the null element, or below the absolute value of the length, saturated. -/
def Compare.valid (v : BitVec 128) (length : Option Int) (j : Nat) : Bool :=
  match length with
  | none => (List.range (j + 1)).all fun i => c.element v i ≠ 0
  | some n => decide (j < min n.natAbs c.number)

def Compare.validA (j : Nat) : Bool := c.valid c.a (c.lengths.map Prod.fst) j

def Compare.validB (j : Nat) : Bool := c.valid c.b (c.lengths.map Prod.snd) j

/-- The comparison of element `j` of the second operand with element `i` of the first: greater or equal and less or
equal by turns for ranges, else equal. -/
def Compare.compares (j i : Nat) : Bool :=
  if c.aggregation = 1 then
    if i % 2 = 0 then decide (c.element c.b j ≥ c.element c.a i) else decide (c.element c.b j ≤ c.element c.a i)
  else decide (c.element c.a i = c.element c.b j)

/-- BoolRes, with the overrides for invalid elements. -/
def Compare.boolRes (j i : Nat) : Bool :=
  match c.aggregation, c.validA i, c.validB j with
  | _, true, true => c.compares j i
  | 2, false, false => true
  | 3, false, _ => true
  | _, _, _ => false

def Compare.intRes1 (j : Nat) : Bool :=
  match c.aggregation with
  | 0 => (List.range c.number).any fun i => c.boolRes j i
  | 1 => (List.range (c.number / 2)).any fun i => c.boolRes j (2 * i) && c.boolRes j (2 * i + 1)
  | 2 => c.boolRes j j
  | _ => (List.range (c.number - j)).all fun i => c.boolRes (j + i) i

def Compare.intRes2 (j : Nat) : Bool :=
  match c.polarity with
  | 1 => !c.intRes1 j
  | 3 => if c.validB j then !c.intRes1 j else c.intRes1 j
  | _ => c.intRes1 j

/-- The first set bit of IntRes2 from one end, or the number of elements. -/
def Compare.index : Nat :=
  if c.most then ((List.range c.number).reverse.find? c.intRes2).getD c.number
  else ((List.range c.number).find? c.intRes2).getD c.number

/-- IntRes2 extended with zeros, or each of its bits spread over an element. -/
def Compare.mask : BitVec 128 :=
  if c.most then BitVec.ofNat 128 (Nat.ofBits fun i : Fin 128 => c.intRes2 (i.1 / c.width))
  else BitVec.ofNat 128 (Nat.ofBits fun i : Fin 128 => decide (i.1 < c.number) && c.intRes2 i)

def Compare.carry : Bool := (List.range c.number).any c.intRes2

def Compare.overflow : Bool := c.intRes2 0

def Compare.sign : Bool := (List.range c.number).any fun j => !c.validA j

def Compare.zero : Bool := (List.range c.number).any fun j => !c.validB j

/-- The condition of a jump if above: neither carry nor zero. -/
def Compare.above : Bool := !c.carry && !c.zero

end

end Nanofil.Processor
