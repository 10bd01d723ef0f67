import Nanofil.Lib.Multiples
import Nanofil.Lib.Results
import Nanofil.Syntax

/-! `c_types.pl`: sizes and alignments of types, and the layout of structs and unions
with plain, explicitly aligned and bit-field members, natural, packed and under a pragma. -/
namespace Nanofil.Layouts
open Multiples

/-! ### Types -/

inductive Length
  | none_
  | known (n : Nat)
  | variable_
deriving DecidableEq, Repr

/-- The types; a function's parameters play no part here. -/
inductive CType
  | void | bool | char | schar | uchar | short | ushort | int | uint | long | ulong | llong | ullong
  | float | double | ldouble
  | ptr (t : CType)
  | func (ret : CType)
  | array (t : CType) (n : Length)
  | vec (e : CType) (n align : Nat)
  | atomic (t : CType) (p : Nat)
  | struct (id : Nat)
  | union (id : Nat)
  | qualified (qs : List Name) (t : CType)
  | bad (why : String)
deriving DecidableEq, Repr

inductive Kind
  | struct | union
deriving DecidableEq, Repr

inductive Sign
  | signed | unsigned
deriving DecidableEq, Repr

/-- A member at a byte, and a bit-field `pos` bits into the unit at one. -/
inductive Member
  | plain (name : Option Name) (type : CType) (off : Nat)
  | bits (name : Option Name) (type : CType) (off pos w : Nat)
deriving DecidableEq, Repr

/-- What a tag is bound to; `incomplete` has the members before one that is not supported. -/
inductive Def
  | def_ (kind : Kind) (members : List Member) (size align : Nat)
  | incomplete (why : String) (members : List Member)
  | bad (why : String)
deriving DecidableEq, Repr

/-- The definitions of the structs and unions in scope. -/
abbrev Env := Nat → Option Def

def intInfo : CType → Option (Nat × Sign)
  | .bool => some (1, .unsigned)
  | .char => some (1, .signed)
  | .schar => some (1, .signed)
  | .uchar => some (1, .unsigned)
  | .short => some (2, .signed)
  | .ushort => some (2, .unsigned)
  | .int => some (4, .signed)
  | .uint => some (4, .unsigned)
  | .long => some (8, .signed)
  | .ulong => some (8, .unsigned)
  | .llong => some (8, .signed)
  | .ullong => some (8, .unsigned)
  | _ => none

def defSizeAlign : Def → Except String (Nat × Nat)
  | .def_ _ _ size align => .ok (size, align)
  | .incomplete why _ => .error why
  | .bad why => .error why

def suSize (env : Env) (id : Nat) : Except String (Nat × Nat) :=
  match env id with
  | some d => defSizeAlign d
  | none => .error "incomplete"

/-- `type_size_align/4`; an error is what it throws. -/
def typeSizeAlign (env : Env) : CType → Except String (Nat × Nat)
  | .qualified _ t => typeSizeAlign env t
  | .bool | .char | .schar | .uchar => .ok (1, 1)
  | .short | .ushort => .ok (2, 2)
  | .int | .uint | .float => .ok (4, 4)
  | .long | .ulong | .llong | .ullong | .double | .ptr _ => .ok (8, 8)
  | .ldouble => .ok (16, 16)
  | .atomic _ p => .ok (p, p)
  | .array _ .variable_ => .error "variable length array"
  | .array _ .none_ => .error "incomplete"
  | .array t (.known n) => do
    let r ← typeSizeAlign env t
    return (r.1 * n, r.2)
  | .vec e n a => do
    let r ← typeSizeAlign env e
    return (r.1 * n, a)
  | .struct id => suSize env id
  | .union id => suSize env id
  | .bad why => .error why
  | .void | .func _ => .error "incomplete"

/-! ### Fields -/

inductive Packing
  | natural
  | packed
  | pack (n : Nat)
deriving DecidableEq, Repr

/-- Where a member's alignment starts from: its type, or a typedef with one of its own. -/
inductive Base
  | natural
  | typedef (align : Nat)
deriving DecidableEq, Repr

inductive Field
  | plain (name : Option Name) (type : CType)
  | aligned (name : Option Name) (type : CType) (base : Base) (explicit : Nat)
  | bits (name : Option Name) (type : CType) (w : Nat)
deriving DecidableEq, Repr

/-- `bitfield_width/5`, of a width that is constant. -/
def bitfieldWidth (name : Option Name) (type : CType) (w : Nat) : Bool :=
  match intInfo type with
  | none => false
  | some (size, _) => w ≤ (if type = .bool then 1 else 8 * size) ∧ (w = 0 → name = none)

/-- A flexible array has its element's alignment and no size. -/
def fieldSizeAlign (env : Env) : CType → Except String (Nat × Nat)
  | .array elem .none_ => do
    let r ← typeSizeAlign env elem
    return (0, r.2)
  | t => typeSizeAlign env t

def plainAlign (packing : Packing) (natural : Nat) : Nat :=
  match packing with
  | .packed => 1
  | .pack n => if n < natural then n else natural
  | .natural => natural

def baseAlign (base : Base) (natural : Nat) : Nat :=
  match base with
  | .natural => natural
  | .typedef align => align

def explicitAlign (packing : Packing) (base : Base) (explicit natural : Nat) : Nat :=
  match packing with
  | .packed => explicit
  | _ => max (baseAlign base natural) explicit

/-- Whether a pragma would align the member less than it asks for. -/
def underaligned (packing : Packing) (base : Base) (explicit natural : Nat) : Bool :=
  match packing with
  | .pack n => n < max (baseAlign base natural) explicit
  | _ => false

def memberOffsetEnd (kind : Kind) (end0 size align : Nat) : Nat × Nat :=
  match kind with
  | .struct => (nextMultiple ((end0 + 7) / 8) align, 8 * (nextMultiple ((end0 + 7) / 8) align + size))
  | .union => (0, max end0 (8 * size))

def bitfieldStartEnd (kind : Kind) (end0 w unitBits : Nat) : Nat × Nat :=
  match kind with
  | .union => (0, max end0 w)
  | .struct =>
    let start := if 0 < w ∧ end0 / unitBits = (end0 + w - 1) / unitBits then end0 else nextMultiple end0 unitBits
    (start, start + w)

/-- A member, or a packed bit-field whose unit is placed once the size is known. -/
inductive Spot
  | member (m : Member)
  | packedBits (name : Option Name) (type : CType) (start w : Nat)
deriving DecidableEq, Repr

/-- A bit-field in natural packing, after members that end at bit `end0` with alignment `align0`. -/
def naturalBits (kind : Kind) (env : Env) (name : Option Name) (type : CType) (w end0 align0 : Nat) :
    Except String (List Spot × Nat × Nat) := do
  let r ← typeSizeAlign env type
  let place := bitfieldStartEnd kind end0 w (8 * r.1)
  match name with
  | none => return ([], place.2, align0)
  | some n => return ([.member (.bits (some n) type (place.1 / (8 * r.1) * r.1) (place.1 % (8 * r.1)) w)], place.2, max align0 r.2)

def packedBits (kind : Kind) (env : Env) (name : Option Name) (type : CType) (w end0 align0 : Nat) :
    Except String (List Spot × Nat × Nat) := do
  let r ← typeSizeAlign env type
  let place :=
    if w = 0 then bitfieldStartEnd kind end0 0 (8 * r.1)
    else if kind = .union then (0, max end0 w)
    else (end0, end0 + w)
  match name with
  | none => return ([], place.2, align0)
  | some n => return ([.packedBits (some n) type place.1 w], place.2, align0)

/-- `field_member/7`: the members of a field, the bit where they end and the alignment with them. -/
def fieldMember (kind : Kind) (packing : Packing) (env : Env) (end0 align0 : Nat) : Field → Except String (List Spot × Nat × Nat)
  | .plain name type => do
    let r ← fieldSizeAlign env type
    let place := memberOffsetEnd kind end0 r.1 (plainAlign packing r.2)
    return ([.member (.plain name type place.1)], place.2, max align0 (plainAlign packing r.2))
  | .aligned name type base explicit => do
    let r ← fieldSizeAlign env type
    if underaligned packing base explicit r.2 then .error "#pragma pack of an explicitly aligned member"
    else
      let place := memberOffsetEnd kind end0 r.1 (explicitAlign packing base explicit r.2)
      return ([.member (.plain name type place.1)], place.2, max align0 (explicitAlign packing base explicit r.2))
  | .bits name type w =>
    match packing with
    | .natural => naturalBits kind env name type w end0 align0
    | .pack n => do
      let r ← typeSizeAlign env type
      if n ≥ r.2 then naturalBits kind env name type w end0 align0
      else .error "#pragma pack of a bit-field"
    | .packed => packedBits kind env name type w end0 align0

def fieldMembers (kind : Kind) (packing : Packing) (env : Env) : List Field → Nat → Nat → Except String (List (List Spot) × Nat × Nat)
  | [], end_, align => .ok ([], end_, align)
  | f :: fs, end0, align0 => do
    let r ← fieldMember kind packing env end0 align0 f
    let rs ← fieldMembers kind packing env fs r.2.1 r.2.2
    return (r.1 :: rs.1, rs.2)

/-- `packed_window/6`: the latest `size` bytes within `end_` that start at or before a bit, if they hold `w` bits from it. -/
def packedWindow (end_ start w size : Nat) : Option (Nat × Nat) :=
  let off := min (start / 8) (end_ - size)
  if size ≤ end_ ∧ start - 8 * off + w ≤ 8 * size then some (off, start - 8 * off) else none

/-- The narrowest integer of a type's sign with such a window, for a type no wider than int. -/
def narrowed (end_ start w size : Nat) (type : CType) : Option (CType × Nat × Nat) :=
  match intInfo type with
  | none => none
  | some (_, sign) =>
    if size ≤ 4 then
      [(1, CType.uchar), (1, .schar), (2, .ushort), (2, .short)].findSome? fun u =>
        if u.1 < size ∧ intInfo u.2 = some (u.1, sign) then (packedWindow end_ start w u.1).map (u.2, ·) else none
    else none

def packedUnit (end_ : Nat) (env : Env) : Spot → Except String Member
  | .member m => .ok m
  | .packedBits name type start w => do
    let r ← typeSizeAlign env type
    match packedWindow end_ start w r.1 with
    | some (off, pos) => return .bits name type off pos w
    | none =>
      match narrowed end_ start w r.1 type with
      | some (unit, off, pos) => return .bits name unit off pos w
      | none => .error "a packed bit-field that no access of its type covers"

/-! ### Layouts -/

def fieldsLayout (kind : Kind) (packing : Packing) (env : Env) (fields : List Field) : Except String (List Member × Nat × Nat) := do
  let r ← fieldMembers kind packing env fields 0 1
  let members ← r.1.flatten.mapM (packedUnit ((r.2.1 + 7) / 8) env)
  return (members, (r.2.1 + 7) / 8, r.2.2)

def layoutDef (kind : Kind) : Except String (List Member × Nat × Nat) → Def
  | .ok (members, end_, align) => .def_ kind members (nextMultiple end_ align) align
  | .error why => .bad why

def alignedDef (request : Nat) : Def → Def
  | .def_ kind members size0 align0 => .def_ kind members (nextMultiple size0 (max align0 request)) (max align0 request)
  | d => d

/-- `su_layout/6`. -/
def suLayout (kind : Kind) (packing : Packing) (fields : List Field) (request : Nat) (env : Env) : Def :=
  alignedDef request (layoutDef kind (fieldsLayout kind packing env fields))

/-- Bits that share a byte with a flag, packed to one byte, as the narrowest integer holds them. -/
example : suLayout .struct .packed [.bits (some "x") .uint 6, .bits (some "f") .uint 2] 1 (fun _ => none) =
    .def_ .struct [.bits (some "x") .uchar 0 0 6, .bits (some "f") .uchar 0 6 2] 1 1 := by decide

end Nanofil.Layouts
