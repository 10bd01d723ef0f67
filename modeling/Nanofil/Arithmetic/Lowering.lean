import Nanofil.Switching.Emission

/-! `c_lower.pl`: the code of the checked-arithmetic and bit builtins, with the conversions between integer types
it uses. The arguments have been lowered before, to values of integer types. -/
namespace Nanofil.Arithmetic
open Switching (IntType Emit size sign typeClass convertInt)

/-- A step of the lowering: it emits instructions and gives a result. -/
def Emitting (α : Type) := Emit → α × Emit

instance : Monad Emitting where
  pure a := fun s => (a, s)
  bind m f := fun s => f (m s).1 (m s).2

def let_ (k : Cls) (op : Op) (args : List Value) : Emitting Value := fun s => s.let_ k op args

def emit (i : Inst) : Emitting Unit := fun s => ((), s.emit i)

/-- `v(V, Type)`: an IR value and its type. -/
structure Lowered where
  v : Value
  type : IntType

/-! ### Conversions -/

/-- `narrow_type/3` from a size and a sign. -/
def narrowOp (size : Nat) (sign : Signedness) : LoadType :=
  match size, sign with
  | 1, .signed => .sb
  | 1, .unsigned => .ub
  | 2, .signed => .sh
  | 2, .unsigned => .uh
  | _, .signed => .sw
  | _, .unsigned => .uw

def representable (sizeFrom : Nat) (signFrom : Signedness) (sizeTo : Nat) (signTo : Signedness) : Bool :=
  (sizeFrom < sizeTo && (signTo = .signed || signFrom = .unsigned)) || (sizeFrom = sizeTo && signFrom = signTo)

def intConvert (src dst : IntType) (v : Value) : Emitting Value :=
  if size dst = 8 ∧ size src < 8 then let_ .l (.ext (narrowOp 4 (sign src))) [v]
  else if size dst < 4 ∧ !representable (size src) (sign src) (size dst) (sign dst) then
    let_ .w (.ext (narrowOp (size dst) (sign dst))) [v]
  else pure v

def truth (a : Lowered) : Emitting Value :=
  if typeClass a.type = .w then pure a.v else let_ .w (.cmp .ne .l) [a.v, .const 0]

def convert (a : Lowered) (dst : IntType) : Emitting Lowered :=
  if a.type = dst then pure a
  else if dst = .bool then do
    let w ← truth a
    if typeClass a.type = .w then
      let b ← let_ .w (.cmp .ne .w) [w, .const 0]
      pure ⟨b, .bool⟩
    else pure ⟨w, .bool⟩
  else match a.v with
    | .const n => pure ⟨.const (convertInt n dst), dst⟩
    | v => do
      let v ← intConvert a.type dst v
      pure ⟨v, dst⟩

/-! ### Counts -/

def smear : List Nat → Value → Emitting Value
  | [], x => pure x
  | sh :: shs, x => do
    let t ← let_ .l .shr [x, .const sh]
    let x1 ← let_ .l .or [x, t]
    smear shs x1

def popcount64 (x : Value) : Emitting Value := do
  let a1 ← let_ .l .shr [x, .const 1]
  let a2 ← let_ .l .and [a1, .const 0x5555555555555555]
  let b ← let_ .l .sub [x, a2]
  let c1 ← let_ .l .and [b, .const 0x3333333333333333]
  let c2 ← let_ .l .shr [b, .const 2]
  let c3 ← let_ .l .and [c2, .const 0x3333333333333333]
  let c ← let_ .l .add [c1, c3]
  let d1 ← let_ .l .shr [c, .const 4]
  let d2 ← let_ .l .add [c, d1]
  let d ← let_ .l .and [d2, .const 0x0f0f0f0f0f0f0f0f]
  let e ← let_ .l .mul [d, .const 0x0101010101010101]
  let_ .l .shr [e, .const 56]

inductive BitOp
  | ctz | clz | popcount | ffs
deriving DecidableEq

/-- The count of a `bits`-wide value, zero-extended. -/
def bitCount (op : BitOp) (bits : Nat) (x : Value) : Emitting Value :=
  match op with
  | .popcount => popcount64 x
  | .ctz => do
    let x ← if bits < 64 then let_ .l .or [x, .const (2 ^ bits)] else pure x
    let m ← let_ .l .neg [x]
    let low ← let_ .l .and [x, m]
    let below ← let_ .l .sub [low, .const 1]
    popcount64 below
  | .ffs => do
    let m ← let_ .l .neg [x]
    let low ← let_ .l .and [x, m]
    let low2 ← let_ .l .add [low, low]
    let upto ← let_ .l .sub [low2, .const 1]
    let p ← popcount64 upto
    let any ← let_ .l .or [x, m]
    let nz ← let_ .l .shr [any, .const 63]
    let_ .l .mul [p, nz]
  | .clz => do
    let s ← smear [1, 2, 4, 8, 16, 32] x
    let p ← popcount64 s
    let negN ← let_ .l .sub [p, .const bits]
    let_ .l .neg [negN]

/-- Each byte in the list moved to its mirror image; none before the first. -/
def swappedBytes : List Nat → Value → Nat → Option Value → Emitting (Option Value)
  | [], _, _, y => pure y
  | i :: is, x, last, y0 => do
    let b0 ← let_ .l .shr [x, .const (8 * i)]
    let b ← let_ .l .and [b0, .const 255]
    let moved ← let_ .l .shl [b, .const (8 * (last - i))]
    let y1 ← match y0 with
      | none => pure moved
      | some y0 => let_ .l .or [y0, moved]
    swappedBytes is x last (some y1)

/-! ### Bit builtins -/

def bitBuiltin (op : BitOp) (type : IntType) (a : Lowered) : Emitting Lowered := do
  let v1 ← convert a type
  let x ← convert v1 .ulong
  let n ← bitCount op (8 * size type) x.v
  convert ⟨n, .long⟩ .int

def bswapBuiltin (type : IntType) (a : Lowered) : Emitting Lowered := do
  let v1 ← convert a type
  let x ← convert v1 .ulong
  let y ← swappedBytes (List.range (size type)) x.v (size type - 1) none
  convert ⟨y.getD (.const 0), .ulong⟩ type

inductive Dir
  | left | right
deriving DecidableEq

/-- The two shifts of a rotate, by the count and by its negative modulo the width. -/
def rotateWord (dir : Dir) (x n : Value) (mask : Nat) : Emitting Value := do
  let s ← let_ .l .and [n, .const mask]
  let m ← let_ .l .neg [n]
  let t ← let_ .l .and [m, .const mask]
  let y1 ← let_ .l (if dir = .left then .shl else .shr) [x, s]
  let y2 ← let_ .l (if dir = .left then .shr else .shl) [x, t]
  let_ .l .or [y1, y2]

def rotateBuiltin (dir : Dir) (type : IntType) (a b : Lowered) : Emitting Lowered := do
  let va ← convert a type
  let vb ← convert b type
  let x ← convert va .ulong
  let n ← convert vb .ulong
  let y ← rotateWord dir x.v n.v (8 * size type - 1)
  convert ⟨y, .ulong⟩ type

/-! ### Checked arithmetic -/

inductive CheckedOp
  | add | sub | mul
deriving DecidableEq

/-- The value in two limbs. A narrow one is extended from its low word. -/
def overflowWiden (a : Lowered) : Emitting (Value × Value) := do
  let low ← if size a.type < 8 then let_ .l (.ext (if sign a.type = .signed then .sw else .uw)) [a.v] else pure a.v
  let high ← if sign a.type = .signed then let_ .l .sar [low, .const 63] else pure (.const 0)
  pure (low, high)

def overflowExact (op : CheckedOp) (x xh y yh : Value) : Emitting (Value × Value) :=
  match op with
  | .add => do
    let low ← let_ .l .add [x, y]
    let carry ← let_ .w (.cmp .ult .l) [low, x]
    let c ← let_ .l (.ext .uw) [carry]
    let h ← let_ .l .add [xh, yh]
    let high ← let_ .l .add [h, c]
    pure (low, high)
  | .sub => do
    let low ← let_ .l .sub [x, y]
    let borrow ← let_ .w (.cmp .ult .l) [x, y]
    let c ← let_ .l (.ext .uw) [borrow]
    let h ← let_ .l .sub [xh, yh]
    let high ← let_ .l .sub [h, c]
    pure (low, high)
  | .mul => do
    let low ← let_ .l .mul [x, y]
    let xl ← let_ .l .and [x, .const 4294967295]
    let xu ← let_ .l .shr [x, .const 32]
    let yl ← let_ .l .and [y, .const 4294967295]
    let yu ← let_ .l .shr [y, .const 32]
    let ll ← let_ .l .mul [xl, yl]
    let ul ← let_ .l .mul [xu, yl]
    let lu ← let_ .l .mul [xl, yu]
    let uu ← let_ .l .mul [xu, yu]
    let llh ← let_ .l .shr [ll, .const 32]
    let ull ← let_ .l .and [ul, .const 4294967295]
    let lul ← let_ .l .and [lu, .const 4294967295]
    let mid0 ← let_ .l .add [llh, ull]
    let mid ← let_ .l .add [mid0, lul]
    let carry ← let_ .l .shr [mid, .const 32]
    let ulh ← let_ .l .shr [ul, .const 32]
    let luh ← let_ .l .shr [lu, .const 32]
    let h0 ← let_ .l .add [uu, ulh]
    let h1 ← let_ .l .add [h0, luh]
    let h2 ← let_ .l .add [h1, carry]
    -- a negative operand takes the other one off the unsigned product's high limb
    let cx ← let_ .l .and [xh, y]
    let cy ← let_ .l .and [yh, x]
    let h3 ← let_ .l .sub [h2, cx]
    let high ← let_ .l .sub [h3, cy]
    pure (low, high)

def storeWidth (type : IntType) : Width :=
  match size type with
  | 1 => .b
  | 2 => .h
  | 4 => .w
  | _ => .l

/-- A fixed builtin converts its operands first. -/
def overflowOperand (fixed : Option IntType) (a : Lowered) : Emitting Lowered :=
  match fixed with
  | none => pure a
  | some t => convert a t

/-- The exact result in two limbs and the value to store. -/
def overflowStored (op : CheckedOp) (fixed : Option IntType) (a b : Lowered) (type : IntType) :
    Emitting ((Value × Value) × Lowered) := do
  let va ← overflowOperand fixed a
  let vb ← overflowOperand fixed b
  let (x, xh) ← overflowWiden va
  let (y, yh) ← overflowWiden vb
  let exact ← overflowExact op x xh y yh
  let stored ← convert ⟨exact.1, .ulong⟩ type
  pure (exact, stored)

/-- The exact result compared with the stored value. -/
def overflowFlag (exact : Value × Value) (stored : Lowered) : Emitting Lowered := do
  let (back, backH) ← overflowWiden stored
  let badLow ← let_ .w (.cmp .ne .l) [exact.1, back]
  let badHigh ← let_ .w (.cmp .ne .l) [exact.2, backH]
  let flag ← let_ .w .or [badLow, badHigh]
  pure ⟨flag, .bool⟩

/-- The last argument is a pointer, here its value, to an object of the result's type. -/
def checkedArithmetic (op : CheckedOp) (fixed : Option IntType) (a b : Lowered) (addr : Value) (type : IntType) :
    Except String (Emitting Lowered) :=
  if type ≠ .bool ∧ (fixed = none ∨ fixed = some type) then
    .ok do
      let r ← overflowStored op fixed a b type
      emit (.store (storeWidth type) r.2.v addr)
      overflowFlag r.1 r.2
  else .error "invalid checked arithmetic operand types"

/-! ### Names -/

inductive Builtin
  | overflow (op : CheckedOp) (fixed : Option IntType)
  | bit (op : BitOp) (type : IntType)
  | bswap (type : IntType)
  | rotate (dir : Dir) (type : IntType)
deriving DecidableEq

/-- `overflow_builtin/3`, `bit_builtin/3`, the byte swaps of `builtin_type/2` and `rotate_builtin/3`. -/
def builtins : List (String × Builtin) :=
  ([("add", CheckedOp.add), ("sub", .sub), ("mul", .mul)].flatMap fun (name, op) =>
    ("__builtin_" ++ name ++ "_overflow", .overflow op none) ::
      [("s", "", IntType.int), ("u", "", .uint), ("s", "l", .long), ("u", "l", .ulong), ("s", "ll", .llong), ("u", "ll", .ullong)].map
        fun (pre, suffix, t) => ("__builtin_" ++ pre ++ name ++ suffix ++ "_overflow", .overflow op (some t))) ++
  ([("ctz", BitOp.ctz), ("clz", .clz), ("popcount", .popcount), ("ffs", .ffs)].flatMap fun (name, op) =>
    [("", IntType.uint), ("l", .ulong), ("ll", .ullong)].map fun (suffix, t) => ("__builtin_" ++ name ++ suffix, .bit op t)) ++
  [("__builtin_bswap16", .bswap .ushort), ("__builtin_bswap32", .bswap .uint), ("__builtin_bswap64", .bswap .ulong)] ++
  ([("left", Dir.left), ("right", .right)].flatMap fun (name, dir) =>
    [("8", IntType.uchar), ("16", .ushort), ("32", .uint), ("64", .ulong)].map
      fun (bits, t) => ("__builtin_rotate" ++ name ++ bits, .rotate dir t))

end Nanofil.Arithmetic
