import Nanofil.Memory

/-! The operations of `interp.pl`: `alu/4`, loads and stores with their pointer
protocols, and `kind_res/8`. -/
namespace Nanofil

def rawAddress (a off : Int) : Int := (a + off) % 18446744073709551616

/-- A rule of the source that has no clause for these arguments. -/
def orNoRule {α : Type} : Option α → Except RunError α
  | some x => .ok x
  | none => .error .noRule

/-! ### Words at a class -/

/-- `word_at_class/3`: the low bits of a word at a class. -/
def wordAtClass (k : Cls) (x : Word) : Except RunError Word :=
  match k, x with
  | .p, x | .a, x | .f, x => .ok x
  | .l, .limit c size => .ok (.limit c size)
  | k, .int n => do
    let m ← orNoRule (modulus k)
    return .int (n % m)
  | _, _ => .error .noRule

def constantAtClass (k : Cls) (a : Int) : Except RunError Word :=
  match k with
  | .p => .ok (.ptr a .none)
  | .a | .f => .error .noRule
  | _ => .ok (.int a)

/-! ### Arithmetic -/

def signExtension (m h u : Int) : Int := if u % m ≥ h then u % m - m else u % m

def signed (k : Cls) (u : Int) : Except RunError Int := do
  let m ← orNoRule (modulus k)
  let h ← orNoRule (halfModulus k)
  return signExtension m h u

def extension (t : LoadType) (x : Int) : Except RunError Int :=
  match t with
  | .sb => .ok (signExtension 256 128 x)
  | .ub => .ok (x % 256)
  | .sh => .ok (signExtension 65536 32768 x)
  | .uh => .ok (x % 65536)
  | .sw => .ok (signExtension 4294967296 2147483648 x)
  | .uw => .ok (x % 4294967296)
  | _ => .error .noRule

def bit (b : Bool) : Int := if b then 1 else 0

def condBit (c : Cond) (k : Cls) (x y : Int) : Except RunError Int :=
  match c with
  | .eq => .ok (bit (x = y))
  | .ne => .ok (bit (x ≠ y))
  | .ult => .ok (bit (x < y))
  | .ule => .ok (bit (x ≤ y))
  | .ugt => .ok (bit (x > y))
  | .uge => .ok (bit (x ≥ y))
  | .slt => do return bit ((← signed k x) < (← signed k y))
  | .sle => do return bit ((← signed k x) ≤ (← signed k y))
  | .sgt => do return bit ((← signed k x) > (← signed k y))
  | .sge => do return bit ((← signed k x) ≥ (← signed k y))
  | _ => .error .noRule

/-- Division is total: a zero divisor gives 0, and `MIN / -1` wraps. -/
def signedDivision (k : Cls) (x y : Int) (div : Int → Int → Int) : Except RunError Int := do
  let sx ← signed k x
  let sy ← signed k y
  if sy = 0 then return 0
  else
    let m ← orNoRule (modulus k)
    return div sx sy % m

def unsignedDivision (x y : Int) (div : Int → Int → Int) : Int := if y = 0 then 0 else div x y

/-- The shift count is taken modulo the class width. -/
def shiftFactor (k : Cls) (y : Int) : Except RunError Int := do
  let bits ← orNoRule (classBits k)
  return 2 ^ (y % bits).toNat

def intOp (op : Op) (k : Cls) (x y : Int) : Except RunError Int := do
  match op with
  | .add => return (x + y) % (← orNoRule (modulus k))
  | .sub => return (x - y) % (← orNoRule (modulus k))
  | .mul => return (x * y) % (← orNoRule (modulus k))
  | .and => return Int.land x y
  | .or => return Int.lor x y
  | .xor => return Int.xor x y
  | .udiv => return unsignedDivision x y Int.tdiv
  | .urem => return unsignedDivision x y (· % ·)
  | .div => signedDivision k x y Int.tdiv
  | .rem => signedDivision k x y Int.tmod
  | .shl => return (x * (← shiftFactor k y)) % (← orNoRule (modulus k))
  | .shr => return x.tdiv (← shiftFactor k y)
  | .sar => return ((← signed k x) / (← shiftFactor k y)) % (← orNoRule (modulus k))
  | .cmp c ck => condBit c ck x y
  | _ => .error .noRule

def alu (op : Op) (k : Cls) (xs : List Word) : Except RunError Word :=
  match op, xs with
  | .ptoi, [.ptr a _] => .ok (.int a)
  | .itop, [.int x] => .ok (.ptr x .none)
  | .copy, [x] => .ok x
  | .neg, [.int x] => do return .int (-x % (← orNoRule (modulus k)))
  | .ext t, [.int x] => do return .int ((← extension t x) % (← orNoRule (modulus k)))
  | op, [.int x, .int y] => do return .int (← intOp op k x y)
  | _, _ => .error .noRule

def pointerOffset (op : Op) (a x : Int) : Except RunError Int :=
  match op with
  | .add => .ok ((a + x) % 18446744073709551616)
  | .sub => .ok ((a - x) % 18446744073709551616)
  | _ => .error .noRule

/-- Pointer arithmetic keeps the capability. -/
def additiveRes (k : Cls) (op : Op) (xs : List Word) : Except RunError Word :=
  match k, xs with
  | .p, [.ptr a c, .int x] => do return .ptr (← pointerOffset op a x) c
  | .w, xs => alu op .w xs
  | .l, xs => alu op .l xs
  | _, _ => .error .noRule

/-! ### Floats -/

def fmt : Cls → Option Ieee.Fmt
  | .s => some .s | .d => some .d | .x => some .x
  | _ => none

def floatOp : Op → Option Ieee.Arith
  | .add => some .add | .sub => some .sub | .mul => some .mul | .div => some .div
  | _ => none

def floatArithmetic (op : Op) (k : Ieee.Fmt) (xs : List Word) : Except RunError Word :=
  match op, xs with
  | .copy, [.int x] => .ok (.int x)
  | .neg, [.int x] => .ok (.int (Ieee.ieeeNeg k x))
  | op, [.int x, .int y] => do return .int (Ieee.ieeeBinary k (← orNoRule (floatOp op)) x y)
  | _, _ => .error .noRule

def floatSource : Op → Option (Ieee.Fmt × Signedness)
  | .stosi => some (.s, .signed) | .stoui => some (.s, .unsigned)
  | .dtosi => some (.d, .signed) | .dtoui => some (.d, .unsigned)
  | .xtosi => some (.x, .signed) | .xtoui => some (.x, .unsigned)
  | _ => none

def floatInteger (op : Op) (k : Cls) (x : Int) : Except RunError (Res Word) := do
  let src ← orNoRule (floatSource op)
  let m ← orNoRule (modulus k)
  let range := match src.2 with
    | .signed => (-(m / 2), m / 2 - 1)
    | .unsigned => (0, m - 1)
  match Ieee.ieeeToInt src.1 x with
  | some n => return if range.1 ≤ n ∧ n ≤ range.2 then .val (.int (n % m)) else .ub .floatConversion
  | none => return .ub .floatConversion

def integerSource (op : Op) (x : Int) : Except RunError Int :=
  match op with
  | .swtof => signed .w x
  | .sltof => signed .l x
  | .uwtof | .ultof => .ok x
  | _ => .error .noRule

def floatConvert (op : Op) (k : Cls) (x : Int) : Except RunError Word :=
  match op with
  | .ext .s => do return .int (Ieee.ieeeConvert .s (← orNoRule (fmt k)) x)
  | .ext .d => if k = .x then .ok (.int (Ieee.ieeeConvert .d .x x)) else .error .noRule
  | .truncd => if k = .s then .ok (.int (Ieee.ieeeConvert .d .s x)) else .error .noRule
  | .truncx => do return .int (Ieee.ieeeConvert .x (← orNoRule (fmt k)) x)
  | _ => .error .noRule

/-! ### Loads -/

def extendedRes (res : Res Int) (t : LoadType) (k : Cls) : Except RunError (Res Word) :=
  match res with
  | .val u => do return .val (.int ((← extension t u) % (← orNoRule (modulus k))))
  | .ub u => .ok (.ub u)
  | .trap why => .ok (.trap why)
  | .unchecked why => .ok (.unchecked why)

def Res.word : Res Int → Res Word
  | .val n => .val (.int n)
  | .ub u => .ub u
  | .trap why => .trap why
  | .unchecked why => .unchecked why

/-- `int_load_res/7`: Fil-C checks the capability, plain mode the region as it reads. -/
def intLoadRes (mode : Mode) (size : Nat) (addr : Word) (mem : Mem) : Except RunError (Res Int × Mem) :=
  match mode, addr with
  | .plain, .int a => .ok (loadRes .plain mem a size)
  | .filc, .ptr a cap => do
    match ← accessRes mem a cap size .read 1 with
    | .ok => return loadRes .filc mem a size
    | .trap why => return (.trap why, mem)
  | _, _ => .error .noRule

def auxCap (mem : Mem) (a : Int) : Cap := (mem.aux a).getD .none

/-- The word and the capability the last pointer store left there. -/
def pointerAccessLoad (mem : Mem) (a : Int) : Except RunError (Word × Mem) :=
  match loadRes .filc mem a 8 with
  | (.val u, mem') => .ok (.ptr u (auxCap mem' a), mem')
  | _ => .error .noRule

def pointerLoadRes (mode : Mode) (addr : Word) (mem : Mem) : Except RunError (Res Word × Mem) :=
  match mode, addr with
  | .filc, .ptr a cap => do
    match ← accessRes mem a cap 8 .read 8 with
    | .ok => do
      let r ← pointerAccessLoad mem a
      return (.val r.1, r.2)
    | .trap why => return (.trap why, mem)
  | _, _ => .error .noRule

def loadOpRes (t : LoadType) (k : Cls) (mode : Mode) (addr : Word) (mem : Mem) :
    Except RunError (Res Word × Mem) :=
  match t with
  | .p => pointerLoadRes mode addr mem
  | .l | .s | .d | .x => do
    let r ← intLoadRes mode (loadBytes t) addr mem
    return (r.1.word, r.2)
  | t => do
    let r ← intLoadRes mode (loadBytes t) addr mem
    return (← extendedRes r.1 t k, r.2)

/-! ### Pointer protocols -/

structure Loaded where
  aux : Cap
  addr : Int
  lower : Cap
  mem : Mem

def addressRead (a : Int) (x : Loaded) : Except RunError Loaded :=
  match loadRes .filc x.mem a 8 with
  | (.val u, mem) => .ok { x with addr := u, mem := mem }
  | _ => .error .noRule

def auxRead (a : Int) (x : Loaded) : Loaded := { x with aux := auxCap x.mem a, lower := auxCap x.mem a }

def pointerLoadEffect (a : Int) (x : Loaded) : Effect → Except RunError Loaded
  | .auxRead => .ok (auxRead a x)
  | .lowerResolve => .ok { x with lower := x.aux }
  | .atomicRead => addressRead a (auxRead a x)
  | .addressRead => addressRead a x
  | _ => .error .noRule

def pointerLoadEffectsRes (check : Check) (effects : List Effect) (a : Int) (mem : Mem) :
    Except RunError (Res Word × Mem) :=
  match check with
  | .ok => do
    let x ← effects.foldlM (pointerLoadEffect a) { aux := .none, addr := 0, lower := .none, mem := mem }
    return (.val (.ptr x.addr x.lower), x.mem)
  | .trap why => .ok (.unchecked why, mem)

def lowerWrite (a : Int) (c : Cap) (mem : Mem) : Mem := { mem with aux := update mem.aux a c }

def pointerStoreEffect (a u : Int) (c : Cap) (mem : Mem) : Effect → Except RunError Mem
  | .auxEnsure | .lowerBarrier | .rootedReload => .ok mem
  | .atomicWrite => .ok (writeBytes (lowerWrite a c mem) a 8 u)
  | .lowerWrite => .ok (lowerWrite a c mem)
  | .addressWrite => .ok (writeBytes mem a 8 u)
  | _ => .error .noRule

def pointerStoreEffectsRes (check : Check) (effects : List Effect) (a : Int) (x : Word) (mem : Mem) :
    Except RunError (Res Unit × Mem) :=
  match check, x with
  | .ok, .ptr u c => do
    let mem' ← effects.foldlM (pointerStoreEffect a u c) mem
    return (.val (), mem')
  | .ok, _ => .error .noRule
  | .trap why, _ => .ok (.unchecked why, mem)

/-! ### Compare-exchange -/

/-- What a compare-exchange of integers yields: the old value at its type. -/
def casResult (t : LoadType) (k : Cls) (u : Int) : Except RunError (Res Word) :=
  if t = .l then .ok (.val (.int u)) else extendedRes (.val u) t k

def casChecked (t : LoadType) (k : Cls) (e n : Word) (a : Int) (size : Nat) (mem : Mem) :
    Except RunError (Res Word × Mem) :=
  match t, e, n with
  | .p, .ptr eu _, .ptr nu nc => do
    let r ← pointerAccessLoad mem a
    match r.1 with
    | .ptr u _ =>
      return (.val r.1, if u = eu then writeBytes (lowerWrite a nc r.2) a 8 nu else r.2)
    | _ => .error .noRule
  | .p, _, _ => .error .noRule
  | t, .int e, .int n =>
    match loadRes .filc mem a size with
    | (.val u, mem1) => do
      let res ← casResult t k u
      return (res, if u = e % 2 ^ (8 * size) then writeBytes mem1 a size n else mem1)
    | _ => .error .noRule
  | _, _, _ => .error .noRule

def casRes (t : LoadType) (k : Cls) (e n : Word) (a : Int) (cap : Cap) (mem : Mem) :
    Except RunError (Res Word × Mem) := do
  let sa ← orNoRule (accessSizeAlign (.cas t))
  match ← accessRes mem a cap sa.1 .write sa.2 with
  | .ok => casChecked t k e n a sa.1.toNat mem
  | .trap why => return (.trap why, mem)

/-! ### Checks and their reuses -/

/-- A check whose access test is this yields its pointer, proven, or traps. -/
def checkedRes (res : Check) (p : Word) : Res Word :=
  match res with
  | .ok => .val p
  | .trap why => .trap why

def capBase : Cap → Option Int
  | .obj base | .ro base => some base
  | _ => none

def capFreed (cap : Cap) (mem : Mem) : Except RunError Bool :=
  match capBase cap with
  | some base => do
    let r ← objectRegion base mem.regions
    return r.life = .freed
  | none => .ok false

/-- A freed object is the program's trap, as a read-only one is; any other failure is not. -/
def renewRes (res : Check) (p : Word) (cap : Cap) (mem : Mem) : Except RunError (Res Word) :=
  match res with
  | .ok => .ok (.val p)
  | .trap .readonly => .ok (.trap .readonly)
  | .trap _ => do
    let freed ← capFreed cap mem
    return if freed then .trap .outOfBounds else .unchecked .span

/-- The access test of `[a + lo, a + hi)`. -/
def spanAccess (mem : Mem) (a : Int) (cap : Cap) (lo hi : Int) (rights : Rights) (align : Int) :
    Except RunError Check :=
  accessRes mem (rawAddress a lo) cap (hi - lo) rights align

def checkRes (mem : Mem) (a : Int) (cap : Cap) (lo hi : Int) (rights : Rights) (align : Int) :
    Except RunError (Res Word) := do
  return checkedRes (← spanAccess mem a cap lo hi rights align) (.ptr a cap)

/-- The check of `[lo, ahi)`; when that passes and `[lo, hi)` does not, an early trap. -/
def checkAheadRes (mem : Mem) (a : Int) (cap : Cap) (lo hi : Int) (rights : Rights) (align ahi : Int) :
    Except RunError (Res Word) := do
  match ← spanAccess mem a cap lo ahi rights align with
  | .trap why => return .trap why
  | .ok =>
    match ← spanAccess mem a cap lo hi rights align with
    | .trap why => return .trap (.early why)
    | .ok => return .val (.ptr a cap)

def renewOpRes (mem : Mem) (a : Int) (cap : Cap) (lo hi : Int) (rights : Rights) (align : Int) :
    Except RunError (Res Word) := do
  renewRes (← spanAccess mem a cap lo hi rights align) (.ptr a cap) cap mem

def halfBound (bound : Bound) (b size : Int) (r : Region) : Bool :=
  match bound with
  | .upper => b + size ≤ r.end_
  | .lower => r.life ≠ .freed ∧ signExtension 18446744073709551616 9223372036854775808 b ≥ r.base

/-- `half_passes/8`: none for a capability that is not an object's. -/
def halfPasses (bound : Bound) (mem : Mem) (b size : Int) (cap : Cap) (rights : Rights) (align : Int) :
    Except RunError (Option Bool) :=
  match capBase cap with
  | none => .ok none
  | some base => do
    let r ← objectRegion base mem.regions
    return some (halfBound bound b size r && !(rights = .write && cap = .ro base) && b % align = 0)

def halfRes (res : Check) (passes : Bool) (p : Word) : Res Word :=
  match res, passes with
  | .ok, true => .val p
  | .trap why, false => .trap why
  | _, _ => .unchecked .half

def halfCheckRes (mem : Mem) (a : Int) (cap : Cap) (bound : Bound) (lo hi : Int) (rights : Rights)
    (align : Int) : Except RunError (Res Word) := do
  let res ← spanAccess mem a cap lo hi rights align
  match ← halfPasses bound mem (rawAddress a lo) (hi - lo) cap rights align with
  | some passes => return halfRes res passes (.ptr a cap)
  | none => return .unchecked .half

/-- 1 when the object's current bounds contain the span, 0 otherwise; never a trap. -/
def spanTestRes (mem : Mem) (a : Int) (cap : Cap) (lo hi : Int) : Except RunError (Res Word) :=
  match capBase cap with
  | none => .ok (.val (.int 0))
  | some base => do
    let r ← objectRegion base mem.regions
    return .val (.int (bit (base ≤ rawAddress a lo ∧ rawAddress a lo < rawAddress a hi ∧
      rawAddress a hi ≤ r.end_)))

def renewIfRes (mem : Mem) (a : Int) (cap : Cap) (g lo hi : Int) (rights : Rights) (align : Int) :
    Except RunError (Res Word) := do
  let res ← spanAccess mem a cap lo hi rights align
  if g = 0 then return checkedRes res (.ptr a cap)
  else if res = .trap .misaligned then return .trap .misaligned
  else renewRes res (.ptr a cap) cap mem

def checkLimitRes (mem : Mem) (a : Int) (cap : Cap) (u : Word) (lo hi : Int) (rights : Rights)
    (align : Int) : Except RunError (Res Word) :=
  if u = .limit cap (hi - lo) then checkRes mem a cap lo hi rights align
  else .ok (.unchecked .limit)

/-- What would have trapped is unchecked. -/
def rawRes {α : Type} : Res α → Res α
  | .val x => .val x
  | .ub u => .ub u
  | .trap why => .unchecked why
  | .unchecked why => .unchecked why

/-! ### Variadic arguments -/

def classBytes : Cls → Nat
  | .w => 4 | .l => 8 | .p => 8 | .s => 4 | .d => 8 | .x => 10 | .a => 0 | .f => 0

/-- A `va_arg` takes a cell: a long double's is 16 bytes at 16, of which it reads its 10. -/
def vaCell (k : Cls) : Int × Int :=
  match k with
  | .x => (16, 16)
  | k => (classBytes k, 8)

def vaCheckedRes (k : Cls) (p : Word) (a step : Int) (mem : Mem) : Except RunError (Res Word × Mem) := do
  let st ← storeRes .filc .l mem p (.int (a + step))
  match st.1 with
  | .trap why => return (.trap why, st.2)
  | _ =>
    if k = .p then
      let r ← pointerAccessLoad st.2 a
      return (.val r.1, r.2)
    else
      let r := loadRes .filc st.2 a (classBytes k)
      return (r.1.word, r.2)

def vaArgRes (k : Cls) (p : Word) (mem : Mem) : Except RunError (Res Word × Mem) := do
  let cursor ← pointerLoadRes .filc p mem
  match cursor with
  | (.val (.ptr a cap), mem1) =>
    let cell := vaCell k
    let aligned := roundUp a cell.2
    match ← accessRes mem1 aligned cap cell.1 .read 8 with
    | .ok => vaCheckedRes k p aligned cell.1 mem1
    | .trap why => return (.trap why, mem1)
  | (.trap why, mem1) => return (.trap why, mem1)
  | _ => .error .noRule

/-! ### Operations by kind -/

def valRes (mem : Mem) (x : Except RunError Word) : Except RunError (Res Word × Mem) := do
  return (.val (← x), mem)

def keep (mem : Mem) (x : Except RunError (Res Word)) : Except RunError (Res Word × Mem) := do
  return (← x, mem)

def hasCap (cap : Cap) : Word → Bool
  | .ptr _ c => c = cap
  | _ => false

/-- The proofs an operation reads are of its pointer's object, or it is unchecked. -/
def sameCapRes (mem : Mem) (qs : List Word) (p : Word) (f : Int → Cap → Except RunError (Res Word)) :
    Except RunError (Res Word × Mem) :=
  match p with
  | .ptr a cap => if qs.all (hasCap cap) then keep mem (f a cap) else .ok (.unchecked .alias, mem)
  | _ => .ok (.unchecked .alias, mem)

/-- The proof operations: their result is a proven address, in a Fil-C module. -/
def proofRes (op : Op) (xs : List Word) (mem : Mem) : Except RunError (Res Word × Mem) :=
  match op, xs with
  | .check lo hi rights align, [.ptr a cap] => keep mem (checkRes mem a cap lo hi rights align)
  | .checkAhead lo hi rights align ahi, [.ptr a cap] =>
    keep mem (checkAheadRes mem a cap lo hi rights align ahi)
  | .renew lo hi rights align, [q, p] =>
    sameCapRes mem [q] p (fun a cap => renewOpRes mem a cap lo hi rights align)
  | .renewHull lo hi rights align, [ql, qh, p] =>
    sameCapRes mem [ql, qh] p (fun a cap => renewOpRes mem a cap lo hi rights align)
  | .halfCheck bound lo hi rights align, [q, p] =>
    sameCapRes mem [q] p (fun a cap => halfCheckRes mem a cap bound lo hi rights align)
  | .renewIf lo hi rights align, [.ptr a cap, .int g] =>
    keep mem (renewIfRes mem a cap g lo hi rights align)
  | .checkLimit lo hi rights align, [.ptr a cap, u] =>
    keep mem (checkLimitRes mem a cap u lo hi rights align)
  | _, _ => .error .noRule

def kindRes (kind : OpKind) (op : Op) (k : Cls) (mode : Mode) (xs : List Word) (mem : Mem) :
    Except RunError (Res Word × Mem) :=
  match kind, op, xs with
  | .setjmp, _, _ => .error .setjmp
  | .load, .load t, [addr] => loadOpRes t k mode addr mem
  | .atomicLoad, _, [addr] => loadOpRes .p k mode addr mem
  | .check, op, xs | .checkAhead, op, xs | .renew, op, xs | .renewHull, op, xs
  | .halfCheck, op, xs | .renewIf, op, xs | .checkLimit, op, xs =>
    if k = .a ∧ mode = .filc then proofRes op xs mem else .error .noRule
  | .spanTest, .spanTest lo hi, [.ptr a cap] =>
    if k = .w ∧ mode = .filc then keep mem (spanTestRes mem a cap lo hi) else .error .noRule
  | .limit, .limit size, [.ptr _ cap] =>
    if k = .l ∧ mode = .filc then .ok (.val (.limit cap size), mem) else .error .noRule
  | .ld, .rawLoad t off, [.ptr a cap] =>
    if mode = .filc then do
      let r ← loadOpRes t k .filc (.ptr (rawAddress a off) cap) mem
      return (rawRes r.1, r.2)
    else .error .noRule
  | .ldPointer, .rawLoadPointer off effects, [.ptr a cap] =>
    if k = .p ∧ mode = .filc then do
      let check ← accessRes mem (rawAddress a off) cap 8 .read 8
      pointerLoadEffectsRes check effects (rawAddress a off) mem
    else .error .noRule
  | .cas, .cas t, [e, n, .ptr a cap] =>
    if mode = .filc then casRes t k e n a cap mem else .error .noRule
  | .rawCas, .rawCas t off, [.ptr a cap, e, n] =>
    if mode = .filc then do
      let r ← casRes t k e n (rawAddress a off) cap mem
      return (rawRes r.1, r.2)
    else .error .noRule
  | .alloc, .alloc align, [.int size] => .ok (allocRes mode mem align size)
  | .vaArg, _, [p] => if mode = .filc then vaArgRes k p mem else .error .noRule
  | .additive, op, xs => valRes mem (additiveRes k op xs)
  | .alu, op, xs | .shift, op, xs | .neg, op, xs | .copy, op, xs | .ptoi, op, xs
  | .itop, op, xs | .cmp, op, xs | .ext, op, xs => valRes mem (alu op k xs)
  | .floatConvert, op, [.int x] => valRes mem (floatConvert op k x)
  | .floatToInt, op, [.int x] => keep mem (floatInteger op k x)
  | .intToFloat, op, [.int x] => valRes mem (do
      let n ← integerSource op x
      let f ← orNoRule (fmt k)
      return .int (Ieee.ieeeFromInt f n))
  | .cast, _, [.int x] => .ok (.val (.int x), mem)
  | _, _, _ => .error .noRule

def floatArithmeticOp (op : Op) : Bool :=
  op = .add || op = .sub || op = .mul || op = .div || op = .neg || op = .copy

/-- `op_res/7`: float comparisons and arithmetic first, then the operation's kind. -/
def opRes (op : Op) (k : Cls) (mode : Mode) (xs : List Word) (mem : Mem) :
    Except RunError (Res Word × Mem) :=
  match op, xs with
  | .cmp c ck, [.int a, .int b] =>
    match fmt ck with
    | some f => .ok (.val (.int (Ieee.ieeeCompare f c a b)), mem)
    | none => valRes mem (alu op k xs)
  | op, xs =>
    match fmt k, floatArithmeticOp op with
    | some f, true => valRes mem (floatArithmetic op f xs)
    | _, _ => do
      let kind ← orNoRule (opKind op)
      kindRes kind op k mode xs mem

end Nanofil
