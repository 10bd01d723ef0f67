import Nanofil.Ieee

/-! Run-time values and the memory of `interp.pl`. A rule that throws or fails in
the source is an error here, so a result is a result of the source. -/
namespace Nanofil

/-- A capability names its object by base, never by an address. -/
inductive Cap
  | none
  | obj (base : Int)
  | ro (base : Int)
  | fn (f : Name)
  | ext (n : Name)
deriving DecidableEq, Repr

inductive Word
  | int (n : Int)
  | ptr (a : Int) (c : Cap)
  | limit (c : Cap) (size : Int)
deriving DecidableEq, Repr

inductive Why
  | nullCapability | outOfBounds | misaligned | readonly | notAFunction
  | argumentSize | returnSize | invalidFree | doubleFree | outOfMemory | tooBig
  | span | half | alias | limit
  | early (w : Why)
  | ahead (w : Why)
deriving DecidableEq, Repr

inductive Ub
  | floatConversion
  | outOfBounds (a size : Int)
deriving DecidableEq, Repr

inductive RunError
  | unassigned (n : Name)
  | external (n : Name)
  | unregistered (base : Int)
  | setjmp
  | noRule
  | depth
deriving DecidableEq, Repr

/-- An access test: ok, or the trap it is. -/
inductive Check
  | ok
  | trap (why : Why)
deriving DecidableEq, Repr

inductive Res (α : Type)
  | val (x : α)
  | ub (u : Ub)
  | trap (why : Why)
  | unchecked (why : Why)
deriving DecidableEq, Repr

def Word.toInt : Word → Except RunError Int
  | .int n => .ok n
  | _ => .error .noRule

/-! ### Regions -/

inductive RegionKind
  | stack | heap | global
deriving DecidableEq, Repr

inductive Life
  | live | freed
deriving DecidableEq, Repr

structure Region where
  base : Int
  end_ : Int
  kind : RegionKind
  life : Life
deriving DecidableEq, Repr

/-- `unknown` is what plain memory holds at an address nobody wrote. -/
structure Mem where
  bytes : Int → Option Int
  regions : List Region
  next : Int
  aux : Int → Option Cap
  unknown : Int → Fin 256

def noMem : Mem := ⟨fun _ => none, [], 0, fun _ => none, fun _ => 0⟩

def objectRegion (base : Int) (rs : List Region) : Except RunError Region :=
  match rs.find? (fun r => r.base = base) with
  | some r => .ok r
  | none => .error (.unregistered base)

def alignedRes (a align : Int) : Check := if a % align = 0 then .ok else .trap .misaligned

def readonlyAccessRes (kind : Rights) (a align : Int) : Check :=
  match kind with
  | .read => alignedRes a align
  | .write => .trap .readonly

def inBounds (r : Region) (a size : Int) : Prop := r.base ≤ a ∧ a + size ≤ r.end_
instance (r : Region) (a size : Int) : Decidable (inBounds r a size) := inferInstanceAs (Decidable (_ ∧ _))

def capAccessRes (cap : Cap) (rs : List Region) (a size : Int) (kind : Rights) (align : Int) :
    Except RunError Check :=
  match cap with
  | .none => .ok (.trap .nullCapability)
  | .fn _ => .ok (.trap .outOfBounds)
  | .ext n => .error (.external n)
  | .obj base => do
    let r ← objectRegion base rs
    return if inBounds r a size then alignedRes a align else .trap .outOfBounds
  | .ro base => do
    let r ← objectRegion base rs
    return if inBounds r a size then readonlyAccessRes kind a align else .trap .outOfBounds

def accessRes (mem : Mem) (a : Int) (cap : Cap) (size : Int) (kind : Rights) (align : Int) :
    Except RunError Check :=
  capAccessRes cap mem.regions a size kind align

def inLiveRegion (rs : List Region) (a size : Int) : Bool :=
  rs.any (fun r => r.life = .live ∧ inBounds r a size)

/-! ### Bytes -/

def update {β : Type} (f : Int → Option β) (a : Int) (x : β) : Int → Option β :=
  fun b => if b = a then some x else f b

def leValue : List Int → Int
  | [] => 0
  | x :: xs => x + 256 * leValue xs

def leBytes : Nat → Int → List Int
  | 0, _ => []
  | n + 1, x => x % 256 :: leBytes n (x.tdiv 256)

def writtenBytes : List Int → Int → (Int → Option Int) → Int → Option Int
  | [], _, bytes => bytes
  | x :: xs, a, bytes => writtenBytes xs (a + 1) (update bytes a x)

/-- An unwritten byte is zero in filc mode; plain mode binds the unknown it holds. -/
def bytesAt (mode : Mode) (unknown : Int → Fin 256) :
    Nat → Int → (Int → Option Int) → List Int × (Int → Option Int)
  | 0, _, bytes => ([], bytes)
  | n + 1, a, bytes =>
    let xb := match bytes a with
      | some x => (x, bytes)
      | none => match mode with
        | .filc => (0, bytes)
        | .plain => ((unknown a : Int), update bytes a (unknown a : Int))
    let rest := bytesAt mode unknown n (a + 1) xb.2
    (xb.1 :: rest.1, rest.2)

def loadRes (mode : Mode) (mem : Mem) (a : Int) (size : Nat) : Res Int × Mem :=
  if mode = .filc ∨ inLiveRegion mem.regions a size then
    let r := bytesAt mode mem.unknown size a mem.bytes
    (.val (leValue r.1), { mem with bytes := r.2 })
  else (.ub (.outOfBounds a size), mem)

def writeBytes (mem : Mem) (a : Int) (size : Nat) (v : Int) : Mem :=
  { mem with bytes := writtenBytes (leBytes size v) a mem.bytes }

def storedAux (stored : Option Cap) (a : Int) (aux : Int → Option Cap) : Int → Option Cap :=
  match stored with
  | none => aux
  | some c => update aux a c

/-- `width_word/5`: the word a store writes, its alignment and the capability it leaves. -/
def widthWord (wd : Width) (x : Word) : Except RunError (Word × Int × Option Cap) :=
  match wd, x with
  | .p, .ptr v c => .ok (.int v, 8, some c)
  | .p, _ => .error .noRule
  | .x, v => .ok (v, 8, none)
  | _, v => .ok (v, 1, none)

def accessStore (res : Check) (mem : Mem) (a : Int) (size : Nat) (v : Word) (stored : Option Cap) :
    Except RunError Mem :=
  match res with
  | .ok => do
    let n ← v.toInt
    let mem' := writeBytes mem a size n
    return { mem' with aux := storedAux stored a mem.aux }
  | .trap _ => .ok mem

def storeResult : Check → Res Unit
  | .ok => .val ()
  | .trap why => .trap why

def storeRes (mode : Mode) (wd : Width) (mem : Mem) (addr x : Word) :
    Except RunError (Res Unit × Mem) :=
  match mode, addr with
  | .plain, .int a =>
    if inLiveRegion mem.regions a (widthBytes wd) then do
      let n ← x.toInt
      return (.val (), writeBytes mem a (widthBytes wd) n)
    else .ok (.ub (.outOfBounds a (widthBytes wd)), mem)
  | .filc, .ptr a cap => do
    let vas ← widthWord wd x
    let res ← accessRes mem a cap (widthBytes wd) .write vas.2.1
    let mem' ← accessStore res mem a (widthBytes wd) vas.1 vas.2.2
    return (storeResult res, mem')
  | _, _ => .error .noRule

/-! ### Free -/

def freeRegion (base : Int) (r : Region) (rs : List Region) : List Region :=
  { base := base, end_ := base, kind := r.kind, life := .freed } :: rs.erase r

/-- Null is a no-op even with an object's lower; then kind, address and life are tested. -/
def objectFreeRes (base a : Int) (mem : Mem) : Except RunError (Check × Mem) :=
  if a = 0 then .ok (.ok, mem)
  else do
    let r ← objectRegion base mem.regions
    return if r.kind ≠ .heap then (.trap .invalidFree, mem)
      else if a ≠ base then (.trap .invalidFree, mem)
      else if r.life = .freed then (.trap .doubleFree, mem)
      else (.ok, { mem with regions := freeRegion base r mem.regions })

def nullFreeRes (a : Int) : Check := if a = 0 then .ok else .trap .invalidFree

def capFreeRes (cap : Cap) (a : Int) (mem : Mem) : Except RunError (Check × Mem) :=
  match cap with
  | .ext n => .error (.external n)
  | .none | .fn _ => .ok (nullFreeRes a, mem)
  | .obj base | .ro base => objectFreeRes base a mem

def freeRes (p : Word) (mem : Mem) : Except RunError (Check × Mem) :=
  match p with
  | .int a => capFreeRes .none a mem
  | .ptr a cap => capFreeRes cap a mem
  | .limit _ _ => .error .noRule

/-! ### Allocation -/

inductive AllocMode
  | plain | filc | local_
deriving DecidableEq

def Mode.alloc : Mode → AllocMode
  | .plain => .plain
  | .filc => .filc

def roundUp (n align : Int) : Int := (n + align - 1) / align * align

def allocAlign (mode : AllocMode) (align : Int) : Int :=
  match mode with
  | .plain => align
  | .filc => max align 16
  | .local_ => 16

def allocExtent (mode : AllocMode) (size : Int) : Int × RegionKind :=
  match mode with
  | .plain => (size, .stack)
  | .filc => (roundUp size 16, .heap)
  | .local_ => (size, .stack)

def allocationStride (mode : AllocMode) (size extent : Int) : Int :=
  match mode with
  | .local_ => roundUp size 16
  | _ => extent

/-- Fil-C's objects lie below `2 ^ 48`; plain mode sets no limit. -/
def addressSpace (mode : AllocMode) (next : Int) : Bool :=
  match mode with
  | .plain => true
  | _ => next ≤ 281474976710656

def allocBase (mode : AllocMode) (mem : Mem) (align size : Int) : Option (Int × Mem) :=
  let base := roundUp mem.next (allocAlign mode align)
  let extent := (allocExtent mode size).1
  let next := base + allocationStride mode size extent + 16
  if addressSpace mode next then
    let r : Region := { base := base, end_ := base + extent, kind := (allocExtent mode size).2, life := .live }
    some (base, { mem with regions := r :: mem.regions, next := next })
  else none

def maxAllocationSize : Int := 281474976710655

def allocPointer (mode : Mode) (base : Int) : Word :=
  match mode with
  | .plain => .int base
  | .filc => .ptr base (.obj base)

def allocRes (mode : Mode) (mem : Mem) (align size : Int) : Res Word × Mem :=
  if mode = .filc ∧ size > maxAllocationSize then (.trap .tooBig, mem)
  else match allocBase mode.alloc mem align size with
    | some (base, mem') => (.val (allocPointer mode base), mem')
    | none => (.trap .outOfMemory, mem)

end Nanofil
