import Mathlib.Algebra.Group.Nat.Defs
import Mathlib.Data.List.Basic
import Mathlib.Logic.Function.Basic

/-! `gc_fugc.c`: allocation. Every entry point ends in `alloc_normal`, `zgc_aligned_alloc` or
`zgc_realloc`; a size that no machine has goes to the out-of-memory function. -/
namespace Nanofil.Boehm.Allocation

/-- A pointer: NULL, or an offset into an object. -/
inductive Ptr where
  | null
  | at (obj off : Nat)
  deriving DecidableEq

def Ptr.add : Ptr → Nat → Ptr
  | .null, _ => .null
  | .at o off, n => .at o (off + n)

structure Block where
  size : Nat
  live : Bool

/-- The objects, the pointers stored into them, the tables, and the sizes that the out-of-memory
function was asked for, the last one first. -/
structure Heap where
  blocks : List Block
  words : Ptr → Ptr
  uncollectable : List Ptr
  finalizers : List Ptr
  asked : List UInt64

/-- The runtime rounds the size of an object up, to 16 bytes at most. -/
structure Rounding where
  room : Nat → Nat
  le_room : ∀ n, n ≤ room n
  room_lt : ∀ n, room n < n + 16

/-- What the library reads of its client: `GC_oom_fn`, and the kinds with a disclaim procedure. -/
structure Env extends Rounding where
  oomFn : Option (UInt64 → Ptr)
  disclaimProcs : Int → Bool

def FUGC_MAX_ALLOC : UInt64 := (1 : UInt64) <<< 46

/-- A C string or array: what comes before its end is in memory, and so is the end. -/
structure CString (width : Nat) where
  len : Nat
  fits : (len + 1) * width < 2 ^ 64

/-! ### The runtime -/

def Heap.holds (h : Heap) : Ptr → Nat → Bool
  | .null, _ => false
  | .at o off, n => (h.blocks[o]?).any fun b => b.live && off + n ≤ b.size

def zhasvalidcap (h : Heap) : Ptr → Bool
  | .null => false
  | .at o _ => (h.blocks[o]?).any Block.live

def zgcAlloc (env : Env) (n : UInt64) (h : Heap) : Ptr × Heap :=
  (.at h.blocks.length 0, { h with blocks := h.blocks ++ [⟨env.room n.toNat, true⟩] })

/-- The object is as long as one of `zgc_alloc`; its address is not modelled. -/
def zgcAlignedAlloc (env : Env) (_align n : UInt64) (h : Heap) : Ptr × Heap := zgcAlloc env n h

/-- `zgc_free` of the base of a live object, which leaves the weak tables. -/
def zgcFree (p : Ptr) (h : Heap) : Heap :=
  match p with
  | .null => h
  | .at o _ => { h with
      blocks := h.blocks.modify o fun b => { b with live := false }
      uncollectable := h.uncollectable.filter (· ≠ p)
      finalizers := h.finalizers.filter (· ≠ p) }

/-- The base of a live object. -/
def isBase (h : Heap) : Ptr → Bool
  | .at o 0 => zhasvalidcap h (.at o 0)
  | _ => false

/-- The runtime panics on what is not the base of a live object. -/
def zgcRealloc (env : Env) (p : Ptr) (n : UInt64) (h : Heap) : Option (Ptr × Heap) :=
  if isBase h p then some (zgcAlloc env n (zgcFree p h)) else none

/-- `*(void **)p = v`. -/
def store (p v : Ptr) (h : Heap) : Option Heap :=
  if h.holds p 8 then some { h with words := Function.update h.words p v } else none

/-- Bytes are written, from a pointer on. -/
def fill (p : Ptr) (n : Nat) (h : Heap) : Option Heap := if n = 0 || h.holds p n then some h else none

/-! ### The helpers -/

def oomResult (env : Env) (n : UInt64) : Ptr :=
  match env.oomFn with
  | some f => f n
  | none => .null

def tooBig (env : Env) (n : UInt64) (h : Heap) : Ptr × Heap := (oomResult env n, { h with asked := n :: h.asked })

def allocNormal (env : Env) (n : UInt64) (h : Heap) : Ptr × Heap :=
  if n > FUGC_MAX_ALLOC then tooBig env n h else zgcAlloc env (if n ≠ 0 then n else 1) h

def makeUncollectable (p : Ptr) (h : Heap) : Heap := { h with uncollectable := p :: h.uncollectable }

def isUncollectable (p : Ptr) (h : Heap) : Bool := h.uncollectable.contains p

def allocUncollectable (env : Env) (n : UInt64) (h : Heap) : Ptr × Heap :=
  let (p, h) := allocNormal env n h
  (p, makeUncollectable p h)

/-- `register_finalizer`, with a function. -/
def registerFinalizer (p : Ptr) (h : Heap) : Heap :=
  if zhasvalidcap h p then { h with finalizers := p :: h.finalizers } else h

def memalign (env : Env) (align n : UInt64) (h : Heap) : Ptr × Heap :=
  if align ≤ 16 || n > FUGC_MAX_ALLOC then allocNormal env n h
  else zgcAlignedAlloc env align (if n ≠ 0 then n else 1) h

/-- The code, and what is written to `*memptr`. -/
def posixMemalign (env : Env) (align n : UInt64) (h : Heap) : Nat × Option Ptr × Heap :=
  if align < 8 || align &&& (align - 1) != 0 then (22, none, h)
  else
    let (p, h) := memalign env align n h
    (0, some p, h)

def strdup (env : Env) (s : Option (CString 1)) (h : Heap) : Option (Ptr × Heap) :=
  match s with
  | none => some (.null, h)
  | some s => do
    let n := UInt64.ofNat s.len + 1
    let (p, h) := allocNormal env n h
    let h ← fill p n.toNat h
    return (p, h)

def strndup (env : Env) (s : CString 1) (size : UInt64) (h : Heap) : Option (Ptr × Heap) := do
  let n := UInt64.ofNat (min s.len size.toNat)
  let (p, h) := allocNormal env (n + 1) h
  let h ← fill p n.toNat h
  let h ← fill (p.add n.toNat) 1 h
  return (p, h)

def wcsdup (env : Env) (s : CString 4) (h : Heap) : Option (Ptr × Heap) := do
  let n := (UInt64.ofNat s.len + 1) * 4
  let (p, h) := allocNormal env n h
  let h ← fill p n.toNat h
  return (p, h)

def free (p : Ptr) (h : Heap) : Heap := if isBase h p then zgcFree p h else h

def realloc (env : Env) (p : Ptr) (n : UInt64) (h : Heap) : Option (Ptr × Heap) :=
  if p = .null then some (allocNormal env n h)
  else if n = 0 then some (.null, free p h)
  else if n > FUGC_MAX_ALLOC then some (tooBig env n h)
  else do
    let uncollectable := isUncollectable p h
    let (q, h) ← zgcRealloc env p n h
    return (q, if uncollectable then makeUncollectable q h else h)

def genericMalloc (env : Env) (n : UInt64) (k : Int) (h : Heap) : Ptr × Heap :=
  if k = 2 || k = 3 then allocUncollectable env n h
  else
    let (p, h) := allocNormal env n h
    (p, if k ≥ 0 && k < 64 && env.disclaimProcs k then registerFinalizer p h else h)

def manyCount (n : UInt64) : Nat := min (if n ≥ 1024 then 1 else 1024 / (if n ≠ 0 then n.toNat else 1)) 64

/-- The loop of `GC_generic_malloc_many`: what it links is `head`. -/
def mallocMany (env : Env) (n : UInt64) (k : Int) : Nat → Ptr → Heap → Option (Ptr × Heap)
  | 0, head, h => some (head, h)
  | count + 1, head, h => do
    let (p, h) := genericMalloc env (if n < 8 then 8 else n) k h
    let h ← store p head h
    mallocMany env n k count p h

def genericMallocMany (env : Env) (n : UInt64) (k : Int) (h : Heap) : Option (Ptr × Heap) :=
  mallocMany env n k (manyCount n) .null h

def callocExplicitlyTyped (env : Env) (nelements elementSize : UInt64) (h : Heap) : Ptr × Heap :=
  if elementSize ≠ 0 && nelements > (0 - 1) / elementSize then tooBig env (0 - 1) h
  else allocNormal env (nelements * elementSize) h

def gcjMalloc (env : Env) (n : UInt64) (vtable : Ptr) (h : Heap) : Option (Ptr × Heap) := do
  let (p, h) := allocNormal env (if n < 8 then 8 else n) h
  let h ← store p vtable h
  return (p, h)

/-- The first word is the closure, with its low bit set. -/
def finalizedMalloc (env : Env) (n : UInt64) (fc : Ptr) (h : Heap) : Option (Ptr × Heap) := do
  let (base, h) := allocNormal env (n + 8) h
  let h ← store base (fc.add 1) h
  return (base.add 8, registerFinalizer base h)

/-! ### The entry points -/

/-- The entry points, under their names in the library without `GC_`. -/
inductive Call where
  | malloc (n : UInt64)
  | mallocAtomic (n : UInt64)
  | mallocIgnoreOffPage (n : UInt64)
  | mallocAtomicIgnoreOffPage (n : UInt64)
  | mallocStubborn (n : UInt64)
  | mallocExplicitlyTyped (n : UInt64)
  | mallocExplicitlyTypedIgnoreOffPage (n : UInt64)
  | debugMalloc (n : UInt64)
  | debugMallocAtomic (n : UInt64)
  | debugMallocIgnoreOffPage (n : UInt64)
  | debugMallocAtomicIgnoreOffPage (n : UInt64)
  | debugMallocStubborn (n : UInt64)
  | debugMallocReplacement (n : UInt64)
  | mallocUncollectable (n : UInt64)
  | mallocAtomicUncollectable (n : UInt64)
  | genericMallocUncollectable (n : UInt64) (k : Int)
  | debugMallocUncollectable (n : UInt64)
  | debugMallocAtomicUncollectable (n : UInt64)
  | genericMalloc (n : UInt64) (k : Int)
  | genericMallocIgnoreOffPage (n : UInt64) (k : Int)
  | genericOrSpecialMalloc (n : UInt64) (k : Int)
  | debugGenericOrSpecialMalloc (n : UInt64) (k : Int)
  | mallocKind (n : UInt64) (k : Int)
  | mallocKindGlobal (n : UInt64) (k : Int)
  | genericMallocMany (n : UInt64) (k : Int)
  | mallocMany (n : UInt64)
  | memalign (align n : UInt64)
  | posixMemalign (align n : UInt64)
  | strdup (s : Option (CString 1))
  | debugStrdup (s : Option (CString 1))
  | strndup (s : CString 1) (size : UInt64)
  | debugStrndup (s : CString 1) (size : UInt64)
  | debugWcsdup (s : CString 4)
  | realloc (p : Ptr) (n : UInt64)
  | debugRealloc (p : Ptr) (n : UInt64)
  | debugReallocReplacement (p : Ptr) (n : UInt64)
  | callocExplicitlyTyped (nelements elementSize : UInt64)
  | gcjMalloc (n : UInt64) (vtable : Ptr)
  | gcjMallocIgnoreOffPage (n : UInt64) (vtable : Ptr)
  | debugGcjMalloc (n : UInt64) (vtable : Ptr)
  | finalizedMalloc (n : UInt64) (fc : Ptr)

inductive Reply where
  | pointer (p : Ptr)
  | status (code : Nat) (memptr : Option Ptr)

def pointer (r : Ptr × Heap) : Reply × Heap := (.pointer r.1, r.2)

/-- A call, which traps or replies. -/
def Call.run (env : Env) (h : Heap) : Call → Option (Reply × Heap)
  | .malloc n | .mallocAtomic n | .mallocIgnoreOffPage n | .mallocAtomicIgnoreOffPage n | .mallocStubborn n
  | .mallocExplicitlyTyped n | .mallocExplicitlyTypedIgnoreOffPage n | .debugMalloc n | .debugMallocAtomic n
  | .debugMallocIgnoreOffPage n | .debugMallocAtomicIgnoreOffPage n | .debugMallocStubborn n
  | .debugMallocReplacement n => some (pointer (allocNormal env n h))
  | .mallocUncollectable n | .mallocAtomicUncollectable n | .genericMallocUncollectable n _
  | .debugMallocUncollectable n | .debugMallocAtomicUncollectable n => some (pointer (allocUncollectable env n h))
  | .genericMalloc n k | .genericMallocIgnoreOffPage n k | .genericOrSpecialMalloc n k
  | .debugGenericOrSpecialMalloc n k | .mallocKind n k | .mallocKindGlobal n k =>
    some (pointer (Allocation.genericMalloc env n k h))
  | .genericMallocMany n k => (Allocation.genericMallocMany env n k h).map pointer
  | .mallocMany n => (Allocation.genericMallocMany env n 1 h).map pointer
  | .memalign align n => some (pointer (Allocation.memalign env align n h))
  | .posixMemalign align n =>
    let (code, memptr, h) := Allocation.posixMemalign env align n h
    some (.status code memptr, h)
  | .strdup s | .debugStrdup s => (Allocation.strdup env s h).map pointer
  | .strndup s size | .debugStrndup s size => (Allocation.strndup env s size h).map pointer
  | .debugWcsdup s => (wcsdup env s h).map pointer
  | .realloc p n | .debugRealloc p n | .debugReallocReplacement p n => (Allocation.realloc env p n h).map pointer
  | .callocExplicitlyTyped nelements elementSize =>
    some (pointer (Allocation.callocExplicitlyTyped env nelements elementSize h))
  | .gcjMalloc n vtable | .gcjMallocIgnoreOffPage n vtable | .debugGcjMalloc n vtable =>
    (Allocation.gcjMalloc env n vtable h).map pointer
  | .finalizedMalloc n fc => (Allocation.finalizedMalloc env n fc h).map pointer

end Nanofil.Boehm.Allocation
