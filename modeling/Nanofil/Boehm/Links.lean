import Nanofil.Lib.Buckets
import Mathlib.Logic.Function.Basic

/-! `gc_fugc.c`: the tables of disappearing links. A link and its target are held weakly, so an
entry may outlast the object its link was in. -/
namespace Nanofil.Boehm

/-- A pointer: its address, and the object it was made for. -/
structure Pointer (ο : Type) where
  addr : UInt64
  obj : ο

section
variable {ο : Type} (dead : ο → Bool)

/-- `zweak_get` of a weak reference to the pointer. -/
def zweakGet (p : Pointer ο) : UInt64 := if dead p.obj then 0 else p.addr

structure LinkEntry (ο : Type) where
  key : UInt64
  link : Pointer ο
  target : Pointer ο

structure LinkTable (ο : Type) where
  buckets : List (List (LinkEntry ο))
  count : Nat

def LinkTable.empty : LinkTable ο := ⟨[], 0⟩

def LinkTable.nbuckets (t : LinkTable ο) : Nat := t.buckets.length

def LinkTable.entries (t : LinkTable ο) : List (LinkEntry ο) := t.buckets.flatten

def linkHash (nbuckets : Nat) (key : UInt64) : Nat := ((key >>> 3) * (0x9E3779B97F4A7C15 : UInt64) >>> 20).toNat &&& (nbuckets - 1)

def entryHash (nbuckets : Nat) (e : LinkEntry ο) : Nat := linkHash nbuckets e.key

def linkTableGrow (t : LinkTable ο) : LinkTable ο :=
  let n := if t.nbuckets ≠ 0 then t.nbuckets * 2 else 64
  { t with buckets := Buckets.rehash (entryHash n) n t.entries }

/-- The loop of `link_find`: the chain before `pe`, the chain from it on, and `t->count`. -/
def seek (link : UInt64) : List (LinkEntry ο) → Nat → List (LinkEntry ο) × List (LinkEntry ο) × Nat
  | [], count => ([], [], count)
  | e :: es, count =>
    if e.key = link then
      if zweakGet dead e.link = link then ([], e :: es, count) else seek link es (count - 1)
    else
      let (before, rest, count) := seek link es count
      (e :: before, rest, count)

/-- What `pe` points at, and where. -/
structure Place (ο : Type) where
  bucket : Nat
  before : List (LinkEntry ο)
  entry : LinkEntry ο
  after : List (LinkEntry ο)

def linkFind (t : LinkTable ο) (link : UInt64) : LinkTable ο × Option (Place ο) :=
  if t.nbuckets = 0 then (t, none)
  else
    let h := linkHash t.nbuckets link
    let (before, rest, count) := seek dead link (t.buckets.getD h []) t.count
    (⟨t.buckets.set h (before ++ rest), count⟩, rest.head?.map fun e => ⟨h, before, e, rest.tail⟩)

/-- `*pe = (*pe)->next`. -/
def LinkTable.unlink (t : LinkTable ο) (p : Place ο) : LinkTable ο :=
  { t with buckets := t.buckets.set p.bucket (p.before ++ p.after) }

/-- `e->next = t->buckets[h]; t->buckets[h] = e`. -/
def LinkTable.hang (t : LinkTable ο) (e : LinkEntry ο) : LinkTable ο :=
  { t with buckets := Buckets.push (entryHash t.nbuckets) t.buckets e }

inductive Code where
  | success | duplicate | notFound | unimplemented
  deriving DecidableEq

def unaligned (p : Pointer ο) : Bool := p.addr &&& 7 != 0

def linkRegister (t : LinkTable ο) (link obj : Pointer ο) : Code × LinkTable ο :=
  if unaligned link then (.unimplemented, t)
  else
    let (t, found) := linkFind dead t link.addr
    if found.isSome then (.duplicate, t)
    else
      let t := if t.count ≥ t.nbuckets then linkTableGrow t else t
      let t := t.hang ⟨link.addr, link, obj⟩
      (.success, { t with count := t.count + 1 })

def linkUnregister (t : LinkTable ο) (link : Pointer ο) : Nat × LinkTable ο :=
  match linkFind dead t link.addr with
  | (t, some pe) => (1, { t.unlink pe with count := t.count - 1 })
  | (t, none) => (0, t)

def linkMove (t : LinkTable ο) (link newLink : Pointer ο) : Code × LinkTable ο :=
  if unaligned newLink then (.unimplemented, t)
  else
    let (t, found) := linkFind dead t link.addr
    if found.isNone then (.notFound, t)
    else if link.addr = newLink.addr then (.success, t)
    else
      let (t, taken) := linkFind dead t newLink.addr
      if taken.isSome then (.duplicate, t)
      else
        match linkFind dead t link.addr with
        | (t, some pe) => (.success, (t.unlink pe).hang { pe.entry with key := newLink.addr, link := newLink })
        | (t, none) => (.success, t)

/-- The sweep of a bucket, with what it writes and `t->count`. -/
def sweepChain : List (LinkEntry ο) → (UInt64 → UInt64) × Nat → List (LinkEntry ο) × (UInt64 → UInt64) × Nat
  | [], s => ([], s)
  | e :: es, (memory, count) =>
    let link := zweakGet dead e.link
    if link = 0 then sweepChain es (memory, count - 1)
    else if zweakGet dead e.target = 0 then sweepChain es (Function.update memory link 0, count - 1)
    else
      let (kept, s) := sweepChain es (memory, count)
      (e :: kept, s)

def sweepBuckets :
    List (List (LinkEntry ο)) → (UInt64 → UInt64) × Nat → List (List (LinkEntry ο)) × (UInt64 → UInt64) × Nat
  | [], s => ([], s)
  | c :: bs, s =>
    let (kept, s) := sweepChain dead c s
    let (rest, s) := sweepBuckets bs s
    (kept :: rest, s)

def linkSweep (t : LinkTable ο) (memory : UInt64 → UInt64) : LinkTable ο × (UInt64 → UInt64) :=
  let (buckets, memory, count) := sweepBuckets dead t.buckets (memory, t.count)
  (⟨buckets, count⟩, memory)

end

/-! ### The two tables, and the calls that reach them -/

inductive Which where
  | shortLinks | longLinks
  deriving DecidableEq

/-- The tables, the objects that weak references no longer give, and the words of memory. -/
structure LinkWorld (ο : Type) where
  tables : Which → LinkTable ο
  dead : ο → Bool
  memory : UInt64 → UInt64

inductive Answer where
  | code (c : Code)
  | found (n : Nat)
  | none
  deriving DecidableEq

/-- What happens to the tables: the entry points, the sweeps of `process_cycle`, and what the
client and the collector do between them. -/
inductive LinkCall (ο : Type) where
  | generalRegisterDisappearingLink (link obj : Pointer ο)
  | registerDisappearingLink (link : Pointer ο)
  | unregisterDisappearingLink (link : Pointer ο)
  | moveDisappearingLink (link newLink : Pointer ο)
  | registerLongLink (link obj : Pointer ο)
  | unregisterLongLink (link : Pointer ο)
  | moveLongLink (link newLink : Pointer ο)
  | processCycle
  | die (o : ο)
  | store (a v : UInt64)

section
variable {ο : Type} [DecidableEq ο] (base : (ο → Bool) → Pointer ο → Pointer ο)

def LinkWorld.init (memory : UInt64 → UInt64) : LinkWorld ο := ⟨fun _ => .empty, fun _ => false, memory⟩

def LinkWorld.setTable (w : LinkWorld ο) (which : Which) (t : LinkTable ο) : LinkWorld ο :=
  { w with tables := Function.update w.tables which t }

def LinkWorld.register (w : LinkWorld ο) (which : Which) (link obj : Pointer ο) : Answer × LinkWorld ο :=
  let (c, t) := linkRegister w.dead (w.tables which) link obj
  (.code c, w.setTable which t)

def LinkWorld.unregister (w : LinkWorld ο) (which : Which) (link : Pointer ο) : Answer × LinkWorld ο :=
  let (n, t) := linkUnregister w.dead (w.tables which) link
  (.found n, w.setTable which t)

def LinkWorld.move (w : LinkWorld ο) (which : Which) (link newLink : Pointer ο) : Answer × LinkWorld ο :=
  let (c, t) := linkMove w.dead (w.tables which) link newLink
  (.code c, w.setTable which t)

def LinkWorld.sweep (w : LinkWorld ο) (which : Which) : LinkWorld ο :=
  let (t, memory) := linkSweep w.dead (w.tables which) w.memory
  { w.setTable which t with memory }

/-- A call, `base` being `GC_base`. -/
def LinkWorld.step (w : LinkWorld ο) : LinkCall ο → Answer × LinkWorld ο
  | .generalRegisterDisappearingLink link obj => w.register .shortLinks link obj
  | .registerDisappearingLink link => w.register .shortLinks link (base w.dead link)
  | .unregisterDisappearingLink link => w.unregister .shortLinks link
  | .moveDisappearingLink link newLink => w.move .shortLinks link newLink
  | .registerLongLink link obj => w.register .longLinks link obj
  | .unregisterLongLink link => w.unregister .longLinks link
  | .moveLongLink link newLink => w.move .longLinks link newLink
  | .processCycle => (.none, (w.sweep .shortLinks).sweep .longLinks)
  | .die o => (.none, { w with dead := Function.update w.dead o true })
  | .store a v => (.none, { w with memory := Function.update w.memory a v })

def LinkWorld.run (w : LinkWorld ο) : List (LinkCall ο) → List Answer × LinkWorld ο
  | [] => ([], w)
  | call :: calls =>
    let (answer, w) := w.step base call
    let (answers, w) := w.run calls
    (answer :: answers, w)

end

end Nanofil.Boehm
