import Mathlib.Algebra.Group.Int.Defs
import Mathlib.Algebra.Group.Nat.Defs
import Mathlib.Data.List.Basic
import Mathlib.Data.List.Nodup

/-! Sarcasm's lowering of assembly to a typed control-flow graph: `effects.pl` from the
normalized actions on, `ir.pl`, `flags.pl` and `cfg.pl`. What the data flow analysis
finds of a block's registers and flags is a parameter; nothing here depends on it. -/
namespace Nanofil.Sarcasm

inductive Root
  | rax | rcx | rdx | rsi | rdi | r8 | r9 | r10 | r11
deriving DecidableEq, Repr

def registerRoots : List Root := [.r10, .r11, .r8, .r9, .rax, .rcx, .rdi, .rdx, .rsi]

inductive Flag
  | cf | pf | af | zf | sf | of_
deriving DecidableEq, Repr

def flags : List Flag := [.cf, .pf, .af, .zf, .sf, .of_]

structure Register where
  root : Root
  width : Nat
deriving DecidableEq, Repr

inductive Source
  | immediate (n : Int)
  | register (r : Register)
deriving DecidableEq, Repr

structure Address where
  base : Register
  index : Source
  scale : Nat
  offset : Nat
deriving DecidableEq, Repr

inductive BinaryKind
  | add | sub | xor | or | and | shl | shr
deriving DecidableEq, Repr

inductive Cond
  | e | ne | b | ae | be | a | l | ge | le | g | s | ns | o | no | p | np
deriving DecidableEq, Repr

inductive Action
  | load (a : Address) (bytes : Nat) (r : Register)
  | store (a : Address) (bytes : Nat) (s : Source)
  | pointerLoad (a : Address) (r : Register)
  | pointerStore (a : Address) (r : Register)
  | move (s : Source) (r : Register)
  | copy (s : Register) (r : Register)
  | pointerOffset (a : Address) (r : Register)
  | binary (k : BinaryKind) (s : Source) (r : Register)
  | shift (k : BinaryKind) (count : Nat) (r : Register)
  | compare (k : BinaryKind) (s : Source) (r : Register)
  | jump (l : String)
  | branch (c : Cond) (l : String)
  | return_ (r : Register)
deriving DecidableEq, Repr

/-! ### Effects -/

inductive ReadType
  | integer | pointer | value
deriving DecidableEq, Repr

inductive WriteType
  | integer | pointer
  | sameTypeAs (r : Register)
deriving DecidableEq, Repr

structure FlagEffects where
  reads : List Flag
  defined : List Flag
  cleared : List Flag
  undefined : List Flag

structure Effects where
  reads : List (Register × ReadType)
  writes : List (Register × WriteType)
  flags : FlagEffects

inductive Formula (α : Type)
  | truth (x : α)
  | not (f : Formula α)
  | either (f g : Formula α)
  | different (f g : Formula α)
deriving Repr

def formula : Cond → Formula Flag
  | .e => .truth .zf
  | .ne => .not (.truth .zf)
  | .b => .truth .cf
  | .ae => .not (.truth .cf)
  | .be => .either (.truth .cf) (.truth .zf)
  | .a => .not (.either (.truth .cf) (.truth .zf))
  | .l => .different (.truth .sf) (.truth .of_)
  | .ge => .not (.different (.truth .sf) (.truth .of_))
  | .le => .either (.truth .zf) (.different (.truth .sf) (.truth .of_))
  | .g => .not (.either (.truth .zf) (.different (.truth .sf) (.truth .of_)))
  | .s => .truth .sf
  | .ns => .not (.truth .sf)
  | .o => .truth .of_
  | .no => .not (.truth .of_)
  | .p => .truth .pf
  | .np => .not (.truth .pf)

def Formula.used {α : Type} : Formula α → List α
  | .truth x => [x]
  | .not f => f.used
  | .either f g | .different f g => f.used ++ g.used

def preserveFlags : FlagEffects := ⟨[], [], [], []⟩

def binaryFlags : BinaryKind → FlagEffects
  | .add | .sub => ⟨[], [.cf, .pf, .af, .zf, .sf, .of_], [], []⟩
  | _ => ⟨[], [.pf, .zf, .sf], [.cf, .of_], [.af]⟩

def shiftFlags : Nat → FlagEffects
  | 0 => preserveFlags
  | 1 => ⟨[], [.cf, .pf, .zf, .sf, .of_], [], [.af]⟩
  | _ => ⟨[], [.cf, .pf, .zf, .sf], [], [.af, .of_]⟩

def sourceReads : Source → List (Register × ReadType)
  | .register r => [(r, .integer)]
  | .immediate _ => []

def addressReads (a : Address) : List (Register × ReadType) := (a.base, .pointer) :: sourceReads a.index

def actionEffects : Action → Effects
  | .load a _ r => ⟨addressReads a, [(r, .integer)], preserveFlags⟩
  | .copy s r => ⟨[(s, .value)], [(r, .sameTypeAs s)], preserveFlags⟩
  | .store a _ s => ⟨addressReads a ++ sourceReads s, [], preserveFlags⟩
  | .pointerLoad a r => ⟨addressReads a, [(r, .pointer)], preserveFlags⟩
  | .pointerStore a s => ⟨addressReads a ++ [(s, .pointer)], [], preserveFlags⟩
  | .pointerOffset a r => ⟨addressReads a, [(r, .pointer)], preserveFlags⟩
  | .move s r => ⟨sourceReads s, [(r, .integer)], preserveFlags⟩
  | .binary k s r => ⟨(r, .integer) :: sourceReads s, [(r, .integer)], binaryFlags k⟩
  | .shift _ count r => ⟨[(r, .integer)], [(r, .integer)], shiftFlags count⟩
  | .compare k s r => ⟨(r, .integer) :: sourceReads s, [], binaryFlags k⟩
  | .jump _ => ⟨[], [], preserveFlags⟩
  | .branch c _ => ⟨[], [], ⟨(formula c).used, [], [], []⟩⟩
  | .return_ r => ⟨[(r, .integer)], [], preserveFlags⟩

/-! ### Values and operations -/

inductive Key
  | reg (r : Root)
  | flag (f : Flag)
deriving DecidableEq, Repr

/-- A value of the graph: what a function is called with, a block's parameter, the result of a node or one of its
flags, the low bits of a value or a constant. -/
inductive Value
  | arg (i : Nat)
  | param (b : Nat) (k : Key)
  | node (n : Nat)
  | flagValue (n : Nat) (f : Flag)
  | view (x : Value) (w : Nat)
  | literal (n : Nat)
deriving DecidableEq, Repr

structure Load where
  node : Nat
  pointer : Value
  index : Value
  scale : Nat
  offset : Nat
  bytes : Nat
deriving DecidableEq, Repr

inductive Op
  | load (l : Load)
  | read (p i : Value) (scale offset width : Nat) (loads : List Load)
  | store (p i : Value) (scale offset width : Nat) (x : Value)
  | pointerLoad (n : Nat) (p i : Value) (scale offset : Nat)
  | pointerStore (p i : Value) (scale offset : Nat) (x : Value)
  | assign (n : Nat) (width : Nat) (x : Value)
  | pointerCopy (n : Nat) (p : Value)
  | pointerOffset (n : Nat) (p i : Value) (scale offset : Nat)
  | binary (n : Nat) (k : BinaryKind) (width : Nat) (a b : Value)
  | compare (k : BinaryKind) (width : Nat) (a b : Value)
  | flagValues (n : Nat) (k : BinaryKind) (width : Nat) (a b : Value)
deriving DecidableEq, Repr

/-- The nodes whose results an operation is. -/
def Op.defs : Op → List Nat
  | .load l => [l.node]
  | .read _ _ _ _ _ loads => loads.map Load.node
  | .pointerLoad n _ _ _ _ | .assign n _ _ | .pointerCopy n _ | .pointerOffset n _ _ _ _ | .binary n _ _ _ _ => [n]
  | .store .. | .pointerStore .. | .compare .. | .flagValues .. => []

/-! ### Steps -/

/-- What a register holds; types that disagree leave nothing to use. -/
inductive Found
  | int (x : Value)
  | ptr (x : Value)
  | incompatible
deriving DecidableEq, Repr

abbrev RegState := List (Root × Found)

/-- What a read register is bound to. -/
inductive Operand
  | scalar (x : Value)
  | pointer (x : Value)
deriving DecidableEq, Repr

abbrev Bindings := List (Register × Operand)

def resolveRead (st : RegState) (read : Register × ReadType) : Option (Register × Operand) :=
  match st.lookup read.1.root with
  | some (.int x) => if read.2 = .integer ∨ read.2 = .value then some (read.1, .scalar (.view x read.1.width)) else none
  | some (.ptr x) =>
    if (read.2 = .pointer ∨ read.2 = .value) ∧ read.1.width = 64 then some (read.1, .pointer x) else none
  | _ => none

def resolved (bs : Bindings) : Source → Option Operand
  | .immediate n => some (.scalar (.literal (n % 2 ^ 64).toNat))
  | .register r => bs.lookup r

def resolvedScalar (bs : Bindings) (s : Source) : Option Value :=
  match resolved bs s with
  | some (.scalar x) => some x
  | _ => none

def resolvedPointer (bs : Bindings) (r : Register) : Option Value :=
  match bs.lookup r with
  | some (.pointer x) => some x
  | _ => none

inductive Lowered
  | op (o : Op)
  | return_ (x : Value)

def lowerAction (bs : Bindings) (n : Nat) : Action → Option Lowered
  | .load a bytes _ => do
    let p ← resolvedPointer bs a.base
    let i ← resolvedScalar bs a.index
    return .op (.load ⟨n, p, i, a.scale, a.offset, bytes⟩)
  | .store a bytes s => do
    let p ← resolvedPointer bs a.base
    let i ← resolvedScalar bs a.index
    let x ← resolvedScalar bs s
    return .op (.store p i a.scale a.offset bytes x)
  | .pointerLoad a _ => do
    let p ← resolvedPointer bs a.base
    let i ← resolvedScalar bs a.index
    return .op (.pointerLoad n p i a.scale a.offset)
  | .pointerStore a s => do
    let p ← resolvedPointer bs a.base
    let i ← resolvedScalar bs a.index
    let x ← resolvedPointer bs s
    return .op (.pointerStore p i a.scale a.offset x)
  | .move s r => do
    let x ← resolvedScalar bs s
    return .op (.assign n r.width x)
  | .copy s _ =>
    match bs.lookup s with
    | some (.pointer p) => some (.op (.pointerCopy n p))
    | some (.scalar x) => some (.op (.assign n 64 x))
    | none => none
  | .pointerOffset a _ => do
    let p ← resolvedPointer bs a.base
    let i ← resolvedScalar bs a.index
    return .op (.pointerOffset n p i a.scale a.offset)
  | .binary k s r => do
    let a ← resolvedScalar bs (.register r)
    let b ← resolvedScalar bs s
    return .op (.binary n k r.width a b)
  | .shift k count r => do
    let a ← resolvedScalar bs (.register r)
    return .op (.binary n k r.width a (.literal count))
  | .compare k s r => do
    let a ← resolvedScalar bs (.register r)
    let b ← resolvedScalar bs s
    return .op (.compare k r.width a b)
  | .return_ r => do
    let x ← resolvedScalar bs (.register r)
    return .return_ x
  | .jump _ | .branch _ _ => none

def writtenValue (bs : Bindings) (n : Nat) : WriteType → Option Found
  | .integer => some (.int (.node n))
  | .pointer => some (.ptr (.node n))
  | .sameTypeAs r =>
    match bs.lookup r with
    | some (.pointer _) => some (.ptr (.node n))
    | some (.scalar _) => some (.int (.node n))
    | none => none

def applyWrites (bs : Bindings) (n : Nat) : List (Register × WriteType) → RegState → Option RegState
  | [], st => some st
  | (r, type) :: writes, st => do
    let found ← writtenValue bs n type
    applyWrites bs n writes ((r.root, found) :: st.filter (·.1 ≠ r.root))

def lowerStep (a : Action) (st : RegState) (n : Nat) : Option (Lowered × RegState × Bindings) := do
  let bs ← (actionEffects a).reads.mapM (resolveRead st)
  let op ← lowerAction bs n a
  let next ← applyWrites bs n (actionEffects a).writes st
  return (op, next, bs)

abbrev FlagState := List (Flag × Value)

def recipe (bs : Bindings) (n : Nat) : Action → Option Op
  | .binary k s r | .compare k s r => do
    let a ← resolvedScalar bs (.register r)
    let b ← resolvedScalar bs s
    return .flagValues n k r.width a b
  | .shift k count r => do
    let a ← resolvedScalar bs (.register r)
    return .flagValues n k r.width a (.literal count)
  | _ => none

def transfer (a : Action) (bs : Bindings) (n : Nat) (old : FlagState) : Option (List Op × FlagState) := do
  let fx := (actionEffects a).flags
  if ¬fx.reads.all (fun f => (old.lookup f).isSome) then none
  let known := fx.defined ++ fx.cleared
  let kept := old.filter (fun fv => fv.1 ∉ known ++ fx.undefined)
  let next := known.map (fun f => (f, .flagValue n f)) ++ kept
  if known = [] then return ([], next)
  else
    let op ← recipe bs n a
    return ([op], next)

def lowerNodes : List (Nat × Action) → RegState → FlagState → Option (List Op × RegState × FlagState)
  | [], st, fs => some ([], st, fs)
  | (n, a) :: nodes, st, fs => do
    let (lowered, next, bs) ← lowerStep a st n
    let (flagOps, nextFlags) ← transfer a bs n fs
    let (ops, out, outFlags) ← lowerNodes nodes next nextFlags
    match lowered with
    | .op (.compare ..) => return (flagOps ++ ops, out, outFlags)
    | .op op => return (op :: flagOps ++ ops, out, outFlags)
    | .return_ _ => none

def bind (fs : FlagState) : Formula Flag → Option (Formula Value)
  | .truth f => (fs.lookup f).map .truth
  | .not f => (bind fs f).map .not
  | .either f g => do return .either (← bind fs f) (← bind fs g)
  | .different f g => do return .different (← bind fs f) (← bind fs g)

/-! ### Blocks -/

/-- A label, or the action of an instruction. -/
inductive Item
  | label (l : String)
  | action (a : Action)

inductive NumberedItem
  | label (l : String)
  | node (n : Nat) (a : Action)

def nodes : List Item → Nat → List NumberedItem
  | [], _ => []
  | .label l :: items, n => .label l :: nodes items n
  | .action a :: items, n => .node n a :: nodes items (n + 1)

inductive RawTerm
  | fall (next : Nat)
  | terminal (n : Nat) (a : Action) (next : Nat)

structure RawBlock where
  id : Nat
  labels : List String
  steps : List (Nat × Action)
  term : RawTerm

def terminates : Action → Bool
  | .jump _ | .branch _ _ | .return_ _ => true
  | _ => false

/-- A label or terminator ends a block; labels and steps are gathered backwards. -/
def blocks : List NumberedItem → Nat → List String → List (Nat × Action) → Option (List RawBlock)
  | [], _, [], [] => some []
  | [], _, _, _ => none
  | .label l :: items, b, labels, [] => blocks items b (l :: labels) []
  | .label l :: items, b, labels, step :: steps => do
    let rest ← blocks items (b + 1) [l] []
    return ⟨b, labels.reverse, (step :: steps).reverse, .fall (b + 1)⟩ :: rest
  | .node n a :: items, b, labels, steps =>
    if terminates a then do
      let rest ← blocks items (b + 1) [] []
      return ⟨b, labels.reverse, steps.reverse, .terminal n a (b + 1)⟩ :: rest
    else blocks items b labels ((n, a) :: steps)

inductive ResolvedTerm
  | return_ (n : Nat) (a : Action)
  | jump (b : Nat)
  | branch (c : Cond) (yes no : Nat)

structure ResolvedBlock where
  id : Nat
  steps : List (Nat × Action)
  term : ResolvedTerm

def labelMap (raw : List RawBlock) : Option (List (String × Nat)) :=
  let map := raw.flatMap (fun r => r.labels.map (·, r.id))
  if (map.map (·.1)).Nodup then some map else none

def targetExists (raw : List RawBlock) (b : Nat) : Option Nat := if raw.any (·.id = b) then some b else none

def resolveTerm (labels : List (String × Nat)) (raw : List RawBlock) : RawTerm → Option ResolvedTerm
  | .fall next => (targetExists raw next).map .jump
  | .terminal n a next =>
    match a with
    | .return_ _ => some (.return_ n a)
    | .jump l => (labels.lookup l).map .jump
    | .branch c l => do return .branch c (← labels.lookup l) (← targetExists raw next)
    | _ => none

def resolveBlock (labels : List (String × Nat)) (raw : List RawBlock) (r : RawBlock) : Option ResolvedBlock := do
  return ⟨r.id, r.steps, ← resolveTerm labels raw r.term⟩

def successors : ResolvedTerm → List Nat
  | .return_ .. => []
  | .jump b => [b]
  | .branch _ yes no => [yes, no]

/-- The blocks that those of the queue reach. -/
def reachable (bs : List ResolvedBlock) : Nat → List Nat → List Nat → Option (List Nat)
  | _, [], seen => some seen
  | 0, _ :: _, _ => none
  | fuel + 1, b :: queue, seen =>
    if b ∈ seen then reachable bs fuel queue seen
    else do
      let r ← bs.find? (·.id = b)
      reachable bs fuel (successors r.term ++ queue) (b :: seen)

/-! ### The graph -/

inductive Ty
  | integer | pointer | boolean
deriving DecidableEq, Repr

inductive Typing
  | integer | pointer | uninitialized
deriving DecidableEq, Repr

/-- The types that a block's registers may have, and whether its flags are defined. -/
structure Abstract where
  types : Root → List Typing
  available : Flag → Bool

structure Parameter where
  key : Key
  type : Ty
deriving DecidableEq, Repr

structure Copy where
  dest : Value
  type : Ty
  source : Value
deriving DecidableEq, Repr

structure Edge where
  target : Nat
  copies : List Copy
deriving DecidableEq, Repr

inductive Term
  | return_ (x : Value)
  | jump (e : Edge)
  | branch (c : Formula Value) (yes no : Edge)

structure Block where
  id : Nat
  params : List Parameter
  ops : List Op
  term : Term

structure Graph where
  entry : Edge
  blocks : List Block

inductive BoundTerm
  | return_ (x : Value)
  | jump (b : Nat)
  | branch (c : Formula Value) (yes no : Nat)

structure Bound where
  id : Nat
  params : List Parameter
  ops : List Op
  term : BoundTerm
  out : RegState
  outFlags : FlagState

def registerInput (b : Nat) (types : Root → List Typing) (r : Root) : Option Parameter × Option (Root × Found) :=
  if .uninitialized ∈ types r then (none, none)
  else if types r = [.integer] then (some ⟨.reg r, .integer⟩, some (r, .int (.param b (.reg r))))
  else if types r = [.pointer] then (some ⟨.reg r, .pointer⟩, some (r, .ptr (.param b (.reg r))))
  else (none, some (r, .incompatible))

def registerParams (b : Nat) (types : Root → List Typing) : List Parameter :=
  registerRoots.filterMap (fun r => (registerInput b types r).1)

def registerState (b : Nat) (types : Root → List Typing) : RegState :=
  registerRoots.filterMap (fun r => (registerInput b types r).2)

def lowerTerm (st : RegState) (fs : FlagState) : ResolvedTerm → Option BoundTerm
  | .return_ n a => do
    match ← lowerStep a st n with
    | (.return_ x, _, _) => some (.return_ x)
    | _ => none
  | .jump b => some (.jump b)
  | .branch c yes no => do return .branch (← bind fs (formula c)) yes no

def lowerBlock (analysis : Nat → Abstract) (r : ResolvedBlock) : Option Bound := do
  let types := (analysis r.id).types
  let known := flags.filter (analysis r.id).available
  let (ops, out, outFlags) ← lowerNodes r.steps (registerState r.id types) (known.map (fun f => (f, .param r.id (.flag f))))
  let term ← lowerTerm out outFlags r.term
  return ⟨r.id, registerParams r.id types ++ known.map (⟨.flag ·, .boolean⟩), ops, term, out, outFlags⟩

def copyInput (b : Nat) (st : RegState) (fs : FlagState) (p : Parameter) : Option Copy :=
  match p.key, p.type with
  | .reg r, .integer =>
    match st.lookup r with
    | some (.int x) => some ⟨.param b p.key, .integer, .view x 64⟩
    | _ => none
  | .reg r, .pointer =>
    match st.lookup r with
    | some (.ptr x) => some ⟨.param b p.key, .pointer, x⟩
    | _ => none
  | .flag f, .boolean => (fs.lookup f).map (fun x => ⟨.param b p.key, .boolean, x⟩)
  | _, _ => none

def connectEdge (bounds : List Bound) (st : RegState) (fs : FlagState) (b : Nat) : Option Edge := do
  let target ← bounds.find? (·.id = b)
  return ⟨b, ← target.params.mapM (copyInput b st fs)⟩

def connectTerm (bounds : List Bound) (st : RegState) (fs : FlagState) : BoundTerm → Option Term
  | .return_ x => some (.return_ x)
  | .jump b => do return .jump (← connectEdge bounds st fs b)
  | .branch c yes no => do return .branch c (← connectEdge bounds st fs yes) (← connectEdge bounds st fs no)

def connectBlock (bounds : List Bound) (b : Bound) : Option Block := do
  return ⟨b.id, b.params, b.ops, ← connectTerm bounds b.out b.outFlags b.term⟩

/-- A function is called with a pointer, and may be with an integer. -/
def initialState (integer : Bool) : RegState :=
  (.rdi, .ptr (.arg 0)) :: if integer then [(.rsi, .int (.arg 1))] else []

def lower (analysis : Nat → Abstract) (integer : Bool) (name : String) (items : List Item) : Option Graph := do
  let raw ← blocks (.label name :: nodes items 0) 0 [] []
  let labels ← labelMap raw
  let resolved ← raw.mapM (resolveBlock labels raw)
  let reached ← reachable resolved (2 * resolved.length + 2) [0] []
  let bounds ← (resolved.filter (·.id ∈ reached)).mapM (lowerBlock analysis)
  let entry ← connectEdge bounds (initialState integer) [] 0
  return ⟨entry, ← bounds.mapM (connectBlock bounds)⟩

/-! ### Groups of reads -/

/-- The loads at the head that make up a read of so many bytes. -/
def probe (p i : Value) (scale : Nat) : Nat → Nat → List Op → Option (List Load × List Op)
  | _, 0, rest => some ([], rest)
  | o, remaining + 1, .load l :: ops =>
    if l.pointer = p ∧ l.index = i ∧ l.scale = scale ∧ l.offset = o ∧ l.bytes ≤ remaining + 1 then
      (probe p i scale (o + l.bytes) (remaining + 1 - l.bytes) ops).map (fun r => (l :: r.1, r.2))
    else none
  | _, _ + 1, _ => none

def choose (l : Load) (ops : List Op) : List Nat → Nat × List Load × List Op
  | [] => (l.bytes, [l], ops)
  | size :: sizes =>
    match probe l.pointer l.index l.scale l.offset size (.load l :: ops) with
    | some (loads, rest) => (size, loads, rest)
    | none => choose l ops sizes

/-- Loads become reads; with grouping on, the widest that the loads after one make up. -/
def planning (on : Bool) : Nat → List Op → Option (List Op)
  | _, [] => some []
  | 0, _ :: _ => none
  | fuel + 1, op :: ops =>
    match op with
    | .load l =>
      let (width, loads, rest) := if on then choose l ops ([8, 4, 2].filter (l.bytes < ·)) else (l.bytes, [l], ops)
      (planning on fuel rest).map (.read l.pointer l.index l.scale l.offset width loads :: ·)
    | op => (planning on fuel ops).map (op :: ·)

def prepareBlock (on : Bool) (b : Block) : Option Block := do
  return ⟨b.id, b.params, ← planning on b.ops.length b.ops, b.term⟩

def prepare (on : Bool) (g : Graph) : Option Graph := do
  return ⟨g.entry, ← g.blocks.mapM (prepareBlock on)⟩

end Nanofil.Sarcasm
