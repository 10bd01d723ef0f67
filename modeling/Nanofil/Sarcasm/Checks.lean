import Nanofil.Sarcasm.Lowering

/-! `check-model.pl`, `check-validator.pl` and `check-reuse.pl`: what an access requires,
certificates that an earlier read has checked it, their validation and their search. -/
namespace Nanofil.Sarcasm

/-! ### The model of checks -/

inductive Permission
  | read | write
deriving DecidableEq, Repr

inductive AccessKind
  | integer | pointer
deriving DecidableEq, Repr

/-- What an access requires: `range` is from an offset to before another. -/
structure Protection where
  value : Value
  capability : Value
  index : Value
  scale : Nat
  low : Nat
  high : Nat
  permission : Permission
  alignment : Nat
  kind : AccessKind
deriving DecidableEq, Repr

inductive Barrier
  | store | pointerLoad | pointerStore | pointerCopy | pointerOffset
  | unknown (op : Op)
deriving DecidableEq, Repr

/-- What an operation requires, and what it may change of what was checked before. -/
structure Effect where
  access : Option Protection
  after : Option Barrier
deriving DecidableEq, Repr

/-- A view of a normal value; one of a view is of the value under it, which is neither a view nor a constant. -/
def viewOf (x : Value) (w : Nat) : Value :=
  match x with
  | .literal n => .literal (n % 2 ^ w)
  | .view base inner => if min w inner = 64 then base else .view base (min w inner)
  | x => if w = 64 then x else .view x w

def normalize : Value → Value
  | .view x w => viewOf (normalize x) w
  | x => x

def requirement (p i : Value) (scale offset width : Nat) (permission : Permission) (alignment : Nat) (kind : AccessKind) :
    Protection :=
  ⟨p, p, normalize i, scale, offset, offset + width, permission, alignment, kind⟩

def Op.event : Op → Effect
  | .read p i s o w _ => ⟨some (requirement p i s o w .read 1 .integer), none⟩
  | .store p i s o w _ => ⟨some (requirement p i s o w .write 1 .integer), some .store⟩
  | .pointerLoad _ p i s o => ⟨some (requirement p i s o 8 .read 8 .pointer), some .pointerLoad⟩
  | .pointerStore p i s o _ => ⟨some (requirement p i s o 8 .write 8 .pointer), some .pointerStore⟩
  | .pointerCopy .. => ⟨none, some .pointerCopy⟩
  | .pointerOffset .. => ⟨none, some .pointerOffset⟩
  | .assign .. | .binary .. | .flagValues .. => ⟨none, none⟩
  | op => ⟨none, some (.unknown op)⟩

def Protection.valid (r : Protection) : Bool :=
  r.value = r.capability && r.low < r.high && r.high ≤ 9223372036854775807 && r.scale ∈ [1, 2, 4, 8] && r.alignment ∈ [1, 8]

inductive Arm
  | jump | true_ | false_
deriving DecidableEq, Repr

/-- An edge with its source, which the entry's has not. -/
structure Arc where
  source : Option Nat
  arm : Option Arm
  target : Nat
  copies : List Copy
deriving DecidableEq, Repr

def Term.edges : Term → List (Arm × Edge)
  | .return_ _ => []
  | .jump e => [(.jump, e)]
  | .branch _ yes no => [(.true_, yes), (.false_, no)]

def blockArcs (b : Block) : List Arc := b.term.edges.map (fun e => ⟨some b.id, some e.1, e.2.target, e.2.copies⟩)

def Graph.arcs (g : Graph) : List Arc := ⟨none, none, g.entry.target, g.entry.copies⟩ :: g.blocks.flatMap blockArcs

structure Site where
  block : Nat
  at_ : Nat
deriving DecidableEq, Repr

def Graph.block? (g : Graph) (b : Nat) : Option Block := g.blocks.find? (·.id = b)

def Graph.operation (g : Graph) (s : Site) : Option Op := (g.block? s.block).bind (·.ops[s.at_]?)

def Graph.incoming (g : Graph) (b : Nat) : List Arc := g.arcs.filter (·.target = b)

/-- The sites of the accesses, with what they require and change. -/
def Graph.accesses (g : Graph) : List (Site × Protection × Option Barrier) :=
  g.blocks.flatMap (fun b => (b.ops.zipIdx).filterMap (fun op =>
    op.1.event.access.map (fun r => (⟨b.id, op.2⟩, r, op.1.event.after))))

def Graph.candidates (g : Graph) : List (Site × Protection) :=
  g.accesses.filterMap (fun a => if a.2.2 = none ∧ a.2.1.valid then some (a.1, a.2.1) else none)

/-- The value that an edge gives to a value of its target; one that is made in the target has none. -/
def inputValue (b : Nat) (copies : List Copy) (type : Ty) : Value → Option Value
  | .param b' (.reg r) =>
    if b' = b then (copies.find? (fun c => c.dest = .param b (.reg r) ∧ c.type = type)).map (fun c => normalize c.source)
    else none
  | .literal n => if type = .integer then some (.literal n) else none
  | .view x w => if type = .integer then (inputValue b copies type x).map (fun y => normalize (.view y w)) else none
  | _ => none

def pullback (b : Nat) (copies : List Copy) (r : Protection) : Option Protection := do
  return { r with
    value := ← inputValue b copies .pointer r.value
    capability := ← inputValue b copies .pointer r.capability
    index := ← inputValue b copies .integer r.index }

/-- Whether a block is reached from the queue, following each arc once. -/
def reaches (g : Graph) (target : Nat) : Nat → List Nat → List Nat → Option Bool
  | _, [], _ => some false
  | 0, _ :: _, _ => none
  | fuel + 1, b :: queue, seen =>
    if b = target then some true
    else if b ∈ seen then reaches g target fuel queue seen
    else reaches g target fuel ((g.arcs.filter (·.source = some b)).map Arc.target ++ queue) (b :: seen)

def cycleEdge (g : Graph) (source target : Nat) : Option Bool :=
  if g.arcs.any (fun a => a.source = some source ∧ a.target = target) then
    reaches g source (g.arcs.length + 1) [target] []
  else some false

/-! ### Certificates -/

mutual
/-- How a requirement at a site rests on the witness: it is just before, or before what preserves it, or on every
way into the block. -/
inductive Tree
  | checked (site : Site) (claim : Protection)
  | through (site : Site) (effect : Effect) (tail : Tree)
  | incoming (id : Nat) (paths : Paths)
inductive Paths
  | nil
  | via (arc : Arc) (before : Protection) (proof : Tree) (rest : Paths)
end

/-- `Guard` is the site whose offset check stays. -/
structure Reuse where
  target : Site
  need : Protection
  guard : Site
  witness : Site
  tree : Tree

inductive Invalid
  | changedOffsetGuard
  | missingAccess (s : Site)
  | changedRequirement (s : Site)
  | unrepresentableRequirement
  | changedWitness
  | missingWitness
  | changedWitnessEffect
  | invalidWitnessRequirement
  | changedInterval
  | missingOperation
  | changedEffect
  | invalidatingEffect (s : Site)
  | changedJoin
  | missingPredecessor (b : Nat)
  | changedEdge
  | unprotectedEntry
  | pollingEdge (p b : Nat)
  | valueNotAtEntry (b : Nat)
  | changedEdgeRequirement
  | changedPointer | changedCapability | changedIndex | wrongPermission | wrongAccessKind
  | insufficientRange | insufficientAlignment
  | structure_
deriving DecidableEq, Repr

def require (ok : Prop) [Decidable ok] (error : Invalid) : Except Invalid Unit := if ok then .ok () else .error error

def present {α : Type} (x : Option α) (error : Invalid) : Except Invalid α :=
  match x with
  | some x => .ok x
  | none => .error error

def covered (have_ need : Protection) : Except Invalid Unit := do
  require (have_.value = need.value) .changedPointer
  require (have_.capability = need.capability) .changedCapability
  require (have_.index = need.index ∧ have_.scale = need.scale) .changedIndex
  require (have_.permission = need.permission) .wrongPermission
  require (have_.kind = need.kind) .wrongAccessKind
  require (have_.low ≤ need.low ∧ need.high ≤ have_.high) .insufficientRange
  require (need.alignment ≤ have_.alignment ∧ have_.alignment % need.alignment = 0 ∧
    ((need.low : Int) - have_.low) % need.alignment = 0) .insufficientAlignment

def Paths.arcs : Paths → List Arc
  | .nil => []
  | .via arc _ _ rest => arc :: rest.arcs

mutual
def checkPath (g : Graph) (witness : Site) : Nat → Nat → Protection → Tree → Except Invalid Unit
  | b, n, need, .checked site claim => do
    require (0 < n ∧ site = ⟨b, n - 1⟩ ∧ site = witness) .changedWitness
    let op ← present (g.operation site) .missingWitness
    require (op.event = ⟨some claim, none⟩) .changedWitnessEffect
    require (claim.valid = true) .invalidWitnessRequirement
    covered claim need
  | b, n, need, .through site effect tail => do
    require (0 < n ∧ site = ⟨b, n - 1⟩) .changedInterval
    let op ← present (g.operation site) .missingOperation
    require (effect = op.event) .changedEffect
    require (op.event.after = none) (.invalidatingEffect site)
    checkPath g witness b (n - 1) need tail
  | b, n, need, .incoming id paths => do
    require (n = 0 ∧ id = b) .changedJoin
    require (g.incoming b ≠ [] ∧ paths.arcs = g.incoming b) (.missingPredecessor b)
    checkArcs g witness b need paths
/-- Each recorded arc is one of the block's, so the paths are checked with their own. -/
def checkArcs (g : Graph) (witness : Site) : Nat → Protection → Paths → Except Invalid Unit
  | _, _, .nil => .ok ()
  | b, need, .via arc before proof rest => do
    let p ← present arc.source .unprotectedEntry
    require (cycleEdge g p b = some false) (.pollingEdge p b)
    let expected ← present (pullback b arc.copies need) (.valueNotAtEntry b)
    require (before = expected) .changedEdgeRequirement
    let source ← present (g.block? p) .structure_
    checkPath g witness p source.ops.length before proof
    checkArcs g witness b need rest
end

def validate (g : Graph) (r : Reuse) : Except Invalid Unit := do
  require (r.guard = r.target) .changedOffsetGuard
  let op ← present (g.operation r.target) (.missingAccess r.target)
  let actual ← present op.event.access (.missingAccess r.target)
  require (r.need = actual) (.changedRequirement r.target)
  require (r.need.valid = true) .unrepresentableRequirement
  checkPath g r.witness r.target.block r.target.at_ r.need r.tree

/-! ### The search -/

inductive Rejected
  | barrier (s : Site) (why : Barrier)
  | notCovering (s : Site)
  | unprotectedEntry
  | pollingEdge (p b : Nat)
  | valueNotAtEntry (b : Nat)
deriving DecidableEq, Repr

inductive SearchError
  | checkAnalysisLimit
  | failed

def covers (have_ need : Protection) : Bool :=
  have_.value = need.value && have_.capability = need.capability && have_.index = need.index && have_.scale = need.scale &&
    have_.permission = need.permission && have_.kind = need.kind && have_.low ≤ need.low && need.high ≤ have_.high &&
    have_.alignment % need.alignment = 0 && ((need.low : Int) - have_.low) % need.alignment = 0

inductive Outcome (α : Type)
  | accepted (x : α)
  | rejected (why : Rejected)

def tick (f : Nat) : Except SearchError Nat := if 0 < f then .ok (f - 1) else .error .checkAnalysisLimit

mutual
/-- The search for a path; each step takes one of the budget, and `depth` bounds the steps inside each other. -/
def path (g : Graph) (witness : Site) (depth : Nat) (b n : Nat) (r : Protection) (f : Nat) :
    Except SearchError (Outcome Tree × Nat) :=
  match depth with
  | 0 => .error .checkAnalysisLimit
  | depth + 1 => do
    let f ← tick f
    match n with
    | n + 1 =>
      match g.operation ⟨b, n⟩ with
      | none => .error .failed
      | some op =>
        match op.event.after with
        | some why => return (.rejected (.barrier ⟨b, n⟩ why), f)
        | none =>
          if (⟨b, n⟩ : Site) = witness then
            match op.event.access with
            | some claim =>
              if covers claim r then return (.accepted (.checked ⟨b, n⟩ claim), f) else return (.rejected (.notCovering ⟨b, n⟩), f)
            | none => return (.rejected (.notCovering ⟨b, n⟩), f)
          else
            match ← path g witness depth b n r f with
            | (.accepted t, f) => return (.accepted (.through ⟨b, n⟩ op.event t), f)
            | (.rejected why, f) => return (.rejected why, f)
    | 0 =>
      match ← paths g witness depth (g.incoming b) b r f with
      | (.accepted ps, f) => return (.accepted (.incoming b ps), f)
      | (.rejected why, f) => return (.rejected why, f)
def paths (g : Graph) (witness : Site) (depth : Nat) (arcs : List Arc) (b : Nat) (r : Protection) (f : Nat) :
    Except SearchError (Outcome Paths × Nat) :=
  match depth, arcs with
  | _, [] => .ok (.accepted .nil, f)
  | 0, _ :: _ => .error .checkAnalysisLimit
  | depth + 1, arc :: arcs => do
    let f ← tick f
    match arc.source with
    | none => return (.rejected .unprotectedEntry, f)
    | some p =>
      match cycleEdge g p b with
      | none => .error .failed
      | some true => return (.rejected (.pollingEdge p b), f)
      | some false =>
        match pullback b arc.copies r with
        | none => return (.rejected (.valueNotAtEntry b), f)
        | some before =>
          match g.block? p with
          | none => .error .failed
          | some source =>
            match ← path g witness depth p source.ops.length before f with
            | (.rejected why, f) => return (.rejected why, f)
            | (.accepted proof, f) =>
              match ← paths g witness depth arcs b r f with
              | (.rejected why, f) => return (.rejected why, f)
              | (.accepted rest, f) => return (.accepted (.via arc before proof rest), f)
end

inductive Decision
  | covered (r : Reuse)
  | retained

/-- The first candidate that a path leads to. -/
def chooseWitness (g : Graph) (s : Site) (r : Protection) : List (Site × Protection) → Nat → Except SearchError (Decision × Nat)
  | [], f => .ok (.retained, f)
  | (witness, _) :: candidates, f => do
    match ← path g witness (f + 1) s.block s.at_ r f with
    | (.accepted t, f) => return (.covered ⟨s, r, s, witness, t⟩, f)
    | (.rejected _, f) => chooseWitness g s r candidates f

def decisions (g : Graph) : List (Site × Protection × Option Barrier) → Nat → Except SearchError (List Decision)
  | [], _ => .ok []
  | (s, r, _) :: accesses, f => do
    let (d, f) ← if r.valid then chooseWitness g s r g.candidates f else .ok (.retained, f)
    return d :: (← decisions g accesses f)

/-- The decisions for the accesses, before their certificates are validated. -/
def analyze (g : Graph) (limit : Nat) : Except SearchError (List Decision) := decisions g g.accesses limit

end Nanofil.Sarcasm
