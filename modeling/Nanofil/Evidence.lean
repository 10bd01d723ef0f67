import Nanofil.Cfg
import Nanofil.Interp
import Nanofil.Offsets

/-! The checked stage of `ir.pl`: proofs and their uses, the needs ahead of a
`check_ahead`, and the evidence that flows along a function's edges. -/
namespace Nanofil

/-! ### Raw accesses -/

/-- `raw_access/5`: the proof an access is at, its type, its offset and the rights it needs. -/
structure RawAccess where
  proof : Name
  type : AccessType
  off : Int
  need : Rights

def rawAccess : Inst → Option RawAccess
  | .let_ _ _ (.rawLoad t off) [.tmp q] => some ⟨q, .load t, off, .read⟩
  | .rawStore wd off _ (.tmp q) => some ⟨q, .store wd, off, .write⟩
  | .let_ _ _ (.rawLoadPointer off _) [.tmp q] => some ⟨q, .load .p, off, .read⟩
  | .rawStorePointer off _ (.tmp q) _ => some ⟨q, .store .p, off, .write⟩
  | .let_ _ _ (.rawCas t off) (.tmp q :: _) => some ⟨q, .cas t, off, .write⟩
  | _ => none

inductive Storage
  | heap | local_
deriving DecidableEq

def loadStorage : Storage → List PointerAccess
  | .heap => [.load, .atomicLoad]
  | .local_ => [.localLoad]

def storeStorage : Storage → List PointerAccess
  | .heap => [.store, .atomicStore]
  | .local_ => [.localStore]

def accessStorageEffects (i : Inst) (storage : Storage) : Bool :=
  match i with
  | .let_ _ _ (.rawLoad _ _) _ | .rawStore .. => true
  | .let_ _ _ (.rawCas _ _) _ => storage = .heap
  | .let_ _ .p (.rawLoadPointer _ es) _ => (loadStorage storage).any (fun a => es = pointerMemoryEffects a)
  | .rawStorePointer _ _ _ es => (storeStorage storage).any (fun a => es = pointerMemoryEffects a)
  | _ => false

def rightsAllow (rights need : Rights) : Bool := rights = .write || need = .read

/-- A live proof `live(Q, P, Lo, Hi, Rights, Align)`: `q` proves `[p + lo, p + hi)`. -/
structure Live where
  q : Name
  p : Value
  lo : Int
  hi : Int
  rights : Rights
  align : Int
deriving DecidableEq, Repr

def coveredAccess (i : Inst) (q : Name) (lo hi : Int) (rights : Rights) (align : Int) : Bool :=
  match rawAccess i with
  | some a =>
    match accessSizeAlign a.type with
    | some sa => a.proof = q && lo ≤ a.off && a.off + sa.1 ≤ hi && align % sa.2 = 0 &&
        (a.off - lo) % sa.2 = 0 && rightsAllow rights a.need
    | none => false
  | none => false

def proofUse (i : Inst) (q : Name) (lo hi : Int) (rights : Rights) (align : Int) : Bool :=
  match i with
  | .touch t => t = .tmp q
  | i => coveredAccess i q lo hi rights align && accessStorageEffects i .heap

/-! ### Needs ahead -/

/-- `proof_pointer/3` and `renew_source_op/6`: the pointer a heap proof is of. -/
def proofPointer : Op → List Value → Option Value
  | .check .., [p] | .checkAhead .., [p] | .renew .., [_, p] | .renewHull .., [_, _, p]
  | .halfCheck .., [_, p] | .renewIf .., [p, _] | .checkLimit .., [p, _] => some p
  | _, _ => none

/-- The pointer a single-definition heap proof is of. -/
def proofPointers (once : Once) (q : Name) : Option Value :=
  match once q with
  | some (.inst (.let_ _ .a op args)) => proofPointer op args
  | _ => none

abbrev Need := Name → Option Int

def noNeed : Need := fun _ => none

def endNeed (need : Need) (ds : List Name) : Need := fun n => if n ∈ ds then none else need n

def raiseNeed (off size : Int) (need : Need) (base : Name × Int) : Need :=
  let h := base.2 + off + size
  if nearOffset base.2 && nearOffset h && !(need base.1).any (h ≤ ·) then
    fun n => if n = base.1 then some h else need n
  else need

/-- `ahead_step/5`: the needs before an instruction, of those after it. -/
def aheadStep (once : Once) (i : Inst) (need : Need) : Need :=
  if aheadTransparent i then
    let need1 := endNeed need (instDefs i)
    match rawAccess i with
    | some a =>
      if a.type.isCas then need1
      else match accessSizeAlign a.type, proofPointers once a.proof with
        | some sa, some p => (exactBases once p).foldl (raiseNeed a.off sa.1) need1
        | _, _ => need1
    | none => need1
  else noNeed

/-- The needs after each instruction, and before them all. -/
def aheadInsts (once : Once) (out : Need) : List Inst → Need
  | [] => out
  | i :: is => aheadStep once i (aheadInsts once out is)

def needMeet : List Need → Need
  | [] => noNeed
  | f :: fs => fs.foldl (fun m g => fun n => do return min (← m n) (← g n)) f

def labelPos (bs : List Block) (l : Name) : Option Nat := bs.findIdx? (fun b => b.label = l)

/-- A plain edge to a later block carries the needs of its entry, any other none. -/
def aheadEdge (bs : List Block) (pos : Nat) (entries : Name → Need) : Target → Need
  | .poll _ => noNeed
  | .label l => if (labelPos bs l).any (pos < ·) then entries l else noNeed

def aheadExit (bs : List Block) (entries : Name → Need) (b : Block) : Need :=
  match labelPos bs b.label with
  | some pos => needMeet ((jumpTargets b.jump).map (aheadEdge bs pos entries))
  | none => noNeed

def aheadBlock (once : Once) (bs : List Block) (entries : Name → Need) (b : Block) : Name → Need :=
  let entry := endNeed (aheadInsts once (aheadExit bs entries b) b.insts) (b.phis.map (·.dst))
  fun l => if l = b.label then entry else entries l

/-- The needs at each block's entry, in one pass over the blocks from the last. -/
def aheadEntries (once : Once) (bs : List Block) : Name → Need :=
  bs.reverse.foldl (aheadBlock once bs) (fun _ => noNeed)

/-- The needs two instructions on: past the access that a `check_ahead` is followed by. -/
def needPast (once : Once) (out : Need) : List Inst → Need
  | [] => noNeed
  | _ :: is => aheadInsts once out is

def aheadNeeded (once : Once) (need : Need) (p : Value) (hi : Int) : Bool :=
  (exactBases once p).any (fun e => nearOffset e.2 && (need e.1).any (fun h => h ≥ e.2 + hi))

def justifiedInsts (once : Once) (out : Need) : List Inst → List Name
  | [] => []
  | i :: is =>
    match i with
    | .let_ q .a (.checkAhead _ hi _ _ _) [p] =>
      if (once q).isSome && aheadNeeded once (needPast once out is) p hi then
        q :: justifiedInsts once out is
      else justifiedInsts once out is
    | _ => justifiedInsts once out is

/-- `ahead_justified/3`: the `check_ahead`s whose early bytes are needed on every path. -/
def aheadJustified (once : Once) (bs : List Block) : List Name :=
  bs.flatMap (fun b => justifiedInsts once (aheadExit bs (aheadEntries once bs) b) b.insts)

/-! ### Sources -/

structure Source where
  p : Name
  lo : Int
  hi : Int
  align : Int
deriving DecidableEq, Repr

def renewSourceOp : Op → List Value → Option Source
  | .check lo hi _ al, [.tmp p] | .checkAhead lo hi _ al _, [.tmp p] | .renewIf lo hi _ al, [.tmp p, _]
  | .checkLimit lo hi _ al, [.tmp p, _] | .halfCheck _ lo hi _ al, [_, .tmp p] => some ⟨p, lo, hi, al⟩
  | _, _ => none

def renewSource (once : Once) (q : Name) : Option Source :=
  match once q with
  | some (.inst (.let_ _ .a op args)) => (renewSourceOp op args).filter (fun s => (once s.p).isSome)
  | _ => none

structure Sources where
  renews : Name → Option Source
  once : Once
  ahead : List Name
  getters : Name → Option Name

def stagedOp : Op → Bool
  | .renew .. | .renewHull .. | .renewIf .. | .checkLimit .. | .halfCheck .. | .checkAhead .. => true
  | _ => false

def stagedInst : Inst → Bool
  | .let_ _ _ op _ => stagedOp op
  | _ => false

def Linkage.isLocal : Linkage → Bool
  | .local_ | .ro .local_ | .tls .local_ => true
  | _ => false

def localGlobal (m : Module) (g : Name) : Bool :=
  (funcNamed m g).any (·.linkage = .local_) || (dataItem m g).any (·.linkage.isLocal)

/-- A getter copy: the symbol it reads, where, and the name it defines. -/
structure GetterSite where
  global : Name
  label : Name
  index : Nat
  dst : Name

def getterCopy : Inst → Option (Name × Name)
  | .let_ d .p .copy [.global g] => some (g, d)
  | _ => none

def getterSites (m : Module) (bs : List Block) : List GetterSite :=
  bs.flatMap (fun b => b.insts.zipIdx.filterMap (fun it => do
    let gd ← getterCopy it.1
    if localGlobal m gd.1 then some ⟨gd.1, b.label, it.2, gd.2⟩ else none))

def getterRepeated (once : Once) (iv : Intervals) (sites : List GetterSite) (s : GetterSite) : Bool :=
  (once s.dst).isSome && (iv s.label).isSome && sites.any (fun s1 => s1.global = s.global &&
    if s1.label = s.label then s1.index < s.index else dominatesByInterval iv s1.label s.label)

/-- `repeated_getters/4`: the getter copies that another of the same symbol dominates. -/
def repeatedGetters (m : Module) (bs : List Block) (once : Once) : Option (Name → Option Name) :=
  match getterSites m bs with
  | [] => some (fun _ => none)
  | sites => do
    let iv ← blockIntervals bs
    return fun d => (sites.find? (fun s => s.dst = d && getterRepeated once iv sites s)).map (·.global)

def noSources : Sources :=
  { renews := fun _ => none, once := fun _ => none, ahead := [], getters := fun _ => none }

def stageSources (m : Module) (params : List Param) (bs : List Block) : Option Sources :=
  let once := singleDefinitions params bs
  if (blocksInsts bs).any setjmpInst then some noSources
  else do
    let getters ← repeatedGetters m bs once
    if (blocksInsts bs).any stagedInst then
      return { renews := renewSource once, once := once, ahead := aheadJustified once bs, getters := getters }
    else return { noSources with once := once, getters := getters }

/-! ### Proofs and their sources -/

/-- A heap proof as an instruction defines it, and the end of its own access's range. -/
structure HeapProof where
  fact : Live
  ahi : Int

def heapProof : Inst → Option HeapProof
  | .let_ q .a (.check lo hi r al) [p] => some ⟨⟨q, p, lo, hi, r, al⟩, hi⟩
  | .let_ q .a (.checkAhead lo hi r al ahi) [p] => some ⟨⟨q, p, lo, hi, r, al⟩, ahi⟩
  | .let_ q .a (.renew lo hi r al) [_, p] => some ⟨⟨q, p, lo, hi, r, al⟩, hi⟩
  | .let_ q .a (.renewHull lo hi r al) [_, _, p] => some ⟨⟨q, p, lo, hi, r, al⟩, hi⟩
  | .let_ q .a (.halfCheck _ lo hi r al) [_, p] => some ⟨⟨q, p, lo, hi, r, al⟩, hi⟩
  | .let_ q .a (.renewIf lo hi r al) [p, _] => some ⟨⟨q, p, lo, hi, r, al⟩, hi⟩
  | .let_ q .a (.checkLimit lo hi r al) [p, _] => some ⟨⟨q, p, lo, hi, r, al⟩, hi⟩
  | _ => none

def sourceOf (src : Sources) : Value → Option Source
  | .tmp n => src.renews n
  | _ => none

def renewable (src : Sources) (q1 p : Value) (lo hi align : Int) : Bool :=
  match sourceOf src q1 with
  | some s =>
    match pointerDistance src.once p (.tmp s.p) with
    | some d => s.lo ≤ lo + d && hi + d ≤ s.hi && s.align % align = 0 && (lo + d - s.lo) % align = 0
    | none => false
  | none => false

def hullRenewable (src : Sources) (ql qh p : Value) (lo hi align : Int) : Bool :=
  match sourceOf src ql, sourceOf src qh with
  | some sl, some sh =>
    match pointerDistance src.once p (.tmp sl.p), pointerDistance src.once p (.tmp sh.p) with
    | some dl, some dh =>
      let e := lo + dl - sl.lo
      let f := sh.hi - hi - dh
      0 ≤ e && e ≤ 2 ^ 62 && 0 ≤ f && f ≤ 2 ^ 62 && hi - lo ≤ 2 ^ 62 &&
        (sl.align % align = 0 && e % align = 0 || sh.align % align = 0 && (lo + dh - sh.lo) % align = 0)
    | _, _ => false
  | _, _ => false

def halfRenewable (src : Sources) (bound : Bound) (q1 p : Value) (lo hi : Int) : Bool :=
  match sourceOf src q1 with
  | some s =>
    match pointerDistance src.once p (.tmp s.p) with
    | some d0 => halfKnown bound lo hi d0 s.lo s.hi
    | none => false
  | none => false

/-- What the validator asks of a heap proof's operands. -/
def proofSourced (src : Sources) : Inst → Bool
  | .let_ q .a (.checkAhead ..) [_] => src.ahead.contains q
  | .let_ _ .a (.renew lo hi _ al) [q1, p] => renewable src q1 p lo hi al
  | .let_ _ .a (.renewHull lo hi _ al) [ql, qh, p] => hullRenewable src ql qh p lo hi al
  | .let_ _ .a (.halfCheck bound lo hi _ _) [q1, p] => halfRenewable src bound q1 p lo hi
  | .let_ _ .a (.renewIf lo hi _ _) [p, g] => guardCovers src.once p g lo hi
  | .let_ _ .a (.checkLimit lo hi _ _) [p, u] => limitCovers src.once p u lo hi
  | _ => true

def proofOwnUse (i access : Inst) (pf : HeapProof) : Bool :=
  proofUse access pf.fact.q pf.fact.lo pf.ahi pf.fact.rights pf.fact.align &&
    (!(aheadInst i).isSome || aheadTransparent access)

/-! ### Evidence -/

def Live.names (f : Live) (d : Name) : Bool := f.q = d || f.p = .tmp d

def evidenceKill (live : List Live) (ds : List Name) : List Live :=
  live.filter (fun f => !ds.any f.names)

def evidenceAfter (i : Inst) (live : List Live) : List Live :=
  if evidencePreserving i then evidenceKill live (instDefs i) else []

def reusingAccess (i : Inst) (a : RawAccess) : Bool :=
  match i with
  | .let_ _ .p (.rawLoadPointer _ es) _ => es = pointerMemoryEffects .load
  | _ => !a.type.isPointer && !a.type.isCas

structure Span where
  lo : Int
  hi : Int
  rights : Rights

def hullSpan (once : Once) (p : Value) (f : Live) : Option Span :=
  match pointerDistance once f.p p with
  | some d =>
    if nearOffset d && nearOffset (f.lo + d) && nearOffset (f.hi + d) then
      some ⟨f.lo + d, f.hi + d, f.rights⟩
    else none
  | none => none

/-- `hull_covered/7`: the access lies within the hull of the live facts of `p`'s object. -/
def hullCovered (once : Once) (a : RawAccess) (p : Value) (lo align : Int) (live : List Live) : Bool :=
  match accessSizeAlign a.type with
  | some sa =>
    let spans := live.filterMap (hullSpan once p)
    align % sa.2 = 0 && (a.off - lo) % sa.2 = 0 && nearOffset a.off && nearOffset (a.off + sa.1) &&
      spans.any (fun s => s.lo ≤ a.off) && spans.any (fun s => a.off + sa.1 ≤ s.hi) &&
      (a.need = .read || spans.any (fun s => s.rights = .write))
  | none => false

def liveCovers (once : Once) (i : Inst) (a : RawAccess) (live : List Live) : Bool :=
  reusingAccess i a &&
    match live.find? (fun f => f.q = a.proof) with
    | some f => coveredAccess i f.q f.lo f.hi f.rights f.align || hullCovered once a f.p f.lo f.align live
    | none => false

def uncheckedAccess : Inst → Bool
  | .let_ _ _ (.load _) _ | .let_ _ _ (.atomicLoad _) _ | .let_ _ _ (.cas _) _ => true
  | .store .. | .atomicStore .. | .localLoad .. | .localStore .. | .access .. => true
  | .call _ (.tmp _) _ => true
  | _ => false

/-- A pure pointer operation that checked IR must state as a flight. -/
def implicitFlight : Inst → Bool
  | .let_ _ .p .add _ | .let_ _ .p .sub _ | .let_ _ .p .itop _ => true
  | .let_ _ .p .copy [.tmp _] | .let_ _ .p .copy [.const _] => true
  | _ => false

def ordinaryAllowed (mode : Mode) (once : Once) (i : Inst) (live : List Live) : Bool :=
  match rawAccess i with
  | some a => liveCovers once i a live
  | none =>
    match i with
    | .rawCall .. | .touch _ => false
    | i => !(mode = .filc && uncheckedAccess i) && !implicitFlight i

/-- A repeated getter call frees nothing and reaches no safepoint. -/
def repeatedGetter (src : Sources) (i : Inst) : Bool :=
  match getterCopy i with
  | some (g, d) => src.getters d = some g
  | none => false

def ordinaryAfter (src : Sources) (i : Inst) (live : List Live) : List Live :=
  if repeatedGetter src i then evidenceKill live (instDefs i) else evidenceAfter i live

/-- The instructions that state a proof, each followed by the access that uses it first. -/
def proofInst (i : Inst) : Bool :=
  match i with
  | .let_ _ .a (.checkLocal ..) [] | .let_ _ .f .checkFunction _ => true
  | i => (heapProof i).isSome

def localUse (access : Inst) (q : Name) (bytes : Int) (rights : Rights) (align : Int) : Bool :=
  (rawAccess access).any (fun a => a.off = 0) && coveredAccess access q 0 bytes rights align &&
    accessStorageEffects access .local_

/-- `checked_inst_rest/7` for a proof and its access. -/
def provenAccess (src : Sources) (i access : Inst) (live : List Live) : Option (List Live) :=
  match i with
  | .let_ q .a (.checkLocal _ _ bytes rights align) [] =>
    if localUse access q bytes rights align then some (evidenceAfter access (evidenceKill live [q])) else none
  | .let_ q .f .checkFunction _ =>
    match access with
    | .rawCall _ (.tmp f) _ => if f = q then some [] else none
    | _ => none
  | i =>
    match heapProof i with
    | some pf =>
      if proofSourced src i && proofOwnUse i access pf then
        some (evidenceAfter access (pf.fact :: evidenceAfter i live))
      else none
    | none => none

def checkedInsts (src : Sources) (mode : Mode) : List Inst → List Live → Option (List Live)
  | [], live => some live
  | [i], live =>
    if proofInst i then none
    else if ordinaryAllowed mode src.once i live then some (ordinaryAfter src i live) else none
  | i :: access :: insts, live =>
    if proofInst i then do
      let live' ← provenAccess src i access live
      checkedInsts src mode insts live'
    else if ordinaryAllowed mode src.once i live then
      checkedInsts src mode (access :: insts) (ordinaryAfter src i live)
    else none

/-! ### Evidence across edges -/

structure Edge where
  source : Name
  target : Target

def incomingEdges (bs : List Block) (l : Name) : List Edge :=
  bs.flatMap (fun b => ((jumpTargets b.jump).filter (fun t => edgeLabel t = l)).map (fun t => ⟨b.label, t⟩))

abbrev Exits := Name → Option (List Live)

/-- A poll edge carries no evidence, nor does an edge from a block not yet processed. -/
def edgeEvidence (exits : Exits) (e : Edge) : List Live :=
  match e.target with
  | .poll _ => []
  | .label _ => (exits e.source).getD []

def evidenceMeet : List (List Live) → List Live
  | [] => []
  | s :: ss => s.filter (fun f => (s :: ss).all (fun s' => s'.contains f))

def entryEvidence (bs : List Block) (exits : Exits) (b : Block) : List Live :=
  evidenceKill (evidenceMeet (((incomingEdges bs b.label).reverse).map (edgeEvidence exits))) (b.phis.map (·.dst))

def checkedBlock (src : Sources) (mode : Mode) (bs : List Block) (exits : Exits) (b : Block) :
    Option Exits := do
  let live ← checkedInsts src mode b.insts (entryEvidence bs exits b)
  return fun l => if l = b.label then some live else exits l

def checkedBlocks (src : Sources) (mode : Mode) (bs : List Block) : Option Exits :=
  bs.foldlM (checkedBlock src mode bs) (fun _ => none)

/-! ### Limits and polls -/

def limitNames (bs : List Block) : List Name :=
  (blocksInsts bs).filterMap (fun i => match i with | .let_ n _ (.limit _) _ => some n | _ => none)

/-- A limit's value is read only by a `check_limit`, as its second operand. -/
def instLimitReads (limits : List Name) : Inst → Bool
  | .let_ _ _ (.checkLimit ..) [p, u] =>
    (temps [p]).all (fun n => n ∉ limits) && (match u with | .tmp n => n ∈ limits | _ => false)
  | i => (instUses i).all (fun n => n ∉ limits)

def blockLimitReads (limits : List Name) (b : Block) : Bool :=
  b.insts.all (instLimitReads limits) && (jumpUses b.jump).all (fun n => n ∉ limits) &&
    b.phis.all (fun ph => (temps (ph.pairs.map (·.2))).all (fun n => n ∉ limits))

def limitReads (bs : List Block) : Bool :=
  match limitNames bs with
  | [] => true
  | limits => bs.all (blockLimitReads limits)

inductive Color
  | gray | done
deriving DecidableEq

def unpolledEdges (bs : List Block) (l : Name) : Option (List Name) :=
  (bs.find? (fun b => b.label = l)).map (fun b =>
    (jumpTargets b.jump).filterMap (fun t => match t with | .label l => some l | .poll _ => none))

/-- Depth-first search over the unpolled edges; a gray successor closes a cycle. -/
def acyclicFromAll (graph : Name → Option (List Name)) :
    Nat → List Name → (Name → Option Color) → Option (Name → Option Color)
  | _, [], color => some color
  | 0, _ :: _, _ => none
  | n + 1, l :: ls, color =>
    match color l with
    | some .done => acyclicFromAll graph n ls color
    | some .gray => none
    | none => do
      let ss ← graph l
      let color' ← acyclicFromAll graph n ss (fun l' => if l' = l then some .gray else color l')
      acyclicFromAll graph n ls (fun l' => if l' = l then some .done else color' l')

def pollsEveryCycle (bs : List Block) : Bool :=
  (acyclicFromAll (unpolledEdges bs) (4 * bs.length + 4) (bs.map (·.label)) (fun _ => none)).isSome

/-- `stage_func/6`: a checked function's accesses are proven and its cycles polled. -/
def stageFunc (m : Module) (stage : Stage) (mode : Mode) (params : List Param) (bs : List Block) : Bool :=
  match stage with
  | .unchecked => true
  | .checked =>
    match stageSources m params bs with
    | some src => (checkedBlocks src mode bs).isSome && limitReads bs && pollsEveryCycle bs
    | none => false

end Nanofil
