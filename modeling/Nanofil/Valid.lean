import Nanofil.Evidence

/-! `valid_module/1`. A rule that throws in the source is false here. -/
namespace Nanofil

/-! ### Operations -/

def floatCond : Cond → Bool
  | .eq | .ne | .le | .lt | .ge | .gt | .o | .uo => true
  | _ => false

def cmpCond : Cond → Bool
  | .eq | .ne | .sle | .slt | .sge | .sgt | .ule | .ult | .uge | .ugt => true
  | _ => false

def comparison (c : Cond) (k : Cls) : Bool := intClass k && cmpCond c || floatClass k && floatCond c

def dataAligns : List Int := [1, 2, 4, 8, 16, 32, 64, 128, 256, 512, 1024, 2048, 4096]
def dataAlign (n : Int) : Bool := n ∈ dataAligns
def allocAlignOk (n : Int) : Bool := dataAlign n && n ≥ 4
def checkAlign (n : Int) : Bool := n = 1 || n = 2 || n = 4 || n = 8 || n = 16

def localOffset (off : Int) : Bool := -9223372036854775808 ≤ off && off < 9223372036854775808

def validCheckOp (lo hi align : Int) : Bool := lo < hi && checkAlign align

def loadType (_ : LoadType) : Bool := true

def validOp : Op → Bool
  | .cmp c k => comparison c k
  | .load t => loadType t
  | .alloc align => allocAlignOk align
  | .check lo hi _ al | .renew lo hi _ al | .renewHull lo hi _ al | .halfCheck _ lo hi _ al
  | .renewIf lo hi _ al | .checkLimit lo hi _ al => validCheckOp lo hi al
  | .checkAhead lo hi _ al ahi => validCheckOp lo hi al && lo < ahi && ahi < hi
  | .spanTest lo hi => lo < hi && -9223372036854775808 ≤ lo && hi ≤ 9223372036854775807
  | .limit size => 0 < size && size ≤ 2147483647
  | .checkLocal _ off bytes _ al => localOffset off && 0 < bytes && bytes ≤ 2147483647 && checkAlign al
  | .rawLoad t _ => t ≠ .p
  | .cas t | .rawCas t _ => casType t
  | .rawLoadPointer _ es => es = pointerMemoryEffects .load || es = pointerMemoryEffects .localLoad ||
      es = pointerMemoryEffects .atomicLoad
  | op => (opKind op).isSome

def loadResultOk (t : LoadType) (mode : Mode) (k : Cls) : Bool :=
  match t with
  | .l => k = .l
  | .p => mode = .filc && k = .p
  | .s => k = .s
  | .d => k = .d
  | .x => mode = .filc && k = .x
  | _ => intClass k

def extResultOk (t : LoadType) (k : Cls) : Bool :=
  match t with
  | .sw | .uw => k = .l
  | .sh | .uh | .sb | .ub => intClass k
  | _ => false

def kindResultOk (kind : OpKind) (op : Op) (mode : Mode) (k : Cls) : Bool :=
  match kind, op with
  | .additive, _ | .copy, _ => anyClass k
  | .alu, op => intClass k || (op = .mul || op = .div) && floatClass k
  | .shift, _ | .floatToInt, _ => intClass k
  | .neg, _ | .cast, _ => numericClass k
  | .ptoi, _ | .limit, _ => mode = .filc && k = .l
  | .itop, _ | .vaArgs, _ | .atomicLoad, _ | .ldPointer, _ => mode = .filc && k = .p
  | .vaArg, _ => mode = .filc && anyClass k
  | .setjmp, _ | .spanTest, _ => mode = .filc && k = .w
  | .cmp, .cmp c ck => comparison c ck && if floatClass ck then k = .w else intClass k
  | .floatConvert, .ext .s => k = .d || k = .x
  | .floatConvert, .ext .d => k = .x
  | .floatConvert, .truncd => k = .s
  | .floatConvert, .truncx => k = .s || k = .d
  | .intToFloat, _ => floatClass k
  | .ext, .ext t => extResultOk t k
  | .load, .load t => loadResultOk t mode k
  | .alloc, _ => k = addrClass mode
  | .check, _ | .checkAhead, _ | .renew, _ | .renewHull, _ | .halfCheck, _ | .renewIf, _
  | .checkLimit, _ | .checkLocal, _ => mode = .filc && k = .a
  | .checkFunction, _ => mode = .filc && k = .f
  | .ld, .rawLoad t _ | .cas, .cas t | .rawCas, .rawCas t _ => mode = .filc && loadResultOk t .filc k
  | _, _ => false

def opResultOk (mode : Mode) (op : Op) (k : Cls) : Bool :=
  (opKind op).any (fun kind => kindResultOk kind op mode k)

/-! ### Uses -/

/-- A function's context: what `valid_func` indexes of it once. -/
structure ValidCtx where
  m : Module
  ret : Ret
  labels : List Name
  classes : List (Name × Cls)
  blocks : List Block
  mode : Mode

def ValidCtx.classOf (ctx : ValidCtx) (n : Name) : Option Cls := (ctx.classes.find? (·.1 = n)).map (·.2)

/-- A temporary of class `k0` may be read at `k`: a long also as a word. -/
def tempUseOk (k0 k : Cls) : Bool := k0 = k || k0 = .l && k = .w

def constUseOk (n : Int) (k : Cls) : Bool :=
  if floatClass k then (modulus k).any (fun m => 0 ≤ n && n < m) else !proofClass k

def symbolUseOk (ctx : ValidCtx) (g : Name) (k : Cls) : Bool :=
  ctx.mode = .plain && k = addrClass .plain && dataNamed ctx.m g

def validUse (ctx : ValidCtx) (k : Cls) : Value → Bool
  | .tmp n => (ctx.classOf n).any (fun k0 => tempUseOk k0 k)
  | .const n => constUseOk n k
  | .global g => symbolUseOk ctx g k

def validUses (ctx : ValidCtx) : List Cls → List Value → Bool
  | [], [] => true
  | k :: ks, v :: vs => validUse ctx k v && validUses ctx ks vs
  | _, _ => false

/-! ### Instructions -/

def initLinkage : Linkage → Bool
  | .init _ _ => true
  | _ => false

/-- The symbol is no entry of the constructor or destructor table. -/
def notInitEntry (m : Module) (g : Name) : Bool := !(dataItem m g).any (fun d => initLinkage d.linkage)

def storeValueClass : Width → Cls
  | .b | .h | .w => .w
  | .l => .l | .p => .p | .s => .s | .d => .d | .x => .x

def validFlightArg (ctx : ValidCtx) : FlightArg → Bool
  | .address p => validUse ctx .p p
  | .value v => validUse ctx .l v

def validFlightLower (ctx : ValidCtx) : FlightLower → Bool
  | .none => true
  | .lower p => validUse ctx .p p

/-- A call may read a long as a word; nothing else changes class. -/
def classResultOk (ret k : Cls) : Bool :=
  !((floatClass ret || floatClass k) && ret ≠ k) && !(k = .l && ret = .w) &&
    !(k = .p && ret ≠ .p || k ≠ .p && ret = .p)

def callResultOk (res : CallRes) (ret : Ret) : Bool :=
  match res, ret with
  | .void, _ => true
  | .tuple tos, ret => ret = .tuple (tos.map (·.2))
  | .result _ k, .cls r => anyClass r && classResultOk r k
  | .result _ _, _ => false

def asmFixedRegs : AsmName → List AsmReg × List AsmReg
  | .cpuid => ([.a, .c], [.a, .b, .c, .d])
  | .xgetbv => ([.c], [.a, .d])
  | .rdtsc => ([], [.a, .d])
  | .rdtscp => ([], [.a, .c, .d])
  | .lfence | .sfence | .pause => ([], [])

/-- `va_args` reads a non-negative constant, and a setjmp but sigsetjmp a zero mask. -/
def opOperandsOk (op : Op) (args : List Value) : Bool :=
  match op, args with
  | .vaArgs, [.const off] => off ≥ 0
  | .vaArgs, _ => false
  | .setjmp .sigsetjmp, _ => true
  | .setjmp _, [_, .const 0] => true
  | .setjmp _, _ => false
  | _, _ => true

def validLet (ctx : ValidCtx) (k : Cls) (op : Op) (args : List Value) : Bool :=
  match ctx.mode, k, op, args with
  | .filc, .p, .copy, [.global g] => notInitEntry ctx.m g
  | _, _, _, _ =>
    validOp op && opArity op = some args.length && opResultOk ctx.mode op k && opOperandsOk op args &&
      match opArgClasses op k ctx.mode with
      | some ks => validUses ctx ks args
      | none => false

def asmInputOk (ctx : ValidCtx) : Value → Bool
  | .tmp n => ctx.classOf n = some .w
  | _ => true

def validArgs (ctx : ValidCtx) (args : List Arg) : Bool :=
  args.all (fun a => tempClass a.cls && validUse ctx a.cls a.val)

def callArgsOk (f : Func) (args : List Arg) : Bool :=
  let ks := args.map (·.cls)
  let ps := f.params.map (·.cls)
  ps = ks || variadicFunc f && ps.isPrefixOf ks

def validInst (ctx : ValidCtx) : Inst → Bool
  | .loc _ _ => true
  | .localAlloc _ size => ctx.mode = .filc && 0 ≤ size && size ≤ 2147483647
  | .localLoad _ k t _ off => ctx.mode = .filc && loadResultOk t .filc k && localOffset off
  | .localStore wd v _ off =>
    ctx.mode = .filc && localOffset off && validUse ctx (storeValueClass wd) v
  | .flight _ op args lower =>
    ctx.mode = .filc && (op = .copy || op = .add || op = .sub) && opArity op = some args.length &&
      args.all (validFlightArg ctx) && validFlightLower ctx lower
  | .let_ _ k op args => validLet ctx k op args
  | .atomicStore wd v a => wd = .p && ctx.mode = .filc && validUse ctx .p v && validUse ctx .p a
  | .fence => true
  | .access _ a size align => (size = 8 || size = 16 || size = 32 || size = 64) &&
      (align = 1 || align = 2 || align = 4 || align = 8) && validUse ctx (addrClass ctx.mode) a
  | .touch q => (match q with | .tmp _ => true | _ => false) && validUse ctx .a q
  | .asmFixed m ins outs =>
    ins.map (·.1) = (asmFixedRegs m).1 && (outs.map (·.1)).isSublist (asmFixedRegs m).2 &&
      (outs.map (·.2)).Nodup && ins.all (fun rv => validUse ctx .w rv.2 && asmInputOk ctx rv.2)
  | .store wd v a => !(wd = .p && ctx.mode = .plain) && validUse ctx (storeValueClass wd) v &&
      validUse ctx (addrClass ctx.mode) a
  | .rawStore wd _ v a => wd ≠ .p && validUse ctx (storeValueClass wd) v && validUse ctx .a a
  | .rawStorePointer _ v a es =>
    ctx.mode = .filc && (es = pointerMemoryEffects .store || es = pointerMemoryEffects .localStore ||
      es = pointerMemoryEffects .atomicStore) && validUse ctx .p v && validUse ctx .a a
  | .call res (.global g) args =>
    notInitEntry ctx.m g && (match funcNamed ctx.m g with
      | some f => callArgsOk f args && callResultOk res f.ret
      | none => ctx.mode = .filc) && validArgs ctx args
  | .call _ (.tmp n) args => ctx.mode = .filc && validUse ctx .p (.tmp n) && validArgs ctx args
  | .call _ (.const _) _ => false
  | .rawCall _ callee args => validUse ctx .f callee && validArgs ctx args

/-! ### Blocks -/

def targetExists (ctx : ValidCtx) (t : Target) : Bool := edgeLabel t ∈ ctx.labels

def validJump (ctx : ValidCtx) : Jump → Bool
  | .goto t => targetExists ctx t
  | .branch v t1 t2 => validUse ctx .w v && targetExists ctx t1 && targetExists ctx t2
  | .ret v => match ctx.ret with
    | .cls k => anyClass k && validUse ctx k v
    | _ => false
  | .rets vs => match ctx.ret with
    | .tuple ks => validUses ctx ks vs
    | _ => false
  | .retVoid => ctx.ret = .void
  | .unreachable => true

/-- A block's predecessors as the validator lists them: sorted, without duplicates. -/
def predecessors (bs : List Block) (l : Name) : List Name :=
  sortNames ((bs.filter (fun b => l ∈ jumpLabels b.jump)).map (·.label)).dedup

def validPhi (ctx : ValidCtx) (preds : List Name) (ph : Phi) : Bool :=
  sortNames (ph.pairs.map (·.1)).dedup = preds && ph.pairs.all (fun pv => validUse ctx ph.cls pv.2)

def validBlock (ctx : ValidCtx) (b : Block) : Bool :=
  let preds := predecessors ctx.blocks b.label
  b.phis.all (validPhi ctx preds) && b.insts.all (validInst ctx) && validJump ctx b.jump &&
    (b.phis = [] || preds ≠ [])

/-! ### Definitions -/

inductive Site
  | param
  | at_ (label : Name) (index : Int)
deriving DecidableEq, Repr

def instSites (l : Name) : List Inst → Int → List (Name × Site)
  | [], _ => []
  | i :: is, n => (instDefs i).map (fun d => (d, .at_ l n)) ++ instSites l is (n + 1)

/-- Each definition of a temporary and where it is, a phi's at index -1. -/
def blockSites (b : Block) : List (Name × Site) :=
  b.phis.map (fun ph => (ph.dst, .at_ b.label (-1))) ++ instSites b.label b.insts 0

def defSites (params : List Param) (bs : List Block) : List (Name × Site) :=
  params.map (fun p => (p.name, .param)) ++ bs.flatMap blockSites

def siteDominates (iv : Intervals) (l : Name) (i : Int) : Site → Bool
  | .param => true
  | .at_ d j => if d = l then j < i else dominatesByInterval iv d l

def dominatedUse (sites : List (Name × Site)) (iv : Intervals) (l : Name) (i : Int) (n : Name) : Bool :=
  sites.any (fun s => s.1 = n && siteDominates iv l i s.2)

def dominatedInsts (sites : List (Name × Site)) (iv : Intervals) (l : Name) : List Inst → Int → Bool
  | [], _ => true
  | i :: is, n => (instUses i).all (dominatedUse sites iv l n) && dominatedInsts sites iv l is (n + 1)

def blockEnd (bs : List Block) (l : Name) : Int :=
  match bs.find? (fun b => b.label = l) with
  | some b => b.insts.length
  | none => 0

def dominatedPhi (sites : List (Name × Site)) (iv : Intervals) (bs : List Block) (ph : Phi) : Bool :=
  ph.pairs.all (fun pv => match pv.2 with
    | .tmp n => (iv pv.1).isNone || dominatedUse sites iv pv.1 (blockEnd bs pv.1) n
    | _ => true)

def dominatedBlock (sites : List (Name × Site)) (iv : Intervals) (bs : List Block) (b : Block) : Bool :=
  (iv b.label).isNone ||
    dominatedInsts sites iv b.label b.insts 0 &&
      (jumpUses b.jump).all (dominatedUse sites iv b.label b.insts.length) &&
      b.phis.all (dominatedPhi sites iv bs)

/-- `definitions_dominate/3`: strict SSA's uses, but for unreachable blocks. -/
def definitionsDominate (params : List Param) (bs : List Block) : Bool :=
  match blockIntervals bs with
  | some iv => bs.all (dominatedBlock (defSites params bs) iv bs)
  | none => false

/-! ### Locals -/

def localReference : Inst → Option Name
  | .localLoad _ _ _ n _ => some n
  | .localStore _ _ n _ => some n
  | .let_ _ _ (.checkLocal n _ _ _ _) _ => some n
  | _ => none

def localsDeclared (b : Block) : List (Name × Nat) :=
  b.insts.zipIdx.filterMap (fun it => match it.1 with | .localAlloc n _ => some (n, it.2) | _ => none)

def localUsesOk (entry : Block) (b : Block) : Bool :=
  b.insts.zipIdx.all (fun it => (localReference it.1).all (fun n =>
    ((localsDeclared entry).find? (·.1 = n)).any (fun d => b.label ≠ entry.label || d.2 < it.2)))

def validLocals (bs : List Block) : Bool :=
  match bs with
  | [] => true
  | entry :: _ =>
    let objects := localObjects bs
    (objects.map (·.1)).Nodup && (objects = [] || !(blocksInsts bs).any setjmpInst) &&
      (localsDeclared entry).length = objects.length && bs.all (localUsesOk entry)

/-! ### Functions -/

/-- A function's temporaries, each with the class of each definition. -/
def tempClasses (params : List Param) (bs : List Block) : List (Name × Cls) :=
  params.map (fun p => (p.name, p.cls)) ++
    bs.flatMap (fun b => b.phis.map (fun ph => (ph.dst, ph.cls)) ++ b.insts.flatMap instTempDefs)

/-- Two definitions of one temporary have one class. -/
def checkTempClasses (defs : List (Name × Cls)) : Bool :=
  defs.all (fun d => tempClass d.2 && defs.all (fun d' => d'.1 ≠ d.1 || d'.2 = d.2))

def callRes : Inst → Option (CallRes × List Arg)
  | .call res _ args | .rawCall res _ args => some (res, args)
  | _ => none

def callProofs (i : Inst) : Bool :=
  (callRes i).any (fun ra => (resultTemps ra.1).any (fun r => proofClass r.2) ||
    ra.2.any (fun a => proofClass a.cls))

/-- Only a check defines a proof, and nothing passes one on. -/
def proofClassDefs (params : List Param) (bs : List Block) : Bool :=
  !(params.any (fun p => proofClass p.cls) ||
    bs.any (fun b => b.phis.any (fun ph => proofClass ph.cls) || b.insts.any callProofs))

def callX : Inst → Bool
  | .call (.result _ .x) _ _ => true
  | .call _ _ args => args.any (fun a => a.cls = .x)
  | _ => false

/-- A long double is no parameter, result, call argument or phi. -/
def usesX (f : Func) : Bool :=
  f.ret = .cls .x || f.params.any (fun p => p.cls = .x) ||
    f.blocks.any (fun b => b.phis.any (fun ph => ph.cls = .x) || b.insts.any callX)

def tupleRet : Ret → Bool
  | .tuple [k1, k2] => [k1, k2].all (fun k => k = .l || k = .p || k = .s || k = .d)
  | .tuple _ => false
  | .cls k => anyClass k
  | .void => true

def funcLinkage (mode : Mode) : Linkage → Bool
  | .export_ | .local_ => true
  | .weak => mode = .filc
  | _ => false

def funcCtx (m : Module) (mode : Mode) (f : Func) : ValidCtx :=
  { m := m, ret := f.ret, labels := f.blocks.map (·.label),
    classes := tempClasses f.params f.blocks, blocks := f.blocks, mode := mode }

def noEntryJump (bs : List Block) : Bool :=
  match bs with
  | [] => false
  | entry :: _ => bs.all (fun b => entry.label ∉ jumpLabels b.jump)

structure ValidFunc (m : Module) (mode : Mode) (stage : Stage) (f : Func) : Prop where
  linkage : funcLinkage mode f.linkage = true
  noX : usesX f = false
  ret : tupleRet f.ret = true
  labels : (f.blocks.map (·.label)).Nodup
  classes : checkTempClasses (tempClasses f.params f.blocks) = true
  blocks : ∀ b ∈ f.blocks, validBlock (funcCtx m mode f) b = true
  entry : noEntryJump f.blocks = true
  proofs : proofClassDefs f.params f.blocks = true
  dominate : definitionsDominate f.params f.blocks = true
  locals : validLocals f.blocks = true
  stage : stageFunc m stage mode f.params f.blocks = true

def validFunc (m : Module) (mode : Mode) (stage : Stage) (f : Func) : Bool :=
  f.blocks ≠ [] && funcLinkage mode f.linkage && tupleRet f.ret && !usesX f &&
    (f.blocks.map (·.label)).Nodup && checkTempClasses (tempClasses f.params f.blocks) &&
    f.blocks.all (validBlock (funcCtx m mode f)) && noEntryJump f.blocks &&
    proofClassDefs f.params f.blocks && definitionsDominate f.params f.blocks &&
    validLocals f.blocks && stageFunc m stage mode f.params f.blocks

theorem validFunc_iff {m : Module} {mode : Mode} {stage : Stage} {f : Func} :
    validFunc m mode stage f = true ↔ ValidFunc m mode stage f := by
  constructor
  · intro accepted
    simp only [validFunc, Bool.and_eq_true, decide_eq_true_eq, List.all_eq_true,
      Bool.not_eq_eq_eq_not, Bool.not_true] at accepted
    obtain ⟨⟨⟨⟨⟨⟨⟨⟨⟨⟨⟨_, h1⟩, h2⟩, h3⟩, h4⟩, h5⟩, h6⟩, h7⟩, h8⟩, h9⟩, h10⟩, h11⟩ := accepted
    exact ⟨h1, h3, h2, h4, h5, h6, h7, h8, h9, h10, h11⟩
  · intro valid
    have nonempty : f.blocks ≠ [] := by
      intro empty
      have entry := valid.entry
      simp [noEntryJump, empty] at entry
    simp only [validFunc, Bool.and_eq_true, decide_eq_true_eq, List.all_eq_true,
      Bool.not_eq_eq_eq_not, Bool.not_true]
    exact ⟨⟨⟨⟨⟨⟨⟨⟨⟨⟨⟨nonempty, valid.linkage⟩, valid.ret⟩, valid.noX⟩, valid.labels⟩, valid.classes⟩,
      valid.blocks⟩, valid.entry⟩, valid.proofs⟩, valid.dominate⟩, valid.locals⟩, valid.stage⟩

/-! ### Data and aliases -/

def dataLinkage (m : Module) (mode : Mode) (d : Data) : Bool :=
  match d.linkage with
  | .export_ | .local_ | .ro .export_ | .ro .local_ => true
  | .weak | .ro .weak => mode = .filc
  | .externWeak => mode = .filc && d.items = [] && !localGlobal m d.name
  | .tls .export_ | .tls .local_ => mode = .filc
  | .init _ prio => prio.all (fun p => 0 ≤ p && p ≤ 65535) && mode = .filc &&
      match d.items with
      | [.sym .p f 0] => (funcNamed m f).isSome
      | _ => false
  | _ => false

def floatWidth : Width → Option Cls
  | .s => some .s
  | .d => some .d
  | .x => some .x
  | _ => none

def floatDataOk : DataItem → Bool
  | .const wd n => (floatWidth wd).all (fun k => (modulus k).any (fun m => 0 ≤ n && n < m))
  | .str wd _ | .sym wd _ _ => (floatWidth wd).isNone
  | .zero _ => true

def itemWidth : DataItem → Option Width
  | .const wd _ | .str wd _ | .sym wd _ _ => some wd
  | .zero _ => none

def itemModeOk (mode : Mode) : DataItem → Bool
  | .sym .l _ _ => mode = .plain
  | item => mode = .filc || itemWidth item ≠ some .p

def dataItemShape : DataItem → Bool
  | .const _ _ => true
  | .str wd cs => wd = .b && cs.all (fun c => c.toNat ≤ 255)
  | .sym wd _ _ => wd = .l || wd = .p
  | .zero n => n ≥ 0

def itemSymbolOk (m : Module) : DataItem → Bool
  | .sym _ s _ => notInitEntry m s
  | _ => true

def pointerItemsAligned : List DataItem → Int → Bool
  | [], _ => true
  | item :: items, off => (match item with | .sym .p _ _ => off % 8 = 0 | _ => true) &&
      pointerItemsAligned items (off + itemSize item)

def validData (m : Module) (mode : Mode) (d : Data) : Bool :=
  dataAlign d.align && dataLinkage m mode d && d.items.all (fun i => floatDataOk i && itemModeOk mode i &&
    dataItemShape i && itemSymbolOk m i) && pointerItemsAligned d.items 0

def aliasableData : Linkage → Bool
  | .export_ | .local_ | .weak | .ro _ => true
  | _ => false

def callsSymbol (g : Name) : Inst → Bool
  | .call _ (.global f) _ => f = g
  | _ => false

def validAlias (m : Module) (mode : Mode) (a : Alias) : Bool :=
  mode = .filc && (a.linkage = .export_ || a.linkage = .weak) && (funcNamed m a.name).isNone &&
    !dataNamed m a.name &&
    ((funcNamed m a.target).isSome ||
      (dataItem m a.target).any (fun d => aliasableData d.linkage) &&
        m.funcs.all (fun f => f.name = a.name || f.insts.all (fun i => !callsSymbol a.name i)))

def validItem (m : Module) (mode : Mode) (stage : Stage) : Item → Bool
  | .func f => validFunc m mode stage f
  | .data d => validData m mode d
  | .alias a => validAlias m mode a

def definedName : Item → Option Name
  | .func f => some f.name
  | .data d => if d.linkage = .externWeak then none else some d.name
  | .alias a => some a.name

def uniqueNames (m : Module) : Bool := (m.items.filterMap definedName).Nodup

def validModule (m : Module) : Bool :=
  uniqueNames m && m.items.all (validItem m (moduleMode m) (moduleStage m))

end Nanofil
