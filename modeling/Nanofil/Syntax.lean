import Mathlib.Data.Int.Bitwise

/-! The IR of `ir.pl`: functions of blocks as ground terms. Names of temporaries,
labels, symbols and locals are atoms. Terms outside the grammar are not values
of these types; what the grammar leaves open is left to the validator. -/
namespace Nanofil

abbrev Name := String

inductive Cls
  | w | l | s | d | x | p | a | f
deriving DecidableEq, Repr

inductive Width
  | b | h | w | l | p | s | d | x
deriving DecidableEq, Repr

inductive LoadType
  | l | p | s | d | x | sw | uw | sh | uh | sb | ub
deriving DecidableEq, Repr

inductive Cond
  | eq | ne | sle | slt | sge | sgt | ule | ult | uge | ugt | le | lt | ge | gt | o | uo
deriving DecidableEq, Repr

inductive Rights
  | read | write
deriving DecidableEq, Repr

inductive Bound
  | upper | lower
deriving DecidableEq, Repr

inductive Effect
  | auxRead | lowerResolve | addressRead | auxEnsure | lowerBarrier | rootedReload
  | lowerWrite | addressWrite | atomicRead | atomicWrite | atomicCas
deriving DecidableEq, Repr

inductive SetjmpKind
  | setjmp | underscoreSetjmp | sigsetjmp
deriving DecidableEq, Repr

inductive Value
  | tmp (n : Name)
  | const (n : Int)
  | global (g : Name)
deriving DecidableEq, Repr

inductive Op
  | add | sub | mul | div | udiv | rem | urem | and | or | xor | sar | shr | shl
  | neg | copy | ptoi | itop | vaArgs | vaArg
  | setjmp (kind : SetjmpKind)
  | ext (t : LoadType)
  | truncd | truncx
  | xtosi | xtoui | stosi | stoui | dtosi | dtoui
  | swtof | uwtof | sltof | ultof
  | cast
  | cmp (c : Cond) (k : Cls)
  | load (t : LoadType)
  | atomicLoad (t : LoadType)
  | cas (t : LoadType)
  | rawCas (t : LoadType) (off : Int)
  | alloc (align : Int)
  | check (lo hi : Int) (rights : Rights) (align : Int)
  | checkAhead (lo hi : Int) (rights : Rights) (align : Int) (ahi : Int)
  | renew (lo hi : Int) (rights : Rights) (align : Int)
  | renewHull (lo hi : Int) (rights : Rights) (align : Int)
  | halfCheck (bound : Bound) (lo hi : Int) (rights : Rights) (align : Int)
  | spanTest (lo hi : Int)
  | renewIf (lo hi : Int) (rights : Rights) (align : Int)
  | limit (size : Int)
  | checkLimit (lo hi : Int) (rights : Rights) (align : Int)
  | checkLocal (name : Name) (off bytes : Int) (rights : Rights) (align : Int)
  | checkFunction
  | rawLoad (t : LoadType) (off : Int)
  | rawLoadPointer (off : Int) (effects : List Effect)
deriving DecidableEq, Repr

inductive FlightArg
  | value (v : Value)
  | address (v : Value)
deriving DecidableEq, Repr

inductive FlightLower
  | none
  | lower (v : Value)
deriving DecidableEq, Repr

inductive CallRes
  | void
  | result (d : Name) (k : Cls)
  | tuple (tos : List (Name × Cls))
deriving DecidableEq, Repr

inductive AsmName
  | cpuid | xgetbv | rdtsc | rdtscp | lfence | sfence | pause
deriving DecidableEq, Repr

inductive AsmReg
  | a | b | c | d
deriving DecidableEq, Repr

structure Arg where
  cls : Cls
  val : Value
deriving DecidableEq, Repr

inductive Inst
  | let_ (d : Name) (k : Cls) (op : Op) (args : List Value)
  | store (wd : Width) (v a : Value)
  | atomicStore (wd : Width) (v a : Value)
  | fence
  | access (k : Rights) (a : Value) (size align : Int)
  | touch (q : Value)
  | asmFixed (m : AsmName) (ins : List (AsmReg × Value)) (outs : List (AsmReg × Name))
  | localAlloc (name : Name) (size : Int)
  | localLoad (d : Name) (k : Cls) (t : LoadType) (name : Name) (off : Int)
  | localStore (wd : Width) (v : Value) (name : Name) (off : Int)
  | call (res : CallRes) (callee : Value) (args : List Arg)
  | loc (file : Name) (line : Int)
  | rawStore (wd : Width) (off : Int) (v a : Value)
  | rawStorePointer (off : Int) (v a : Value) (effects : List Effect)
  | rawCall (res : CallRes) (callee : Value) (args : List Arg)
  | flight (d : Name) (op : Op) (args : List FlightArg) (lower : FlightLower)
deriving DecidableEq, Repr

inductive Target
  | label (l : Name)
  | poll (l : Name)
deriving DecidableEq, Repr

inductive Jump
  | goto (t : Target)
  | branch (v : Value) (t1 t2 : Target)
  | ret (v : Value)
  | rets (vs : List Value)
  | retVoid
  | unreachable
deriving DecidableEq, Repr

structure Phi where
  dst : Name
  cls : Cls
  pairs : List (Name × Value)
deriving DecidableEq, Repr

structure Block where
  label : Name
  phis : List Phi
  insts : List Inst
  jump : Jump
deriving DecidableEq, Repr

inductive Ret
  | cls (k : Cls)
  | void
  | tuple (ks : List Cls)
deriving DecidableEq, Repr

inductive InitKind
  | ctor | dtor
deriving DecidableEq, Repr

inductive Linkage
  | export_ | local_ | weak
  | ro (l : Linkage)
  | tls (l : Linkage)
  | externWeak
  | init (kind : InitKind) (prio : Option Int)
deriving DecidableEq, Repr

structure Param where
  cls : Cls
  name : Name
deriving DecidableEq, Repr

structure Func where
  name : Name
  linkage : Linkage
  ret : Ret
  params : List Param
  blocks : List Block
deriving DecidableEq, Repr

inductive DataItem
  | const (wd : Width) (n : Int)
  | str (wd : Width) (cs : List Char)
  | sym (wd : Width) (s : Name) (off : Int)
  | zero (n : Int)
deriving DecidableEq, Repr

structure Data where
  name : Name
  linkage : Linkage
  align : Int
  items : List DataItem
deriving DecidableEq, Repr

structure Alias where
  name : Name
  linkage : Linkage
  target : Name
deriving DecidableEq, Repr

inductive Item
  | func (f : Func)
  | data (d : Data)
  | alias (a : Alias)
deriving DecidableEq, Repr

/-- A module as its code items; `code_items/2` drops the explanatory records. -/
structure Module where
  items : List Item
deriving DecidableEq, Repr

inductive Mode
  | plain | filc
deriving DecidableEq, Repr

inductive Stage
  | unchecked | checked
deriving DecidableEq, Repr

/-! ### Classes, widths and types -/

inductive ClassKind
  | int | pointer | float
deriving DecidableEq

/-- `class/3`: the value classes with their kind and width; a proof class has none. -/
def classTable : Cls → Option (ClassKind × Nat)
  | .w => some (.int, 32)
  | .l => some (.int, 64)
  | .p => some (.pointer, 64)
  | .s => some (.float, 32)
  | .d => some (.float, 64)
  | .x => some (.float, 80)
  | .a | .f => none

def anyClass (k : Cls) : Bool := (classTable k).isSome
def intClass (k : Cls) : Bool := (classTable k).any (·.1 = .int)
def floatClass (k : Cls) : Bool := (classTable k).any (·.1 = .float)
def numericClass (k : Cls) : Bool := intClass k || floatClass k
def proofClass (k : Cls) : Bool := k = .a || k = .f
def tempClass (k : Cls) : Bool := anyClass k || proofClass k

def classBits (k : Cls) : Option Nat := if numericClass k then (classTable k).map (·.2) else none
def modulus (k : Cls) : Option Int := (classTable k).map (fun c => 2 ^ c.2)
def halfModulus (k : Cls) : Option Int :=
  match classTable k with
  | some (.int, bits) => some (2 ^ (bits - 1))
  | _ => none

def widthBytes : Width → Nat
  | .b => 1 | .h => 2 | .w => 4 | .l => 8 | .p => 8 | .s => 4 | .d => 8 | .x => 10

def addrClass : Mode → Cls
  | .plain => .l
  | .filc => .p

inductive Signedness
  | signed | unsigned
deriving DecidableEq

def narrowType : LoadType → Option (Nat × Signedness)
  | .sw => some (4, .signed) | .uw => some (4, .unsigned)
  | .sh => some (2, .signed) | .uh => some (2, .unsigned)
  | .sb => some (1, .signed) | .ub => some (1, .unsigned)
  | _ => none

def casType (t : LoadType) : Bool := t = .l || t = .p || (narrowType t).isSome

/-- The type of an access: what a load reads, a store writes or a cas exchanges. -/
inductive AccessType
  | load (t : LoadType)
  | store (wd : Width)
  | cas (t : LoadType)
deriving DecidableEq

def loadBytes : LoadType → Nat
  | .l | .p | .d => 8
  | .s | .sw | .uw => 4
  | .x => 10
  | .sh | .uh => 2
  | .sb | .ub => 1

/-- `access_size_align/3`. A load and a store of one name agree. -/
def accessSizeAlign : AccessType → Option (Int × Int)
  | .load .p => some (8, 8)
  | .load .x => some (10, 8)
  | .load t => some (loadBytes t, 1)
  | .store .p => some (8, 8)
  | .store .x => some (10, 8)
  | .store wd => some (widthBytes wd, 1)
  | .cas t => if casType t then some (loadBytes t, loadBytes t) else none

def AccessType.isPointer : AccessType → Bool
  | .load .p | .store .p => true
  | _ => false

def AccessType.isCas : AccessType → Bool
  | .cas _ => true
  | _ => false

/-! ### Kinds of operation -/

inductive OpKind
  | additive | alu | shift | neg | copy | ptoi | itop | vaArgs | vaArg | setjmp
  | floatConvert | floatToInt | intToFloat | cast | cmp | ext | load | atomicLoad
  | cas | rawCas | alloc | check | checkAhead | renew | renewHull | halfCheck
  | spanTest | renewIf | limit | checkLimit | checkLocal | checkFunction | ld | ldPointer
deriving DecidableEq

def opKind : Op → Option OpKind
  | .add | .sub => some .additive
  | .mul | .div | .udiv | .rem | .urem | .and | .or | .xor => some .alu
  | .sar | .shr | .shl => some .shift
  | .neg => some .neg
  | .copy => some .copy
  | .ptoi => some .ptoi
  | .itop => some .itop
  | .vaArgs => some .vaArgs
  | .vaArg => some .vaArg
  | .setjmp _ => some .setjmp
  | .ext .s | .ext .d => some .floatConvert
  | .ext t => if (narrowType t).isSome then some .ext else none
  | .truncd | .truncx => some .floatConvert
  | .xtosi | .xtoui | .stosi | .stoui | .dtosi | .dtoui => some .floatToInt
  | .swtof | .uwtof | .sltof | .ultof => some .intToFloat
  | .cast => some .cast
  | .cmp _ _ => some .cmp
  | .load _ => some .load
  | .atomicLoad .p => some .atomicLoad
  | .atomicLoad _ => none
  | .cas _ => some .cas
  | .rawCas _ _ => some .rawCas
  | .alloc _ => some .alloc
  | .check .. => some .check
  | .checkAhead .. => some .checkAhead
  | .renew .. => some .renew
  | .renewHull .. => some .renewHull
  | .halfCheck .. => some .halfCheck
  | .spanTest .. => some .spanTest
  | .renewIf .. => some .renewIf
  | .limit _ => some .limit
  | .checkLimit .. => some .checkLimit
  | .checkLocal .. => some .checkLocal
  | .checkFunction => some .checkFunction
  | .rawLoad .. => some .ld
  | .rawLoadPointer .. => some .ldPointer

def kindArity : OpKind → Nat
  | .additive | .alu | .shift | .cmp | .setjmp | .renew | .halfCheck | .renewIf
  | .checkLimit => 2
  | .cas | .rawCas | .renewHull => 3
  | .checkLocal => 0
  | _ => 1

def opArity (op : Op) : Option Nat := (opKind op).map kindArity

/-! ### Operand classes -/

def additiveArgClasses : Cls → Option (List Cls)
  | .p => some [.p, .l]
  | .a | .f => none
  | k => some [k, k]

def floatIntSource : Op → Option Cls
  | .stosi | .stoui => some .s
  | .dtosi | .dtoui => some .d
  | .xtosi | .xtoui => some .x
  | _ => none

def castClasses : Cls → Option Cls
  | .w => some .s
  | .s => some .w
  | .l => some .d
  | .d => some .l
  | _ => none

def filcClasses (mode : Mode) (ks : List Cls) : Option (List Cls) :=
  if mode = .filc then some ks else none

def kindArgClasses (kind : OpKind) (op : Op) (k : Cls) (mode : Mode) : Option (List Cls) :=
  match kind with
  | .additive => additiveArgClasses k
  | .alu => some [k, k]
  | .shift => some [k, .w]
  | .neg | .copy => some [k]
  | .ptoi => some [.p]
  | .itop => some [.l]
  | .vaArgs => if k = .p then filcClasses mode [.l] else none
  | .vaArg => filcClasses mode [.p]
  | .setjmp => if k = .w then filcClasses mode [.p, .w] else none
  | .cmp => match op with | .cmp _ ck => some [ck, ck] | _ => none
  | .floatConvert =>
    match op with
    | .ext .s => some [.s]
    | .truncd => some [.d]
    | .ext .d => some [.d]
    | .truncx => some [.x]
    | _ => none
  | .floatToInt => (floatIntSource op).map (fun k => [k])
  | .intToFloat => some [if op = .swtof ∨ op = .uwtof then .w else .l]
  | .cast => (castClasses k).map (fun k => [k])
  | .ext => some [.w]
  | .load => some [addrClass mode]
  | .atomicLoad => if k = .p then filcClasses mode [.p] else none
  | .alloc => some [.l]
  | .check | .checkAhead | .spanTest | .limit | .checkFunction => filcClasses mode [.p]
  | .renew | .halfCheck => filcClasses mode [.a, .p]
  | .renewHull => filcClasses mode [.a, .a, .p]
  | .renewIf => filcClasses mode [.p, .w]
  | .checkLimit => filcClasses mode [.p, .l]
  | .checkLocal => filcClasses mode []
  | .ld | .ldPointer => filcClasses mode [.a]
  | .cas => filcClasses mode [k, k, .p]
  | .rawCas => filcClasses mode [.a, k, k]

def opArgClasses (op : Op) (k : Cls) (mode : Mode) : Option (List Cls) :=
  (opKind op).bind (fun kind => kindArgClasses kind op k mode)

/-- `pointer_memory_effects/2`: the closed, ordered protocol of each pointer access. -/
inductive PointerAccess
  | load | store | localLoad | localStore | atomicLoad | atomicStore | cas

def pointerMemoryEffects : PointerAccess → List Effect
  | .load => [.auxRead, .lowerResolve, .addressRead]
  | .store => [.auxEnsure, .lowerBarrier, .rootedReload, .lowerWrite, .addressWrite]
  | .localLoad => [.auxRead, .addressRead]
  | .localStore => [.lowerWrite, .addressWrite]
  | .atomicLoad => [.atomicRead]
  | .atomicStore => [.atomicWrite]
  | .cas => [.atomicCas]

/-! ### What an instruction reads and defines (`cfg.pl`) -/

def edgeLabel : Target → Name
  | .label l => l
  | .poll l => l

def Value.temp? : Value → Option Name
  | .tmp n => some n
  | _ => none

def temps (vs : List Value) : List Name := vs.filterMap Value.temp?

theorem mem_temps {n : Name} {vs : List Value} : n ∈ temps vs ↔ .tmp n ∈ vs := by
  simp only [temps, List.mem_filterMap]
  constructor
  · rintro ⟨v, mem, same⟩
    cases v <;> cases same
    exact mem
  · exact fun mem => ⟨_, mem, rfl⟩

def FlightArg.value? : FlightArg → Value
  | .value v => v
  | .address v => v

def instUses : Inst → List Name
  | .let_ _ _ _ args => temps args
  | .flight _ _ args (.lower p) => temps (p :: args.map FlightArg.value?)
  | .flight _ _ args .none => temps (args.map FlightArg.value?)
  | .store _ v a | .atomicStore _ v a | .rawStore _ _ v a | .rawStorePointer _ v a _ => temps [v, a]
  | .access _ a _ _ => temps [a]
  | .touch q => temps [q]
  | .asmFixed _ ins _ => temps (ins.map (·.2))
  | .call _ f args | .rawCall _ f args => temps (f :: args.map (·.val))
  | .localStore _ v _ _ => temps [v]
  | .fence | .loc _ _ | .localAlloc _ _ | .localLoad .. => []

def resultTemps : CallRes → List (Name × Cls)
  | .void => []
  | .result d k => [(d, k)]
  | .tuple tos => tos

/-- `inst_temp_def/3`: the temporaries an instruction defines, each with its class. -/
def instTempDefs : Inst → List (Name × Cls)
  | .let_ d k _ _ => [(d, k)]
  | .localLoad d k _ _ _ => [(d, k)]
  | .flight d _ _ _ => [(d, .p)]
  | .asmFixed _ _ outs => outs.map (fun o => (o.2, .w))
  | .call res _ _ | .rawCall res _ _ => resultTemps res
  | _ => []

def instDefs (i : Inst) : List Name := (instTempDefs i).map (·.1)

def jumpUses : Jump → List Name
  | .branch v _ _ | .ret v => temps [v]
  | .rets vs => temps vs
  | _ => []

def jumpTargets : Jump → List Target
  | .goto t => [t]
  | .branch _ t1 t2 => [t1, t2]
  | _ => []

def jumpLabels (j : Jump) : List Name := (jumpTargets j).map edgeLabel

/-! ### Facts of a function -/

def Func.insts (f : Func) : List Inst := f.blocks.flatMap (·.insts)

def Func.block? (f : Func) (l : Name) : Option Block := f.blocks.find? (·.label = l)

def blocksInsts (bs : List Block) : List Inst := bs.flatMap (·.insts)

def variadicInst : Inst → Bool
  | .let_ _ .p .vaArgs _ => true
  | _ => false

def variadicFunc (f : Func) : Bool := f.insts.any variadicInst

def setjmpInst : Inst → Bool
  | .let_ _ _ (.setjmp _) _ => true
  | _ => false

def setjmpFunc (f : Func) : Bool := f.insts.any setjmpInst

def localObjects (bs : List Block) : List (Name × Int) :=
  (blocksInsts bs).filterMap (fun i => match i with | .localAlloc n size => some (n, size) | _ => none)

end Nanofil
