import Nanofil.Syntax

/-! Facts of a whole module that `ir.pl` reads off its vocabulary: its symbols,
its mode and its stage. -/
namespace Nanofil

def Module.funcs (m : Module) : List Func :=
  m.items.filterMap (fun i => match i with | .func f => some f | _ => none)

def Module.datas (m : Module) : List Data :=
  m.items.filterMap (fun i => match i with | .data d => some d | _ => none)

def Module.aliases (m : Module) : List Alias :=
  m.items.filterMap (fun i => match i with | .alias a => some a | _ => none)

def funcNamed (m : Module) (n : Name) : Option Func := m.funcs.find? (fun f => f.name = n)

def dataItem (m : Module) (n : Name) : Option Data :=
  m.datas.find? (fun d => d.name = n ∧ d.linkage ≠ .externWeak)

def dataNamed (m : Module) (n : Name) : Bool := (dataItem m n).isSome

/-! ### Mode -/

def pointerOp : Op → Bool
  | .ptoi | .setjmp _ | .rawLoadPointer _ _ => true
  | _ => false

def pointerCallee : Value → Bool
  | .tmp _ => true
  | _ => false

def pointerRes : CallRes → Bool
  | .result _ k => k = .p
  | .tuple _ => true
  | .void => false

def pointerInst : Inst → Bool
  | .let_ _ k op _ => k = .p || k = .x || proofClass k || pointerOp op
  | .store wd _ _ => wd = .x || wd = .p
  | .call res callee args =>
    pointerRes res || pointerCallee callee || args.any (fun a => a.cls = .p)
  | .atomicStore .. | .rawStore .. | .rawStorePointer .. | .rawCall .. | .flight ..
  | .localAlloc .. | .localLoad .. | .localStore .. => true
  | _ => false

def pointerRet : Ret → Bool
  | .cls k => k = .p
  | .tuple _ => true
  | .void => false

def pointerBlock (b : Block) : Bool :=
  b.phis.any (fun ph => ph.cls = .p) || b.insts.any pointerInst

def pointerDataItem : DataItem → Bool
  | .const wd _ | .str wd _ | .sym wd _ _ => wd = .p
  | .zero _ => false

def pointerLinkage : Linkage → Bool
  | .ro _ | .tls _ | .weak | .externWeak => true
  | _ => false

def pointerItem : Item → Bool
  | .func f => f.linkage = .weak || pointerRet f.ret || f.params.any (fun p => p.cls = .p) ||
      f.blocks.any pointerBlock
  | .alias _ => true
  | .data d => pointerLinkage d.linkage || d.items.any pointerDataItem

def externalCall (m : Module) : Inst → Bool
  | .call _ (.global g) _ => (funcNamed m g).isNone
  | _ => false

def moduleMode (m : Module) : Mode :=
  if m.items.any pointerItem || m.funcs.any (fun f => f.insts.any (externalCall m)) then .filc
  else .plain

/-! ### Stage -/

def checkedOp : Op → Bool
  | .check .. | .checkAhead .. | .renew .. | .renewHull .. | .halfCheck .. | .spanTest ..
  | .renewIf .. | .limit .. | .checkLimit .. | .checkLocal .. | .checkFunction
  | .rawLoad .. | .rawLoadPointer .. | .rawCas .. => true
  | _ => false

def checkedInst : Inst → Bool
  | .let_ _ _ op _ => checkedOp op
  | .rawStore .. | .rawStorePointer .. | .rawCall .. | .flight .. | .touch _ => true
  | _ => false

def pollTarget : Target → Bool
  | .poll _ => true
  | .label _ => false

def checkedJump (j : Jump) : Bool := (jumpTargets j).any pollTarget

def moduleStage (m : Module) : Stage :=
  if m.funcs.any (fun f => f.blocks.any (fun b => b.insts.any checkedInst || checkedJump b.jump))
  then .checked else .unchecked

end Nanofil
