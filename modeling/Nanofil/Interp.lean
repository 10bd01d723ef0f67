import Nanofil.Module
import Nanofil.Ops

/-! `interp.pl`'s runs. Each block entered costs a unit of fuel; the recursion is
on a depth, which a run takes larger than its fuel. -/
namespace Nanofil

inductive Outcome
  | ret (x : Word)
  | rets (xs : List Word)
  | retVoid
  | unreachable
  | ub (u : Ub)
  | trap (why : Why)
  | unchecked (why : Why)
  | outOfFuel
  | unknown (m : AsmName) (xs : List Word)
deriving DecidableEq, Repr

/-- The temporaries of an invocation, and the hidden keys of its environment. -/
structure Env where
  vals : Name → Option Word
  doomed : Option Why
  snapshot : Option Word

/-- `locals` holds the invocation's local names, each unbound until its `local_alloc`. -/
structure St where
  mem : Mem
  fuel : Nat
  locals : Name → Option (Option Int)

inductive Result
  | cont (env : Env) (s : St)
  | stop (out : Outcome) (s : St)

structure Prep where
  funcs : Name → Option Func
  globals : Name → Option Word
  mode : Mode
  mem : Mem

structure Ctx where
  prep : Prep
  func : Func

def put (f : Name → Option Word) (d : Name) (x : Word) : Name → Option Word :=
  fun n => if n = d then some x else f n

def Env.put (env : Env) (d : Name) (x : Word) : Env := { env with vals := Nanofil.put env.vals d x }

def St.setMem (s : St) (mem : Mem) : St := { s with mem := mem }

abbrev Call := Func → List Word → St → Except RunError (Outcome × St)

/-! ### Values -/

def undefinedSymbol (mode : Mode) (g : Name) : Except RunError Word :=
  match mode with
  | .filc => .ok (.ptr 0 (.ext g))
  | .plain => .error .noRule

def valueX (prep : Prep) (env : Env) (k : Cls) (v : Value) : Except RunError Word :=
  match v with
  | .tmp n =>
    match env.vals n with
    | some x => wordAtClass k x
    | none => .error (.unassigned n)
  | .const n => do
    let m ← orNoRule (modulus k)
    constantAtClass k (n % m)
  | .global g =>
    match prep.globals g with
    | some x => .ok x
    | none => undefinedSymbol prep.mode g

def Word.toPtr : Word → Except RunError (Int × Cap)
  | .ptr a c => .ok (a, c)
  | _ => .error .noRule

def pointerX (prep : Prep) (env : Env) (k : Cls) (v : Value) : Except RunError (Int × Cap) := do
  (← valueX prep env k v).toPtr

def argX (prep : Prep) (env : Env) (a : Arg) : Except RunError Word := valueX prep env a.cls a.val

def valuesX (prep : Prep) (env : Env) : List Cls → List Value → Except RunError (List Word)
  | [], [] => .ok []
  | k :: ks, v :: vs => do
    let x ← valueX prep env k v
    return x :: (← valuesX prep env ks vs)
  | _, _ => .error .noRule

/-- Flight's components are read independently from the old environment. -/
def flightArgX (prep : Prep) (env : Env) : FlightArg → Except RunError Word
  | .address p => do
    let a ← pointerX prep env .p p
    wordAtClass .l (.int a.1)
  | .value v => valueX prep env .l v

def flightCap (prep : Prep) (env : Env) : FlightLower → Except RunError Cap
  | .none => .ok .none
  | .lower p => do return (← pointerX prep env .p p).2

/-! ### Results -/

def resResult (res : Res Word) (d : Name) (env : Env) (s : St) : Result :=
  match res with
  | .val x => .cont (env.put d x) s
  | .ub u => .stop (.ub u) s
  | .trap why => .stop (.trap why) s
  | .unchecked why => .stop (.unchecked why) s

def storeResResult (res : Res Unit) (env : Env) (s : St) : Result :=
  match res with
  | .val () => .cont env s
  | .ub u => .stop (.ub u) s
  | .trap why => .stop (.trap why) s
  | .unchecked why => .stop (.unchecked why) s

def toWordEnv (d : Name) (k : Cls) (x : Word) (env : Env) : Except RunError Env := do
  return env.put d (← wordAtClass k x)

def retsEnv : List (Name × Cls) → List Word → Env → Except RunError Env
  | [], [], env => .ok env
  | (d, k) :: tos, x :: xs, env => do
    let env' ← toWordEnv d k x env
    retsEnv tos xs env'
  | _, _, _ => .error .noRule

def callOutcomeResult (out : Outcome) (res : CallRes) (env : Env) (s : St) : Except RunError Result :=
  match out, res with
  | .ret x, .result d k => do return .cont (← toWordEnv d k x env) s
  | .ret _, .void => .ok (.cont env s)
  | .ret _, .tuple _ => .error .noRule
  | .rets xs, .tuple tos => do return .cont (← retsEnv tos xs env) s
  | .rets _, .void => .ok (.cont env s)
  | .rets _, .result _ _ => .error .noRule
  | .retVoid, .void => .ok (.cont env s)
  | .retVoid, _ => .error .noRule
  | out, _ => .ok (.stop out s)

/-! ### Calls -/

def capFunctionRes (prep : Prep) (cap : Cap) (a : Int) : Except RunError Check :=
  match cap with
  | .fn f =>
    match prep.globals f with
    | some (.ptr fa _) => .ok (if a = fa then .ok else .trap .notAFunction)
    | _ => .ok (.trap .notAFunction)
  | .ext n => .error (.external n)
  | _ => .ok (.trap .notAFunction)

def functionCheckRes (prep : Prep) (p : Int × Cap) : Except RunError Check :=
  capFunctionRes prep p.2 p.1

inductive Conv
  | same
  | conv (caller callee : List Cls)
  | trap (why : Why)

def resultWords (res : CallRes) : List Cls := (resultTemps res).map (·.2)

def returnWords : Ret → Except RunError (List Cls)
  | .void => .ok []
  | .tuple ks => .ok ks
  | .cls k => if k = .w ∨ k = .l ∨ k = .p ∨ k = .s ∨ k = .d then .ok [k] else .error .noRule

inductive WordClass
  | int | p | s | d
deriving DecidableEq

def wordClass : Cls → Option WordClass
  | .w | .l => some .int
  | .p => some .p
  | .s => some .s
  | .d => some .d
  | _ => none

def intWordAs (dst : Cls) (x : Word) : Except RunError Word :=
  match dst with
  | .w | .l => .ok x
  | .p => do return .ptr (← x.toInt) .none
  | .s => wordAtClass .s x
  | .d => wordAtClass .d x
  | _ => .error .noRule

def pointerAddress : Word → Word
  | .ptr a _ => .int a
  | x => x

def pointerWordAs (dst : Cls) (x : Word) : Except RunError Word :=
  match dst with
  | .w | .l => .ok (pointerAddress x)
  | .p => .ok x
  | .s => wordAtClass .s (pointerAddress x)
  | .d => wordAtClass .d (pointerAddress x)
  | _ => .error .noRule

/-- A word written at one class and read at another through the generic entry. -/
def genericWord (src dst : Cls) (x : Word) : Except RunError Word :=
  match src with
  | .w | .l | .s | .d => intWordAs dst x
  | .p => pointerWordAs dst x
  | _ => .error .noRule

/-- The words of `xs` as `dst` reads them; the lists may run past those classes. -/
def genericWords : List Cls → List Cls → List Word → Except RunError (List Word)
  | _, [], _ => .ok []
  | src :: srcs, dst :: dsts, x :: xs => do
    let y ← genericWord src dst x
    return y :: (← genericWords srcs dsts xs)
  | _, _, _ => .error .noRule

def sameWords (caller callee : List Cls) : Bool :=
  caller.map wordClass = callee.map wordClass && caller.all (fun k => (wordClass k).isSome)

def indirectCallConv (ret : Ret) (params : List Param) (res : CallRes) (args : List Arg)
    (xs : List Word) : Except RunError (List Word × Conv) := do
  let caller := resultWords res
  let callee ← returnWords ret
  if args.length < params.length then return ([], .trap .argumentSize)
  else if caller.length > callee.length then return ([], .trap .returnSize)
  else
    let ys ← genericWords (args.map (·.cls)) (params.map (·.cls)) xs
    return (ys, if sameWords caller callee then .same else .conv caller callee)

def outcomeWords : Outcome → Option (List Word)
  | .retVoid => some []
  | .ret x => some [x]
  | .rets xs => if xs.length ≥ 2 then some xs else none
  | _ => none

def wordsOutcome : List Word → Outcome
  | [] => .retVoid
  | [x] => .ret x
  | xs => .rets xs

def convertedOutcome (caller callee : List Cls) (out : Outcome) : Except RunError Outcome :=
  match outcomeWords out with
  | some xs => do return wordsOutcome (← genericWords callee caller xs)
  | none => .ok out

def convCallResult (call : Call) (conv : Conv) (f : Func) (ys : List Word) (res : CallRes)
    (env : Env) (s : St) : Except RunError Result :=
  match conv with
  | .trap why => .ok (.stop (.trap why) s)
  | .same => do
    let r ← call f ys s
    callOutcomeResult r.1 res env r.2
  | .conv caller callee => do
    let r ← call f ys s
    let out ← convertedOutcome caller callee r.1
    callOutcomeResult out res env r.2

/-- A target check authorizes the call, not its signature. -/
def checkedCallResult (call : Call) (prep : Prep) (check : Res Unit) (cap : Cap) (res : CallRes)
    (args : List Arg) (xs : List Word) (env : Env) (s : St) : Except RunError Result :=
  match check, cap with
  | .val (), .fn f =>
    match prep.funcs f with
    | none => .error .noRule
    | some fn => do
      let fc ← indirectCallConv fn.ret fn.params res args xs
      let ys := if variadicFunc fn then fc.1 ++ xs.drop fn.params.length else fc.1
      convCallResult call fc.2 fn ys res env s
  | .val (), _ => .error .noRule
  | .trap why, _ => .ok (.stop (.trap why) s)
  | .unchecked why, _ => .ok (.stop (.unchecked why) s)
  | .ub _, _ => .error .noRule

def checkToRes : Check → Res Unit
  | .ok => .val ()
  | .trap why => .trap why

/-- Only libc `free`'s ordinary signature is modelled. -/
def externalCallOutcome (prep : Prep) (f : Name) (res : CallRes) (args : List Arg) (xs : List Word)
    (s : St) : Except RunError (Outcome × St) :=
  match prep.mode, res, args, xs with
  | .filc, .void, [⟨.p, _⟩], [p] =>
    if f = "free" then do
      let r ← freeRes p s.mem
      return (match r.1 with | .ok => .retVoid | .trap why => .trap why, s.setMem r.2)
    else .error (.external f)
  | _, _, _, _ => .error (.external f)

def directCallOutcome (call : Call) (prep : Prep) (f : Name) (res : CallRes) (args : List Arg)
    (xs : List Word) (s : St) : Except RunError (Outcome × St) :=
  match prep.funcs f with
  | some fn => call fn xs s
  | none =>
    if (prep.globals f).isSome then .ok (.trap .notAFunction, s)
    else externalCallOutcome prep f res args xs s

/-! ### Instructions -/

def localPointer (prep : Prep) (s : St) (name : Name) (off : Int) : Except RunError (Int × Cap) :=
  match prep.mode, s.locals name with
  | .filc, some (some base) => .ok (base + off, .obj base)
  | _, _ => .error .noRule

def bindLocal (locals : Name → Option (Option Int)) (name : Name) (base : Int) :
    Name → Option (Option Int) :=
  fun n => if n = name then some (some base) else locals n

def localAllocResult (prep : Prep) (name : Name) (size : Int) (env : Env) (s : St) :
    Except RunError Result :=
  match prep.mode, s.locals name with
  | .filc, some none =>
    match allocBase .local_ s.mem 16 size with
    | some (base, mem) => .ok (.cont env { s with mem := mem, locals := bindLocal s.locals name base })
    | none => .ok (.stop (.trap .outOfMemory) s)
  | _, _ => .error .noRule

def widthValueClass : Width → Cls
  | .b | .h | .w => .w
  | .l => .l | .p => .p | .s => .s | .d => .d | .x => .x

def letResult (prep : Prep) (d : Name) (k : Cls) (op : Op) (args : List Value) (env : Env) (s : St) :
    Except RunError Result := do
  let classes ← orNoRule (opArgClasses op k prep.mode)
  let xs ← valuesX prep env classes args
  let r ← opRes op k prep.mode xs s.mem
  return resResult r.1 d env (s.setMem r.2)

def storeInstResult (prep : Prep) (wd : Width) (v a : Value) (env : Env) (s : St) :
    Except RunError Result := do
  let x ← valueX prep env (widthValueClass wd) v
  let addr ← valueX prep env (addrClass prep.mode) a
  let r ← storeRes prep.mode wd s.mem addr x
  return storeResResult r.1 env (s.setMem r.2)

def asmPasses : AsmName → Bool
  | .lfence | .sfence | .pause => true
  | _ => false

def instResult (call : Call) (prep : Prep) (inst : Inst) (env : Env) (s : St) :
    Except RunError Result :=
  match inst with
  | .loc _ _ => .ok (.cont env s)
  | .localAlloc name size => localAllocResult prep name size env s
  | .localLoad d k t name off => do
    let p ← localPointer prep s name off
    let r ← loadOpRes t k .filc (.ptr p.1 p.2) s.mem
    return resResult r.1 d env (s.setMem r.2)
  | .localStore wd v name off => do
    let p ← localPointer prep s name off
    let x ← valueX prep env (widthValueClass wd) v
    let r ← storeRes .filc wd s.mem (.ptr p.1 p.2) x
    return storeResResult r.1 env (s.setMem r.2)
  | .let_ d .a (.checkLocal name off size rights align) [] => do
    let p ← localPointer prep s name off
    let check ← accessRes s.mem p.1 p.2 size rights align
    return resResult (checkedRes check (.ptr p.1 p.2)) d env s
  | .let_ d .p .vaArgs [.const off] =>
    match env.snapshot with
    | some (.ptr a cap) => .ok (resResult (.val (.ptr (rawAddress a off) cap)) d env s)
    | _ => .error .noRule
  | .let_ d .f .checkFunction [v] => do
    let x ← valueX prep env .p v
    let p ← x.toPtr
    let check ← functionCheckRes prep p
    return resResult (checkedRes check x) d env s
  | .let_ d k op args => letResult prep d k op args env s
  | .flight d op args lower => do
    let xs ← args.mapM (flightArgX prep env)
    let a ← alu op .l xs
    let cap ← flightCap prep env lower
    return resResult (.val (.ptr (← a.toInt) cap)) d env s
  | .store wd v a => storeInstResult prep wd v a env s
  | .atomicStore wd v a => if wd = .p then storeInstResult prep .p v a env s else .error .noRule
  | .fence => .ok (.cont env s)
  | .access k a size align =>
    match prep.mode with
    | .filc => do
      let p ← pointerX prep env .p a
      let check ← accessRes s.mem p.1 p.2 size k align
      return storeResResult (checkToRes check) env s
    | .plain => .ok (.cont env s)
  | .touch _ => .ok (.cont env s)
  | .asmFixed m ins _ =>
    if asmPasses m then .ok (.cont env s)
    else do
      let xs ← ins.mapM (fun rv => valueX prep env .w rv.2)
      return .stop (.unknown m xs) s
  | .rawStore wd off v a => do
    let x ← valueX prep env (widthValueClass wd) v
    let p ← pointerX prep env .a a
    let r ← storeRes .filc wd s.mem (.ptr (rawAddress p.1 off) p.2) x
    return storeResResult (rawRes r.1) env (s.setMem r.2)
  | .rawStorePointer off v a effects => do
    let x ← valueX prep env .p v
    let p ← pointerX prep env .a a
    let check ← accessRes s.mem (rawAddress p.1 off) p.2 8 .write 8
    let r ← pointerStoreEffectsRes check effects (rawAddress p.1 off) x s.mem
    return storeResResult r.1 env (s.setMem r.2)
  | .call res (.global f) args => do
    let xs ← args.mapM (argX prep env)
    let r ← directCallOutcome call prep f res args xs s
    callOutcomeResult r.1 res env r.2
  | .call res (.tmp n) args => do
    let p ← pointerX prep env .p (.tmp n)
    let xs ← args.mapM (argX prep env)
    let check ← functionCheckRes prep p
    checkedCallResult call prep (checkToRes check) p.2 res args xs env s
  | .call _ (.const _) _ => .error .noRule
  | .rawCall res callee args => do
    let p ← pointerX prep env .f callee
    let xs ← args.mapM (argX prep env)
    let check ← functionCheckRes prep p
    checkedCallResult call prep (rawRes (checkToRes check)) p.2 res args xs env s

/-! ### Doomed runs -/

def evidencePreservingOp (op : Op) (k : Cls) (args : List Value) : Bool :=
  match op with
  | .check .. | .checkAhead .. | .renew .. | .renewHull .. | .halfCheck .. | .renewIf ..
  | .checkLimit .. => k = .a
  | .spanTest .. => k = .w
  | .limit _ => k = .l
  | .rawLoad t _ => t ≠ .p
  | .rawLoadPointer _ es =>
    k = .p && (es = pointerMemoryEffects .load || es = pointerMemoryEffects .localLoad)
  | .add | .sub | .mul | .div | .udiv | .rem | .urem | .and | .or | .xor | .sar | .shr | .shl
  | .neg | .ptoi | .cast | .truncd | .stosi | .stoui | .dtosi | .dtoui | .swtof | .uwtof | .sltof
  | .ultof | .truncx | .xtosi | .xtoui | .cmp _ _ | .ext _ => true
  | .copy => args.all (fun v => match v with | .global _ => false | _ => true)
  | _ => false

/-- `evidence_preserving/1`: no safepoint, no free, no change of bounds or rights. -/
def evidencePreserving : Inst → Bool
  | .loc _ _ | .touch _ | .flight .. => true
  | .let_ _ k op args => evidencePreservingOp op k args
  | .rawStore wd _ _ _ => wd ≠ .p
  | _ => false

def divisionInst : Inst → Bool
  | .let_ _ _ op _ => op = .div || op = .udiv || op = .rem || op = .urem
  | _ => false

def aheadTransparent (i : Inst) : Bool := evidencePreserving i && !divisionInst i

def aheadInst : Inst → Option (Name × Value)
  | .let_ d .a (.checkAhead ..) [v] => some (d, v)
  | _ => none

def doomEnv (env : Env) (why : Why) : Env :=
  { env with doomed := some (env.doomed.getD why) }

/-- A `check_ahead` whose early bytes fail yields its pointer and dooms the run; a
doomed run's failed access is the program's trap, made early. -/
def doomedResult (prep : Prep) (inst : Inst) (env : Env) (r : Result) : Except RunError Result :=
  match aheadInst inst, r with
  | some (d, v), .stop (.trap (.early why)) s => do
    let p ← valueX prep env .p v
    return .cont (doomEnv (env.put d p) why) s
  | _, .stop (.unchecked w) s =>
    match env.doomed with
    | some why => .ok (if w = .alias ∨ w = .limit then r else .stop (.trap (.early why)) s)
    | none => .ok r
  | _, r => .ok r

def instsResult (call : Call) (prep : Prep) : List Inst → Env → St → Except RunError Result
  | [], env, s => .ok (.cont env s)
  | inst :: insts, env, s =>
    match env.doomed, aheadTransparent inst with
    | some why, false => .ok (.stop (.unchecked (.ahead why)) s)
    | _, _ => do
      let r0 ← instResult call prep inst env s
      let r ← doomedResult prep inst env r0
      match r with
      | .cont env' s' => instsResult call prep insts env' s'
      | .stop out s' => return .stop out s'

/-! ### Blocks -/

def Ctx.ret (ctx : Ctx) : Ret := ctx.func.ret

/-- The phis read the environment as it was on entry, so they all bind at once. -/
def phisEnv (prep : Prep) (pred : Option Name) (entry : Env) : List Phi → Env → Except RunError Env
  | [], env => .ok env
  | ph :: phis, env =>
    match pred with
    | none => .error .noRule
    | some l =>
      match ph.pairs.find? (fun pv => pv.1 = l) with
      | none => .error .noRule
      | some pv => do
        let x ← valueX prep entry ph.cls pv.2
        phisEnv prep pred entry phis (env.put ph.dst x)

abbrev Enter := Name → Option Name → Env → St → Except RunError (Outcome × St)

def edgeOutcome (enter : Enter) (t : Target) (label : Name) (env : Env) (s : St) :
    Except RunError (Outcome × St) :=
  match t, env.doomed with
  | .poll _, some why => .ok (.unchecked (.ahead why), s)
  | t, _ => enter (edgeLabel t) (some label) env s

def retOutcome (prep : Prep) (ret : Ret) (v : Value) (env : Env) : Except RunError Outcome :=
  match ret with
  | .cls k => do return .ret (← valueX prep env k v)
  | _ => .error .noRule

def retsOutcome (prep : Prep) (ret : Ret) (vs : List Value) (env : Env) : Except RunError Outcome :=
  match ret with
  | .tuple ks => do return .rets (← valuesX prep env ks vs)
  | _ => .error .noRule

def jumpOutcome (enter : Enter) (ctx : Ctx) (jump : Jump) (label : Name) (env : Env) (s : St) :
    Except RunError (Outcome × St) :=
  match jump with
  | .goto t => edgeOutcome enter t label env s
  | .branch v t1 t2 => do
    let x ← valueX ctx.prep env .w v
    let n ← x.toInt
    edgeOutcome enter (if n ≠ 0 then t1 else t2) label env s
  | .ret v => do return (← retOutcome ctx.prep ctx.ret v env, s)
  | .rets vs => do return (← retsOutcome ctx.prep ctx.ret vs env, s)
  | .retVoid => .ok (.retVoid, s)
  | .unreachable => .ok (.unreachable, s)

def Jump.isEdge : Jump → Bool
  | .goto _ | .branch .. => true
  | _ => false

/-- A doomed run must trap in its block or past plain edges. -/
def resultOutcome (enter : Enter) (ctx : Ctx) (r : Result) (jump : Jump) (label : Name) :
    Except RunError (Outcome × St) :=
  match r with
  | .stop out s => .ok (out, s)
  | .cont env s =>
    match env.doomed, jump.isEdge with
    | some why, false => .ok (.unchecked (.ahead why), s)
    | _, _ => jumpOutcome enter ctx jump label env s

/-! ### Invocations -/

def emptyEnv : Env := { vals := fun _ => none, doomed := none, snapshot := none }

/-- The parameters' environment; more arguments than parameters are a variadic call's. -/
def paramsEnv : List Param → List Word → Env → Except RunError Env
  | [], _, env => .ok env
  | p :: ps, x :: xs, env => paramsEnv ps xs (env.put p.name x)
  | _ :: _, [], _ => .error .noRule

def snapshotWidth : Word → Width
  | .ptr _ _ => .p
  | _ => .l

/-- Snapshot initialization precedes publishing its readonly capability. -/
def snapshotValues (base : Int) : List Word → Int → Mem → Except RunError (Option Mem)
  | [], _, mem => .ok (some mem)
  | x :: xs, a, mem => do
    match ← storeRes .filc (snapshotWidth x) mem (.ptr a (.obj base)) x with
    | (.val (), mem') => snapshotValues base xs (a + 8) mem'
    | _ => return none

/-- An empty packet is null; none when the address space cannot hold the snapshot. -/
def argsSnapshot (args : List Word) (mem : Mem) : Except RunError (Option (Word × Mem)) :=
  match args with
  | [] => .ok (some (.ptr 0 .none, mem))
  | args =>
    match allocBase .filc mem 16 (args.length * 8) with
    | none => .ok none
    | some (base, mem1) => do
      match ← snapshotValues base args base mem1 with
      | some mem2 => return some (.ptr base (.ro base), mem2)
      | none => return none

def entrySnapshot (f : Func) (args : List Word) (env : Env) (mem : Mem) :
    Except RunError (Option (Env × Mem)) :=
  if variadicFunc f then do
    match ← argsSnapshot args mem with
    | some (snapshot, mem') => return some ({ env with snapshot := some snapshot }, mem')
    | none => return none
  else .ok (some (env, mem))

def freshLocals (f : Func) : Name → Option (Option Int) :=
  fun n => if (localObjects f.blocks).any (fun o => o.1 = n) then some none else none

/-- A trap may precede a declaration: an unbound name selects no object. -/
def invalidateLocals (locals : Name → Option (Option Int)) :
    List Name → Mem → Except RunError Mem
  | [], mem => .ok mem
  | n :: ns, mem =>
    match locals n with
    | some (some base) =>
      match mem.regions.find? (fun r => r.base = base ∧ r.kind = .stack ∧ r.life = .live) with
      | some r => invalidateLocals locals ns { mem with regions := freeRegion base r mem.regions }
      | none => .error .noRule
    | _ => invalidateLocals locals ns mem

/-- In plain mode a callee's allocations die when it returns. -/
def returnedRegions (mode : Mode) (caller callee : List Region) : List Region :=
  match mode with
  | .plain => caller
  | .filc => callee

abbrev EnterIn := Ctx → Enter

def callOutcome (enterIn : EnterIn) (prep : Prep) (f : Func) (args : List Word) (s : St) :
    Except RunError (Outcome × St) := do
  let env ← paramsEnv f.params args emptyEnv
  match f.blocks with
  | [] => .error .noRule
  | entry :: _ =>
    match ← entrySnapshot f args env s.mem with
    | none => return (.trap .outOfMemory, s)
    | some (env', mem) => do
      let r ← enterIn { prep := prep, func := f } entry.label none env'
        { mem := mem, fuel := s.fuel, locals := freshLocals f }
      let mem' ← invalidateLocals r.2.locals ((localObjects f.blocks).map (·.1)) r.2.mem
      return (r.1, { mem := { mem' with regions := returnedRegions prep.mode s.mem.regions mem'.regions },
                     fuel := r.2.fuel, locals := s.locals })

def blockOutcome : Nat → EnterIn
  | 0, _, _, _, _, _ => .error .depth
  | n + 1, ctx, label, pred, env, s =>
    if s.fuel = 0 then .ok (.outOfFuel, s)
    else
      match ctx.func.block? label with
      | none => .error .noRule
      | some b => do
        let env' ← phisEnv ctx.prep pred env b.phis env
        let r ← instsResult (callOutcome (blockOutcome n) ctx.prep) ctx.prep b.insts env'
          { s with fuel := s.fuel - 1 }
        resultOutcome (blockOutcome n ctx) ctx r b.jump label

/-! ### Initial memory -/

def itemSize : DataItem → Int
  | .zero n => n
  | .str .b cs => cs.length
  | .str wd _ | .const wd _ | .sym wd _ _ => widthBytes wd

def itemsSize (items : List DataItem) : Int := (items.map itemSize).sum

structure Layout where
  at_ : Int
  globals : Name → Option Word
  regions : List Region

def dataCap (linkage : Linkage) (base : Int) : Except RunError Cap :=
  match linkage with
  | .export_ | .local_ | .weak | .tls _ => .ok (.obj base)
  | .ro _ | .init _ _ => .ok (.ro base)
  | .externWeak => .error .noRule

def plainLayout (st : Layout) : Item → Except RunError Layout
  | .data d =>
    let base := roundUp st.at_ d.align
    let r : Region := { base := base, end_ := base + itemsSize d.items, kind := .global, life := .live }
    .ok { at_ := r.end_ + 16, globals := put st.globals d.name (.int base), regions := r :: st.regions }
  | .func _ => .ok st
  | .alias _ => .error .noRule

def filcLayout (st : Layout) : Item → Except RunError Layout
  | .data d =>
    if d.linkage = .externWeak ∧ d.items = [] then .ok st
    else do
      let base := roundUp st.at_ (max d.align 16)
      let r : Region := { base := base, end_ := base + roundUp (itemsSize d.items) 8,
                          kind := .global, life := .live }
      let cap ← dataCap d.linkage base
      return { at_ := r.end_ + 16, globals := put st.globals d.name (.ptr base cap),
               regions := r :: st.regions }
  | .alias _ => .ok st
  | .func f =>
    let base := roundUp st.at_ 16
    .ok { st with at_ := base + 16, globals := put st.globals f.name (.ptr base (.fn f.name)) }

def aliasGlobal (globals : Name → Option Word) : Item → Except RunError (Name → Option Word)
  | .alias a =>
    match globals a.target with
    | some p => .ok (put globals a.name p)
    | none => .error .noRule
  | _ => .ok globals

structure Contents where
  at_ : Int
  bytes : Int → Option Int
  aux : Int → Option Cap

def itemBytes (globals : Name → Option Word) : DataItem → Except RunError (List Int)
  | .zero n => .ok (List.replicate n.toNat 0)
  | .str .b cs => .ok (cs.map (fun c => (c.toNat : Int)))
  | .str _ _ => .error .noRule
  | .const wd n => .ok (leBytes (widthBytes wd) (n % 2 ^ (8 * widthBytes wd)))
  | .sym .l s off =>
    match globals s with
    | some (.int a) => .ok (leBytes 8 (a + off))
    | _ => .error .noRule
  | .sym _ _ _ => .error .noRule

def plainItemContents (globals : Name → Option Word) (c : Contents) (item : DataItem) :
    Except RunError Contents := do
  let bs ← itemBytes globals item
  return { c with at_ := c.at_ + bs.length, bytes := writtenBytes bs c.at_ c.bytes }

def symbolPointer (globals : Name → Option Word) (s : Name) : Except RunError (Int × Cap) :=
  match globals s with
  | some (.ptr a cap) => .ok (a, cap)
  | some _ => .error .noRule
  | none => .ok (0, .ext s)

def filcItemContents (globals : Name → Option Word) (c : Contents) (item : DataItem) :
    Except RunError Contents :=
  match item with
  | .sym .p s off =>
    if c.at_ % 8 = 0 then do
      let p ← symbolPointer globals s
      return { at_ := c.at_ + 8,
               bytes := writtenBytes (leBytes 8 (rawAddress p.1 off)) c.at_ c.bytes,
               aux := update c.aux c.at_ p.2 }
    else .error .noRule
  | item => plainItemContents globals c item

def dataContents (mode : Mode) (globals : Name → Option Word) (c : Contents) :
    Item → Except RunError Contents
  | .data d =>
    if mode = .filc ∧ d.linkage = .externWeak ∧ d.items = [] then .ok c
    else
      match mode, globals d.name with
      | .plain, some (.int a) => d.items.foldlM (plainItemContents globals) { c with at_ := a }
      | .filc, some (.ptr a _) => d.items.foldlM (filcItemContents globals) { c with at_ := a }
      | _, _ => .error .noRule
  | _ => .ok c

def stackBase : Int := 4294967296
def dataBase : Int := 65536

def emptyLayout : Layout := { at_ := dataBase, globals := fun _ => none, regions := [] }
def emptyContents : Contents := { at_ := 0, bytes := fun _ => none, aux := fun _ => none }

def initialLayout (m : Module) : Except RunError Layout :=
  match moduleMode m with
  | .plain => m.items.foldlM plainLayout emptyLayout
  | .filc => do
    let lay ← m.items.foldlM filcLayout emptyLayout
    let globals ← m.items.foldlM aliasGlobal lay.globals
    return { lay with globals := globals }

def initialMemory (m : Module) (unknown : Int → Fin 256) : Except RunError (Layout × Mem) := do
  let lay ← initialLayout m
  let c ← m.items.foldlM (dataContents (moduleMode m) lay.globals) emptyContents
  return (lay, { bytes := c.bytes, regions := lay.regions, next := stackBase, aux := c.aux,
                 unknown := unknown })

/-! ### Runs -/

def bodied (m : Module) (n : Name) : Option Func :=
  m.funcs.find? (fun f => f.name = n ∧ f.blocks ≠ [])

/-- An alias of a function is called as its target. -/
def preparedFuncs (m : Module) (n : Name) : Option Func :=
  match bodied m n with
  | some f => some f
  | none =>
    match m.aliases.find? (fun a => a.name = n ∧ (bodied m a.target).isSome) with
    | some a => bodied m a.target
    | none => none

def modulePrepared (m : Module) (unknown : Int → Fin 256) : Except RunError Prep := do
  let r ← initialMemory m unknown
  return { funcs := preparedFuncs m, globals := r.1.globals, mode := moduleMode m, mem := r.2 }

/-- A value of a parameter's class: a `p` is a pointer, or an integer address. -/
def classArg (k : Cls) (x : Word) : Bool :=
  match k, x with
  | .p, .ptr _ _ => true
  | .x, _ => false
  | k, .int n => (modulus k).any (fun m => 0 ≤ n ∧ n < m)
  | _, _ => false

def argsInRange : List Param → List Word → Bool
  | [], _ => true
  | p :: ps, x :: xs => classArg p.cls x && argsInRange ps xs
  | _ :: _, [] => false

def argsFit (f : Func) (args : List Word) : Bool :=
  argsInRange f.params args && (variadicFunc f || args.length = f.params.length)

def runPrepared (prep : Prep) (fn : Name) (args : List Word) (fuel : Nat) :
    Except RunError (Outcome × St) :=
  match prep.funcs fn with
  | none => .error .noRule
  | some f =>
    if argsFit f args then
      callOutcome (blockOutcome (fuel + 1)) prep f args
        { mem := prep.mem, fuel := fuel, locals := fun _ => none }
    else .error .noRule

/-- `run/5`, with the memory it ends in; `unknown` are the bytes plain memory starts with. -/
def run (m : Module) (unknown : Int → Fin 256) (fn : Name) (args : List Word) (fuel : Nat) :
    Except RunError (Outcome × St) := do
  let prep ← modulePrepared m unknown
  runPrepared prep fn args fuel

end Nanofil
