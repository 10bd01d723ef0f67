import Nanofil.Interp

/-! `c_lower.pl`: the emission of blocks, and the lowering of statements as far as switches go.
Expressions and statements without cases emit any code that keeps to the state's rules. -/
namespace Nanofil.Switching

/-! ### Integer types (`c_types.pl`) -/

inductive IntType
  | bool | char | schar | uchar | short | ushort | int | uint | long | ulong | llong | ullong
deriving DecidableEq

/-- `integer_type/4`: the size, the signedness and the rank. -/
def integerType : IntType → Nat × Signedness × Nat
  | .bool => (1, .unsigned, 0)
  | .char => (1, .signed, 1)
  | .schar => (1, .signed, 1)
  | .uchar => (1, .unsigned, 1)
  | .short => (2, .signed, 2)
  | .ushort => (2, .unsigned, 2)
  | .int => (4, .signed, 3)
  | .uint => (4, .unsigned, 3)
  | .long => (8, .signed, 4)
  | .ulong => (8, .unsigned, 4)
  | .llong => (8, .signed, 5)
  | .ullong => (8, .unsigned, 5)

def size (t : IntType) : Nat := (integerType t).1

def sign (t : IntType) : Signedness := (integerType t).2.1

def integerPromotion (t : IntType) : IntType := if (integerType t).2.2 < 3 then .int else t

def typeClass (t : IntType) : Cls := if size t = 8 then .l else .w

def signedWord (sign : Signedness) (u m : Int) : Int :=
  match sign with
  | .signed => if u ≥ m / 2 then u - m else u
  | .unsigned => u

def convertInt (v : Int) : IntType → Int
  | .bool => if v = 0 then 0 else 1
  | t => signedWord (sign t) (v % 2 ^ (8 * size t)) (2 ^ (8 * size t))

/-! ### The state of a function being lowered -/

/-- An entry of the enclosing switch: a value, a long range, or the default. -/
inductive Case
  | case (v : Int) (l : Name)
  | range (lo hi : Int) (l : Name)
  | default (l : Name)

/-- The current block with its instructions, the last one first, the blocks, the last one first,
the numbers that names have taken, and the cases. -/
structure Emit where
  cur : Option (Name × List Phi)
  insts : List Inst
  blocks : List Block
  n : Nat
  cases : List Case

def labelName (n : Nat) : Name := "L" ++ n.repr
def tempName (n : Nat) : Name := "v" ++ n.repr

def Emit.label (s : Emit) : Name × Emit := (labelName s.n, { s with n := s.n + 1 })

def Emit.ensureLive (s : Emit) : Emit :=
  match s.cur with
  | some _ => s
  | none => { s with cur := some (labelName s.n, []), n := s.n + 1 }

def Emit.emit (s : Emit) (i : Inst) : Emit := { s.ensureLive with insts := i :: s.ensureLive.insts }

def Emit.closeBlock (s : Emit) (j : Jump) : Emit :=
  match s.cur with
  | some (l, phis) => { s with cur := none, insts := [], blocks := ⟨l, phis, s.insts.reverse, j⟩ :: s.blocks }
  | none => s

def Emit.term (s : Emit) (j : Jump) : Emit := s.ensureLive.closeBlock j

/-- A live block falls through to the one that begins. -/
def Emit.start (s : Emit) (l : Name) : Emit :=
  match s.cur with
  | some _ => { s.term (.goto (.label l)) with cur := some (l, []) }
  | none => { s with cur := some (l, []) }

def Emit.let_ (s : Emit) (k : Cls) (op : Op) (args : List Value) : Value × Emit :=
  (.tmp (tempName s.n), Emit.emit { s with n := s.n + 1 } (.let_ (tempName s.n) k op args))

/-! ### Dispatch -/

/-- What a value of the search leads to: a label, or one for the values up to a bound. -/
inductive Aim
  | at (l : Name)
  | to (hi : Int) (l : Name)

def lessThan : Signedness → Cond
  | .signed => .slt
  | .unsigned => .ult

def dispatchCases : List (Int × Aim) → Value → Cls → Name → Emit → Emit
  | [], _, _, lDefault, s => s.term (.goto (.label lDefault))
  | (lo, .to hi l) :: pairs, value, k, lDefault, s =>
    let (d, s) := s.let_ k .sub [value, .const lo]
    let (test, s) := s.let_ .w (.cmp .ule k) [d, .const (hi - lo)]
    let (next, s) := s.label
    let s := s.term (.branch test (.label l) (.label next))
    dispatchCases pairs value k lDefault (s.start next)
  | (wrapped, .at l) :: pairs, value, k, lDefault, s =>
    let (test, s) := s.let_ .w (.cmp .eq k) [value, .const wrapped]
    let (next, s) := s.label
    let s := s.term (.branch test (.label l) (.label next))
    dispatchCases pairs value k lDefault (s.start next)

/-- The pivot is the first value of the upper half. -/
def dispatchSearch (pairs : List (Int × Aim)) (value : Value) (sign : Signedness) (k : Cls) (lDefault : Name) (s : Emit) : Emit :=
  if large : 4 < pairs.length then
    let lower := pairs.take (pairs.length / 2)
    let upper := pairs.drop (pairs.length / 2)
    let pivot := (pairs.get ⟨pairs.length / 2, by omega⟩).1
    let (test, s) := s.let_ .w (.cmp (lessThan sign) k) [value, .const pivot]
    let (lLower, s) := s.label
    let (lUpper, s) := s.label
    let s := s.term (.branch test (.label lLower) (.label lUpper))
    let s := dispatchSearch lower value sign k lDefault (s.start lLower)
    dispatchSearch upper value sign k lDefault (s.start lUpper)
  else dispatchCases pairs value k lDefault s
termination_by pairs.length
decreasing_by
  · rw [List.length_take]; omega
  · rw [List.length_drop]; omega

/-- The values first, then the ranges, each in source order. -/
def casePairs (ty : IntType) (cases : List Case) : List (Int × Aim) :=
  cases.filterMap (fun | .case v l => some (convertInt v ty, .at l) | _ => none) ++
    cases.filterMap (fun | .range lo hi l => some (convertInt lo ty, .to (convertInt hi ty) l) | _ => none)

def defaultLabel (cases : List Case) (lEnd : Name) : Name :=
  (cases.findSome? fun | .default l => some l | _ => none).getD lEnd

def keysort (pairs : List (Int × Aim)) : List (Int × Aim) := pairs.mergeSort fun p q => p.1 ≤ q.1

def dispatch (cases : List Case) (value : Value) (ty : IntType) (lEnd : Name) (s : Emit) : Emit :=
  match cases with
  | [] => s.term (.goto (.label lEnd))
  | cases =>
    let pairs0 := casePairs ty cases
    let lDefault := defaultLabel cases lEnd
    if pairs0.length ≤ 4 then dispatchCases pairs0 value (typeClass ty) lDefault s
    else dispatchSearch (keysort pairs0) value (sign ty) (typeClass ty) lDefault s

/-! ### Cases -/

inductive SemaError
  | notInteger
  | rangeDoesNotFit (lo hi : Int)
  | duplicate (v : Int)
  | breakOutside
  | continueOutside
deriving DecidableEq

def SemaError.message : SemaError → String
  | .notInteger => "switch on a non-integer"
  | .rangeDoesNotFit lo hi => "case range " ++ toString lo ++ " ... " ++ toString hi ++ " does not fit the switch's type"
  | .duplicate v => "duplicate case value " ++ toString v
  | .breakOutside => "break outside a loop or switch"
  | .continueOutside => "continue outside a loop"

/-- The standard order of `lo-hi` terms. -/
def termLe (p q : Int × Int) : Bool := p.1 < q.1 || p.1 = q.1 && p.2 ≤ q.2

/-- The first value that follows an interval it is not past. -/
def adjacent : List (Int × Int) → Option Int
  | p :: q :: rest => if q.1 ≤ p.2 then some q.1 else adjacent (q :: rest)
  | _ => none

def caseIntervals (ty : IntType) (cases : List Case) : List (Int × Int) :=
  cases.filterMap (fun | .case v _ => some (convertInt v ty, convertInt v ty) | _ => none) ++
    cases.filterMap (fun | .range lo hi _ => some (lo, hi) | _ => none)

def unfit (ty : IntType) : Case → Option SemaError
  | .range lo hi _ => if convertInt lo ty = lo ∧ convertInt hi ty = hi then none else some (.rangeDoesNotFit lo hi)
  | _ => none

def distinctCases (cases : List Case) (ty : IntType) : Except SemaError Unit :=
  match cases.findSome? (unfit ty) with
  | some e => .error e
  | none =>
    match adjacent ((caseIntervals ty cases).mergeSort termLe) with
    | some v => .error (.duplicate v)
    | none => .ok ()

/-- A case label's constants: a value, or GNU's range. -/
inductive CaseLabel
  | value (v : Int)
  | range (lo hi : Int)

/-- `case_values/4`, with the label: a long range stays one entry. -/
def caseEntries (l : Name) : CaseLabel → List Case
  | .value v => [.case v l]
  | .range lo hi =>
    if hi - lo ≥ 4096 then [.range lo hi l]
    else if hi < lo then []
    else (List.range (hi - lo + 1).toNat).map fun (i : Nat) => .case (lo + i) l

/-! ### Statements -/

/-- Code of what has no label of an enclosing switch. -/
structure Code where
  run : Emit → Emit
  cases : ∀ s, (run s).cases = s.cases
  blocks : ∀ s, s.blocks <:+ (run s).blocks
  n : ∀ s, s.n ≤ (run s).n

/-- An expression, converted to its promoted type: its code, its value and its type, if an integer's. -/
structure Expr extends Code where
  value : Emit → Value
  old : ∀ s k, (run s).n ≤ k → value s ≠ .tmp (tempName k)
  type : Option IntType

/-- `cond` takes the labels of `cond_jump//4`. -/
inductive Stmt
  | code (c : Code)
  | seq (a b : Stmt)
  | ite (cond : Name → Name → Code) (thenS elseS : Stmt)
  | whileS (cond : Name → Name → Code) (body : Stmt)
  | doS (body : Stmt) (cond : Name → Name → Code)
  | forS (init : Stmt) (cond : Name → Name → Code) (step : Code) (body : Stmt)
  | switch (e : Expr) (body : Stmt)
  | case (e : CaseLabel) (body : Stmt)
  | default (body : Stmt)
  | breakS
  | continueS

/-- The labels that `break` and `continue` jump to. -/
structure Targets where
  brk : Option Name
  cont : Option Name

def targetJump (t : Option Name) (e : SemaError) (s : Emit) : Except SemaError Emit :=
  match t with
  | some l => .ok (s.term (.goto (.label l)))
  | none => .error e

def lower : Stmt → Targets → Emit → Except SemaError Emit
  | .code c, _, s => .ok (c.run s)
  | .seq a b, ctx, s => do
    let s ← lower a ctx s
    lower b ctx s
  | .ite cond thenS elseS, ctx, s => do
    let (lThen, s) := s.label
    let (lElse, s) := s.label
    let (lJoin, s) := s.label
    let s := ((cond lThen lElse).run s).start lThen
    let s ← lower thenS ctx s
    let s := (s.term (.goto (.label lJoin))).start lElse
    let s ← lower elseS ctx s
    return s.start lJoin
  | .whileS cond body, _, s => do
    let (lCond, s) := s.label
    let (lBody, s) := s.label
    let (lEnd, s) := s.label
    let s := ((cond lBody lEnd).run (s.start lCond)).start lBody
    let s ← lower body ⟨some lEnd, some lCond⟩ s
    return (s.term (.goto (.label lCond))).start lEnd
  | .doS body cond, _, s => do
    let (lBody, s) := s.label
    let (lCond, s) := s.label
    let (lEnd, s) := s.label
    let s ← lower body ⟨some lEnd, some lCond⟩ (s.start lBody)
    return ((cond lBody lEnd).run (s.start lCond)).start lEnd
  | .forS init cond step body, ctx, s => do
    let s ← lower init ctx s
    let (lCond, s) := s.label
    let (lBody, s) := s.label
    let (lStep, s) := s.label
    let (lEnd, s) := s.label
    let s := ((cond lBody lEnd).run (s.start lCond)).start lBody
    let s ← lower body ⟨some lEnd, some lStep⟩ s
    let s := step.run (s.start lStep)
    return (s.term (.goto (.label lCond))).start lEnd
  | .switch e body, ctx, s => do
    let value := e.value s
    let s := e.run s
    match e.type with
    | none => .error .notInteger
    | some t0 =>
      let ty := integerPromotion t0
      let (lDispatch, s) := s.label
      let (lEnd, s) := s.label
      let s := s.term (.goto (.label lDispatch))
      let outer := s.cases
      let s ← lower body { ctx with brk := some lEnd } { s with cases := [] }
      let s := s.term (.goto (.label lEnd))
      let cases := s.cases.reverse
      let s := { s with cases := outer }
      distinctCases cases ty
      let s := dispatch cases value ty lEnd (s.start lDispatch)
      return s.start lEnd
  | .case e body, ctx, s => do
    let (l, s) := s.label
    let s := s.start l
    lower body ctx { s with cases := (caseEntries l e).reverse ++ s.cases }
  | .default body, ctx, s => do
    let (l, s) := s.label
    let s := s.start l
    lower body ctx { s with cases := .default l :: s.cases }
  | .breakS, ctx, s => targetJump ctx.brk .breakOutside s
  | .continueS, ctx, s => targetJump ctx.cont .continueOutside s

end Nanofil.Switching
