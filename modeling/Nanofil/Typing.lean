import Nanofil.Effects
import Nanofil.Frames
import Nanofil.Objects

/-! What each instruction of an accepted function leaves when it does not stop: words of
their classes where it defines temporaries, and memory and locals in order. -/
namespace Nanofil
open List Option Results

def Outcome.Stops : Outcome → Prop
  | .ret _ | .rets _ | .retVoid => False
  | _ => True

/-- What a step leaves of memory. Plain memory has no capabilities to lose. -/
structure Left (prep : Prep) (s s' : St) : Prop where
  mem : MemOk prep s'.mem
  grows : Grows s.mem s'.mem
  fuel : s'.fuel ≤ s.fuel
  plain : prep.mode = .plain → s'.mem.aux = s.mem.aux

/-- A step defines the temporaries of its instruction, and no other. -/
structure Defines (prep : Prep) (mem : Mem) (f : Func) (ds : List Name) (env env' : Env) : Prop where
  old : ∀ n, n ∉ ds → env'.vals n = env.vals n
  new : ∀ n ∈ ds, ∃ x, env'.vals n = some x ∧ Slot prep mem f n x
  snapshot : env'.snapshot = env.snapshot

/-- A local begins where it is declared; nothing else changes the locals. -/
inductive Moves (prep : Prep) (i : Inst) (s s' : St) : Prop
  | same : (∀ n size, i ≠ .localAlloc n size) → s'.locals = s.locals → Moves prep i s s'
  | begins {n : Name} {size base : Int} : i = .localAlloc n size → s.locals n = some none →
      s'.locals = bindLocal s.locals n base → Allocated prep s.mem .local_ base s'.mem → Moves prep i s s'

def InstOk (prep : Prep) (f : Func) (i : Inst) (env : Env) (s : St) : Result → Prop
  | .stop out s' => Left prep s s' ∧ s'.locals = s.locals ∧ out.Stops
  | .cont env' s' => Left prep s s' ∧ Moves prep i s s' ∧ Defines prep s'.mem f (instDefs i) env env'

section
variable {m : Module} {prep : Prep} {f : Func} {env : Env} {s : St}

theorem Left.setMem {mem : Mem} (ok : MemOk prep mem) (grows : Grows s.mem mem)
    (plain : prep.mode = .plain → mem.aux = s.mem.aux) : Left prep s (s.setMem mem) :=
  ⟨ok, grows, le_rfl, plain⟩

theorem Left.same (ok : MemOk prep s.mem) : Left prep s s := ⟨ok, .refl _, le_rfl, fun _ => rfl⟩

theorem Defines.none (mem : Mem) : Defines prep mem f [] env env :=
  ⟨fun _ _ => rfl, fun _ h => (by cases h), rfl⟩

theorem Defines.put {mem : Mem} {d : Name} {x : Word} (slot : Slot prep mem f d x) :
    Defines prep mem f [d] env (env.put d x) := by
  refine ⟨fun n other => ?_, fun n h => ⟨x, ?_, ?_⟩, rfl⟩
  · have : n ≠ d := fun h => other (mem_singleton.2 h)
    simp [Env.put, Nanofil.put, this]
  · rw [mem_singleton.1 h]
    simp [Env.put, Nanofil.put]
  · rw [mem_singleton.1 h]
    exact slot

variable {r : Res Word × Mem}

/-- What an operation gives, put where its instruction defines it. -/
theorem resResult_ok {i : Inst} {d : Name} (ok : MemOk prep r.2) (grows : Grows s.mem r.2)
    (plain : prep.mode = .plain → r.2.aux = s.mem.aux) (notAlloc : ∀ n size, i ≠ .localAlloc n size)
    (defs : instDefs i = [d]) (slot : ∀ x, r.1 = .val x → Slot prep r.2 f d x) :
    InstOk prep f i env s (resResult r.1 d env (s.setMem r.2)) := by
  have left : Left prep s (s.setMem r.2) := .setMem ok grows plain
  cases res : r.1 with
  | val x =>
    refine ⟨left, .same notAlloc rfl, ?_⟩
    rw [defs]
    exact .put (slot x res)
  | ub u => exact ⟨left, rfl, trivial⟩
  | trap why => exact ⟨left, rfl, trivial⟩
  | unchecked why => exact ⟨left, rfl, trivial⟩

theorem storeResResult_ok {i : Inst} {r : Res Unit × Mem} (ok : MemOk prep r.2) (grows : Grows s.mem r.2)
    (plain : prep.mode = .plain → r.2.aux = s.mem.aux) (notAlloc : ∀ n size, i ≠ .localAlloc n size)
    (defs : instDefs i = []) : InstOk prep f i env s (storeResResult r.1 env (s.setMem r.2)) := by
  have left : Left prep s (s.setMem r.2) := .setMem ok grows plain
  cases res : r.1 with
  | val x =>
    refine ⟨left, .same notAlloc rfl, ?_⟩
    rw [defs]
    exact .none _
  | ub u => exact ⟨left, rfl, trivial⟩
  | trap why => exact ⟨left, rfl, trivial⟩
  | unchecked why => exact ⟨left, rfl, trivial⟩

/-! ### Plain memory -/

theorem loadRes_aux (mode : Mode) (mem : Mem) (a : Int) (size : Nat) : (loadRes mode mem a size).2.aux = mem.aux := by
  unfold loadRes
  split <;> rfl

theorem loadOpRes_plain {t : LoadType} {k : Cls} {addr : Word} {mem : Mem}
    (done : loadOpRes t k .plain addr mem = .ok r) : r.2.aux = mem.aux := by
  have loaded : ∀ {size : Nat} {r : Res Int × Mem}, intLoadRes .plain size addr mem = .ok r → r.2.aux = mem.aux := by
    intro size r done
    cases addr with
    | int a =>
      cases done
      exact loadRes_aux .plain mem a size
    | ptr | limit => cases done
  unfold loadOpRes at done
  split at done
  · cases addr <;> cases done
  all_goals
    simp only [bind_ok, pure_ok] at done
    obtain ⟨x, load, done⟩ := done
  any_goals
    cases done
    exact loaded load
  obtain ⟨y, _, rfl⟩ := done
  exact loaded load

theorem allocRes_aux (mode : Mode) (mem : Mem) (align size : Int) : (allocRes mode mem align size).2.aux = mem.aux := by
  unfold allocRes
  split
  · rfl
  · split
    · rename_i base mem' done
      unfold allocBase at done
      simp only [ite_none_right_eq_some, Option.some.injEq, Prod.mk.injEq] at done
      obtain ⟨_, _, rfl⟩ := done
      rfl
    · rfl

theorem opRes_plain {op : Op} {k : Cls} {xs : List Word} {mem : Mem}
    (done : opRes op k .plain xs mem = .ok r) : r.2.aux = mem.aux := by
  have value : ∀ {x : Except RunError Word}, valRes mem x = .ok r → r.2.aux = mem.aux := fun done => by
    rw [(valRes_effect done).1]
  have kinds : ∀ {kind : OpKind}, kindRes kind op k .plain xs mem = .ok r → r.2.aux = mem.aux := by
    intro kind done
    unfold kindRes at done
    split at done
    any_goals exact value done
    any_goals exact loadOpRes_plain done
    any_goals simp only [reduceCtorEq, and_false, if_false] at done
    all_goals first
      | (rw [(keep_effect done).1])
      | (cases done; exact allocRes_aux _ mem _ _)
      | (cases done; rfl)
  unfold opRes at done
  split at done
  · split at done
    · cases done
      rfl
    · exact value done
  · split at done
    · exact value done
    · simp only [bind_ok] at done
      obtain ⟨kind, _, done⟩ := done
      exact kinds done

end

/-! ### States -/

/-- What a run keeps where it stands in an accepted function, before instruction `k` of `b`. -/
structure InOrder (m : Module) (prep : Prep) (f : Func) (low : Int) (b : Block) (k : Nat) (env : Env) (s : St) : Prop where
  reached : ReachablePoint f.blocks ⟨b.label, k⟩
  typed : EnvTyped prep s.mem f env
  assigned : ∀ n, Established f.params f.blocks n ⟨b.label, k⟩ → (env.vals n).isSome
  snapshot : variadicFunc f = true → ∃ a c, env.snapshot = some (.ptr a c) ∧ CapOk prep s.mem c
  mem : MemOk prep s.mem
  globals : GlobalsOk m prep s.mem
  above : low ≤ s.mem.next
  frame : Frame f low s.locals s.mem
  placed : Placed f s.locals b.label k

/-- A limit's value is read only where a limit is checked. -/
def LimitsRead (f : Func) : Prop :=
  limitNames f.blocks = [] ∨ ∀ b ∈ f.blocks, blockLimitReads (limitNames f.blocks) b = true

def checkLimitInst : Inst → Bool
  | .let_ _ _ (.checkLimit ..) [_, _] => true
  | _ => false

section
variable {m : Module} {prep : Prep} {f : Func} {low : Int} {b : Block} {k : Nat} {i : Inst} {env : Env} {s : St}

theorem LimitsRead.inst (limits : LimitsRead f) (mem_b : b ∈ f.blocks) (at_ : b.insts[k]? = some i)
    (other : checkLimitInst i = false) {n : Name} (use : n ∈ instUses i) : n ∉ limitNames f.blocks := by
  rcases limits with none | reads
  · rw [none]
    exact not_mem_nil
  · have block := reads b mem_b
    simp only [blockLimitReads, Bool.and_eq_true, List.all_eq_true] at block
    have inst := block.1.1 i (mem_of_getElem? at_)
    unfold instLimitReads at inst
    split at inst
    · cases other
    · simpa using List.all_eq_true.1 inst n use

theorem LimitsRead.checkLimit (limits : LimitsRead f) (mem_b : b ∈ f.blocks) {d : Name} {c : Cls} {lo hi align : Int}
    {rights : Rights} {p u : Value} (at_ : b.insts[k]? = some (.let_ d c (.checkLimit lo hi rights align) [p, u])) {n : Name}
    (use : p = .tmp n) : n ∉ limitNames f.blocks := by
  rcases limits with none | reads
  · rw [none]
    exact not_mem_nil
  · have block := reads b mem_b
    simp only [blockLimitReads, Bool.and_eq_true, List.all_eq_true] at block
    have inst := block.1.1 _ (mem_of_getElem? at_)
    simp only [instLimitReads, Bool.and_eq_true, List.all_eq_true] at inst
    simpa using inst.1 n (mem_temps.2 (by rw [use]; exact mem_cons_self))

variable (ssa : Ssa f.params f.blocks) (limits : LimitsRead f) (mem_b : b ∈ f.blocks) (at_ : b.insts[k]? = some i)
  (here : InOrder m prep f low b k env s)
include ssa mem_b at_ here

theorem InOrder.read {n : Name} (use : n ∈ instUses i) : (env.vals n).isSome :=
  here.assigned n (inst_use ssa mem_b at_ here.reached use)

include limits in
theorem InOrder.readable (other : checkLimitInst i = false) {v : Value} (use : ∀ n, v = .tmp n → n ∈ instUses i) :
    Readable f env v :=
  fun n same => ⟨here.read ssa mem_b at_ (use n same), limits.inst mem_b at_ other (use n same)⟩

end

/-! ### Instructions -/

section
variable {m : Module} {prep : Prep} {stage : Stage} {f : Func} {low : Int} {b : Block} {k : Nat} {i : Inst} {env : Env}
  {s : St} {call : Call}

theorem ValidFunc.ssa {mode : Mode} (valid : ValidFunc m mode stage f) : Ssa f.params f.blocks :=
  ⟨valid.labels, valid.entry, valid.dominate⟩

theorem inst_class {mode : Mode} (valid : ValidFunc m mode stage f) (mem_b : b ∈ f.blocks) (at_ : b.insts[k]? = some i)
    {d : Name} {c : Cls} (def_ : (d, c) ∈ instTempDefs i) : classOf f d = some c := by
  refine classOf_def valid.classes ?_
  simp only [tempClasses, mem_append, mem_flatMap]
  exact .inr ⟨b, mem_b, .inr ⟨i, mem_of_getElem? at_, def_⟩⟩

variable (valid : ValidFunc m prep.mode stage f) (limits : LimitsRead f) (mem_b : b ∈ f.blocks)
  (at_ : b.insts[k]? = some i) (here : InOrder m prep f low b k env s)

section Let
variable {d : Name} {c : Cls} {op : Op} {args : List Value}

variable {ks : List Cls}

/-- The result of an operation on words it has a rule for, put in its temporary. -/
theorem letResult_ends (isLet : i = .let_ d c op args) {P : List Word → Prop}
    (classes : opArgClasses op c prep.mode = some ks) (words : Ends Gap P (valuesX prep env ks args))
    (ends : ∀ xs, P xs → Ends Gap (fun r => MemOk prep r.2 ∧ Grows s.mem r.2 ∧ ∀ x, r.1 = .val x → Slot prep r.2 f d x)
      (opRes op c prep.mode xs s.mem)) : Ends Gap (InstOk prep f i env s) (letResult prep d c op args env s) := by
  refine (ends_orNoRule (Q := fun ks' => ks' = ks) (classes ▸ rfl) fun ks' h => ?_).bind fun ks' same => ?_
  · rw [classes] at h
    exact (Option.some.inj h).symm
  · subst same
    refine words.bind fun xs holds => (ends xs holds).done.bind fun r ⟨⟨ok, grows, slot⟩, done⟩ => Ends.pure ?_
    refine resResult_ok ok grows (fun plain => ?_) (fun n size h => by rw [isLet] at h; cases h) (by rw [isLet]; rfl) slot
    rw [plain] at done
    exact opRes_plain done

/-- What an accepted operation's operands and result are. -/
structure LetOk (ctx : ValidCtx) (c : Cls) (op : Op) (args : List Value) (ks : List Cls) : Prop where
  known : validOp op = true
  arity : opArity op = some args.length
  result : opResultOk ctx.mode op c = true
  operands : opOperandsOk op args = true
  classes : opArgClasses op c ctx.mode = some ks
  uses : validUses ctx ks args = true

theorem validLet_cases {ctx : ValidCtx} (accepted : validLet ctx c op args = true) :
    (ctx.mode = .filc ∧ c = .p ∧ op = .copy ∧ ∃ g, args = [.global g]) ∨ ∃ ks, LetOk ctx c op args ks := by
  unfold validLet at accepted
  split at accepted
  · rename_i mode
    exact .inl ⟨mode, rfl, rfl, _, rfl⟩
  · right
    simp only [Bool.and_eq_true, decide_eq_true_eq] at accepted
    obtain ⟨⟨⟨⟨h1, h2⟩, h3⟩, h4⟩, h5⟩ := accepted
    split at h5
    · exact ⟨_, h1, h2, h3, h4, ‹_›, h5⟩
    · cases h5

theorem instUses_arg {v : Value} (isLet : i = .let_ d c op args) (h : v ∈ args) {n : Name} (same : v = .tmp n) :
    n ∈ instUses i := by
  rw [isLet]
  exact mem_temps.2 (same ▸ h)

include valid mem_b at_ here limits

theorem limit_let {size : Int} (isLet : i = .let_ d c (.limit size) args)
    (ok : LetOk (funcCtx m prep.mode f) c (.limit size) args ks) :
    Ends Gap (InstOk prep f i env s) (letResult prep d c (.limit size) args env s) := by
  have result : opResultOk prep.mode (.limit size) c = true := ok.result
  have long : prep.mode = .filc ∧ c = .l := by simpa [opResultOk, opKind, kindResultOk] using result
  obtain ⟨filc, rfl⟩ := long
  have classes := ok.classes
  have words : Ends Gap (WordsOk prep s.mem ks) (valuesX prep env ks args) := valuesX_ends here.globals here.typed ok.uses fun v h =>
    here.readable valid.ssa limits mem_b at_ (by rw [isLet]; rfl) fun n => instUses_arg isLet h
  obtain ⟨_, rfl⟩ := filcClasses_some classes
  refine letResult_ends isLet classes words fun xs ok => ?_
  obtain ⟨p, rfl, hp⟩ := ok.one
  obtain ⟨cap, res⟩ := limit_ends size hp
  rw [filc, res]
  refine Ends.ok ⟨here.mem, .refl _, fun x h => ?_⟩
  cases h
  refine .limit (inst_class valid mem_b at_ (isLet ▸ mem_singleton.2 rfl)) ?_
  exact mem_filterMap.2 ⟨_, mem_flatMap.2 ⟨b, mem_b, isLet ▸ mem_of_getElem? at_⟩, rfl⟩

theorem checkLimit_let {lo hi align : Int} {rights : Rights} (isLet : i = .let_ d c (.checkLimit lo hi rights align) args) (ok : LetOk (funcCtx m prep.mode f) c (.checkLimit lo hi rights align) args ks) :
    Ends Gap (InstOk prep f i env s) (letResult prep d c (.checkLimit lo hi rights align) args env s) := by
  have result : opResultOk prep.mode (.checkLimit lo hi rights align) c = true := ok.result
  have proof : prep.mode = .filc ∧ c = .a := by simpa [opResultOk, opKind, kindResultOk] using result
  obtain ⟨filc, rfl⟩ := proof
  have classes := ok.classes
  obtain ⟨_, rfl⟩ := filcClasses_some classes
  obtain ⟨p, u, rfl⟩ : ∃ p u, args = [p, u] := length_eq_two.1 (Option.some.inj ok.arity).symm
  have uses := ok.uses
  simp only [validUses, Bool.and_true, Bool.and_eq_true] at uses
  have pointer : Ends Gap (WordOk prep s.mem .p) (valueX prep env .p p) := valueX_ends here.globals here.typed uses.1 fun n same =>
    ⟨here.read valid.ssa mem_b at_ (instUses_arg isLet mem_cons_self same),
      limits.checkLimit mem_b (isLet ▸ at_) same⟩
  have limit : Ends Gap (fun _ => True) (valueX prep env .l u) :=
    longX_ends here.globals here.typed uses.2 fun n same => here.read valid.ssa mem_b at_ (instUses_arg isLet (by simp) same)
  refine letResult_ends (P := fun xs => ∃ x y, xs = [x, y] ∧ WordOk prep s.mem .p x) isLet classes ?_ fun xs ok => ?_
  · have rest : Ends Gap (fun ys => ∃ y, ys = [y]) (valuesX prep env [.l] [u]) :=
      limit.bind fun y _ => Ends.ok ⟨y, rfl⟩
    refine pointer.bind fun x word => rest.bind fun ys single => ?_
    obtain ⟨y, rfl⟩ := single
    exact Ends.pure ⟨x, y, rfl, word⟩
  · obtain ⟨x, y, rfl, word⟩ := ok
    rw [filc]
    exact (checkLimit_ends here.mem word).mono fun r done => ⟨done.ok, done.grows, fun x h =>
      .held (inst_class valid mem_b at_ (isLet ▸ mem_singleton.2 rfl)) (done.word x h).held⟩

theorem let_ends (isLet : i = .let_ d c op args) (other : instOp op = false)
    (accepted : validLet (funcCtx m prep.mode f) c op args = true) :
    Ends Gap (InstOk prep f i env s) (instResult call prep i env s) := by
  have defined : classOf f d = some c := inst_class valid mem_b at_ (isLet ▸ mem_singleton.2 rfl)
  have slots : ∀ {x}, Ends Gap (OpHeld prep s.mem c) x → Ends Gap (fun r => MemOk prep r.2 ∧ Grows s.mem r.2 ∧
      ∀ x, r.1 = .val x → Slot prep r.2 f d x) x := fun ends =>
    ends.mono fun r done => ⟨done.ok, done.grows, fun x h => .held defined (done.word x h)⟩
  have step : instResult call prep i env s = letResult prep d c op args env s := by
    rw [isLet]
    exact instResult_let other
  rw [step]
  rcases validLet_cases accepted with ⟨filc, rfl, rfl, g, rfl⟩ | ⟨ks, ok⟩
  · refine letResult_ends (P := WordsOk prep s.mem [.p]) isLet rfl ?_ fun xs words => ?_
    · exact (globalX_ends filc here.globals g).bind fun x word => Ends.ok (.cons word .nil)
    · exact slots (opRes_ends here.mem rfl rfl rfl rfl words)
  · by_cases own : ownRule op = true
    · cases op <;> cases own <;> try cases other
      · exact limit_let valid limits mem_b at_ here isLet ok
      · exact checkLimit_let valid limits mem_b at_ here isLet ok
    · have own : ownRule op = false := by simpa using own
      have notLimit : checkLimitInst i = false := by
        rw [isLet]
        cases op <;> first | rfl | cases own
      have words : Ends Gap (WordsOk prep s.mem ks) (valuesX prep env ks args) := valuesX_ends here.globals here.typed ok.uses fun v h =>
        here.readable valid.ssa limits mem_b at_ notLimit fun n => instUses_arg isLet h
      exact letResult_ends isLet ok.classes words fun xs words =>
        slots (opRes_ends here.mem own ok.known ok.result ok.classes words)

end Let

end

end Nanofil
