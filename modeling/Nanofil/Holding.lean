import Nanofil.Effects
import Nanofil.Named

/-! What an invocation holds names registered objects, and each instruction leaves it so: one that
makes no call does as memory's events do, and leaves memory as it was when it stops. -/
namespace Nanofil
open List Results

def GlobalsNamed (prep : Prep) (mem : Mem) : Prop := ∀ g x, prep.globals g = some x → WordNamed mem x

structure HoldsNamed (prep : Prep) (env : Env) (s : St) : Prop where
  discipline : Discipline s.mem
  globals : GlobalsNamed prep s.mem
  vals : ∀ n x, env.vals n = some x → WordNamed s.mem x
  snapshot : ∀ x, env.snapshot = some x → WordNamed s.mem x
  locals : ∀ n base, s.locals n = some (some base) → Registered s.mem base

def Outcome.Named (mem : Mem) : Outcome → Prop
  | .ret x => WordNamed mem x
  | .rets xs => ∀ x ∈ xs, WordNamed mem x
  | _ => True

/-- What an instruction leaves behind. -/
structure Tidy (prep : Prep) (s : St) (r : Result) : Prop where
  events : Events s.mem r.st.mem
  holds : ∀ env' s', r = .cont env' s' → HoldsNamed prep env' s'
  ends : ∀ out s', r = .stop out s' → out.Named s'.mem ∧ s'.locals = s.locals

/-- What a call leaves behind. -/
structure ReturnsNamed (s : St) (o : Outcome × St) : Prop where
  events : Events s.mem o.2.mem
  named : o.1.Named o.2.mem
  locals : o.2.locals = s.locals

/-- Bytes and capabilities change only where the objects do not. -/
def Apart (mem mem' : Mem) : Prop := mem'.regions = mem.regions ∨ mem'.bytes = mem.bytes ∧ mem'.aux = mem.aux

/-- An instruction that makes no call. -/
structure Alone (prep : Prep) (s : St) (r : Result) : Prop where
  tidy : Tidy prep s r
  stopped : ∀ out s', r = .stop out s' → s'.mem = s.mem
  apart : Apart s.mem r.st.mem

section
variable {prep : Prep} {env : Env} {s : St}

theorem GlobalsNamed.events {mem mem' : Mem} (named : GlobalsNamed prep mem) (events : Events mem mem') : GlobalsNamed prep mem' :=
  fun g x h => (named g x h).events events

theorem HoldsNamed.moved (holds : HoldsNamed prep env s) {s' : St} (events : Events s.mem s'.mem) (same : s'.locals = s.locals) :
    HoldsNamed prep env s' :=
  ⟨events.discipline holds.discipline, holds.globals.events events, fun n x h => (holds.vals n x h).events events,
    fun x h => (holds.snapshot x h).events events, fun n base h => events.kept.objects base (holds.locals n base (same ▸ h))⟩

theorem HoldsNamed.put (holds : HoldsNamed prep env s) {x : Word} (named : WordNamed s.mem x) (d : Name) : HoldsNamed prep (env.put d x) s := by
  refine ⟨holds.discipline, holds.globals, fun n y h => ?_, holds.snapshot, holds.locals⟩
  simp only [Env.put, Nanofil.put] at h
  split at h
  · cases h
    exact named
  · exact holds.vals n y h

theorem valueX_named (holds : HoldsNamed prep env s) {k : Cls} {v : Value} {x : Word} (read : valueX prep env k v = .ok x) :
    WordNamed s.mem x := by
  unfold valueX at read
  cases v with
  | tmp n =>
    dsimp only at read
    split at read
    · rename_i known
      exact wordAtClass_named (holds.vals _ _ known) read
    · cases read
  | const n =>
    simp only [bind_ok] at read
    obtain ⟨m, _, read⟩ := read
    unfold constantAtClass at read
    split at read
    · cases read
      exact capNamed_none
    · cases read
    · cases read
    · cases read
      exact wordNamed_int _
  | global g =>
    dsimp only at read
    split at read
    · rename_i known
      cases read
      exact holds.globals _ _ known
    · unfold undefinedSymbol at read
      split at read <;> cases read
      exact fun base h => by cases h

theorem valuesX_named (holds : HoldsNamed prep env s) {ks : List Cls} : ∀ {vs : List Value} {xs : List Word},
    valuesX prep env ks vs = .ok xs → ∀ x ∈ xs, WordNamed s.mem x := by
  induction ks with
  | nil =>
    intro vs xs read
    cases vs <;> cases read
    exact fun x h => by cases h
  | cons k ks ih =>
    intro vs xs read
    cases vs with
    | nil => cases read
    | cons v vs =>
      simp only [valuesX, bind_ok, pure_ok] at read
      obtain ⟨x, value, ys, values, rfl⟩ := read
      intro y h
      rcases mem_cons.1 h with rfl | h
      · exact valueX_named holds value
      · exact ih values y h

theorem mapM_named {α : Type} {g : α → Except RunError Word} {as : List α} {mem : Mem} (named : ∀ a ∈ as, ∀ x, g a = .ok x → WordNamed mem x) :
    ∀ {xs : List Word}, as.mapM g = .ok xs → ∀ x ∈ xs, WordNamed mem x := by
  induction as with
  | nil =>
    intro xs read
    cases read
    exact fun x h => by cases h
  | cons a as ih =>
    intro xs read
    simp only [mapM_cons, bind_ok, pure_ok] at read
    obtain ⟨x, value, ys, values, rfl⟩ := read
    intro y h
    rcases mem_cons.1 h with rfl | h
    · exact named a mem_cons_self _ value
    · exact ih (fun a' h => named a' (mem_cons_of_mem _ h)) values y h

theorem toPtr_ok {x : Word} {p : Int × Cap} (is : x.toPtr = .ok p) : x = .ptr p.1 p.2 := by
  cases x <;> cases is
  rfl

theorem pointerX_named (holds : HoldsNamed prep env s) {k : Cls} {v : Value} {p : Int × Cap} (read : pointerX prep env k v = .ok p) :
    CapNamed s.mem p.2 := by
  simp only [pointerX, bind_ok] at read
  obtain ⟨x, value, is⟩ := read
  have named := valueX_named holds value
  rw [toPtr_ok is] at named
  exact named

theorem flightCap_named (holds : HoldsNamed prep env s) {lower : FlightLower} {c : Cap} (read : flightCap prep env lower = .ok c) :
    CapNamed s.mem c := by
  cases lower with
  | none =>
    cases read
    exact capNamed_none
  | lower p =>
    simp only [flightCap, bind_ok, pure_ok] at read
    obtain ⟨q, value, rfl⟩ := read
    exact pointerX_named holds value

theorem localPointer_named (holds : HoldsNamed prep env s) {n : Name} {off : Int} {p : Int × Cap}
    (found : localPointer prep s n off = .ok p) : CapNamed s.mem p.2 := by
  unfold localPointer at found
  split at found
  · rename_i bound
    cases found
    intro base h
    cases h
    exact holds.locals _ _ bound
  · cases found

/-! ### Instructions that make no call -/

theorem setMem_self {mem : Mem} (same : mem = s.mem) : s.setMem mem = s := by
  cases s
  cases same
  rfl

theorem Alone.ofRes (holds : HoldsNamed prep env s) {res : Res Word × Mem} (yields : YieldsNamed s.mem res) (apart : Apart s.mem res.2) (d : Name) :
    Alone prep s (resResult res.1 d env (s.setMem res.2)) := by
  have moved : HoldsNamed prep env (s.setMem res.2) := holds.moved yields.events rfl
  cases is : res.1 with
  | val x =>
    refine ⟨⟨yields.events, fun env' s' h => ?_, fun out s' h => by cases h⟩, fun out s' h => (by cases h), apart⟩
    cases h
    exact moved.put (yields.word x is) d
  | ub | trap | unchecked =>
    have same := yields.stopped fun x h => by rw [is] at h; cases h
    refine ⟨⟨yields.events, fun env' s' h => (by cases h), fun out s' h => ?_⟩, fun out s' h => ?_, apart⟩
    · cases h
      exact ⟨trivial, rfl⟩
    · cases h
      exact same

theorem Alone.ofStore (holds : HoldsNamed prep env s) {res : Res Unit × Mem} (stores : StoresNamed s.mem res) (same : res.2.regions = s.mem.regions) :
    Alone prep s (storeResResult res.1 env (s.setMem res.2)) := by
  have moved : HoldsNamed prep env (s.setMem res.2) := holds.moved stores.events rfl
  cases is : res.1 with
  | val x =>
    refine ⟨⟨stores.events, fun env' s' h => ?_, fun out s' h => by cases h⟩, fun out s' h => (by cases h), .inl same⟩
    cases h
    exact moved
  | ub | trap | unchecked =>
    have same := stores.stopped fun h => by rw [is] at h; cases h
    refine ⟨⟨stores.events, fun env' s' h => (by cases h), fun out s' h => ?_⟩, fun out s' h => ?_, .inl (congrArg Mem.regions same)⟩
    · cases h
      exact ⟨trivial, rfl⟩
    · cases h
      exact same

/-- One that leaves memory as it is. -/
theorem Alone.ofSame (holds : HoldsNamed prep env s) {res : Res Word} (named : ∀ x, res = .val x → WordNamed s.mem x) (d : Name) :
    Alone prep s (resResult res d env s) :=
  have yields : YieldsNamed s.mem (res, s.mem) := .same rfl named
  Alone.ofRes holds yields (.inl rfl) d

theorem Alone.ofCheck (holds : HoldsNamed prep env s) (res : Res Unit) : Alone prep s (storeResResult res env s) :=
  have stores : StoresNamed s.mem (res, s.mem) := ⟨.refl, fun _ => rfl⟩
  Alone.ofStore holds stores rfl

theorem Alone.cont (holds : HoldsNamed prep env s) : Alone prep s (.cont env s) := .ofCheck holds (.val ())

theorem Alone.stop (s : St) {out : Outcome} (named : out.Named s.mem) : Alone prep s (.stop out s) :=
  ⟨⟨.refl, fun _ _ h => (by cases h), fun out' s' h => by cases h; exact ⟨named, rfl⟩⟩, fun out' s' h => by cases h; rfl, .inl rfl⟩

theorem localAllocResult_alone (holds : HoldsNamed prep env s) {n : Name} {size : Int} (positive : 0 ≤ size) {r : Result}
    (done : localAllocResult prep n size env s = .ok r) : Alone prep s r := by
  unfold localAllocResult at done
  split at done
  · split at done
    · rename_i base mem alloc
      cases done
      have event : Events s.mem mem := .single (.alloc (by simp) positive alloc)
      obtain ⟨region, regions, based, _, bytes, aux⟩ := allocBase_regions alloc
      have moved : HoldsNamed prep env (s.setMem mem) := holds.moved event rfl
      refine ⟨⟨event, fun env' s' h => ?_, fun out s' h => by cases h⟩, fun out s' h => (by cases h), .inr ⟨bytes, aux⟩⟩
      cases h
      refine ⟨moved.discipline, moved.globals, moved.vals, moved.snapshot, fun m b bound => ?_⟩
      simp only [bindLocal] at bound
      split at bound
      · cases bound
        exact registered_iff.2 ⟨region, regions ▸ mem_cons_self, based⟩
      · exact moved.locals m b bound
    · cases done
      exact .stop s trivial
  · cases done

theorem allocRes_apart (mem : Mem) (align size : Int) : Apart mem (allocRes .filc mem align size).2 := by
  unfold allocRes
  split
  · exact .inl rfl
  · split
    · rename_i alloc
      obtain ⟨_, _, _, _, bytes, aux⟩ := allocBase_regions alloc
      exact .inr ⟨bytes, aux⟩
    · exact .inl rfl

theorem opRes_apart {op : Op} {k : Cls} {xs : List Word} {mem : Mem} {r : Res Word × Mem} (done : opRes op k .filc xs mem = .ok r) :
    Apart mem r.2 := by
  by_cases alloc : ∃ n, op = .alloc n
  · obtain ⟨n, rfl⟩ := alloc
    obtain ⟨size, _, rfl⟩ := opRes_alloc done
    exact allocRes_apart _ _ _
  · exact .inl (opRes_same done fun n h => alloc ⟨n, h⟩).1

theorem letResult_alone {ctx : ValidCtx} (mode : ctx.mode = .filc) (filc : prep.mode = .filc) {d : Name} {k : Cls} {op : Op}
    {args : List Value} (valid : validInst ctx (.let_ d k op args) = true) (holds : HoldsNamed prep env s) {r : Result}
    (done : letResult prep d k op args env s = .ok r) : Alone prep s r := by
  simp only [letResult, filc, bind_ok, pure_ok] at done
  obtain ⟨classes, hclasses, xs, read, res, ran, rfl⟩ := done
  exact .ofRes holds (opRes_yields holds.discipline (valuesX_named holds read) (allocSize_nonneg mode valid hclasses read) ran)
    (opRes_apart ran) d

/-! ### Calls -/

/-- An instruction makes one call, of words that it holds, and goes on with what that returns,
or it makes none. -/
inductive Asks (prep : Prep) (s : St) (x : Call → Except RunError Result) : Prop
  | call {n : Name} {g : Func} {xs : List Word} {after : Outcome × St → Except RunError Result} :
      prep.funcs n = some g → (∀ x ∈ xs, WordNamed s.mem x) → (∀ call, x call = call g xs s >>= after) →
      (∀ o r, ReturnsNamed s o → after o = .ok r → Tidy prep s r ∧ r.st.mem = o.2.mem) → Asks prep s x
  | none {y : Except RunError Result} : (∀ call, x call = y) → (∀ r, y = .ok r → Alone prep s r) → Asks prep s x

theorem Asks.after {β : Type} {y : Except RunError β} {x : β → Call → Except RunError Result}
    (asks : ∀ b, y = .ok b → Asks prep s (x b)) : Asks prep s (fun call => y >>= fun b => x b call) := by
  cases y with
  | error e => exact .none (fun _ => rfl) fun r h => by cases h
  | ok b => exact asks b rfl

theorem Asks.alone {y : Except RunError Result} (alone : ∀ r, y = .ok r → Alone prep s r) : Asks prep s (fun _ => y) :=
  .none (fun _ => rfl) alone

theorem retsEnv_named {tos : List (Name × Cls)} : ∀ {xs : List Word} {env env' : Env}, HoldsNamed prep env s →
    (∀ x ∈ xs, WordNamed s.mem x) → retsEnv tos xs env = .ok env' → HoldsNamed prep env' s := by
  induction tos with
  | nil =>
    intro xs env env' holds _ done
    cases xs <;> cases done
    exact holds
  | cons t tos ih =>
    intro xs env env' holds named done
    cases xs with
    | nil => cases done
    | cons x xs =>
      simp only [retsEnv, toWordEnv, bind_ok, pure_ok] at done
      obtain ⟨env1, ⟨y, read, rfl⟩, done⟩ := done
      exact ih (holds.put (wordAtClass_named (named x mem_cons_self) read) _)
        (fun z h => named z (mem_cons_of_mem _ h)) done

theorem callOutcomeResult_tidy (holds : HoldsNamed prep env s) {o : Outcome × St} (returns : ReturnsNamed s o) {res : CallRes} {r : Result}
    (done : callOutcomeResult o.1 res env o.2 = .ok r) : Tidy prep s r ∧ r.st.mem = o.2.mem := by
  obtain ⟨out, s'⟩ := o
  have moved : HoldsNamed prep env s' := holds.moved returns.events returns.locals
  have named := returns.named
  have goes : ∀ {env'}, HoldsNamed prep env' s' → Tidy prep s (.cont env' s') ∧ (Result.cont env' s').st.mem = s'.mem := fun holds =>
    ⟨⟨returns.events, fun _ _ h => by cases h; exact holds, fun _ _ h => by cases h⟩, rfl⟩
  unfold callOutcomeResult at done
  dsimp only at done
  split at done
  · simp only [toWordEnv, bind_ok, pure_ok] at done
    obtain ⟨env1, ⟨y, read, rfl⟩, rfl⟩ := done
    exact goes (moved.put (wordAtClass_named named read) _)
  · cases done
    exact goes moved
  · cases done
  · simp only [bind_ok, pure_ok] at done
    obtain ⟨env1, rets, rfl⟩ := done
    exact goes (retsEnv_named moved named rets)
  · cases done
    exact goes moved
  · cases done
  · cases done
    exact goes moved
  · cases done
  · cases done
    exact ⟨⟨returns.events, fun _ _ h => (by cases h), fun _ _ h => by cases h; exact ⟨named, returns.locals⟩⟩, rfl⟩

theorem genericWord_named {src dst : Cls} {x y : Word} {mem : Mem} (named : WordNamed mem x) (done : genericWord src dst x = .ok y) :
    WordNamed mem y := by
  have ints : ∀ {y}, intWordAs dst x = .ok y → WordNamed mem y := by
    intro y done
    unfold intWordAs at done
    split at done
    · cases done
      exact named
    · cases done
      exact named
    · simp only [bind_ok, pure_ok] at done
      obtain ⟨n, _, rfl⟩ := done
      exact capNamed_none
    · exact wordAtClass_named named done
    · exact wordAtClass_named named done
    · cases done
  have address : WordNamed mem (pointerAddress x) := by
    cases x with
    | ptr => exact wordNamed_int _
    | int | limit => exact named
  have pointers : ∀ {y}, pointerWordAs dst x = .ok y → WordNamed mem y := by
    intro y done
    unfold pointerWordAs at done
    split at done
    · cases done
      exact address
    · cases done
      exact address
    · cases done
      exact named
    · exact wordAtClass_named address done
    · exact wordAtClass_named address done
    · cases done
  unfold genericWord at done
  split at done <;> first | exact ints done | exact pointers done | cases done

theorem genericWords_named {mem : Mem} {srcs : List Cls} : ∀ {dsts : List Cls} {xs ys : List Word},
    (∀ x ∈ xs, WordNamed mem x) → genericWords srcs dsts xs = .ok ys → ∀ y ∈ ys, WordNamed mem y := by
  induction srcs with
  | nil =>
    intro dsts xs ys _ done
    cases dsts <;> cases done
    exact fun y h => by cases h
  | cons src srcs ih =>
    intro dsts xs ys named done
    cases dsts with
    | nil =>
      cases done
      exact fun y h => by cases h
    | cons dst dsts =>
      cases xs with
      | nil => cases done
      | cons x xs =>
        simp only [genericWords, bind_ok, pure_ok] at done
        obtain ⟨y, word, ys, words, rfl⟩ := done
        intro z h
        rcases mem_cons.1 h with rfl | h
        · exact genericWord_named (named x mem_cons_self) word
        · exact ih (fun x h => named x (mem_cons_of_mem _ h)) words z h

theorem convertedOutcome_named {mem : Mem} {caller callee : List Cls} {out out' : Outcome} (named : out.Named mem)
    (done : convertedOutcome caller callee out = .ok out') : out'.Named mem := by
  unfold convertedOutcome at done
  split at done
  · rename_i xs words
    simp only [bind_ok, pure_ok] at done
    obtain ⟨ys, generic, rfl⟩ := done
    have held : ∀ x ∈ xs, WordNamed mem x := by
      unfold outcomeWords at words
      split at words
      · cases words
        exact fun x h => by cases h
      · cases words
        intro x h
        rw [mem_singleton.1 h]
        exact named
      · split at words <;> cases words
        exact named
      · cases words
    have held := genericWords_named held generic
    unfold wordsOutcome
    split
    · trivial
    · exact held _ mem_cons_self
    · exact held
  · cases done
    exact named

theorem ReturnsNamed.converted {o : Outcome × St} (returns : ReturnsNamed s o) {out : Outcome} (named : out.Named o.2.mem) :
    ReturnsNamed s (out, o.2) := ⟨returns.events, named, returns.locals⟩

theorem convCallResult_asks (holds : HoldsNamed prep env s) (conv : Conv) {n : Name} {fn : Func} (target : prep.funcs n = some fn)
    {ys : List Word} (named : ∀ y ∈ ys, WordNamed s.mem y) (res : CallRes) :
    Asks prep s (fun call => convCallResult call conv fn ys res env s) := by
  cases conv with
  | trap why => exact .alone fun r h => by cases h; exact .stop s trivial
  | same => exact .call target named (fun _ => rfl) fun o r returns done => callOutcomeResult_tidy holds returns done
  | conv caller callee =>
    refine .call target named (fun _ => rfl) fun o r returns done => ?_
    simp only [bind_ok] at done
    obtain ⟨out, converted, done⟩ := done
    exact callOutcomeResult_tidy holds (returns.converted (convertedOutcome_named returns.named converted)) done

theorem indirectCallConv_named {ret : Ret} {params : List Param} {res : CallRes} {args : List Arg} {xs : List Word}
    {fc : List Word × Conv} {mem : Mem} (named : ∀ x ∈ xs, WordNamed mem x) (done : indirectCallConv ret params res args xs = .ok fc) :
    ∀ y ∈ fc.1, WordNamed mem y := by
  simp only [indirectCallConv, bind_ok] at done
  obtain ⟨callee, _, done⟩ := done
  split at done
  · cases done
    exact fun y h => by cases h
  · split at done
    · cases done
      exact fun y h => by cases h
    · simp only [bind_ok, pure_ok] at done
      obtain ⟨ys, generic, rfl⟩ := done
      exact genericWords_named named generic

theorem checkedCallResult_asks (holds : HoldsNamed prep env s) (check : Res Unit) (cap : Cap) (res : CallRes) (args : List Arg)
    {xs : List Word} (named : ∀ x ∈ xs, WordNamed s.mem x) :
    Asks prep s (fun call => checkedCallResult call prep check cap res args xs env s) := by
  cases check with
  | val u =>
    cases cap with
    | fn g =>
      simp only [checkedCallResult]
      cases target : prep.funcs g with
      | none => exact .alone fun r h => by cases h
      | some fn =>
        refine Asks.after fun fc conv => convCallResult_asks holds _ target (fun y h => ?_) res
        have held := indirectCallConv_named named conv
        split at h
        · rcases mem_append.1 h with h | h
          · exact held y h
          · exact named y (mem_of_mem_drop h)
        · exact held y h
    | none | obj | ro | ext => exact .none (fun _ => rfl) fun r h => by cases h
  | trap => exact .none (fun _ => by cases cap <;> rfl) fun r h => by cases h; exact .stop s trivial
  | unchecked => exact .none (fun _ => by cases cap <;> rfl) fun r h => by cases h; exact .stop s trivial
  | ub u => exact .none (fun _ => by cases cap <;> rfl) fun r h => by cases h

/-! ### Frees -/

/-- Freeing ends a live object, or leaves memory as it was. -/
theorem freeRes_event {p : Word} {mem : Mem} {r : Check × Mem} (done : freeRes p mem = .ok r) :
    r.2 = mem ∨ r.1 = .ok ∧ Event mem r.2 ∧ r.2.bytes = mem.bytes ∧ r.2.aux = mem.aux := by
  have frees : ∀ {cap a}, capFreeRes cap a mem = .ok r → r.2 = mem ∨ r.1 = .ok ∧ Event mem r.2 ∧ r.2.bytes = mem.bytes ∧ r.2.aux = mem.aux := by
    intro cap a done
    have objects : ∀ {base}, objectFreeRes base a mem = .ok r →
        r.2 = mem ∨ r.1 = .ok ∧ Event mem r.2 ∧ r.2.bytes = mem.bytes ∧ r.2.aux = mem.aux := by
      intro base done
      unfold objectFreeRes at done
      split at done
      · cases done
        exact .inl rfl
      · simp only [bind_ok, pure_ok] at done
        obtain ⟨region, found, done⟩ := done
        obtain ⟨h, rfl⟩ := objectRegion_mem found
        split at done
        · subst done
          exact .inl rfl
        · split at done
          · subst done
            exact .inl rfl
          · split at done
            · subst done
              exact .inl rfl
            · rename_i unfreed
              subst done
              have live : region.life = .live := by
                cases life : region.life with
                | live => rfl
                | freed => exact absurd life unfreed
              exact .inr ⟨rfl, .free h live, rfl, rfl⟩
    cases cap with
    | ext => cases done
    | none | fn =>
      cases done
      exact .inl rfl
    | obj | ro => exact objects done
  cases p with
  | int a => exact @frees .none a done
  | ptr a cap => exact frees done
  | limit => cases done

/-! ### Instructions -/

theorem externalCall_alone (holds : HoldsNamed prep env s) {f : Name} {res : CallRes} {args : List Arg} {xs : List Word} {r : Result}
    (done : (do let o ← externalCallOutcome prep f res args xs s; callOutcomeResult o.1 res env o.2) = .ok r) : Alone prep s r := by
  simp only [bind_ok] at done
  obtain ⟨o, called, done⟩ := done
  unfold externalCallOutcome at called
  split at called
  · split at called
    · simp only [bind_ok, pure_ok] at called
      obtain ⟨freed, free, rfl⟩ := called
      rcases freeRes_event free with same | ⟨ok, event, bytes, aux⟩
      · rw [setMem_self same] at done
        split at done
        · cases done
          exact .cont holds
        · cases done
          exact .stop s trivial
      · simp only [ok] at done
        cases done
        have events : Events s.mem freed.2 := .single event
        exact ⟨⟨events, fun _ _ h => (by cases h; exact holds.moved events rfl), fun _ _ h => by cases h⟩, fun _ _ h => (by cases h),
          .inr ⟨bytes, aux⟩⟩
    · cases called
  · cases called

theorem call_asks (holds : HoldsNamed prep env s) (res : CallRes) (callee : Value) (args : List Arg) :
    Asks prep s (fun call => instResult call prep (.call res callee args) env s) := by
  have words : ∀ {xs}, args.mapM (argX prep env) = .ok xs → ∀ x ∈ xs, WordNamed s.mem x :=
    mapM_named fun a _ x read => valueX_named holds read
  cases callee with
  | const => exact .alone fun r h => by cases h
  | tmp n => exact Asks.after fun p _ => Asks.after fun xs read => Asks.after fun check _ => checkedCallResult_asks holds _ _ _ _ (words read)
  | global f =>
    refine Asks.after fun xs read => ?_
    simp only [directCallOutcome]
    cases target : prep.funcs f with
    | some fn => exact .call target (words read) (fun _ => rfl) fun o r returns done => callOutcomeResult_tidy holds returns done
    | none =>
      dsimp only
      split
      · refine .alone fun r h => ?_
        cases h
        exact .stop s trivial
      · exact .alone fun r h => externalCall_alone holds h

theorem let_alone {ctx : ValidCtx} (mode : ctx.mode = .filc) (filc : prep.mode = .filc) {d : Name} {k : Cls} {op : Op}
    {args : List Value} (valid : validInst ctx (.let_ d k op args) = true) (holds : HoldsNamed prep env s) {call : Call} {r : Result}
    (done : instResult call prep (.let_ d k op args) env s = .ok r) : Alone prep s r := by
  unfold instResult at done
  split at done
  any_goals contradiction
  case h_5 is =>
    cases is
    simp only [bind_ok, pure_ok] at done
    obtain ⟨p, found, check, _, rfl⟩ := done
    exact .ofSame holds (fun x => checked_named (p := .ptr p.1 p.2) (localPointer_named holds found)) d
  case h_6 is =>
    cases is
    split at done
    · rename_i known
      cases done
      exact .ofSame holds (fun x h => by cases h; have named := holds.snapshot _ known; exact named) d
    · cases done
  case h_7 is =>
    cases is
    simp only [bind_ok, pure_ok] at done
    obtain ⟨x, read, p, _, check, _, rfl⟩ := done
    exact .ofSame holds (fun y => checked_named (valueX_named holds read)) d
  case h_8 is =>
    cases is
    exact letResult_alone mode filc valid holds done

/-- What an instruction asks of calls. -/
theorem instResult_asks {ctx : ValidCtx} (mode : ctx.mode = .filc) (filc : prep.mode = .filc) {i : Inst}
    (valid : validInst ctx i = true) (holds : HoldsNamed prep env s) : Asks prep s (fun call => instResult call prep i env s) := by
  have stored : ∀ {wd : Width} {addr x : Word} {res : Res Unit × Mem}, WordNamed s.mem x → storeRes .filc wd s.mem addr x = .ok res →
      Alone prep s (storeResResult res.1 env (s.setMem res.2)) := fun named done =>
    .ofStore holds (storeRes_stores holds.discipline named done) (storeRes_effect done).1.1
  have stores : ∀ {wd : Width} {v a : Value} {r : Result}, storeInstResult prep wd v a env s = .ok r → Alone prep s r := by
    intro wd v a r done
    simp only [storeInstResult, filc, bind_ok, pure_ok] at done
    obtain ⟨x, read, addr, _, res, done, rfl⟩ := done
    exact stored (valueX_named holds read) done
  have alone : ∀ {i}, (∀ call, instResult call prep i env s = instResult (fun _ _ _ => .error .noRule) prep i env s) →
      (∀ r, instResult (fun _ _ _ => .error .noRule) prep i env s = .ok r → Alone prep s r) →
      Asks prep s (fun call => instResult call prep i env s) := fun same alone => .none same alone
  cases i with
  | loc | fence | touch => exact .alone fun r h => by cases h; exact .cont holds
  | localAlloc n size =>
    simp only [validInst, Bool.and_eq_true, decide_eq_true_eq] at valid
    exact .alone fun r done => localAllocResult_alone holds valid.1.2 done
  | localLoad d k t n off =>
    refine alone (fun _ => rfl) fun r done => ?_
    simp only [instResult, bind_ok, pure_ok] at done
    obtain ⟨p, _, res, loaded, rfl⟩ := done
    exact .ofRes holds (loadOpRes_yields holds.discipline loaded) (.inl (loadOpRes_effect loaded).1.1) d
  | localStore wd v n off =>
    refine alone (fun _ => rfl) fun r done => ?_
    simp only [instResult, bind_ok, pure_ok] at done
    obtain ⟨p, _, x, read, res, done, rfl⟩ := done
    exact stored (valueX_named holds read) done
  | let_ d k op args =>
    refine alone (fun call => ?_) fun r done => let_alone mode filc valid holds done
    unfold instResult
    split <;> first | rfl | contradiction
  | flight d op args lower =>
    refine alone (fun _ => rfl) fun r done => ?_
    simp only [instResult, bind_ok, pure_ok] at done
    obtain ⟨xs, _, a, _, c, read, n, _, rfl⟩ := done
    exact .ofSame holds (fun x h => by cases h; exact flightCap_named holds read) d
  | store wd v a => exact .alone fun r => stores
  | atomicStore wd v a =>
    refine alone (fun _ => rfl) fun r done => ?_
    simp only [instResult] at done
    split at done
    · exact stores done
    · cases done
  | access k a size align =>
    refine alone (fun _ => rfl) fun r done => ?_
    simp only [instResult, filc, bind_ok, pure_ok] at done
    obtain ⟨p, _, check, _, rfl⟩ := done
    exact .ofCheck holds _
  | asmFixed m ins outs =>
    refine alone (fun _ => rfl) fun r done => ?_
    simp only [instResult] at done
    split at done
    · cases done
      exact .cont holds
    · simp only [bind_ok, pure_ok] at done
      obtain ⟨xs, _, rfl⟩ := done
      exact .stop s trivial
  | rawStore wd off v a =>
    refine alone (fun _ => rfl) fun r done => ?_
    simp only [instResult, bind_ok, pure_ok] at done
    obtain ⟨x, read, p, _, res, done, rfl⟩ := done
    exact .ofStore holds (storeRes_stores holds.discipline (valueX_named holds read) done).raw (storeRes_effect done).1.1
  | rawStorePointer off v a es =>
    refine alone (fun _ => rfl) fun r done => ?_
    simp only [instResult, bind_ok, pure_ok] at done
    obtain ⟨x, read, p, _, check, test, res, done, rfl⟩ := done
    exact .ofStore holds (pointerStoreEffectsRes_stores holds.discipline test (valueX_named holds read) done)
      (pointerStoreEffectsRes_effect done).1.1
  | call res callee args => exact call_asks holds res callee args
  | rawCall res callee args =>
    exact Asks.after fun p _ => Asks.after fun xs read => Asks.after fun check _ =>
      checkedCallResult_asks holds _ _ _ _ (mapM_named (fun a _ x read => valueX_named holds read) read)

end

end Nanofil
