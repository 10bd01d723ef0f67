import Nanofil.Proofs

/-! What any instruction does to a run: its objects stay in order, and the environment
changes at its own definitions. -/
namespace Nanofil
open Results

def Result.st : Result → St
  | .cont _ s => s
  | .stop _ s => s

def Outcome.Checked (out : Outcome) : Prop := ∀ why, out ≠ .unchecked why

def Result.Checked (r : Result) : Prop := ∀ why s, r ≠ .stop (.unchecked why) s

/-- The environment differs at the names defined, and is doomed as before. -/
def Keeps (ds : List Name) (env env' : Env) : Prop :=
  (∀ n ∉ ds, env'.vals n = env.vals n) ∧ env'.doomed = env.doomed

theorem Keeps.refl (ds : List Name) (env : Env) : Keeps ds env env := ⟨fun _ _ => rfl, rfl⟩

variable {d f : Name} {ds : List Name} {env env' : Env} {s s' : St} {i : Inst} {r : Result} {res : CallRes} {args : List Arg}
  {prep : Prep} {xs : List Word} {cap : Cap} {ctx : ValidCtx} {op : Op}

theorem Keeps.put (mem : d ∈ ds) (env : Env) (x : Word) : Keeps ds env (env.put d x) := by
  refine ⟨fun n other => ?_, rfl⟩
  have differs : n ≠ d := fun same => other (same ▸ mem)
  simp [Env.put, Nanofil.put, differs]

theorem Keeps.trans {env1 env2 env3 : Env} (first : Keeps ds env1 env2) (second : Keeps ds env2 env3) : Keeps ds env1 env3 :=
  ⟨fun n other => (second.1 n other).trans (first.1 n other), second.2.trans first.2⟩

theorem Keeps.mono {ds' : List Name} (keeps : Keeps ds env env') (sub : ∀ d ∈ ds, d ∈ ds') :
    Keeps ds' env env' := ⟨fun n other => keeps.1 n fun h => other (sub n h), keeps.2⟩

/-- The objects are in order, and none is gone. -/
structure Later (mem mem' : Mem) : Prop where
  regions : RegionsOk mem'
  evolves : Evolves mem mem'

theorem Later.refl {mem : Mem} (ok : RegionsOk mem) : Later mem mem := ⟨ok, .refl mem⟩

theorem Later.trans {m1 m2 m3 : Mem} (first : Later m1 m2) (second : Later m2 m3) : Later m1 m3 :=
  ⟨second.regions, first.evolves.trans second.evolves⟩

theorem SameObjects.later {mem mem' : Mem} (same : SameObjects mem mem') (ok : RegionsOk mem) : Later mem mem' :=
  ⟨same.regionsOk ok, same.evolves⟩

/-- Calls of the module's functions from a memory that `I` holds of are checked. -/
def CallsChecked (I : Mem → Prop) (prep : Prep) (call : Call) : Prop :=
  ∀ n f xs s r, prep.funcs n = some f → I s.mem → call f xs s = .ok r → r.1.Checked

/-- Calls of the module's functions keep the objects in order. -/
def CallsLater (prep : Prep) (call : Call) : Prop :=
  ∀ n f xs s r, prep.funcs n = some f → RegionsOk s.mem → call f xs s = .ok r → Later s.mem r.2.mem

structure InstEffect (i : Inst) (s : St) (r : Result) : Prop where
  later : Later s.mem r.st.mem
  same : evidencePreserving i = true → SameObjects s.mem r.st.mem

/-! ### Results -/

@[simp] theorem resResult_st (res : Res Word) (d : Name) (env : Env) (s : St) : (resResult res d env s).st = s := by
  cases res <;> rfl

@[simp] theorem storeResResult_st (res : Res Unit) (env : Env) (s : St) : (storeResResult res env s).st = s := by
  cases res <;> rfl

theorem resResult_cont {res : Res Word}
    (done : resResult res d env s = .cont env' s') : ∃ x, res = .val x ∧ env' = env.put d x ∧ s' = s := by
  cases res <;> cases done
  exact ⟨_, rfl, rfl, rfl⟩

theorem storeResResult_cont {res : Res Unit}
    (done : storeResResult res env s = .cont env' s') : res = .val () ∧ env' = env ∧ s' = s := by
  cases res <;> cases done
  exact ⟨rfl, rfl, rfl⟩

theorem resResult_checked {res : Res Word} : (resResult res d env s).Checked ↔ res.Checked := by
  cases res <;> simp [resResult, Result.Checked, Res.Checked]

theorem storeResResult_checked {res : Res Unit} : (storeResResult res env s).Checked ↔ res.Checked := by
  cases res <;> simp [storeResResult, Result.Checked, Res.Checked]

theorem InstEffect.ofRes {mem : Mem} {res : Res Word}
    (later : Later s.mem mem) (same : evidencePreserving i = true → SameObjects s.mem mem) :
    InstEffect i s (resResult res d env (s.setMem mem)) :=
  ⟨by simpa [St.setMem] using later, fun p => by simpa [St.setMem] using same p⟩

theorem InstEffect.ofStoreRes {mem : Mem} {res : Res Unit} (later : Later s.mem mem)
    (same : evidencePreserving i = true → SameObjects s.mem mem) :
    InstEffect i s (storeResResult res env (s.setMem mem)) :=
  ⟨by simpa [St.setMem] using later, fun p => by simpa [St.setMem] using same p⟩

theorem InstEffect.ofSame (ok : RegionsOk s.mem) (same : r.st = s) : InstEffect i s r := by
  refine ⟨?_, fun _ => ?_⟩ <;> rw [same]
  · exact .refl ok
  · exact .refl _

theorem retsEnv_keeps : ∀ {tos : List (Name × Cls)} {xs : List Word} {env env' : Env},
    retsEnv tos xs env = .ok env' → Keeps (tos.map (·.1)) env env' := by
  intro tos
  induction tos with
  | nil =>
    intro xs env env' done
    cases xs <;> cases done
    exact .refl _ _
  | cons t tos ih =>
    intro xs env env' done
    cases xs with
    | nil => cases done
    | cons x xs =>
      simp only [retsEnv, toWordEnv, bind_ok, pure_ok] at done
      obtain ⟨_, ⟨w, _, rfl⟩, done⟩ := done
      exact (Keeps.put List.mem_cons_self env w).trans
        ((ih done).mono fun d h => List.mem_cons_of_mem _ h)

/-- What a call's outcome gives its caller. -/
theorem callOutcomeResult_effect {out : Outcome} (done : callOutcomeResult out res env s = .ok r) : r.st = s ∧
      (∀ env' s', r = .cont env' s' → Keeps ((resultTemps res).map (·.1)) env env') ∧ (out.Checked → r.Checked) := by
  have keeps : ∀ {ds : List Name} {env1 : Env}, Keeps ds env env1 → r = .cont env1 s → r.st = s ∧
      (∀ env' s', r = .cont env' s' → Keeps ds env env') ∧ (out.Checked → r.Checked) := by
    rintro ds env1 kept rfl
    exact ⟨rfl, fun _ _ h => by cases h; exact kept, fun _ => by simp [Result.Checked]⟩
  unfold callOutcomeResult at done
  split at done
  · simp only [toWordEnv, bind_ok, pure_ok] at done
    obtain ⟨_, ⟨w, _, rfl⟩, rfl⟩ := done
    exact keeps (.put (by simp [resultTemps]) env w) rfl
  · cases done
    exact keeps (.refl _ env) rfl
  · cases done
  · simp only [bind_ok, pure_ok] at done
    obtain ⟨env1, bound, rfl⟩ := done
    exact keeps (retsEnv_keeps bound) rfl
  · cases done
    exact keeps (.refl _ env) rfl
  · cases done
  · cases done
    exact keeps (.refl _ env) rfl
  · cases done
  · cases done
    refine ⟨rfl, by simp, fun checked why s' h => ?_⟩
    cases h
    exact checked why rfl

/-! ### Calls -/

theorem convertedOutcome_checked {caller callee : List Cls} {out out' : Outcome} (checked : out.Checked)
    (done : convertedOutcome caller callee out = .ok out') : out'.Checked := by
  unfold convertedOutcome at done
  split at done
  · simp only [bind_ok, pure_ok] at done
    obtain ⟨ys, _, rfl⟩ := done
    intro why
    unfold wordsOutcome
    split <;> simp
  · cases done
    exact checked

theorem freeRes_later {p : Word} {mem : Mem} {r : Check × Mem} (ok : RegionsOk mem) (done : freeRes p mem = .ok r) :
    Later mem r.2 := by
  have object : ∀ {base a : Int} {r : Check × Mem}, objectFreeRes base a mem = .ok r → Later mem r.2 := by
    intro base a r done
    unfold objectFreeRes at done
    split at done
    · cases done
      exact .refl ok
    · simp only [bind_ok, pure_ok] at done
      obtain ⟨region, found, rfl⟩ := done
      split
      · exact .refl ok
      · split
        · exact .refl ok
        · split
          · exact .refl ok
          · obtain ⟨mem_r, based⟩ := objectRegion_mem found
            exact ⟨freeRegion_ok ok mem_r based, freeRegion_evolves found⟩
  have cap : ∀ {c : Cap} {a : Int} {r : Check × Mem}, capFreeRes c a mem = .ok r → Later mem r.2 := by
    intro c a r done
    cases c with
    | ext n => cases done
    | none | fn _ => cases done; exact .refl ok
    | obj base | ro base => exact object done
  cases p with
  | int a => exact cap (show capFreeRes .none a mem = .ok r from done)
  | ptr a c => exact cap done
  | limit c n => cases done

theorem externalCallOutcome_later
    {r : Outcome × St} (ok : RegionsOk s.mem) (done : externalCallOutcome prep f res args xs s = .ok r) :
    Later s.mem r.2.mem := by
  unfold externalCallOutcome at done
  split at done
  · split at done
    · simp only [bind_ok, pure_ok] at done
      obtain ⟨r1, freed, rfl⟩ := done
      simpa [St.setMem] using freeRes_later ok freed
    · cases done
  · cases done

theorem externalCallOutcome_checked {r : Outcome × St} (done : externalCallOutcome prep f res args xs s = .ok r) : r.1.Checked := by
  unfold externalCallOutcome at done
  split at done
  · split at done
    · simp only [bind_ok, pure_ok] at done
      obtain ⟨r1, freed, rfl⟩ := done
      intro why
      dsimp only
      split <;> simp
    · cases done
  · cases done

theorem directCallOutcome_later {call : Call} (calls : CallsLater prep call) {r : Outcome × St} (ok : RegionsOk s.mem)
    (done : directCallOutcome call prep f res args xs s = .ok r) : Later s.mem r.2.mem := by
  unfold directCallOutcome at done
  split at done
  · rename_i fn named
    exact calls f fn xs s r named ok done
  · split at done
    · cases done
      exact .refl ok
    · exact externalCallOutcome_later ok done

theorem directCallOutcome_checked {I : Mem → Prop} {call : Call} (calls : CallsChecked I prep call) {r : Outcome × St} (ok : I s.mem)
    (done : directCallOutcome call prep f res args xs s = .ok r) : r.1.Checked := by
  unfold directCallOutcome at done
  split at done
  · rename_i fn named
    exact calls f fn xs s r named ok done
  · split at done
    · cases done
      simp [Outcome.Checked]
    · exact externalCallOutcome_checked done

/-- An indirect call traps, or makes the call its target names. -/
theorem checkedCallResult_cases {call : Call} {check : Res Unit}
    (done : checkedCallResult call prep check cap res args xs env s = .ok r) :
    (∃ out, r = .stop out s ∧ (check.Checked → out.Checked)) ∨
      ∃ n f ys o out, prep.funcs n = some f ∧ call f ys s = .ok o ∧ (o.1.Checked → out.Checked) ∧
        callOutcomeResult out res env o.2 = .ok r := by
  unfold checkedCallResult at done
  split at done
  · split at done
    · cases done
    · rename_i fn named
      simp only [bind_ok] at done
      obtain ⟨fc, _, done⟩ := done
      unfold convCallResult at done
      split at done
      · cases done
        exact .inl ⟨_, rfl, fun _ => by simp [Outcome.Checked]⟩
      · simp only [bind_ok] at done
        obtain ⟨o, called, done⟩ := done
        exact .inr ⟨_, fn, _, o, o.1, named, called, id, done⟩
      · simp only [bind_ok] at done
        obtain ⟨o, called, out, converted, done⟩ := done
        exact .inr ⟨_, fn, _, o, out, named, called, fun h => convertedOutcome_checked h converted, done⟩
  · cases done
  · cases done
    exact .inl ⟨_, rfl, fun _ => by simp [Outcome.Checked]⟩
  · cases done
    exact .inl ⟨_, rfl, fun checked => absurd rfl (checked _)⟩
  · cases done

theorem checkedCallResult_later {call : Call} (calls : CallsLater prep call) {check : Res Unit}
    (ok : RegionsOk s.mem) (done : checkedCallResult call prep check cap res args xs env s = .ok r) :
    Later s.mem r.st.mem := by
  rcases checkedCallResult_cases done with ⟨out, rfl, _⟩ | ⟨n, f, ys, o, out, named, called, _, result⟩
  · exact .refl ok
  · rw [(callOutcomeResult_effect result).1]
    exact calls n f ys s o named ok called

theorem checkedCallResult_checked {I : Mem → Prop} {call : Call} (calls : CallsChecked I prep call) {check : Res Unit}
    (ok : I s.mem) (checked : check.Checked)
    (done : checkedCallResult call prep check cap res args xs env s = .ok r) : r.Checked := by
  rcases checkedCallResult_cases done with ⟨out, rfl, h⟩ | ⟨n, f, ys, o, out, named, called, h, result⟩
  · intro why s' same
    cases same
    exact h checked why rfl
  · exact (callOutcomeResult_effect result).2.2 (h (calls n f ys s o named ok called))

theorem checkedCallResult_keeps {call : Call} {check : Res Unit}
    (done : checkedCallResult call prep check cap res args xs env s = .ok (.cont env' s')) :
    Keeps ((resultTemps res).map (·.1)) env env' := by
  rcases checkedCallResult_cases done with ⟨out, same, _⟩ | ⟨n, f, ys, o, out, _, _, _, result⟩
  · cases same
  · exact (callOutcomeResult_effect result).2.1 env' s' rfl

/-! ### Instructions -/

theorem validLet_uses {k : Cls} {args : List Value} (valid : validInst ctx (.let_ d k op args) = true) (notCopy : op ≠ .copy) :
    opArity op = some args.length ∧ opResultOk ctx.mode op k = true ∧
      ∃ ks, opArgClasses op k ctx.mode = some ks ∧ validUses ctx ks args = true := by
  simp only [validInst, validLet] at valid
  split at valid
  · exact absurd rfl notCopy
  · simp only [Bool.and_eq_true, decide_eq_true_eq] at valid
    obtain ⟨⟨⟨⟨_, arity⟩, result⟩, _⟩, uses⟩ := valid
    split at uses
    · rename_i ks classes
      exact ⟨arity, result, ks, classes, uses⟩
    · cases uses

/-- A value that may be read at `l` in a Fil-C module is read as no negative number. -/
theorem valueX_nonneg (filc : ctx.mode = .filc) {v : Value} {n : Int}
    (valid : validUse ctx .l v = true) (read : valueX prep env .l v = .ok (.int n)) : 0 ≤ n := by
  cases v with
  | global g => simp [validUse, symbolUseOk, filc] at valid
  | const c =>
    have value : valueX prep env .l (.const c) = .ok (.int (c % 18446744073709551616)) := rfl
    rw [value] at read
    cases read
    exact Int.emod_nonneg _ (by decide)
  | tmp x =>
    simp only [valueX] at read
    split at read
    · rename_i w _
      cases w with
      | int z =>
        cases read
        exact Int.emod_nonneg _ (by decide)
      | ptr a c => cases read
      | limit c z => cases read
    · cases read

/-- The size of an allocation is read as no negative number. -/
theorem allocSize_nonneg (mode : ctx.mode = .filc) {k : Cls} {args : List Value}
    (valid : validInst ctx (.let_ d k op args) = true) {ks : List Cls}
    (classes : orNoRule (opArgClasses op k .filc) = .ok ks) (read : valuesX prep env ks args = .ok xs) :
    ∀ align size, op = .alloc align → xs = [.int size] → 0 ≤ size := by
  rintro align size rfl rfl
  obtain ⟨_, _, ks', known, uses⟩ := validLet_uses valid (by simp)
  cases (orNoRule_ok.1 classes)
  cases known
  cases args with
  | nil => cases read
  | cons v vs =>
    cases vs with
    | cons v2 vs => simp [validUses] at uses
    | nil =>
      obtain ⟨x, same, value⟩ := valuesX_one read
      cases same
      simp only [validUses, Bool.and_eq_true] at uses
      exact valueX_nonneg mode uses.1 value

theorem letResult_effect (mode : ctx.mode = .filc) (filc : prep.mode = .filc) {k : Cls} {args : List Value} (valid : validInst ctx (.let_ d k op args) = true) (ok : RegionsOk s.mem) (done : letResult prep d k op args env s = .ok r) :
    InstEffect (.let_ d k op args) s r := by
  simp only [letResult, filc, bind_ok, pure_ok] at done
  obtain ⟨classes, hclasses, xs, read, res, ran, rfl⟩ := done
  obtain ⟨regions, evolves⟩ := opRes_objects ran ok (allocSize_nonneg mode valid hclasses read)
  refine .ofRes ⟨regions, evolves⟩ fun preserving => ?_
  refine opRes_same ran fun n alloc => ?_
  subst alloc
  cases preserving

theorem localAllocResult_effect {n : Name} {size : Int}
    (ok : RegionsOk s.mem) (positive : 0 ≤ size) (done : localAllocResult prep n size env s = .ok r) :
    InstEffect (.localAlloc n size) s r := by
  unfold localAllocResult at done
  split at done
  · split at done
    · rename_i base mem alloc
      cases done
      obtain ⟨regions, evolves⟩ := allocBase_objects (by simp) ok positive alloc
      exact ⟨⟨regions, evolves⟩, fun h => by cases h⟩
    · cases done
      exact .ofSame ok rfl
  · cases done

/-- An instruction keeps the objects in order; one that keeps evidence leaves them alone. -/
theorem instResult_effect (mode : ctx.mode = .filc) (filc : prep.mode = .filc)
    {call : Call} (calls : CallsLater prep call) (valid : validInst ctx i = true) (ok : RegionsOk s.mem) (done : instResult call prep i env s = .ok r) : InstEffect i s r := by
  have called : evidencePreserving i = false → Later s.mem r.st.mem → InstEffect i s r :=
    fun preserving later => ⟨later, fun p => by rw [preserving] at p; cases p⟩
  unfold instResult at done
  split at done
  · cases done
    exact .ofSame ok rfl
  · simp only [validInst, Bool.and_eq_true, decide_eq_true_eq] at valid
    exact localAllocResult_effect ok valid.1.2 done
  · simp only [bind_ok, pure_ok] at done
    obtain ⟨p, _, res, loaded, rfl⟩ := done
    have same := (loadOpRes_effect loaded).1
    exact .ofRes (same.later ok) fun _ => same
  · simp only [bind_ok, pure_ok] at done
    obtain ⟨p, _, x, _, res, stored, rfl⟩ := done
    have same := (storeRes_effect stored).1
    exact .ofStoreRes (same.later ok) fun _ => same
  · simp only [bind_ok, pure_ok] at done
    obtain ⟨p, _, check, _, rfl⟩ := done
    exact .ofSame ok (by simp)
  · split at done
    · cases done
      exact .ofSame ok (by simp)
    · cases done
  · simp only [bind_ok, pure_ok] at done
    obtain ⟨x, _, p, _, check, _, rfl⟩ := done
    exact .ofSame ok (by simp)
  · exact letResult_effect mode filc valid ok done
  · simp only [bind_ok, pure_ok] at done
    obtain ⟨xs, _, a, _, c, _, n, _, rfl⟩ := done
    exact .ofSame ok (by simp)
  · simp only [storeInstResult, bind_ok, pure_ok] at done
    obtain ⟨x, _, addr, _, res, stored, rfl⟩ := done
    have same := (storeRes_effect stored).1
    exact .ofStoreRes (same.later ok) fun _ => same
  · split at done
    · simp only [storeInstResult, bind_ok, pure_ok] at done
      obtain ⟨x, _, addr, _, res, stored, rfl⟩ := done
      have same := (storeRes_effect stored).1
      exact .ofStoreRes (same.later ok) fun _ => same
    · cases done
  · cases done
    exact .ofSame ok rfl
  · split at done
    · simp only [bind_ok, pure_ok] at done
      obtain ⟨p, _, check, _, rfl⟩ := done
      exact .ofSame ok (by simp)
    · cases done
      exact .ofSame ok rfl
  · cases done
    exact .ofSame ok rfl
  · split at done
    · cases done
      exact .ofSame ok rfl
    · simp only [bind_ok, pure_ok] at done
      obtain ⟨xs, _, rfl⟩ := done
      exact .ofSame ok rfl
  · simp only [bind_ok, pure_ok] at done
    obtain ⟨x, _, p, _, res, stored, rfl⟩ := done
    have same := (storeRes_effect stored).1
    exact .ofStoreRes (same.later ok) fun _ => same
  · simp only [bind_ok, pure_ok] at done
    obtain ⟨x, _, p, _, check, _, res, stored, rfl⟩ := done
    have same := (pointerStoreEffectsRes_effect stored).1
    exact .ofStoreRes (same.later ok) fun _ => same
  · simp only [bind_ok] at done
    obtain ⟨xs, _, out, direct, done⟩ := done
    refine called rfl ?_
    rw [(callOutcomeResult_effect done).1]
    exact directCallOutcome_later calls ok direct
  · simp only [bind_ok] at done
    obtain ⟨p, _, xs, _, check, _, done⟩ := done
    exact called rfl (checkedCallResult_later calls ok done)
  · cases done
  · simp only [bind_ok] at done
    obtain ⟨p, _, xs, _, check, _, done⟩ := done
    exact called rfl (checkedCallResult_later calls ok done)

theorem storeValueClass_eq (wd : Width) : storeValueClass wd = widthValueClass wd := by
  cases wd <;> rfl

def instOp : Op → Bool
  | .vaArgs | .checkLocal .. | .checkFunction => true
  | _ => false

/-- An operation that no instruction runs by a rule of its own. -/
theorem instResult_let {call : Call} {k : Cls} {args : List Value} (other : instOp op = false) :
    instResult call prep (.let_ d k op args) env s = letResult prep d k op args env s := by
  unfold instResult
  split <;> first | rfl | simp_all [instOp]

/-- An instruction changes the environment at its own definitions alone. -/
theorem instResult_keeps {call : Call}
    (done : instResult call prep i env s = .ok (.cont env' s')) : Keeps (instDefs i) env env' := by
  have ofRes : ∀ {res : Res Word} {d : Name} {s : St}, d ∈ instDefs i →
      resResult res d env s = .cont env' s' → Keeps (instDefs i) env env' := by
    intro res d s mem_d h
    obtain ⟨x, _, rfl, _⟩ := resResult_cont h
    exact .put mem_d env x
  have ofStore : ∀ {res : Res Unit} {s : St}, storeResResult res env s = .cont env' s' →
      Keeps (instDefs i) env env' := by
    intro res s h
    obtain ⟨_, rfl, _⟩ := storeResResult_cont h
    exact .refl _ _
  unfold instResult at done
  split at done
  · cases done
    exact .refl _ _
  · unfold localAllocResult at done
    split at done
    · split at done <;> cases done
      exact .refl _ _
    · cases done
  · simp only [bind_ok, pure_ok] at done
    obtain ⟨p, _, res, _, h⟩ := done
    exact ofRes (by simp [instDefs, instTempDefs]) h
  · simp only [bind_ok, pure_ok] at done
    obtain ⟨p, _, x, _, res, _, h⟩ := done
    exact ofStore h
  · simp only [bind_ok, pure_ok] at done
    obtain ⟨p, _, check, _, h⟩ := done
    exact ofRes (by simp [instDefs, instTempDefs]) h
  · split at done
    · simp only [Except.ok.injEq] at done
      exact ofRes (by simp [instDefs, instTempDefs]) done
    · cases done
  · simp only [bind_ok, pure_ok] at done
    obtain ⟨x, _, p, _, check, _, h⟩ := done
    exact ofRes (by simp [instDefs, instTempDefs]) h
  · simp only [letResult, bind_ok, pure_ok] at done
    obtain ⟨ks, _, xs, _, res, _, h⟩ := done
    exact ofRes (by simp [instDefs, instTempDefs]) h
  · simp only [bind_ok, pure_ok] at done
    obtain ⟨xs, _, a, _, c, _, n, _, h⟩ := done
    exact ofRes (by simp [instDefs, instTempDefs]) h
  · simp only [storeInstResult, bind_ok, pure_ok] at done
    obtain ⟨x, _, addr, _, res, _, h⟩ := done
    exact ofStore h
  · split at done
    · simp only [storeInstResult, bind_ok, pure_ok] at done
      obtain ⟨x, _, addr, _, res, _, h⟩ := done
      exact ofStore h
    · cases done
  · cases done
    exact .refl _ _
  · split at done
    · simp only [bind_ok, pure_ok] at done
      obtain ⟨p, _, check, _, h⟩ := done
      exact ofStore h
    · cases done
      exact .refl _ _
  · cases done
    exact .refl _ _
  · split at done
    · cases done
      exact .refl _ _
    · simp only [bind_ok, pure_ok] at done
      obtain ⟨xs, _, h⟩ := done
      cases h
  · simp only [bind_ok, pure_ok] at done
    obtain ⟨x, _, p, _, res, _, h⟩ := done
    exact ofStore h
  · simp only [bind_ok, pure_ok] at done
    obtain ⟨x, _, p, _, check, _, res, _, h⟩ := done
    exact ofStore h
  · simp only [bind_ok] at done
    obtain ⟨xs, _, out, _, done⟩ := done
    exact (callOutcomeResult_effect done).2.1 env' s' rfl
  · simp only [bind_ok] at done
    obtain ⟨p, _, xs, _, check, _, done⟩ := done
    exact checkedCallResult_keeps done
  · cases done
  · simp only [bind_ok] at done
    obtain ⟨p, _, xs, _, check, _, done⟩ := done
    exact checkedCallResult_keeps done

end Nanofil
