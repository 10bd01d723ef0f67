import Nanofil.Conversions
import Nanofil.Modules

/-! The calls of an accepted function, and with them every instruction: none is stuck. -/
namespace Nanofil
open List Results

/-- A module's functions and mode, as a run of it has them. -/
structure Prepared (m : Module) (prep : Prep) : Prop where
  valid : validModule m = true
  mode : prep.mode = moduleMode m
  funcs : prep.funcs = preparedFuncs m

section
variable {m : Module} {prep : Prep} (prepared : Prepared m prep)
include prepared

theorem Prepared.func {f : Func} (mem_f : f ∈ m.funcs) : ValidFunc m prep.mode (moduleStage m) f :=
  prepared.mode ▸ validModule_func prepared.valid mem_f

variable {g : Name} {xs : List Word}

theorem Prepared.named {f : Func} (named : prep.funcs g = some f) : f ∈ m.funcs :=
  preparedFuncs_mem (prepared.funcs ▸ named)

theorem Prepared.bodied {f : Func} (named : funcNamed m g = some f) : prep.funcs g = some f := by
  have mem_f := mem_of_find?_eq_some named
  obtain ⟨entry, rest, blocks, _⟩ := (prepared.func mem_f).entryBlock
  obtain ⟨is, before, after, split, others⟩ := find?_eq_some_iff_append.1 named
  have found : Nanofil.bodied m g = some f := by
    refine find?_eq_some_iff_append.2 ⟨?_, before, after, split, fun f' h => ?_⟩
    · have same : f.name = g := by simpa using is
      simp [same, blocks]
    · have other : ¬ f'.name = g := by simpa using others f' h
      simp [other]
  rw [prepared.funcs, preparedFuncs, found]

variable {f : Func} {i : Inst} {env : Env} {s : St} {call : Call} {n : Nat} (calls : CallsOk m prep n call)
  (fuel : s.fuel < n) (ok : MemOk prep s.mem) (globals : GlobalsOk m prep s.mem)
  (notAlloc : ∀ n size, i ≠ .localAlloc n size) {res : CallRes} {args : List Arg}
  (defs : instDefs i = (resultTemps res).map (·.1)) (defined : ∀ t ∈ resultTemps res, classOf f t.1 = some t.2)
include calls fuel ok globals notAlloc defs defined

theorem convCallResult_ends {fn : Func} (mem_fn : fn ∈ m.funcs) {ys : List Word} (typed : ArgsOk prep s.mem fn.params ys)
    (fits : indirectFits res args = true) (passes : ∀ k ∈ resultWords res, Passes k) {callee : List Cls}
    (words : returnWords fn.ret = .ok callee) (length : (resultWords res).length ≤ callee.length) :
    Ends Gap (InstOk prep f i env s) (convCallResult call
      (if sameWords (resultWords res) callee then .same else .conv (resultWords res) callee) fn ys res env s) := by
  have accepted := prepared.func mem_fn
  have noX : fn.ret ≠ .cls .x := fun h => by
    have noX := accepted.noX
    simp [usesX, h] at noX
  have called := calls fn mem_fn ys s typed ok globals fuel
  split
  · rename_i same
    refine called.bind fun r returned => callOutcomeResult_ends returned.left returned.locals notAlloc defs defined ?_
    obtain ⟨ks, known, _, outcomes⟩ := returnWords_ends prep r.2.mem accepted.ret noX
    rw [words] at known
    cases known
    rcases outcomes r.1 returned.outcome with ⟨xs, _, is, words⟩ | ⟨_, stops⟩
    · rw [is]
      exact wordsOutcome_read fits (sameWords_args same words)
    · exact stops.read
  · refine called.bind fun r returned => ?_
    obtain ⟨ks, known, passesK, outcomes⟩ := returnWords_ends prep r.2.mem accepted.ret noX
    rw [words] at known
    cases known
    have converted : Ends Gap (ReadOk prep r.2.mem res) (convertedOutcome (resultWords res) callee r.1) := by
      unfold convertedOutcome
      rcases outcomes r.1 returned.outcome with ⟨xs, is, _, words⟩ | ⟨none, stops⟩
      · rw [is]
        exact (genericWords_ends words passesK passes length).bind fun ys typed => Ends.pure (wordsOutcome_read fits typed)
      · rw [none]
        exact Ends.ok stops.read
    exact converted.bind fun out readOk =>
      callOutcomeResult_ends returned.left returned.locals notAlloc defs defined readOk

/-- A call of a function whose target is known: its signature decides what is passed, or traps. -/
theorem targetCall_ends {c : Cap} (cap : CapOk prep s.mem c) (target : c = .fn g)
    (words : ArgWords prep s.mem args xs) (fits : indirectFits res args = true)
    (passes : ∀ k ∈ resultWords res, Passes k) (passesArgs : ∀ a ∈ args, Passes a.cls) :
    Ends Gap (InstOk prep f i env s) (checkedCallResult call prep (.val ()) c res args xs env s) := by
  subst target
  obtain ⟨fn, known⟩ := Option.isSome_iff_exists.1 (cap.2 g rfl)
  have mem_fn := prepared.named known
  have accepted := prepared.func mem_fn
  simp only [checkedCallResult, known]
  refine (indirectCallConv_ends accepted words passesArgs).bind fun fc conv => ?_
  rcases conv with ⟨why, rfl⟩ | ⟨callee, returned, length, is, typed⟩
  · exact Ends.ok ⟨.same ok, rfl, trivial⟩
  · rw [is]
    exact convCallResult_ends prepared calls fuel ok globals notAlloc defs defined mem_fn (indirectArgs words typed) fits
      passes returned length

theorem checkedCall_ends {a : Int} {c : Cap} (cap : CapOk prep s.mem c) {checks : Check → Res Unit}
    (raw : checks = checkToRes ∨ checks = rawRes ∘ checkToRes)
    (words : ArgWords prep s.mem args xs) (fits : indirectFits res args = true)
    (passes : ∀ k ∈ resultWords res, Passes k) (passesArgs : ∀ a ∈ args, Passes a.cls) :
    Ends Gap (InstOk prep f i env s) (do
      let check ← functionCheckRes prep (a, c)
      checkedCallResult call prep (checks check) c res args xs env s) := by
  refine (functionCheckRes_ends cap).bind fun check target => ?_
  cases check with
  | trap why =>
    have stopped : ∀ {out : Outcome}, out.Stops → InstOk prep f i env s (.stop out s) := fun stops => ⟨.same ok, rfl, stops⟩
    rcases raw with rfl | rfl <;> cases c <;> exact Ends.ok (stopped trivial)
  | ok =>
    obtain ⟨g, target⟩ := target rfl
    have step : checks .ok = .val () := by rcases raw with rfl | rfl <;> rfl
    rw [step]
    exact targetCall_ends prepared calls fuel ok globals notAlloc defs defined cap target words fits passes passesArgs

omit defs defined notAlloc in
/-- A direct call, of a function of the module, of a symbol that is none, or of code outside it. -/
theorem directCall_ends (words : ArgWords prep s.mem args xs)
    (fits : ∀ fn, prep.funcs g = some fn → callArgsOk fn args = true ∧ callResultOk res fn.ret = true)
    (any : ∀ r ∈ resultTemps res, anyClass r.2 = true) :
    Ends Gap (fun r => ReadOk prep r.2.mem res r.1 ∧ Left prep s r.2 ∧ r.2.locals = s.locals)
      (directCallOutcome call prep g res args xs s) := by
  unfold directCallOutcome
  cases known : prep.funcs g with
  | some fn =>
    have typed := fits fn known
    exact (calls fn (prepared.named known) xs s (words.direct typed.1) ok globals fuel).mono fun r returned =>
      ⟨returned.outcome.direct typed.2 any, returned.left, returned.locals⟩
  | none =>
    dsimp only
    split
    · exact Ends.ok ⟨Outcome.Stops.read trivial, .same ok, rfl⟩
    · unfold externalCallOutcome
      split
      · rename_i filc
        split
        · cases words with
          | cons head _ =>
            refine (freeRes_ends ok head).bind fun r ⟨ok', grows⟩ => Ends.pure ⟨?_, .setMem ok' grows fun plain => ?_, rfl⟩
            · cases r.1 <;> exact trivial
            · rw [filc] at plain
              cases plain
        · exact .inr ⟨_, rfl⟩
      · exact .inr ⟨_, rfl⟩

end

section
variable {m : Module} {prep : Prep} {f : Func} {low : Int} {b : Block} {k : Nat} {i : Inst} {env : Env}
  {s : St} {call : Call} {n : Nat} (prepared : Prepared m prep) (mem_f : f ∈ m.funcs) (limits : LimitsRead f)
  (mem_b : b ∈ f.blocks) (at_ : b.insts[k]? = some i) (here : InOrder m prep f low b k env s)
  (calls : CallsOk m prep n call) (fuel : s.fuel < n)
include prepared mem_f mem_b at_

theorem callClasses (res : CallRes) (args : List Arg) (is : callRes i = some (res, args))
    (temps : instTempDefs i = resultTemps res) :
    (∀ r ∈ resultTemps res, anyClass r.2 = true) ∧ ∀ a ∈ args, proofClass a.cls = false := by
  have valid := prepared.func mem_f
  have proofs := valid.proofs
  simp only [proofClassDefs, Bool.not_eq_true', Bool.or_eq_false_iff, any_eq_false] at proofs
  have notProofs := (proofs.2 b mem_b)
  simp only [Bool.not_eq_true, Bool.or_eq_false_iff, any_eq_false] at notProofs
  have none := notProofs.2 i (mem_of_getElem? at_)
  simp only [callProofs, is, Option.any_some, Bool.not_eq_true, Bool.or_eq_false_iff, any_eq_false] at none
  refine ⟨fun r h => ?_, fun a h => by simpa using none.2 a h⟩
  have inside : r ∈ tempClasses f.params f.blocks := by
    simp only [tempClasses, mem_append, mem_flatMap]
    exact .inr ⟨b, mem_b, .inr ⟨i, mem_of_getElem? at_, temps ▸ h⟩⟩
  have typed := all_eq_true.1 valid.classes r inside
  simp only [Bool.and_eq_true] at typed
  have proof : proofClass r.2 = false := by simpa using none.1 r h
  simpa [tempClass, proof] using typed.1

include here limits in
theorem argWords_ends {args : List Arg} (valid : validArgs (funcCtx m prep.mode f) args = true)
    (other : checkLimitInst i = false) (uses : ∀ a ∈ args, ∀ n, a.val = .tmp n → n ∈ instUses i) :
    Ends Gap (ArgWords prep s.mem args) (args.mapM (argX prep env)) :=
  Ends.mapM fun a h => by
    have use := all_eq_true.1 valid a h
    simp only [Bool.and_eq_true] at use
    exact reads_ends (prepared.func mem_f) limits mem_b at_ here other use.2 (uses a h)

omit prepared mem_f mem_b at_ in
theorem indirectPasses {res : CallRes} {args : List Arg} (fits : indirectFits res args = true)
    (valid : validArgs (funcCtx m prep.mode f) args = true)
    (classes : (∀ r ∈ resultTemps res, anyClass r.2 = true) ∧ ∀ a ∈ args, proofClass a.cls = false) :
    (∀ k ∈ resultWords res, Passes k) ∧ ∀ a ∈ args, Passes a.cls := by
  simp only [indirectFits, Bool.and_eq_true, all_eq_true, decide_eq_true_eq] at fits
  refine ⟨fun k h => ?_, fun a h => ⟨?_, fits.1.1 a h⟩⟩
  · obtain ⟨r, mem_r, rfl⟩ := mem_map.1 h
    exact ⟨classes.1 r mem_r, fits.1.2 r mem_r⟩
  · have typed := all_eq_true.1 valid a h
    simp only [Bool.and_eq_true] at typed
    simpa [tempClass, classes.2 a h] using typed.1

include here limits calls fuel

theorem call_ends {res : CallRes} {callee : Value} {args : List Arg} (isCall : i = .call res callee args)
    (accepted : validInst (funcCtx m prep.mode f) i = true) (fits : callFits m i = true) :
    Ends Gap (InstOk prep f i env s) (instResult call prep i env s) := by
  subst isCall
  have valid := prepared.func mem_f
  have classes := callClasses prepared mem_f mem_b at_ res args rfl rfl
  have defined : ∀ t ∈ resultTemps res, classOf f t.1 = some t.2 := fun t h => inst_class valid mem_b at_ h
  have uses : ∀ a ∈ args, ∀ n, a.val = .tmp n → n ∈ instUses (.call res callee args) := fun a h n same =>
    mem_temps.2 (mem_cons_of_mem _ (same ▸ mem_map_of_mem h))
  cases callee with
  | const c => cases accepted
  | global g =>
    simp only [validInst, Bool.and_eq_true] at accepted
    have words := argWords_ends prepared mem_f limits mem_b at_ here accepted.2 rfl uses
    refine words.bind fun xs words => ?_
    refine (directCall_ends prepared calls fuel here.mem here.globals words (fun fn known => ?_) classes.1).bind
      fun r done => callOutcomeResult_ends done.2.1 done.2.2 (fun n size h => by cases h) rfl defined done.1
    cases named : funcNamed m g with
    | some fn' =>
      rw [prepared.bodied named] at known
      cases known
      have typed := accepted.1.2
      simp only [funcCtx, named, Bool.and_eq_true] at typed
      exact typed
    | none =>
      simp only [callFits, named, Option.isSome_none, Bool.false_or, Option.all_eq_true] at fits
      rw [prepared.funcs] at known
      simpa using fits fn known
  | tmp n =>
    simp only [validInst, Bool.and_eq_true, decide_eq_true_eq] at accepted
    have fits : indirectFits res args = true := fits
    have passes := indirectPasses fits accepted.2 classes
    have pointer : Ends Gap (fun p => CapOk prep s.mem p.2) (pointerX prep env .p (.tmp n)) :=
      pointerX_ends here.globals here.typed (.inl rfl) accepted.1.2
        (here.readable valid.ssa limits mem_b at_ rfl fun n' same => mem_temps.2 (same ▸ mem_cons_self))
    refine pointer.bind fun p cap =>
      (argWords_ends prepared mem_f limits mem_b at_ here accepted.2 rfl uses).bind fun xs words => ?_
    exact checkedCall_ends prepared calls fuel here.mem here.globals (fun n size h => by cases h) rfl defined cap (.inl rfl)
      words fits passes.1 passes.2

theorem rawCall_ends {res : CallRes} {callee : Value} {args : List Arg} (isCall : i = .rawCall res callee args)
    (accepted : validInst (funcCtx m prep.mode f) i = true) (fits : callFits m i = true) :
    Ends Gap (InstOk prep f i env s) (instResult call prep i env s) := by
  subst isCall
  have valid := prepared.func mem_f
  have classes := callClasses prepared mem_f mem_b at_ res args rfl rfl
  have defined : ∀ t ∈ resultTemps res, classOf f t.1 = some t.2 := fun t h => inst_class valid mem_b at_ h
  have uses : ∀ v ∈ callee :: args.map (·.val), ∀ n, v = .tmp n → n ∈ instUses (.rawCall res callee args) :=
    fun v h n same => mem_temps.2 (same ▸ h)
  simp only [validInst, Bool.and_eq_true] at accepted
  have fits : indirectFits res args = true := fits
  have passes := indirectPasses fits accepted.2 classes
  have pointer : Ends Gap (fun p => CapOk prep s.mem p.2) (pointerX prep env .f callee) :=
    pointerX_ends here.globals here.typed (.inr rfl) accepted.1
      (here.readable valid.ssa limits mem_b at_ rfl (uses callee mem_cons_self))
  refine pointer.bind fun p cap => (argWords_ends prepared mem_f limits mem_b at_ here accepted.2 rfl fun a h =>
    uses a.val (mem_cons_of_mem _ (mem_map_of_mem h))).bind fun xs words => ?_
  exact checkedCall_ends prepared calls fuel here.mem here.globals (fun n size h => by cases h) rfl defined cap (.inr rfl)
    words fits passes.1 passes.2

/-! ### Every instruction -/

omit calls fuel in
/-- The operations that an instruction runs by its own rule. -/
theorem ownLet_ends {d : Name} {c : Cls} {op : Op} {args : List Value} (isLet : i = .let_ d c op args)
    (own : instOp op = true) (accepted : validLet (funcCtx m prep.mode f) c op args = true) :
    Ends Gap (InstOk prep f i env s) (instResult call prep i env s) := by
  have valid := prepared.func mem_f
  rcases validLet_cases accepted with ⟨_, _, rfl, _⟩ | ⟨ks, ok⟩
  · cases own
  have result : opResultOk prep.mode op c = true := ok.result
  have arity := ok.arity
  cases op <;> try cases own
  · have pointer : prep.mode = .filc ∧ c = .p := by simpa [opResultOk, opKind, kindResultOk] using result
    obtain ⟨filc, rfl⟩ := pointer
    obtain ⟨off, rfl⟩ : ∃ off, args = [.const off] := by
      have operands := ok.operands
      unfold opOperandsOk at operands
      split at operands <;> simp_all
    exact vaArgs_ends valid mem_b at_ here isLet
  · have proof : prep.mode = .filc ∧ c = .a := by simpa [opResultOk, opKind, kindResultOk] using result
    obtain ⟨filc, rfl⟩ := proof
    obtain rfl : args = [] := length_eq_zero_iff.1 (Option.some.inj arity).symm
    exact checkLocal_ends valid mem_b at_ here filc isLet
  · have proof : prep.mode = .filc ∧ c = .f := by simpa [opResultOk, opKind, kindResultOk] using result
    obtain ⟨filc, rfl⟩ := proof
    obtain ⟨v, rfl⟩ : ∃ v, args = [v] := length_eq_one_iff.1 (Option.some.inj arity).symm
    have uses := ok.uses
    obtain ⟨_, rfl⟩ := filcClasses_some ok.classes
    simp only [validUses, Bool.and_true] at uses
    exact checkFunction_ends valid limits mem_b at_ here isLet uses

theorem inst_ends (accepted : validInst (funcCtx m prep.mode f) i = true) (fits : callFits m i = true) :
    Ends Gap (InstOk prep f i env s) (instResult call prep i env s) := by
  have valid := prepared.func mem_f
  cases i with
  | loc | fence | touch => exact Ends.ok (skip_ok here.mem (fun n size h => by cases h) rfl)
  | let_ d c op args =>
    by_cases own : instOp op = true
    · exact ownLet_ends prepared mem_f limits mem_b at_ here rfl own accepted
    · exact let_ends valid limits mem_b at_ here rfl (by simpa using own) accepted
  | store wd v a =>
    simp only [validInst, Bool.and_eq_true] at accepted
    refine store_ends valid limits mem_b at_ here (.inl rfl) (fun pointer => ?_) accepted.1.2 accepted.2
    cases mode : prep.mode with
    | filc => rfl
    | plain => simp [pointer, funcCtx, mode] at accepted
  | atomicStore wd v a =>
    simp only [validInst, Bool.and_eq_true, decide_eq_true_eq] at accepted
    obtain ⟨⟨⟨rfl, filc⟩, useV⟩, useA⟩ := accepted
    have filc : prep.mode = .filc := filc
    exact store_ends valid limits mem_b at_ here (.inr ⟨rfl, rfl⟩) (fun _ => filc) useV (by rw [filc]; rw [filc] at useA; exact useA)
  | access r a size align =>
    simp only [validInst, Bool.and_eq_true] at accepted
    exact access_ends valid limits mem_b at_ here rfl accepted.2
  | asmFixed am ins outs =>
    simp only [validInst, Bool.and_eq_true, all_eq_true] at accepted
    exact asmFixed_ends valid limits mem_b at_ here rfl accepted.1.1.2 fun rv h => (accepted.2 rv h).1
  | localAlloc n size =>
    simp only [validInst, Bool.and_eq_true, decide_eq_true_eq] at accepted
    exact localAlloc_ends valid mem_b at_ here accepted.1.1 accepted.1.2 rfl
  | localLoad d c t n off =>
    simp only [validInst, Bool.and_eq_true, decide_eq_true_eq] at accepted
    exact localLoad_ends valid mem_b at_ here accepted.1.1 rfl accepted.1.2
  | localStore wd v n off =>
    simp only [validInst, Bool.and_eq_true, decide_eq_true_eq] at accepted
    exact localStore_ends valid limits mem_b at_ here accepted.1.1 rfl accepted.2
  | call res callee args => exact call_ends prepared mem_f limits mem_b at_ here calls fuel rfl accepted fits
  | rawStore wd off v a =>
    simp only [validInst, Bool.and_eq_true, decide_eq_true_eq] at accepted
    exact rawStore_ends valid limits mem_b at_ here rfl accepted.1.1 accepted.1.2 accepted.2
  | rawStorePointer off v a es =>
    simp only [validInst, Bool.and_eq_true, Bool.or_eq_true, decide_eq_true_eq, or_assoc] at accepted
    exact rawStorePointer_ends valid limits mem_b at_ here accepted.1.1.1 rfl accepted.1.1.2 accepted.1.2 accepted.2
  | rawCall res callee args => exact rawCall_ends prepared mem_f limits mem_b at_ here calls fuel rfl accepted fits
  | flight d op args lower =>
    simp only [validInst, Bool.and_eq_true, Bool.or_eq_true, decide_eq_true_eq, all_eq_true, or_assoc] at accepted
    exact flight_ends valid limits mem_b at_ here rfl accepted.1.1.1.2 accepted.1.1.2 accepted.1.2 accepted.2

end

end Nanofil
