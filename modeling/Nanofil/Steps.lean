import Nanofil.Accesses

/-! One instruction keeps what a run knows: the words its definitions relate, and the
intervals its temporaries lie in. -/
namespace Nanofil
open List Option Results Residues

/-- What an instruction leaves behind when the run goes on. -/
structure Went (i : Inst) (env : Env) (mem : Mem) (env' : Env) (mem' : Mem) : Prop where
  vals : ∀ n ∉ instDefs i, env'.vals n = env.vals n
  later : Later mem mem'
  doomed : env'.doomed = none → env.doomed = none
  same : evidencePreserving i = true → SameObjects mem mem'

/-- A run goes on with the instruction's own result, or doomed by a `check_ahead`. -/
theorem doomedResult_cont {prep : Prep} {i : Inst} {env env' : Env} {r : Result} {s' : St}
    (done : doomedResult prep i env r = .ok (.cont env' s')) : r = .cont env' s' ∨
      ∃ d v why p, aheadInst i = some (d, v) ∧ r = .stop (.trap (.early why)) s' ∧
        valueX prep env .p v = .ok p ∧ env' = doomEnv (env.put d p) why := by
  unfold doomedResult at done
  split at done
  · rename_i d v why s ahead
    simp only [bind_ok, pure_ok] at done
    obtain ⟨p, value, done⟩ := done
    cases done
    exact .inr ⟨d, v, why, p, ahead, rfl, value, rfl⟩
  · split at done
    · split at done <;> cases done
    · cases done
  · cases done
    exact .inl rfl

variable {d : Name}

theorem aheadInst_shape {i : Inst} {v : Value} (ahead : aheadInst i = some (d, v)) :
    ∃ lo hi r al ahi, i = .let_ d .a (.checkAhead lo hi r al ahi) [v] := by
  unfold aheadInst at ahead
  split at ahead <;> cases ahead
  exact ⟨_, _, _, _, _, rfl⟩

theorem InstEffect.went {call : Call} {prep : Prep} {i : Inst} {env env' : Env} {s s' : St} {r : Result}
    (effect : InstEffect i s r) (ran : instResult call prep i env s = .ok r)
    (done : doomedResult prep i env r = .ok (.cont env' s')) : Went i env s.mem env' s'.mem := by
  rcases doomedResult_cont done with rfl | ⟨d, v, why, p, ahead, rfl, _, rfl⟩
  · obtain ⟨vals, doomed⟩ := instResult_keeps ran
    exact ⟨vals, effect.later, fun running => doomed ▸ running, effect.same⟩
  · obtain ⟨lo, hi, r, al, ahi, rfl⟩ := aheadInst_shape ahead
    refine ⟨fun n other => ?_, effect.later, fun h => by simp [doomEnv] at h, effect.same⟩
    exact (Keeps.put (by simp [instDefs, instTempDefs]) env p).1 n other

/-! ### Definitions -/

section
variable {params : List Param} {bs : List Block}

variable {c : Cap} {op : Op} {w : Word} {args : List Value} {pf : HeapProof} {a : Int}

theorem flightArgs_address {prep : Prep} {env : Env} {b : Value} {ab : Int}
    (value : valueX prep env .p b = .ok (.ptr ab c)) {x : Word} (read : flightArgX prep env (.address b) = .ok x) :
    x = .int (ab % addressModulus) := by
  simp only [flightArgX, pointerX, value, Word.toPtr, bind, Except.bind] at read
  cases read
  rfl

/-- A flight's address is its base's, by an offset of its interval. -/
theorem flight_related {prep : Prep} {env : Env}
    (intervals : IntervalsHold (singleDefinitions params bs) env) {b : Value} {args : List FlightArg}
    (onceX : singleDefinitions params bs d = some (.inst (.flight d op args (.lower b))))
    {ab : Int} (value : valueX prep env .p b = .ok (.ptr ab c)) {xs : List Word} {ax : Int}
    (read : args.mapM (flightArgX prep env) = .ok xs) (ran : alu op .l xs = .ok w) (int : w.toInt = .ok ax)
    {sign : Sign} {o : Int × Int}
    (step : flightStep (singleDefinitions params bs) (.tmp d) = some (b, sign, o)) :
    In addressModulus ax (offsetBy (ab, ab) sign o) := by
  simp only [flightStep, onceX, bind_found, pure_found,
    Prod.mk.injEq, true_and] at step
  obtain ⟨⟨v, sg⟩, term, ⟨o', m'⟩, found, rfl, rfl⟩ := step
  have has := (offsetInterval_derived found (.nil _)).1
  have base : In addressModulus (ab % addressModulus) (ab, ab) := .point (Int.mod_modEq _ _)
  have offset : ∀ {y : Word}, valueX prep env .l v = .ok y → ∃ n, y = .int n ∧ In addressModulus n o' := by
    intro y read
    exact wordIn_int (interval_value intervals has (.inr rfl) read) rfl
  unfold flightTerm at term
  split at term
  · rename_i b0 v0
    split at term <;> cases term
    rename_i same
    subst same
    simp only [mapM_cons, mapM_nil, bind_ok, pure_ok] at read
    obtain ⟨x, readB, ys, ⟨y, readV, zs, rfl, rfl⟩, rfl⟩ := read
    cases flightArgs_address value readB
    obtain ⟨n, rfl, mem⟩ := offset readV
    cases ran
    cases int
    exact (base.add mem).emod
  · rename_i b0 v0
    split at term <;> cases term
    rename_i same
    subst same
    simp only [mapM_cons, mapM_nil, bind_ok, pure_ok] at read
    obtain ⟨x, readB, ys, ⟨y, readV, zs, rfl, rfl⟩, rfl⟩ := read
    cases flightArgs_address value readB
    obtain ⟨n, rfl, mem⟩ := offset readV
    cases ran
    cases int
    exact (base.sub mem).emod
  · rename_i b0
    split at term <;> cases term
    rename_i same
    subst same
    simp only [mapM_cons, mapM_nil, bind_ok, pure_ok] at read
    obtain ⟨x, readB, ys, rfl, rfl⟩ := read
    cases flightArgs_address value readB
    cases ran
    cases int
    obtain ⟨n, same, mem⟩ := offset (y := .int 0) rfl
    cases same
    have sum := base.add mem
    rwa [add_zero] at sum
  · cases term

theorem heapProof_pointer
    (proof : heapProof (.let_ d .a op args) = some pf) : proofPointer op args = some pf.fact.p ∧ pf.fact.q = d := by
  generalize here : Inst.let_ d .a op args = i at proof
  unfold heapProof at proof
  split at proof <;> cases proof <;> cases here <;> exact ⟨rfl, rfl⟩

theorem heapProof_source {s : Source}
    (proof : heapProof (.let_ d .a op args) = some pf) (source : renewSourceOp op args = some s) :
    s.lo = pf.fact.lo ∧ s.hi = pf.fact.hi ∧ s.align = pf.fact.align := by
  unfold renewSourceOp at source
  split at source <;> cases source <;> cases proof <;> exact ⟨rfl, rfl, rfl⟩

theorem proofPointer_proof {p : Value} (pointer : proofPointer op args = some p) : (heapProof (.let_ d .a op args)).isSome := by
  unfold proofPointer at pointer
  split at pointer <;> cases pointer <;> rfl

/-- A passed test of a heap proof passed its whole range. -/
theorem proofTest_passes {i : Inst} {mem : Mem} (tested : proofTest i mem a c pf = .ok (.val w)) :
    spanAccess mem a c pf.fact.lo pf.fact.hi pf.fact.rights pf.fact.align = .ok .ok := by
  unfold proofTest at tested
  split at tested
  · simp only [checkAheadRes, bind_ok] at tested
    obtain ⟨first, _, tested⟩ := tested
    cases first with
    | trap why => cases tested
    | ok =>
      simp only [bind_ok] at tested
      obtain ⟨second, whole, tested⟩ := tested
      cases second with
      | trap why => cases tested
      | ok => exact whole
  · exact ((checkRes_result tested).2 w rfl).2

theorem proofTest_own {i : Inst} {mem : Mem} (proof : heapProof i = some pf) (tested : proofTest i mem a c pf = .ok (.val w)) :
    spanAccess mem a c pf.fact.lo pf.ahi pf.fact.rights pf.fact.align = .ok .ok := by
  cases ahead : aheadInst i with
  | none =>
    have own : pf.ahi = pf.fact.hi := by
      unfold heapProof at proof
      split at proof <;> cases proof <;> first | rfl | cases ahead
    rw [own]
    exact proofTest_passes tested
  | some dv =>
    simp only [proofTest, ahead, isSome_some, if_true, checkAheadRes, bind_ok] at tested
    obtain ⟨first, passes, tested⟩ := tested
    cases first with
    | trap why => cases tested
    | ok => exact passes

/-- A `check_ahead` that dooms the run: its access passes, its range does not. -/
theorem checkAhead_early {mem : Mem} {lo hi al ahi : Int} {rights : Rights} {why : Why}
    (tested : checkAheadRes mem a c lo hi rights al ahi = .ok (.trap (.early why))) :
    spanAccess mem a c lo ahi rights al = .ok .ok ∧ spanAccess mem a c lo hi rights al = .ok (.trap why) := by
  simp only [checkAheadRes, bind_ok] at tested
  obtain ⟨first, passes, tested⟩ := tested
  cases first with
  | trap why' =>
    cases tested
    rcases accessRes_why passes with h | h | h | h <;> cases h
  | ok =>
    simp only [bind_ok] at tested
    obtain ⟨second, fails, tested⟩ := tested
    cases second with
    | ok => cases tested
    | trap why' =>
      cases tested
      exact ⟨passes, fails⟩

theorem spanTest_held {mem : Mem} {lo hi : Int} {res : Res Word} (tested : spanTestRes mem a c lo hi = .ok res) :
    ∃ v, res = .val (.int v) ∧ (v = 0 ∨ v = 1) ∧ (v = 1 → SpanHeld mem a c lo hi) := by
  unfold spanTestRes at tested
  split at tested
  · cases tested
    exact ⟨0, rfl, .inl rfl, by simp⟩
  · rename_i base based
    simp only [bind_ok, pure_ok] at tested
    obtain ⟨region, found, rfl⟩ := tested
    refine ⟨_, rfl, ?_, fun one => ⟨base, region, based, found, .inr ?_⟩⟩
    · unfold bit
      split <;> simp
    · unfold bit at one
      split at one
      · rename_i held
        simpa using held
      · cases one

/-- An interval is derived from one of the arithmetic instructions, at `w` or `l`. -/
theorem hasInterval_let {once : Once} {x : Name} {k : Cls} {i : Int × Int} (has : HasInterval once (.tmp x) k i) :
    (k = .w ∨ k = .l) ∧ ∃ d op args, once x = some (.inst (.let_ d k op args)) ∧ ∀ call prep env s,
      instResult call prep (.let_ d k op args) env s = letResult prep d k op args env s := by
  cases has
  all_goals
    have int := fits_class ‹intervalFits _ _ = true›
    refine ⟨int, _, _, _, by assumption, fun call prep env s => ?_⟩
    rcases int with rfl | rfl <;> rfl

theorem valueX_pointer {prep : Prep} {env : Env} {n : Name}
    (read : valueX prep env .p (.tmp n) = .ok (.ptr a c)) : env.vals n = some (.ptr a c) := by
  simp only [valueX] at read
  split at read
  · rename_i w assigned
    cases read
    exact assigned
  · cases read

/-! ### The step -/

variable (ssa : Ssa params bs) {ctx : ValidCtx} (valid : ∀ b ∈ bs, ∀ i ∈ b.insts, validInst ctx i = true)
  {src : Sources} (sources : SourcesOk params bs src) {b : Block} (mem_b : b ∈ bs) {k : Nat} {i : Inst}
  (at_ : b.insts[k]? = some i) {env : Env} {s : St} (holds : Holds params bs env s.mem ⟨b.label, k⟩)
  {call : Call} {prep : Prep} (filc : prep.mode = .filc) {r : Result} {env' : Env} {s' : St}
  (done : instResult call prep i env s = .ok r) (went : doomedResult prep i env r = .ok (.cont env' s'))
include ssa valid sources mem_b at_ holds filc done went

/-- A heap proof that the run goes on from has its pointer's word, and passed unless doomed. -/
theorem proof_went (proof : heapProof i = some pf) (sourced : proofSourced src i = true) :
    ∃ a c, valueX prep env .p pf.fact.p = .ok (.ptr a c) ∧ env'.vals pf.fact.q = some (.ptr a c) ∧
      s'.mem = s.mem ∧ (env'.doomed = none →
        spanAccess s.mem a c pf.fact.lo pf.fact.hi pf.fact.rights pf.fact.align = .ok .ok) := by
  obtain ⟨a, c, res, result⟩ := proof_result ssa valid sources mem_b at_ holds filc proof sourced done
  refine ⟨a, c, result.pointer, ?_⟩
  have here := result.result
  rcases doomedResult_cont went with rfl | ⟨d, v, why, p, ahead, rfl, value, rfl⟩
  · obtain ⟨x, yields, rfl, rfl⟩ := resResult_cont here.symm
    cases result.yields x yields
    refine ⟨by simp [Env.put, put], rfl, fun running => ?_⟩
    have tested := result.test running
    rw [yields] at tested
    exact proofTest_passes tested
  · obtain ⟨lo, hi, rt, al, ahi, rfl⟩ := aheadInst_shape ahead
    cases proof
    rw [result.pointer] at value
    cases value
    refine ⟨by simp [doomEnv, Env.put, put], ?_, fun h => by simp [doomEnv] at h⟩
    cases res <;> cases here
    rfl

/-- The words that an instruction's own definition relates. -/
theorem defHolds_step (sourced : ∀ pf, heapProof i = some pf → proofSourced src i = true) {x : Name}
    (onceX : singleDefinitions params bs x = some (.inst i)) (def_ : x ∈ instDefs i) {n : Name}
    (operand : defOperand i = some n) : ∃ wx wn, env'.vals x = some wx ∧ env.vals n = some wn ∧
      Related (singleDefinitions params bs) s'.mem env'.doomed x i wx wn := by
  unfold defOperand at operand
  split at operand
  · rename_i d op args b'
    cases operand
    cases (show x = d by simpa [instDefs, instTempDefs] using def_)
    simp only [instResult, bind_ok, pure_ok] at done
    obtain ⟨xs, read, w, ran, cap, flown, ax, int, rfl⟩ := done
    rcases doomedResult_cont went with h | ⟨_, _, _, _, ahead, _⟩
    · obtain ⟨y, yields, rfl, rfl⟩ := resResult_cont h
      cases yields
      simp only [flightCap, pointerX, bind_ok, pure_ok] at flown
      obtain ⟨p, ⟨wn, value, pointer⟩, rfl⟩ := flown
      cases wn with
      | int z => cases pointer
      | limit c z => cases pointer
      | ptr ab c =>
        cases pointer
        have valueN := valueX_pointer value
        refine ⟨.ptr ax c, .ptr ab c, by simp [Env.put, put], valueN, ax, ab, c, rfl, rfl, fun sign o step => ?_⟩
        exact flight_related holds.intervals onceX value read ran int step
    · cases ahead
  · rename_i d op args
    split at operand
    · rename_i p pointer
      cases operand
      cases (show x = d by simpa [instDefs, instTempDefs] using def_)
      obtain ⟨pf, proof⟩ := isSome_iff_exists.1 (proofPointer_proof (d := x) pointer)
      obtain ⟨same, named⟩ := heapProof_pointer proof
      rw [pointer] at same
      obtain ⟨a, c, value, proven, mem, passes⟩ :=
        proof_went ssa valid sources mem_b at_ holds filc done went proof (sourced pf proof)
      rw [← Option.some.inj same] at value
      have valueN := valueX_pointer value
      refine ⟨.ptr a c, .ptr a c, named ▸ proven, valueN, a, c, rfl, rfl, fun src' source running => ?_⟩
      obtain ⟨lo, hi, align⟩ := heapProof_source proof source
      rw [lo, hi, align, mem]
      exact spanAccess_passed holds.regions (passes running)
    · cases operand
  · rename_i d lo hi p
    cases operand
    cases (show x = d by simpa [instDefs, instTempDefs] using def_)
    have ran : letResult prep x .w (.spanTest lo hi) [.tmp n] env s = .ok r := done
    simp only [letResult, filc, bind_ok, pure_ok] at ran
    obtain ⟨classes, hclasses, xs, read, res, ran, rfl⟩ := ran
    cases hclasses
    obtain ⟨wn, rfl, value⟩ := valuesX_one read
    have kind : kindRes .spanTest (.spanTest lo hi) .w .filc [wn] s.mem = .ok res := ran
    cases wn with
    | int z => cases kind
    | limit c z => cases kind
    | ptr a c =>
      obtain ⟨same, tested⟩ := keep_effect (show keep s.mem (spanTestRes s.mem a c lo hi) = .ok res from kind)
      obtain ⟨v, yields, bit, held⟩ := spanTest_held tested
      rcases doomedResult_cont went with h | ⟨_, _, _, _, ahead, _⟩
      · obtain ⟨y, yields', rfl, rfl⟩ := resResult_cont h
        rw [yields] at yields'
        cases yields'
        have valueN := valueX_pointer value
        refine ⟨.int v, .ptr a c, by simp [Env.put, put], valueN, v, a, c, rfl, rfl, bit, fun one => ?_⟩
        simp only [St.setMem, same]
        exact held one
      · cases ahead
  · rename_i d size p
    cases operand
    cases (show x = d by simpa [instDefs, instTempDefs] using def_)
    have ran : letResult prep x .l (.limit size) [.tmp n] env s = .ok r := done
    simp only [letResult, filc, bind_ok, pure_ok] at ran
    obtain ⟨classes, hclasses, xs, read, res, ran, rfl⟩ := ran
    cases hclasses
    obtain ⟨wn, rfl, value⟩ := valuesX_one read
    have kind : kindRes .limit (.limit size) .l .filc [wn] s.mem = .ok res := ran
    cases wn with
    | int z => cases kind
    | limit c z => cases kind
    | ptr a c =>
      cases kind
      rcases doomedResult_cont went with h | ⟨_, _, _, _, ahead, _⟩
      · obtain ⟨y, yields', rfl, rfl⟩ := resResult_cont h
        cases yields'
        have valueN := valueX_pointer value
        exact ⟨.limit c size, .ptr a c, by simp [Env.put, put], valueN, a, c, rfl, rfl⟩
      · cases ahead
  · cases operand

omit ssa valid sources holds filc in
theorem intervals_step (intervals : IntervalsHold (singleDefinitions params bs) env) (keeps : ∀ n ∉ instDefs i, env'.vals n = env.vals n) :
    IntervalsHold (singleDefinitions params bs) env' := by
  intro x c iv w has value
  by_cases def_ : x ∈ instDefs i
  · obtain ⟨int, d, op, args, onceX, plain⟩ := hasInterval_let has
    cases once_inst onceX mem_b at_ def_
    cases (show x = d by simpa [instDefs, instTempDefs] using def_)
    rw [plain] at done
    simp only [letResult, bind_ok, pure_ok] at done
    obtain ⟨classes, hclasses, xs, read, res, ran, rfl⟩ := done
    rcases doomedResult_cont went with h | ⟨_, _, _, _, ahead, _⟩
    · obtain ⟨y, yields, rfl, rfl⟩ := resResult_cont h
      simp only [Env.put, put, if_true, Option.some.injEq] at value
      subst value
      exact interval_let intervals onceX (orNoRule_ok.1 hclasses) read
        (by rw [ran, ← yields]) has
    · obtain ⟨lo, hi, rt, al, ahi, same⟩ := aheadInst_shape ahead
      cases same
      cases int <;> contradiction
  · exact intervals x c iv w has (keeps x def_ ▸ value)

/-- What a run knows holds past each instruction that it goes on from. -/
theorem Holds.step (sourced : ∀ pf, heapProof i = some pf → proofSourced src i = true)
    (effect : InstEffect i s r) : Holds params bs env' s'.mem ⟨b.label, k + 1⟩ := by
  have moved := effect.went done went
  have inside := (List.getElem?_eq_some_iff.1 at_).1
  refine ⟨reachable_next mem_b (by omega) (by omega) holds.reached, moved.later.regions, ?_,
    intervals_step mem_b at_ done went holds.intervals moved.vals⟩
  intro x ix onceX est n operand onceN
  rcases established_next ssa mem_b at_ est with before | def_
  · have estN := established_operand ssa onceX (defOperand_use operand) holds.reached before
    have keptX := moved.vals x (established_kept onceX mem_b at_ holds.reached before)
    obtain ⟨d, onceD⟩ := isSome_iff_exists.1 onceN
    have keptN := moved.vals n (established_kept onceD mem_b at_ holds.reached estN)
    obtain ⟨wx, wn, hx, hn, related⟩ := holds.defs x ix onceX before n operand onceN
    exact ⟨wx, wn, keptX.trans hx, keptN.trans hn, related.frame moved.later.evolves moved.doomed⟩
  · cases once_inst onceX mem_b at_ def_
    have estN := inst_use ssa mem_b at_ holds.reached (defOperand_use operand)
    obtain ⟨d, onceD⟩ := isSome_iff_exists.1 onceN
    have keptN := moved.vals n (established_kept onceD mem_b at_ holds.reached estN)
    obtain ⟨wx, wn, hx, hn, related⟩ :=
      defHolds_step ssa valid sources mem_b at_ holds filc done went sourced onceX def_ operand
    exact ⟨wx, wn, hx, keptN.trans hn, related⟩

end

end Nanofil
