import Nanofil.Doom

/-! A checked function's run, one instruction at a time: each access is executed where
its evidence holds, and a doomed run does nothing that shows. -/
namespace Nanofil
open List Option Results Residues

/-- A checked function that the validator accepted, with the evidence it was accepted by. -/
structure CheckedFunc (m : Module) (f : Func) (src : Sources) where
  valid : ValidFunc m .filc .checked f
  sources : SourcesOk f.params f.blocks src
  flow : Flow src .filc f.blocks

theorem ValidFunc.checkedFunc {m : Module} {f : Func} (valid : ValidFunc m .filc .checked f) :
    ∃ src, Nonempty (CheckedFunc m f src) := by
  have stage := valid.stage
  simp only [stageFunc] at stage
  split at stage
  · rename_i src found
    simp only [Bool.and_eq_true, isSome_iff_exists] at stage
    obtain ⟨⟨⟨exits, accepted⟩, _⟩, _⟩ := stage
    obtain ⟨flow⟩ := checkedBlocks_flow valid.labels valid.entry accepted
    exact ⟨src, ⟨valid, stageSources_ok found, flow⟩⟩
  · cases stage

/-- No range of a function's `check_ahead`s starts far below its pointer. -/
def AheadsNear (f : Func) : Prop := ∀ b ∈ f.blocks, ∀ i ∈ b.insts, aheadNear i = true

/-! ### Evidence at an instruction -/

/-- The instruction before a point of a block. -/
def prevInst (b : Block) : Nat → Option Inst
  | 0 => none
  | j + 1 => b.insts[j]?

/-- A proof that was just executed: what its own access needs of it. -/
def Ready (prep : Prep) (i : Inst) (env : Env) (mem : Mem) : Prop :=
  match i with
  | .let_ q .a (.checkLocal _ _ bytes rights align) [] =>
    ∃ a c, env.vals q = some (.ptr a c) ∧ spanAccess mem a c 0 bytes rights align = .ok .ok
  | .let_ q .f .checkFunction _ => ∃ a c, env.vals q = some (.ptr a c) ∧ functionCheckRes prep (a, c) = .ok .ok
  | i => ∀ pf, heapProof i = some pf → ∃ a c, env.vals pf.fact.q = some (.ptr a c) ∧
      spanAccess mem a c pf.fact.lo pf.ahi pf.fact.rights pf.fact.align = .ok .ok

/-- A run is not doomed, or has just been by the `check_ahead` before, or was earlier. -/
inductive Phase (once : Once) (bs : List Block) (b : Block) (k : Nat) (prep : Prep) (env : Env) (mem : Mem) : Prop
  | running : env.doomed = none →
      (∀ p, prevInst b k = some p → proofInst p = true → Ready prep p env mem) → Phase once bs b k prep env mem
  | fresh {p : Inst} {n : Name} {a h : Int} {c : Cap} : env.doomed ≠ none → prevInst b k = some p →
      (aheadInst p).isSome → Ready prep p env mem → (∀ i, b.insts[k]? = some i → n ∉ instDefs i) →
      DoomedBy (needAt once bs b (k + 1)) env mem n a c h → Phase once bs b k prep env mem
  | doomed {n : Name} {a h : Int} {c : Cap} : env.doomed ≠ none →
      DoomedBy (needAt once bs b k) env mem n a c h → Phase once bs b k prep env mem

section
variable {m : Module} {f : Func} {src : Sources} (checked : CheckedFunc m f src)

abbrev CheckedFunc.once (_ : CheckedFunc m f src) : Once := singleDefinitions f.params f.blocks

include checked in
theorem CheckedFunc.ssa : Ssa f.params f.blocks :=
  ⟨checked.valid.labels, checked.valid.entry, checked.valid.dominate⟩

include checked in
theorem CheckedFunc.insts {b : Block} (mem : b ∈ f.blocks) {i : Inst} (inst : i ∈ b.insts) :
    validInst (funcCtx m .filc f) i = true := by
  have block := checked.valid.blocks b mem
  simp only [validBlock, Bool.and_eq_true, List.all_eq_true] at block
  exact block.1.1.2 i inst

/-- What holds before an instruction of a checked function. -/
structure Safe (prep : Prep) (b : Block) (k : Nat) (env : Env) (mem : Mem) : Prop where
  holds : Holds f.params f.blocks env mem ⟨b.label, k⟩
  facts : FactsHold prep env mem (checked.flow.at_ b k)
  phase : Phase checked.once f.blocks b k prep env mem

variable {b : Block} (mem_b : b ∈ f.blocks) {k : Nat} {i : Inst} (at_ : b.insts[k]? = some i)
include checked mem_b at_

theorem CheckedFunc.inst : validInst (funcCtx m .filc f) i = true :=
  checked.insts mem_b (mem_of_getElem? at_)

/-- A proof is before the access that the validator let it prove. -/
theorem CheckedFunc.follows {p : Inst} (prev : prevInst b k = some p) (proof : proofInst p = true) :
    ∃ live, (provenAccess src p i live).isSome := by
  cases k with
  | zero => cases prev
  | succ j =>
    have accepted := checkedInsts_at (checked.flow.checked b mem_b) (show b.insts[j]? = some p from prev)
    rw [if_pos proof] at accepted
    obtain ⟨j', p', access, same, hp, ha, _, proven⟩ := accepted
    cases Nat.succ.inj same
    rw [show b.insts[j]? = some p from prev] at hp
    rw [at_] at ha
    cases hp
    cases ha
    exact ⟨_, proven⟩

/-- An instruction that is no proof follows one, or the evidence allows it. -/
theorem CheckedFunc.allowed (ordinary : proofInst i = false) :
    (∃ p, prevInst b k = some p ∧ proofInst p = true) ∨
      ordinaryAllowed .filc src.once i (checked.flow.at_ b k) = true := by
  have accepted := checkedInsts_at (checked.flow.checked b mem_b) at_
  simp only [ordinary, Bool.false_eq_true, if_false] at accepted
  refine accepted.imp_left ?_
  rintro ⟨j, p, _, rfl, hp, _, proof, _⟩
  exact ⟨p, hp, proof⟩

theorem CheckedFunc.sourced {pf : HeapProof} (proof : heapProof i = some pf) : proofSourced src i = true := by
  have isProof : proofInst i = true := by
    unfold proofInst
    split
    · rfl
    · rfl
    · rw [proof]
      rfl
  have accepted := checkedInsts_at (checked.flow.checked b mem_b) at_
  rw [if_pos isProof] at accepted
  obtain ⟨j, p, access, same, hp, _, _, proven⟩ := accepted
  cases Nat.succ.inj same
  rw [at_] at hp
  cases hp
  obtain ⟨live, proven⟩ := isSome_iff_exists.1 proven
  unfold provenAccess at proven
  split at proven
  · cases proof
  · cases proof
  · rw [proof] at proven
    simp only [ite_none_right_eq_some, Bool.and_eq_true] at proven
    exact proven.1.1

/-- No proof is of itself: a pointer and a proof are of different classes. -/
theorem CheckedFunc.selfless {pf : HeapProof} (proof : heapProof i = some pf) : pf.fact.p ≠ .tmp pf.fact.q := by
  intro same
  have valid := checked.inst mem_b at_
  have classes := checked.valid.classes
  have defined : (pf.fact.q, Cls.a) ∈ tempClasses f.params f.blocks := by
    simp only [tempClasses, mem_append, mem_flatMap]
    refine .inr ⟨b, mem_b, .inr ⟨i, mem_of_getElem? at_, ?_⟩⟩
    unfold heapProof at proof
    split at proof <;> cases proof <;> simp [instTempDefs]
  have use : validUse (funcCtx m .filc f) .p pf.fact.p = true := by
    unfold heapProof at proof
    split at proof <;> cases proof
    all_goals
      obtain ⟨_, _, ks, known, uses⟩ := validLet_uses valid (by simp)
      cases known
      simp only [validUses, Bool.and_eq_true] at uses
      simp [uses]
  rw [same] at use
  simp only [validUse, ValidCtx.classOf, Option.any_map, Option.any_eq_true, funcCtx] at use
  obtain ⟨⟨n, c⟩, found, ok⟩ := use
  have named : n = pf.fact.q := by simpa using find?_some found
  subst named
  simp only [checkTempClasses, List.all_eq_true, Bool.and_eq_true, Bool.or_eq_true, decide_eq_true_eq] at classes
  have unique := (classes _ defined).2 _ (mem_of_find?_eq_some found)
  simp only [ne_eq, not_true_eq_false, false_or] at unique
  subst unique
  simp [tempUseOk] at ok

/-! ### Accesses and calls -/

omit checked mem_b at_ in
/-- The access that follows a ready proof passes. -/
theorem Ready.access {prep : Prep} {p : Inst} {env : Env} {mem : Mem} (ready : Ready prep p env mem)
    (ok : RegionsOk mem) {live : List Live} (proven : (provenAccess src p i live).isSome) {acc : RawAccess}
    (raw : rawAccess i = some acc) :
    ∃ a c sa, env.vals acc.proof = some (.ptr a c) ∧ accessSizeAlign acc.type = some sa ∧
      accessRes mem (rawAddress a acc.off) c sa.1 acc.need sa.2 = .ok .ok := by
  obtain ⟨live', proven⟩ := isSome_iff_exists.1 proven
  unfold provenAccess at proven
  split at proven
  · simp only [ite_none_right_eq_some, localUse, Bool.and_eq_true] at proven
    obtain ⟨a, c, value, passes⟩ := ready
    obtain ⟨named, sa, size, passes⟩ := coveredAccess_passes ok raw proven.1.1.2 passes
    exact ⟨a, c, sa, named ▸ value, size, passes⟩
  · split at proven
    · cases raw
    · cases proven
  · rename_i local_ function
    split at proven
    · rename_i pf proof
      simp only [ite_none_right_eq_some, Bool.and_eq_true, proofOwnUse] at proven
      have used := proven.1.2.1
      unfold proofUse at used
      split at used
      · cases raw
      · simp only [Bool.and_eq_true] at used
        have own : ∀ pf, heapProof p = some pf → ∃ a c, env.vals pf.fact.q = some (.ptr a c) ∧
            spanAccess mem a c pf.fact.lo pf.ahi pf.fact.rights pf.fact.align = .ok .ok := by
          unfold Ready at ready
          split at ready
          · exact absurd rfl (local_ _ _ _ _ _ _)
          · exact absurd rfl (function _ _)
          · exact ready
        obtain ⟨a, c, value, passes⟩ := own pf proof
        obtain ⟨named, sa, size, passes⟩ := coveredAccess_passes ok raw used.1 passes
        exact ⟨a, c, sa, named ▸ value, size, passes⟩
    · cases proven

/-- Nothing but a proof's access or call follows it, and only a call a function check. -/
theorem CheckedFunc.rawCall {res : CallRes} {callee : Value} {args : List Arg} (here : i = .rawCall res callee args) :
    ∃ q args', prevInst b k = some (.let_ q .f .checkFunction args') ∧ callee = .tmp q := by
  subst here
  rcases checked.allowed mem_b at_ rfl with ⟨p, prev, proof⟩ | allowed
  · obtain ⟨live, proven⟩ := checked.follows mem_b at_ prev proof
    obtain ⟨live', shape⟩ := isSome_iff_exists.1 proven
    unfold provenAccess at shape
    split at shape
    · simp [localUse, rawAccess] at shape
    · split at shape
      · rename_i heq
        cases heq
        simp only [ite_none_right_eq_some] at shape
        exact ⟨_, _, prev, by rw [shape.1]⟩
      · cases shape
    · split at shape
      · simp [proofOwnUse, proofUse, coveredAccess, rawAccess] at shape
      · cases shape
  · simp [ordinaryAllowed, rawAccess] at allowed

/-- What follows a `check_ahead` is transparent, and no proof. -/
theorem CheckedFunc.aheadAccess {p : Inst} (prev : prevInst b k = some p) (ahead : (aheadInst p).isSome) :
    aheadTransparent i = true ∧ heapProof i = none := by
  obtain ⟨⟨d, v⟩, ahead⟩ := isSome_iff_exists.1 ahead
  obtain ⟨lo, hi, r, al, ahi, rfl⟩ := aheadInst_shape ahead
  obtain ⟨live, proven⟩ := checked.follows mem_b at_ prev rfl
  obtain ⟨live', proven⟩ := isSome_iff_exists.1 proven
  have ordinary := (access_ordinary (provenAccess_uses proven)).1
  simp only [provenAccess, heapProof, ite_none_right_eq_some, Bool.and_eq_true, proofOwnUse] at proven
  refine ⟨by simpa [aheadInst] using proven.1.2.2, ?_⟩
  cases proof : heapProof i with
  | none => rfl
  | some pf =>
    unfold proofInst at ordinary
    split at ordinary
    · cases ordinary
    · cases ordinary
    · rw [proof] at ordinary
      cases ordinary

/-! ### Results -/

variable {prep : Prep} (filc : prep.mode = .filc) {call : Call} (later : CallsLater prep call)
  (calls : CallsChecked RegionsOk prep call) {env : Env} {s : St} (safe : Safe checked prep b k env s.mem)
include safe

/-- A doomed run is at a transparent instruction. -/
theorem Safe.transparent (isDoomed : env.doomed ≠ none) : aheadTransparent i = true := by
  cases safe.phase with
  | running notDoomed => exact absurd notDoomed isDoomed
  | fresh _ prev ahead => exact (checked.aheadAccess mem_b at_ prev ahead).1
  | doomed _ doomed => exact doomed.transparent at_

/-- A raw access passes, unless the run was doomed before its proof. -/
theorem Safe.access {acc : RawAccess} (raw : rawAccess i = some acc) :
    (∃ n a c h, env.doomed ≠ none ∧ DoomedBy (needAt checked.once f.blocks b k) env s.mem n a c h) ∨
    ∃ a c sa, env.vals acc.proof = some (.ptr a c) ∧ accessSizeAlign acc.type = some sa ∧
      accessRes s.mem (rawAddress a acc.off) c sa.1 acc.need sa.2 = .ok .ok := by
  have ordinary := (access_ordinary (.inl (by rw [raw]; rfl))).1
  cases safe.phase with
  | running notDoomed ready =>
    right
    rcases checked.allowed mem_b at_ ordinary with ⟨p, prev, proof⟩ | allowed
    · obtain ⟨live, proven⟩ := checked.follows mem_b at_ prev proof
      exact (ready p prev proof).access safe.holds.regions proven raw
    · simp only [ordinaryAllowed, raw] at allowed
      exact liveCovers_passes checked.ssa checked.sources checked.flow mem_b safe.holds safe.facts notDoomed raw allowed
  | fresh isDoomed prev ahead ready other doomed =>
    right
    obtain ⟨⟨d, v⟩, shape⟩ := isSome_iff_exists.1 ahead
    obtain ⟨lo, hi, r, al, ahi, rfl⟩ := aheadInst_shape shape
    obtain ⟨live, proven⟩ := checked.follows mem_b at_ prev rfl
    exact ready.access safe.holds.regions proven raw
  | doomed isDoomed doomed => exact .inl ⟨_, _, _, _, isDoomed, doomed⟩

include filc calls

/-- An instruction is unchecked in a doomed run only, and then for a trap's reason. -/
theorem Safe.result {r : Result} (done : instResult call prep i env s = .ok r) :
    ∀ why s', r = .stop (.unchecked why) s' → env.doomed ≠ none ∧ why ≠ .alias ∧ why ≠ .limit := by
  have valid := checked.inst mem_b at_
  rintro why s' rfl
  cases proof : heapProof i with
  | some pf =>
    obtain ⟨a, c, res, result⟩ := proof_result checked.ssa (fun b h i h' => checked.insts h h') checked.sources mem_b at_
      safe.holds filc proof (checked.sourced mem_b at_ proof) done
    have unchecked : res = .unchecked why := by
      have same := result.result
      cases res <;> cases same
      rfl
    obtain ⟨isDoomed, reason⟩ := result.unchecked why unchecked
    refine ⟨isDoomed, ?_⟩
    rcases reason with rfl | rfl <;> simp
  | none =>
    cases raw : rawAccess i with
    | some acc =>
      rcases safe.access checked mem_b at_ raw with ⟨n, a, c, h, isDoomed, doomed⟩ | ⟨a, c, sa, value, size, passes⟩
      · obtain ⟨a, c, value⟩ := rawAccess_pointer filc raw done
        obtain ⟨sa, size⟩ := rawAccess_size valid raw
        obtain ⟨al, test, _, tested, ok, fails⟩ := rawAccess_result filc valid raw size value done
        refine ⟨isDoomed, ?_⟩
        cases test with
        | ok => exact absurd rfl (ok rfl why s')
        | trap why' =>
          obtain ⟨s1, same⟩ := fails why' rfl
          cases same
          rcases accessRes_why tested with rfl | rfl | rfl | rfl <;> simp
      · obtain ⟨al, test, divides, tested, ok, _⟩ := rawAccess_result filc valid raw size value done
        rw [accessRes_align passes divides] at tested
        cases tested
        exact absurd rfl (ok rfl why s')
    | none =>
      by_cases rawCall : ∃ res callee args, i = .rawCall res callee args
      · obtain ⟨res, callee, args, rfl⟩ := rawCall
        obtain ⟨q, args', prev, rfl⟩ := checked.rawCall mem_b at_ rfl
        exfalso
        cases safe.phase with
        | running notDoomed ready =>
          obtain ⟨a, c, value, passes⟩ := ready _ prev rfl
          simp only [instResult, pointerX, valueX_tmp (c := .f) value rfl, Word.toPtr, bind_ok, Except.ok.injEq,
            exists_eq_left', passes] at done
          obtain ⟨xs, _, done⟩ := done
          exact checkedCallResult_checked calls safe.holds.regions (by simp [checkToRes, rawRes]) done why s' rfl
        | fresh _ prev' ahead =>
          rw [prev] at prev'
          cases prev'
          cases ahead
        | doomed _ doomed => cases doomed.transparent at_
      · have checked' := instResult_checked rfl filc calls valid raw proof
          (fun res f args h => rawCall ⟨res, f, args, h⟩) safe.holds.regions done
        exact absurd rfl (checked' why s')

/-! ### The step -/

omit calls in
include later in
theorem Safe.ran {r : Result} (done : instResult call prep i env s = .ok r) : InstEffect i s r :=
  instResult_effect rfl filc later (checked.inst mem_b at_) safe.holds.regions done

end

theorem doomedResult_stop {prep : Prep} {i : Inst} {env : Env} {r : Result} {out : Outcome} {s' : St}
    (done : doomedResult prep i env r = .ok (.stop out s')) :
    r = .stop out s' ∧ (∀ why, out = .unchecked why → env.doomed = none ∨ why = .alias ∨ why = .limit) ∨
      ∃ w why, r = .stop (.unchecked w) s' ∧ out = .trap (.early why) := by
  unfold doomedResult at done
  split at done
  · simp only [bind_ok, pure_ok] at done
    obtain ⟨p, _, done⟩ := done
    cases done
  · split at done
    · rename_i why isDoomed
      split at done
      · rename_i kind
        cases done
        exact .inl ⟨rfl, fun why same => by cases same; exact .inr kind⟩
      · cases done
        exact .inr ⟨_, why, rfl, rfl⟩
    · rename_i running
      cases done
      exact .inl ⟨rfl, fun _ _ => .inl running⟩
  · rename_i notUnchecked _
    cases done
    exact .inl ⟨rfl, fun why same => absurd (by rw [same]) (notUnchecked why s')⟩

section
variable {m : Module} {f : Func} {src : Sources} (checked : CheckedFunc m f src) {b : Block}
  (mem_b : b ∈ f.blocks) {k : Nat} {i : Inst} (at_ : b.insts[k]? = some i) {prep : Prep} (filc : prep.mode = .filc)
  {call : Call} (later : CallsLater prep call) (calls : CallsChecked RegionsOk prep call) {env : Env} {s : St}
  (safe : Safe checked prep b k env s.mem) {r : Result} (done : instResult call prep i env s = .ok r)
include checked mem_b at_ filc safe done

include later calls in
/-- A run that an instruction stops is not unchecked. -/
theorem Safe.stops {out : Outcome} {s' : St} (stopped : doomedResult prep i env r = .ok (.stop out s')) :
    out.Checked ∧ Later s.mem s'.mem := by
  have effect := safe.ran checked mem_b at_ filc later done
  rcases doomedResult_stop stopped with ⟨rfl, unchecked⟩ | ⟨w, why, rfl, rfl⟩
  · refine ⟨fun why same => ?_, effect.later⟩
    subst same
    obtain ⟨isDoomed, notAlias, notLimit⟩ := safe.result checked mem_b at_ filc calls done why s' rfl
    rcases unchecked why rfl with h | h | h
    · exact isDoomed h
    · exact notAlias h
    · exact notLimit h
  · exact ⟨by simp [Outcome.Checked], effect.later⟩

/-! ### Proofs that were just executed -/

/-- A proof that the run goes on from is ready for its access. -/
theorem Safe.ready (proof : proofInst i = true) {env' : Env} {s' : St} (running : env.doomed = none)
    (went : doomedResult prep i env r = .ok (.cont env' s')) : Ready prep i env' s'.mem := by
  have valid := checked.inst mem_b at_
  unfold proofInst at proof
  split at proof
  · rename_i q n off bytes rights align
    have op := validLet_op valid (by simp)
    simp only [validOp, Bool.and_eq_true, decide_eq_true_eq] at op
    simp only [instResult, bind_ok, pure_ok] at done
    obtain ⟨p, found, check, tested, rfl⟩ := done
    rcases doomedResult_cont went with h | ⟨_, _, _, _, ahead, _⟩
    · obtain ⟨x, yields, rfl, rfl⟩ := resResult_cont h
      cases check with
      | trap why => cases yields
      | ok =>
        cases yields
        refine ⟨p.1, p.2, by simp [Env.put, put], ?_⟩
        obtain ⟨base, region, based, found, inside, _⟩ := accessRes_ok.1 tested
        have bounds := object_bounds safe.holds.regions found
        simp only [inBounds, bounds.2.2.2.1] at inside
        have exact : rawAddress p.1 0 = p.1 := by
          simp only [rawAddress]
          omega
        rw [spanAccess, exact, sub_zero]
        exact tested
    · cases ahead
  · rename_i q args
    obtain ⟨arity, _⟩ := validLet_uses valid (by simp)
    simp only [opArity, opKind, map_some, kindArity, Option.some.injEq] at arity
    rcases args with _ | ⟨v, _ | ⟨_, _⟩⟩ <;> simp at arity
    simp only [instResult, bind_ok, pure_ok] at done
    obtain ⟨x, value, p, pointer, check, tested, rfl⟩ := done
    rcases doomedResult_cont went with h | ⟨_, _, _, _, ahead, _⟩
    · obtain ⟨y, yields, rfl, rfl⟩ := resResult_cont h
      cases check with
      | trap why => cases yields
      | ok =>
        cases yields
        cases x with
        | int z => cases pointer
        | limit c z => cases pointer
        | ptr a c =>
          cases pointer
          exact ⟨a, c, by simp [Env.put, put], tested⟩
    · cases ahead
  · rename_i local_ function
    obtain ⟨pf, isProof⟩ := isSome_iff_exists.1 proof
    have own : ∃ a c, env'.vals pf.fact.q = some (.ptr a c) ∧
        spanAccess s'.mem a c pf.fact.lo pf.ahi pf.fact.rights pf.fact.align = .ok .ok := by
      obtain ⟨a, c, res, result⟩ := proof_result checked.ssa (fun b h i h' => checked.insts h h') checked.sources mem_b
        at_ safe.holds filc isProof (checked.sourced mem_b at_ isProof) done
      obtain ⟨a', c', value, proven, mem, _⟩ := proof_went checked.ssa (fun b h i h' => checked.insts h h')
        checked.sources mem_b at_ safe.holds filc done went isProof (checked.sourced mem_b at_ isProof)
      rw [result.pointer] at value
      cases value
      refine ⟨a, c, proven, ?_⟩
      rw [mem]
      have tested := result.test running
      have here := result.result
      rcases doomedResult_cont went with rfl | ⟨d, v, why, p, ahead, rfl, _⟩
      · obtain ⟨x, rfl, _, _⟩ := resResult_cont here.symm
        exact proofTest_own isProof tested
      · obtain ⟨lo, hi, rt, al, ahi, rfl⟩ := aheadInst_shape ahead
        cases isProof
        cases res <;> cases here
        exact (checkAhead_early (by simpa [proofTest, aheadInst] using tested)).1
    unfold Ready
    split
    · exact absurd rfl (local_ _ _ _ _ _ _)
    · exact absurd rfl (function _ _)
    · intro pf' same
      rw [isProof] at same
      cases same
      exact own

/-- A `check_ahead` whose early bytes fail leaves a need that no access can meet. -/
theorem Safe.dooms (near : AheadsNear f) {d : Name} {v : Value} (ahead : aheadInst i = some (d, v)) {why : Why} {s' : St}
    (early : r = .stop (.trap (.early why)) s') (running : env.doomed = none) {p : Word}
    (value : valueX prep env .p v = .ok p) (effect : InstEffect i s r) :
    (∃ n a c h, (∀ i', b.insts[k + 1]? = some i' → n ∉ instDefs i') ∧
      DoomedBy (needAt checked.once f.blocks b (k + 2)) (doomEnv (env.put d p) why) s'.mem n a c h) ∧
      Ready prep i (doomEnv (env.put d p) why) s'.mem := by
  have went : doomedResult prep i env r = .ok (.cont (doomEnv (env.put d p) why) s') := by
    simp only [doomedResult, early, ahead, value, bind, Except.bind, pure, Except.pure]
  obtain ⟨lo, hi, rt, al, ahi, rfl⟩ := aheadInst_shape ahead
  have sourced := checked.sourced mem_b at_ rfl
  obtain ⟨a, c, res, result⟩ := proof_result checked.ssa (fun b h i h' => checked.insts h h') checked.sources mem_b
    at_ safe.holds filc rfl sourced done
  refine ⟨?_, safe.ready checked mem_b at_ filc done rfl running went⟩
  obtain ⟨n, e, h, base, nearE, needed, ge⟩ := aheadJustified_needed checked.valid.labels
    (checked.sources.ahead d (by simpa [proofSourced, contains_iff_mem] using sourced)) mem_b at_
  obtain ⟨x, rfl⟩ := exactBases_tmp base
  have use : x ∈ instUses (.let_ d .a (.checkAhead lo hi rt al ahi) [.tmp x]) := let_use rfl (by simp)
  have estX := safe.holds.use checked.ssa mem_b at_ use
  have estN := exactBase_established checked.ssa safe.holds.reached base (fun _ => estX)
  obtain ⟨def_, onceN⟩ := isSome_iff_exists.1 (exactBases_chain base).2
  obtain ⟨an, valueN, apart⟩ := exactBase_address checked.ssa safe.holds.reached safe.holds.defs base (fun _ => estX)
    (valueX_pointer result.pointer)
  have here := result.result
  rw [early] at here
  have tested := result.test running
  cases res <;> cases here
  obtain ⟨first, second⟩ := checkAhead_early (by simpa [proofTest, aheadInst] using tested)
  have valid := heapProof_span rfl (checked.inst mem_b at_)
  have far := near b mem_b _ (mem_of_getElem? at_)
  simp only [aheadNear, decide_eq_true_eq] at far
  have inside := (List.getElem?_eq_some_iff.1 at_).1
  have moved := effect.went done went
  refine ⟨n, an, c, h, fun i' at' => ?_, ?_, needed, ?_⟩
  · have reached := reachable_next mem_b (by omega) (by omega) safe.holds.reached
    exact established_kept onceN mem_b at' (by exact_mod_cast reached) (by exact_mod_cast estN.next checked.ssa)
  · rw [moved.vals n (established_kept onceN mem_b at_ safe.holds.reached estN)]
    exact valueN
  · exact beyond_range safe.holds.regions first second apart nearE far valid.2 ge

include later in
/-- What holds before an instruction of a checked function holds after it. -/
theorem Safe.step (near : AheadsNear f) {env' : Env} {s' : St} (went : doomedResult prep i env r = .ok (.cont env' s')) :
    Safe checked prep b (k + 1) env' s'.mem ∧ Later s.mem s'.mem := by
  have effect := safe.ran checked mem_b at_ filc later done
  have moved := effect.went done went
  have sourced : ∀ pf, heapProof i = some pf → proofSourced src i = true :=
    fun pf proof => checked.sourced mem_b at_ proof
  have insts : ∀ b ∈ f.blocks, ∀ i ∈ b.insts, validInst (funcCtx m .filc f) i = true :=
    fun b h i h' => checked.insts h h'
  refine ⟨⟨?_, ?_, ?_⟩, moved.later⟩
  · have holds := safe.holds.step checked.ssa insts checked.sources mem_b at_ filc done went sourced effect
    exact_mod_cast holds
  · exact safe.facts.step checked.ssa insts checked.sources checked.flow mem_b at_ safe.holds filc done went sourced
      effect (fun pf proof => checked.selfless mem_b at_ proof)
  · cases safe.phase with
    | running notDoomed ready =>
      rcases doomedResult_cont went with rfl | ⟨d, v, why, p, ahead, early, value, rfl⟩
      · refine .running ((instResult_keeps done).2.trans notDoomed) fun p prev proof => ?_
        cases at_.symm.trans prev
        exact safe.ready checked mem_b at_ filc done proof notDoomed went
      · obtain ⟨⟨n, a, c, h, other, doomed⟩, ready⟩ :=
          safe.dooms checked mem_b at_ filc done near ahead early notDoomed value effect
        exact .fresh (by simp [doomEnv]) at_ (by simp [ahead]) ready other doomed
    | @fresh p n a h c isDoomed prev ahead ready other doomed =>
      have transparent := (checked.aheadAccess mem_b at_ prev ahead).1
      simp only [aheadTransparent, Bool.and_eq_true] at transparent
      have next : DoomedBy (needAt checked.once f.blocks b (k + 1)) env' s'.mem n a c h :=
        ⟨(moved.vals n (other i at_)).trans doomed.value, doomed.needed,
          doomed.beyond.same (moved.same transparent.1)⟩
      exact .doomed (fun none_ => isDoomed (moved.doomed none_)) next
    | doomed isDoomed doomed =>
      have next := doomed.step checked.ssa mem_b at_ safe.holds filc (checked.inst mem_b at_) done went effect
      exact .doomed (fun none_ => isDoomed (moved.doomed none_)) next

end

end Nanofil
