import Nanofil.Effects

/-! Which instructions can be unchecked, and when: a raw access exactly where the test
it stands for fails, and nothing else that is not itself a proof or a raw call. -/
namespace Nanofil
open Results

/-! ### The test of a raw access -/

/-- The result is unchecked where the test failed, and only there. -/
def Decides (test : Check) (r : Result) : Prop :=
  (test = .ok → r.Checked) ∧ ∀ why, test = .trap why → ∃ s, r = .stop (.unchecked why) s

variable {a : Int} {c : Cap} {t : LoadType} {d : Name} {env : Env} {s : St} {acc : RawAccess} {ctx : ValidCtx} {i : Inst}
  {prep : Prep} {r : Result} {op : Op}

theorem loadOpRes_test {k : Cls} {mem : Mem} {r : Res Word × Mem} (notP : t ≠ .p)
    (done : loadOpRes t k .filc (.ptr a c) mem = .ok r) :
    ∃ test, accessRes mem a c (loadBytes t) .read 1 = .ok test ∧ (test = .ok → ∃ w, r.1 = .val w) ∧
      ∀ why, test = .trap why → r.1 = .trap why := by
  have int : ∀ {x : Res Int × Mem}, intLoadRes .filc (loadBytes t) (.ptr a c) mem = .ok x →
      ∃ test, accessRes mem a c (loadBytes t) .read 1 = .ok test ∧ (test = .ok → ∃ n, x.1 = .val n) ∧
        ∀ why, test = .trap why → x.1 = .trap why := by
    intro x loaded
    simp only [intLoadRes, bind_ok] at loaded
    obtain ⟨test, tested, loaded⟩ := loaded
    refine ⟨test, tested, ?_, ?_⟩
    · rintro rfl
      cases loaded
      exact ⟨_, by simp [loadRes]; rfl⟩
    · rintro why rfl
      cases loaded
      rfl
  have word : ∀ {x : Res Int × Mem}, intLoadRes .filc (loadBytes t) (.ptr a c) mem = .ok x → r.1 = x.1.word →
      ∃ test, accessRes mem a c (loadBytes t) .read 1 = .ok test ∧ (test = .ok → ∃ w, r.1 = .val w) ∧
        ∀ why, test = .trap why → r.1 = .trap why := by
    intro x loaded same
    obtain ⟨test, tested, passes, fails⟩ := int loaded
    refine ⟨test, tested, fun ok => ?_, fun why trap => ?_⟩
    · obtain ⟨n, value⟩ := passes ok
      exact ⟨.int n, by rw [same, value]; rfl⟩
    · rw [same, fails why trap]
      rfl
  have extended : ∀ {x : Res Int × Mem}, intLoadRes .filc (loadBytes t) (.ptr a c) mem = .ok x →
      extendedRes x.1 t k = .ok r.1 →
      ∃ test, accessRes mem a c (loadBytes t) .read 1 = .ok test ∧ (test = .ok → ∃ w, r.1 = .val w) ∧
        ∀ why, test = .trap why → r.1 = .trap why := by
    intro x loaded same
    obtain ⟨test, tested, passes, fails⟩ := int loaded
    refine ⟨test, tested, fun ok => ?_, fun why trap => ?_⟩
    · obtain ⟨n, value⟩ := passes ok
      simp only [value, extendedRes, bind_ok, pure_ok] at same
      obtain ⟨e, _, m, _, same⟩ := same
      exact ⟨_, same.symm⟩
    · rw [fails why trap] at same
      exact (Except.ok.inj same).symm
  cases t with
  | p => exact absurd rfl notP
  | l | s | d | x =>
    simp only [loadOpRes, bind_ok, pure_ok] at done
    obtain ⟨x, loaded, rfl⟩ := done
    exact word loaded rfl
  | sb | ub | sh | uh | sw | uw =>
    simp only [loadOpRes, bind_ok, pure_ok] at done
    obtain ⟨x, loaded, y, same, rfl⟩ := done
    exact extended loaded same

theorem storeRes_test {wd : Width} {x : Word} {mem : Mem} {r : Res Unit × Mem} (notP : wd ≠ .p)
    (done : storeRes .filc wd mem (.ptr a c) x = .ok r) :
    ∃ al test, (if wd = .x then 8 else 1) % al = 0 ∧ accessRes mem a c (widthBytes wd) .write al = .ok test ∧
      r.1 = storeResult test := by
  simp only [storeRes, bind_ok, pure_ok] at done
  obtain ⟨vas, known, test, tested, mem', _, rfl⟩ := done
  refine ⟨vas.2.1, test, ?_, tested, rfl⟩
  cases wd
  case p => exact absurd rfl notP
  all_goals
    cases known
    simp

theorem casChecked_val {k : Cls} {e n : Word} {size : Nat} {mem : Mem}
    {r : Res Word × Mem} (done : casChecked t k e n a size mem = .ok r) : ∃ w, r.1 = .val w := by
  unfold casChecked at done
  split at done
  · simp only [bind_ok] at done
    obtain ⟨x, _, done⟩ := done
    split at done
    · simp only [pure_ok] at done
      subst done
      exact ⟨_, rfl⟩
    · cases done
  · cases done
  · split at done
    · simp only [bind_ok, pure_ok] at done
      obtain ⟨res, extended, rfl⟩ := done
      unfold casResult at extended
      split at extended
      · cases extended
        exact ⟨_, rfl⟩
      · simp only [extendedRes, bind_ok, pure_ok] at extended
        obtain ⟨_, _, _, _, rfl⟩ := extended
        exact ⟨_, rfl⟩
    · cases done
  · cases done

theorem casRes_test {k : Cls} {e n : Word} {mem : Mem} {r : Res Word × Mem}
    (done : casRes t k e n a c mem = .ok r) : ∃ sa test, accessSizeAlign (.cas t) = some sa ∧
      accessRes mem a c sa.1 .write sa.2 = .ok test ∧ (test = .ok → ∃ w, r.1 = .val w) ∧
      ∀ why, test = .trap why → r.1 = .trap why := by
  simp only [casRes, bind_ok] at done
  obtain ⟨sa, size, test, tested, done⟩ := done
  refine ⟨sa, test, orNoRule_ok.1 size, tested, ?_, ?_⟩
  · rintro rfl
    exact casChecked_val done
  · rintro why rfl
    cases done
    rfl

/-- A raw result is unchecked where what it stands for would have trapped. -/
theorem rawRes_decides {test : Check} {res : Res Word}
    (passes : test = .ok → ∃ w, res = .val w) (fails : ∀ why, test = .trap why → res = .trap why) :
    Decides test (resResult (rawRes res) d env s) := by
  refine ⟨fun ok => ?_, fun why trap => ?_⟩
  · obtain ⟨w, rfl⟩ := passes ok
    simp [rawRes, resResult, Result.Checked]
  · rw [fails why trap]
    exact ⟨s, rfl⟩

/-- A raw access by its proof's address: it is the test of its size and rights. -/
theorem rawAccess_result (filc : prep.mode = .filc) {call : Call} (valid : validInst ctx i = true) (raw : rawAccess i = some acc)
    {sa : Int × Int} (size : accessSizeAlign acc.type = some sa)
    (value : env.vals acc.proof = some (.ptr a c)) (done : instResult call prep i env s = .ok r) :
    ∃ al test, sa.2 % al = 0 ∧ accessRes s.mem (rawAddress a acc.off) c sa.1 acc.need al = .ok test ∧
      Decides test r := by
  have proofX : valueX prep env .a (.tmp acc.proof) = .ok (.ptr a c) := valueX_tmp value rfl
  unfold rawAccess at raw
  split at raw <;> cases raw
  · rename_i d k t off q
    have op := validLet_op valid (by simp)
    simp only [validOp, decide_eq_true_eq] at op
    have here : letResult prep d k (.rawLoad t off) [.tmp q] env s = .ok r := by
      cases k <;> exact done
    simp only [letResult, filc, opArgClasses, opKind, kindArgClasses, filcClasses, orNoRule, if_true, Option.bind,
      valuesX, proofX, bind, Except.bind, pure, Except.pure] at here
    split at here
    · cases here
    · rename_i res ran
      cases here
      have kind : ∃ r0, loadOpRes t k .filc (.ptr (rawAddress a off) c) s.mem = .ok r0 ∧ res = (rawRes r0.1, r0.2) := by
        have done : kindRes .ld (.rawLoad t off) k .filc [.ptr a c] s.mem = .ok res := by
          cases k <;> exact ran
        simp only [kindRes, if_true, bind_ok, pure_ok] at done
        obtain ⟨r0, loaded, rfl⟩ := done
        exact ⟨r0, loaded, rfl⟩
      obtain ⟨r0, loaded, rfl⟩ := kind
      obtain ⟨test, tested, passes, fails⟩ := loadOpRes_test op loaded
      refine ⟨1, test, by simp, ?_, rawRes_decides passes fails⟩
      have bytes : sa.1 = loadBytes t := by
        cases t <;> cases size <;> rfl
      rw [bytes]
      exact tested
  · rename_i wd off v q
    simp only [validInst, Bool.and_eq_true, decide_eq_true_eq] at valid
    simp only [instResult, pointerX, proofX, bind, Except.bind, pure, Except.pure, Word.toPtr] at done
    split at done
    · cases done
    · rename_i x _
      split at done
      · cases done
      · rename_i res stored
        cases done
        obtain ⟨al, test, divides, tested, same⟩ := storeRes_test valid.1.1 stored
        refine ⟨al, test, ?_, ?_, ?_⟩
        · have : sa.2 = if wd = .x then 8 else 1 := by
            cases wd
            case p => exact absurd rfl valid.1.1
            all_goals
              cases size
              rfl
          rw [this]
          exact divides
        · have bytes : sa.1 = widthBytes wd := by
            cases wd <;> cases size <;> rfl
          rw [bytes]
          exact tested
        · rw [same]
          cases test with
          | ok => exact ⟨fun _ => by simp [storeResult, rawRes, storeResResult, Result.Checked], fun why h => by cases h⟩
          | trap why => exact ⟨fun h => (by cases h), fun why' h => (by cases h; exact ⟨_, rfl⟩)⟩
  · rename_i d k off es q
    cases size
    have here : letResult prep d k (.rawLoadPointer off es) [.tmp q] env s = .ok r := by
      cases k <;> exact done
    simp only [letResult, filc, opArgClasses, opKind, kindArgClasses, filcClasses, orNoRule, if_true, Option.bind,
      valuesX, proofX, bind, Except.bind, pure, Except.pure] at here
    split at here
    · cases here
    · rename_i res ran
      cases here
      have kind : kindRes .ldPointer (.rawLoadPointer off es) k .filc [.ptr a c] s.mem = .ok res := by
        cases k <;> exact ran
      simp only [kindRes] at kind
      split at kind
      · simp only [bind_ok] at kind
        obtain ⟨test, tested, loaded⟩ := kind
        have unchecked := (pointerLoadEffectsRes_effect loaded).2
        refine ⟨8, test, by simp, tested, ?_, ?_⟩
        · rintro rfl
          refine resResult_checked.2 fun why h => ?_
          have := (unchecked why).1 h
          cases this
        · rintro why rfl
          rw [(unchecked why).2 rfl]
          exact ⟨_, rfl⟩
      · cases kind
  · rename_i off v q es
    cases size
    simp only [instResult, pointerX, proofX, bind_ok, pure_ok, Except.ok.injEq, exists_eq_left', Word.toPtr] at done
    obtain ⟨x, _, test, tested, res, stored, rfl⟩ := done
    have unchecked := (pointerStoreEffectsRes_effect stored).2
    refine ⟨8, test, by simp, tested, ?_, ?_⟩
    · rintro rfl
      refine storeResResult_checked.2 fun why h => ?_
      have := (unchecked why).1 h
      cases this
    · rintro why rfl
      rw [(unchecked why).2 rfl]
      exact ⟨_, rfl⟩
  · rename_i d k t off q vs
    have here : letResult prep d k (.rawCas t off) (.tmp q :: vs) env s = .ok r := by
      cases k <;> exact done
    simp only [letResult, filc, opArgClasses, opKind, kindArgClasses, filcClasses, orNoRule, if_true, Option.bind,
      valuesX, proofX, bind_ok, pure_ok, Except.ok.injEq, exists_eq_left'] at here
    obtain ⟨xs, ⟨ys, _, rfl⟩, res, ran, rfl⟩ := here
    have kind : kindRes .rawCas (.rawCas t off) k .filc (.ptr a c :: ys) s.mem = .ok res := by
      cases k <;> exact ran
    unfold kindRes at kind
    split at kind
    any_goals (cases kind; done)
    any_goals contradiction
    all_goals
      rename_i heq heq'
      cases heq
      cases heq'
      simp only [if_true, bind_ok, pure_ok] at kind
      obtain ⟨r0, exchanged, rfl⟩ := kind
      obtain ⟨sa', test, size', tested, passes, fails⟩ := casRes_test exchanged
      rw [size] at size'
      cases size'
      exact ⟨sa.2, test, Int.emod_self, tested, rawRes_decides passes fails⟩

theorem valueX_proof {n : Name} {w : Word} (read : valueX prep env .a (.tmp n) = .ok w) : env.vals n = some w := by
  simp only [valueX] at read
  split at read
  · rename_i w' assigned
    cases w' <;> cases read <;> exact assigned
  · cases read

theorem rawAccess_size (valid : validInst ctx i = true)
    (raw : rawAccess i = some acc) : ∃ sa, accessSizeAlign acc.type = some sa := by
  unfold rawAccess at raw
  split at raw <;> cases raw
  · rename_i t off q
    cases t <;> exact ⟨_, rfl⟩
  · rename_i wd off v q
    cases wd <;> exact ⟨_, rfl⟩
  · exact ⟨_, rfl⟩
  · exact ⟨_, rfl⟩
  · have op := validLet_op valid (by simp)
    simp only [validOp] at op
    exact ⟨_, by simp [accessSizeAlign, op]; rfl⟩

/-- A raw access that has a result was by a pointer. -/
theorem rawAccess_pointer (filc : prep.mode = .filc) {call : Call}
    (raw : rawAccess i = some acc) (done : instResult call prep i env s = .ok r) :
    ∃ a c, env.vals acc.proof = some (.ptr a c) := by
  have word : ∀ {w : Word} {p : Int × Cap}, valueX prep env .a (.tmp acc.proof) = .ok w → w.toPtr = .ok p →
      ∃ a c, env.vals acc.proof = some (.ptr a c) := by
    intro w p read pointer
    cases w with
    | int z => cases pointer
    | limit c z => cases pointer
    | ptr a c => exact ⟨a, c, valueX_proof read⟩
  unfold rawAccess at raw
  split at raw <;> cases raw
  · rename_i d k t off q
    have here : letResult prep d k (.rawLoad t off) [.tmp q] env s = .ok r := by
      cases k <;> exact done
    simp only [letResult, filc, bind_ok, pure_ok] at here
    obtain ⟨classes, hclasses, xs, read, res, ran, rfl⟩ := here
    cases hclasses
    obtain ⟨w, rfl, value⟩ := valuesX_one read
    have kind : kindRes .ld (.rawLoad t off) k .filc [w] s.mem = .ok res := by
      cases k <;> exact ran
    cases w with
    | ptr a c => exact word value (p := (a, c)) rfl
    | int z => cases kind
    | limit c z => cases kind
  · simp only [instResult, pointerX, bind_ok] at done
    obtain ⟨x, _, p, ⟨w, value, pointer⟩, _⟩ := done
    exact word value pointer
  · rename_i d k off es q
    have here : letResult prep d k (.rawLoadPointer off es) [.tmp q] env s = .ok r := by
      cases k <;> exact done
    simp only [letResult, filc, bind_ok, pure_ok] at here
    obtain ⟨classes, hclasses, xs, read, res, ran, rfl⟩ := here
    cases hclasses
    obtain ⟨w, rfl, value⟩ := valuesX_one read
    have kind : kindRes .ldPointer (.rawLoadPointer off es) k .filc [w] s.mem = .ok res := by
      cases k <;> exact ran
    cases w with
    | ptr a c => exact word value (p := (a, c)) rfl
    | int z => cases kind
    | limit c z => cases kind
  · simp only [instResult, pointerX, bind_ok] at done
    obtain ⟨x, _, p, ⟨w, value, pointer⟩, _⟩ := done
    exact word value pointer
  · rename_i d k t off q vs
    have here : letResult prep d k (.rawCas t off) (.tmp q :: vs) env s = .ok r := by
      cases k <;> exact done
    simp only [letResult, filc, bind_ok, pure_ok] at here
    obtain ⟨classes, hclasses, xs, read, res, ran, rfl⟩ := here
    cases hclasses
    simp only [valuesX, bind_ok, pure_ok] at read
    obtain ⟨w, value, ys, _, rfl⟩ := read
    have kind : kindRes .rawCas (.rawCas t off) k .filc (w :: ys) s.mem = .ok res := by
      cases k <;> exact ran
    cases w with
    | ptr a c => exact word value (p := (a, c)) rfl
    | int z =>
      unfold kindRes at kind
      split at kind <;> first | (cases kind; done) | contradiction | (rename_i heq; cases heq)
    | limit c z =>
      unfold kindRes at kind
      split at kind <;> first | (cases kind; done) | contradiction | (rename_i heq; cases heq)

/-! ### Everything else is checked -/

theorem opResult_class {mode : Mode} {k : Cls} (result : opResultOk mode op k = true) :
    (heapProofOp op = true → k = .a) ∧ (op = .checkFunction → k = .f) := by
  cases op
  all_goals
    refine ⟨fun proof => ?_, fun function => ?_⟩
    all_goals
      try cases proof
      try cases function
  all_goals
    simp only [opResultOk, opKind, Option.any_some, kindResultOk, Bool.and_eq_true, decide_eq_true_eq] at result
    exact result.2

theorem validUse_proof (mode : ctx.mode = .filc) {v : Value} (valid : validUse ctx .a v = true) : ∃ q, v = .tmp q := by
  cases v with
  | tmp q => exact ⟨q, rfl⟩
  | const c => simp [validUse, constUseOk, floatClass, proofClass, classTable] at valid
  | global g => simp [validUse, symbolUseOk, mode] at valid

/-- A valid heap proof has the shape of one, a valid raw access that of its own. -/
theorem valid_shape (mode : ctx.mode = .filc) {k : Cls} {args : List Value} (valid : validInst ctx (.let_ d k op args) = true) :
    (heapProofOp op = true → (heapProof (.let_ d k op args)).isSome) ∧
      ((∃ t off, op = .rawLoad t off) ∨ (∃ off es, op = .rawLoadPointer off es) ∨ (∃ t off, op = .rawCas t off) →
        (rawAccess (.let_ d k op args)).isSome) := by
  constructor
  · intro proof
    obtain ⟨arity, result, _⟩ := validLet_uses valid (by rintro rfl; cases proof)
    cases (opResult_class result).1 proof
    cases op <;> cases proof
    all_goals
      simp only [opArity, opKind, Option.map_some, kindArity, Option.some.injEq] at arity
      rcases args with _ | ⟨p, _ | ⟨q, _ | ⟨r, _ | ⟨_, _⟩⟩⟩⟩ <;> simp at arity
      rfl
  · intro raw
    have notCopy : op ≠ .copy := by
      rintro rfl
      rcases raw with ⟨_, _, h⟩ | ⟨_, _, h⟩ | ⟨_, _, h⟩ <;> cases h
    obtain ⟨arity, _, ks, classes, uses⟩ := validLet_uses valid notCopy
    rcases raw with ⟨t, off, rfl⟩ | ⟨off, es, rfl⟩ | ⟨t, off, rfl⟩
    all_goals
      simp only [opArity, opKind, Option.map_some, kindArity, Option.some.injEq] at arity
      simp only [opArgClasses, opKind, kindArgClasses, filcClasses, mode, if_true, Option.bind, Option.some.injEq]
        at classes
      subst classes
      rcases args with _ | ⟨p, _ | ⟨q, _ | ⟨r, _ | ⟨_, _⟩⟩⟩⟩ <;> simp at arity
      simp only [validUses, Bool.and_eq_true] at uses
      obtain ⟨q, rfl⟩ := validUse_proof mode uses.1
      rfl

theorem kindRes_bound {kind : OpKind} (hkind : opKind op = some kind)
    (bound : (∃ lo hi, op = .spanTest lo hi) ∨ ∃ n, op = .limit n) {k : Cls} {xs : List Word} {mem : Mem}
    {r : Res Word × Mem} (done : kindRes kind op k .filc xs mem = .ok r) : r.1.Checked := by
  rcases bound with ⟨lo, hi, rfl⟩ | ⟨n, rfl⟩ <;> cases hkind
  all_goals
    unfold kindRes at done
    split at done
    any_goals (cases done; done)
    any_goals contradiction
    all_goals
      rename_i heq
      cases heq
      split at done
      · first
        | (obtain ⟨_, tested⟩ := keep_effect done
           unfold spanTestRes at tested
           split at tested
           · exact fun why h => by rw [h] at tested; cases tested
           · simp only [bind_ok, pure_ok] at tested
             obtain ⟨_, _, tested⟩ := tested
             exact fun why h => by rw [h] at tested; cases tested)
        | (cases done; simp)
      · cases done

theorem letResult_checked (mode : ctx.mode = .filc) (filc : prep.mode = .filc) {k : Cls} {args : List Value} (valid : validInst ctx (.let_ d k op args) = true)
    (raw : rawAccess (.let_ d k op args) = none) (proof : heapProof (.let_ d k op args) = none) (done : letResult prep d k op args env s = .ok r) : r.Checked := by
  simp only [letResult, filc, bind_ok, pure_ok] at done
  obtain ⟨classes, _, xs, _, res, ran, rfl⟩ := done
  refine resResult_checked.2 ?_
  obtain ⟨proofShape, rawShape⟩ := valid_shape mode valid
  cases checked : checkedOp op with
  | false => exact opRes_checked ran checked
  | true =>
    have general : ∀ kind, opKind op = some kind → kindRes kind op k .filc xs s.mem = .ok res := by
      intro kind hkind
      have noFloat : floatArithmeticOp op = false := by
        cases op <;> first | (cases checked; done) | rfl
      unfold opRes at ran
      split at ran
      · cases checked
      · rw [noFloat] at ran
        simpa [hkind, orNoRule, bind, Except.bind] using ran
    cases op <;> try (cases checked; done)
    case spanTest => exact kindRes_bound rfl (.inl ⟨_, _, rfl⟩) (general _ rfl)
    case limit => exact kindRes_bound rfl (.inr ⟨_, rfl⟩) (general _ rfl)
    case checkLocal => cases general _ rfl
    case checkFunction => cases general _ rfl
    case rawLoad => simp [raw] at rawShape
    case rawLoadPointer => simp [raw] at rawShape
    case rawCas => simp [raw] at rawShape
    all_goals simp [proof, heapProofOp] at proofShape

theorem checkedRes_checked (check : Check) (p : Word) : (checkedRes check p).Checked := by
  cases check <;> simp [checkedRes]

theorem checkToRes_checked (check : Check) : (checkToRes check).Checked := by
  cases check <;> simp [checkToRes]

theorem localAllocResult_checked {n : Name} {size : Int} (done : localAllocResult prep n size env s = .ok r) : r.Checked := by
  unfold localAllocResult at done
  split at done
  · split at done <;> cases done <;> simp [Result.Checked]
  · cases done

/-- An instruction of unchecked IR is checked, in either mode. -/
theorem instResult_unchecked {I : Mem → Prop} {call : Call} (calls : CallsChecked I prep call) (ordinary : checkedInst i = false) (ok : I s.mem)
    (done : instResult call prep i env s = .ok r) : r.Checked := by
  unfold instResult at done
  split at done
  any_goals (cases ordinary; done)
  · cases done
    simp [Result.Checked]
  · exact localAllocResult_checked done
  · simp only [bind_ok, pure_ok] at done
    obtain ⟨p, _, res, loaded, rfl⟩ := done
    exact resResult_checked.2 (loadOpRes_effect loaded).2
  · simp only [bind_ok, pure_ok] at done
    obtain ⟨p, _, x, _, res, stored, rfl⟩ := done
    exact storeResResult_checked.2 (storeRes_effect stored).2
  · split at done
    · cases done
      simp [resResult, Result.Checked]
    · cases done
  · simp only [letResult, bind_ok, pure_ok] at done
    obtain ⟨ks, _, xs, _, res, ran, rfl⟩ := done
    exact resResult_checked.2 (opRes_checked ran ordinary)
  · simp only [storeInstResult, bind_ok, pure_ok] at done
    obtain ⟨x, _, addr, _, res, stored, rfl⟩ := done
    exact storeResResult_checked.2 (storeRes_effect stored).2
  · split at done
    · simp only [storeInstResult, bind_ok, pure_ok] at done
      obtain ⟨x, _, addr, _, res, stored, rfl⟩ := done
      exact storeResResult_checked.2 (storeRes_effect stored).2
    · cases done
  · cases done
    simp [Result.Checked]
  · split at done
    · simp only [bind_ok, pure_ok] at done
      obtain ⟨p, _, check, _, rfl⟩ := done
      exact storeResResult_checked.2 (checkToRes_checked check)
    · cases done
      simp [Result.Checked]
  · split at done
    · cases done
      simp [Result.Checked]
    · simp only [bind_ok, pure_ok] at done
      obtain ⟨xs, _, rfl⟩ := done
      simp [Result.Checked]
  · simp only [bind_ok] at done
    obtain ⟨xs, _, out, direct, done⟩ := done
    exact (callOutcomeResult_effect done).2.2 (directCallOutcome_checked calls ok direct)
  · simp only [bind_ok] at done
    obtain ⟨p, _, xs, _, check, _, done⟩ := done
    exact checkedCallResult_checked calls ok (checkToRes_checked check) done
  · cases done

/-- An instruction that is no raw access, no heap proof and no raw call is checked. -/
theorem instResult_checked (mode : ctx.mode = .filc) (filc : prep.mode = .filc)
    {I : Mem → Prop} {call : Call} (calls : CallsChecked I prep call) (valid : validInst ctx i = true)
    (raw : rawAccess i = none) (proof : heapProof i = none) (noCall : ∀ res f args, i ≠ .rawCall res f args) (ok : I s.mem) (done : instResult call prep i env s = .ok r) :
    r.Checked := by
  cases checked : checkedInst i with
  | false => exact instResult_unchecked calls checked ok done
  | true =>
    unfold instResult at done
    split at done
    any_goals (cases checked; done)
    · simp only [bind_ok, pure_ok] at done
      obtain ⟨p, _, check, _, rfl⟩ := done
      exact resResult_checked.2 (checkedRes_checked check _)
    · simp only [bind_ok, pure_ok] at done
      obtain ⟨x, _, p, _, check, _, rfl⟩ := done
      exact resResult_checked.2 (checkedRes_checked check _)
    · exact letResult_checked mode filc valid raw proof done
    · simp only [bind_ok, pure_ok] at done
      obtain ⟨xs, _, a, _, c, _, n, _, rfl⟩ := done
      simp [resResult, Result.Checked]
    · cases done
      simp [Result.Checked]
    · rename_i wd off v a
      simp only [validInst, Bool.and_eq_true] at valid
      obtain ⟨q, rfl⟩ := validUse_proof mode valid.2
      cases raw
    · rename_i off v a es
      simp only [validInst, Bool.and_eq_true] at valid
      obtain ⟨q, rfl⟩ := validUse_proof mode valid.2
      cases raw
    · exact absurd rfl (noCall _ _ _)

end Nanofil
