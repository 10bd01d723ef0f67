import Mathlib.Algebra.Order.BigOperators.Group.List
import Nanofil.Runs

/-! What a valid module's runs start from: its functions, its first memory and, in
plain mode, code that has nothing of Fil-C in it. -/
namespace Nanofil
open List Option Results

/-- Static data ends below the heap's start. -/
def dataBelowHeap (m : Module) : Bool :=
  match initialLayout m with
  | .ok lay => lay.regions.all (fun r => r.end_ < stackBase)
  | .error _ => true

/-! ### Functions -/

variable {f : Func} {m : Module} {stage : Stage} {unknown : Int → Fin 256} {i : Inst}

theorem validModule_func (valid : validModule m = true) (mem : f ∈ m.funcs) : ValidFunc m (moduleMode m) (moduleStage m) f := by
  simp only [validModule, Bool.and_eq_true, List.all_eq_true] at valid
  simp only [Module.funcs, mem_filterMap] at mem
  obtain ⟨item, mem, same⟩ := mem
  split at same <;> cases same
  exact validFunc_iff.1 (valid.2 _ mem)

theorem preparedFuncs_mem {n : Name} (named : preparedFuncs m n = some f) : f ∈ m.funcs := by
  have body : ∀ {n f}, bodied m n = some f → f ∈ m.funcs := fun found => mem_of_find?_eq_some found
  unfold preparedFuncs at named
  split at named
  · cases named
    exact body ‹_›
  · split at named
    · exact body named
    · cases named

/-! ### The first memory -/

theorem itemsSize_nonneg {items : List DataItem} (shape : ∀ i ∈ items, dataItemShape i = true) :
    0 ≤ itemsSize items := by
  refine sum_nonneg fun n mem => ?_
  obtain ⟨item, inItems, rfl⟩ := List.mem_map.1 mem
  have ok := shape item inItems
  unfold itemSize
  split
  · simpa [dataItemShape] using ok
  all_goals exact Int.natCast_nonneg _

/-- Objects laid out so far are live, apart and below the next. -/
structure LayoutOk (lay : Layout) : Prop where
  bounds : ∀ r ∈ lay.regions, 0 ≤ r.base ∧ r.base ≤ r.end_ ∧ r.end_ < lay.at_
  live : ∀ r ∈ lay.regions, r.life = .live
  unique : (lay.regions.map (·.base)).Nodup
  apart : lay.regions.Pairwise fun r r' => r'.end_ ≤ r.base
  at_ : 0 ≤ lay.at_

theorem filcLayout_ok {mode : Mode} {lay lay' : Layout} {item : Item}
    (valid : validItem m mode stage item = true) (ok : LayoutOk lay) (done : filcLayout lay item = .ok lay') :
    LayoutOk lay' := by
  have low := ok.at_
  rcases item with f | d | a
  · cases done
    have above : lay.at_ ≤ roundUp lay.at_ 16 := roundUp_ge (by omega)
    refine ⟨fun r mem => ?_, ok.live, ok.unique, ok.apart, by dsimp only; omega⟩
    have := ok.bounds r mem
    dsimp only
    omega
  · simp only [validItem, validData, Bool.and_eq_true, List.all_eq_true] at valid
    have size := itemsSize_nonneg fun i mem => (valid.1.2 i mem).1.2
    have above : lay.at_ ≤ roundUp lay.at_ (max d.align 16) := roundUp_ge (by omega)
    have round : itemsSize d.items ≤ roundUp (itemsSize d.items) 8 := roundUp_ge (by omega)
    simp only [filcLayout] at done
    split at done
    · cases done
      exact ok
    · simp only [bind_ok, pure_ok] at done
      obtain ⟨cap, _, rfl⟩ := done
      refine ⟨fun r mem => ?_, fun r mem => ?_, ?_, pairwise_cons.2 ⟨fun r mem => ?_, ok.apart⟩, by dsimp only; omega⟩
      · rcases mem_cons.1 mem with rfl | mem
        · dsimp only
          omega
        · have := ok.bounds r mem
          dsimp only
          omega
      · rcases mem_cons.1 mem with rfl | mem
        · rfl
        · exact ok.live r mem
      · simp only [map_cons, nodup_cons, List.mem_map, not_exists, not_and]
        refine ⟨fun r mem same => ?_, ok.unique⟩
        have := ok.bounds r mem
        omega
      · have := ok.bounds r mem
        dsimp only
        omega
  · cases done
    exact ok

theorem filcLayouts_ok {mode : Mode} {items : List Item} : ∀ {lay lay' : Layout},
    (∀ i ∈ items, validItem m mode stage i = true) → LayoutOk lay → items.foldlM filcLayout lay = .ok lay' →
    LayoutOk lay' := by
  induction items with
  | nil =>
    intro lay lay' _ ok done
    cases done
    exact ok
  | cons item items ih =>
    intro lay lay' valid ok done
    simp only [foldlM_cons, bind_ok] at done
    obtain ⟨lay1, first, done⟩ := done
    exact ih (fun i h => valid i (mem_cons_of_mem _ h)) (filcLayout_ok (valid item mem_cons_self) ok first)
      done

/-- A Fil-C module's first memory is laid out in order, below the heap when its data is. -/
theorem initialMemory_layout {r : Layout × Mem} (valid : validModule m = true)
    (filc : moduleMode m = .filc) (below : dataBelowHeap m = true) (done : initialMemory m unknown = .ok r) :
    ∃ lay, LayoutOk lay ∧ r.2.regions = lay.regions ∧ r.2.next = stackBase ∧ ∀ r' ∈ lay.regions, r'.end_ < stackBase := by
  simp only [initialMemory, bind_ok, pure_ok] at done
  obtain ⟨lay, laid, c, _, rfl⟩ := done
  simp only [dataBelowHeap, laid, List.all_eq_true, decide_eq_true_eq] at below
  simp only [initialLayout, filc, bind_ok, pure_ok] at laid
  obtain ⟨lay1, laid, globals, _, rfl⟩ := laid
  simp only [validModule, Bool.and_eq_true, List.all_eq_true] at valid
  have empty : LayoutOk emptyLayout :=
    ⟨by simp [emptyLayout], by simp [emptyLayout], by simp [emptyLayout], by simp [emptyLayout], by decide⟩
  exact ⟨lay1, filcLayouts_ok valid.2 empty laid, rfl, rfl, below⟩

theorem initialMemory_ok {r : Layout × Mem} (valid : validModule m = true)
    (filc : moduleMode m = .filc) (below : dataBelowHeap m = true) (done : initialMemory m unknown = .ok r) :
    RegionsOk r.2 := by
  obtain ⟨lay, ok, regions, next, below⟩ := initialMemory_layout valid filc below done
  refine ⟨fun r mem => ?_, fun r mem freed => ?_, regions ▸ ok.unique, by simp [next, stackBase]⟩
  · rw [regions] at mem
    have := ok.bounds r mem
    have := below r mem
    rw [next]
    simp only [stackBase] at this ⊢
    omega
  · rw [regions] at mem
    rw [ok.live r mem] at freed
    cases freed

/-! ### Plain mode -/

theorem moduleMode_plain_func (plain : moduleMode m = .plain) (mem : f ∈ m.funcs) : pointerItem (.func f) = false := by
  unfold moduleMode at plain
  split at plain
  · cases plain
  · rename_i none_
    simp only [Bool.or_eq_true, List.any_eq_true, not_or, not_exists, not_and] at none_
    simp only [Module.funcs, mem_filterMap] at mem
    obtain ⟨item, mem, same⟩ := mem
    split at same <;> cases same
    simpa using none_.1 _ mem

theorem moduleMode_plain (plain : moduleMode m = .plain) (mem : f ∈ m.funcs) {b : Block}
    (mem_b : b ∈ f.blocks) (inst : i ∈ b.insts) : pointerInst i = false := by
  have noPointer := moduleMode_plain_func plain mem
  simp only [pointerItem, pointerBlock, Bool.or_eq_false_iff, List.any_eq_false, Bool.not_eq_true] at noPointer
  exact (noPointer.2 b mem_b).2 i inst

/-- Nothing in plain mode is a proof, nor of a proof's class. -/
theorem plain_proofTemp (valid : ValidFunc m .plain stage f)
    (plain : ∀ b ∈ f.blocks, ∀ i ∈ b.insts, pointerInst i = false) {n : Name} {k : Cls}
    (mem : (n, k) ∈ tempClasses f.params f.blocks) : proofClass k = false := by
  have proofs := valid.proofs
  simp only [proofClassDefs, Bool.not_eq_eq_eq_not, Bool.not_true, Bool.or_eq_false_iff, List.any_eq_false,
    Bool.not_eq_true] at proofs
  simp only [tempClasses, mem_append, List.mem_map, mem_flatMap] at mem
  rcases mem with ⟨p, mem, same⟩ | ⟨b, mem, ⟨ph, phi, same⟩ | ⟨i, inst, def_⟩⟩
  · cases same
    exact proofs.1 p mem
  · cases same
    exact (proofs.2 b mem).1 ph phi
  · have noPointer := plain b mem i inst
    have noCall := (proofs.2 b mem).2 i inst
    cases i <;> simp only [instTempDefs, not_mem_nil, mem_singleton, Prod.mk.injEq] at def_
    case let_ =>
      obtain ⟨rfl, rfl⟩ := def_
      simp only [pointerInst, Bool.or_eq_false_iff] at noPointer
      exact noPointer.1.2
    case asmFixed =>
      obtain ⟨o, _, same⟩ := List.mem_map.1 def_
      cases same
      rfl
    case call res callee args =>
      simp only [callProofs, callRes, any_some, Bool.or_eq_false_iff, List.any_eq_false,
        Bool.not_eq_true] at noCall
      exact noCall.1 _ def_
    all_goals cases noPointer

theorem plain_unchecked (valid : ValidFunc m .plain stage f)
    (plain : ∀ b ∈ f.blocks, ∀ i ∈ b.insts, pointerInst i = false) {b : Block} (mem_b : b ∈ f.blocks)
    (inst : i ∈ b.insts) : checkedInst i = false := by
  have noPointer := plain b mem_b i inst
  have block := valid.blocks b mem_b
  simp only [validBlock, Bool.and_eq_true, List.all_eq_true] at block
  have ok := block.1.1.2 i inst
  cases checked : checkedInst i with
  | false => rfl
  | true =>
    exfalso
    unfold checkedInst at checked
    split at checked
    any_goals (cases noPointer; done)
    · rename_i d k op args
      obtain ⟨_, result, _⟩ := validLet_uses ok (fun copy => by rw [copy] at checked; cases checked)
      cases op <;> first
        | (cases checked; done)
        | simp_all [opResultOk, opKind, kindResultOk, funcCtx, pointerInst, pointerOp]
    · rename_i q
      cases q with
      | const | global => simp [validInst] at ok
      | tmp n =>
        simp only [validInst, validUse, ValidCtx.classOf, funcCtx, Option.any_map, Option.any_eq_true,
          Bool.and_eq_true] at ok
        obtain ⟨_, ⟨n', k⟩, found, class_⟩ := ok
        have noProof := plain_proofTemp valid plain (mem_of_find?_eq_some found)
        cases k <;> simp [tempUseOk] at class_
        cases noProof
    · cases checked

/-- The functions that a plain module's names call have nothing of Fil-C in them. -/
def PrepPlain (prep : Prep) : Prop :=
  ∀ n f, prep.funcs n = some f → ∀ b ∈ f.blocks, ∀ i ∈ b.insts, checkedInst i = false

/-- An instruction that is no check leaves a run's doom as it is. -/
theorem plain_doomedResult {call : Call} {prep : Prep} (ordinary : checkedInst i = false) {env : Env}
    {s : St} {r r' : Result} (running : env.doomed = none) (done : instResult call prep i env s = .ok r)
    (went : doomedResult prep i env r = .ok r') : r' = r ∧ ∀ env' s', r = .cont env' s' → env'.doomed = none := by
  refine ⟨?_, fun env' s' same => ?_⟩
  · have noAhead : aheadInst i = none := by
      unfold aheadInst
      split
      · cases ordinary
      · rfl
    unfold doomedResult at went
    split at went
    · rename_i ahead
      rw [noAhead] at ahead
      cases ahead
    · rw [running] at went
      cases went
      rfl
    · cases went
      rfl
  · subst same
    exact (instResult_keeps done).2.trans running

section
variable {prep : Prep} {call : Call} (calls : CallsChecked (fun _ => True) prep call)
include calls

theorem plain_insts {is : List Inst} : ∀ {env : Env} {s : St} {r : Result},
    (∀ i ∈ is, checkedInst i = false) → env.doomed = none → instsResult call prep is env s = .ok r →
    r.Checked ∧ ∀ env' s', r = .cont env' s' → env'.doomed = none := by
  induction is with
  | nil =>
    intro env s r _ running done
    cases done
    refine ⟨by simp [Result.Checked], fun env' s' same => ?_⟩
    cases same
    exact running
  | cons i is ih =>
    intro env s r ordinary running done
    have here := ordinary i mem_cons_self
    simp only [instsResult, running, bind_ok] at done
    obtain ⟨r0, ran, r1, went, done⟩ := done
    obtain ⟨rfl, next⟩ := plain_doomedResult here running ran went
    have checked := instResult_unchecked calls here trivial ran
    cases r1 with
    | cont env' s' => exact ih (fun i h => ordinary i (mem_cons_of_mem _ h)) (next env' s' rfl) done
    | stop out s' =>
      cases done
      exact ⟨checked, by simp⟩

end

theorem plain_callOutcome {prep : Prep} {enterIn : EnterIn} {args : List Word} {s : St} {r : Outcome × St}
    (enters : ∀ l env s r, env.doomed = none → enterIn ⟨prep, f⟩ l none env s = .ok r → r.1.Checked)
    (done : callOutcome enterIn prep f args s = .ok r) : r.1.Checked := by
  simp only [callOutcome, bind_ok] at done
  obtain ⟨env, bound, done⟩ := done
  split at done
  · cases done
  · rename_i b bs blocks
    simp only [bind_ok] at done
    obtain ⟨entry, taken, done⟩ := done
    split at done
    · cases done
      simp [Outcome.Checked]
    · rename_i env' mem
      simp only [bind_ok, pure_ok] at done
      obtain ⟨r1, ran, mem', freed, rfl⟩ := done
      exact enters _ env' _ r1 ((entrySnapshot_keeps taken).2.trans (paramsEnv_keeps bound).2) ran

/-- A plain module's run is checked from any block that it enters. -/
theorem plain_blockOutcome {prep : Prep} (plain : PrepPlain prep) : ∀ (n : Nat) {f : Func} {l : Name}
    {pred : Option Name} {env : Env} {s : St} {r : Outcome × St},
    (∀ b ∈ f.blocks, ∀ i ∈ b.insts, checkedInst i = false) → env.doomed = none →
    blockOutcome n ⟨prep, f⟩ l pred env s = .ok r → r.1.Checked := by
  intro n
  induction n with
  | zero =>
    intro f l pred env s r _ _ done
    cases done
  | succ n ih =>
    intro f l pred env s r ordinary running done
    have calls : CallsChecked (fun _ => True) prep (callOutcome (blockOutcome n) prep) :=
      fun g x xs s r named _ done => plain_callOutcome
        (fun l env s r running done => ih (plain g x named) running done) done
    unfold blockOutcome at done
    split at done
    · cases done
      simp [Outcome.Checked]
    · split at done
      · cases done
      · rename_i b found
        simp only [bind_ok] at done
        obtain ⟨env', bound, r1, ran, done⟩ := done
        have bound' := (phisEnv_keeps bound).2.trans running
        obtain ⟨checked, next⟩ := plain_insts calls
          (fun i h => ordinary b (mem_of_find?_eq_some found) i h) bound' ran
        cases r1 with
        | stop out s' =>
          cases done
          exact fun why same => checked why s' (by cases same; rfl)
        | cont env1 s1 =>
          have running1 := next env1 s1 rfl
          rcases resultOutcome_cont done with ⟨isDoomed, _⟩ | done
          · exact absurd running1 isDoomed
          rcases jumpOutcome_cases done with ⟨checked, _⟩ | ⟨t, _, done⟩
          · exact checked
          rcases edgeOutcome_cases done with ⟨isDoomed, _⟩ | done
          · exact absurd running1 isDoomed
          · exact ih ordinary running1 done

/-! ### Modules -/

theorem modulePrepared_cases {prep : Prep}
    (done : modulePrepared m unknown = .ok prep) : prep.mode = moduleMode m ∧ prep.funcs = preparedFuncs m ∧
      ∃ r, initialMemory m unknown = .ok r ∧ prep.mem = r.2 := by
  simp only [modulePrepared, bind_ok, pure_ok] at done
  obtain ⟨r, laid, rfl⟩ := done
  exact ⟨rfl, rfl, r, laid, rfl⟩

end Nanofil
