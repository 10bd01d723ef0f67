import Nanofil.Coverage
import Nanofil.Needs
import Nanofil.Valid

/-! What the validator asks of a proof's operands is enough: where the invariants of a
run hold, each reused check yields what the check of its range does. -/
namespace Nanofil
open List Option Results Residues

/-- What a run keeps at each point it reaches. -/
structure Holds (params : List Param) (bs : List Block) (env : Env) (mem : Mem) (pt : Point) : Prop where
  reached : ReachablePoint bs pt
  regions : RegionsOk mem
  defs : DefsHold params bs env mem pt
  intervals : IntervalsHold (singleDefinitions params bs) env

/-! ### Sources -/

/-- A function's sources say nothing but what its single definitions do. -/
structure SourcesOk (params : List Param) (bs : List Block) (src : Sources) : Prop where
  once : src.once = singleDefinitions params bs ∨ src.once = fun _ => none
  renews : ∀ q s, src.renews q = some s → renewSource (singleDefinitions params bs) q = some s
  ahead : ∀ q ∈ src.ahead, q ∈ aheadJustified (singleDefinitions params bs) bs

theorem stageSources_ok {m : Module} {params : List Param} {bs : List Block} {src : Sources}
    (found : stageSources m params bs = some src) : SourcesOk params bs src := by
  unfold stageSources at found
  dsimp only at found
  split at found
  · cases found
    exact ⟨.inr rfl, by simp [noSources], by simp [noSources]⟩
  · simp only [bind_eq_bind, bind_eq_some_iff] at found
    obtain ⟨getters, _, found⟩ := found
    split at found <;> cases found
    · exact ⟨.inl rfl, fun _ _ h => h, fun _ h => h⟩
    · exact ⟨.inl rfl, by simp [noSources], by simp [noSources]⟩

variable {hi lo al a : Int} {p : Value} {args : List Value} {op : Op} {x d n : Name} {c : Cap} {prep : Prep} {r : Rights}
  {xs : List Word} {s : St}

section
variable {params : List Param} {bs : List Block} {src : Sources} (sources : SourcesOk params bs src)
include sources

theorem SourcesOk.distance {p1 : Value} {d : Int} (distance : pointerDistance src.once p p1 = some d) :
    pointerDistance (singleDefinitions params bs) p p1 = some d := by
  rcases sources.once with once | once
  · exact once ▸ distance
  · obtain ⟨n, k, _, mem, _⟩ := pointerDistance_bases distance
    obtain ⟨⟨v, _⟩, _, base⟩ := mem_filterMap.1 mem
    cases v <;> simp [once] at base

theorem SourcesOk.guard {g : Value} (covers : guardCovers src.once p g lo hi = true) :
    guardCovers (singleDefinitions params bs) p g lo hi = true := by
  rcases sources.once with once | once
  · exact once ▸ covers
  · cases g <;> simp [once, guardCovers] at covers

theorem SourcesOk.limit {u : Value} (covers : limitCovers src.once p u lo hi = true) :
    limitCovers (singleDefinitions params bs) p u lo hi = true := by
  rcases sources.once with once | once
  · exact once ▸ covers
  · cases u <;> simp [once, limitCovers] at covers

end

theorem renewSourceOp_pointer {s : Source} (source : renewSourceOp op args = some s) :
    proofPointer op args = some (.tmp s.p) := by
  unfold renewSourceOp at source
  split at source <;> cases source <;> rfl

theorem renewSource_def {once : Once} {q : Name} {s : Source} (source : renewSource once q = some s) :
    ∃ d op args, once q = some (.inst (.let_ d .a op args)) ∧ renewSourceOp op args = some s ∧ (once s.p).isSome := by
  unfold renewSource at source
  split at source
  · rename_i d op args onceQ
    obtain ⟨source, known⟩ := filter_eq_some_iff.1 source
    exact ⟨d, op, args, onceQ, source, known⟩
  · cases source

theorem once_valid {params : List Param} {bs : List Block} {ctx : ValidCtx}
    (valid : ∀ b ∈ bs, ∀ i ∈ b.insts, validInst ctx i = true) {i : Inst}
    (onceX : singleDefinitions params bs x = some (.inst i)) : validInst ctx i = true := by
  obtain ⟨e, h, _, what, _⟩ := once_unique onceX
  rcases entry_cases h with ⟨w, _, _⟩ | ⟨_, _, ph, _, _, w, _⟩ | ⟨b, mem, j, i', at_, _, w, _⟩
  · rw [what] at w; cases w
  · rw [what] at w; cases w
  · rw [what] at w
    cases w
    exact valid b mem i (mem_of_getElem? at_)

theorem validLet_op {ctx : ValidCtx} {k : Cls}
    (valid : validInst ctx (.let_ d k op args) = true) (notCopy : op ≠ .copy) : validOp op = true := by
  simp only [validInst, validLet] at valid
  split at valid
  · exact absurd rfl notCopy
  · simp only [Bool.and_eq_true] at valid
    exact valid.1.1.1.1

theorem renewSource_span {ctx : ValidCtx} {s : Source}
    (source : renewSourceOp op args = some s) (valid : validInst ctx (.let_ d .a op args) = true) : s.lo < s.hi := by
  unfold renewSourceOp at source
  split at source <;> cases source
  all_goals
    have ok := validLet_op valid (by simp)
    simp only [validOp, validCheckOp, Bool.and_eq_true, decide_eq_true_eq] at ok
  · exact ok.1
  · exact ok.1.1.1
  all_goals exact ok.1

theorem checkAlign_divides (ok : checkAlign al = true) : addressModulus % al = 0 := by
  simp only [checkAlign, Bool.or_eq_true, decide_eq_true_eq] at ok
  rcases ok with (((rfl | rfl) | rfl) | rfl) | rfl <;> decide

/-! ### Operands -/

theorem let_use {i : Inst} {k : Cls} (here : i = .let_ d k op args) (mem : .tmp n ∈ args) : n ∈ instUses i := by
  rw [here]
  exact mem_temps.2 mem

section
variable {params : List Param} {bs : List Block} (ssa : Ssa params bs) {ctx : ValidCtx}
  (valid : ∀ b ∈ bs, ∀ i ∈ b.insts, validInst ctx i = true) {src : Sources} (sources : SourcesOk params bs src)
  {b : Block} (mem_b : b ∈ bs) {k : Nat} {i : Inst} (at_ : b.insts[k]? = some i) {env : Env} {mem : Mem}
  (holds : Holds params bs env mem ⟨b.label, k⟩)
include ssa mem_b at_ holds

theorem Holds.use (use : n ∈ instUses i) : Established params bs n ⟨b.label, k⟩ :=
  inst_use ssa mem_b at_ holds.reached use

include valid sources

variable {q : Value}

/-- A source that a proof reads, at a distance from the proof's pointer: both are of one
object, in which the source's range passed. -/
theorem Holds.source {s : Source} {d : Int} (source : sourceOf src q = some s)
    (distance : pointerDistance src.once p (.tmp s.p) = some d) (useQ : ∀ n, q = .tmp n → n ∈ instUses i)
    (useP : ∀ n, p = .tmp n → n ∈ instUses i) :
    ∃ qn x a1 a c, q = .tmp qn ∧ p = .tmp x ∧ env.vals qn = some (.ptr a1 c) ∧ env.vals x = some (.ptr a c) ∧
      a ≡ a1 + d [ZMOD addressModulus] ∧ s.lo < s.hi ∧ (env.doomed = none → Passed mem a1 c s.lo s.hi s.align) := by
  cases q with
  | const n => cases source
  | global g => cases source
  | tmp qn =>
    obtain ⟨dn, op, args, onceQ, sourceOp, onceS⟩ := renewSource_def (sources.renews _ _ source)
    have estQ := holds.use ssa mem_b at_ (useQ qn rfl)
    have operand : defOperand (.let_ dn .a op args) = some s.p := by
      simp [defOperand, renewSourceOp_pointer sourceOp]
    obtain ⟨wq, ws, valueQ, valueS, a1, c, rfl, rfl, passed⟩ := holds.defs qn _ onceQ estQ s.p operand onceS
    obtain ⟨x, x1, rfl, same, address⟩ :=
      pointerDistance_address ssa holds.reached holds.defs (sources.distance distance)
    cases same
    have estS := established_operand ssa onceQ (defOperand_use operand) holds.reached estQ
    obtain ⟨a, value, apart⟩ :=
      address a1 c (fun _ => holds.use ssa mem_b at_ (useP x rfl)) (fun _ => estS) valueS
    exact ⟨qn, x, a1, a, c, rfl, rfl, valueQ, value, apart,
      renewSource_span sourceOp (once_valid valid onceQ), passed s sourceOp⟩

/-! ### Reused checks -/

omit ssa mem_b at_ holds valid sources in
theorem valuesX_cons {env : Env} {c : Cls} {cs : List Cls} {v : Value} {vs : List Value} {x : Word} (head : valueX prep env c v = .ok x) (tail : valuesX prep env cs vs = .ok xs) :
    valuesX prep env (c :: cs) (v :: vs) = .ok (x :: xs) := by
  simp [valuesX, head, tail, bind, Except.bind, pure, Except.pure]

omit ssa mem_b at_ holds valid sources in
theorem valueX_tmp {env : Env} {c : Cls} {w x : Word} (value : env.vals n = some w)
    (read : wordAtClass c w = .ok x) : valueX prep env c (.tmp n) = .ok x := by
  simp [valueX, value, read]

/-- The operands of a reused check: its pointer is a pointer, and what it tests of it is
the check of its range, while the run is not doomed. -/
structure Reused (prep : Prep) (env : Env) (mem : Mem) (op : Op) (args : List Value) (f : Live) (xs : List Word)
    (x : Name) (a : Int) (c : Cap) (test : Except RunError (Res Word)) : Prop where
  pointer : f.p = .tmp x
  value : env.vals x = some (.ptr a c)
  read : ∃ classes, opArgClasses op .a .filc = some classes ∧ valuesX prep env classes args = .ok xs
  proof : proofRes op xs mem = keep mem test
  check : env.doomed = none → test = checkRes mem a c f.lo f.hi f.rights f.align
  yields : ∀ w, test = .ok (.val w) → w = .ptr a c
  unchecked : ∀ why, test = .ok (.unchecked why) → why = .span ∨ why = .half

omit ssa mem_b at_ holds valid sources in
theorem renewRes_yields {res : Check} {mem : Mem} : (∀ w, renewRes res (.ptr a c) c mem = .ok (.val w) → w = .ptr a c) ∧
      ∀ why, renewRes res (.ptr a c) c mem = .ok (.unchecked why) → why = .span ∨ why = .half := by
  unfold renewRes
  split
  · simp [eq_comm]
  · simp
  · constructor
    all_goals
      intro w h
      simp only [bind_ok, pure_ok] at h
      obtain ⟨freed, _, h⟩ := h
      cases freed <;> cases h
    exact .inl rfl

omit ssa mem_b at_ holds valid sources in
theorem renewOpRes_yields {mem : Mem} : (∀ w, renewOpRes mem a c lo hi r al = .ok (.val w) → w = .ptr a c) ∧
      ∀ why, renewOpRes mem a c lo hi r al = .ok (.unchecked why) → why = .span ∨ why = .half := by
  constructor
  all_goals
    intro w h
    simp only [renewOpRes, bind_ok] at h
    obtain ⟨res, _, h⟩ := h
  · exact renewRes_yields.1 w h
  · exact renewRes_yields.2 w h

omit ssa mem_b at_ holds valid sources in
theorem checkRes_yields {mem : Mem} : (∀ w, checkRes mem a c lo hi r al = .ok (.val w) → w = .ptr a c) ∧
      ∀ why, checkRes mem a c lo hi r al = .ok (.unchecked why) → why = .span ∨ why = .half := by
  constructor
  · intro w h
    exact ((checkRes_result h).2 w rfl).1
  · intro why h
    exact absurd rfl ((checkRes_result h).1 why)

omit ssa mem_b at_ holds valid sources in
theorem halfCheckRes_yields {mem : Mem} {bound : Bound} :
    (∀ w, halfCheckRes mem a c bound lo hi r al = .ok (.val w) → w = .ptr a c) ∧
      ∀ why, halfCheckRes mem a c bound lo hi r al = .ok (.unchecked why) → why = .span ∨ why = .half := by
  have half : ∀ res passes, (∀ w, halfRes res passes (.ptr a c) = .val w → w = .ptr a c) ∧
      ∀ why, halfRes res passes (.ptr a c) = .unchecked why → why = .half := by
    intro res passes
    cases res <;> cases passes <;> simp [halfRes, eq_comm]
  constructor
  all_goals
    intro w h
    simp only [halfCheckRes, bind_ok] at h
    obtain ⟨res, _, passes, _, h⟩ := h
    split at h <;> simp only [pure_ok] at h
  · exact (half _ _).1 w h
  · cases h
  · exact .inr ((half _ _).2 w h)
  · cases h
    exact .inr rfl

theorem Holds.renew (here : i = .let_ d .a (.renew lo hi r al) [q, p]) (sourced : renewable src q p lo hi al = true) :
    ∃ xs x a c test, Reused prep env mem (.renew lo hi r al) [q, p] ⟨d, p, lo, hi, r, al⟩ xs x a c test := by
  have op := validLet_op (here ▸ valid b mem_b i (mem_of_getElem? at_)) (by simp)
  simp only [validOp, validCheckOp, Bool.and_eq_true, decide_eq_true_eq] at op
  unfold renewable at sourced
  split at sourced
  · rename_i s source
    split at sourced
    · rename_i e distance
      simp only [Bool.and_eq_true, decide_eq_true_eq] at sourced
      obtain ⟨⟨⟨low, high⟩, divides⟩, shift⟩ := sourced
      obtain ⟨qn, x, a1, a, c, rfl, rfl, valueQ, value, apart, _, passed⟩ :=
        holds.source ssa valid sources mem_b at_ source distance
          (fun n same => let_use here (by simp [same]))
          (fun n same => let_use here (by simp [same]))
      refine ⟨[.ptr a1 c, .ptr a c], x, a, c, renewOpRes mem a c lo hi r al, rfl, value, ⟨[.a, .p], rfl, ?_⟩, ?_,
        fun running => ?_, renewOpRes_yields.1, renewOpRes_yields.2⟩
      · exact valuesX_cons (valueX_tmp valueQ rfl) (valuesX_cons (valueX_tmp value rfl) rfl)
      · simp [proofRes, sameCapRes, hasCap]
      · obtain ⟨inside, aligned⟩ :=
          renew_inside holds.regions (passed running) apart low high op.1 divides shift
        exact renewOpRes_check holds.regions inside aligned op.1
    · cases sourced
  · cases sourced

theorem Holds.renewHull {ql qh : Value}
    (here : i = .let_ d .a (.renewHull lo hi r al) [ql, qh, p]) (sourced : hullRenewable src ql qh p lo hi al = true) :
    ∃ xs x a c test, Reused prep env mem (.renewHull lo hi r al) [ql, qh, p] ⟨d, p, lo, hi, r, al⟩ xs x a c test := by
  have op := validLet_op (here ▸ valid b mem_b i (mem_of_getElem? at_)) (by simp)
  simp only [validOp, validCheckOp, Bool.and_eq_true, decide_eq_true_eq] at op
  unfold hullRenewable at sourced
  split at sourced
  · rename_i sl sh sourceL sourceH
    split at sourced
    · rename_i dl dh distanceL distanceH
      simp only [Bool.and_eq_true, Bool.or_eq_true, decide_eq_true_eq] at sourced
      obtain ⟨⟨⟨⟨⟨el, eh⟩, fl⟩, fh⟩, small⟩, aligned⟩ := sourced
      obtain ⟨qln, x, al1, a, c, rfl, rfl, valueL, value, apartL, spanL, passedL⟩ :=
        holds.source ssa valid sources mem_b at_ sourceL distanceL
          (fun n same => let_use here (by simp [same]))
          (fun n same => let_use here (by simp [same]))
      obtain ⟨qhn, x', ah1, a', c', rfl, same, valueH, value', apartH, spanH, passedH⟩ :=
        holds.source ssa valid sources mem_b at_ sourceH distanceH
          (fun n same => let_use here (by simp [same]))
          (fun n same => let_use here (by simp [same]))
      cases same
      rw [value] at value'
      cases value'
      refine ⟨[.ptr al1 c, .ptr ah1 c, .ptr a c], x, a, c, renewOpRes mem a c lo hi r al, rfl, value,
        ⟨[.a, .a, .p], rfl, ?_⟩, ?_, fun running => ?_, renewOpRes_yields.1, renewOpRes_yields.2⟩
      · exact valuesX_cons (valueX_tmp valueL rfl) (valuesX_cons (valueX_tmp valueH rfl)
          (valuesX_cons (valueX_tmp value rfl) rfl))
      · simp [proofRes, sameCapRes, hasCap]
      · obtain ⟨inside, aligned⟩ := hull_inside holds.regions (passedL running) (passedH running) apartL apartH
          op.1 spanL spanH el eh fl fh small aligned (checkAlign_divides op.2)
        exact renewOpRes_check holds.regions inside aligned op.1
    · cases sourced
  · cases sourced

theorem Holds.halfCheck {bound : Bound} (here : i = .let_ d .a (.halfCheck bound lo hi r al) [q, p])
    (sourced : halfRenewable src bound q p lo hi = true) :
    ∃ xs x a c test, Reused prep env mem (.halfCheck bound lo hi r al) [q, p] ⟨d, p, lo, hi, r, al⟩ xs x a c test := by
  have op := validLet_op (here ▸ valid b mem_b i (mem_of_getElem? at_)) (by simp)
  simp only [validOp, validCheckOp, Bool.and_eq_true, decide_eq_true_eq] at op
  unfold halfRenewable at sourced
  split at sourced
  · rename_i s source
    split at sourced
    · rename_i e distance
      obtain ⟨qn, x, a1, a, c, rfl, rfl, valueQ, value, apart, span, passed⟩ :=
        holds.source ssa valid sources mem_b at_ source distance
          (fun n same => let_use here (by simp [same]))
          (fun n same => let_use here (by simp [same]))
      refine ⟨[.ptr a1 c, .ptr a c], x, a, c, halfCheckRes mem a c bound lo hi r al, rfl, value, ⟨[.a, .p], rfl, ?_⟩,
        ?_, fun running => ?_, halfCheckRes_yields.1, halfCheckRes_yields.2⟩
      · exact valuesX_cons (valueX_tmp valueQ rfl) (valuesX_cons (valueX_tmp value rfl) rfl)
      · simp [proofRes, sameCapRes, hasCap]
      · exact halfCheckRes_check holds.regions (passed running) apart op.1 span sourced
    · cases sourced
  · cases sourced

omit valid sources in
/-- A guard's temporary is the bit its test was of the base's object. -/
theorem Holds.guard {g : Name} {glo ghi : Int} {n0 : Name}
    (onceG : singleDefinitions params bs g = some (.inst (.let_ d .w (.spanTest glo ghi) [.tmp n0])))
    (onceN : (singleDefinitions params bs n0).isSome) (use : g ∈ instUses i) :
    ∃ v a0 c, env.vals g = some (.int v) ∧ env.vals n0 = some (.ptr a0 c) ∧ (v = 0 ∨ v = 1) ∧
      (v = 1 → SpanHeld mem a0 c glo ghi) := by
  have est := holds.use ssa mem_b at_ use
  obtain ⟨wg, wn, valueG, valueN, v, a0, c, rfl, rfl, bit, held⟩ := holds.defs g _ onceG est n0 rfl onceN
  exact ⟨v, a0, c, valueG, valueN, bit, held⟩

theorem Holds.renewIf {g : Value}
    (here : i = .let_ d .a (.renewIf lo hi r al) [p, g]) (sourced : guardCovers src.once p g lo hi = true) :
    ∃ xs x a c test, Reused prep env mem (.renewIf lo hi r al) [p, g] ⟨d, p, lo, hi, r, al⟩ xs x a c test := by
  have op := validLet_op (here ▸ valid b mem_b i (mem_of_getElem? at_)) (by simp)
  simp only [validOp, validCheckOp, Bool.and_eq_true, decide_eq_true_eq] at op
  have covers := sources.guard sourced
  unfold guardCovers at covers
  split at covers
  · rename_i gn
    split at covers
    · rename_i dg glo ghi n0 onceG
      simp only [Bool.and_eq_true] at covers
      obtain ⟨onceN, covers⟩ := covers
      split at covers
      · rename_i e found
        simp only [Bool.and_eq_true, decide_eq_true_eq] at covers
        have based : e.1 = .tmp n0 := by simpa using find?_some found
        have inChain := mem_of_find?_eq_some found
        obtain ⟨base, j⟩ := e
        dsimp only at based covers
        subst based
        obtain ⟨v, a0, c, valueG, valueN, bit, held⟩ :=
          holds.guard ssa mem_b at_ onceG onceN (let_use here (by simp))
        have tested := validLet_op (once_valid valid onceG) (by simp)
        simp only [validOp, Bool.and_eq_true, decide_eq_true_eq] at tested
        cases p with
        | const z => simp [guardChain, guardChainFrom, flightStep] at inChain
        | global z => simp [guardChain, guardChainFrom, flightStep] at inChain
        | tmp x =>
          obtain ⟨a, value, chain⟩ := guardChain_pointer ssa holds.reached holds.defs inChain onceN
            (fun _ => holds.use ssa mem_b at_ (let_use here (by simp))) valueN
          have offset := chain 0 (le_refl _) (le_refl _)
          rw [add_zero] at offset
          have word : wordAtClass .w (.int v) = .ok (.int v) := by rcases bit with rfl | rfl <;> rfl
          have inside : v ≠ 0 → Inside mem a c lo hi := by
            intro one
            exact guard_inside holds.regions (held (bit.resolve_left one)) offset op.1 covers.1 covers.2
              tested.1.2 tested.2
          have full : renewIfRes mem a c v lo hi r al = checkRes mem a c lo hi r al :=
            renewIfRes_check holds.regions inside op.1
          refine ⟨[.ptr a c, .int v], x, a, c, renewIfRes mem a c v lo hi r al, rfl, value, ⟨[.p, .w], rfl, ?_⟩,
            rfl, fun _ => full, full ▸ checkRes_yields.1, full ▸ checkRes_yields.2⟩
          exact valuesX_cons (valueX_tmp value rfl) (valuesX_cons (valueX_tmp valueG word) rfl)
      · cases covers
    · cases covers
  · cases covers

omit valid in
theorem Holds.checkLimit {u : Value}
    (here : i = .let_ d .a (.checkLimit lo hi r al) [p, u]) (sourced : limitCovers src.once p u lo hi = true) :
    ∃ xs x a c test, Reused prep env mem (.checkLimit lo hi r al) [p, u] ⟨d, p, lo, hi, r, al⟩ xs x a c test := by
  have covers := sources.limit sourced
  unfold limitCovers at covers
  split at covers
  · rename_i un
    split at covers
    · rename_i du size n0 onceU
      simp only [Bool.and_eq_true, decide_eq_true_eq] at covers
      obtain ⟨⟨⟨rfl, rfl⟩, onceN⟩, chain⟩ := covers
      have est := holds.use ssa mem_b at_ (let_use here (by simp : Value.tmp un ∈ [p, .tmp un]))
      obtain ⟨wu, wn, valueU, valueN, a0, c, rfl, rfl⟩ := holds.defs un _ onceU est n0 rfl onceN
      have pointer : ∃ x, p = .tmp x := by
        rcases lowerChain_step chain with same | ⟨_, x, _, _, _, _, _, same, _⟩
        · exact ⟨n0, same⟩
        · exact ⟨x, same⟩
      obtain ⟨x, rfl⟩ := pointer
      obtain ⟨a, value⟩ := lowerChain_cap ssa holds.reached holds.defs chain onceN
        (fun _ => holds.use ssa mem_b at_ (let_use here (by simp))) valueN
      have full : checkLimitRes mem a c (.limit c hi) 0 hi r al = checkRes mem a c 0 hi r al := by
        have same := @checkLimitRes_check mem a 0 hi al c r
        rwa [sub_zero] at same
      refine ⟨[.ptr a c, .limit c hi], x, a, c, checkLimitRes mem a c (.limit c hi) 0 hi r al, rfl, value,
        ⟨[.p, .l], rfl, ?_⟩, rfl, fun _ => full, full ▸ checkRes_yields.1, full ▸ checkRes_yields.2⟩
      exact valuesX_cons (valueX_tmp value rfl) (valuesX_cons (valueX_tmp valueU rfl) rfl)
    · cases covers
  · cases covers

end

/-! ### Results of proofs -/

def heapProofOp : Op → Bool
  | .check .. | .checkAhead .. | .renew .. | .renewHull .. | .halfCheck .. | .renewIf .. | .checkLimit .. => true
  | _ => false

theorem opRes_proof (proof : heapProofOp op = true) (xs : List Word) (mem : Mem) :
    opRes op .a .filc xs mem = proofRes op xs mem := by
  cases op <;> first | (cases proof; done) | rfl

theorem Reused.result {env : Env} {f : Live} {test : Except RunError (Res Word)} (filc : prep.mode = .filc)
    (proof : heapProofOp op = true) (reused : Reused prep env s.mem op args f xs x a c test) :
    letResult prep f.q .a op args env s = (do return resResult (← test) f.q env s) := by
  obtain ⟨classes, known, read⟩ := reused.read
  simp only [letResult, filc, known, orNoRule, read, opRes_proof proof, reused.proof, keep, bind, Except.bind]
  cases test <;> rfl

/-- What a heap proof tests when the run is not doomed. -/
def proofTest (i : Inst) (mem : Mem) (a : Int) (c : Cap) (pf : HeapProof) : Except RunError (Res Word) :=
  if (aheadInst i).isSome then
    checkAheadRes mem a c pf.fact.lo pf.fact.hi pf.fact.rights pf.fact.align pf.ahi
  else checkRes mem a c pf.fact.lo pf.fact.hi pf.fact.rights pf.fact.align

/-- The result of a heap proof: its pointer, proven, or a trap of its test. -/
structure ProofResult (prep : Prep) (env : Env) (s : St) (i : Inst) (pf : HeapProof) (r : Result) (a : Int) (c : Cap)
    (res : Res Word) : Prop where
  pointer : valueX prep env .p pf.fact.p = .ok (.ptr a c)
  result : r = resResult res pf.fact.q env s
  yields : ∀ w, res = .val w → w = .ptr a c
  unchecked : ∀ why, res = .unchecked why → env.doomed ≠ none ∧ (why = .span ∨ why = .half)
  test : env.doomed = none → proofTest i s.mem a c pf = .ok res

theorem Reused.proofResult {env : Env} {i : Inst} {pf : HeapProof} {test : Except RunError (Res Word)} {r : Result}
    (filc : prep.mode = .filc) (proof : heapProofOp op = true) (notAhead : aheadInst i = none)
    (reused : Reused prep env s.mem op args pf.fact xs x a c test)
    (done : letResult prep pf.fact.q .a op args env s = .ok r) :
    ∃ a c res, ProofResult prep env s i pf r a c res := by
  rw [reused.result filc proof] at done
  simp only [bind_ok, pure_ok] at done
  obtain ⟨res, tested, rfl⟩ := done
  refine ⟨a, c, res, ?_, rfl, fun w h => reused.yields w (h ▸ tested), fun why h => ?_, fun running => ?_⟩
  · rw [reused.pointer]
    exact valueX_tmp reused.value rfl
  · refine ⟨fun running => ?_, reused.unchecked why (h ▸ tested)⟩
    have checked := reused.check running ▸ tested
    exact (checkRes_result checked).1 why h
  · rw [proofTest, notAhead, ← reused.check running]
    exact tested

theorem checkRes_test {env : Env} {r : Result}
    (filc : prep.mode = .filc) (proof : heapProofOp op = true) (classes : opArgClasses op .a .filc = some [.p])
    (shape : ∀ w r, proofRes op [w] s.mem = .ok r → ∃ a c, w = .ptr a c)
    (done : letResult prep d .a op [p] env s = .ok r) :
    ∃ a c res, valueX prep env .p p = .ok (.ptr a c) ∧ proofRes op [.ptr a c] s.mem = .ok (res, s.mem) ∧
      r = resResult res d env s := by
  simp only [letResult, filc, classes, orNoRule, opRes_proof proof, bind_ok, pure_ok, Except.ok.injEq,
    exists_eq_left'] at done
  obtain ⟨xs, read, res, tested, rfl⟩ := done
  simp only [valuesX, bind_ok, pure_ok, Except.ok.injEq, exists_eq_left'] at read
  obtain ⟨w, value, rfl⟩ := read
  obtain ⟨a, c, rfl⟩ := shape w res tested
  have same := proofRes_mem tested
  refine ⟨a, c, res.1, value, ?_, ?_⟩
  · rw [tested, ← same]
  · rw [same]
    rfl

theorem checkAheadRes_yields {mem : Mem} {ahi : Int} {res : Res Word} (done : checkAheadRes mem a c lo hi r al ahi = .ok res) :
    (∀ w, res = .val w → w = .ptr a c) ∧ ∀ why, res ≠ .unchecked why := by
  simp only [checkAheadRes, bind_ok] at done
  obtain ⟨first, _, done⟩ := done
  cases first with
  | trap why => cases done; simp
  | ok =>
    simp only [bind_ok] at done
    obtain ⟨second, _, done⟩ := done
    cases second <;> cases done <;> simp [eq_comm]

/-- Where the invariants hold, a sourced heap proof's result is its test's. -/
theorem proof_result {params : List Param} {bs : List Block} (ssa : Ssa params bs) {ctx : ValidCtx}
    (valid : ∀ b ∈ bs, ∀ i ∈ b.insts, validInst ctx i = true) {src : Sources} (sources : SourcesOk params bs src)
    {b : Block} (mem_b : b ∈ bs) {k : Nat} {i : Inst} (at_ : b.insts[k]? = some i) {env : Env}
    (holds : Holds params bs env s.mem ⟨b.label, k⟩) {call : Call} (filc : prep.mode = .filc)
    {pf : HeapProof} (proof : heapProof i = some pf) (sourced : proofSourced src i = true) {r : Result}
    (done : instResult call prep i env s = .ok r) : ∃ a c res, ProofResult prep env s i pf r a c res := by
  unfold heapProof at proof
  split at proof <;> cases proof
  · obtain ⟨a, c, res, value, tested, rfl⟩ := checkRes_test filc rfl rfl
      (fun w r h => by cases w <;> first | exact ⟨_, _, rfl⟩ | cases h) done
    have check := (keep_effect tested).2
    refine ⟨a, c, res, value, rfl, fun w h => checkRes_yields.1 w (h ▸ check), fun why h => ?_, fun _ => check⟩
    exact absurd h ((checkRes_result check).1 why)
  · obtain ⟨a, c, res, value, tested, rfl⟩ := checkRes_test filc rfl rfl
      (fun w r h => by cases w <;> first | exact ⟨_, _, rfl⟩ | cases h) done
    have check := (keep_effect tested).2
    obtain ⟨yields, unchecked⟩ := checkAheadRes_yields check
    exact ⟨a, c, res, value, rfl, yields, fun why h => absurd h (unchecked why), fun _ => check⟩
  · obtain ⟨xs, x, a, c, test, reused⟩ := holds.renew ssa valid sources mem_b at_ rfl sourced
    exact reused.proofResult filc rfl rfl done
  · obtain ⟨xs, x, a, c, test, reused⟩ := holds.renewHull ssa valid sources mem_b at_ rfl sourced
    exact reused.proofResult filc rfl rfl done
  · obtain ⟨xs, x, a, c, test, reused⟩ := holds.halfCheck ssa valid sources mem_b at_ rfl sourced
    exact reused.proofResult filc rfl rfl done
  · obtain ⟨xs, x, a, c, test, reused⟩ := holds.renewIf ssa valid sources mem_b at_ rfl sourced
    exact reused.proofResult filc rfl rfl done
  · obtain ⟨xs, x, a, c, test, reused⟩ := holds.checkLimit ssa sources mem_b at_ rfl sourced
    exact reused.proofResult filc rfl rfl done

end Nanofil
