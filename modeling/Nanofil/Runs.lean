import Nanofil.Safety

/-! A checked function's run through its blocks, and through the calls it makes. -/
namespace Nanofil
open List Option Results

/-! ### Environments -/

theorem phisEnv_keeps {prep : Prep} {pred : Option Name} {entry : Env} {phis : List Phi} : ∀ {env env' : Env},
    phisEnv prep pred entry phis env = .ok env' → Keeps (phis.map (·.dst)) env env' := by
  induction phis with
  | nil =>
    intro env env' done
    cases done
    exact .refl _ _
  | cons ph phis ih =>
    intro env env' done
    unfold phisEnv at done
    split at done
    · cases done
    · split at done
      · cases done
      · simp only [bind_ok] at done
        obtain ⟨x, _, done⟩ := done
        exact (Keeps.put mem_cons_self env x).trans ((ih done).mono fun d h => mem_cons_of_mem _ h)

theorem paramsEnv_keeps {params : List Param} : ∀ {xs : List Word} {env env' : Env},
    paramsEnv params xs env = .ok env' → Keeps (params.map (·.name)) env env' := by
  induction params with
  | nil =>
    intro xs env env' done
    cases done
    exact .refl _ _
  | cons p params ih =>
    intro xs env env' done
    cases xs with
    | nil => cases done
    | cons x xs =>
      exact (Keeps.put mem_cons_self env x).trans ((ih done).mono fun d h => mem_cons_of_mem _ h)

/-! ### Jumps -/

variable {ctx : Ctx} {r : Outcome × St} {s : St} {args : List Word}

/-- A jump ends the run where it is, or takes one of its edges. -/
theorem jumpOutcome_cases {enter : Enter} {jump : Jump} {label : Name} {env : Env} (done : jumpOutcome enter ctx jump label env s = .ok r) :
    (r.1.Checked ∧ r.2 = s) ∨ ∃ t ∈ jumpTargets jump, edgeOutcome enter t label env s = .ok r := by
  unfold jumpOutcome at done
  split at done
  · exact .inr ⟨_, by simp [jumpTargets], done⟩
  · simp only [bind_ok] at done
    obtain ⟨x, _, n, _, done⟩ := done
    refine .inr ⟨_, ?_, done⟩
    split <;> simp [jumpTargets]
  · simp only [bind_ok, pure_ok, retOutcome] at done
    obtain ⟨out, returned, rfl⟩ := done
    split at returned
    · simp only [bind_ok, pure_ok] at returned
      obtain ⟨x, _, rfl⟩ := returned
      exact .inl ⟨by simp [Outcome.Checked], rfl⟩
    · cases returned
  · simp only [bind_ok, pure_ok, retsOutcome] at done
    obtain ⟨out, returned, rfl⟩ := done
    split at returned
    · simp only [bind_ok, pure_ok] at returned
      obtain ⟨x, _, rfl⟩ := returned
      exact .inl ⟨by simp [Outcome.Checked], rfl⟩
    · cases returned
  · cases done
    exact .inl ⟨by simp [Outcome.Checked], rfl⟩
  · cases done
    exact .inl ⟨by simp [Outcome.Checked], rfl⟩

theorem edgeOutcome_cases {enter : Enter} {t : Target} {label : Name} {env : Env}
    (done : edgeOutcome enter t label env s = .ok r) :
    (env.doomed ≠ none ∧ ∃ l, t = .poll l) ∨ enter (edgeLabel t) (some label) env s = .ok r := by
  unfold edgeOutcome at done
  split at done
  · rename_i isDoomed
    exact .inl ⟨by simp [isDoomed], _, rfl⟩
  · exact .inr done

theorem resultOutcome_cont {enter : Enter} {jump : Jump} {label : Name} {env : Env} (done : resultOutcome enter ctx (.cont env s) jump label = .ok r) :
    (env.doomed ≠ none ∧ jumpTargets jump = []) ∨ jumpOutcome enter ctx jump label env s = .ok r := by
  simp only [resultOutcome] at done
  split at done
  · rename_i isDoomed ends
    refine .inl ⟨by simp [isDoomed], ?_⟩
    cases jump <;> first | rfl | cases ends
  · exact .inr done

theorem validJump_target {ctx : ValidCtx} {jump : Jump} (valid : validJump ctx jump = true) {t : Target}
    (target : t ∈ jumpTargets jump) : edgeLabel t ∈ ctx.labels := by
  cases jump with
  | goto t1 =>
    simp only [validJump, targetExists, decide_eq_true_eq] at valid
    simp only [jumpTargets, mem_singleton] at target
    exact target ▸ valid
  | branch v t1 t2 =>
    simp only [validJump, targetExists, Bool.and_eq_true, decide_eq_true_eq] at valid
    simp only [jumpTargets, mem_cons, not_mem_nil, or_false] at target
    rcases target with rfl | rfl
    · exact valid.1.2
    · exact valid.2
  | ret | rets | retVoid | unreachable => cases target

/-! ### What holds at a block's entry -/

section
variable {params : List Param} {bs : List Block} (ssa : Ssa params bs) {b : Block} (mem_b : b ∈ bs)
include ssa

include mem_b in
/-- Past the phis of a block what held before them holds. -/
theorem Holds.phis {env env' : Env} {mem : Mem} (holds : Holds params bs env mem ⟨b.label, -1⟩)
    (keeps : Keeps (b.phis.map (·.dst)) env env') : Holds params bs env' mem ⟨b.label, 0⟩ := by
  have kept : ∀ {n d}, singleDefinitions params bs n = some d → Established params bs n ⟨b.label, -1⟩ →
      env'.vals n = env.vals n := by
    intro n d once est
    refine keeps.1 n fun h => ?_
    obtain ⟨ph, phi, named⟩ := List.mem_map.1 h
    exact established_phi once mem_b phi holds.reached est named
  refine ⟨?_, holds.regions, ?_, ?_⟩
  · exact reachable_next mem_b (by omega) (by omega) holds.reached
  · intro x i onceX est n operand onceN
    rcases established_phis ssa mem_b est with before | ⟨ph, phi, named⟩
    · have estN := established_operand ssa onceX (defOperand_use operand) holds.reached before
      obtain ⟨d, onceD⟩ := isSome_iff_exists.1 onceN
      obtain ⟨wx, wn, hx, hn, related⟩ := holds.defs x i onceX before n operand onceN
      exact ⟨wx, wn, (kept onceX before).trans hx, (kept onceD estN).trans hn, keeps.2 ▸ related⟩
    · cases once_phi onceX mem_b phi named
  · intro x k iv w has value
    obtain ⟨_, d, op, args, onceX, _⟩ := hasInterval_let has
    refine holds.intervals x k iv w has ?_
    rw [← keeps.1 x ?_]
    · exact value
    · intro h
      obtain ⟨ph, phi, named⟩ := List.mem_map.1 h
      cases once_phi onceX mem_b phi named

include mem_b in
theorem Holds.edge {env : Env} {mem : Mem} (holds : Holds params bs env mem ⟨b.label, b.insts.length⟩) {l : Name}
    (jumps : l ∈ jumpLabels b.jump) : Holds params bs env mem ⟨l, -1⟩ :=
  ⟨holds.reached.step (.jump mem_b jumps), holds.regions,
    fun x i onceX est => holds.defs x i onceX (established_edge ssa mem_b jumps est), holds.intervals⟩

omit ssa in
/-- Nothing but the parameters is known where an invocation starts. -/
theorem Holds.start (first : bs.head? = some b) {env : Env} {mem : Mem} (ok : RegionsOk mem)
    (keeps : Keeps (params.map (·.name)) emptyEnv env) : Holds params bs env mem ⟨b.label, -1⟩ := by
  have entry : startPoint bs = ⟨b.label, -1⟩ := by simp [startPoint, blocksEntry, first]
  refine ⟨entry ▸ .start, ok, ?_, ?_⟩
  · intro x i onceX est
    rw [← entry] at est
    obtain ⟨p, mem_p, named⟩ := established_start est
    cases once_param onceX mem_p named
  · intro x k iv w has value
    obtain ⟨_, d, op, args, onceX, _⟩ := hasInterval_let has
    by_cases mem_x : x ∈ params.map (·.name)
    · obtain ⟨p, mem_p, named⟩ := List.mem_map.1 mem_x
      cases once_param onceX mem_p named
    · rw [keeps.1 x mem_x] at value
      cases value

end

/-! ### Blocks -/

section
variable {m : Module} {f : Func} {src : Sources} (checked : CheckedFunc m f src)

/-- What holds where a run enters a block, before its phis. -/
structure Entering (prep : Prep) (b : Block) (env : Env) (mem : Mem) : Prop where
  holds : Holds f.params f.blocks env mem ⟨b.label, -1⟩
  facts : FactsHold prep env mem (checked.flow.entry b.label)
  doomed : env.doomed ≠ none → Doomed (aheadEntries checked.once f.blocks b.label) env mem

variable {b : Block} (mem_b : b ∈ f.blocks) {prep : Prep}
include checked mem_b

/-- The phis of a block are bound before its first instruction. -/
theorem Entering.phis {env env' : Env} {mem : Mem} (entering : Entering checked prep b env mem)
    (keeps : Keeps (b.phis.map (·.dst)) env env') : Safe checked prep b 0 env' mem := by
  refine ⟨entering.holds.phis checked.ssa mem_b keeps, ?_, ?_⟩
  · intro fact live
    rw [Flow.at_, evidenceAt_zero] at live
    obtain ⟨a, c, holds⟩ := entering.facts fact live
    refine ⟨a, c, holds.kept keeps.1 (fun d h => ?_) (.refl mem) (fun running => keeps.2 ▸ running)⟩
    obtain ⟨ph, phi, rfl⟩ := List.mem_map.1 h
    exact checked.flow.phis b mem_b fact live ph phi
  · cases isDoomed : env'.doomed with
    | none => exact .running isDoomed fun p prev => by cases prev
    | some why =>
      obtain ⟨n, a, c, h, doomed⟩ := entering.doomed (by rw [← keeps.2, isDoomed]; simp)
      have needed := doomed.needed
      rw [aheadEntries_block checked.valid.labels mem_b] at needed
      obtain ⟨other, need⟩ := endNeed_some needed
      exact .doomed (by simp [isDoomed]) ⟨(keeps.1 n other).trans doomed.value, need, doomed.beyond⟩

section
variable (near : AheadsNear f) (filc : prep.mode = .filc) {call : Call} (later : CallsLater prep call)
  (calls : CallsChecked RegionsOk prep call)
include near filc later calls

/-- A block's instructions leave its run safe, or stop it checked. -/
theorem Safe.insts {is : List Inst} : ∀ {k : Nat} {env : Env} {s : St} {r : Result}, k ≤ b.insts.length →
    b.insts.drop k = is → Safe checked prep b k env s.mem → instsResult call prep is env s = .ok r →
    r.Checked ∧ Later s.mem r.st.mem ∧
      ∀ env' s', r = .cont env' s' → Safe checked prep b b.insts.length env' s'.mem := by
  induction is with
  | nil =>
    intro k env s r inside here safe done
    cases done
    have last : k = b.insts.length := le_antisymm inside (drop_eq_nil_iff.1 here)
    subst last
    refine ⟨by simp [Result.Checked], .refl safe.holds.regions, fun env' s' same => ?_⟩
    cases same
    exact safe
  | cons i is ih =>
    intro k env s r _ here safe done
    have inside : k < b.insts.length := by
      by_contra h
      rw [drop_eq_nil_of_le (by omega)] at here
      cases here
    rw [drop_eq_getElem_cons inside] at here
    obtain ⟨same, rest⟩ := List.cons.inj here
    have at_ : b.insts[k]? = some i := by rw [getElem?_eq_getElem inside, same]
    unfold instsResult at done
    split at done
    · rename_i isDoomed opaque_
      rw [safe.transparent checked mem_b at_ (by simp [isDoomed])] at opaque_
      cases opaque_
    · simp only [bind_ok] at done
      obtain ⟨r0, ran, r1, went, done⟩ := done
      split at done
      · obtain ⟨next, after⟩ := safe.step checked mem_b at_ filc later ran near went
        obtain ⟨unchecked, evolved, last⟩ := ih inside rest next done
        exact ⟨unchecked, after.trans evolved, last⟩
      · rename_i out s'
        cases done
        obtain ⟨unchecked, evolved⟩ := safe.stops checked mem_b at_ filc later calls ran went
        refine ⟨fun why s1 same => ?_, evolved, by simp⟩
        cases same
        exact unchecked why rfl

end

/-! ### Edges -/

/-- No proof is a block's last instruction. -/
theorem CheckedFunc.lastInst {p : Inst} (prev : prevInst b b.insts.length = some p) : proofInst p = false := by
  cases length : b.insts.length with
  | zero =>
    rw [length] at prev
    cases prev
  | succ j =>
    rw [length] at prev
    have accepted := checkedInsts_at (checked.flow.checked b mem_b) (show b.insts[j]? = some p from prev)
    by_contra proof
    rw [if_pos (by simpa using proof)] at accepted
    obtain ⟨_, _, access, _, _, inside, _⟩ := accepted
    have := (List.getElem?_eq_some_iff.1 inside).1
    omega

variable {env : Env} {mem : Mem} (safe : Safe checked prep b b.insts.length env mem)
include safe

/-- A doomed run at a block's end goes on by plain edges to where its need is. -/
theorem Safe.doomed (isDoomed : env.doomed ≠ none) : jumpTargets b.jump ≠ [] ∧
    ∀ t ∈ jumpTargets b.jump, ∃ l, t = .label l ∧ Doomed (aheadEntries checked.once f.blocks l) env mem := by
  cases safe.phase with
  | running notDoomed => exact absurd notDoomed isDoomed
  | fresh _ prev ahead =>
    obtain ⟨⟨d, v⟩, shape⟩ := isSome_iff_exists.1 ahead
    obtain ⟨lo, hi, r, al, ahi, rfl⟩ := aheadInst_shape shape
    cases checked.lastInst mem_b prev
  | @doomed n a h c _ doomed =>
    have needed := doomed.needed
    rw [needAt_end] at needed
    obtain ⟨some_, each⟩ := aheadExit_some needed
    refine ⟨some_, fun t target => ?_⟩
    obtain ⟨l, h', rfl, need, le⟩ := each t target
    exact ⟨l, rfl, n, a, c, h', doomed.value, need, doomed.beyond.mono le⟩

/-- A run that takes an edge enters its target. -/
theorem Safe.edge {b' : Block} (mem_b' : b' ∈ f.blocks) {t : Target} (target : t ∈ jumpTargets b.jump)
    (same : edgeLabel t = b'.label) : Entering checked prep b' env mem := by
  have jumps : b'.label ∈ jumpLabels b.jump := by
    rw [jumpLabels, List.mem_map]
    exact ⟨t, target, same⟩
  refine ⟨safe.holds.edge checked.ssa mem_b jumps, ?_, ?_⟩
  · intro fact live
    refine safe.facts fact ?_
    rw [checked.flow.at_end mem_b]
    exact (checked.flow.edge b mem_b b' mem_b' t target same fact live).2
  · intro isDoomed
    obtain ⟨l, rfl, doomed⟩ := (safe.doomed checked mem_b isDoomed).2 t target
    exact same ▸ doomed

/-- A block's jump ends the run checked, or enters a block. -/
theorem Safe.exits {enter : Enter} (here : s.mem = mem)
    (enters : ∀ b' ∈ f.blocks, Entering checked prep b' env s.mem → enter b'.label (some b.label) env s = .ok r →
      r.1.Checked ∧ Later s.mem r.2.mem)
    (done : resultOutcome enter ctx (.cont env s) b.jump b.label = .ok r) : r.1.Checked ∧ Later s.mem r.2.mem := by
  subst here
  rcases resultOutcome_cont done with ⟨isDoomed, ends⟩ | done
  · exact absurd ends (safe.doomed checked mem_b isDoomed).1
  rcases jumpOutcome_cases done with ⟨unchecked, same⟩ | ⟨t, target, done⟩
  · exact ⟨unchecked, by rw [same]; exact .refl safe.holds.regions⟩
  rcases edgeOutcome_cases done with ⟨isDoomed, l, rfl⟩ | done
  · obtain ⟨l', same, _⟩ := (safe.doomed checked mem_b isDoomed).2 _ target
    cases same
  have block := checked.valid.blocks b mem_b
  simp only [validBlock, Bool.and_eq_true] at block
  obtain ⟨b', mem_b', same⟩ := List.mem_map.1 (validJump_target block.1.2 target)
  rw [← same] at done
  exact enters b' mem_b' (safe.edge checked mem_b mem_b' target same.symm) done

end

/-! ### Calls -/

theorem snapshotValues_same {base : Int} {xs : List Word} : ∀ {a : Int} {mem mem' : Mem},
    snapshotValues base xs a mem = .ok (some mem') → SameObjects mem mem' := by
  induction xs with
  | nil =>
    intro a mem mem' done
    cases done
    exact .refl mem
  | cons x xs ih =>
    intro a mem mem' done
    simp only [snapshotValues, bind_ok] at done
    obtain ⟨r, stored, done⟩ := done
    have same := (storeRes_effect stored).1
    split at done
    · exact same.trans (ih done)
    · cases done

theorem argsSnapshot_later {mem : Mem} {r : Word × Mem} (ok : RegionsOk mem)
    (done : argsSnapshot args mem = .ok (some r)) : Later mem r.2 := by
  unfold argsSnapshot at done
  split at done
  · cases done
    exact .refl ok
  · split at done
    · cases done
    · rename_i base mem1 alloc
      simp only [bind_ok] at done
      obtain ⟨mem2, stored, done⟩ := done
      obtain ⟨regions, evolves⟩ := allocBase_objects (by simp) ok (by omega) alloc
      split at done
      · cases done
        exact Later.trans ⟨regions, evolves⟩ ((snapshotValues_same stored).later regions)
      · cases done

theorem entrySnapshot_keeps {f : Func} {env env' : Env} {mem mem' : Mem}
    (done : entrySnapshot f args env mem = .ok (some (env', mem'))) : Keeps [] env env' := by
  unfold entrySnapshot at done
  split at done
  · simp only [bind_ok] at done
    obtain ⟨r, taken, done⟩ := done
    split at done <;> cases done
    exact ⟨fun _ _ => rfl, rfl⟩
  · cases done
    exact .refl _ _

theorem entrySnapshot_later {f : Func} {env env' : Env} {mem mem' : Mem} (ok : RegionsOk mem)
    (done : entrySnapshot f args env mem = .ok (some (env', mem'))) : Later mem mem' := by
  unfold entrySnapshot at done
  split at done
  · simp only [bind_ok] at done
    obtain ⟨r, taken, done⟩ := done
    split at done <;> cases done
    exact argsSnapshot_later ok taken
  · cases done
    exact .refl ok

theorem objectRegion_unique {mem : Mem} (ok : RegionsOk mem) {r : Region} (mem_r : r ∈ mem.regions) :
    objectRegion r.base mem.regions = .ok r := by
  rw [objectRegion_ok]
  have unique := ok.unique
  generalize mem.regions = rs at mem_r unique
  induction rs with
  | nil => cases mem_r
  | cons r1 rs ih =>
    simp only [map_cons, nodup_cons, List.mem_map, not_exists, not_and] at unique
    rcases mem_cons.1 mem_r with rfl | h
    · simp
    · have other : r1.base ≠ r.base := fun same => unique.1 r h same.symm
      simpa [other] using ih h unique.2

theorem invalidateLocals_later {locals : Name → Option (Option Int)} {ns : List Name} : ∀ {mem mem' : Mem},
    RegionsOk mem → invalidateLocals locals ns mem = .ok mem' → Later mem mem' := by
  induction ns with
  | nil =>
    intro mem mem' ok done
    cases done
    exact .refl ok
  | cons n ns ih =>
    intro mem mem' ok done
    unfold invalidateLocals at done
    split at done
    · rename_i base _
      split at done
      · rename_i r found
        have mem_r := mem_of_find?_eq_some found
        have based : r.base = base := by
          have := find?_some found
          simp only [decide_eq_true_eq] at this
          exact this.1
        have region := objectRegion_unique ok mem_r
        rw [based] at region
        have freed : Later mem { mem with regions := freeRegion base r mem.regions } :=
          ⟨freeRegion_ok ok mem_r based, freeRegion_evolves region⟩
        exact freed.trans (ih freed.regions done)
      · cases done
    · exact ih ok done

section
variable {m : Module} {f : Func} {src : Sources} (checked : CheckedFunc m f src) {prep : Prep}
  (filc : prep.mode = .filc)

/-- What an invocation enters its first block with. -/
theorem CheckedFunc.start {b : Block} (first : f.blocks.head? = some b) {env : Env} {mem : Mem} (ok : RegionsOk mem)
    (keeps : Keeps (f.params.map (·.name)) emptyEnv env) : Entering checked prep b env mem := by
  refine ⟨.start first ok keeps, ?_, fun isDoomed => absurd keeps.2 isDoomed⟩
  intro fact live
  have here : blocksEntry f.blocks = b.label := by simp [blocksEntry, first]
  rw [← here, checked.flow.start] at live
  cases live

include checked filc

/-- A call is checked, and keeps the objects in order, where its body's run does. -/
theorem callOutcome_safe {enterIn : EnterIn} (ok : RegionsOk s.mem)
    (enters : ∀ b ∈ f.blocks, ∀ env s r, Entering checked prep b env s.mem →
      enterIn ⟨prep, f⟩ b.label none env s = .ok r → r.1.Checked ∧ Later s.mem r.2.mem)
    (done : callOutcome enterIn prep f args s = .ok r) : r.1.Checked ∧ Later s.mem r.2.mem := by
  simp only [callOutcome, bind_ok] at done
  obtain ⟨env, bound, done⟩ := done
  split at done
  · cases done
  · rename_i b bs blocks
    simp only [bind_ok] at done
    obtain ⟨entry, taken, done⟩ := done
    split at done
    · cases done
      exact ⟨by simp [Outcome.Checked], .refl ok⟩
    · rename_i env' mem
      simp only [bind_ok, pure_ok] at done
      obtain ⟨r1, ran, mem', freed, rfl⟩ := done
      have snapshot := entrySnapshot_later ok taken
      have keeps := (paramsEnv_keeps bound).trans ((entrySnapshot_keeps taken).mono (by simp))
      have entering : Entering checked prep b env' mem := checked.start (by simp [blocks]) snapshot.regions keeps
      obtain ⟨unchecked, after⟩ := enters b (by simp [blocks]) env' _ r1 entering ran
      have invalidated := invalidateLocals_later after.regions freed
      refine ⟨unchecked, ?_⟩
      simpa [returnedRegions, filc] using (snapshot.trans after).trans invalidated

end

/-- The functions that a module's runs call were all accepted. -/
structure PrepChecked (m : Module) (prep : Prep) : Prop where
  filc : prep.mode = .filc
  funcs : ∀ n f, prep.funcs n = some f → AheadsNear f ∧ ∃ src, Nonempty (CheckedFunc m f src)

/-- A checked function's run is checked from any block that it enters. -/
theorem blockOutcome_safe {m : Module} {prep : Prep} (prepared : PrepChecked m prep) : ∀ (n : Nat) {f : Func}
    {src : Sources} (checked : CheckedFunc m f src) {b : Block} {pred : Option Name} {env : Env} {s : St}
    {r : Outcome × St}, AheadsNear f → b ∈ f.blocks → Entering checked prep b env s.mem →
    blockOutcome n ⟨prep, f⟩ b.label pred env s = .ok r → r.1.Checked ∧ Later s.mem r.2.mem := by
  intro n
  induction n with
  | zero =>
    intro f src checked b pred env s r near mem_b entering done
    cases done
  | succ n ih =>
    intro f src checked b pred env s r near mem_b entering done
    have call : ∀ g x xs s r, prep.funcs g = some x → RegionsOk s.mem →
        callOutcome (blockOutcome n) prep x xs s = .ok r → r.1.Checked ∧ Later s.mem r.2.mem := by
      intro g x xs s r named ok done
      obtain ⟨near', src', ⟨checked'⟩⟩ := prepared.funcs g x named
      exact callOutcome_safe checked' prepared.filc ok
        (fun b mem_b env s r entering done => ih checked' near' mem_b entering done) done
    have later : CallsLater prep (callOutcome (blockOutcome n) prep) :=
      fun g x xs s r named ok done => (call g x xs s r named ok done).2
    have calls : CallsChecked RegionsOk prep (callOutcome (blockOutcome n) prep) :=
      fun g x xs s r named ok done => (call g x xs s r named ok done).1
    unfold blockOutcome at done
    split at done
    · cases done
      exact ⟨by simp [Outcome.Checked], .refl entering.holds.regions⟩
    · simp only [Func.block?, find_label checked.valid.labels mem_b, bind_ok] at done
      obtain ⟨env', bound, r1, ran, done⟩ := done
      have safe := entering.phis checked mem_b (phisEnv_keeps bound)
      obtain ⟨unchecked, after, last⟩ := Safe.insts checked mem_b near prepared.filc later calls (Nat.zero_le _)
        drop_zero (s := { s with fuel := s.fuel - 1 }) safe ran
      cases r1 with
      | stop out s' =>
        cases done
        refine ⟨fun why same => ?_, after⟩
        cases same
        exact unchecked why s' rfl
      | cont env1 s1 =>
        have safe1 := last env1 s1 rfl
        obtain ⟨done1, evolved⟩ := safe1.exits checked mem_b rfl
          (fun b' mem_b' entering done => ih checked near mem_b' entering done) done
        exact ⟨done1, after.trans evolved⟩

end Nanofil
