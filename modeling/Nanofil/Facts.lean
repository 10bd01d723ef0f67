import Nanofil.Steps

/-! Live facts at run time: what they say, what keeps them, and that the accesses they
cover pass. -/
namespace Nanofil
open Results Residues

/-- A live fact's proof is its pointer, and its range passes unless the run is doomed. -/
structure FactHolds (prep : Prep) (env : Env) (mem : Mem) (f : Live) (a : Int) (c : Cap) : Prop where
  pointer : valueX prep env .p f.p = .ok (.ptr a c)
  proof : env.vals f.q = some (.ptr a c)
  span : f.lo < f.hi
  passes : env.doomed = none → spanAccess mem a c f.lo f.hi f.rights f.align = .ok .ok

/-- Each fact of the evidence holds. -/
def FactsHold (prep : Prep) (env : Env) (mem : Mem) (live : List Live) : Prop :=
  ∀ f ∈ live, ∃ a c, FactHolds prep env mem f a c

variable {env' : Env} {a : Int} {c : Cap} {f : Live}

theorem valueX_kept {prep : Prep} {env : Env} {v : Value} {k : Cls}
    (kept : ∀ n, v = .tmp n → env'.vals n = env.vals n) : valueX prep env' k v = valueX prep env k v := by
  cases v with
  | tmp n => simp [valueX, kept n rfl]
  | const c => rfl
  | global g => rfl

theorem FactHolds.kept {prep : Prep} {env : Env} {mem mem' : Mem}
    (holds : FactHolds prep env mem f a c) {ds : List Name} (vals : ∀ n ∉ ds, env'.vals n = env.vals n)
    (kept : ∀ d ∈ ds, f.names d = false) (same : SameObjects mem mem')
    (doomed : env'.doomed = none → env.doomed = none) : FactHolds prep env' mem' f a c := by
  have other : ∀ n, f.q = n ∨ f.p = .tmp n → n ∉ ds := by
    intro n named h
    have := kept n h
    simp only [Live.names, Bool.or_eq_false_iff, decide_eq_false_iff_not] at this
    rcases named with named | named
    · exact this.1 named
    · exact this.2 named
  refine ⟨?_, ?_, holds.span, fun running => ?_⟩
  · rw [valueX_kept fun n h => vals n (other n (.inr h))]
    exact holds.pointer
  · rw [vals _ (other _ (.inl rfl))]
    exact holds.proof
  · rw [spanAccess, same.accessRes]
    exact holds.passes (doomed running)

theorem let_same {call : Call} {prep : Prep} {d : Name} {k : Cls} {op : Op} {args : List Value} {env : Env} {s : St}
    {r : Result} (done : instResult call prep (.let_ d k op args) env s = .ok r) (noAlloc : ∀ n, op ≠ .alloc n) :
    SameObjects s.mem r.st.mem := by
  have plain : letResult prep d k op args env s = .ok r → SameObjects s.mem r.st.mem := by
    intro done
    simp only [letResult, bind_ok, pure_ok] at done
    obtain ⟨_, _, xs, _, res, ran, rfl⟩ := done
    simpa [St.setMem] using opRes_same ran noAlloc
  generalize here : Inst.let_ d k op args = i at done
  unfold instResult at done
  split at done <;> cases here
  · simp only [bind_ok, pure_ok] at done
    obtain ⟨p, _, check, _, rfl⟩ := done
    simp
  · split at done
    · cases done
      simp
    · cases done
  · simp only [bind_ok, pure_ok] at done
    obtain ⟨x, _, p, _, check, _, rfl⟩ := done
    simp
  · exact plain done

theorem KeepsEvidence.same {call : Call} {prep : Prep} {i : Inst} {env : Env} {s s' : St} {r : Result}
    (keeps : KeepsEvidence i) (effect : InstEffect i s r) (done : instResult call prep i env s = .ok r)
    (went : doomedResult prep i env r = .ok (.cont env' s')) : SameObjects s.mem s'.mem := by
  rcases keeps with preserving | ⟨d, k, op, args, rfl, noAlloc⟩
  · exact (effect.went done went).same preserving
  · have same := let_same done noAlloc
    rcases doomedResult_cont went with rfl | ⟨_, _, _, _, _, rfl, _⟩
    · exact same
    · exact same

theorem heapProof_span {ctx : ValidCtx} {i : Inst} {pf : HeapProof} (proof : heapProof i = some pf)
    (valid : validInst ctx i = true) : pf.fact.lo < pf.fact.hi ∧ pf.fact.lo < pf.ahi := by
  unfold heapProof at proof
  split at proof <;> cases proof
  all_goals
    have op := validLet_op valid (by simp)
    simp only [validOp, validCheckOp, Bool.and_eq_true, decide_eq_true_eq] at op
  · exact ⟨op.1, op.1⟩
  · exact ⟨op.1.1.1, op.1.2⟩
  all_goals exact ⟨op.1, op.1⟩

section
variable {params : List Param} {bs : List Block} (ssa : Ssa params bs) {ctx : ValidCtx}
  (valid : ∀ b ∈ bs, ∀ i ∈ b.insts, validInst ctx i = true) {src : Sources} (sources : SourcesOk params bs src)
  {mode : Mode} (flow : Flow src mode bs) {b : Block} (mem_b : b ∈ bs) {k : Nat} {i : Inst}
  (at_ : b.insts[k]? = some i) {env : Env} {s : St} (holds : Holds params bs env s.mem ⟨b.label, k⟩)
  {prep : Prep} (facts : FactsHold prep env s.mem (flow.at_ b k))
include ssa sources mem_b facts

include valid at_ holds in
/-- Past an instruction its own fact holds, and those that it keeps. -/
theorem FactsHold.step (filc : prep.mode = .filc) {call : Call} {r : Result} {env' : Env} {s' : St}
    (done : instResult call prep i env s = .ok r) (went : doomedResult prep i env r = .ok (.cont env' s'))
    (sourced : ∀ pf, heapProof i = some pf → proofSourced src i = true) (effect : InstEffect i s r)
    (selfless : ∀ pf, heapProof i = some pf → pf.fact.p ≠ .tmp pf.fact.q) :
    FactsHold prep env' s'.mem (flow.at_ b (k + 1)) := by
  intro f live
  have moved := effect.went done went
  rw [Flow.at_, evidenceAt_next at_] at live
  rcases evidenceStep_mem live with ⟨pf, proof, rfl⟩ | ⟨keeps, live⟩
  · obtain ⟨a, c, value, proven, mem, passes⟩ :=
      proof_went ssa valid sources mem_b at_ holds filc done went proof (sourced pf proof)
    refine ⟨a, c, ?_, proven, (heapProof_span proof (valid b mem_b i (List.mem_of_getElem? at_))).1, ?_⟩
    · rw [valueX_kept fun n h => moved.vals n ?_]
      · exact value
      · rw [heapProof_def proof, List.mem_singleton]
        rintro rfl
        exact selfless pf proof h
    · rw [mem]
      exact passes
  · obtain ⟨live, kept⟩ := mem_evidenceKill.1 live
    obtain ⟨a, c, holds⟩ := facts f live
    exact ⟨a, c, holds.kept moved.vals kept (keeps.same effect done went) moved.doomed⟩

/-! ### Covered accesses -/

variable {acc : RawAccess}

omit valid at_ holds ssa sources mem_b facts in
/-- An access within a fact's range passes where the fact does. -/
theorem coveredAccess_passes {i : Inst} {q : Name} {lo hi align : Int} {rights : Rights} {mem : Mem} (ok : RegionsOk mem) (raw : rawAccess i = some acc)
    (covered : coveredAccess i q lo hi rights align = true)
    (passes : spanAccess mem a c lo hi rights align = .ok .ok) :
    acc.proof = q ∧ ∃ sa, accessSizeAlign acc.type = some sa ∧
      accessRes mem (rawAddress a acc.off) c sa.1 acc.need sa.2 = .ok .ok := by
  simp only [coveredAccess, raw] at covered
  split at covered
  · rename_i sa size
    simp only [Bool.and_eq_true, decide_eq_true_eq] at covered
    obtain ⟨⟨⟨⟨⟨named, low⟩, high⟩, divides⟩, shift⟩, allow⟩ := covered
    have spec := accessSizeAlign_spec size
    exact ⟨named, sa, size, covered_access ok passes low high spec.1.le divides shift allow⟩
  · cases covered

omit valid at_ in
include holds in
/-- A fact at a distance from another's pointer is of its object. -/
theorem FactHolds.apart {g : Live} {d : Int} (live : f ∈ flow.at_ b k) (liveG : g ∈ flow.at_ b k)
    (holdsF : FactHolds prep env s.mem f a c) (distance : pointerDistance src.once g.p f.p = some d) :
    ∃ a1, FactHolds prep env s.mem g a1 c ∧ a1 ≡ a + d [ZMOD addressModulus] := by
  obtain ⟨x, x1, pointerG, pointerF, address⟩ :=
    pointerDistance_address ssa holds.reached holds.defs (sources.distance distance)
  have established : ∀ {h : Live} {n : Name}, h ∈ flow.at_ b k → h.p = .tmp n →
      (singleDefinitions params bs n).isSome → Established params bs n ⟨b.label, k⟩ := by
    intro h n live named known
    obtain ⟨d, once⟩ := Option.isSome_iff_exists.1 known
    exact flow.established ssa once named mem_b live
  have valueF := holdsF.pointer
  rw [pointerF] at valueF
  obtain ⟨a1, valueG, apart⟩ := address a c (established liveG pointerG) (established live pointerF)
    (valueX_pointer valueF)
  obtain ⟨a1', c', holdsG⟩ := facts g liveG
  have same := holdsG.pointer
  rw [pointerG, valueX_tmp (c := .p) valueG rfl] at same
  cases same
  exact ⟨a1, holdsG, apart⟩

omit valid at_ in
include holds in
theorem hullCovered_passes (running : env.doomed = none) (live : f ∈ flow.at_ b k) (holdsF : FactHolds prep env s.mem f a c)
    (covered : hullCovered src.once acc f.p f.lo f.align (flow.at_ b k) = true) :
    ∃ sa, accessSizeAlign acc.type = some sa ∧
      accessRes s.mem (rawAddress a acc.off) c sa.1 acc.need sa.2 = .ok .ok := by
  have span : ∀ {sp : Span}, sp ∈ (flow.at_ b k).filterMap (hullSpan src.once f.p) →
      ∃ g a1 d, FactHolds prep env s.mem g a1 c ∧ a1 ≡ a + d [ZMOD addressModulus] ∧ sp.lo = g.lo + d ∧
        sp.hi = g.hi + d ∧ sp.rights = g.rights ∧ nearOffset (g.lo + d) = true ∧ nearOffset (g.hi + d) = true := by
    intro sp mem
    obtain ⟨g, liveG, spanG⟩ := List.mem_filterMap.1 mem
    unfold hullSpan at spanG
    split at spanG
    · rename_i d distance
      split at spanG
      · rename_i near
        cases spanG
        simp only [Bool.and_eq_true] at near
        obtain ⟨a1, holdsG, apart⟩ :=
          holdsF.apart ssa sources flow mem_b holds facts live liveG distance
        exact ⟨g, a1, d, holdsG, apart, rfl, rfl, rfl, near.1.2, near.2⟩
      · cases spanG
    · cases spanG
  unfold hullCovered at covered
  split at covered
  · rename_i sa size
    simp only [Bool.and_eq_true, Bool.or_eq_true, decide_eq_true_eq, List.any_eq_true] at covered
    obtain ⟨⟨⟨⟨⟨⟨divides, shift⟩, _⟩, _⟩, s1, mem1, low⟩, s2, mem2, high⟩, writable⟩ := covered
    obtain ⟨g1, a1, d1, holds1, apart1, lo1, _, _, near1, _⟩ := span mem1
    obtain ⟨g2, a2, d2, holds2, apart2, _, hi2, _, near3, near2⟩ := span mem2
    have spec := accessSizeAlign_spec size
    refine ⟨sa, size, ?_⟩
    refine hull_access holds.regions (holds1.passes running) (holds2.passes running) (holdsF.passes running) rfl
      apart1 apart2 holds1.span holds2.span (lo1 ▸ low) (hi2 ▸ high) spec.1 near1 near2 near3 divides shift spec.2.2 ?_
    intro write
    rcases writable with read | ⟨s3, mem3, rights⟩
    · rw [write] at read
      cases read
    · obtain ⟨g3, a3, d3, holds3, _, _, _, same, _⟩ := span mem3
      obtain ⟨_, _, _, _, _, _, writes⟩ := accessRes_ok.1 (holds3.passes running)
      exact writes (same ▸ rights)
  · cases covered

omit valid at_ in
include holds in
/-- An access that the evidence covers passes its test. -/
theorem liveCovers_passes (running : env.doomed = none) (raw : rawAccess i = some acc)
    (covers : liveCovers src.once i acc (flow.at_ b k) = true) :
    ∃ a c sa, env.vals acc.proof = some (.ptr a c) ∧ accessSizeAlign acc.type = some sa ∧
      accessRes s.mem (rawAddress a acc.off) c sa.1 acc.need sa.2 = .ok .ok := by
  simp only [liveCovers, Bool.and_eq_true] at covers
  obtain ⟨_, covers⟩ := covers
  split at covers
  · rename_i f found
    have live := List.mem_of_find?_eq_some found
    have named : f.q = acc.proof := by simpa using List.find?_some found
    obtain ⟨a, c, holdsF⟩ := facts f live
    simp only [Bool.or_eq_true] at covers
    rcases covers with covered | covered
    · obtain ⟨_, sa, size, passes⟩ := coveredAccess_passes holds.regions raw covered (holdsF.passes running)
      exact ⟨a, c, sa, named ▸ holdsF.proof, size, passes⟩
    · obtain ⟨sa, size, passes⟩ :=
        hullCovered_passes ssa sources flow mem_b holds facts running live holdsF covered
      exact ⟨a, c, sa, named ▸ holdsF.proof, size, passes⟩
  · cases covers

end

end Nanofil
