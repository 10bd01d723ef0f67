import Nanofil.Evidence
import Nanofil.Lib.Results
import Nanofil.Ssa

/-! What `checked_blocks/4` accepts: the evidence before each instruction of a block,
what each edge carries of it, and that a fact's pointer is established where it is live. -/
namespace Nanofil
open Results List Option Walks

/-- What an instruction makes of the evidence before it, a proof's own fact included. -/
def evidenceStep (src : Sources) (live : List Live) (i : Inst) : List Live :=
  match i with
  | .let_ q .a (.checkLocal ..) [] => evidenceKill live [q]
  | .let_ _ .f .checkFunction _ => []
  | i =>
    match heapProof i with
    | some pf => pf.fact :: evidenceAfter i live
    | none => ordinaryAfter src i live

def evidenceAt (src : Sources) (live : List Live) (is : List Inst) (k : Nat) : List Live :=
  (is.take k).foldl (evidenceStep src) live

/-- An instruction stands right after the proof that it uses. -/
def Follows (src : Sources) (live : List Live) (is : List Inst) (k : Nat) : Prop :=
  ∃ j i access, k = j + 1 ∧ is[j]? = some i ∧ is[k]? = some access ∧ proofInst i = true ∧
    (provenAccess src i access (evidenceAt src live is j)).isSome

@[simp] theorem evidenceAt_zero (src : Sources) (live : List Live) (is : List Inst) :
    evidenceAt src live is 0 = live := by simp [evidenceAt]

@[simp] theorem evidenceAt_cons (src : Sources) (live : List Live) (i : Inst) (is : List Inst) (k : Nat) :
    evidenceAt src live (i :: is) (k + 1) = evidenceAt src (evidenceStep src live i) is k := by
  simp [evidenceAt]

variable {i : Inst} {is : List Inst} {f : Live} {b : Block}

theorem evidenceAt_next {src : Sources} {live : List Live} {k : Nat} (at_ : is[k]? = some i) :
    evidenceAt src live is (k + 1) = evidenceStep src (evidenceAt src live is k) i := by
  simp [evidenceAt, take_add_one, at_]

/-! ### Proofs and their accesses -/

theorem evidenceStep_ordinary {src : Sources} (ordinary : proofInst i = false) (live : List Live) :
    evidenceStep src live i = ordinaryAfter src i live := by
  unfold proofInst at ordinary
  split at ordinary
  · cases ordinary
  · cases ordinary
  · rename_i local_ function
    unfold evidenceStep
    split
    · exact absurd rfl (local_ _ _ _ _ _ _)
    · exact absurd rfl (function _ _)
    · cases proof : heapProof i <;> simp_all

/-- An access that uses a proof is none itself, and no getter. -/
theorem access_ordinary {access : Inst}
    (uses : (rawAccess access).isSome ∨ (∃ t, access = .touch t) ∨ ∃ res f args, access = .rawCall res f args) :
    proofInst access = false ∧ getterCopy access = none := by
  rcases uses with raw | ⟨t, rfl⟩ | ⟨res, f, args, rfl⟩
  · obtain ⟨a, raw⟩ := isSome_iff_exists.1 raw
    unfold rawAccess at raw
    split at raw
    any_goals exact ⟨rfl, rfl⟩
    all_goals first | (cases raw; done) | simp [proofInst, heapProof, getterCopy]
  · exact ⟨rfl, rfl⟩
  · exact ⟨rfl, rfl⟩

theorem coveredAccess_raw {q : Name} {lo hi align : Int} {rights : Rights}
    (covered : coveredAccess i q lo hi rights align = true) : (rawAccess i).isSome := by
  unfold coveredAccess at covered
  split at covered
  · rename_i a raw
    simp [raw]
  · cases covered

theorem proofUse_raw {q : Name} {lo hi align : Int} {rights : Rights}
    (used : proofUse i q lo hi rights align = true) : (rawAccess i).isSome ∨ ∃ t, i = .touch t := by
  unfold proofUse at used
  split at used
  · exact .inr ⟨_, rfl⟩
  · simp only [Bool.and_eq_true] at used
    exact .inl (coveredAccess_raw used.1)

/-- What follows a proof is an access, a touch or a call. -/
theorem provenAccess_uses {src : Sources} {access : Inst} {live live' : List Live}
    (proven : provenAccess src i access live = some live') :
    (rawAccess access).isSome ∨ (∃ t, access = .touch t) ∨ ∃ res f args, access = .rawCall res f args := by
  unfold provenAccess at proven
  split at proven
  · simp only [ite_none_right_eq_some, localUse, Bool.and_eq_true] at proven
    exact .inl (coveredAccess_raw proven.1.1.2)
  · split at proven
    · rename_i res f args
      exact .inr (.inr ⟨res, _, args, rfl⟩)
    · cases proven
  · split at proven
    · simp only [ite_none_right_eq_some, proofOwnUse, Bool.and_eq_true] at proven
      exact (proofUse_raw proven.1.2.1).imp_right .inl
    · cases proven

theorem provenAccess_after {src : Sources} {access : Inst} {live live' : List Live}
    (proven : provenAccess src i access live = some live') :
    live' = evidenceStep src (evidenceStep src live i) access := by
  obtain ⟨ordinary, getter⟩ := access_ordinary (provenAccess_uses proven)
  rw [evidenceStep_ordinary ordinary]
  have after : ∀ live, ordinaryAfter src access live = evidenceAfter access live := by
    intro live
    simp [ordinaryAfter, repeatedGetter, getter]
  rw [after]
  unfold provenAccess at proven
  split at proven
  · simp only [ite_none_right_eq_some, Option.some.injEq] at proven
    exact proven.2.symm
  · split at proven
    · simp only [ite_none_right_eq_some, Option.some.injEq] at proven
      simp [evidenceAfter, evidencePreserving, ← proven.2]
    · cases proven
  · rename_i local_ function
    split at proven
    · rename_i pf proof
      simp only [ite_none_right_eq_some, Option.some.injEq] at proven
      rw [← proven.2]
      congr 1
      unfold evidenceStep
      split
      · exact absurd rfl (local_ _ _ _ _ _ _)
      · exact absurd rfl (function _ _)
      · simp [proof]
    · cases proven

/-- The evidence after a block is each instruction's of the evidence before it. -/
theorem checkedInsts_out {src : Sources} {mode : Mode} {live out : List Live}
    (accepted : checkedInsts src mode is live = some out) : out = is.foldl (evidenceStep src) live := by
  induction is, live using checkedInsts.induct src mode with
  | case1 live => simpa [checkedInsts, eq_comm] using accepted
  | case2 i live proof => simp [checkedInsts, proof] at accepted
  | case3 i live proof allowed =>
    simp only [checkedInsts, proof, allowed, Bool.false_eq_true, if_false, if_true, Option.some.injEq] at accepted
    simp [← accepted, evidenceStep_ordinary (by simpa using proof)]
  | case4 i live proof allowed => simp [checkedInsts, proof, allowed] at accepted
  | case5 i access is live proof ih =>
    simp only [checkedInsts, proof, if_true, bind_found] at accepted
    obtain ⟨live', proven, accepted⟩ := accepted
    rw [ih live' accepted, provenAccess_after proven]
    rfl
  | case6 i access is live proof allowed ih =>
    simp only [checkedInsts, proof, allowed, Bool.false_eq_true, if_false, if_true] at accepted
    rw [ih accepted, ← evidenceStep_ordinary (by simpa using proof)]
    rfl
  | case7 i access is live proof allowed => simp [checkedInsts, proof, allowed] at accepted

theorem Follows.cons {src : Sources} {live : List Live} {i : Inst} {is : List Inst} {k : Nat}
    (follows : Follows src (evidenceStep src live i) is k) : Follows src live (i :: is) (k + 1) := by
  obtain ⟨j, p, access, rfl, hp, ha, proof, proven⟩ := follows
  exact ⟨j + 1, p, access, rfl, by simpa using hp, by simpa using ha, proof, by simpa using proven⟩

/-- Each instruction of an accepted block: a proof with its access next, such an
access, or one that the evidence before it allows. -/
theorem checkedInsts_at {src : Sources} {mode : Mode} {live out : List Live}
    (accepted : checkedInsts src mode is live = some out) : ∀ {k : Nat} {i : Inst}, is[k]? = some i →
    if proofInst i then Follows src live is (k + 1)
    else Follows src live is k ∨ ordinaryAllowed mode src.once i (evidenceAt src live is k) = true := by
  induction is, live using checkedInsts.induct src mode with
  | case1 live => intro k i at_; simp at at_
  | case2 i live proof => simp [checkedInsts, proof] at accepted
  | case3 i live proof allowed =>
    intro k i' at_
    cases k with
    | zero =>
      cases (show i = i' by simpa using at_)
      simp [proof, allowed]
    | succ k => simp at at_
  | case4 i live proof allowed => simp [checkedInsts, proof, allowed] at accepted
  | case5 i access is live proof ih =>
    simp only [checkedInsts, proof, if_true, bind_found] at accepted
    obtain ⟨live', proven, accepted⟩ := accepted
    have first : Follows src live (i :: access :: is) 1 :=
      ⟨0, i, access, rfl, rfl, rfl, proof, by simp [proven]⟩
    have after := provenAccess_after proven
    obtain ⟨ordinary, _⟩ := access_ordinary (provenAccess_uses proven)
    intro k i' at_
    cases k with
    | zero =>
      cases (show i = i' by simpa using at_)
      simpa [proof] using first
    | succ k =>
      cases k with
      | zero =>
        cases (show access = i' by simpa using at_)
        simpa [ordinary] using .inl first
      | succ k =>
        have rest := ih live' accepted (k := k) (i := i') (by simpa using at_)
        rw [after] at rest
        split
        · rename_i proof'
          rw [if_pos proof'] at rest
          exact rest.cons.cons
        · rename_i proof'
          rw [if_neg proof'] at rest
          exact rest.imp (fun h => h.cons.cons) (fun h => by simpa using h)
  | case6 i access is live proof allowed ih =>
    simp only [checkedInsts, proof, allowed, Bool.false_eq_true, if_false, if_true] at accepted
    have after : evidenceStep src live i = ordinaryAfter src i live :=
      evidenceStep_ordinary (by simpa using proof) live
    intro k i' at_
    cases k with
    | zero =>
      cases (show i = i' by simpa using at_)
      simp [proof, allowed]
    | succ k =>
      have rest := ih accepted (k := k) (i := i') (by simpa using at_)
      rw [← after] at rest
      split
      · rename_i proof'
        rw [if_pos proof'] at rest
        exact rest.cons
      · rename_i proof'
        rw [if_neg proof'] at rest
        exact rest.imp (fun h => h.cons) (fun h => by simpa using h)
  | case7 i access is live proof allowed => simp [checkedInsts, proof, allowed] at accepted

/-! ### Blocks -/

theorem mem_evidenceKill {live : List Live} {ds : List Name} :
    f ∈ evidenceKill live ds ↔ f ∈ live ∧ ∀ d ∈ ds, f.names d = false := by
  simp [evidenceKill]

/-- A fact at a block's entry came along every edge to it. -/
theorem entryEvidence_mem {bs : List Block} {exits : Exits} (mem : f ∈ entryEvidence bs exits b) :
    (∀ e ∈ incomingEdges bs b.label, f ∈ edgeEvidence exits e) ∧ incomingEdges bs b.label ≠ [] ∧
      ∀ ph ∈ b.phis, f.names ph.dst = false := by
  obtain ⟨meet, phis⟩ := mem_evidenceKill.1 mem
  refine ⟨fun e h => ?_, ?_, fun ph h => phis _ (List.mem_map_of_mem h)⟩
  · unfold evidenceMeet at meet
    split at meet
    · cases meet
    · rename_i s ss split
      simp only [mem_filter, List.all_eq_true, contains_iff_mem] at meet
      refine meet.2 _ ?_
      rw [← split]
      exact List.mem_map_of_mem (mem_reverse.2 h)
  · intro empty
    simp [empty, evidenceMeet] at meet

theorem mem_incomingEdges {bs : List Block} {t : Target} (mem : b ∈ bs)
    (target : t ∈ jumpTargets b.jump) : ⟨b.label, t⟩ ∈ incomingEdges bs (edgeLabel t) := by
  simp only [incomingEdges, mem_flatMap, List.mem_map, mem_filter, decide_eq_true_eq]
  exact ⟨b, mem, t, ⟨target, rfl⟩, rfl⟩

/-- The blocks after one leave its exit alone. -/
theorem checkedBlocks_keep {src : Sources} {mode : Mode} {bs rest : List Block} : ∀ {exits0 exits : Exits},
    rest.foldlM (checkedBlock src mode bs) exits0 = some exits → (∀ b ∈ rest, exits0 b.label = none) →
    (rest.map (·.label)).Nodup → ∀ l out, exits0 l = some out → exits l = some out := by
  induction rest with
  | nil =>
    intro exits0 exits accepted _ _ l out known
    simp only [foldlM_nil, pure_found] at accepted
    exact accepted ▸ known
  | cons b rest ih =>
    intro exits0 exits accepted fresh nodup l out known
    simp only [foldlM_cons, checkedBlock, bind_found, Option.pure_def,
      Option.some.injEq] at accepted
    obtain ⟨_, ⟨live, _, rfl⟩, accepted⟩ := accepted
    simp only [map_cons, nodup_cons, List.mem_map, not_exists, not_and] at nodup
    refine ih accepted ?_ nodup.2 l out ?_
    · intro b' h
      rw [if_neg (nodup.1 b' h), fresh b' (mem_cons_of_mem _ h)]
    · have other : l ≠ b.label := by
        rintro rfl
        rw [fresh b mem_cons_self] at known
        cases known
      rw [if_neg other, known]

/-- Each block was checked from the exits known then, and left the exit it has. -/
theorem checkedBlocks_each {src : Sources} {mode : Mode} {bs rest : List Block} : ∀ {exits0 exits : Exits},
    rest.foldlM (checkedBlock src mode bs) exits0 = some exits → (∀ b ∈ rest, exits0 b.label = none) →
    (rest.map (·.label)).Nodup → ∀ b ∈ rest, ∃ exits1 out,
      checkedInsts src mode b.insts (entryEvidence bs exits1 b) = some out ∧ exits b.label = some out ∧
      ∀ l out, exits1 l = some out → exits l = some out := by
  induction rest with
  | nil => simp
  | cons b rest ih =>
    intro exits0 exits accepted fresh nodup b' mem
    have keep := checkedBlocks_keep accepted fresh nodup
    simp only [foldlM_cons, checkedBlock, bind_found, Option.pure_def,
      Option.some.injEq] at accepted
    obtain ⟨_, ⟨live, checked, rfl⟩, accepted⟩ := accepted
    simp only [map_cons, nodup_cons, List.mem_map, not_exists, not_and] at nodup
    have fresh' : ∀ b' ∈ rest, (if b'.label = b.label then some live else exits0 b'.label) = none := by
      intro b' h
      rw [if_neg (nodup.1 b' h), fresh b' (mem_cons_of_mem _ h)]
    rcases mem_cons.1 mem with rfl | mem
    · exact ⟨exits0, live, checked, checkedBlocks_keep accepted fresh' nodup.2 _ _ (if_pos rfl), keep⟩
    · exact ih accepted fresh' nodup.2 b' mem

/-- The evidence a checked function's blocks begin and end with. -/
structure Flow (src : Sources) (mode : Mode) (bs : List Block) where
  entry : Name → List Live
  exit : Name → List Live
  checked : ∀ b ∈ bs, checkedInsts src mode b.insts (entry b.label) = some (exit b.label)
  edge : ∀ b ∈ bs, ∀ b' ∈ bs, ∀ t ∈ jumpTargets b.jump, edgeLabel t = b'.label → ∀ f ∈ entry b'.label,
    t = .label b'.label ∧ f ∈ exit b.label
  start : entry (blocksEntry bs) = []
  phis : ∀ b ∈ bs, ∀ f ∈ entry b.label, ∀ ph ∈ b.phis, f.names ph.dst = false

theorem noEntryJump_edges {bs : List Block} (entry : noEntryJump bs = true) :
    incomingEdges bs (blocksEntry bs) = [] := by
  rw [eq_nil_iff_forall_not_mem]
  intro e mem
  simp only [incomingEdges, mem_flatMap, List.mem_map, mem_filter, decide_eq_true_eq] at mem
  obtain ⟨b, mem, t, ⟨target, same⟩, _⟩ := mem
  cases bs with
  | nil => cases mem
  | cons b0 bs =>
    simp only [noEntryJump, List.all_eq_true, decide_eq_true_eq] at entry
    refine entry b mem ?_
    rw [jumpLabels, List.mem_map]
    exact ⟨t, target, same⟩

theorem checkedBlocks_flow {src : Sources} {mode : Mode} {bs : List Block} {exits : Exits}
    (labels : (bs.map (·.label)).Nodup) (entry : noEntryJump bs = true)
    (accepted : checkedBlocks src mode bs = some exits) : Nonempty (Flow src mode bs) := by
  have each := checkedBlocks_each accepted (fun _ _ => rfl) labels
  choose! known out checked exit keep using each
  have entry_of : ∀ b ∈ bs, ((bs.find? (fun b' => b'.label = b.label)).map
      (fun b => entryEvidence bs (known b) b)).getD [] = entryEvidence bs (known b) b := by
    intro b mem
    simp [find_label labels mem]
  refine ⟨⟨fun l => ((bs.find? (fun b' => b'.label = l)).map (fun b => entryEvidence bs (known b) b)).getD [],
    fun l => (exits l).getD [], ?_, ?_, ?_, ?_⟩⟩
  · intro b mem
    rw [entry_of b mem, checked b mem, exit b mem]
    rfl
  · intro b mem b' mem' t target same f live
    rw [entry_of b' mem'] at live
    have along := (entryEvidence_mem live).1 ⟨b.label, t⟩ (same ▸ mem_incomingEdges mem target)
    cases t with
    | poll l => cases along
    | label l =>
      simp only [edgeLabel] at same
      subst same
      refine ⟨rfl, ?_⟩
      simp only [edgeEvidence] at along
      cases before : known b' b.label with
      | none => simp [before] at along
      | some live =>
        rw [keep b' mem' _ _ before]
        simpa [before] using along
  · cases bs with
    | nil => cases entry
    | cons b bs =>
      rw [eq_nil_iff_forall_not_mem]
      intro f live
      have here : blocksEntry (b :: bs) = b.label := rfl
      rw [here, entry_of b mem_cons_self] at live
      exact (entryEvidence_mem live).2.1 (noEntryJump_edges entry)
  · intro b mem f live
    rw [entry_of b mem] at live
    exact (entryEvidence_mem live).2.2

/-! ### Live facts are of established pointers -/

theorem heapProof_use {pf : HeapProof} {p : Name} (proof : heapProof i = some pf)
    (pointer : pf.fact.p = .tmp p) : p ∈ instUses i := by
  unfold heapProof at proof
  split at proof <;> cases proof <;> dsimp only at pointer <;> subst pointer <;> simp [instUses, temps, Value.temp?]

theorem heapProof_def {pf : HeapProof} (proof : heapProof i = some pf) : instDefs i = [pf.fact.q] := by
  unfold heapProof at proof
  split at proof <;> cases proof <;> rfl

theorem evidenceAfter_sub {live : List Live} (mem : f ∈ evidenceAfter i live) :
    evidencePreserving i = true ∧ f ∈ evidenceKill live (instDefs i) := by
  unfold evidenceAfter at mem
  split at mem
  · exact ⟨‹_›, mem⟩
  · cases mem

/-- Evidence outlives what is transparent to it, a local's check and a repeated getter. -/
def KeepsEvidence (i : Inst) : Prop :=
  evidencePreserving i = true ∨ ∃ d k op args, i = .let_ d k op args ∧ ∀ n, op ≠ .alloc n

/-- A fact after an instruction is the instruction's own, or one it has kept. -/
theorem evidenceStep_mem {src : Sources} {live : List Live} (mem : f ∈ evidenceStep src live i) :
    (∃ pf, heapProof i = some pf ∧ f = pf.fact) ∨ KeepsEvidence i ∧ f ∈ evidenceKill live (instDefs i) := by
  unfold evidenceStep at mem
  split at mem
  · exact .inr ⟨.inr ⟨_, _, _, _, rfl, by simp⟩, mem⟩
  · cases mem
  · split at mem
    · rename_i pf proof
      rcases mem_cons.1 mem with rfl | mem
      · exact .inl ⟨pf, proof, rfl⟩
      · exact .inr ((evidenceAfter_sub mem).imp_left .inl)
    · unfold ordinaryAfter at mem
      split at mem
      · rename_i getter
        refine .inr ⟨.inr ?_, mem⟩
        unfold repeatedGetter getterCopy at getter
        split at getter
        · split at *
          · exact ⟨_, _, _, _, rfl, by simp⟩
          · contradiction
        · cases getter
      · exact .inr ((evidenceAfter_sub mem).imp_left .inl)

section
variable {params : List Param} {bs : List Block} {src : Sources} {mode : Mode} (flow : Flow src mode bs)

/-- The evidence at a point of a block, its entry's before the phis. -/
def Flow.at_ (b : Block) (k : Nat) : List Live := evidenceAt src (flow.entry b.label) b.insts k

theorem Flow.at_end (mem : b ∈ bs) : flow.at_ b b.insts.length = flow.exit b.label := by
  rw [checkedInsts_out (flow.checked b mem), Flow.at_, evidenceAt, take_length]

/-- A live fact's single-definition pointer is established wherever the fact is live. -/
theorem Flow.established (ssa : Ssa params bs) {p : Name} {d : Def}
    (once : singleDefinitions params bs p = some d) (pointer : f.p = .tmp p) (mem : b ∈ bs)
    {k : Nat} (live : f ∈ flow.at_ b k) : Established params bs p ⟨b.label, k⟩ := by
  obtain ⟨e, entry, named, _⟩ := once_unique once
  refine (established_once once entry named).2 ?_
  have passed : ∀ w pt, Walk (PointEdge bs) (startPoint bs) w pt → ∀ b ∈ bs, pt.label = b.label →
      (pt.index = -1 → f ∈ flow.entry b.label → ∀ l j, e.site = .at_ l j → ⟨l, j⟩ ∈ w) ∧
      (∀ k : Nat, pt.index = k → f ∈ flow.at_ b k → ∀ l j, e.site = .at_ l j → ⟨l, j⟩ ∈ w) := by
    intro w pt walk
    induction walk with
    | start =>
      intro b mem here
      refine ⟨fun _ live => ?_, fun k index => ?_⟩
      · rw [← here, startPoint, flow.start] at live
        cases live
      · simp only [startPoint] at index
        omega
    | @step w pt pt' walk next ih =>
      intro b mem here
      cases next with
      | @next b0 i mem0 low high =>
        cases label_inj ssa.labels mem0 mem here
        obtain ⟨phis, insts⟩ := ih b mem rfl
        refine ⟨fun index => by dsimp only at index; omega, fun k index live l j site => ?_⟩
        dsimp only at index
        refine mem_cons_of_mem _ ?_
        cases k with
        | zero => exact phis (by dsimp only; omega) (by simpa [Flow.at_] using live) l j site
        | succ k =>
          have found : b.insts[k]? = some b.insts[k] := getElem?_eq_getElem (by omega)
          rw [Flow.at_, evidenceAt_next found] at live
          rcases evidenceStep_mem live with ⟨pf, proof, rfl⟩ | live
          · have same : i = k := by omega
            subst same
            have est := inst_use ssa mem found walk.reachable (heapProof_use proof pointer)
            have before := (established_once once entry named).1 est
            rw [site] at before
            exact before w walk
          · exact insts k (by dsimp only; omega) (mem_evidenceKill.1 live.2).1 l j site
      | @jump b0 l0 mem0 target =>
        dsimp only at here
        subst here
        refine ⟨fun _ live l j site => ?_, fun k index => by dsimp only at index; omega⟩
        rw [jumpLabels, List.mem_map] at target
        obtain ⟨t, target, same⟩ := target
        have exit := (flow.edge b0 mem0 b mem t target same f live).2
        rw [← flow.at_end mem0] at exit
        exact mem_cons_of_mem _ ((ih b0 mem0 rfl).2 _ rfl exit l j site)
  cases site : e.site with
  | param => trivial
  | at_ l j =>
    intro w walk
    exact (passed w _ walk b mem rfl).2 k rfl live l j site

end

end Nanofil
