import Nanofil.Framing.Liveness

/-! `cfg.pl`: liveness of any reads and writes ends, with the least sets that solve its
equations; of temporaries these are what some way reads before it defines. -/
namespace Nanofil.Framing
open List Option Walks Observations

section
variable {f : Flows} {order : List Name}

/-- More fuel changes nothing. -/
theorem livenessWorklist_more {fuel : Nat} : ∀ {pending : List Nat} {live live' : LiveSets},
    livenessWorklist f order fuel pending live = some live' → ∀ more, fuel ≤ more → livenessWorklist f order more pending live = some live' := by
  induction fuel with
  | zero =>
    intro pending live live' done more _
    cases pending with
    | nil => cases more <;> exact done
    | cons i pending => cases done
  | succ fuel ih =>
    intro pending live live' done more le
    obtain ⟨more, rfl⟩ := Nat.exists_eq_succ_of_ne_zero (show more ≠ 0 by omega)
    cases pending with
    | nil => exact done
    | cons i pending =>
      rw [livenessWorklist] at done ⊢
      split_ifs at done ⊢ with same
      · exact ih done more (by omega)
      · exact ih done more (by omega)

/-- Whatever the equations put in a set has the property, once what they put it there from has. -/
def Follows (f : Flows) (order : List Name) (P : Name → Name → Prop) : Prop :=
  ∀ l ∈ order, ∀ n, (n ∈ f.gen l ∨ (∃ s ∈ f.succs l, P s n ∨ n ∈ f.edgeUses l s) ∧ n ∉ f.kill l) → P l n

/-- The worklist puts nothing in a set that does not follow. -/
theorem livenessWorklist_least {P : Name → Name → Prop} (follows : Follows f order P) {fuel : Nat} : ∀ {pending : List Nat}
    {live live' : LiveSets}, (∀ i ∈ pending, i < order.length) → (∀ l, ∀ n ∈ live l, P l n) →
      livenessWorklist f order fuel pending live = some live' → ∀ l, ∀ n ∈ live' l, P l n := by
  induction fuel with
  | zero =>
    intro pending live live' _ before done
    cases pending with
    | nil =>
      cases done
      exact before
    | cons i pending => cases done
  | succ fuel ih =>
    intro pending live live' inside before done
    cases pending with
    | nil =>
      cases done
      exact before
    | cons i pending =>
      have rest : ∀ j ∈ pending, j < order.length := fun j h => inside j (mem_cons_of_mem _ h)
      rw [livenessWorklist] at done
      split_ifs at done with same
      · exact ih rest before done
      · refine ih (requeued_inside rest _) (fun l n there => ?_) done
        by_cases here : l = order.getD i ""
        · rw [here, Function.update_self, liveIn, Finset.mem_union, Finset.mem_sdiff, mem_liveOut] at there
          have listed := getD_mem (inside i mem_cons_self)
          rw [← here] at there listed
          refine follows l listed n (there.imp id fun h => ⟨?_, h.2⟩)
          obtain ⟨s, next, flows⟩ := h.1
          exact ⟨s, next, flows.imp (before s n) id⟩
        · rw [Function.update_of_ne here] at there
          exact before l n there

end

/-! ### Any reads and writes -/

/-- The equations of liveness, at each block. -/
def Solves (bs : List Block) (gen kill : LiveSets) (edgeUses : Name → Name → Finset Name) (into out : LiveSets) : Prop :=
  ∀ b ∈ bs, (∀ n, n ∈ out b.label ↔ ∃ s ∈ blockSuccs bs b.label, n ∈ into s ∨ n ∈ edgeUses b.label s) ∧
    into b.label = gen b.label ∪ (out b.label \ kill b.label)

/-- The worklist's labels: all of them, those that are reached first. -/
def livenessOrder (labels rpo : List Name) : List Name := rpo.reverse ++ (sortNames labels).filter (· ∉ rpo)

theorem mem_livenessOrder {labels rpo : List Name} (sub : ∀ l ∈ rpo, l ∈ labels) {l : Name} : l ∈ livenessOrder labels rpo ↔ l ∈ labels := by
  simp only [livenessOrder, mem_append, mem_reverse, mem_filter, mem_sortNames, decide_eq_true_eq]
  constructor
  · exact fun h => h.elim (sub l) And.left
  · intro h
    by_cases reached : l ∈ rpo
    · exact .inl reached
    · exact .inr ⟨h, reached⟩

/-- The order of a graph has only its labels. -/
theorem rpo_labels {bs : List Block} {cfg : Cfg} (labels : (bs.map (·.label)).Nodup) (exist : labelsExist bs = true)
    (built : funcCfg bs = some cfg) : ∀ l ∈ cfg.rpo, l ∈ bs.map (·.label) := by
  obtain ⟨parent, -, tree⟩ := cfgIdoms_ends labels built
  intro l mem
  have entry : cfg.entry ∈ bs.map (·.label) := ?_
  · exact reachable_mem entry (fun a _ b next => succs_exist exist next) ((tree.inside l).1 mem)
  rw [(funcCfg_spec built).1]
  cases bs with
  | nil => cases built
  | cons b bs => exact mem_cons_self

/-- Liveness ends, solves its equations, and puts in its sets only what follows. -/
theorem liveness_ends {bs : List Block} {cfg : Cfg} (labels : (bs.map (·.label)).Nodup) (exist : labelsExist bs = true)
    (built : funcCfg bs = some cfg) (gen kill : LiveSets) (edgeUses : Name → Name → Finset Name) :
    ∃ fuel live, (∀ more, fuel ≤ more → liveness more (bs.map (·.label)) cfg.rpo ⟨cfg.succs, cfg.preds, gen, kill, edgeUses⟩ = some live) ∧
      Solves bs gen kill edgeUses live.into live.out ∧
        ∀ P, Follows ⟨cfg.succs, cfg.preds, gen, kill, edgeUses⟩ (livenessOrder (bs.map (·.label)) cfg.rpo) P → ∀ l, ∀ n ∈ live.into l, P l n := by
  obtain ⟨-, succs, preds, -, -⟩ := funcCfg_spec built
  have listed := fun {l} => mem_livenessOrder (l := l) (rpo_labels labels exist built)
  obtain ⟨fuel, live, done⟩ := livenessWorklist_ends ⟨cfg.succs, cfg.preds, gen, kill, edgeUses⟩ (livenessOrder (bs.map (·.label)) cfg.rpo)
  refine ⟨fuel, ⟨live, liveOut ⟨cfg.succs, cfg.preds, gen, kill, edgeUses⟩ live⟩, fun more le => ?_, fun b here => ⟨fun n => ?_, ?_⟩, fun P follows => ?_⟩
  · have later := livenessWorklist_more done more le
    rw [livenessOrder] at later
    simp only [liveness, later, bind_eq_bind, bind_some, Option.pure_def]
  · rw [mem_liveOut, succs]
  · refine livenessWorklist_solves (fun a b next => ?_) (fun l here rested => ?_) done b.label (listed.2 (List.mem_map_of_mem here))
    · change b ∈ cfg.succs a at next
      change a ∈ cfg.preds b
      rw [succs] at next
      rw [preds]
      exact mem_blockPreds next
    · exact absurd (mem_range.2 (idxOf_lt_length_iff.2 here)) rested
  · exact livenessWorklist_least follows (fun i h => mem_range.1 h) (fun l n there => by cases there) done

/-- A solution is above the least sets. -/
theorem Solves.follows {bs : List Block} {cfg : Cfg} (labels : (bs.map (·.label)).Nodup) (exist : labelsExist bs = true)
    (built : funcCfg bs = some cfg) {gen kill into out : LiveSets} {edgeUses : Name → Name → Finset Name} (solves : Solves bs gen kill edgeUses into out) :
    Follows ⟨cfg.succs, cfg.preds, gen, kill, edgeUses⟩ (livenessOrder (bs.map (·.label)) cfg.rpo) (fun l n => n ∈ into l) := by
  intro l listed n there
  obtain ⟨b, here, rfl⟩ := List.mem_map.1 ((mem_livenessOrder (rpo_labels labels exist built)).1 listed)
  obtain ⟨outs, ins⟩ := solves b here
  rw [ins, Finset.mem_union, Finset.mem_sdiff, outs]
  rwa [(funcCfg_spec built).2.1] at there

/-! ### Temporaries -/

section
variable {bs : List ViewBlock} {n : Name} {b : ViewBlock}

/-- Some way from a block's start reads the name before it defines it. -/
def LiveInto (bs : List ViewBlock) (n : Name) (b : ViewBlock) : Prop := n ∉ b.phis.map (·.dst) ∧ LiveAt bs n b 0

/-- A name that the instructions from a point on do not define is live there as it is at the end. -/
theorem LiveAt.through (here : b ∈ bs) (ends : LiveAt bs n b b.insts.length) {is : List ViewInst} : ∀ {k : Nat}, k ≤ b.insts.length →
    b.insts.drop k = is → (∀ i ∈ is, n ∉ i.defs) → LiveAt bs n b k := by
  induction is with
  | nil =>
    intro k le rest _
    have last : k = b.insts.length := le_antisymm le (drop_eq_nil_iff.1 rest)
    exact last ▸ ends
  | cons i is ih =>
    intro k le rest untouched
    have lt : k < b.insts.length := by
      by_contra no
      rw [drop_eq_nil_of_le (by omega)] at rest
      cases rest
    rw [drop_eq_getElem_cons lt] at rest
    obtain ⟨same, rest⟩ := List.cons.inj rest
    have at_ : b.insts[k]? = some i := by rw [getElem?_eq_getElem lt, same]
    exact .passes here at_ (untouched i mem_cons_self) (ih lt rest fun i h => untouched i (mem_cons_of_mem _ h))

/-- A name whose first event from a point on is a read is live there. -/
theorem LiveAt.first (here : b ∈ bs) {is : List ViewInst} : ∀ {k : Nat}, k ≤ b.insts.length → b.insts.drop k = is →
    (is.flatMap instEvents ++ (jumpUses b.jump).map (·, Event.use)).find? (·.1 = n) = some (n, .use) → LiveAt bs n b k := by
  induction is with
  | nil =>
    intro k le rest found
    have last : k = b.insts.length := le_antisymm le (drop_eq_nil_iff.1 rest)
    rw [flatMap_nil, nil_append, find_tagged] at found
    split_ifs at found with use
    exact last ▸ .jumps here use
  | cons i is ih =>
    intro k le rest found
    have lt : k < b.insts.length := by
      by_contra no
      rw [drop_eq_nil_of_le (by omega)] at rest
      cases rest
    rw [drop_eq_getElem_cons lt] at rest
    obtain ⟨same, rest⟩ := List.cons.inj rest
    have at_ : b.insts[k]? = some i := by rw [getElem?_eq_getElem lt, same]
    rw [flatMap_cons, append_assoc, instEvents, append_assoc, find?_append, find_tagged, find?_append, find_tagged] at found
    by_cases use : n ∈ i.reads
    · exact .reads here at_ use
    · rw [if_neg use, none_or] at found
      by_cases def_ : n ∈ i.defs
      · rw [if_pos def_, some_or] at found
        cases found
      · rw [if_neg def_, none_or] at found
        exact .passes here at_ def_ (ih lt rest found)

theorem blockSuccs_view (labels : (bs.map (·.label)).Nodup) {l s : Name} (next : s ∈ blockSuccs (bs.map ViewBlock.bare) l) (here : b ∈ bs)
    (named : b.label = l) : s ∈ jumpSuccs b.jump := by
  subst named
  rwa [blockSuccs_bare labels here] at next

/-- What is live into blocks follows from the equations of temporaries. -/
theorem liveInto_follows {cfg : Cfg} (labels : (bs.map (·.label)).Nodup) (exist : labelsExist (bs.map ViewBlock.bare) = true)
    (built : funcCfg (bs.map ViewBlock.bare) = some cfg) :
    Follows (tempFlows bs cfg) (livenessOrder ((bs.map ViewBlock.bare).map (·.label)) cfg.rpo)
      (fun l n => ∃ b ∈ bs, b.label = l ∧ LiveInto bs n b) := by
  intro l listed n there
  obtain ⟨bare, mem, rfl⟩ := List.mem_map.1 ((mem_livenessOrder (rpo_labels (bare_labels labels) exist built)).1 listed)
  obtain ⟨b, here, rfl⟩ := List.mem_map.1 mem
  refine ⟨b, here, rfl, ?_⟩
  change n ∈ blockSets blockGen bs b.label ∨ (∃ s ∈ cfg.succs b.label, (∃ b' ∈ bs, b'.label = s ∧ LiveInto bs n b') ∨ n ∈ phiEdgeUses bs b.label s) ∧
    n ∉ blockSets blockKill bs b.label at there
  rw [blockSets_label labels here, blockSets_label labels here] at there
  rcases there with gen | ⟨⟨s, next, flows⟩, untouched⟩
  · have found := (Finset.mem_filter.1 gen).2
    rw [blockEvents, append_assoc, find?_append] at found
    have skipped := @find_tagged (b.phis.map (·.dst)) .def_ n
    rw [List.map_map] at skipped
    by_cases phis : n ∈ b.phis.map (·.dst)
    · rw [if_pos phis] at skipped
      rw [show b.phis.map (fun ph => (ph.dst, Event.def_)) = b.phis.map ((·, Event.def_) ∘ (·.dst)) from rfl, skipped, some_or] at found
      cases found
    · rw [if_neg phis] at skipped
      rw [show b.phis.map (fun ph => (ph.dst, Event.def_)) = b.phis.map ((·, Event.def_) ∘ (·.dst)) from rfl, skipped, none_or] at found
      exact ⟨phis, .first here (Nat.zero_le _) (drop_zero ..) found⟩
  · rw [(funcCfg_spec built).2.1] at next
    have jumps := blockSuccs_view labels next here rfl
    have kill : ∀ e ∈ blockEvents b, e ≠ (n, .def_) := by
      rintro e event rfl
      exact untouched (List.mem_toFinset.2 (List.mem_map.2 ⟨_, mem_filter.2 ⟨event, by simp⟩, rfl⟩))
    have ends : LiveAt bs n b b.insts.length := by
      rcases flows with ⟨b', there, rfl, phis, live⟩ | use
      · exact .enters here there jumps phis live
      · obtain ⟨s', mem', phi⟩ := mem_flatMap.1 (List.mem_toFinset.1 use)
        obtain ⟨there, named⟩ := mem_filter.1 mem'
        obtain ⟨ph, inside, read⟩ := mem_flatMap.1 phi
        rw [decide_eq_true_iff] at named
        exact .edge here there (named ▸ jumps) inside (mem_phiReads.1 read)
    refine ⟨fun phi => ?_, ends.through here (Nat.zero_le _) (drop_zero ..) fun i inside def_ => ?_⟩
    · obtain ⟨ph, phi, named⟩ := List.mem_map.1 phi
      refine kill (n, .def_) ?_ rfl
      rw [blockEvents, append_assoc]
      exact mem_append_left _ (List.mem_map.2 ⟨ph, phi, by rw [named]⟩)
    · refine kill (n, .def_) ?_ rfl
      rw [blockEvents, append_assoc]
      refine mem_append_right _ (mem_append_left _ (mem_flatMap.2 ⟨i, inside, ?_⟩))
      exact mem_append_right _ (List.mem_map.2 ⟨n, def_, rfl⟩)

theorem tempLiveness_ends (some_ : bs ≠ []) (labels : (bs.map (·.label)).Nodup) (exist : labelsExist (bs.map ViewBlock.bare) = true) :
    ∃ fuel live, (∀ more, fuel ≤ more → tempLiveness more bs = some live) ∧ ∀ b ∈ bs, ∀ n, n ∈ live.into b.label ↔ LiveInto bs n b := by
  obtain ⟨cfg, built⟩ := funcCfg_ends (by simpa using some_) exist
  obtain ⟨fuel, live, done, -, least⟩ := liveness_ends (bare_labels labels) exist built (blockSets blockGen bs) (blockSets blockKill bs) (phiEdgeUses bs)
  have found : ∀ more, fuel ≤ more → tempLiveness more bs = some live := by
    intro more le
    have done := done more le
    rw [List.map_map] at done
    rw [tempLiveness, built]
    exact done
  refine ⟨fuel, live, found, fun b here n => ⟨fun there => ?_, fun there => ?_⟩⟩
  · obtain ⟨b', here', named, into⟩ := least _ (liveInto_follows labels exist built) b.label n there
    have once := (find_once labels).2 ⟨here', named⟩
    rw [(find_once labels).2 ⟨here, rfl⟩] at once
    cases once
    exact into
  · obtain ⟨phis, live_⟩ := there
    obtain ⟨cfg', built', out, into⟩ := tempLiveness_solves (found fuel le_rfl)
    rw [into b here]
    have before := live_.before labels (found fuel le_rfl)
    rw [drop_zero, out] at before
    exact liveIn_of_before labels rfl rfl here before phis

end

/-- Liveness ends with the least solution of its equations, whatever is read and written; for
temporaries that is what some way from a block's start reads before it defines. -/
theorem liveness_exact :
    (∀ (bs : List Block) (gen kill : LiveSets) (edgeUses : Name → Name → Finset Name), bs ≠ [] → (bs.map (·.label)).Nodup → labelsExist bs = true →
      ∃ cfg fuel live, funcCfg bs = some cfg ∧
        (∀ more, fuel ≤ more → liveness more (bs.map (·.label)) cfg.rpo ⟨cfg.succs, cfg.preds, gen, kill, edgeUses⟩ = some live) ∧
          Solves bs gen kill edgeUses live.into live.out ∧
            ∀ into out, Solves bs gen kill edgeUses into out → ∀ b ∈ bs, live.into b.label ⊆ into b.label ∧ live.out b.label ⊆ out b.label) ∧
      ∀ bs : List ViewBlock, bs ≠ [] → (bs.map (·.label)).Nodup → labelsExist (bs.map ViewBlock.bare) = true →
        ∃ fuel live, (∀ more, fuel ≤ more → tempLiveness more bs = some live) ∧ ∀ b ∈ bs, ∀ n, n ∈ live.into b.label ↔ LiveInto bs n b := by
  refine ⟨fun bs gen kill edgeUses some_ labels exist => ?_, fun bs some_ labels exist => tempLiveness_ends some_ labels exist⟩
  obtain ⟨cfg, built⟩ := funcCfg_ends some_ exist
  obtain ⟨fuel, live, done, solves, least⟩ := liveness_ends labels exist built gen kill edgeUses
  refine ⟨cfg, fuel, live, built, done, solves, fun into out solution b here => ?_⟩
  have below := least _ (solution.follows labels exist built)
  refine ⟨fun n there => below b.label n there, fun n there => ?_⟩
  obtain ⟨s, next, flows⟩ := ((solves b here).1 n).1 there
  exact ((solution b here).1 n).2 ⟨s, next, flows.imp (below s n) id⟩

/-- A block that goes round to itself, with a phi that reads on its own edge. -/
def around : ViewBlock := ⟨"b", [⟨"u", .l, [("a", .tmp "v"), ("b", .tmp "w")]⟩], [], .goto (.label "b")⟩

def aroundBlocks : List ViewBlock := [⟨"a", [], [], .goto (.label "b")⟩, around]

theorem liveness_around : (∃ cfg fuel live, funcCfg (aroundBlocks.map ViewBlock.bare) = some cfg ∧
    liveness fuel ((aroundBlocks.map ViewBlock.bare).map (·.label)) cfg.rpo ⟨cfg.succs, cfg.preds, fun _ => ∅, fun _ => ∅, fun _ _ => {"x"}⟩ = some live) ∧
      ∃ fuel live, tempLiveness fuel aroundBlocks = some live ∧ "w" ∈ live.into "a" := by
  obtain ⟨any, temps⟩ := liveness_exact
  obtain ⟨cfg, fuel, live, built, done, -⟩ := any (aroundBlocks.map ViewBlock.bare) (fun _ => ∅) (fun _ => ∅) (fun _ _ => {"x"})
    (by decide) (by decide) (by decide)
  obtain ⟨fuel', live', done', into⟩ := temps aroundBlocks (by decide) (by decide) (by decide)
  refine ⟨⟨cfg, fuel, live, built, done fuel le_rfl⟩, fuel', live', done' fuel' le_rfl, ?_⟩
  have here : ⟨"a", [], [], .goto (.label "b")⟩ ∈ aroundBlocks := mem_cons_self
  have there : around ∈ aroundBlocks := mem_cons_of_mem _ mem_cons_self
  have jumps : "b" ∈ jumpSuccs (.goto (.label "b")) := by decide +kernel
  refine (into _ here "w").2 ⟨not_mem_nil, .enters here there jumps (by decide) ?_⟩
  exact .edge there there jumps mem_cons_self (mem_cons_of_mem _ mem_cons_self)

end Nanofil.Framing
