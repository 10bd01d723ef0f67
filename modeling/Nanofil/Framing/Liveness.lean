import Nanofil.Idoms
import Nanofil.Lib.Observations
import Mathlib.Data.Finset.Sort
import Mathlib.Data.Finset.Union
import Mathlib.Algebra.Order.BigOperators.Group.Finset
import Nanofil.Lib.Results

/-! `cfg.pl`: backward liveness of the temporaries of a function's blocks, as the
emitter reads them. What the worklist leaves solves the equations, so whatever
is read on a way that does not define it first is in the sets. -/
namespace Nanofil.Framing
open Results List Observations

/-- An instruction of the liveness view; `uses/2` adds what a fused access reads besides. -/
inductive ViewInst
  | plain (i : Inst)
  | uses (i : ViewInst) (extra : List Value)
deriving Repr

def ViewInst.bare : ViewInst → Inst
  | .plain i => i
  | .uses i _ => i.bare

def ViewInst.reads : ViewInst → List Name
  | .plain i => instUses i
  | .uses i extra => i.reads ++ temps extra

def ViewInst.defs (i : ViewInst) : List Name := instDefs i.bare

structure ViewBlock where
  label : Name
  phis : List Phi
  insts : List ViewInst
  jump : Jump
deriving Repr

def ViewBlock.bare (b : ViewBlock) : Block := ⟨b.label, b.phis, b.insts.map ViewInst.bare, b.jump⟩

/-! ### Reads and writes of a block -/

inductive Event
  | use | def_
deriving DecidableEq, Repr

def instEvents (i : ViewInst) : List (Name × Event) := i.reads.map (·, .use) ++ i.defs.map (·, .def_)

/-- A block's events in their order, the phis' definitions first. -/
def blockEvents (b : ViewBlock) : List (Name × Event) :=
  b.phis.map (fun ph => (ph.dst, .def_)) ++ b.insts.flatMap instEvents ++ (jumpUses b.jump).map (·, .use)

/-- The names whose first event is a read. -/
def blockGen (b : ViewBlock) : Finset Name :=
  ((blockEvents b).map (·.1)).toFinset.filter (fun n => (blockEvents b).find? (·.1 = n) = some (n, .use))

def blockKill (b : ViewBlock) : Finset Name :=
  (((blockEvents b).filter (·.2 = .def_)).map (·.1)).toFinset

def phiReads (p : Name) (ph : Phi) : List Name := temps ((ph.pairs.filter (·.1 = p)).map (·.2))

/-- What the phis of `s` read on the edge from `p`. -/
def phiEdgeUses (bs : List ViewBlock) (p s : Name) : Finset Name :=
  ((bs.filter (·.label = s)).flatMap (fun b => b.phis.flatMap (phiReads p))).toFinset

/-! ### The equations -/

abbrev LiveSets := Name → Finset Name

structure Flows where
  succs : Name → List Name
  preds : Name → List Name
  gen : LiveSets
  kill : LiveSets
  edgeUses : Name → Name → Finset Name

def liveOut (f : Flows) (live : LiveSets) (l : Name) : Finset Name :=
  (f.succs l).foldl (fun out s => out ∪ live s ∪ f.edgeUses l s) ∅

def liveIn (f : Flows) (live : LiveSets) (l : Name) : Finset Name :=
  f.gen l ∪ (liveOut f live l \ f.kill l)

/-- Positions in the order of the labels, each once and the first least. -/
def ordUnion (xs ys : List Nat) : List Nat := (xs ++ ys).dedup.insertionSort (· ≤ ·)

def livenessWorklist (f : Flows) (order : List Name) : Nat → List Nat → LiveSets → Option LiveSets
  | _, [], live => some live
  | 0, _ :: _, _ => none
  | fuel + 1, i :: pending, live =>
    let l := order.getD i ""
    let new := liveIn f live l
    if live l = new then livenessWorklist f order fuel pending live
    else livenessWorklist f order fuel
      (ordUnion pending (((f.preds l).filter (· ∈ order)).map order.idxOf))
      (Function.update live l new)

structure Liveness where
  into : LiveSets
  out : LiveSets

/-- `liveness/5`, its blocks in postorder and then those that are not reached. -/
def liveness (fuel : Nat) (labels rpo : List Name) (f : Flows) : Option Liveness := do
  let order := rpo.reverse ++ (sortNames labels).filter (· ∉ rpo)
  let live ← livenessWorklist f order fuel (List.range order.length) (fun _ => ∅)
  return ⟨live, liveOut f live⟩

def blockSets (sets : ViewBlock → Finset Name) (bs : List ViewBlock) (l : Name) : Finset Name :=
  ((bs.find? (·.label = l)).map sets).getD ∅

def tempFlows (bs : List ViewBlock) (cfg : Cfg) : Flows :=
  ⟨cfg.succs, cfg.preds, blockSets blockGen bs, blockSets blockKill bs, phiEdgeUses bs⟩

def tempLiveness (fuel : Nat) (bs : List ViewBlock) : Option Liveness := do
  let cfg ← funcCfg (bs.map ViewBlock.bare)
  liveness fuel (bs.map (·.label)) cfg.rpo (tempFlows bs cfg)

/-! ### What the worklist leaves -/

variable {i : Nat} {f : Flows} {l : Name} {live' : LiveSets}

theorem mem_ordUnion {xs ys : List Nat} : i ∈ ordUnion xs ys ↔ i ∈ xs ∨ i ∈ ys := by
  rw [ordUnion, mem_insertionSort, mem_dedup, mem_append]

theorem mem_foldl_out {live : LiveSets} {n : Name} {ss : List Name} {out : Finset Name} :
    n ∈ ss.foldl (fun out s => out ∪ live s ∪ f.edgeUses l s) out ↔
      n ∈ out ∨ ∃ s ∈ ss, n ∈ live s ∨ n ∈ f.edgeUses l s := by
  induction ss generalizing out with
  | nil => simp
  | cons s ss ih =>
    rw [foldl_cons, ih]
    simp only [Finset.mem_union, exists_mem_cons_iff, or_assoc]

theorem mem_liveOut {live : LiveSets} {n : Name} : n ∈ liveOut f live l ↔ ∃ s ∈ f.succs l, n ∈ live s ∨ n ∈ f.edgeUses l s := by
  rw [liveOut, mem_foldl_out]
  simp

theorem liveOut_update {live : LiveSets} {l' : Name} {new : Finset Name} (apart : l ∉ f.succs l') :
    liveOut f (Function.update live l new) l' = liveOut f live l' := by
  ext n
  rw [mem_liveOut, mem_liveOut]
  refine exists_congr fun s => and_congr_right fun next => ?_
  rw [Function.update_of_ne]
  rintro rfl
  exact apart next

/-- Every label whose place is not pending solves its equation. -/
def Solved (f : Flows) (order : List Name) (pending : List Nat) (live : LiveSets) : Prop :=
  ∀ l ∈ order, order.idxOf l ∉ pending → live l = liveIn f live l

theorem getD_idxOf {order : List Name} (here : l ∈ order) : order.getD (order.idxOf l) "" = l := by
  rw [getD_eq_getElem _ _ (idxOf_lt_length_iff.2 here), getElem_idxOf]

theorem Solved.keep {order : List Name} {pending : List Nat} {live : LiveSets}
    (solved : Solved f order (i :: pending) live) (same : live (order.getD i "") = liveIn f live (order.getD i "")) :
    Solved f order pending live := by
  intro l here rested
  by_cases place : order.idxOf l = i
  · rw [← place, getD_idxOf here] at same
    exact same
  · exact solved l here (fun there => (mem_cons.1 there).elim place rested)

theorem getD_mem {order : List Name} (inside : i < order.length) : order.getD i "" ∈ order := by
  rw [getD_eq_getElem _ _ inside]
  exact getElem_mem inside

theorem requeued_inside {order : List Name} {pending : List Nat} (inside : ∀ i ∈ pending, i < order.length) (preds : List Name) :
    ∀ i ∈ ordUnion pending ((preds.filter (· ∈ order)).map order.idxOf), i < order.length := by
  intro i there
  rcases mem_ordUnion.1 there with there | there
  · exact inside i there
  · obtain ⟨l, kept, rfl⟩ := mem_map.1 there
    exact idxOf_lt_length_of_mem (by simpa using (mem_filter.1 kept).2)

/-- A set that grows makes pending whatever reads it. -/
theorem Solved.grow {order : List Name} {pending : List Nat} {live : LiveSets}
    (back : ∀ a b, b ∈ f.succs a → a ∈ f.preds b) (solved : Solved f order (i :: pending) live) :
    Solved f order (ordUnion pending (((f.preds (order.getD i "")).filter (· ∈ order)).map order.idxOf))
      (Function.update live (order.getD i "") (liveIn f live (order.getD i ""))) := by
  intro l here rested
  rw [mem_ordUnion, not_or] at rested
  have apart : order.getD i "" ∉ f.succs l := by
    intro next
    exact rested.2 (mem_map.2 ⟨l, mem_filter.2 ⟨back _ _ next, by simpa using here⟩, rfl⟩)
  have kept : liveIn f (Function.update live (order.getD i "") (liveIn f live (order.getD i ""))) l =
      liveIn f live l := by
    rw [liveIn, liveOut_update apart, ← liveIn]
  rw [kept]
  by_cases same : l = order.getD i ""
  · rw [same, Function.update_self]
  · rw [Function.update_of_ne same]
    refine solved l here (fun there => (mem_cons.1 there).elim ?_ rested.1)
    rintro rfl
    exact same (getD_idxOf here).symm

theorem livenessWorklist_solves {order : List Name} (back : ∀ a b, b ∈ f.succs a → a ∈ f.preds b)
    {fuel : Nat} {pending : List Nat} {live : LiveSets} (solved : Solved f order pending live)
    (done : livenessWorklist f order fuel pending live = some live') : ∀ l ∈ order, live' l = liveIn f live' l := by
  induction fuel generalizing pending live with
  | zero =>
    cases pending with
    | nil =>
      cases done
      exact fun l here => solved l here not_mem_nil
    | cons i pending => cases done
  | succ fuel ih =>
    cases pending with
    | nil =>
      cases done
      exact fun l here => solved l here not_mem_nil
    | cons i pending =>
      rw [livenessWorklist] at done
      split_ifs at done with same
      · exact ih (solved.keep same) done
      · exact ih (solved.grow back) done

/-- The live sets of a function solve the equations at each of its labels. -/
theorem tempLiveness_solves {fuel : Nat} {bs : List ViewBlock} {live : Liveness}
    (done : tempLiveness fuel bs = some live) :
    ∃ cfg, funcCfg (bs.map ViewBlock.bare) = some cfg ∧ live.out = liveOut (tempFlows bs cfg) live.into ∧
      ∀ b ∈ bs, live.into b.label = liveIn (tempFlows bs cfg) live.into b.label := by
  rw [tempLiveness, bind_found] at done
  obtain ⟨cfg, built, done⟩ := done
  simp only [liveness, bind_found, pure_found] at done
  obtain ⟨into, solved, rfl⟩ := done
  obtain ⟨-, succs, preds, -, -⟩ := funcCfg_spec built
  refine ⟨cfg, built, rfl, fun b here => ?_⟩
  have back : ∀ a b, b ∈ (tempFlows bs cfg).succs a → a ∈ (tempFlows bs cfg).preds b := by
    intro a b next
    rw [tempFlows, preds]
    rw [tempFlows, succs] at next
    exact mem_blockPreds next
  refine livenessWorklist_solves back ?_ solved b.label ?_
  · intro l here rested
    exact absurd (mem_range.2 (idxOf_lt_length_iff.2 here)) rested
  · rw [mem_append, mem_reverse, mem_filter]
    by_cases reached : b.label ∈ cfg.rpo
    · exact .inl reached
    · refine .inr ⟨?_, by simpa using reached⟩
      rw [sortNames, mem_insertionSort]
      exact mem_map_of_mem here

/-! ### What is live at a point of a block -/

/-- The names live before the instructions, from those live after them. -/
def liveBefore (is : List ViewInst) (last : Finset Name) : Finset Name :=
  is.foldr (fun i after => (after \ i.defs.toFinset) ∪ i.reads.toFinset) last

def ViewBlock.last (b : ViewBlock) (out : Finset Name) : Finset Name := out ∪ (jumpUses b.jump).toFinset

/-- A name is read from a point on, on a way that does not define it first. -/
inductive LiveAt (bs : List ViewBlock) (n : Name) : ViewBlock → Nat → Prop
  | reads {b : ViewBlock} {k : Nat} {i : ViewInst} : b ∈ bs → b.insts[k]? = some i → n ∈ i.reads → LiveAt bs n b k
  | passes {b : ViewBlock} {k : Nat} {i : ViewInst} : b ∈ bs → b.insts[k]? = some i → n ∉ i.defs →
      LiveAt bs n b (k + 1) → LiveAt bs n b k
  | jumps {b : ViewBlock} : b ∈ bs → n ∈ jumpUses b.jump → LiveAt bs n b b.insts.length
  | edge {b s : ViewBlock} {ph : Phi} : b ∈ bs → s ∈ bs → s.label ∈ jumpSuccs b.jump → ph ∈ s.phis →
      (b.label, .tmp n) ∈ ph.pairs → LiveAt bs n b b.insts.length
  | enters {b s : ViewBlock} : b ∈ bs → s ∈ bs → s.label ∈ jumpSuccs b.jump → n ∉ s.phis.map (·.dst) →
      LiveAt bs n s 0 → LiveAt bs n b b.insts.length

theorem mem_phiReads {p n : Name} {ph : Phi} : n ∈ phiReads p ph ↔ (p, .tmp n) ∈ ph.pairs := by
  rw [phiReads, mem_temps, mem_map]
  constructor
  · rintro ⟨pair, there, same⟩
    obtain ⟨there, from_⟩ := mem_filter.1 there
    rw [decide_eq_true_iff] at from_
    rwa [← from_, ← same]
  · exact fun there => ⟨_, mem_filter.2 ⟨there, by simp⟩, rfl⟩

theorem mem_phiEdgeUses {bs : List ViewBlock} {s : ViewBlock} {p n : Name} {ph : Phi} (here : s ∈ bs)
    (phi : ph ∈ s.phis) (pair : (p, .tmp n) ∈ ph.pairs) : n ∈ phiEdgeUses bs p s.label := by
  rw [phiEdgeUses, mem_toFinset, mem_flatMap]
  refine ⟨s, mem_filter.2 ⟨here, by simp⟩, mem_flatMap.2 ⟨ph, phi, mem_phiReads.2 pair⟩⟩

variable {b : ViewBlock}

theorem liveBefore_suffix {k : Nat} {i : ViewInst} (at_ : b.insts[k]? = some i) (last : Finset Name) :
    liveBefore (b.insts.drop k) last =
      (liveBefore (b.insts.drop (k + 1)) last \ i.defs.toFinset) ∪ i.reads.toFinset := by
  obtain ⟨lt, same⟩ := List.getElem?_eq_some_iff.1 at_
  rw [drop_eq_getElem_cons lt, same]
  rfl

theorem find_tagged {xs : List Name} {e : Event} {n : Name} :
    (xs.map (·, e)).find? (·.1 = n) = if n ∈ xs then some (n, e) else none := by
  induction xs with
  | nil => rfl
  | cons x xs ih =>
    rw [map_cons]
    by_cases here : x = n
    · subst here
      rw [find?_cons_of_pos (by simp), if_pos mem_cons_self]
    · rw [find?_cons_of_neg (by simpa using here), ih]
      simp [Ne.symm here]

/-- A name live before the instructions is read first, or goes through them. -/
theorem find_events {is : List ViewInst} {jump : Jump} {out : Finset Name} {n : Name}
    (live : n ∈ liveBefore is (out ∪ (jumpUses jump).toFinset)) :
    (is.flatMap instEvents ++ (jumpUses jump).map (·, Event.use)).find? (·.1 = n) = some (n, .use) ∨
      n ∈ out ∧ (n, Event.def_) ∉ is.flatMap instEvents := by
  induction is with
  | nil =>
    rw [liveBefore, foldr_nil, Finset.mem_union, mem_toFinset] at live
    rcases live with out | use
    · exact .inr ⟨out, by simp⟩
    · left
      rw [flatMap_nil, nil_append, find_tagged, if_pos use]
  | cons i is ih =>
    rw [liveBefore, foldr_cons, Finset.mem_union, mem_toFinset, Finset.mem_sdiff, mem_toFinset] at live
    rw [flatMap_cons, append_assoc, instEvents, append_assoc, find?_append, find_tagged,
      find?_append, find_tagged]
    by_cases use : n ∈ i.reads
    · rw [if_pos use]
      exact .inl rfl
    · obtain ⟨after, through⟩ := live.resolve_right use
      rw [if_neg use, if_neg through, Option.none_or, Option.none_or]
      refine (ih after).imp id fun ⟨out, untouched⟩ => ⟨out, ?_⟩
      simp only [mem_append, mem_map, Prod.mk.injEq, reduceCtorEq, and_false, and_true, exists_const,
        exists_eq_right, false_or, not_or]
      exact ⟨through, untouched⟩

variable {bs : List ViewBlock} {n : Name}

theorem blockSets_label {sets : ViewBlock → Finset Name} (labels : (bs.map (·.label)).Nodup)
    (here : b ∈ bs) : blockSets sets bs b.label = sets b := by
  rw [blockSets, (find_once labels).2 ⟨here, rfl⟩]
  rfl

theorem bare_labels (labels : (bs.map (·.label)).Nodup) : ((bs.map ViewBlock.bare).map (·.label)).Nodup := by
  rwa [map_map]

theorem blockSuccs_bare (labels : (bs.map (·.label)).Nodup) (here : b ∈ bs) :
    blockSuccs (bs.map ViewBlock.bare) b.label = jumpSuccs b.jump := by
  have found := find_label (bare_labels labels) (mem_map_of_mem (f := ViewBlock.bare) here)
  change (bs.map ViewBlock.bare).find? (fun b' => b'.label = b.label) = some b.bare at found
  rw [blockSuccs, found]
  rfl

/-- What is live before a block's first instruction and no phi defines is live into the block. -/
theorem liveIn_of_before {live : LiveSets} (labels : (bs.map (·.label)).Nodup)
    (gen : f.gen = blockSets blockGen bs) (kill : f.kill = blockSets blockKill bs) (here : b ∈ bs)
    (before : n ∈ liveBefore b.insts (b.last (liveOut f live b.label))) (phis : n ∉ b.phis.map (·.dst)) :
    n ∈ liveIn f live b.label := by
  rw [liveIn, gen, kill, blockSets_label labels here, blockSets_label labels here, Finset.mem_union, Finset.mem_sdiff]
  have skipped : (b.phis.map (fun ph => (ph.dst, Event.def_))).find? (·.1 = n) = none := by
    have apart := @find_tagged (b.phis.map (·.dst)) .def_ n
    rwa [map_map, if_neg phis] at apart
  rcases find_events before with use | ⟨out, untouched⟩
  · left
    have first : (blockEvents b).find? (·.1 = n) = some (n, .use) := by
      rw [blockEvents, append_assoc, find?_append, skipped, Option.none_or, use]
    rw [blockGen, Finset.mem_filter, mem_toFinset]
    exact ⟨mem_map_of_mem (mem_of_find?_eq_some first), first⟩
  · refine .inr ⟨out, ?_⟩
    rw [blockKill, mem_toFinset, mem_map]
    rintro ⟨⟨n', e⟩, there, rfl⟩
    obtain ⟨there, def_⟩ := mem_filter.1 there
    rw [decide_eq_true_iff] at def_
    dsimp only at def_
    subst def_
    simp only [blockEvents, mem_append, mem_map, Prod.mk.injEq, reduceCtorEq, and_false, exists_const,
      or_false, and_true] at there
    rcases there with phi | inst
    · exact phis (mem_map.2 phi)
    · exact untouched inst

/-- Whatever is live at a point is in the sets that the code finds there. -/
theorem LiveAt.before {fuel : Nat} {live : Liveness} (labels : (bs.map (·.label)).Nodup)
    (done : tempLiveness fuel bs = some live) {k : Nat} (at_ : LiveAt bs n b k) :
    n ∈ liveBefore (b.insts.drop k) (b.last (live.out b.label)) := by
  obtain ⟨cfg, built, out, into⟩ := tempLiveness_solves done
  obtain ⟨-, succs, -, -, -⟩ := funcCfg_spec built
  have ends : ∀ b : ViewBlock, liveBefore (b.insts.drop b.insts.length) (b.last (live.out b.label)) =
      b.last (live.out b.label) := fun b => by rw [drop_length]; rfl
  have next : ∀ {b s : ViewBlock}, b ∈ bs → s.label ∈ jumpSuccs b.jump →
      (n ∈ live.into s.label ∨ n ∈ phiEdgeUses bs b.label s.label) → n ∈ b.last (live.out b.label) := by
    intro b s here jumps there
    rw [ViewBlock.last, Finset.mem_union, out, mem_liveOut]
    refine .inl ⟨s.label, ?_, there⟩
    have same := blockSuccs_bare labels here
    rw [← succs] at same
    change s.label ∈ cfg.succs b.label
    rw [same]
    exact jumps
  induction at_ with
  | reads here at_ use =>
    rw [liveBefore_suffix at_, Finset.mem_union, mem_toFinset]
    exact .inr use
  | passes here at_ through later ih =>
    rw [liveBefore_suffix at_, Finset.mem_union, Finset.mem_sdiff, mem_toFinset]
    exact .inl ⟨ih, through⟩
  | jumps here use =>
    rw [ends, ViewBlock.last, Finset.mem_union, mem_toFinset]
    exact .inr use
  | edge here there jumps phi pair =>
    rw [ends]
    exact next here jumps (.inr (mem_phiEdgeUses there phi pair))
  | enters here there jumps phis later ih =>
    rw [ends]
    refine next here jumps (.inl ?_)
    rw [into _ there]
    rw [drop_zero, out] at ih
    exact liveIn_of_before labels rfl rfl there ih phis

/-! ### The worklist ends -/

theorem liveOut_mono {live : LiveSets} (grown : ∀ l, live l ⊆ live' l) (l : Name) : liveOut f live l ⊆ liveOut f live' l := by
  intro n there
  obtain ⟨s, next, flows⟩ := mem_liveOut.1 there
  exact mem_liveOut.2 ⟨s, next, flows.imp (fun into => grown s into) id⟩

theorem liveIn_mono {live : LiveSets} (grown : ∀ l, live l ⊆ live' l) (l : Name) : liveIn f live l ⊆ liveIn f live' l :=
  Finset.union_subset_union_right (Finset.sdiff_subset_sdiff (liveOut_mono grown l) le_rfl)

/-- Sets on their way up, within a bound. -/
structure Rising (f : Flows) (names : Finset Name) (live : LiveSets) : Prop where
  rises : ∀ l, live l ⊆ liveIn f live l
  within : ∀ l, live l ⊆ names

theorem Rising.grow {names : Finset Name} {live : LiveSets} (gens : f.gen l ⊆ names)
    (edges : ∀ s ∈ f.succs l, f.edgeUses l s ⊆ names) (rising : Rising f names live) :
    Rising f names (Function.update live l (liveIn f live l)) := by
  have grown : ∀ l', live l' ⊆ Function.update live l (liveIn f live l) l' := by
    intro l'
    by_cases same : l' = l
    · subst same
      rw [Function.update_self]
      exact rising.rises l'
    · rw [Function.update_of_ne same]
  refine ⟨fun l' => ?_, fun l' => ?_⟩
  · refine subset_trans ?_ (liveIn_mono grown l')
    by_cases same : l' = l
    · rw [same, Function.update_self]
    · rw [Function.update_of_ne same]
      exact rising.rises l'
  · by_cases same : l' = l
    · rw [same, Function.update_self]
      refine Finset.union_subset gens (Finset.sdiff_subset.trans fun n there => ?_)
      obtain ⟨s, next, flows⟩ := mem_liveOut.1 there
      exact flows.elim (fun into => rising.within s into) (fun use => edges s next use)
    · rw [Function.update_of_ne same]
      exact rising.within l'

/-- What the sets of the labels may still gain. -/
def room (names : Finset Name) (order : List Name) (live : LiveSets) : Nat :=
  ∑ l ∈ order.toFinset, (names \ live l).card

theorem room_shrinks {names : Finset Name} {order : List Name} {live : LiveSets}
    (here : l ∈ order.toFinset) (rising : Rising f names live)
    (within : liveIn f live l ⊆ names) (new : live l ≠ liveIn f live l) :
    room names order (Function.update live l (liveIn f live l)) < room names order live := by
  refine Finset.sum_lt_sum (fun l' _ => ?_) ⟨l, here, ?_⟩
  · by_cases same : l' = l
    · rw [same, Function.update_self]
      exact Finset.card_le_card (Finset.sdiff_subset_sdiff le_rfl (rising.rises l))
    · rw [Function.update_of_ne same]
  · rw [Function.update_self]
    obtain ⟨n, gained, lacked⟩ := Finset.exists_of_ssubset (lt_of_le_of_ne (rising.rises l) new)
    refine Finset.card_lt_card (Finset.ssubset_iff_of_subset (Finset.sdiff_subset_sdiff le_rfl (rising.rises l)) |>.2 ⟨n, ?_, ?_⟩)
    · exact Finset.mem_sdiff.2 ⟨within gained, lacked⟩
    · exact fun there => (Finset.mem_sdiff.1 there).2 gained

theorem livenessWorklist_total {names : Finset Name} {order : List Name} (gens : ∀ l ∈ order, f.gen l ⊆ names)
    (edges : ∀ l ∈ order, ∀ s ∈ f.succs l, f.edgeUses l s ⊆ names) {pending : List Nat} {live : LiveSets}
    (inside : ∀ i ∈ pending, i < order.length) (rising : Rising f names live) :
    ∃ fuel live', livenessWorklist f order fuel pending live = some live' := by
  induction left : room names order live using Nat.strong_induction_on generalizing pending live with
  | _ m ih =>
    induction pending with
    | nil => exact ⟨0, live, by rw [livenessWorklist]⟩
    | cons i pending rest =>
      have later := fun j there => inside j (mem_cons_of_mem i there)
      by_cases same : live (order.getD i "") = liveIn f live (order.getD i "")
      · obtain ⟨fuel, live', done⟩ := rest later
        exact ⟨fuel + 1, live', by rw [livenessWorklist, if_pos same]; exact done⟩
      · have here := getD_mem (inside i mem_cons_self)
        have grown := rising.grow (gens _ here) (edges _ here)
        have within : liveIn f live (order.getD i "") ⊆ names := by
          have := grown.within (order.getD i "")
          rwa [Function.update_self] at this
        obtain ⟨fuel, live', done⟩ := ih _ (left ▸ room_shrinks (mem_toFinset.2 here) rising within same)
          (requeued_inside later _) grown rfl
        exact ⟨fuel + 1, live', by rw [livenessWorklist, if_neg same]; exact done⟩

/-- What any block or edge reads. -/
def flowNames (f : Flows) (order : List Name) : Finset Name :=
  order.toFinset.biUnion fun l => f.gen l ∪ (f.succs l).toFinset.biUnion (f.edgeUses l)

theorem flowNames_gen {order : List Name} (here : l ∈ order) : f.gen l ⊆ flowNames f order := by
  intro n there
  exact Finset.mem_biUnion.2 ⟨l, mem_toFinset.2 here, Finset.mem_union_left _ there⟩

theorem flowNames_edge {order : List Name} {s : Name} (here : l ∈ order) (next : s ∈ f.succs l) :
    f.edgeUses l s ⊆ flowNames f order := by
  intro n there
  refine Finset.mem_biUnion.2 ⟨l, mem_toFinset.2 here, Finset.mem_union_right _ ?_⟩
  exact Finset.mem_biUnion.2 ⟨s, mem_toFinset.2 next, there⟩

/-- Liveness ends, whatever is read and written. -/
theorem livenessWorklist_ends (f : Flows) (order : List Name) :
    ∃ fuel live, livenessWorklist f order fuel (List.range order.length) (fun _ => ∅) = some live :=
  livenessWorklist_total (fun _ here => flowNames_gen here) (fun _ here _ next => flowNames_edge here next)
    (fun _ there => mem_range.1 there) ⟨fun _ => Finset.empty_subset _, fun _ => Finset.empty_subset _⟩

theorem tempLiveness_total {bs : List ViewBlock} (some_ : bs ≠ []) (exist : labelsExist (bs.map ViewBlock.bare) = true) :
    ∃ fuel live, tempLiveness fuel bs = some live := by
  obtain ⟨cfg, built⟩ := funcCfg_ends (by simpa using some_) exist
  obtain ⟨fuel, live, done⟩ := livenessWorklist_ends (tempFlows bs cfg) (cfg.rpo.reverse ++ (sortNames (bs.map (·.label))).filter (· ∉ cfg.rpo))
  refine ⟨fuel, ⟨live, liveOut (tempFlows bs cfg) live⟩, ?_⟩
  rw [tempLiveness, built]
  simp only [liveness, Option.bind_eq_bind, Option.bind_some, done, Option.pure_def]

end Nanofil.Framing
