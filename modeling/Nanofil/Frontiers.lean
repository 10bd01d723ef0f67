import Nanofil.Idoms
import Mathlib.Algebra.Order.BigOperators.Group.Finset

/-! `cfg.pl`: dominance frontiers and natural loops, each what its definition says of the
graph. A block without an immediate dominator, which is the entry, is in no frontier. -/
namespace Nanofil
open List Walks Relation

/-! ### Frontiers -/

abbrev Frontiers := Name → Option (List Name)

/-- `runner_frontiers/6`; the number bounds the labels climbed. -/
def runnerFrontiers (idom : Idom) (stop b : Name) : Nat → Name → Frontiers → Option Frontiers
  | 0, _, _ => none
  | n + 1, runner, df =>
    if runner = stop then some df
    else do
      let xs ← df runner
      let up ← idom runner
      runnerFrontiers idom stop b n up (Function.update df runner (some (b :: xs)))

/-- `join_frontiers/5`; the table has a key for each reachable label. -/
def joinFrontiers (cfg : Cfg) (idom : Idom) (df : Frontiers) (b : Name) : Option Frontiers :=
  match (cfg.preds b).filter (fun p => (df p).isSome), idom b with
  | p :: p' :: ps, some stop => (p :: p' :: ps).foldlM (fun df p => runnerFrontiers idom stop b (cfg.rpo.length + 1) p df) df
  | _, _ => some df

def cfgFrontiers (cfg : Cfg) (idom : Idom) : Option Frontiers := do
  let df ← cfg.rpo.foldlM (joinFrontiers cfg idom) (fun l => if l ∈ cfg.rpo then some [] else none)
  return fun l => (df l).map fun xs => sortNames xs.dedup

/-- A block that two reachable blocks jump to. -/
def Join (bs : List Block) (entry b : Name) : Prop :=
  ∃ p q, p ≠ q ∧ (Reachable (BlockEdge bs) entry p ∧ BlockEdge bs p b) ∧ Reachable (BlockEdge bs) entry q ∧ BlockEdge bs q b

/-- The definition: `a` dominates a reachable predecessor of `b` and not `b` itself but as `b`. -/
def InFrontier (bs : List Block) (entry a b : Name) : Prop :=
  (∃ p, Reachable (BlockEdge bs) entry p ∧ BlockEdge bs p b ∧ Dom bs entry a p) ∧ ¬ StrictDom (BlockEdge bs) entry a b

def Frontiers.Lists (df : Frontiers) (l b : Name) : Prop := ∃ xs, df l = some xs ∧ b ∈ xs

/-- One table has the reachable labels as another has, and lists what `P` says besides. -/
structure Adds (cfg : Cfg) (P : Name → Name → Prop) (df df' : Frontiers) : Prop where
  keys : ∀ l, (df' l).isSome ↔ l ∈ cfg.rpo
  lists : ∀ l b, df'.Lists l b ↔ df.Lists l b ∨ P l b

/-- Steps that each add something add all of it. -/
theorem Adds.all {α : Type} {cfg : Cfg} {step : Frontiers → α → Option Frontiers} {P : α → Name → Name → Prop} {xs : List α} :
    (∀ x ∈ xs, ∀ df : Frontiers, (∀ l, (df l).isSome ↔ l ∈ cfg.rpo) → ∃ df', step df x = some df' ∧ Adds cfg (P x) df df') →
      ∀ df : Frontiers, (∀ l, (df l).isSome ↔ l ∈ cfg.rpo) →
        ∃ df', xs.foldlM step df = some df' ∧ Adds cfg (fun l b => ∃ x ∈ xs, P x l b) df df' := by
  induction xs with
  | nil => exact fun _ df keys => ⟨df, rfl, keys, by simp⟩
  | cons x xs ih =>
    intro each df keys
    obtain ⟨df1, here, adds⟩ := each x mem_cons_self df keys
    obtain ⟨df2, rest, later⟩ := ih (fun y h => each y (mem_cons_of_mem _ h)) df1 adds.keys
    refine ⟨df2, by rw [foldlM_cons, here]; exact rest, later.keys, fun l b => ?_⟩
    rw [later.lists, adds.lists, or_assoc, exists_mem_cons_iff]

theorem lists_update {df : Frontiers} {runner b : Name} {xs : List Name} (old : df runner = some xs) (l x : Name) :
    Frontiers.Lists (Function.update df runner (some (b :: xs))) l x ↔ df.Lists l x ∨ l = runner ∧ x = b := by
  by_cases same : l = runner
  · subst same
    simp only [Frontiers.Lists, Function.update_self, old, Option.some.injEq, exists_eq_left', mem_cons, true_and]
    exact or_comm
  · simp only [Frontiers.Lists, Function.update_of_ne same, same, false_and, or_false]

theorem keys_update {cfg : Cfg} {df : Frontiers} {runner : Name} {xs : List Name} (keys : ∀ l, (df l).isSome ↔ l ∈ cfg.rpo)
    (mem : runner ∈ cfg.rpo) (l : Name) : (Function.update df runner (some xs) l).isSome ↔ l ∈ cfg.rpo := by
  by_cases same : l = runner
  · subst same
    simp [mem]
  · rw [Function.update_of_ne same, keys]

section
variable {bs : List Block} {cfg : Cfg} {parent : Idom} (tree : Tree bs cfg parent)
include tree

theorem Tree.num_le {a b : Name} (anc : Ancestor parent a b) : cfg.num a ≤ cfg.num b := by
  induction anc with
  | self => exact le_rfl
  | child _ up ih => exact ih.trans (tree.descends _ _ up).2.2.2.le

/-- The runner climbs to `stop`, and lists `b` at what it leaves. -/
theorem Tree.runner_ends {stop b : Name} {n : Nat} : ∀ {runner : Name} {df : Frontiers}, runner ∈ cfg.rpo → Ancestor parent stop runner →
    (∀ l, (df l).isSome ↔ l ∈ cfg.rpo) → cfg.num runner < n → ∃ df', runnerFrontiers parent stop b n runner df = some df' ∧
      Adds cfg (fun l x => x = b ∧ Ancestor parent l runner ∧ ¬ Ancestor parent l stop) df df' := by
  induction n with
  | zero => intro runner df _ _ _ fuel; omega
  | succ n ih =>
    intro runner df mem above keys fuel
    simp only [runnerFrontiers]
    split
    · rename_i same
      subst same
      exact ⟨df, rfl, keys, fun l x => by simp⟩
    · rename_i ne
      cases above with
      | self => exact absurd rfl ne
      | @child u _ above up =>
        obtain ⟨xs, old⟩ := Option.isSome_iff_exists.1 ((keys runner).2 mem)
        obtain ⟨_, _, memU, less⟩ := tree.descends _ _ up
        obtain ⟨df', done, adds⟩ := ih memU above (keys_update keys mem) (by omega)
        refine ⟨df', by rw [old, up]; exact done, adds.keys, fun l x => ?_⟩
        rw [adds.lists, lists_update old, or_assoc]
        refine or_congr_right ⟨?_, ?_⟩
        · rintro (⟨rfl, rfl⟩ | ⟨rfl, anc, over_⟩)
          · refine ⟨rfl, .self _, fun anc => ?_⟩
            have low := tree.num_le anc
            have high := tree.num_le above
            omega
          · exact ⟨rfl, anc.child up, over_⟩
        · rintro ⟨rfl, anc, over_⟩
          cases anc with
          | self => exact .inl ⟨rfl, rfl⟩
          | child anc up' =>
            rw [up] at up'
            cases up'
            exact .inr ⟨rfl, anc, over_⟩

/-- What is above the immediate dominator is what dominates strictly. -/
theorem Tree.above_stop {b stop l : Name} (up : parent b = some stop) : Ancestor parent l stop ↔ StrictDom (BlockEdge bs) cfg.entry l b := by
  have immediate := tree.immediate up
  rw [tree.ancestors l stop (tree.descends b stop up).2.2.1]
  refine ⟨fun dom => ?_, immediate.2 l⟩
  rcases dom with rfl | dom
  · exact immediate.1
  · exact dom.trans immediate.1

/-- A join's step lists it in the frontiers that have it. -/
theorem Tree.join_ends (labels : (bs.map (·.label)).Nodup) (preds : cfg.preds = blockPreds bs) {b : Name} (mem : b ∈ cfg.rpo) {df : Frontiers}
    (keys : ∀ l, (df l).isSome ↔ l ∈ cfg.rpo) : ∃ df', joinFrontiers cfg parent df b = some df' ∧
      Adds cfg (fun l x => x = b ∧ b ≠ cfg.entry ∧ Join bs cfg.entry b ∧ InFrontier bs cfg.entry l b) df df' := by
  have before : ∀ p, p ∈ (cfg.preds b).filter (fun p => (df p).isSome) ↔ Reachable (BlockEdge bs) cfg.entry p ∧ BlockEdge bs p b := by
    intro p
    rw [mem_filter, keys, tree.inside, preds, and_comm]
    exact and_congr_right fun _ => ⟨blockPreds_edge labels, mem_blockPreds⟩
  have once : ((cfg.preds b).filter (fun p => (df p).isSome)).Nodup := by
    refine List.Nodup.filter _ ?_
    rw [preds]
    exact (perm_insertionSort _ _).nodup_iff.2 (labels.sublist (filter_sublist.map _))
  unfold joinFrontiers
  split
  · rename_i p p' ps stop cut up
    rw [← cut]
    obtain ⟨_, ne, _, _⟩ := tree.descends b stop up
    obtain ⟨df', done, adds⟩ := Adds.all (P := fun p l x => x = b ∧ Ancestor parent l p ∧ ¬ Ancestor parent l stop) (fun p h df keys => by
        obtain ⟨reached, edge⟩ := (before p).1 h
        have memP := (tree.inside p).2 reached
        exact tree.runner_ends memP ((tree.ancestors stop p memP).2 ((tree.immediate up).1.back edge)) keys
          (Nat.lt_succ_of_lt (idxOf_lt_length_of_mem memP))) df keys
    have join : Join bs cfg.entry b := by
      have first := (before p).1 (by rw [cut]; simp)
      have second := (before p').1 (by rw [cut]; simp)
      rw [cut, nodup_cons, mem_cons, not_or] at once
      exact ⟨p, p', once.1.1, first, second⟩
    refine ⟨df', done, adds.keys, fun l x => ?_⟩
    rw [adds.lists]
    refine or_congr_right ⟨?_, ?_⟩
    · rintro ⟨p, h, rfl, anc, over_⟩
      obtain ⟨reached, edge⟩ := (before p).1 h
      exact ⟨rfl, ne, join, ⟨p, reached, edge, (tree.ancestors l p ((tree.inside p).2 reached)).1 anc⟩, fun dom => over_ ((tree.above_stop up).2 dom)⟩
    · rintro ⟨rfl, -, -, ⟨p, reached, edge, dom⟩, not⟩
      exact ⟨p, (before p).2 ⟨reached, edge⟩, rfl, (tree.ancestors l p ((tree.inside p).2 reached)).2 dom, fun anc => not ((tree.above_stop up).1 anc)⟩
  · rename_i few
    refine ⟨df, rfl, keys, fun l x => (or_iff_left ?_).symm⟩
    rintro ⟨-, ne, ⟨p, q, apart, first, second⟩, -⟩
    obtain ⟨stop, up⟩ := tree.parents b mem ne
    have memP := (before p).2 first
    have memQ := (before q).2 second
    match cut : (cfg.preds b).filter (fun p => (df p).isSome) with
    | [] => rw [cut] at memP; cases memP
    | [r] =>
      rw [cut, mem_singleton] at memP memQ
      exact apart (memP.trans memQ.symm)
    | r :: r' :: rs => exact few r r' rs stop cut up

/-- The frontiers are found, sorted and as defined. -/
theorem Tree.frontiers_end (labels : (bs.map (·.label)).Nodup) (preds : cfg.preds = blockPreds bs) : ∃ df, cfgFrontiers cfg parent = some df ∧
    ∀ a, a ∈ cfg.rpo → ∃ xs, df a = some xs ∧ ∀ b, b ∈ xs ↔ b ≠ cfg.entry ∧ b ∈ cfg.rpo ∧ Join bs cfg.entry b ∧ InFrontier bs cfg.entry a b := by
  obtain ⟨df, done, adds⟩ := Adds.all (fun b (mem : b ∈ cfg.rpo) df keys => tree.join_ends labels preds mem keys)
    (fun l => if l ∈ cfg.rpo then some [] else none) (fun l => by split <;> simp [*])
  refine ⟨_, by simp only [cfgFrontiers, done, Option.bind_eq_bind, Option.bind_some, Option.pure_def]; rfl, fun a mem => ?_⟩
  obtain ⟨xs, known⟩ := Option.isSome_iff_exists.1 ((adds.keys a).2 mem)
  refine ⟨sortNames xs.dedup, by simp only [known, Option.map_some], fun b => ?_⟩
  have lists := adds.lists a b
  simp only [Frontiers.Lists, known, Option.some.injEq, exists_eq_left', mem, if_true, not_mem_nil, false_or] at lists
  rw [mem_sortNames, mem_dedup, lists]
  constructor
  · rintro ⟨x, memX, rfl, ne, join, front⟩
    exact ⟨ne, memX, join, front⟩
  · rintro ⟨ne, memB, join, front⟩
    exact ⟨b, memB, rfl, ne, join, front⟩

end

/-! ### Natural loops -/

structure Loop where
  latches : List Name
  body : List Name
deriving Repr

/-- `loop_body/5`; the number bounds the labels taken up. -/
def loopBody (preds : Name → List Name) (iv : Intervals) : Nat → List Name → List Name → Option (List Name)
  | _, [], seen => some seen
  | 0, _ :: _, _ => none
  | n + 1, b :: pending, seen =>
    if b ∈ seen then loopBody preds iv n pending seen
    else if (iv b).isNone then loopBody preds iv n pending seen
    else loopBody preds iv n (preds b ++ pending) (b :: seen)

/-- The edges to a block that dominates where they start, the header first. -/
def backEdges (cfg : Cfg) (iv : Intervals) : List (Name × Name) :=
  cfg.rpo.flatMap fun latch => ((cfg.succs latch).filter (dominatesByInterval iv · latch)).map (·, latch)

/-- `natural_loop/4`. The header is marked before the walk; each block's predecessors are taken up once. -/
def naturalLoop (cfg : Cfg) (iv : Intervals) (h : Name) : Option Loop := do
  let latches := sortNames (((backEdges cfg iv).filter (·.1 = h)).map (·.2)).dedup
  let body ← loopBody cfg.preds iv (latches.length + ∑ l ∈ cfg.rpo.toFinset, (cfg.preds l).length) latches [h]
  return ⟨latches, sortNames body⟩

def naturalLoops (cfg : Cfg) (idom : Idom) : Option (Name → Option Loop) := do
  let iv ← domIntervals cfg idom
  let headers := sortNames ((backEdges cfg iv).map (·.1)).dedup
  headers.foldlM (fun loops h => do
    let loop ← naturalLoop cfg iv h
    return Function.update loops h (some loop)) (fun _ => none)

/-- A reachable block with an edge to a header that dominates it. -/
def Latch (bs : List Block) (entry h l : Name) : Prop :=
  Reachable (BlockEdge bs) entry l ∧ BlockEdge bs l h ∧ Dom bs entry h l

/-- Some way from the block to a latch does not pass the header. -/
def InLoop (bs : List Block) (entry h x : Name) : Prop :=
  Reachable (BlockEdge bs) entry x ∧ x ≠ h ∧ ∃ l, Latch bs entry h l ∧ ReflTransGen (fun a b => BlockEdge bs a b ∧ b ≠ h) x l

section
variable {preds : Name → List Name} {iv : Intervals} {rpo : List Name} (inside : ∀ l, (iv l).isSome ↔ l ∈ rpo)
include inside

theorem loopBody_ends {n : Nat} : ∀ {pending seen : List Name},
    pending.length + ∑ l ∈ rpo.toFinset \ seen.toFinset, (preds l).length ≤ n → ∃ r, loopBody preds iv n pending seen = some r := by
  induction n with
  | zero =>
    intro pending seen enough
    cases pending with
    | nil => exact ⟨_, rfl⟩
    | cons b pending => simp at enough
  | succ n ih =>
    intro pending seen enough
    cases pending with
    | nil => exact ⟨_, rfl⟩
    | cons b pending =>
      rw [length_cons] at enough
      simp only [loopBody]
      split
      · exact ih (by omega)
      · rename_i new
        split
        · exact ih (by omega)
        · rename_i known
          have here : b ∈ rpo.toFinset \ seen.toFinset := by
            rw [Bool.not_eq_true, Option.isNone_eq_false_iff, inside] at known
            simp [known, new]
          have rest : rpo.toFinset \ (b :: seen).toFinset = (rpo.toFinset \ seen.toFinset).erase b := by
            ext x
            simp only [toFinset_cons, Finset.mem_sdiff, Finset.mem_insert, Finset.mem_erase, not_or]
            tauto
          have cut := Finset.add_sum_erase _ (fun l => (preds l).length) here
          refine ih ?_
          rw [length_append, rest]
          omega

/-- What is taken up has the property, when it spreads to the predecessors that are reached. -/
theorem loopBody_sound {h : Name} {P : Name → Prop} (spreads : ∀ b, P b → ∀ p ∈ preds b, p ∈ rpo → p ≠ h → P p) {n : Nat} :
    ∀ {pending seen r : List Name}, h ∈ seen → (∀ x ∈ seen, x = h ∨ P x) → (∀ b ∈ pending, b ∈ rpo → b ≠ h → P b) →
      loopBody preds iv n pending seen = some r → ∀ x ∈ r, x = h ∨ P x := by
  induction n with
  | zero =>
    intro pending seen r _ old _ done
    cases pending with
    | nil => cases done; exact old
    | cons b pending => cases done
  | succ n ih =>
    intro pending seen r header old new done
    cases pending with
    | nil => cases done; exact old
    | cons b pending =>
      have later : ∀ x ∈ pending, x ∈ rpo → x ≠ h → P x := fun x m => new x (mem_cons_of_mem _ m)
      simp only [loopBody] at done
      split at done
      · exact ih header old later done
      · rename_i fresh
        split at done
        · exact ih header old later done
        · rename_i known
          rw [Bool.not_eq_true, Option.isNone_eq_false_iff, inside] at known
          have here := new b mem_cons_self known (fun same => fresh (same ▸ header))
          refine ih (mem_cons_of_mem _ header) (fun x m => ?_) (fun p m => ?_) done
          · rcases mem_cons.1 m with rfl | m
            · exact .inr here
            · exact old x m
          · rcases mem_append.1 m with m | m
            · exact spreads b here p m
            · exact later p m

/-- What is left has all that was to be taken up, and the reached predecessors of each of its blocks but the header. -/
theorem loopBody_closed {h : Name} {n : Nat} : ∀ {pending seen r : List Name},
    (∀ x ∈ seen, x ≠ h → ∀ p ∈ preds x, p ∈ rpo → p ∈ seen ∨ p ∈ pending) → loopBody preds iv n pending seen = some r →
      (∀ x ∈ seen, x ∈ r) ∧ (∀ b ∈ pending, b ∈ rpo → b ∈ r) ∧ ∀ x ∈ r, x ≠ h → ∀ p ∈ preds x, p ∈ rpo → p ∈ r := by
  induction n with
  | zero =>
    intro pending seen r old done
    cases pending with
    | nil =>
      cases done
      exact ⟨fun _ m => m, (fun _ m => by cases m), fun x m ne p pred mem => (old x m ne p pred mem).resolve_right not_mem_nil⟩
    | cons b pending => cases done
  | succ n ih =>
    intro pending seen r old done
    cases pending with
    | nil =>
      cases done
      exact ⟨fun _ m => m, (fun _ m => by cases m), fun x m ne p pred mem => (old x m ne p pred mem).resolve_right not_mem_nil⟩
    | cons b pending =>
      simp only [loopBody] at done
      split at done
      · rename_i already
        obtain ⟨kept, taken, closed⟩ := ih (fun x m ne p pred mem => by
          rcases old x m ne p pred mem with m | m
          · exact .inl m
          · rcases mem_cons.1 m with rfl | m
            · exact .inl already
            · exact .inr m) done
        refine ⟨kept, fun x m mem => ?_, closed⟩
        rcases mem_cons.1 m with rfl | m
        · exact kept x already
        · exact taken x m mem
      · split at done
        · rename_i unreached
          have out : b ∉ rpo := by
            rw [← inside]
            simpa using unreached
          obtain ⟨kept, taken, closed⟩ := ih (fun x m ne p pred mem => by
            refine (old x m ne p pred mem).imp_right fun m => ?_
            exact (mem_cons.1 m).resolve_left fun same => out (same ▸ mem)) done
          refine ⟨kept, fun x m mem => ?_, closed⟩
          rcases mem_cons.1 m with rfl | m
          · exact absurd mem out
          · exact taken x m mem
        · obtain ⟨kept, taken, closed⟩ := ih (fun x m ne p pred mem => by
            rcases mem_cons.1 m with rfl | m
            · exact .inr (mem_append_left _ pred)
            · rcases old x m ne p pred mem with m | m
              · exact .inl (mem_cons_of_mem _ m)
              · rcases mem_cons.1 m with rfl | m
                · exact .inl mem_cons_self
                · exact .inr (mem_append_right _ m)) done
          refine ⟨fun x m => kept x (mem_cons_of_mem _ m), fun x m mem => ?_, closed⟩
          rcases mem_cons.1 m with rfl | m
          · exact kept x mem_cons_self
          · exact taken x (mem_append_right _ m) mem

end

section
variable {bs : List Block} {cfg : Cfg} {parent : Idom} (tree : Tree bs cfg parent)
include tree

/-- Each header's loop is its latches, and the blocks that reach one of them and not the header first. -/
theorem Tree.loop_ends (labels : (bs.map (·.label)).Nodup) (built : funcCfg bs = some cfg) {iv : Intervals} (inside : ∀ l, (iv l).isSome ↔ l ∈ cfg.rpo)
    {h : Name} (edges : ∀ x, (h, x) ∈ backEdges cfg iv ↔ Latch bs cfg.entry h x) : ∃ loop, naturalLoop cfg iv h = some loop ∧
      (∀ x, x ∈ loop.latches ↔ Latch bs cfg.entry h x) ∧ ∀ x, x ∈ loop.body ↔ x = h ∨ InLoop bs cfg.entry h x := by
  obtain ⟨-, succs, preds, -, closed⟩ := funcCfg_spec built
  have latches : ∀ x, x ∈ sortNames (((backEdges cfg iv).filter (·.1 = h)).map (·.2)).dedup ↔ Latch bs cfg.entry h x := by
    intro x
    rw [mem_sortNames, mem_dedup, mem_map, ← edges]
    constructor
    · rintro ⟨e, mem, rfl⟩
      obtain ⟨mem, same⟩ := mem_filter.1 mem
      rw [decide_eq_true_eq] at same
      exact same ▸ mem
    · exact fun mem => ⟨(h, x), mem_filter.2 ⟨mem, by simp⟩, rfl⟩
  obtain ⟨body, done⟩ : ∃ r, loopBody cfg.preds iv
      ((sortNames (((backEdges cfg iv).filter (·.1 = h)).map (·.2)).dedup).length + ∑ l ∈ cfg.rpo.toFinset, (cfg.preds l).length)
      (sortNames (((backEdges cfg iv).filter (·.1 = h)).map (·.2)).dedup) [h] = some r := by
    refine loopBody_ends inside (Nat.add_le_add_left ?_ _)
    exact Finset.sum_le_sum_of_subset Finset.sdiff_subset
  obtain ⟨kept, taken, full⟩ := loopBody_closed (h := h) inside
    (fun x m ne => absurd (mem_singleton.1 m) ne) done
  have sound := loopBody_sound (P := InLoop bs cfg.entry h) inside (fun b here p pred mem ne => by
    obtain ⟨reached, other, l, latch, way⟩ := here
    have edge : BlockEdge bs p b := blockPreds_edge labels (preds ▸ pred)
    exact ⟨(tree.inside p).1 mem, ne, l, latch, way.head ⟨edge, other⟩⟩) mem_cons_self
    (fun x m => .inl (mem_singleton.1 m)) (fun b m mem ne => ⟨(tree.inside b).1 mem, ne, b, (latches b).1 m, .refl⟩) done
  refine ⟨⟨_, sortNames body⟩, by simp only [naturalLoop, done, Option.bind_eq_bind, Option.bind_some, Option.pure_def]; rfl, latches, fun x => ?_⟩
  rw [mem_sortNames]
  refine ⟨sound x, ?_⟩
  rintro (rfl | ⟨reached, -, l, latch, way⟩)
  · exact kept x mem_cons_self
  · -- back along the way, from the latch
    refine way.head_induction_on (motive := fun x _ => x ∈ cfg.rpo → x ∈ body) (fun mem => taken l ((latches l).2 latch) mem)
      (fun {a b} step _ ih mem => ?_) ((tree.inside x).2 reached)
    exact full b (ih (closed a mem b step.1)) step.2 a (preds ▸ mem_blockPreds step.1) mem

theorem Tree.loops_end (labels : (bs.map (·.label)).Nodup) (built : funcCfg bs = some cfg) : ∃ loops, naturalLoops cfg parent = some loops ∧
    ∀ h, ((loops h).isSome ↔ ∃ x, Latch bs cfg.entry h x) ∧ ∀ loop, loops h = some loop →
      (∀ x, x ∈ loop.latches ↔ Latch bs cfg.entry h x) ∧ ∀ x, x ∈ loop.body ↔ x = h ∨ InLoop bs cfg.entry h x := by
  obtain ⟨-, succs, -, -, closed⟩ := funcCfg_spec built
  obtain ⟨iv, numbered, inside, within⟩ := tree.intervals_end
  have edges : ∀ h x, (h, x) ∈ backEdges cfg iv ↔ Latch bs cfg.entry h x := by
    intro h x
    simp only [backEdges, mem_flatMap, mem_map, mem_filter, Prod.mk.injEq, Latch, BlockEdge]
    constructor
    · rintro ⟨l, mem, h', ⟨next, dom⟩, rfl, rfl⟩
      rw [succs] at next
      exact ⟨(tree.inside l).1 mem, next, (tree.ancestors h' l mem).1 ((within h' l (closed l mem h' next) mem).1 dom)⟩
    · rintro ⟨reached, next, dom⟩
      have mem := (tree.inside x).2 reached
      exact ⟨x, mem, h, ⟨succs ▸ next, (within h x (closed x mem h next) mem).2 ((tree.ancestors h x mem).2 dom)⟩, rfl, rfl⟩
  have folded : ∀ (hs : List Name) (loops : Name → Option Loop), ∃ loops', hs.foldlM (fun loops h => do
        let loop ← naturalLoop cfg iv h
        return Function.update loops h (some loop)) loops = some loops' ∧
      ∀ h, loops' h = if h ∈ hs then naturalLoop cfg iv h else loops h := by
    intro hs
    induction hs with
    | nil => exact fun loops => ⟨loops, rfl, fun h => (if_neg not_mem_nil).symm⟩
    | cons k hs ih =>
      intro loops
      obtain ⟨loop, found, -⟩ := tree.loop_ends labels built inside (edges k)
      obtain ⟨loops', rest, each⟩ := ih (Function.update loops k (some loop))
      refine ⟨loops', by rw [foldlM_cons, found]; exact rest, fun h => ?_⟩
      rw [each]
      by_cases same : h = k
      · subst same
        simp [found]
      · simp [same]
  obtain ⟨loops, done, each⟩ := folded (sortNames ((backEdges cfg iv).map (·.1)).dedup) (fun _ => none)
  have headers : ∀ h, h ∈ sortNames ((backEdges cfg iv).map (·.1)).dedup ↔ ∃ x, Latch bs cfg.entry h x := by
    intro h
    rw [mem_sortNames, mem_dedup, mem_map]
    constructor
    · rintro ⟨e, mem, same⟩
      exact ⟨e.2, (edges h e.2).1 (same ▸ mem)⟩
    · rintro ⟨x, latch⟩
      exact ⟨(h, x), (edges h x).2 latch, rfl⟩
  refine ⟨loops, by simp only [naturalLoops, numbered, Option.bind_eq_bind, Option.bind_some]; exact done, fun h => ?_⟩
  obtain ⟨loop, found, exact_⟩ := tree.loop_ends labels built inside (edges h)
  by_cases header : h ∈ sortNames ((backEdges cfg iv).map (·.1)).dedup
  · rw [each, if_pos header, found]
    refine ⟨iff_of_true rfl ((headers h).1 header), fun loop' same => ?_⟩
    cases same
    exact exact_
  · rw [each, if_neg header]
    exact ⟨iff_of_false Bool.false_ne_true fun some_ => header ((headers h).2 some_), fun _ none_ => by cases none_⟩

end

/-- On every graph both analyses end. A reachable block's frontier lists the joins but the entry that the
definition has; each header's loop is its latches and what reaches one of them without passing the header. -/
theorem frontiers_exact (entry : Block) (rest : List Block) (labels : ((entry :: rest).map (·.label)).Nodup)
    (exist : labelsExist (entry :: rest) = true) :
    ∃ cfg idom df loops, funcCfg (entry :: rest) = some cfg ∧ cfgIdoms cfg = some idom ∧ cfgFrontiers cfg idom = some df ∧
      naturalLoops cfg idom = some loops ∧
      (∀ a, Reachable (BlockEdge (entry :: rest)) entry.label a → ∃ xs, df a = some xs ∧ ∀ b, b ∈ xs ↔ b ≠ entry.label ∧
        Reachable (BlockEdge (entry :: rest)) entry.label b ∧ Join (entry :: rest) entry.label b ∧ InFrontier (entry :: rest) entry.label a b) ∧
      ∀ h, ((loops h).isSome ↔ ∃ x, Latch (entry :: rest) entry.label h x) ∧ ∀ loop, loops h = some loop →
        (∀ x, x ∈ loop.latches ↔ Latch (entry :: rest) entry.label h x) ∧
          ∀ x, x ∈ loop.body ↔ x = h ∨ InLoop (entry :: rest) entry.label h x := by
  obtain ⟨cfg, built⟩ := funcCfg_ends (cons_ne_nil entry rest) exist
  obtain ⟨idom, found, tree⟩ := cfgIdoms_ends labels built
  obtain ⟨start, -, preds, -, -⟩ := funcCfg_spec built
  obtain ⟨df, fronts, each⟩ := tree.frontiers_end labels preds
  obtain ⟨loops, looped, bodies⟩ := tree.loops_end labels built
  change cfg.entry = entry.label at start
  rw [← start]
  refine ⟨cfg, idom, df, loops, built, found, fronts, looped, fun a reached => ?_, bodies⟩
  obtain ⟨xs, known, lists⟩ := each a ((tree.inside a).2 reached)
  exact ⟨xs, known, fun b => by rw [lists, tree.inside]⟩

/-- On a cycle with two ways in, one of its blocks lists the other, which the entry jumps to as well. -/
theorem frontiers_tangled : ∃ cfg idom df, funcCfg (tangledEntry :: tangled) = some cfg ∧ cfgIdoms cfg = some idom ∧
    cfgFrontiers cfg idom = some df ∧ ∃ xs, df "b" = some xs ∧ "c" ∈ xs := by
  obtain ⟨cfg, idom, df, loops, built, found, fronts, -, each, -⟩ := frontiers_exact tangledEntry tangled (by decide) (by decide)
  have first : "b" ∈ blockSuccs (tangledEntry :: tangled) "a" := by decide +kernel
  have second : "c" ∈ blockSuccs (tangledEntry :: tangled) "a" := by decide +kernel
  have across : "c" ∈ blockSuccs (tangledEntry :: tangled) "b" := by decide +kernel
  have reached : Reachable (BlockEdge (tangledEntry :: tangled)) "a" "b" := Reachable.start.step first
  obtain ⟨xs, known, lists⟩ := each "b" reached
  refine ⟨cfg, idom, df, built, found, fronts, xs, known, (lists "c").2 ⟨by decide, Reachable.start.step second, ?_, ?_, fun dom => ?_⟩⟩
  · exact ⟨"a", "b", by decide, ⟨.start, second⟩, reached, across⟩
  · exact ⟨"b", reached, across, .inl rfl⟩
  · exact absurd (dom ["a"] (Walk.start.step second)) (by decide)

/-- Two blocks that both go back to the entry. -/
def returns : List Block :=
  [⟨"a", [], [], .branch (.tmp "u") (.label "b") (.label "c")⟩, ⟨"b", [], [], .goto (.label "a")⟩, ⟨"c", [], [], .goto (.label "a")⟩]

/-- The entry is then a join that each of them has in its frontier by the definition; the table lists it nowhere. -/
theorem frontiers_entry : ∃ cfg idom df xs, funcCfg returns = some cfg ∧ cfgIdoms cfg = some idom ∧ cfgFrontiers cfg idom = some df ∧
    Reachable (BlockEdge returns) "a" "b" ∧ Reachable (BlockEdge returns) "a" "a" ∧ Join returns "a" "a" ∧ InFrontier returns "a" "b" "a" ∧
      df "b" = some xs ∧ "a" ∉ xs := by
  obtain ⟨cfg, built⟩ : ∃ cfg, funcCfg returns = some cfg := funcCfg_ends (by decide) (by decide)
  obtain ⟨idom, found, tree⟩ := cfgIdoms_ends (by decide) built
  obtain ⟨start, -, preds, -, -⟩ := funcCfg_spec built
  obtain ⟨df, fronts, each⟩ := tree.frontiers_end (by decide) preds
  change cfg.entry = "a" at start
  rw [start] at each
  have there : "b" ∈ blockSuccs returns "a" := by decide +kernel
  have other : "c" ∈ blockSuccs returns "a" := by decide +kernel
  have back : "a" ∈ blockSuccs returns "b" := by decide +kernel
  have again : "a" ∈ blockSuccs returns "c" := by decide +kernel
  have reached : Reachable (BlockEdge returns) "a" "b" := Reachable.start.step there
  have reached' : Reachable (BlockEdge returns) "a" "c" := Reachable.start.step other
  obtain ⟨xs, known, lists⟩ := each "b" ((tree.inside "b").2 (start ▸ reached))
  refine ⟨cfg, idom, df, xs, built, found, fronts, reached, .start, ⟨"b", "c", by decide, ⟨reached, back⟩, reached', again⟩,
    ⟨⟨"b", reached, back, .inl rfl⟩, StrictDom.not_root⟩, known, fun listed => ?_⟩
  exact ((lists "a").1 listed).1 rfl

end Nanofil
