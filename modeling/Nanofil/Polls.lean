import Mathlib.Logic.Relation
import Nanofil.Evidence
import Nanofil.Points
import Nanofil.Lib.Results

/-! `polls_every_cycle/1` accepts exactly the blocks whose every cycle polls, and `pizlonate.pl` makes such blocks. -/
namespace Nanofil
open Results List Option

/-! ### Walks -/

/-- An edge of the control-flow graph, and whether it polls. -/
def CfgEdge (bs : List Block) (l : Name) (polls : Bool) (t : Name) : Prop :=
  ∃ b ∈ bs, b.label = l ∧ (if polls then Target.poll t else .label t) ∈ jumpTargets b.jump

inductive PollWalk (bs : List Block) : Name → List Bool → Name → Prop
  | nil (l : Name) : PollWalk bs l [] l
  | cons {l t u : Name} {p : Bool} {ps : List Bool} (edge : CfgEdge bs l p t) (rest : PollWalk bs t ps u) : PollWalk bs l (p :: ps) u

/-- Every cycle has a poll edge. -/
def CyclesPoll (bs : List Block) : Prop := ∀ l ps, PollWalk bs l ps l → ps ≠ [] → true ∈ ps

/-! ### The search -/

def GraphEdge (graph : Name → Option (List Name)) (l s : Name) : Prop := ∃ ss, graph l = some ss ∧ s ∈ ss

/-- What is done is left by no edge, and is on no cycle. -/
structure ColorsOk (graph : Name → Option (List Name)) (color : Name → Option Color) : Prop where
  closed : ∀ d s, color d = some .done → GraphEdge graph d s → color s = some .done
  acyclic : ∀ d, color d = some .done → ¬ Relation.TransGen (GraphEdge graph) d d

/-- What a search of a list of labels makes of the colors. -/
structure Searched (graph : Name → Option (List Name)) (ls : List Name) (color color' : Name → Option Color) : Prop where
  ok : ColorsOk graph color'
  all : ∀ l ∈ ls, color' l = some .done
  kept : ∀ d, color d = some .done → color' d = some .done
  gray : ∀ d, color' d = some .gray ↔ color d = some .gray

section
variable {graph : Name → Option (List Name)} {n : Nat} {ls labels : List Name} {color color' : Name → Option Color} {l s : Name}

theorem ColorsOk.reaches (ok : ColorsOk graph color) (done : color l = some .done) (path : Relation.ReflTransGen (GraphEdge graph) l s) :
    color s = some .done := by
  induction path with
  | refl => exact done
  | tail _ edge ih => exact ok.closed _ _ ih edge

theorem ColorsOk.enter (ok : ColorsOk graph color) (new : color l = none) :
    ColorsOk graph (fun l' => if l' = l then some .gray else color l') := by
  have old : ∀ d, (if d = l then some Color.gray else color d) = some .done → color d = some .done := by
    intro d done
    split_ifs at done with same
    · cases done
    · exact done
  refine ⟨fun d s done edge => ?_, fun d done => ok.acyclic d (old d done)⟩
  have after := ok.closed d s (old d done) edge
  rw [if_neg, after]
  rintro rfl
  rw [new] at after
  cases after

/-- A label is done once its successors are. -/
theorem ColorsOk.leave {ss : List Name} (ok : ColorsOk graph color) (found : graph l = some ss) (all : ∀ s ∈ ss, color s = some .done)
    (gray : color l = some .gray) : ColorsOk graph (fun l' => if l' = l then some .done else color l') := by
  have apart : ∀ s, color s = some .done → s ≠ l := by
    rintro s done rfl
    rw [gray] at done
    cases done
  have next : ∀ s, GraphEdge graph l s → color s = some .done := by
    rintro s ⟨ss', found', mem⟩
    obtain rfl := Option.some.inj (found.symm.trans found')
    exact all s mem
  refine ⟨fun d s done edge => ?_, fun d done cycle => ?_⟩
  · split_ifs at done with same
    · subst same
      rw [if_neg (apart s (next s edge)), next s edge]
    · rw [ok.closed d s done edge, ite_self]
  · split_ifs at done with same
    · subst same
      obtain ⟨s, edge, path⟩ := Relation.TransGen.head'_iff.1 cycle
      exact apart d (ok.reaches (next s edge) path) rfl
    · exact ok.acyclic d done cycle

theorem acyclicFromAll_searched (ok : ColorsOk graph color) (done : acyclicFromAll graph n ls color = some color') :
    Searched graph ls color color' := by
  induction n generalizing ls color color' with
  | zero =>
    cases ls with
    | nil =>
      cases done
      exact ⟨ok, nofun, fun _ => id, fun _ => Iff.rfl⟩
    | cons => cases done
  | succ n ih =>
    cases ls with
    | nil =>
      cases done
      exact ⟨ok, nofun, fun _ => id, fun _ => Iff.rfl⟩
    | cons l ls =>
      rw [acyclicFromAll] at done
      cases here : color l with
      | some c =>
        simp only [here] at done
        cases c with
        | gray => cases done
        | done =>
          have rest := ih ok done
          exact { rest with all := forall_mem_cons.2 ⟨rest.kept l here, rest.all⟩ }
      | none =>
        simp only [here, bind_found] at done
        obtain ⟨ss, found, color1, inner, outer⟩ := done
        have first := ih (ok.enter here) inner
        have gray : color1 l = some .gray := (first.gray l).2 (if_pos rfl)
        have second := ih (first.ok.leave found first.all gray) outer
        have apart : ∀ d, color d ≠ none → d ≠ l := by
          rintro d colored rfl
          exact colored here
        refine ⟨second.ok, forall_mem_cons.2 ⟨second.kept l (if_pos rfl), second.all⟩, fun d done => ?_, fun d => ?_⟩
        · have other := apart d (by rw [done]; nofun)
          exact second.kept d ((if_neg other).trans (first.kept d ((if_neg other).trans done)))
        · rw [second.gray]
          by_cases same : d = l
          · subst same
            rw [if_pos rfl, here]
            exact ⟨nofun, nofun⟩
          · rw [if_neg same, first.gray, if_neg same]

theorem fresh_marked (mem : l ∈ labels) (new : color l = none) (c : Color) :
    labels.countP (fun x => (if x = l then some c else color x) = none) < labels.countP (fun x => color x = none) := by
  obtain ⟨xs, ys, rfl⟩ := append_of_mem mem
  have fewer (xs : List Name) : xs.countP (fun x => (if x = l then some c else color x) = none) ≤ xs.countP (fun x => color x = none) := by
    refine countP_mono_left fun x _ still => ?_
    rw [decide_eq_true_eq] at still ⊢
    split_ifs at still
    exact still
  have left := fewer xs
  have right := fewer ys
  simp only [countP_append, countP_cons, if_true, new, reduceCtorEq, decide_true, decide_false, Bool.false_eq_true, if_false]
  omega

/-- Without cycles the search goes through, as no gray label is a successor of what it has reached from it. -/
theorem acyclicFromAll_total (acyclic : ∀ l, ¬ Relation.TransGen (GraphEdge graph) l l)
    (known : ∀ l ∈ labels, ∃ ss, graph l = some ss ∧ ss.length ≤ 2 ∧ ∀ s ∈ ss, s ∈ labels) (ok : ColorsOk graph color)
    (inside : ∀ l ∈ ls, l ∈ labels) (path : ∀ g, color g = some .gray → ∀ l ∈ ls, Relation.TransGen (GraphEdge graph) g l)
    (fuel : ls.length + 3 * labels.countP (fun x => color x = none) ≤ n) : ∃ color', acyclicFromAll graph n ls color = some color' := by
  induction n generalizing ls color with
  | zero =>
    cases ls with
    | nil => exact ⟨color, rfl⟩
    | cons => exact absurd fuel (by rw [length_cons]; omega)
  | succ n ih =>
    cases ls with
    | nil => exact ⟨color, rfl⟩
    | cons l ls =>
      rw [length_cons] at fuel
      have rest : ∀ l' ∈ ls, l' ∈ labels := fun l' mem => inside l' (mem_cons_of_mem l mem)
      have further : ∀ g, color g = some .gray → ∀ l' ∈ ls, Relation.TransGen (GraphEdge graph) g l' :=
        fun g gray l' mem => path g gray l' (mem_cons_of_mem l mem)
      rw [acyclicFromAll]
      cases here : color l with
      | some c =>
        cases c with
        | gray => exact absurd (path l here l mem_cons_self) (acyclic l)
        | done => exact ih ok rest further (by omega)
      | none =>
        obtain ⟨ss, found, few, to_⟩ := known l (inside l mem_cons_self)
        have fewer := fresh_marked (inside l mem_cons_self) here .gray
        obtain ⟨color1, inner⟩ := ih (ok.enter here) to_ (fun g gray s mem => by
          have edge : GraphEdge graph l s := ⟨ss, found, mem⟩
          split_ifs at gray with same
          · exact same ▸ .single edge
          · exact (path g gray l mem_cons_self).tail edge) (by omega)
        have first := acyclicFromAll_searched (ok.enter here) inner
        have left := first.ok.leave found first.all ((first.gray l).2 (if_pos rfl))
        have less : labels.countP (fun x => (if x = l then some .done else color1 x) = none) ≤ labels.countP (fun x => color x = none) := by
          refine countP_mono_left fun x _ still => ?_
          rw [decide_eq_true_eq] at still ⊢
          split_ifs at still with same
          cases was : color x with
          | none => rfl
          | some c =>
            have entered : (if x = l then some Color.gray else color x) = some c := (if_neg same).trans was
            cases c with
            | gray => exact absurd still (by rw [(first.gray x).2 entered]; nofun)
            | done => exact absurd still (by rw [first.kept x entered]; nofun)
        obtain ⟨color', outer⟩ := ih left rest (fun g gray => by
          split_ifs at gray with same
          · cases gray
          · exact further g ((if_neg same).symm.trans ((first.gray g).1 gray))) (by omega)
        exact ⟨color', by simp only [found, inner, outer, bind_eq_bind, bind_some]⟩

end

section
variable {bs out : List Block} {l t u : Name} {ps : List Bool}

theorem PollWalk.unpolled (walk : PollWalk bs l ps u) (none_ : true ∉ ps) : Relation.ReflTransGen (CfgEdge bs · false ·) l u := by
  induction walk with
  | nil => exact .refl
  | @cons l t u p ps edge rest ih =>
    cases p with
    | true => exact absurd mem_cons_self none_
    | false => exact .head edge (ih fun mem => none_ (mem_cons_of_mem false mem))

theorem pollWalk_of_edges (path : Relation.ReflTransGen (CfgEdge bs · false ·) l u) : ∃ ps, PollWalk bs l ps u ∧ true ∉ ps := by
  induction path using Relation.ReflTransGen.head_induction_on with
  | refl => exact ⟨[], .nil u, nofun⟩
  | head edge _ ih =>
    obtain ⟨ps, walk, none_⟩ := ih
    exact ⟨false :: ps, .cons edge walk, by simpa using none_⟩

theorem cyclesPoll_iff : CyclesPoll bs ↔ ∀ l, ¬ Relation.TransGen (CfgEdge bs · false ·) l l := by
  constructor
  · intro polls l cycle
    obtain ⟨t, edge, path⟩ := Relation.TransGen.head'_iff.1 cycle
    obtain ⟨ps, walk, none_⟩ := pollWalk_of_edges path
    have mem := polls l (false :: ps) (.cons edge walk) nofun
    exact none_ (by simpa using mem)
  · intro acyclic l ps walk nonempty
    by_contra none_
    cases walk with
    | nil => exact nonempty rfl
    | @cons _ t _ p ps edge rest =>
      cases p with
      | true => exact none_ mem_cons_self
      | false => exact acyclic l (.head' edge (rest.unpolled fun mem => none_ (mem_cons_of_mem false mem)))

theorem unpolledEdges_edge (distinct : (bs.map (·.label)).Nodup) : GraphEdge (unpolledEdges bs) l t ↔ CfgEdge bs l false t := by
  have unpolled {f : Target → Option Name} (label : ∀ l, f (.label l) = some l) (poll : ∀ l, f (.poll l) = none) (j : Jump) :
      t ∈ (jumpTargets j).filterMap f ↔ Target.label t ∈ jumpTargets j := by
    rw [mem_filterMap]
    constructor
    · rintro ⟨t' | t', mem, same⟩
      · rw [label] at same
        exact Option.some.inj same ▸ mem
      · rw [poll] at same
        cases same
    · exact fun mem => ⟨_, mem, label t⟩
  constructor
  · rintro ⟨ss, found, mem⟩
    obtain ⟨b, here, rfl⟩ := map_eq_some_iff.1 found
    exact ⟨b, mem_of_find?_eq_some here, by simpa using find?_some here, (unpolled (fun _ => rfl) (fun _ => rfl) b.jump).1 mem⟩
  · rintro ⟨b, mem, rfl, edge⟩
    exact ⟨_, by rw [unpolledEdges, find_label distinct mem]; rfl, (unpolled (fun _ => rfl) (fun _ => rfl) b.jump).2 edge⟩

theorem unpolledEdges_known (distinct : (bs.map (·.label)).Nodup) (targets : ∀ b ∈ bs, ∀ l ∈ jumpLabels b.jump, l ∈ bs.map (·.label))
    (mem : l ∈ bs.map (·.label)) : ∃ ss, unpolledEdges bs l = some ss ∧ ss.length ≤ 2 ∧ ∀ s ∈ ss, s ∈ bs.map (·.label) := by
  obtain ⟨b, here, rfl⟩ := List.mem_map.1 mem
  refine ⟨_, by rw [unpolledEdges, find_label distinct here]; rfl, (length_filterMap_le _ _).trans ?_, fun s edge => ?_⟩
  · cases b.jump <;> simp [jumpTargets]
  · obtain ⟨t | t, target, same⟩ := mem_filterMap.1 edge
    · exact targets b here s (List.mem_map.2 ⟨_, target, Option.some.inj same⟩)
    · cases same

theorem pollsEveryCycle_iff (distinct : (bs.map (·.label)).Nodup) (targets : ∀ b ∈ bs, ∀ l ∈ jumpLabels b.jump, l ∈ bs.map (·.label)) :
    pollsEveryCycle bs = true ↔ CyclesPoll bs := by
  rw [cyclesPoll_iff]
  have ok : ColorsOk (unpolledEdges bs) fun _ => none := ⟨nofun, nofun⟩
  have same : GraphEdge (unpolledEdges bs) = (CfgEdge bs · false ·) := funext fun l => funext fun t => propext (unpolledEdges_edge distinct)
  constructor
  · intro polls l cycle
    obtain ⟨color, done⟩ := isSome_iff_exists.1 polls
    have searched := acyclicFromAll_searched ok done
    obtain ⟨t, ⟨b, mem, rfl, -⟩, -⟩ := Relation.TransGen.head'_iff.1 cycle
    exact searched.ok.acyclic b.label (searched.all _ (List.mem_map_of_mem mem)) (same ▸ cycle)
  · intro acyclic
    have fuel : (bs.map (·.label)).length + 3 * (bs.map (·.label)).countP (fun _ => (none : Option Color) = none) ≤ 4 * bs.length + 4 := by
      have le := countP_le_length (p := fun _ : Name => decide ((none : Option Color) = none)) (l := bs.map (·.label))
      rw [length_map] at le ⊢
      omega
    exact isSome_iff_exists.2 (acyclicFromAll_total (same ▸ acyclic) (fun l => unpolledEdges_known distinct targets) ok
      (fun l mem => mem) nofun fuel)

/-- Where each unpolled edge goes forward, no cycle is without a poll. -/
theorem cyclesPoll_of_forward (index : Name → Option Nat)
    (forward : ∀ l t, CfgEdge bs l false t → ∃ i j, index l = some i ∧ index t = some j ∧ i < j) : CyclesPoll bs := by
  refine cyclesPoll_iff.2 fun l cycle => ?_
  have later : ∀ u, Relation.TransGen (CfgEdge bs · false ·) l u → ∃ i j, index l = some i ∧ index u = some j ∧ i < j := by
    intro u path
    induction path with
    | single edge => exact forward _ _ edge
    | tail _ edge ih =>
      obtain ⟨i, j, first, last, lt⟩ := ih
      obtain ⟨j', k, here, next, lt'⟩ := forward _ _ edge
      obtain rfl := Option.some.inj (last.symm.trans here)
      exact ⟨i, k, first, next, lt.trans lt'⟩
  obtain ⟨i, j, first, last, lt⟩ := later l cycle
  obtain rfl := Option.some.inj (first.symm.trans last)
  exact lt.false

end

/-! ### Pizlonation -/

/-- Each label's position in block order. -/
def blockIndex (bs : List Block) (l : Name) : Option Nat := bs.findIdx? (·.label = l)

def polledTarget (index : Name → Option Nat) (from_ : Nat) : Target → Option Target
  | .poll l => some (.poll l)
  | .label l => (index l).map fun to_ => if to_ ≤ from_ then .poll l else .label l

def polledJump (index : Name → Option Nat) (from_ : Nat) : Jump → Option Jump
  | .goto l => (polledTarget index from_ l).map .goto
  | .branch v l1 l2 => do
    let t1 ← polledTarget index from_ l1
    let t2 ← polledTarget index from_ l2
    some (.branch v t1 t2)
  | j => some j

/-- `pizlonated_blocks/7`; `checked` are the instructions that `checked_insts/11` makes of the block at an index. -/
def pizlonatedBlocks (checked : Nat → Block → List Inst) (index : Name → Option Nat) : Nat → List Block → Option (List Block)
  | _, [] => some []
  | i, b :: bs => do
    let jump ← polledJump index i b.jump
    let bs' ← pizlonatedBlocks checked index (i + 1) bs
    some (⟨b.label, b.phis, checked i b, jump⟩ :: bs')

section
variable {checked : Nat → Block → List Inst} {index : Name → Option Nat} {i : Nat} {t t' : Target} {j j' : Jump} {bs out : List Block}

theorem polledTarget_ok (done : polledTarget index i t = some t') :
    edgeLabel t' = edgeLabel t ∧ ∀ l, t' = .label l → ∃ k, index l = some k ∧ i < k := by
  cases t with
  | poll l =>
    cases done
    exact ⟨rfl, nofun⟩
  | label l =>
    obtain ⟨k, found, rfl⟩ := map_eq_some_iff.1 done
    split_ifs with le
    · exact ⟨rfl, nofun⟩
    · refine ⟨rfl, fun l' same => ?_⟩
      cases same
      exact ⟨k, found, not_le.1 le⟩

theorem polledTarget_total (known : ∃ k, index (edgeLabel t) = some k) : ∃ t', polledTarget index i t = some t' := by
  cases t with
  | poll l => exact ⟨_, rfl⟩
  | label l =>
    obtain ⟨k, found⟩ := known
    exact ⟨_, by rw [polledTarget, show index l = some k from found]; rfl⟩

theorem polledJump_ok (done : polledJump index i j = some j') :
    jumpLabels j' = jumpLabels j ∧ ∀ l, Target.label l ∈ jumpTargets j' → ∃ k, index l = some k ∧ i < k := by
  cases j with
  | goto t =>
    obtain ⟨t', target, rfl⟩ := map_eq_some_iff.1 done
    obtain ⟨same, forward⟩ := polledTarget_ok target
    exact ⟨by simp [jumpLabels, jumpTargets, same], fun l mem => forward l (mem_singleton.1 mem).symm⟩
  | branch v t1 t2 =>
    simp only [polledJump, bind_found, Option.some.injEq] at done
    obtain ⟨u1, target1, u2, target2, rfl⟩ := done
    obtain ⟨same1, forward1⟩ := polledTarget_ok target1
    obtain ⟨same2, forward2⟩ := polledTarget_ok target2
    refine ⟨by simp [jumpLabels, jumpTargets, same1, same2], fun l mem => ?_⟩
    simp only [jumpTargets, mem_cons, not_mem_nil, or_false] at mem
    exact mem.elim (fun same => forward1 l same.symm) (fun same => forward2 l same.symm)
  | ret | rets | retVoid | unreachable =>
    cases done
    exact ⟨rfl, fun l mem => absurd mem not_mem_nil⟩

theorem polledJump_total (known : ∀ l ∈ jumpLabels j, ∃ k, index l = some k) : ∃ j', polledJump index i j = some j' := by
  cases j with
  | goto t =>
    obtain ⟨t', done⟩ := polledTarget_total (i := i) (known (edgeLabel t) (by simp [jumpLabels, jumpTargets]))
    exact ⟨_, by rw [polledJump, done]; rfl⟩
  | branch v t1 t2 =>
    obtain ⟨u1, done1⟩ := polledTarget_total (i := i) (known (edgeLabel t1) (by simp [jumpLabels, jumpTargets]))
    obtain ⟨u2, done2⟩ := polledTarget_total (i := i) (known (edgeLabel t2) (by simp [jumpLabels, jumpTargets]))
    exact ⟨_, by rw [polledJump, done1, done2]; rfl⟩
  | ret | rets | retVoid | unreachable => exact ⟨_, rfl⟩

theorem pizlonatedBlocks_total (known : ∀ b ∈ bs, ∀ l ∈ jumpLabels b.jump, ∃ k, index l = some k) :
    ∃ out, pizlonatedBlocks checked index i bs = some out := by
  induction bs generalizing i with
  | nil => exact ⟨[], rfl⟩
  | cons b bs ih =>
    obtain ⟨jump, first⟩ := polledJump_total (i := i) (known b mem_cons_self)
    obtain ⟨rest, done⟩ := ih (i := i + 1) fun b' mem => known b' (mem_cons_of_mem b mem)
    exact ⟨_, by rw [pizlonatedBlocks, first, done]; rfl⟩

/-- The blocks keep their labels and the labels of their jumps, and poll each edge that does not go past them. -/
theorem pizlonatedBlocks_ok (done : pizlonatedBlocks checked index i bs = some out) : out.map (·.label) = bs.map (·.label) ∧
    (∀ b' ∈ out, ∃ b ∈ bs, jumpLabels b'.jump = jumpLabels b.jump) ∧
    ∀ n (b' : Block), out[n]? = some b' → ∀ l, Target.label l ∈ jumpTargets b'.jump → ∃ k, index l = some k ∧ i + n < k := by
  induction bs generalizing i out with
  | nil =>
    cases done
    exact ⟨rfl, nofun, nofun⟩
  | cons b bs ih =>
    simp only [pizlonatedBlocks, bind_found, Option.some.injEq] at done
    obtain ⟨jump, first, rest, later, rfl⟩ := done
    obtain ⟨same, forward⟩ := polledJump_ok first
    obtain ⟨labels, jumps, past⟩ := ih later
    refine ⟨by simp [labels], forall_mem_cons.2 ⟨⟨b, mem_cons_self, same⟩, fun b' mem => ?_⟩, fun n b' here l target => ?_⟩
    · obtain ⟨b0, mem0, same0⟩ := jumps b' mem
      exact ⟨b0, mem_cons_of_mem b mem0, same0⟩
    · cases n with
      | zero =>
        cases here
        exact forward l target
      | succ n =>
        obtain ⟨k, found, lt⟩ := past n b' here l target
        exact ⟨k, found, by omega⟩

theorem blockIndex_known {l : Name} (mem : l ∈ bs.map (·.label)) : ∃ k, blockIndex bs l = some k := by
  obtain ⟨b, here, rfl⟩ := List.mem_map.1 mem
  exact isSome_iff_exists.1 (by rw [blockIndex, findIdx?_isSome]; exact List.any_eq_true.2 ⟨b, here, by simp⟩)

theorem blockIndex_at (distinct : (bs.map (·.label)).Nodup) {n : Nat} {l : Name} (here : (bs.map (·.label))[n]? = some l) :
    blockIndex bs l = some n := by
  obtain ⟨m, found⟩ := blockIndex_known (mem_of_getElem? here)
  obtain ⟨lt, label, -⟩ := findIdx?_eq_some_iff_getElem.1 found
  have there : (bs.map (·.label))[m]? = some l := by simp [getElem?_eq_getElem lt, of_decide_eq_true label]
  have bound : m < (bs.map (·.label)).length := by rwa [length_map]
  rw [found, (getElem?_inj bound distinct).1 (there.trans here.symm)]

end

/-- `polls_every_cycle/1` tells which blocks poll on each cycle, and pizlonation's always do. -/
theorem polls_exact {bs : List Block} (distinct : (bs.map (·.label)).Nodup)
    (targets : ∀ b ∈ bs, ∀ l ∈ jumpLabels b.jump, l ∈ bs.map (·.label)) : (pollsEveryCycle bs = true ↔ CyclesPoll bs) ∧
    ∀ checked, ∃ out, pizlonatedBlocks checked (blockIndex bs) 0 bs = some out ∧ pollsEveryCycle out = true := by
  refine ⟨pollsEveryCycle_iff distinct targets, fun checked => ?_⟩
  obtain ⟨out, done⟩ : ∃ out, pizlonatedBlocks checked (blockIndex bs) 0 bs = some out :=
    pizlonatedBlocks_total fun b mem l jumps => blockIndex_known (targets b mem l jumps)
  obtain ⟨labels, jumps, past⟩ := pizlonatedBlocks_ok done
  have inside : ∀ b ∈ out, ∀ l ∈ jumpLabels b.jump, l ∈ out.map (·.label) := by
    intro b' mem l target
    obtain ⟨b, here, same⟩ := jumps b' mem
    exact labels ▸ targets b here l (same ▸ target)
  refine ⟨out, done, (pollsEveryCycle_iff (labels ▸ distinct) inside).2 (cyclesPoll_of_forward (blockIndex bs) fun l t edge => ?_)⟩
  obtain ⟨b, mem, rfl, target⟩ := edge
  obtain ⟨n, here⟩ := mem_iff_getElem?.1 mem
  obtain ⟨k, found, lt⟩ := past n b here t target
  have at_ : (bs.map (·.label))[n]? = some b.label := by rw [← labels, getElem?_map, here]; rfl
  exact ⟨n, k, blockIndex_at distinct at_, found, by omega⟩

def spinning : List Block := [⟨"start", [], [], .goto (.label "spin")⟩, ⟨"spin", [], [], .branch (.tmp "go") (.label "spin") (.poll "start")⟩]

theorem spinning_polls : ¬ CyclesPoll spinning ∧
    ∃ out, pizlonatedBlocks (fun _ b => b.insts) (blockIndex spinning) 0 spinning = some out ∧ pollsEveryCycle out = true := by
  obtain ⟨exact_, polled⟩ := polls_exact (show (spinning.map (·.label)).Nodup by decide) (by decide)
  exact ⟨fun polls => absurd (exact_.2 polls) (by decide), polled _⟩

end Nanofil
