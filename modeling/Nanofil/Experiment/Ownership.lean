import Mathlib.Data.List.Nodup
import Mathlib.Order.WellFounded
import Nanofil.Experiment.Scheduling

/-! What a build needs, as what is reached over requirements that are not available. -/
namespace Experiment
open List Closures

variable {todo : Todo}

section
variable {db db' : Db} {available available' : List StorePath} {targets targets' : List Drv} {x : Drv}

/-- The requirements that are not available, each from what requires it. -/
def Db.unrealized (db : Db) (available : List StorePath) : List (Drv × Drv) :=
  (db.dependencies.filter (fun e => !db.realized available e.child e.outputs)).map (fun e => (e.parent, e.child))

/-- The targets that are not available. -/
def Db.wanted (db : Db) (available : List StorePath) (todo : Todo) : List Drv :=
  (todo.filter (fun r => !db.realized available r.1 r.2)).map (·.1)

theorem edge_unrealized {p : Drv} : Edge (db.unrealized available) p x ↔
    ∃ required, (x, required) ∈ db.requirements p ∧ db.realized available x required = false := by
  simp only [Edge, Db.unrealized, Db.requirements, mem_map, mem_filter, Bool.not_eq_true', decide_eq_true_eq]
  constructor
  · rintro ⟨e, ⟨mem, open_⟩, same⟩
    cases same
    exact ⟨e.outputs, ⟨e, ⟨mem, rfl⟩, rfl⟩, open_⟩
  · rintro ⟨required, ⟨e, ⟨mem, rfl⟩, same⟩, open_⟩
    cases same
    exact ⟨e, ⟨mem, open_⟩, rfl⟩

theorem mem_wanted : x ∈ db.wanted available todo ↔
    ∃ required, (x, required) ∈ todo ∧ db.realized available x required = false := by
  simp only [Db.wanted, mem_map, mem_filter, Bool.not_eq_true']
  constructor
  · rintro ⟨⟨d, required⟩, ⟨mem, open_⟩, rfl⟩
    exact ⟨required, mem, open_⟩
  · rintro ⟨required, mem, open_⟩
    exact ⟨(x, required), ⟨mem, open_⟩, rfl⟩

/-! ### The loop -/

/-- The requirements of derivations that are not yet in `needed`. -/
def Db.unvisited (db : Db) (needed : List Drv) : Nat := (db.dependencies.filter (fun e => e.parent ∉ needed)).length

theorem unvisited_cons {drv : Drv} {needed : List Drv} (new : drv ∉ needed) :
    (db.requirements drv).length + db.unvisited (drv :: needed) = db.unvisited needed := by
  simp only [Db.requirements, Db.unvisited, length_map, mem_cons]
  induction db.dependencies with
  | nil => rfl
  | cons e es ih =>
    by_cases own : e.parent = drv
    · simp only [filter_cons, own, decide_true, if_true, true_or, not_true, decide_false, Bool.false_eq_true, if_false,
        new, not_false_eq_true, length_cons]
      omega
    · by_cases old : e.parent ∈ needed
      · simpa [filter_cons, own, old] using ih
      · simp only [filter_cons, own, old, decide_false, Bool.false_eq_true, if_false, or_self, not_false_eq_true,
          decide_true, if_true, length_cons]
        omega

theorem neededLoop_sound : ∀ {n : Nat} {todo : Todo} {needed : List Drv} {seeds : List Drv},
    (∀ y ∈ needed, Reaches (db.unrealized available) seeds y) →
    (∀ y ∈ db.wanted available todo, Reaches (db.unrealized available) seeds y) →
    ∀ y ∈ db.neededLoop available n todo needed, Reaches (db.unrealized available) seeds y := by
  intro n
  induction n with
  | zero => exact fun seen _ y mem => seen y mem
  | succ n ih =>
    intro todo needed seeds seen next y mem
    match todo with
    | [] => exact seen y mem
    | (drv, required) :: todo =>
      simp only [Db.neededLoop] at mem
      have rest : ∀ y ∈ db.wanted available todo, Reaches (db.unrealized available) seeds y := fun y mem => by
        obtain ⟨required', mem, open_⟩ := mem_wanted.1 mem
        exact next y (mem_wanted.2 ⟨required', mem_cons_of_mem _ mem, open_⟩)
      split at mem
      · exact ih seen rest y mem
      · rename_i visit
        simp only [Bool.or_eq_true, decide_eq_true_eq, not_or, Bool.not_eq_true] at visit
        have here := next drv (mem_wanted.2 ⟨required, mem_cons_self, visit.1⟩)
        refine ih (fun y mem => ?_) (fun y mem => ?_) y mem
        · rcases mem_cons.1 mem with rfl | mem
          exacts [here, seen y mem]
        · obtain ⟨required', mem, open_⟩ := mem_wanted.1 mem
          rcases mem_append.1 mem with mem | mem
          · exact here.edge (edge_unrealized.2 ⟨required', mem_reverse.1 mem, open_⟩)
          · exact rest y (mem_wanted.2 ⟨required', mem, open_⟩)

/-- What the loop returns holds what it began with, the items of its stack, and the requirements
of what it has added. -/
theorem neededLoop_complete (available : List StorePath) : ∀ {n : Nat} (todo : Todo) (needed : List Drv), todo.length + db.unvisited needed ≤ n →
    (∀ y ∈ needed, y ∈ db.neededLoop available n todo needed) ∧
    (∀ y ∈ db.wanted available todo, y ∈ db.neededLoop available n todo needed) ∧
    ∀ y ∈ db.neededLoop available n todo needed, y ∉ needed → ∀ z, Edge (db.unrealized available) y z →
      z ∈ db.neededLoop available n todo needed := by
  intro n
  induction n with
  | zero =>
    intro todo needed fuel
    have empty : todo = [] := length_eq_zero_iff.1 (by omega)
    subst empty
    exact ⟨fun y mem => mem, fun y mem => absurd mem not_mem_nil, fun y mem new => absurd mem new⟩
  | succ n ih =>
    intro todo needed fuel
    match todo with
    | [] => exact ⟨fun y mem => mem, fun y mem => absurd mem not_mem_nil, fun y mem new => absurd mem new⟩
    | (drv, required) :: todo =>
      simp only [length_cons] at fuel
      simp only [Db.neededLoop]
      split
      · rename_i skip
        simp only [Bool.or_eq_true, decide_eq_true_eq] at skip
        obtain ⟨seen, next, closed⟩ := ih todo needed (by omega)
        refine ⟨seen, fun y mem => ?_, closed⟩
        obtain ⟨required', mem, open_⟩ := mem_wanted.1 mem
        rcases mem_cons.1 mem with same | mem
        · cases same
          rcases skip with done | old
          · rw [done] at open_
            cases open_
          · exact seen _ old
        · exact next y (mem_wanted.2 ⟨required', mem, open_⟩)
      · rename_i visit
        simp only [Bool.or_eq_true, decide_eq_true_eq, not_or, Bool.not_eq_true] at visit
        have count : (db.requirements drv).length + _ = _ := unvisited_cons visit.2
        obtain ⟨seen, next, closed⟩ := ih ((db.requirements drv).reverse ++ todo) (drv :: needed)
          (by simp only [length_append, length_reverse]; omega)
        refine ⟨fun y mem => seen y (mem_cons_of_mem _ mem), fun y mem => ?_, fun y mem new z edge => ?_⟩
        · obtain ⟨required', mem, open_⟩ := mem_wanted.1 mem
          rcases mem_cons.1 mem with same | mem
          · cases same
            exact seen _ mem_cons_self
          · exact next y (mem_wanted.2 ⟨required', mem_append_right _ mem, open_⟩)
        · by_cases same : y = drv
          · subst same
            obtain ⟨required', mem, open_⟩ := edge_unrealized.1 edge
            exact next z (mem_wanted.2 ⟨required', mem_append_left _ (mem_reverse.2 mem), open_⟩)
          · exact closed y mem (fun old => new ((mem_cons.1 old).resolve_left same)) z edge

theorem mem_needed : x ∈ db.needed targets available ↔
    Reaches (db.unrealized available) (db.wanted available (db.roots targets)) x := by
  constructor
  · exact neededLoop_sound (fun y mem => by cases mem) (fun y mem => .seed mem) x
  · intro reached
    have fuel : (db.roots targets).length + db.unvisited [] ≤ targets.length + db.dependencies.length + 1 := by
      have count : db.unvisited [] ≤ db.dependencies.length := length_filter_le _ _
      simp only [Db.roots, length_reverse, length_map]
      omega
    obtain ⟨-, start, closed⟩ := neededLoop_complete available _ _ fuel
    exact reached.keeps start fun y z edge mem => closed y mem (by simp) z edge

/-! ### Rules -/

theorem realized_mono (sub : ∀ p ∈ available, p ∈ available') {required : List String}
    (open_ : db.realized available' x required = false) : db.realized available x required = false := by
  rw [← Bool.not_eq_true, Db.realized, Bool.and_eq_true, all_eq_true] at open_ ⊢
  rintro ⟨some_, all⟩
  refine open_ ⟨some_, fun k mem => ?_⟩
  obtain ⟨p, path, mem⟩ := (Option.any_eq_true _ _).1 (all k mem)
  exact (Option.any_eq_true _ _).2 ⟨p, path, by simpa using sub p (by simpa using mem)⟩

theorem edge_mono (sub : ∀ p ∈ available, p ∈ available') {p : Drv} (edge : Edge (db.unrealized available') p x) :
    Edge (db.unrealized available) p x := by
  obtain ⟨required, mem, open_⟩ := edge_unrealized.1 edge
  exact edge_unrealized.2 ⟨required, mem, realized_mono sub open_⟩

/-- The more is available, the less is needed. -/
theorem needed_anti (sub : ∀ p ∈ available, p ∈ available') (need : x ∈ db.needed targets available') :
    x ∈ db.needed targets available := by
  refine mem_needed.2 ((mem_needed.1 need).mono (fun e => edge_mono sub) fun y mem => ?_)
  obtain ⟨required, mem, open_⟩ := mem_wanted.1 mem
  exact mem_wanted.2 ⟨required, mem, realized_mono sub open_⟩

theorem mem_roots {r : Drv × List String} : r ∈ db.roots targets ↔ ∃ d ∈ targets, r = (d, (db.outputs d).map (·.1)) := by
  simp only [Db.roots, mem_reverse, mem_map, eq_comm]

/-- What a batch needs is what its targets do. -/
theorem needed_flat : x ∈ db.needed targets available ↔ ∃ d ∈ targets, x ∈ db.needed [d] available := by
  constructor
  · intro need
    refine (mem_needed.1 need).keeps (P := fun x => ∃ d ∈ targets, x ∈ db.needed [d] available) (fun y mem => ?_) ?_
    · obtain ⟨required, root, open_⟩ := mem_wanted.1 mem
      obtain ⟨d, target, same⟩ := mem_roots.1 root
      cases same
      exact ⟨y, target, mem_needed.2 (.seed (mem_wanted.2 ⟨_, mem_roots.2 ⟨y, by simp, rfl⟩, open_⟩))⟩
    · rintro y z edge ⟨d, mem, need⟩
      exact ⟨d, mem, mem_needed.2 ((mem_needed.1 need).edge edge)⟩
  · rintro ⟨d, mem, need⟩
    refine mem_needed.2 ((mem_needed.1 need).mono (fun _ => id) fun y mem' => ?_)
    obtain ⟨required, root, open_⟩ := mem_wanted.1 mem'
    obtain ⟨d', target, same⟩ := mem_roots.1 root
    cases same
    rw [mem_singleton] at target
    subst target
    exact mem_wanted.2 ⟨_, mem_roots.2 ⟨_, mem, rfl⟩, open_⟩

/-- The same derivations and dependencies. -/
def SameGraph (db db' : Db) : Prop := db'.derivations = db.derivations ∧ db'.dependencies = db.dependencies

theorem SameGraph.outputs (same : SameGraph db db') : db'.outputs = db.outputs := by
  funext drv
  simp only [Db.outputs, Db.derivation?, same.1]

theorem SameGraph.mem_needed (same : SameGraph db db') : x ∈ db'.needed targets available ↔ x ∈ db.needed targets available := by
  have realized : db'.realized = db.realized := by
    funext available drv required
    simp only [Db.realized, same.outputs]
  have roots : db'.roots = db.roots := by
    funext targets
    simp only [Db.roots, same.outputs]
  simp only [Experiment.mem_needed, Db.unrealized, Db.wanted, same.2, realized, roots]

end

/-! `BuildGraph.needed` in every order of its worklist: what is demanded from the targets on. -/

open Relation

variable {db : Db} {available : List StorePath} {targets : List Drv} {d : Drv}

/-! ### Demands -/

/-- No output is listed, or one is unknown or not available. -/
def Db.Demands (db : Db) (available : List StorePath) (drv : Drv) (required : List String) : Prop :=
  required = [] ∨ ∃ k ∈ required, ∀ p, (db.outputs drv).path k = some p → p ∉ available

/-- All outputs are required of a target, and of an input those of its edge. -/
inductive Db.Needs (db : Db) (targets : List Drv) (available : List StorePath) : Drv → Prop
  | target {d : Drv} : d ∈ targets → db.Demands available d ((db.outputs d).map (·.1)) → db.Needs targets available d
  | input {d : Drv} {e : Dependency} : db.Needs targets available d → e ∈ db.dependencies → e.parent = d →
      db.Demands available e.child e.outputs → db.Needs targets available e.child

theorem realized_false {required : List String} : db.realized available d required = false ↔ db.Demands available d required := by
  rw [Db.realized, Db.Demands, Bool.and_eq_false_iff, all_eq_false]
  refine or_congr (by simp) (exists_congr fun k => and_congr_right fun _ => ?_)
  cases (db.outputs d).path k <;> simp

theorem mem_requirements {r : Drv × List String} :
    r ∈ db.requirements d ↔ ∃ e ∈ db.dependencies, e.parent = d ∧ (e.child, e.outputs) = r := by
  simp only [Db.requirements, mem_map, mem_filter, decide_eq_true_eq, and_assoc]

/-! ### Turns of the loop -/

/-- The worklist, and what has been found to be needed. -/
structure Visiting where
  todo : Todo
  needed : List Drv

/-- One turn of the loop, whichever item is taken and wherever its requirements go. -/
inductive Db.Turn (db : Db) (available : List StorePath) : Visiting → Visiting → Prop
  | skip {todo todo' : Todo} {needed : List Drv} {drv : Drv} {required : List String} : todo.Perm ((drv, required) :: todo') →
      db.realized available drv required ∨ drv ∈ needed → db.Turn available ⟨todo, needed⟩ ⟨todo', needed⟩
  | visit {todo todo' rest : Todo} {needed : List Drv} {drv : Drv} {required : List String} : todo.Perm ((drv, required) :: rest) →
      db.realized available drv required = false → drv ∉ needed → todo'.Perm (db.requirements drv ++ rest) →
      db.Turn available ⟨todo, needed⟩ ⟨todo', drv :: needed⟩

def Visiting.weight (db : Db) (v : Visiting) : Nat := v.todo.length + db.unvisited v.needed

variable {v v' : Visiting}

theorem Db.Turn.weight (turn : db.Turn available v v') : v'.weight db < v.weight db := by
  cases turn with
  | skip taken =>
    rw [Visiting.weight, Visiting.weight, taken.length_eq, length_cons]
    dsimp only
    omega
  | visit taken _ new put =>
    have count : (db.requirements _).length + _ = db.unvisited _ := unvisited_cons new
    rw [Visiting.weight, Visiting.weight, taken.length_eq, put.length_eq, length_cons, length_append]
    dsimp only
    omega

theorem turns_end : WellFounded (fun v' v => db.Turn available v v') :=
  Subrelation.wf (fun turn => turn.weight) (InvImage.wf (Visiting.weight db) Nat.lt_wfRel.wf)

theorem turn_possible (open_ : v.todo ≠ []) : ∃ v', db.Turn available v v' := by
  obtain ⟨todo, needed⟩ := v
  cases todo with
  | nil => exact absurd rfl open_
  | cons r todo =>
    by_cases skips : db.realized available r.1 r.2 ∨ r.1 ∈ needed
    · exact ⟨⟨todo, needed⟩, .skip (.refl _) skips⟩
    · rw [not_or, Bool.not_eq_true] at skips
      exact ⟨⟨_, _⟩, .visit (.refl _) skips.1 skips.2 (.refl _)⟩

/-! ### What is found -/

/-- A derivation is found, or still on the worklist with a demand. -/
def Visiting.Owes (db : Db) (available : List StorePath) (v : Visiting) (d : Drv) : Prop :=
  d ∈ v.needed ∨ ∃ required, (d, required) ∈ v.todo ∧ db.Demands available d required

/-- Only what is needed is found, and what is found owes its requirements. -/
structure Visited (db : Db) (targets : List Drv) (available : List StorePath) (v : Visiting) : Prop where
  once : v.needed.Nodup
  found : ∀ d ∈ v.needed, db.Needs targets available d
  pending : ∀ d required, (d, required) ∈ v.todo → db.Demands available d required → db.Needs targets available d
  targets : ∀ d ∈ targets, db.Demands available d ((db.outputs d).map (·.1)) → v.Owes db available d
  inputs : ∀ d ∈ v.needed, ∀ e ∈ db.dependencies, e.parent = d → db.Demands available e.child e.outputs → v.Owes db available e.child

theorem visited_start (start : todo.Perm (db.roots targets)) : Visited db targets available ⟨todo, []⟩ where
  once := nodup_nil
  found := nofun
  pending d required mem demands := by
    obtain ⟨d', target, same⟩ := mem_roots.1 (start.mem_iff.1 mem)
    cases same
    exact .target target demands
  targets d target demands := .inr ⟨_, start.mem_iff.2 (mem_roots.2 ⟨d, target, rfl⟩), demands⟩
  inputs := nofun

/-- A turn keeps what is owed: the item taken is available, or found. -/
theorem Db.Turn.owes (turn : db.Turn available v v') (owes : v.Owes db available d) : v'.Owes db available d := by
  cases turn with
  | skip taken skips =>
    rcases owes with found | ⟨required, mem, demands⟩
    · exact .inl found
    · rcases mem_cons.1 (taken.mem_iff.1 mem) with same | later
      · cases same
        rcases skips with done | found
        · rw [realized_false.2 demands] at done
          cases done
        · exact .inl found
      · exact .inr ⟨required, later, demands⟩
  | visit taken _ _ put =>
    rcases owes with found | ⟨required, mem, demands⟩
    · exact .inl (mem_cons_of_mem _ found)
    · rcases mem_cons.1 (taken.mem_iff.1 mem) with same | later
      · cases same
        exact .inl mem_cons_self
      · exact .inr ⟨required, put.mem_iff.2 (mem_append_right _ later), demands⟩

theorem Visited.turn (visited : Visited db targets available v) (turn : db.Turn available v v') :
    Visited db targets available v' := by
  have targets_ := fun d target demands => turn.owes (visited.targets d target demands)
  have inputs_ := fun d found e dep parent demands => turn.owes (visited.inputs d found e dep parent demands)
  cases turn with
  | skip taken _ =>
    exact ⟨visited.once, visited.found, fun d required mem => visited.pending d required (taken.mem_iff.2 (mem_cons_of_mem _ mem)),
      targets_, inputs_⟩
  | @visit todo todo' rest needed drv required taken demanded new put =>
    have here : db.Needs targets available drv :=
      visited.pending drv required (taken.mem_iff.2 mem_cons_self) (realized_false.1 demanded)
    refine ⟨nodup_cons.2 ⟨new, visited.once⟩, fun d mem => ?_, fun d required mem demands => ?_, targets_,
      fun d mem e dep parent demands => ?_⟩
    · rcases mem_cons.1 mem with rfl | mem
      · exact here
      · exact visited.found d mem
    · rcases mem_append.1 (put.mem_iff.1 mem) with mem | mem
      · obtain ⟨e, dep, parent, same⟩ := mem_requirements.1 mem
        cases same
        exact .input here dep parent demands
      · exact visited.pending d required (taken.mem_iff.2 (mem_cons_of_mem _ mem)) demands
    · rcases mem_cons.1 mem with rfl | mem
      · exact .inr ⟨e.outputs, put.mem_iff.2 (mem_append_left _ (mem_requirements.2 ⟨e, dep, parent, rfl⟩)), demands⟩
      · exact inputs_ d mem e dep parent demands

theorem visited_run (start : todo.Perm (db.roots targets))
    (run : ReflTransGen (db.Turn available) ⟨todo, []⟩ v) : Visited db targets available v := by
  induction run with
  | refl => exact visited_start start
  | tail _ turn ih => exact ih.turn turn

/-- With nothing left to visit, what is found is what is needed. -/
theorem Visited.complete (visited : Visited db targets available v) (done : v.todo = []) :
    d ∈ v.needed ↔ db.Needs targets available d := by
  have settled : ∀ {d}, v.Owes db available d → d ∈ v.needed := by
    rintro d (found | ⟨required, mem, -⟩)
    · exact found
    · rw [done] at mem
      cases mem
  refine ⟨visited.found d, fun needs => ?_⟩
  induction needs with
  | target target demands => exact settled (visited.targets _ target demands)
  | input _ dep parent demands ih => exact settled (visited.inputs _ ih _ dep parent demands)

/-- The loop of the source takes turns until nothing is left. -/
theorem neededLoop_turns : ∀ {n : Nat} (todo : Todo) (needed : List Drv), todo.length + db.unvisited needed ≤ n →
    ReflTransGen (db.Turn available) ⟨todo, needed⟩ ⟨[], db.neededLoop available n todo needed⟩ := by
  intro n
  induction n with
  | zero =>
    intro todo needed fuel
    rw [length_eq_zero_iff.1 (show todo.length = 0 by omega)]
    exact .refl
  | succ n ih =>
    intro todo needed fuel
    cases todo with
    | nil => exact .refl
    | cons r todo =>
      obtain ⟨drv, required⟩ := r
      rw [length_cons] at fuel
      rw [Db.neededLoop]
      split_ifs with skip
      · rw [Bool.or_eq_true, decide_eq_true_eq] at skip
        exact .head (.skip (.refl _) skip) (ih todo needed (by omega))
      · rw [Bool.or_eq_true, decide_eq_true_eq, not_or, Bool.not_eq_true] at skip
        have count : (db.requirements drv).length + _ = db.unvisited needed := unvisited_cons skip.2
        have turn : db.Turn available ⟨(drv, required) :: todo, needed⟩ ⟨(db.requirements drv).reverse ++ todo, drv :: needed⟩ :=
          .visit (.refl _) skip.1 skip.2 ((reverse_perm _).append_right todo)
        refine .head turn (ih _ _ ?_)
        rw [length_append, length_reverse]
        omega

theorem needed_turns (db : Db) (targets : List Drv) (available : List StorePath) :
    ReflTransGen (db.Turn available) ⟨db.roots targets, []⟩ ⟨[], db.needed targets available⟩ := by
  refine neededLoop_turns _ _ ?_
  have count : db.unvisited [] ≤ db.dependencies.length := length_filter_le _ _
  rw [Db.roots, length_reverse, length_map]
  omega

/-- In every order the worklist is emptied, and what was found then is what is demanded from the targets on; so it is for
the source's order, and the less the more is available. -/
theorem needed_demanded (db : Db) (targets : List Drv) (available : List StorePath) :
    WellFounded (fun v' v => db.Turn available v v') ∧ (∀ v : Visiting, v.todo ≠ [] → ∃ v', db.Turn available v v') ∧
    (∀ todo : Todo, todo.Perm (db.roots targets) → ∀ found, ReflTransGen (db.Turn available) ⟨todo, []⟩ ⟨[], found⟩ →
      found.Nodup ∧ ∀ d, d ∈ found ↔ db.Needs targets available d) ∧
    ReflTransGen (db.Turn available) ⟨db.roots targets, []⟩ ⟨[], db.needed targets available⟩ ∧
    (∀ d, d ∈ db.needed targets available ↔ db.Needs targets available d) ∧
    ∀ available', (∀ p ∈ available, p ∈ available') → ∀ d ∈ db.needed targets available', d ∈ db.needed targets available := by
  have exact_ : ∀ todo : Todo, todo.Perm (db.roots targets) → ∀ found, ReflTransGen (db.Turn available) ⟨todo, []⟩ ⟨[], found⟩ →
      found.Nodup ∧ ∀ d, d ∈ found ↔ db.Needs targets available d := by
    intro todo start found run
    have visited := visited_run start run
    exact ⟨visited.once, fun _ => visited.complete rfl⟩
  refine ⟨turns_end, fun v open_ => turn_possible open_, exact_, needed_turns db targets available, ?_,
    fun available' more d need => needed_anti more need⟩
  exact (exact_ _ (.refl _) _ (needed_turns db targets available)).2

end Experiment
