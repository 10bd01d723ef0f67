import Nanofil.Sarcasm.Typing

/-! Reuse of checks in the graphs that are lowered from functions and prepared. -/
namespace Nanofil.Sarcasm
open Results List Option Traversals

/-! ### Prepared graphs -/

section
variable {ids : List Nat} {on : Bool}

theorem probe_split {p i : Value} {scale offset width : Nat} {ops rest : List Op} {loads : List Load}
    (done : probe p i scale offset width ops = some (loads, rest)) : loads.map .load ++ rest = ops := by
  induction ops generalizing offset width loads with
  | nil =>
    cases width <;> cases done
    rfl
  | cons op ops ih =>
    cases width with
    | zero =>
      cases done
      rfl
    | succ remaining =>
      cases op with
      | load l =>
        rw [probe] at done
        split_ifs at done
        obtain ⟨⟨loads', rest'⟩, found, same⟩ := map_eq_some_iff.1 done
        cases same
        rw [map_cons, cons_append, ih found]
      | read | store | pointerLoad | pointerStore | assign | pointerCopy | pointerOffset | binary | compare | flagValues => cases done

theorem choose_split {l : Load} {ops rest : List Op} {sizes : List Nat} {width : Nat} {loads : List Load}
    (done : choose l ops sizes = (width, loads, rest)) : loads.map .load ++ rest = .load l :: ops := by
  induction sizes with
  | nil =>
    cases done
    rfl
  | cons size sizes ih =>
    rw [choose] at done
    split at done
    · rename_i found
      cases done
      exact probe_split found
    · exact ih done

theorem probe_some {p i : Value} {scale offset width : Nat} {ops rest : List Op} {loads : List Load}
    (done : probe p i scale offset (width + 1) ops = some (loads, rest)) : 0 < loads.length := by
  cases ops with
  | nil => cases done
  | cons op ops =>
    cases op with
    | load l =>
      rw [probe] at done
      split_ifs at done
      obtain ⟨⟨loads', rest'⟩, -, same⟩ := map_eq_some_iff.1 done
      cases same
      exact Nat.succ_pos _
    | read | store | pointerLoad | pointerStore | assign | pointerCopy | pointerOffset | binary | compare | flagValues => cases done

theorem choose_some {l : Load} {ops rest : List Op} {sizes : List Nat} (wide : ∀ size ∈ sizes, l.bytes < size) {width : Nat}
    {loads : List Load} (done : choose l ops sizes = (width, loads, rest)) : 0 < loads.length := by
  induction sizes with
  | nil =>
    cases done
    exact Nat.one_pos
  | cons size sizes ih =>
    have pos : 0 < size := Nat.zero_lt_of_lt (wide size mem_cons_self)
    obtain ⟨n, rfl⟩ := Nat.exists_eq_succ_of_ne_zero pos.ne'
    rw [choose] at done
    split at done
    · rename_i found
      cases done
      exact probe_some found
    · exact ih (fun size there => wide size (mem_cons_of_mem _ there)) done

/-- The loads of a read are those at the head of the operations, at least one. -/
theorem chosen_split {l : Load} {ops rest : List Op} {width : Nat} {loads : List Load}
    (done : (if on then choose l ops ([8, 4, 2].filter (l.bytes < ·)) else (l.bytes, [l], ops)) = (width, loads, rest)) :
    loads.map .load ++ rest = .load l :: ops ∧ 0 < loads.length := by
  split_ifs at done
  · exact ⟨choose_split done, choose_some (fun size there => of_decide_eq_true (mem_filter.1 there).2) done⟩
  · cases done
    exact ⟨rfl, Nat.one_pos⟩

theorem loads_defs (loads : List Load) : (loads.map Op.load).flatMap Op.defs = loads.map Load.node := by
  induction loads with
  | nil => rfl
  | cons l loads ih => rw [map_cons, flatMap_cons, ih, map_cons, Op.defs, singleton_append]

/-- Grouped loads make the same nodes, and reads come after what they use. -/
theorem planning_typed {fuel : Nat} {ops planned : List Op} (done : planning on fuel ops = some planned) (ordered : Ordered ids ops) :
    Ordered ids planned ∧ planned.flatMap Op.defs = ops.flatMap Op.defs := by
  induction fuel generalizing ids ops planned with
  | zero =>
    cases ops with
    | nil =>
      cases done
      exact ⟨trivial, rfl⟩
    | cons op ops => cases done
  | succ fuel ih =>
    cases ops with
    | nil =>
      cases done
      exact ⟨trivial, rfl⟩
    | cons op ops =>
      cases op with
      | load l =>
        rw [planning] at done
        have chosen := @chosen_split on l ops
        generalize (if on then choose l ops ([8, 4, 2].filter (l.bytes < ·)) else (l.bytes, [l], ops)) = choice at done chosen
        obtain ⟨width, loads, rest⟩ := choice
        have split : loads.map .load ++ rest = .load l :: ops := (chosen rfl).1
        obtain ⟨planned', later, rfl⟩ := map_eq_some_iff.1 done
        have addressed := ordered.1
        rw [← split, ordered_append, loads_defs] at ordered
        obtain ⟨ordered', same⟩ := ih later ordered.2
        refine ⟨⟨addressed, ordered'⟩, ?_⟩
        rw [← split, flatMap_append, loads_defs, flatMap_cons, same, Op.defs]
      | read | store | pointerLoad | pointerStore | assign | pointerCopy | pointerOffset | binary | compare | flagValues =>
        obtain ⟨planned', later, rfl⟩ := map_eq_some_iff.1 done
        obtain ⟨ordered', same⟩ := ih later ordered.2
        exact ⟨⟨ordered.1, ordered'⟩, by rw [flatMap_cons, flatMap_cons, same]⟩

/-- Each read takes an operation, so all are planned. -/
theorem planning_total {fuel : Nat} {ops : List Op} (enough : ops.length ≤ fuel) : ∃ planned, planning on fuel ops = some planned := by
  induction fuel generalizing ops with
  | zero =>
    rw [length_eq_zero_iff.1 (Nat.le_zero.1 enough)]
    exact ⟨[], rfl⟩
  | succ fuel ih =>
    cases ops with
    | nil => exact ⟨[], rfl⟩
    | cons op ops =>
      rw [length_cons] at enough
      cases op with
      | load l =>
        rw [planning]
        have chosen := @chosen_split on l ops
        generalize (if on then choose l ops ([8, 4, 2].filter (l.bytes < ·)) else (l.bytes, [l], ops)) = choice at chosen ⊢
        obtain ⟨width, loads, rest⟩ := choice
        obtain ⟨split, pos⟩ := chosen rfl
        have lengths := congrArg List.length split
        rw [length_append, length_map, length_cons] at lengths
        obtain ⟨planned, done⟩ := @ih rest (by omega)
        exact ⟨_, by dsimp only; rw [done]; rfl⟩
      | read | store | pointerLoad | pointerStore | assign | pointerCopy | pointerOffset | binary | compare | flagValues =>
        obtain ⟨planned, done⟩ := @ih ops (by omega)
        exact ⟨_, congrArg (Option.map _) done⟩

/-- What is prepared of a block: its reads, all else as it was. -/
structure Prepared (on : Bool) (b b' : Block) : Prop where
  label : b'.id = b.id
  term : b'.term = b.term
  planned : planning on b.ops.length b.ops = some b'.ops

theorem prepareBlock_spec {b b' : Block} (done : prepareBlock on b = some b') : Prepared on b b' := by
  simp only [prepareBlock, bind_found, pure_found] at done
  obtain ⟨ops, planned, rfl⟩ := done
  exact ⟨rfl, rfl, planned⟩

theorem prepare_typed {g g' : Graph} (typed : Typed g) (done : prepare on g = some g') : Typed g' := by
  simp only [prepare, bind_found, pure_found] at done
  obtain ⟨blocks, prepared, rfl⟩ := done
  have each := (mapM_forall₂ prepared).imp fun _ _ => prepareBlock_spec
  have labels : g.blocks.map (·.id) = blocks.map (·.id) := forall₂_maps (each.imp fun _ _ same => same.label.symm)
  have arcs : g.arcs = (⟨g.entry, blocks⟩ : Graph).arcs := by
    have same : g.blocks.map blockArcs = blocks.map blockArcs :=
      forall₂_maps (each.imp fun _ _ same => by rw [blockArcs, blockArcs, same.label, same.term])
    rw [Graph.arcs, Graph.arcs, flatMap_def, flatMap_def, same]
  have incoming : ∀ n, (⟨g.entry, blocks⟩ : Graph).incoming n = g.incoming n :=
    fun n => by rw [Graph.incoming, Graph.incoming, arcs]
  have source : ∀ b ∈ blocks, ∃ b' ∈ g.blocks, Prepared on b' b := fun b there => forall₂_of_left each.flip there
  refine ⟨labels ▸ typed.labels, fun b there => ?_, fun b there => ?_, arcs ▸ typed.pointers, fun b there => ?_⟩
  · obtain ⟨b', here, same⟩ := source b there
    exact (planning_typed same.planned (typed.ordered b' here)).1
  · obtain ⟨b', here, same⟩ := source b there
    rw [(planning_typed same.planned (typed.ordered b' here)).2]
    exact typed.once b' here
  · obtain ⟨b', here, same⟩ := source b there
    rw [incoming, same.label]
    exact typed.entered b' here

end

/-! ### Reuse -/

/-- In a function's graph a certificate that validates holds in every execution, and each that the search finds validates. -/
theorem reuse_sound {analysis : Nat → Abstract} {integer on : Bool} {name : String} {items : List Item} {lowered g : Graph}
    (lowers : lower analysis integer name items = some lowered) (prepares : prepare on lowered = some g) :
    (∀ r, validate g r = .ok () → ∀ {π : Type} {h : List (Event π)} {env : Env π}, Run g h r.target env →
      ∃ o, g.operation r.target = some o ∧ o.event.access = some r.need ∧ Protected g h r.witness r.need env) ∧
    ∀ limit ds, analyze g limit = .ok ds → ∀ r, .covered r ∈ ds → validate g r = .ok () := by
  have typed := prepare_typed (lower_typed lowers) prepares
  refine ⟨fun r ok _ _ _ run => validate_protects typed ok run, fun limit ds done => ?_⟩
  exact decisions_validate typed (fun _ there => there) done

/-- Reads eight bytes and then one of them again. -/
def again : List Item :=
  [.action (.load ⟨⟨.rdi, 64⟩, .immediate 0, 1, 0⟩ 8 ⟨.rax, 64⟩), .action (.load ⟨⟨.rdi, 64⟩, .immediate 0, 1, 3⟩ 1 ⟨.rcx, 32⟩),
    .action (.return_ ⟨.rax, 64⟩)]

def pointerOnly (_ : Nat) : Abstract := ⟨fun r => if r = .rdi then [.pointer] else [.uninitialized], fun _ => false⟩

def rdi : Value := .param 0 (.reg .rdi)

def eight : Load := ⟨0, rdi, .literal 0, 1, 0, 8⟩

def one : Load := ⟨1, rdi, .literal 0, 1, 3, 1⟩

def againGraph (ops : List Op) : Graph :=
  ⟨⟨0, [⟨rdi, .pointer, .arg 0⟩]⟩, [⟨0, [⟨.reg .rdi, .pointer⟩], ops, .return_ (.view (.node 0) 64)⟩]⟩

def readEight : Op := .read rdi (.literal 0) 1 0 8 [eight]

def againRead : Graph := againGraph [readEight, .read rdi (.literal 0) 1 3 1 [one]]

def readOf (low width : Nat) : Protection := requirement rdi (.literal 0) 1 low width .read 1 .integer

def zeros : Env Unit := ⟨fun _ => 0, fun _ => ()⟩

theorem reuse_sound_again : Run againRead [.op ⟨0, 0⟩ readEight zeros] ⟨0, 1⟩ zeros ∧
    Protected againRead [.op ⟨0, 0⟩ readEight zeros] ⟨0, 0⟩ (readOf 3 1) zeros := by
  have lowers : lower pointerOnly false "f" again = some (againGraph [.load eight, .load one]) := rfl
  have prepares : prepare true (againGraph [.load eight, .load one]) = some againRead := rfl
  have ok : validate againRead ⟨⟨0, 1⟩, readOf 3 1, ⟨0, 1⟩, ⟨0, 0⟩, .checked ⟨0, 0⟩ (readOf 0 8)⟩ = .ok () := rfl
  have run : Run againRead [.op ⟨0, 0⟩ readEight zeros] ⟨0, 1⟩ zeros := by
    have enters : Enters againRead.entry.copies zeros zeros := by
      refine ⟨fun c there integer => ?_, fun _ _ _ => rfl⟩
      cases mem_singleton.1 there
      cases integer
    exact .exec (.start enters) rfl fun _ _ => ⟨rfl, rfl⟩
  obtain ⟨o, -, -, protected_⟩ := (reuse_sound lowers prepares).1 _ ok run
  exact ⟨run, protected_⟩

end Nanofil.Sarcasm
