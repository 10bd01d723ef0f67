import Nanofil.Sarcasm.Search
import Nanofil.Lib.Traversals

/-! The graphs that the lowering makes are typed: each node's result is made once, before
the reads that use it, and each block is entered. -/
namespace Nanofil.Sarcasm
open Results List Option Traversals

/-! ### The steps of a block -/

section
variable {ids : List Nat} {st : RegState} {bs : Bindings}

/-- A value that may be a pointer's: known, and no view. -/
def PointerKnown (ids : List Nat) (x : Value) : Prop := x.Known ids ∧ normalize x = x

def Found.Known (ids : List Nat) : Found → Prop
  | .int x => x.Known ids
  | .ptr x => PointerKnown ids x
  | .incompatible => True

def Operand.Known (ids : List Nat) : Operand → Prop
  | .scalar x => x.Known ids
  | .pointer x => PointerKnown ids x

/-- What registers hold is known. -/
def StateKnown (ids : List Nat) (st : RegState) : Prop := ∀ r found, (r, found) ∈ st → found.Known ids

def BindingsKnown (ids : List Nat) (bs : Bindings) : Prop := ∀ r o, (r, o) ∈ bs → o.Known ids

theorem mem_of_lookup {α β : Type} [DecidableEq α] {xs : List (α × β)} {a : α} {b : β} (found : xs.lookup a = some b) :
    (a, b) ∈ xs := by
  induction xs with
  | nil => cases found
  | cons x xs ih =>
    obtain ⟨a', b'⟩ := x
    rw [lookup_cons] at found
    split at found
    · rename_i same
      cases found
      rw [eq_of_beq same]
      exact mem_cons_self
    · exact mem_cons_of_mem _ (ih found)

theorem StateKnown.mono {ids' : List Nat} (known : StateKnown ids st) (sub : ∀ n ∈ ids, n ∈ ids') : StateKnown ids' st := by
  intro r found there
  have was := known r found there
  cases found with
  | int x => exact was.mono sub
  | ptr x => exact was.imp (fun known => known.mono sub) id
  | incompatible => trivial

theorem resolveRead_known (known : StateKnown ids st) {read : Register × ReadType} {r : Register} {o : Operand}
    (done : resolveRead st read = some (r, o)) : o.Known ids := by
  rw [resolveRead] at done
  split at done
  · rename_i x found
    split_ifs at done
    cases done
    have held : (Found.int x).Known ids := known _ _ (mem_of_lookup found)
    exact held
  · rename_i x found
    split_ifs at done
    cases done
    have held : (Found.ptr x).Known ids := known _ _ (mem_of_lookup found)
    exact held
  · cases done

theorem bindings_known (known : StateKnown ids st) {reads : List (Register × ReadType)}
    (done : reads.mapM (resolveRead st) = some bs) : BindingsKnown ids bs := by
  intro r o there
  obtain ⟨read, -, same⟩ := forall₂_of_left (mapM_forall₂ done).flip there
  exact resolveRead_known known same

theorem resolvedScalar_known (known : BindingsKnown ids bs) {s : Source} {x : Value} (done : resolvedScalar bs s = some x) :
    x.Known ids := by
  rw [resolvedScalar] at done
  split at done
  · rename_i y found
    cases done
    cases s with
    | immediate n =>
      cases found
      trivial
    | register r => exact known _ _ (mem_of_lookup found)
  · cases done

theorem resolvedPointer_known (known : BindingsKnown ids bs) {r : Register} {x : Value} (done : resolvedPointer bs r = some x) :
    PointerKnown ids x := by
  rw [resolvedPointer] at done
  split at done
  · rename_i y found
    cases done
    exact known _ _ (mem_of_lookup found)
  · cases done

variable {a : Action}

/-- A lowered action reads known addresses, and makes its own node's result where it writes a register. -/
theorem lowerAction_op (known : BindingsKnown ids bs) {n : Nat} {op : Op} (done : lowerAction bs n a = some (.op op)) :
    op.Addressed ids ∧ (op.defs = [n] ∨ op.defs = [] ∧ (actionEffects a).writes = []) := by
  cases a with
  | load a bytes r =>
    simp only [lowerAction, bind_found, pure_found, Lowered.op.injEq] at done
    obtain ⟨p, pointer, i, index, rfl⟩ := done
    exact ⟨⟨(resolvedPointer_known known pointer).1, resolvedScalar_known known index⟩, .inl rfl⟩
  | store a bytes s =>
    simp only [lowerAction, bind_found, pure_found, Lowered.op.injEq] at done
    obtain ⟨p, -, i, -, x, -, rfl⟩ := done
    exact ⟨trivial, .inr ⟨rfl, rfl⟩⟩
  | pointerLoad a r =>
    simp only [lowerAction, bind_found, pure_found, Lowered.op.injEq] at done
    obtain ⟨p, -, i, -, rfl⟩ := done
    exact ⟨trivial, .inl rfl⟩
  | pointerStore a s =>
    simp only [lowerAction, bind_found, pure_found, Lowered.op.injEq] at done
    obtain ⟨p, -, i, -, x, -, rfl⟩ := done
    exact ⟨trivial, .inr ⟨rfl, rfl⟩⟩
  | move s r =>
    simp only [lowerAction, bind_found, pure_found, Lowered.op.injEq] at done
    obtain ⟨x, -, rfl⟩ := done
    exact ⟨trivial, .inl rfl⟩
  | copy s r =>
    rw [lowerAction] at done
    split at done
    · cases done
      exact ⟨trivial, .inl rfl⟩
    · cases done
      exact ⟨trivial, .inl rfl⟩
    · cases done
  | pointerOffset a r =>
    simp only [lowerAction, bind_found, pure_found, Lowered.op.injEq] at done
    obtain ⟨p, -, i, -, rfl⟩ := done
    exact ⟨trivial, .inl rfl⟩
  | binary k s r =>
    simp only [lowerAction, bind_found, pure_found, Lowered.op.injEq] at done
    obtain ⟨x, -, y, -, rfl⟩ := done
    exact ⟨trivial, .inl rfl⟩
  | shift k count r =>
    simp only [lowerAction, bind_found, pure_found, Lowered.op.injEq] at done
    obtain ⟨x, -, rfl⟩ := done
    exact ⟨trivial, .inl rfl⟩
  | compare k s r =>
    simp only [lowerAction, bind_found, pure_found, Lowered.op.injEq] at done
    obtain ⟨x, -, y, -, rfl⟩ := done
    exact ⟨trivial, .inr ⟨rfl, rfl⟩⟩
  | return_ r =>
    simp only [lowerAction, bind_found, pure_found] at done
    obtain ⟨x, -, no⟩ := done
    cases no
  | jump l => cases done
  | branch c l => cases done

theorem applyWrites_known (known : StateKnown ids st) {n : Nat} (made : n ∈ ids) {writes : List (Register × WriteType)}
    {st' : RegState}
    (done : applyWrites bs n writes st = some st') : StateKnown ids st' := by
  induction writes generalizing st with
  | nil =>
    cases done
    exact known
  | cons w writes ih =>
    obtain ⟨r, type⟩ := w
    simp only [applyWrites, bind_found] at done
    obtain ⟨found, value, done⟩ := done
    refine ih (fun r' found' there => ?_) done
    rcases mem_cons.1 there with same | there
    · cases same
      cases type with
      | integer =>
        cases value
        exact made
      | pointer =>
        cases value
        exact ⟨made, rfl⟩
      | sameTypeAs s =>
        rw [writtenValue] at value
        split at value <;> cases value
        · exact ⟨made, rfl⟩
        · exact made
    · exact known r' found' (mem_filter.1 there).1

theorem transfer_ops {n : Nat} {fs fs' : FlagState} {ops : List Op} (done : transfer a bs n fs = some (ops, fs')) :
    ∀ op ∈ ops, op.defs = [] ∧ op.Addressed ids := by
  rw [transfer] at done
  dsimp only at done
  split_ifs at done with all none
  · cases done
    nofun
  · obtain ⟨op, made, same⟩ := bind_eq_some_iff.1 done
    cases same
    intro op' there
    rw [mem_singleton.1 there]
    cases a with
    | binary | compare =>
      simp only [recipe, bind_found, pure_found] at made
      obtain ⟨x, -, y, -, rfl⟩ := made
      exact ⟨rfl, trivial⟩
    | shift =>
      simp only [recipe, bind_found, pure_found] at made
      obtain ⟨x, -, rfl⟩ := made
      exact ⟨rfl, trivial⟩
    | load | store | pointerLoad | pointerStore | move | copy | pointerOffset | jump | branch | return_ => cases made
  · cases done
  · cases done

/-! ### The operations of a block -/

theorem ordered_append {xs ys : List Op} : Ordered ids (xs ++ ys) ↔ Ordered ids xs ∧ Ordered (ids ++ xs.flatMap Op.defs) ys := by
  induction xs generalizing ids with
  | nil => simp [Ordered]
  | cons x xs ih => simp [Ordered, ih, and_assoc]

theorem ordered_of_addressed {xs : List Op} (each : ∀ op ∈ xs, op.defs = [] ∧ op.Addressed ids) :
    Ordered ids xs ∧ xs.flatMap Op.defs = [] := by
  induction xs with
  | nil => exact ⟨trivial, rfl⟩
  | cons x xs ih =>
    obtain ⟨none, addressed⟩ := each x mem_cons_self
    obtain ⟨ordered, nones⟩ := ih fun op there => each op (mem_cons_of_mem x there)
    rw [Ordered, flatMap_cons, none, nones, append_nil]
    exact ⟨⟨addressed, ordered⟩, rfl⟩

theorem lowerStep_spec (known : StateKnown ids st) {n : Nat} {lowered : Lowered} {next : RegState}
    (done : lowerStep a st n = some (lowered, next, bs)) : BindingsKnown ids bs ∧ lowerAction bs n a = some lowered ∧
      applyWrites bs n (actionEffects a).writes st = some next := by
  simp only [lowerStep, bind_found, pure_found, Prod.mk.injEq] at done
  obtain ⟨bs', bound, lowered', action, next', writes, rfl, rfl, rfl⟩ := done
  exact ⟨bindings_known known bound, action, writes⟩

/-- A step's operation reads known addresses, and the registers after it hold what its nodes make known. -/
theorem lowerStep_op (known : StateKnown ids st) {n : Nat} {op : Op} {next : RegState}
    (done : lowerStep a st n = some (.op op, next, bs)) :
    op.Addressed ids ∧ op.defs.Sublist [n] ∧ StateKnown (ids ++ op.defs) next := by
  obtain ⟨bound, action, writes⟩ := lowerStep_spec known done
  obtain ⟨addressed, ⟨made⟩ | ⟨made, silent⟩⟩ := lowerAction_op bound action
  · rw [made]
    have later := known.mono fun m there => mem_append_left [n] there
    exact ⟨addressed, List.Sublist.refl _, applyWrites_known later (mem_append_right ids mem_cons_self) writes⟩
  · rw [silent] at writes
    cases writes
    rw [made, append_nil]
    exact ⟨addressed, nil_sublist _, known⟩

theorem lowerNodes_typed {nodes : List (Nat × Action)} {fs outFlags : FlagState} {ops : List Op} {out : RegState}
    (known : StateKnown ids st) (done : lowerNodes nodes st fs = some (ops, out, outFlags)) :
    Ordered ids ops ∧ (ops.flatMap Op.defs).Sublist (nodes.map (·.1)) ∧ StateKnown (ids ++ ops.flatMap Op.defs) out := by
  induction nodes generalizing ids st fs ops out outFlags with
  | nil =>
    cases done
    rw [flatMap_nil, append_nil]
    exact ⟨trivial, List.Sublist.refl _, known⟩
  | cons node nodes ih =>
    obtain ⟨n, a⟩ := node
    simp only [lowerNodes, bind_found, Prod.exists] at done
    obtain ⟨lowered, next, bs, step, flagOps, nextFlags, flagged, rest, out', outFlags', later, done⟩ := done
    -- What is emitted for the node: its operation, which a comparison drops, and its flags.
    have emits : ∀ {op : Op} {emitted : List Op}, lowered = .op op → Ordered ids emitted → emitted.flatMap Op.defs = op.defs →
        Ordered ids (emitted ++ rest) ∧ ((emitted ++ rest).flatMap Op.defs).Sublist (n :: nodes.map (·.1)) ∧
          StateKnown (ids ++ (emitted ++ rest).flatMap Op.defs) out' := by
      rintro op emitted rfl ordered defs
      obtain ⟨-, own, after⟩ := lowerStep_op known step
      obtain ⟨orderedRest, others, held⟩ := ih after later
      rw [ordered_append, flatMap_append, defs, ← append_assoc]
      exact ⟨⟨ordered, orderedRest⟩, own.append others, held⟩
    obtain ⟨quiet, none⟩ := ordered_of_addressed (transfer_ops flagged)
    split at done
    · cases done
      exact emits rfl quiet none
    · cases done
      rename_i op _
      obtain ⟨addressed, -, -⟩ := lowerStep_op known step
      have ordered : Ordered ids (op :: flagOps) := ⟨addressed, (ordered_of_addressed (transfer_ops flagged)).1⟩
      refine emits rfl ordered ?_
      rw [flatMap_cons, none, append_nil]
    · cases done

end

/-! ### Blocks -/

section
variable {b n : Nat} {items : List Item} {labels : List String} {steps : List (Nat × Action)} {raw : List RawBlock}

def nodeIds : List NumberedItem → List Nat
  | [] => []
  | .label _ :: items => nodeIds items
  | .node n _ :: items => n :: nodeIds items

theorem nodes_once : (nodeIds (nodes items n)).Nodup ∧ ∀ m ∈ nodeIds (nodes items n), n ≤ m := by
  induction items generalizing n with
  | nil => exact ⟨nodup_nil, nofun⟩
  | cons item items ih =>
    cases item with
    | label l => exact ih
    | action a =>
      obtain ⟨once, above⟩ := @ih (n + 1)
      refine ⟨nodup_cons.2 ⟨fun there => absurd (above n there) (by omega), once⟩, fun m there => ?_⟩
      rcases mem_cons.1 there with rfl | there
      · exact le_rfl
      · exact (Nat.le_succ n).trans (above m there)

/-- Blocks are numbered upwards, and have each of the nodes once. -/
structure Blocked (b : Nat) (raw : List RawBlock) : Prop where
  labels : (raw.map (·.id)).Nodup
  above : ∀ r ∈ raw, b ≤ r.id
  once : ∀ r ∈ raw, (r.steps.map (·.1)).Nodup

theorem Blocked.cons {r : RawBlock} (rest : Blocked (b + 1) raw) (label : r.id = b) (once : (r.steps.map (·.1)).Nodup) :
    Blocked b (r :: raw) where
  labels := by
    refine nodup_cons.2 ⟨fun there => ?_, rest.labels⟩
    obtain ⟨r', here, same⟩ := List.mem_map.1 there
    have above : b + 1 ≤ r'.id := rest.above r' here
    have same : r'.id = r.id := same
    omega
  above r' there := by
    rcases mem_cons.1 there with rfl | there
    · exact label.ge
    · exact (Nat.le_succ b).trans (rest.above r' there)
  once r' there := by
    rcases mem_cons.1 there with rfl | there
    · exact once
    · exact rest.once r' there

theorem blocks_blocked {items : List NumberedItem} (done : blocks items b labels steps = some raw)
    (once : (steps.reverse.map (·.1) ++ nodeIds items).Nodup) : Blocked b raw := by
  induction items generalizing b labels steps raw with
  | nil =>
    cases labels <;> cases steps <;> simp only [blocks, Option.some.injEq, reduceCtorEq] at done
    subst done
    exact ⟨nodup_nil, forall_mem_nil _, forall_mem_nil _⟩
  | cons item items ih =>
    have own := (nodup_append.1 once).1
    cases item with
    | label l =>
      cases steps with
      | nil =>
        rw [blocks] at done
        exact ih done once
      | cons step steps =>
        simp only [blocks, bind_found, pure_found] at done
        obtain ⟨rest, later, rfl⟩ := done
        exact (ih later (nodup_append.1 once).2.1).cons rfl own
    | node n a =>
      rw [blocks] at done
      split_ifs at done
      · simp only [bind_found, pure_found] at done
        obtain ⟨rest, later, rfl⟩ := done
        exact (ih later (nodup_cons.1 (nodup_append.1 once).2.1).2).cons rfl own
      · refine ih done ?_
        rw [reverse_cons, map_append, append_assoc]
        exact once

/-- Each block that is reached is the first or comes after one that is. -/
theorem reachable_origin {bs : List ResolvedBlock} {fuel : Nat} {queue seen all : List Nat}
    (done : reachable bs fuel queue seen = some all)
    (origin : ∀ c, c ∈ queue ∨ c ∈ seen → c = 0 ∨ ∃ p ∈ seen, ∃ r ∈ bs, r.id = p ∧ c ∈ successors r.term) :
    ∀ c ∈ all, c = 0 ∨ ∃ p ∈ all, ∃ r ∈ bs, r.id = p ∧ c ∈ successors r.term := by
  induction fuel generalizing queue seen with
  | zero =>
    cases queue with
    | nil =>
      cases done
      exact fun c there => origin c (.inr there)
    | cons b queue => cases done
  | succ fuel ih =>
    cases queue with
    | nil =>
      cases done
      exact fun c there => origin c (.inr there)
    | cons b queue =>
      rw [reachable] at done
      split_ifs at done with old
      · exact ih done fun c there => origin c (there.imp (mem_cons_of_mem b) id)
      · simp only [bind_found] at done
        obtain ⟨r, found, later⟩ := done
        have label : r.id = b := by simpa using find?_some found
        refine ih later fun c there => ?_
        have before : c ∈ b :: queue ∨ c ∈ seen → c = 0 ∨ ∃ p ∈ b :: seen, ∃ r ∈ bs, r.id = p ∧ c ∈ successors r.term := by
          intro there
          refine (origin c there).imp id ?_
          rintro ⟨p, seen, after⟩
          exact ⟨p, mem_cons_of_mem b seen, after⟩
        rcases there with there | there
        · rcases mem_append.1 there with next | waits
          · exact .inr ⟨b, mem_cons_self, r, mem_of_find?_eq_some found, label, next⟩
          · exact before (.inl (mem_cons_of_mem b waits))
        · rcases mem_cons.1 there with rfl | there
          · exact before (.inl mem_cons_self)
          · exact before (.inr there)

end

/-! ### Edges -/

variable {integer : Bool}

section
variable {ids : List Nat} {st : RegState} {fs : FlagState} {bounds : List Bound}

/-- The pointers that an edge's copies hand on are no views. -/
def Copied (copies : List Copy) : Prop := ∀ c ∈ copies, c.type = .pointer → normalize c.source = c.source

theorem connectEdge_spec (known : StateKnown ids st) {b : Nat} {e : Edge} (done : connectEdge bounds st fs b = some e) :
    e.target = b ∧ Copied e.copies := by
  simp only [connectEdge, bind_found, pure_found] at done
  obtain ⟨target, -, copies, inputs, rfl⟩ := done
  refine ⟨rfl, fun c there pointer => ?_⟩
  obtain ⟨p, -, input⟩ := forall₂_of_left (mapM_forall₂ inputs).flip there
  rw [copyInput] at input
  split at input
  · split at input <;> cases input
    cases pointer
  · split at input
    · rename_i x found
      cases input
      have held : (Found.ptr x).Known ids := known _ _ (mem_of_lookup found)
      exact held.2
    · cases input
  · obtain ⟨x, -, rfl⟩ := map_eq_some_iff.1 input
    cases pointer
  · cases input

def BoundTerm.targets : BoundTerm → List Nat
  | .return_ _ => []
  | .jump b => [b]
  | .branch _ yes no => [yes, no]

theorem connectTerm_spec (known : StateKnown ids st) {bound : BoundTerm} {t : Term} (done : connectTerm bounds st fs bound = some t) :
    t.edges.map (·.2.target) = bound.targets ∧ ∀ e ∈ t.edges, Copied e.2.copies := by
  cases bound with
  | return_ x =>
    cases done
    exact ⟨rfl, nofun⟩
  | jump b =>
    simp only [connectTerm, bind_found, pure_found] at done
    obtain ⟨e, edge, rfl⟩ := done
    obtain ⟨target, copied⟩ := connectEdge_spec known edge
    simp [Term.edges, BoundTerm.targets, target, copied]
  | branch c yes no =>
    simp only [connectTerm, bind_found, pure_found] at done
    obtain ⟨e, edge, e', edge', rfl⟩ := done
    obtain ⟨target, copied⟩ := connectEdge_spec known edge
    obtain ⟨target', copied'⟩ := connectEdge_spec known edge'
    simp [Term.edges, BoundTerm.targets, target, copied, target', copied']

theorem lowerTerm_targets {t : ResolvedTerm} {bound : BoundTerm} (done : lowerTerm st fs t = some bound) :
    bound.targets = successors t := by
  cases t with
  | return_ n a =>
    simp only [lowerTerm, bind_found] at done
    obtain ⟨⟨lowered, next, bs⟩, -, done⟩ := done
    cases lowered <;> cases done
    rfl
  | jump b =>
    cases done
    rfl
  | branch c yes no =>
    simp only [lowerTerm, bind_found, pure_found] at done
    obtain ⟨c', -, rfl⟩ := done
    rfl

theorem registerState_known {b : Nat} {types : Root → List Typing} : StateKnown [] (registerState b types) := by
  intro r found there
  obtain ⟨root, -, input⟩ := mem_filterMap.1 there
  rw [registerInput] at input
  split_ifs at input <;> cases input
  · trivial
  · exact ⟨trivial, rfl⟩
  · trivial

theorem initialState_known : StateKnown [] (initialState integer) := by
  intro r found there
  rcases mem_cons.1 there with same | there
  · cases same
    exact ⟨trivial, rfl⟩
  · cases integer with
    | false => cases there
    | true =>
      cases mem_singleton.1 there
      trivial

end

/-! ### Graphs -/

section
variable {analysis : Nat → Abstract} {bounds : List Bound}

/-- What is lowered of a block: reads come after the nodes they use, each node is made once, and pointers are no views. -/
structure BlockTyped (r : ResolvedBlock) (b : Bound) : Prop where
  label : b.id = r.id
  ordered : Ordered [] b.ops
  nodes : (b.ops.flatMap Op.defs).Sublist (r.steps.map (·.1))
  out : StateKnown (b.ops.flatMap Op.defs) b.out
  targets : b.term.targets = successors r.term

theorem lowerBlock_typed {r : ResolvedBlock} {b : Bound} (done : lowerBlock analysis r = some b) : BlockTyped r b := by
  simp only [lowerBlock, bind_found, pure_found, Prod.exists] at done
  obtain ⟨ops, out, outFlags, steps, term, ends, rfl⟩ := done
  obtain ⟨ordered, nodes, held⟩ := lowerNodes_typed registerState_known steps
  exact ⟨rfl, ordered, nodes, held, lowerTerm_targets ends⟩

/-- What is connected of a block: its operations, and an edge to each target. -/
structure Connected (bound : Bound) (b : Block) : Prop where
  label : b.id = bound.id
  ops : b.ops = bound.ops
  targets : b.term.edges.map (·.2.target) = bound.term.targets
  copied : ∀ e ∈ b.term.edges, Copied e.2.copies

theorem connectBlock_spec {ids : List Nat} {bound : Bound} (known : StateKnown ids bound.out) {b : Block}
    (done : connectBlock bounds bound = some b) : Connected bound b := by
  simp only [connectBlock, bind_found, pure_found] at done
  obtain ⟨term, ends, rfl⟩ := done
  obtain ⟨targets, copied⟩ := connectTerm_spec known ends
  exact ⟨rfl, rfl, targets, copied⟩

variable {g : Graph}

theorem mem_incoming {b : Block} (here : b ∈ g.blocks) {e : Arm × Edge} (edge : e ∈ b.term.edges) :
    ⟨some b.id, some e.1, e.2.target, e.2.copies⟩ ∈ g.incoming e.2.target := by
  refine mem_filter.2 ⟨mem_cons_of_mem _ (mem_flatMap.2 ⟨b, here, ?_⟩), by simp⟩
  exact List.mem_map_of_mem edge

theorem resolveBlock_spec {labels : List (String × Nat)} {raw : List RawBlock} {r : RawBlock} {b : ResolvedBlock}
    (done : resolveBlock labels raw r = some b) : b.id = r.id ∧ b.steps = r.steps := by
  simp only [resolveBlock, bind_found, pure_found] at done
  obtain ⟨term, -, rfl⟩ := done
  exact ⟨rfl, rfl⟩

/-- The graph of blocks that are numbered, reached and lowered is typed. -/
theorem connected_typed {resolved : List ResolvedBlock} {all : List Nat}
    (labels : (resolved.map (·.id)).Nodup) (once : ∀ r ∈ resolved, (r.steps.map (·.1)).Nodup)
    (reached : reachable resolved (2 * resolved.length + 2) [0] [] = some all)
    (bound : (resolved.filter (·.id ∈ all)).mapM (lowerBlock analysis) = some bounds)
    (entry : connectEdge bounds (initialState integer) [] 0 = some g.entry)
    (connected : bounds.mapM (connectBlock bounds) = some g.blocks) : Typed g := by
  have lowers : List.Forall₂ BlockTyped (resolved.filter (·.id ∈ all)) bounds :=
    (mapM_forall₂ bound).imp fun _ _ => lowerBlock_typed
  have typed : ∀ b ∈ bounds, ∃ r ∈ resolved, r.id ∈ all ∧ BlockTyped r b := by
    intro b there
    obtain ⟨r, here, same⟩ := forall₂_of_left lowers.flip there
    obtain ⟨mem, met⟩ := mem_filter.1 here
    exact ⟨r, mem, of_decide_eq_true met, same⟩
  have source : ∀ b ∈ g.blocks, ∃ bound ∈ bounds, Connected bound b ∧ ∃ r ∈ resolved, r.id ∈ all ∧ BlockTyped r bound := by
    intro b there
    obtain ⟨bound, here, same⟩ := forall₂_of_left (mapM_forall₂ connected).flip there
    obtain ⟨r, mem, met, lowered⟩ := typed bound here
    exact ⟨bound, here, connectBlock_spec lowered.out same, r, mem, met, lowered⟩
  refine ⟨?_, ?_, ?_, ?_, ?_⟩
  · have first : (resolved.filter (·.id ∈ all)).map (·.id) = bounds.map (·.id) :=
      forall₂_maps (lowers.imp fun _ _ lowered => lowered.label.symm)
    have second : bounds.map (·.id) = g.blocks.map (·.id) := by
      refine forall₂_maps ((mapM_forall₂ connected).imp fun bound b same => ?_)
      simp only [connectBlock, bind_found, pure_found] at same
      obtain ⟨term, -, rfl⟩ := same
      rfl
    rw [← second, ← first]
    exact labels.sublist (filter_sublist.map _)
  · intro b there
    obtain ⟨bound, -, connects, r, -, -, lowered⟩ := source b there
    rw [connects.ops]
    exact lowered.ordered
  · intro b there
    obtain ⟨bound, -, connects, r, mem, -, lowered⟩ := source b there
    rw [connects.ops]
    exact (once r mem).sublist lowered.nodes
  · intro a there
    rcases mem_cons.1 there with rfl | there
    · exact (connectEdge_spec initialState_known entry).2
    · obtain ⟨b, here, arc⟩ := mem_flatMap.1 there
      obtain ⟨e, edge, rfl⟩ := List.mem_map.1 arc
      obtain ⟨bound, -, connects, -⟩ := source b here
      exact connects.copied e edge
  · intro b there nothing
    obtain ⟨bound, -, connects, r, -, met, lowered⟩ := source b there
    have label : b.id = r.id := connects.label.trans lowered.label
    have origin : ∀ c, c ∈ [0] ∨ c ∈ ([] : List Nat) →
        c = 0 ∨ ∃ p ∈ ([] : List Nat), ∃ r ∈ resolved, r.id = p ∧ c ∈ successors r.term :=
      fun c there => .inl (by simpa using there)
    rcases reachable_origin reached origin r.id met with zero | ⟨p, before, r', mem', rfl, next⟩
    · have first : g.entry.target = b.id := by rw [(connectEdge_spec initialState_known entry).1, label, zero]
      have arc : (⟨none, none, g.entry.target, g.entry.copies⟩ : Arc) ∈ g.incoming b.id :=
        mem_filter.2 ⟨mem_cons_self, decide_eq_true first⟩
      rw [nothing] at arc
      cases arc
    · have kept : r' ∈ resolved.filter (·.id ∈ all) := mem_filter.2 ⟨mem', decide_eq_true before⟩
      obtain ⟨bound', mem, lowered'⟩ := forall₂_of_left lowers kept
      obtain ⟨b', here, same⟩ := forall₂_of_left (mapM_forall₂ connected) mem
      have connects' := connectBlock_spec lowered'.out same
      rw [← lowered'.targets, ← connects'.targets] at next
      obtain ⟨e, edge, target⟩ := List.mem_map.1 next
      have arc := mem_incoming here edge
      rw [target, ← label, nothing] at arc
      cases arc

/-- The graph that is lowered from a function is typed. -/
theorem lower_typed {name : String} {items : List Item} (done : lower analysis integer name items = some g) : Typed g := by
  simp only [lower, bind_found, pure_found] at done
  obtain ⟨raw, parts, labels, -, resolved, resolves, all, reached, bounds, bound, entry, enters, blocks, connected, rfl⟩ := done
  have blocked : Blocked 0 raw := blocks_blocked parts nodes_once.1
  have each := (mapM_forall₂ resolves).imp fun _ _ => resolveBlock_spec
  have same : raw.map (·.id) = resolved.map (·.id) := forall₂_maps (each.imp fun _ _ same => same.1.symm)
  refine connected_typed (same ▸ blocked.labels) (fun r there => ?_) reached bound enters connected
  obtain ⟨r', mem, -, steps⟩ := forall₂_of_left each.flip there
  rw [steps]
  exact blocked.once r' mem

end

end Nanofil.Sarcasm
