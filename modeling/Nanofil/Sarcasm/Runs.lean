import Nanofil.Sarcasm.Checks
import Nanofil.Lib.Closures
import Nanofil.Lib.Results
import Mathlib.Order.Nat
import Mathlib.Algebra.Order.Ring.Nat

/-! Executions of a typed graph, and that a validated certificate holds in them: when its
target is reached, its witness was executed with what covers the target, and nothing
since then could have changed what the witness checked. -/
namespace Nanofil.Sarcasm
open List Option Results Closures

/-! ### Executions -/

/-- The run-time values of a graph's values: 64-bit integers and pointers, with their capabilities. -/
structure Env (π : Type) where
  scalar : Value → BitVec 64
  pointer : Value → π

def Env.eval {π : Type} (env : Env π) : Value → Nat
  | .view x w => env.eval x % 2 ^ w
  | .literal n => n
  | x => (env.scalar x).toNat

/-- What an operation may give a new value: its results and its flags. -/
def Op.Makes (op : Op) : Value → Prop
  | .node n => n ∈ op.defs
  | .flagValue _ _ => True
  | _ => False

/-- An operation leaves all other values, whatever it computes. -/
def Op.Runs {π : Type} (op : Op) (env env' : Env π) : Prop :=
  ∀ x, ¬op.Makes x → env'.scalar x = env.scalar x ∧ env'.pointer x = env.pointer x

/-- An edge gives its target's parameters their values, all from those before. -/
structure Enters {π : Type} (copies : List Copy) (env env' : Env π) : Prop where
  scalar : ∀ c ∈ copies, c.type = .integer → (env'.scalar c.dest).toNat = env.eval c.source
  pointer : ∀ c ∈ copies, c.type = .pointer → env'.pointer c.dest = env.pointer c.source

inductive Event (π : Type)
  | op (s : Site) (o : Op) (env : Env π)
  | edge (p b : Nat)

/-- The executions of a function, with their events, the latest first, up to a site that is next. -/
inductive Run {π : Type} (g : Graph) : List (Event π) → Site → Env π → Prop
  | start {env env' : Env π} : Enters g.entry.copies env env' → Run g [] ⟨g.entry.target, 0⟩ env'
  | exec {h : List (Event π)} {s : Site} {o : Op} {env env' : Env π} : Run g h s env → g.operation s = some o → o.Runs env env' →
      Run g (.op s o env :: h) ⟨s.block, s.at_ + 1⟩ env'
  | edge {h : List (Event π)} {s : Site} {b : Block} {arm : Arm} {e : Edge} {env env' : Env π} : Run g h s env →
      g.block? s.block = some b → s.at_ = b.ops.length → (arm, e) ∈ b.term.edges → Enters e.copies env env' →
      Run g (.edge s.block e.target :: h) ⟨e.target, 0⟩ env'

/-- An arc between two blocks, and one of a cycle. -/
def Graph.flow (g : Graph) : List (Nat × Nat) := g.arcs.filterMap (fun a => a.source.map (·, a.target))

def OnCycle (g : Graph) (p b : Nat) : Prop := (p, b) ∈ g.flow ∧ Reaches g.flow [b] p

/-- Stores, and the loads, stores and derivations of pointers. -/
def Op.Changes : Op → Prop
  | .store .. | .pointerLoad .. | .pointerStore .. | .pointerCopy .. | .pointerOffset .. => True
  | _ => False

/-- What cannot change what was checked before. -/
def Quiet {π : Type} (g : Graph) : Event π → Prop
  | .op _ o _ => ¬o.Changes
  | .edge p b => ¬OnCycle g p b

/-- A requirement covers another: the same permission, kind and scale, a range around it and no less alignment. -/
structure Covers (have_ need : Protection) : Prop where
  scale : have_.scale = need.scale
  permission : have_.permission = need.permission
  kind : have_.kind = need.kind
  low : have_.low ≤ need.low
  high : need.high ≤ have_.high
  alignment : have_.alignment % need.alignment = 0 ∧ ((need.low : Int) - have_.low) % need.alignment = 0

/-- The requirements are of the same pointer, capability and index at run time. -/
structure SameValues {π : Type} (r : Protection) (env : Env π) (r' : Protection) (env' : Env π) : Prop where
  pointer : env.pointer r.value = env'.pointer r'.value
  capability : env.pointer r.capability = env'.pointer r'.capability
  index : env.eval r.index = env'.eval r'.index

/-- A read at the witness was executed, covers the requirement, and only quiet events came after it. -/
def Protected {π : Type} (g : Graph) (h : List (Event π)) (witness : Site) (need : Protection) (env : Env π) : Prop :=
  ∃ later earlier o envW claim, h = later ++ .op witness o envW :: earlier ∧ (∀ e ∈ later, Quiet g e) ∧
    (∃ p i s l w loads, o = .read p i s l w loads) ∧ o.event = ⟨some claim, none⟩ ∧ Covers claim need ∧ SameValues claim envW need env

/-! ### Typed graphs -/

/-- A value that is made of parameters, constants and the results of nodes. -/
def Value.Known (ids : List Nat) : Value → Prop
  | .node n => n ∈ ids
  | .flagValue _ _ => False
  | .view x _ => x.Known ids
  | _ => True

/-- The address of a read is known. -/
def Op.Addressed (ids : List Nat) : Op → Prop
  | .load l => l.pointer.Known ids ∧ l.index.Known ids
  | .read p i _ _ _ _ => p.Known ids ∧ i.Known ids
  | _ => True

/-- Reads take their addresses from nodes before them. -/
def Ordered (ids : List Nat) : List Op → Prop
  | [] => True
  | op :: ops => op.Addressed ids ∧ Ordered (ids ++ op.defs) ops

structure Typed (g : Graph) : Prop where
  labels : (g.blocks.map (·.id)).Nodup
  ordered : ∀ b ∈ g.blocks, Ordered [] b.ops
  once : ∀ b ∈ g.blocks, (b.ops.flatMap Op.defs).Nodup
  pointers : ∀ a ∈ g.arcs, ∀ c ∈ a.copies, c.type = .pointer → normalize c.source = c.source
  entered : ∀ b ∈ g.blocks, g.incoming b.id ≠ []

/-! ### Values -/

section
variable {π : Type} {g : Graph} {env env' : Env π} {ids ids' : List Nat} {op : Op} {x : Value}

theorem Value.Known.mono (known : x.Known ids) (sub : ∀ n ∈ ids, n ∈ ids') : x.Known ids' := by
  induction x with
  | node n => exact sub n known
  | view x w ih => exact ih known
  | flagValue n f => exact known
  | arg | param | literal => trivial

variable {w : Nat}

theorem viewOf_known (known : x.Known ids) : (viewOf x w).Known ids := by
  unfold viewOf
  split
  · trivial
  · split_ifs <;> exact known
  · split_ifs <;> exact known

theorem normalize_known (known : x.Known ids) : (normalize x).Known ids := by
  induction x with
  | view x w ih => exact viewOf_known (ih known)
  | arg | param | literal => trivial
  | node => exact known
  | flagValue => exact known

/-- A value that is no view and no constant has 64 bits. -/
theorem eval_lt (env : Env π) (h1 : ∀ y w, x ≠ .view y w) (h2 : ∀ n, x ≠ .literal n) : env.eval x < 2 ^ 64 := by
  cases x with
  | view y w => exact absurd rfl (h1 y w)
  | literal n => exact absurd rfl (h2 n)
  | arg | param | node | flagValue => exact BitVec.isLt _

/-- Normal values: a view is of what is neither a view nor a constant. -/
def Normal : Value → Prop
  | .view y _ => (∀ z w, y ≠ .view z w) ∧ ∀ n, y ≠ .literal n
  | _ => True

theorem viewOf_normal (normal : Normal x) : Normal (viewOf x w) := by
  unfold viewOf
  split
  · trivial
  · rename_i base inner
    split_ifs
    · cases base with
      | view z w => exact absurd rfl (normal.1 z w)
      | literal n => trivial
      | arg | param | node | flagValue => trivial
    · exact normal
  · rename_i literal view
    split_ifs
    · exact normal
    · exact ⟨fun z w same => view z w same, fun n same => literal n same⟩

theorem normalize_normal : Normal (normalize x) := by
  induction x with
  | view x w ih => exact viewOf_normal ih
  | arg | param | literal | node | flagValue => trivial

theorem eval_viewOf (normal : Normal x) : env.eval (viewOf x w) = env.eval x % 2 ^ w := by
  unfold viewOf
  split
  · rfl
  · rename_i base inner
    have small : env.eval base < 2 ^ 64 := eval_lt env normal.1 normal.2
    have both : env.eval (.view base inner) % 2 ^ w = env.eval base % 2 ^ min w inner := by
      rw [Env.eval]
      rcases le_total w inner with le | le
      · rw [min_eq_left le, Nat.mod_mod_of_dvd _ (pow_dvd_pow 2 le)]
      · rw [min_eq_right le]
        exact Nat.mod_eq_of_lt ((Nat.mod_lt _ (Nat.two_pow_pos inner)).trans_le (Nat.pow_le_pow_right (by decide) le))
    rw [both]
    split_ifs with whole
    · rw [whole, Nat.mod_eq_of_lt small]
    · rfl
  · rename_i literal view
    have small : env.eval x < 2 ^ 64 := eval_lt env (fun y w same => view y w same) (fun n same => literal n same)
    split_ifs with whole
    · rw [whole, Nat.mod_eq_of_lt small]
    · rfl

theorem eval_normalize (x : Value) : env.eval (normalize x) = env.eval x := by
  induction x with
  | view x w ih =>
    rw [normalize, eval_viewOf normalize_normal, ih]
    rfl
  | arg | param | literal | node | flagValue => rfl

/-- A known value keeps its run-time value over an operation that makes none of its nodes. -/
theorem Op.Runs.keeps (runs : op.Runs env env') (known : x.Known ids) (apart : ∀ n ∈ ids, n ∉ op.defs) :
    env'.eval x = env.eval x ∧ env'.pointer x = env.pointer x := by
  induction x with
  | view x w ih =>
    refine ⟨congrArg (· % 2 ^ w) (ih known).1, (runs (.view x w) not_false).2⟩
  | literal n => exact ⟨rfl, (runs (.literal n) not_false).2⟩
  | flagValue n f => exact known.elim
  | node n =>
    have same := runs (.node n) (apart n known)
    exact ⟨congrArg BitVec.toNat same.1, same.2⟩
  | arg i =>
    have same := runs (.arg i) not_false
    exact ⟨congrArg BitVec.toNat same.1, same.2⟩
  | param b k =>
    have same := runs (.param b k) not_false
    exact ⟨congrArg BitVec.toNat same.1, same.2⟩

end

/-! ### The validator -/

section
variable {g : Graph} {witness : Site}

theorem require_ok {ok : Prop} [Decidable ok] {error : Invalid} {u : Unit} : require ok error = .ok u ↔ ok := by
  rw [require]
  split_ifs with h <;> simp [h]

theorem present_ok {α : Type} {x : Option α} {error : Invalid} {y : α} : present x error = .ok y ↔ x = some y := by
  cases x <;> simp [present]

/-- A requirement whose values are all known. -/
structure Protection.Known (ids : List Nat) (r : Protection) : Prop where
  value : r.value.Known ids
  capability : r.capability.Known ids
  index : r.index.Known ids

theorem Protection.Known.mono {ids ids' : List Nat} {r : Protection} (known : r.Known ids) (sub : ∀ n ∈ ids, n ∈ ids') :
    r.Known ids' := ⟨known.value.mono sub, known.capability.mono sub, known.index.mono sub⟩

variable {need : Protection} {o : Op} {s : Site} {b p : Nat} {copies : List Copy}

theorem covered_spec {claim : Protection} (ok : covered claim need = .ok ()) :
    Covers claim need ∧ claim.value = need.value ∧ claim.capability = need.capability ∧ claim.index = need.index := by
  simp only [covered, bind_ok, require_ok, exists_const] at ok
  obtain ⟨value, capability, index, permission, kind, range, alignment⟩ := ok
  exact ⟨⟨index.2, permission, kind, range.1, range.2, alignment.2⟩, value, capability, index.1⟩

/-- Only a read requires something and preserves all. -/
theorem event_read {claim : Protection} (event : o.event = ⟨some claim, none⟩) :
    ∃ p i s l w loads, o = .read p i s l w loads ∧ claim = requirement p i s l w .read 1 .integer := by
  cases o with
  | read p i s l w loads =>
    simp only [Op.event, Effect.mk.injEq, Option.some.injEq, and_true] at event
    exact ⟨p, i, s, l, w, loads, rfl, event.symm⟩
  | load | store | pointerLoad | pointerStore | assign | pointerCopy | pointerOffset | binary | compare | flagValues =>
    simp [Op.event] at event

theorem unchanged_of_event (event : o.event.after = none) : ¬o.Changes := by
  cases o with
  | store | pointerLoad | pointerStore | pointerCopy | pointerOffset => cases event
  | load | read | assign | binary | compare | flagValues => exact not_false

theorem Ordered.addressed {ids : List Nat} {ops : List Op} (ordered : Ordered ids ops) {k : Nat} (at_ : ops[k]? = some o) :
    o.Addressed (ids ++ (ops.take k).flatMap Op.defs) := by
  induction ops generalizing ids k with
  | nil => cases at_
  | cons op ops ih =>
    cases k with
    | zero =>
      cases at_
      simpa using ordered.1
    | succ k =>
      have later := ih ordered.2 at_
      rwa [append_assoc] at later

theorem operation_some (found : g.operation s = some o) :
    ∃ b, g.block? s.block = some b ∧ b ∈ g.blocks ∧ b.ops[s.at_]? = some o := by
  rw [Graph.operation, bind_eq_some_iff] at found
  obtain ⟨b, found, at_⟩ := found
  exact ⟨b, found, mem_of_find?_eq_some found, at_⟩

/-- The nodes before a site in its block. -/
def nodesBefore (g : Graph) (s : Site) : List Nat := ((g.block? s.block).map (fun b => (b.ops.take s.at_).flatMap Op.defs)).getD []

theorem nodesBefore_succ (found : g.operation s = some o) : nodesBefore g ⟨s.block, s.at_ + 1⟩ = nodesBefore g s ++ o.defs := by
  obtain ⟨b, block, -, at_⟩ := operation_some found
  rw [nodesBefore, nodesBefore, block]
  dsimp only [map_some, getD_some]
  rw [take_add_one, at_, toList_some, flatMap_append, flatMap_singleton]

/-- An operation makes none of the nodes before it. -/
theorem nodesBefore_apart (typed : Typed g) (found : g.operation s = some o) : ∀ n ∈ nodesBefore g s, n ∉ o.defs := by
  obtain ⟨b, block, here, at_⟩ := operation_some found
  intro n before made
  rw [nodesBefore, block] at before
  obtain ⟨lt, same⟩ := List.getElem?_eq_some_iff.1 at_
  have once := typed.once b here
  rw [← take_append_drop s.at_ b.ops, flatMap_append, drop_eq_getElem_cons lt, same, flatMap_cons] at once
  exact (nodup_append.1 once).2.2 n before n (mem_append_left _ made) rfl

theorem witness_known (typed : Typed g) {claim : Protection} (found : g.operation s = some o)
    (event : o.event = ⟨some claim, none⟩) : claim.Known (nodesBefore g s) := by
  obtain ⟨b, block, here, at_⟩ := operation_some found
  obtain ⟨p, i, sc, l, w, loads, rfl, rfl⟩ := event_read event
  have addressed := (typed.ordered b here).addressed at_
  rw [nil_append] at addressed
  rw [nodesBefore, block]
  exact ⟨addressed.1, addressed.1, normalize_known addressed.2⟩

theorem inputValue_known {type : Ty} {x y : Value} (found : inputValue b copies type x = some y) : x.Known [] := by
  induction x generalizing y with
  | view x w ih =>
    rw [inputValue] at found
    split_ifs at found
    obtain ⟨z, inner, -⟩ := map_eq_some_iff.1 found
    exact ih inner
  | param | literal => trivial
  | arg | node | flagValue => cases found

theorem pullback_some {r r' : Protection} (found : pullback b copies r = some r') :
    inputValue b copies .pointer r.value = some r'.value ∧ inputValue b copies .pointer r.capability = some r'.capability ∧
      inputValue b copies .integer r.index = some r'.index ∧
      r' = { r with value := r'.value, capability := r'.capability, index := r'.index } := by
  simp only [pullback, bind_found, pure_found] at found
  obtain ⟨value, hv, capability, hc, index, hi, rfl⟩ := found
  exact ⟨hv, hc, hi, rfl⟩

theorem checkArcs_known {paths : Paths} (some_ : paths ≠ .nil)
    (ok : checkArcs g witness b need paths = .ok ()) : need.Known [] := by
  cases paths with
  | nil => exact absurd rfl some_
  | via arc before proof rest =>
    simp only [checkArcs, bind_ok, require_ok, present_ok, exists_const] at ok
    obtain ⟨p, -, -, expected, pulled, -⟩ := ok
    obtain ⟨value, capability, index, -⟩ := pullback_some pulled
    exact ⟨inputValue_known value, inputValue_known capability, inputValue_known index⟩

/-- What a certificate is checked for at a site is made of what is before the site. -/
theorem checkPath_known (typed : Typed g) {tree : Tree} {n : Nat}
    (ok : checkPath g witness b n need tree = .ok ()) : need.Known (nodesBefore g ⟨b, n⟩) := by
  cases tree with
  | checked site claim =>
    simp only [checkPath, bind_ok, require_ok, present_ok, exists_const] at ok
    obtain ⟨⟨pos, rfl, -⟩, o, found, event, -, cover⟩ := ok
    obtain ⟨n, rfl⟩ := Nat.exists_eq_succ_of_ne_zero pos.ne'
    obtain ⟨-, value, capability, index⟩ := covered_spec cover
    have known := witness_known typed found event
    rw [Nat.succ_sub_one] at known found
    have all := known.mono fun n there => (nodesBefore_succ found).symm ▸ mem_append_left o.defs there
    exact ⟨value ▸ all.value, capability ▸ all.capability, index ▸ all.index⟩
  | through site effect tail =>
    simp only [checkPath, bind_ok, require_ok, present_ok, exists_const] at ok
    obtain ⟨⟨pos, rfl⟩, o, found, -, -, rest⟩ := ok
    obtain ⟨n, rfl⟩ := Nat.exists_eq_succ_of_ne_zero pos.ne'
    rw [Nat.succ_sub_one] at found rest
    have known := checkPath_known typed rest
    exact known.mono fun n there => (nodesBefore_succ found).symm ▸ mem_append_left o.defs there
  | incoming id paths =>
    simp only [checkPath, bind_ok, require_ok, exists_const] at ok
    obtain ⟨⟨rfl, rfl⟩, arcs, rest⟩ := ok
    refine (checkArcs_known (fun none => ?_) rest).mono fun _ there => absurd there not_mem_nil
    rw [none] at arcs
    exact arcs.1 arcs.2.symm

/-! ### Cycles -/

theorem mem_flow : (p, b) ∈ g.flow ↔ ∃ a ∈ g.arcs, a.source = some p ∧ a.target = b := by
  rw [Graph.flow, mem_filterMap]
  refine exists_congr fun a => and_congr_right fun _ => ?_
  cases a.source <;> simp

/-- A search that does not meet its target leaves a closed set that it is not in. -/
theorem reaches_closed {target fuel : Nat} {queue seen : List Nat} (done : reaches g target fuel queue seen = some false)
    (closed : ∀ s ∈ seen, s ≠ target ∧ ∀ b, (s, b) ∈ g.flow → b ∈ seen ∨ b ∈ queue) :
    ∃ all : List Nat, target ∉ all ∧ (∀ s ∈ all, ∀ b, (s, b) ∈ g.flow → b ∈ all) ∧ (∀ b ∈ queue, b ∈ all) ∧
      ∀ b ∈ seen, b ∈ all := by
  induction fuel generalizing queue seen with
  | zero =>
    cases queue with
    | nil =>
      exact ⟨seen, fun there => (closed target there).1 rfl,
        fun s there b flows => ((closed s there).2 b flows).resolve_right not_mem_nil, nofun, fun _ there => there⟩
    | cons b queue => cases done
  | succ fuel ih =>
    cases queue with
    | nil =>
      exact ⟨seen, fun there => (closed target there).1 rfl,
        fun s there b flows => ((closed s there).2 b flows).resolve_right not_mem_nil, nofun, fun _ there => there⟩
    | cons b queue =>
      rw [reaches] at done
      split_ifs at done with met old
      · cases done
      · obtain ⟨all, apart, shut, later, before⟩ := ih done fun s there => (closed s there).imp id fun goes b' flows => by
          rcases goes b' flows with seen | next
          · exact .inl seen
          · rcases mem_cons.1 next with rfl | next
            · exact .inl old
            · exact .inr next
        refine ⟨all, apart, shut, fun b' there => ?_, before⟩
        rcases mem_cons.1 there with rfl | there
        · exact before b' old
        · exact later b' there
      · obtain ⟨all, apart, shut, later, before⟩ := ih done fun s there => by
          rcases mem_cons.1 there with rfl | there
          · refine ⟨met, fun b' flows => .inr (mem_append_left _ ?_)⟩
            obtain ⟨a, arc, source, rfl⟩ := mem_flow.1 flows
            exact List.mem_map_of_mem (mem_filter.2 ⟨arc, by simpa using source⟩)
          · refine (closed s there).imp id fun goes b' flows => ?_
            rcases goes b' flows with seen | next
            · exact .inl (mem_cons_of_mem b seen)
            · rcases mem_cons.1 next with rfl | next
              · exact .inl mem_cons_self
              · exact .inr (mem_append_right _ next)
        refine ⟨all, apart, shut, fun b' there => ?_, fun b' there => before b' (mem_cons_of_mem b there)⟩
        rcases mem_cons.1 there with rfl | there
        · exact before b' mem_cons_self
        · exact later b' (mem_append_right _ there)

/-- What two exclusive tests select is not more than what is selected by one that both imply. -/
theorem filter_apart {α : Type} {xs : List α} {p q r : α → Bool} (first : ∀ x, p x → r x ∧ ¬q x) (second : ∀ x, q x → r x) :
    (xs.filter p).length + (xs.filter q).length ≤ (xs.filter r).length := by
  induction xs <;> grind

/-- There is fuel for each arc of a block that is not seen. -/
theorem reaches_total {target fuel : Nat} {queue seen : List Nat}
    (enough : queue.length + (g.arcs.filter (fun a => ∀ s ∈ seen, a.source ≠ some s)).length ≤ fuel) :
    ∃ met, reaches g target fuel queue seen = some met := by
  induction fuel generalizing queue seen with
  | zero =>
    cases queue with
    | nil => exact ⟨false, rfl⟩
    | cons b queue => simp at enough
  | succ fuel ih =>
    cases queue with
    | nil => exact ⟨false, rfl⟩
    | cons b queue =>
      rw [reaches]
      rw [length_cons] at enough
      split_ifs with met old
      · exact ⟨true, rfl⟩
      · exact ih (by omega)
      · refine ih ?_
        have less := @filter_apart _ g.arcs (fun a => a.source = some b) (fun a => ∀ s ∈ b :: seen, a.source ≠ some s)
          (fun a => ∀ s ∈ seen, a.source ≠ some s) (by simp; grind) (by simp)
        rw [length_append, length_map]
        omega

theorem cycleEdge_total (p b : Nat) : ∃ cycle, cycleEdge g p b = some cycle := by
  rw [cycleEdge]
  split_ifs
  · refine reaches_total ?_
    have all := length_filter_le (fun a : Arc => ∀ s ∈ ([] : List Nat), a.source ≠ some s) g.arcs
    rw [length_singleton]
    omega
  · exact ⟨false, rfl⟩

theorem cycleEdge_false (no : cycleEdge g p b = some false) : ¬OnCycle g p b := by
  rintro ⟨flows, cycle⟩
  obtain ⟨a, arc, source, target⟩ := mem_flow.1 flows
  rw [cycleEdge, if_pos (List.any_eq_true.2 ⟨a, arc, by simp [source, target]⟩)] at no
  obtain ⟨all, apart, shut, start, -⟩ := reaches_closed no nofun
  exact apart (cycle.keeps start fun s b' edge there => shut s there b' edge)

/-- A search that meets its target has found a way to it. -/
theorem reaches_met {target fuel : Nat} {queue seen : List Nat} (met : reaches g target fuel queue seen = some true) :
    Reaches g.flow queue target := by
  induction fuel generalizing queue seen with
  | zero => cases queue <;> cases met
  | succ fuel ih =>
    cases queue with
    | nil => cases met
    | cons b queue =>
      rw [reaches] at met
      split_ifs at met with here old
      · exact .seed (here ▸ mem_cons_self)
      · exact (ih met).mono (fun _ => id) fun _ => mem_cons_of_mem b
      · obtain ⟨s, there, path⟩ := ih met
        rcases mem_append.1 there with next | later
        · obtain ⟨a, mem, rfl⟩ := List.mem_map.1 next
          obtain ⟨arc, source⟩ := mem_filter.1 mem
          exact ⟨b, mem_cons_self, .head (mem_flow.2 ⟨a, arc, by simpa using source, rfl⟩) path⟩
        · exact ⟨s, mem_cons_of_mem b later, path⟩

/-- Which edges lie on a cycle is always found out, within one look at each arc. -/
theorem cycleEdge_exact (g : Graph) (p b : Nat) : ∃ cycle, cycleEdge g p b = some cycle ∧ (cycle = true ↔ OnCycle g p b) := by
  obtain ⟨met, found⟩ := cycleEdge_total (g := g) p b
  refine ⟨met, found, ?_⟩
  cases met with
  | false => simpa using cycleEdge_false found
  | true =>
    rw [cycleEdge] at found
    split_ifs at found with arc
    · obtain ⟨a, mem, ends⟩ := List.any_eq_true.1 arc
      simp only [decide_eq_true_eq] at ends
      simpa [OnCycle] using ⟨mem_flow.2 ⟨a, mem, ends⟩, reaches_met found⟩
    · cases found

/-! ### Certificates hold -/

variable {π : Type} {h : List (Event π)} {env env' : Env π}

theorem Run.before {n : Nat} (run : Run g h ⟨b, n + 1⟩ env') : ∃ h' o env, h = .op ⟨b, n⟩ o env :: h' ∧
    Run g h' ⟨b, n⟩ env ∧ g.operation ⟨b, n⟩ = some o ∧ o.Runs env env' := by
  generalize site : (⟨b, n + 1⟩ : Site) = s at run
  cases run with
  | start => cases site
  | @exec h' s o env _ run found runs =>
    cases site
    exact ⟨h', o, env, rfl, run, found, runs⟩
  | edge => cases site

/-- A block is entered from outside or over an arc from the end of another. -/
theorem Run.entered (run : Run g h ⟨b, 0⟩ env') : b = g.entry.target ∨
    ∃ h' p blk arm copies env, h = .edge p b :: h' ∧ g.block? p = some blk ∧ Run g h' ⟨p, blk.ops.length⟩ env ∧
      ⟨some p, some arm, b, copies⟩ ∈ g.incoming b ∧ Enters copies env env' := by
  generalize site : (⟨b, 0⟩ : Site) = s at run
  cases run with
  | start =>
    cases site
    exact .inl rfl
  | exec => cases site
  | @edge h' s blk arm e env _ run block ends edge enters =>
    cases site
    have label : blk.id = s.block := by simpa using find?_some block
    have arc : (⟨some s.block, some arm, e.target, e.copies⟩ : Arc) ∈ g.incoming e.target := by
      refine mem_filter.2 ⟨mem_cons_of_mem _ (mem_flatMap.2 ⟨blk, mem_of_find?_eq_some block, ?_⟩), by simp⟩
      exact List.mem_map.2 ⟨(arm, e), edge, by rw [label]⟩
    refine .inr ⟨h', s.block, blk, arm, e.copies, env, rfl, block, ?_, arc, enters⟩
    rwa [← ends]

/-- A quiet event leaves a requirement protected that has the same values after it. -/
theorem Protected.quiet {need' : Protection} (protected_ : Protected g h witness need env) {e : Event π} (quiet : Quiet g e)
    (same : need' = { need with value := need'.value, capability := need'.capability, index := need'.index })
    (values : SameValues need env need' env') : Protected g (e :: h) witness need' env' := by
  obtain ⟨later, earlier, o, envW, claim, rfl, silent, read, event, cover, was⟩ := protected_
  refine ⟨e :: later, earlier, o, envW, claim, rfl, fun e' there => ?_, read, event, ?_, ?_⟩
  · rcases mem_cons.1 there with rfl | there
    · exact quiet
    · exact silent e' there
  · rw [same]
    exact ⟨cover.scale, cover.permission, cover.kind, cover.low, cover.high, cover.alignment⟩
  · exact ⟨was.pointer.trans values.pointer, was.capability.trans values.capability, was.index.trans values.index⟩

theorem Op.Runs.same {ids : List Nat} (runs : o.Runs env env') (known : need.Known ids)
    (apart : ∀ n ∈ ids, n ∉ o.defs) : SameValues need env need env' :=
  ⟨(runs.keeps known.value apart).2.symm, (runs.keeps known.capability apart).2.symm, (runs.keeps known.index apart).1.symm⟩

/-- What an edge's copies give a value is what the value is once the edge is taken. -/
theorem Enters.inputValue (enters : Enters copies env env')
    (pointers : ∀ c ∈ copies, c.type = .pointer → normalize c.source = c.source) {x y : Value} {type : Ty}
    (found : inputValue b copies type x = some y) :
    (type = .integer → env.eval y = env'.eval x) ∧ (type = .pointer → env.pointer y = env'.pointer x) := by
  induction x generalizing y with
  | param b' k =>
    cases k with
    | flag f => cases found
    | reg r =>
      rw [Sarcasm.inputValue] at found
      split_ifs at found with here
      subst here
      obtain ⟨c, first, rfl⟩ := map_eq_some_iff.1 found
      have mem := mem_of_find?_eq_some first
      obtain ⟨dest, typed⟩ : c.dest = .param b' (.reg r) ∧ c.type = type := by simpa using find?_some first
      refine ⟨fun integer => ?_, fun pointer => ?_⟩
      · rw [eval_normalize, ← enters.scalar c mem (typed.trans integer), dest]
        rfl
      · rw [pointers c mem (typed.trans pointer), ← enters.pointer c mem (typed.trans pointer), dest]
  | literal n =>
    rw [Sarcasm.inputValue] at found
    split_ifs at found with integer
    cases found
    exact ⟨fun _ => rfl, fun pointer => nomatch integer.symm.trans pointer⟩
  | view x w ih =>
    rw [Sarcasm.inputValue] at found
    split_ifs at found with integer
    obtain ⟨z, inner, rfl⟩ := map_eq_some_iff.1 found
    refine ⟨fun _ => ?_, fun pointer => nomatch integer.symm.trans pointer⟩
    rw [eval_normalize, Env.eval, Env.eval, (ih inner).1 integer]
  | arg | node | flagValue => cases found

mutual
theorem checkPath_protects (typed : Typed g) : (tree : Tree) → {b n : Nat} → {need : Protection} →
    checkPath g witness b n need tree = .ok () → ∀ {h : List (Event π)} {env : Env π}, Run g h ⟨b, n⟩ env →
      Protected g h witness need env
  | .checked site claim, b, n, need, ok, h, env, run => by
    simp only [checkPath, bind_ok, require_ok, present_ok, exists_const] at ok
    obtain ⟨⟨pos, rfl, rfl⟩, o, found, event, -, cover⟩ := ok
    obtain ⟨n, rfl⟩ := Nat.exists_eq_succ_of_ne_zero pos.ne'
    rw [Nat.succ_sub_one] at found
    obtain ⟨h', o', env0, rfl, -, found', runs⟩ := run.before
    cases found.symm.trans found'
    obtain ⟨cover, value, capability, index⟩ := covered_spec cover
    obtain ⟨p, i, s, l, w, loads, read, -⟩ := event_read event
    have same := runs.same (witness_known typed found event) (nodesBefore_apart typed found)
    refine ⟨[], h', o, env0, claim, rfl, nofun, ⟨p, i, s, l, w, loads, read⟩, event, cover, ?_⟩
    exact ⟨value ▸ same.pointer, capability ▸ same.capability, index ▸ same.index⟩
  | .through site effect tail, b, n, need, ok, h, env, run => by
    simp only [checkPath, bind_ok, require_ok, present_ok, exists_const] at ok
    obtain ⟨⟨pos, rfl⟩, o, found, -, after, rest⟩ := ok
    obtain ⟨n, rfl⟩ := Nat.exists_eq_succ_of_ne_zero pos.ne'
    rw [Nat.succ_sub_one] at found rest
    obtain ⟨h', o', env0, rfl, run', found', runs⟩ := run.before
    cases found.symm.trans found'
    have same := runs.same (checkPath_known typed rest) (nodesBefore_apart typed found)
    exact (checkPath_protects typed tail rest run').quiet (unchanged_of_event after) rfl same
  | .incoming id paths, b, n, need, ok, h, env, run => by
    simp only [checkPath, bind_ok, require_ok, exists_const] at ok
    obtain ⟨⟨rfl, rfl⟩, ⟨-, arcs⟩, rest⟩ := ok
    have each := checkArcs_protects typed paths rest
    rw [arcs] at each
    rcases run.entered with entry | ⟨h', p, blk, arm, copies, env0, rfl, block, run', arc, enters⟩
    · obtain ⟨p, source, -⟩ := each ⟨none, none, g.entry.target, g.entry.copies⟩
        (mem_filter.2 ⟨mem_cons_self, by simpa using entry.symm⟩)
      cases source
    · obtain ⟨p', source, line, before, pulled, blk', block', held⟩ := each _ arc
      cases source
      cases block.symm.trans block'
      obtain ⟨value, capability, index, static⟩ := pullback_some pulled
      have pointers := typed.pointers _ (mem_filter.1 arc).1
      refine (held run').quiet (cycleEdge_false line) (by rw [static]) ?_
      exact ⟨(enters.inputValue pointers value).2 rfl, (enters.inputValue pointers capability).2 rfl,
        (enters.inputValue pointers index).1 rfl⟩
theorem checkArcs_protects (typed : Typed g) : (paths : Paths) → {b : Nat} → {need : Protection} →
    checkArcs g witness b need paths = .ok () → ∀ arc ∈ paths.arcs, ∃ p, arc.source = some p ∧ cycleEdge g p b = some false ∧
      ∃ before, pullback b arc.copies need = some before ∧ ∃ source, g.block? p = some source ∧
        ∀ {h : List (Event π)} {env : Env π}, Run g h ⟨p, source.ops.length⟩ env → Protected g h witness before env
  | .nil, _, _, _ => nofun
  | .via arc before proof rest, b, need, ok => by
    simp only [checkArcs, bind_ok, require_ok, present_ok, exists_const] at ok
    obtain ⟨p, source, line, expected, pulled, rfl, blk, block, _, own, others⟩ := ok
    intro arc' there
    rcases mem_cons.1 there with rfl | there
    · exact ⟨p, source, line, _, pulled, blk, block, fun run => checkPath_protects typed proof own run⟩
    · exact checkArcs_protects typed rest others arc' there
end

/-- When the target of a certificate that validates is reached, it is protected by the witness. -/
theorem validate_protects (typed : Typed g) {r : Reuse} (ok : validate g r = .ok ()) (run : Run g h r.target env) :
    ∃ o, g.operation r.target = some o ∧ o.event.access = some r.need ∧ Protected g h r.witness r.need env := by
  simp only [validate, bind_ok, require_ok, present_ok, exists_const] at ok
  obtain ⟨-, o, found, actual, access, rfl, -, path⟩ := ok
  exact ⟨o, found, access, checkPath_protects typed r.tree path run⟩

end

end Nanofil.Sarcasm
