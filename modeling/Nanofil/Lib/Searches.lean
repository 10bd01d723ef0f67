import Nanofil.Lib.Closures
import Mathlib.Data.List.Basic

/-! Searches of a graph by a worklist: what a stack marks is what the edges reach, and a queue finds shortest paths. -/
namespace Searches
open List Closures

variable {α : Type*} {edges : List (α × α)} {seeds seen stack : List α} {root a x y : α}

section
variable [DecidableEq α]

def successors (edges : List (α × α)) (x : α) : List α := (edges.filter (·.1 = x)).map (·.2)

theorem mem_successors : y ∈ successors edges x ↔ Edge edges x y := by
  rw [successors, mem_map]
  constructor
  · rintro ⟨⟨_, _⟩, mem, rfl⟩
    obtain ⟨there, from_⟩ := mem_filter.1 mem
    rw [← of_decide_eq_true from_]
    exact there
  · exact fun edge => ⟨(x, y), mem_filter.2 ⟨edge, decide_eq_true rfl⟩, rfl⟩

/-! ### Marks -/

/-- A node that is new is marked, and put on the stack. -/
def mark (state : List α × List α) (x : α) : List α × List α := if x ∈ state.1 then state else (x :: state.1, x :: state.2)

/-- The nodes marked: the last one put on the stack comes first. -/
def marks (edges : List (α × α)) : Nat → List α → List α → List α
  | 0, seen, _ => seen
  | _ + 1, seen, [] => seen
  | n + 1, seen, x :: stack =>
    let (seen, stack) := (successors edges x).foldl mark (seen, stack)
    marks edges n seen stack

def search (edges : List (α × α)) (seeds : List α) : List α := marks edges (seeds.length + edges.length) seeds seeds

/-- What a node's successors add: each is marked then, and what is new is on the stack. -/
theorem marked_all {xs : List α} (ends : ∀ x ∈ xs, ∃ a, Edge edges a x) :
    (∀ y ∈ seen, y ∈ (xs.foldl mark (seen, stack)).1) ∧ (∀ y ∈ stack, y ∈ (xs.foldl mark (seen, stack)).2) ∧
      (∀ y ∈ xs, y ∈ (xs.foldl mark (seen, stack)).1) ∧
      (∀ y ∈ (xs.foldl mark (seen, stack)).1, y ∈ seen ∨ y ∈ xs ∧ y ∈ (xs.foldl mark (seen, stack)).2) ∧
      (∀ y ∈ (xs.foldl mark (seen, stack)).2, y ∈ stack ∨ y ∈ (xs.foldl mark (seen, stack)).1) ∧
      (xs.foldl mark (seen, stack)).2.length + outward edges (xs.foldl mark (seen, stack)).1 ≤ stack.length + outward edges seen := by
  induction xs generalizing seen stack with
  | nil => exact ⟨fun _ mem => mem, fun _ mem => mem, nofun, fun _ mem => .inl mem, fun _ mem => .inl mem, Nat.le_refl _⟩
  | cons x xs ih =>
    have later : ∀ y ∈ xs, ∃ a, Edge edges a y := fun y mem => ends y (mem_cons_of_mem _ mem)
    rw [foldl_cons, mark]
    dsimp only
    split_ifs with old
    · obtain ⟨kept, held, all, new, put, size⟩ := @ih seen stack later
      refine ⟨kept, held, fun y mem => ?_, fun y mem => ?_, put, size⟩
      · exact (mem_cons.1 mem).elim (fun same => same ▸ kept x old) (all y)
      · exact (new y mem).imp id fun there => ⟨mem_cons_of_mem _ there.1, there.2⟩
    · obtain ⟨kept, held, all, new, put, size⟩ := @ih (x :: seen) (x :: stack) later
      refine ⟨fun y mem => kept y (mem_cons_of_mem _ mem), fun y mem => held y (mem_cons_of_mem _ mem), fun y mem => ?_,
        fun y mem => ?_, fun y mem => ?_, ?_⟩
      · exact (mem_cons.1 mem).elim (fun same => same ▸ kept x mem_cons_self) (all y)
      · rcases new y mem with there | there
        · rcases mem_cons.1 there with rfl | there
          · exact .inr ⟨mem_cons_self, held y mem_cons_self⟩
          · exact .inl there
        · exact .inr ⟨mem_cons_of_mem _ there.1, there.2⟩
      · rcases put y mem with there | there
        · rcases mem_cons.1 there with rfl | there
          · exact .inr (kept y mem_cons_self)
          · exact .inl there
        · exact .inr there
      · obtain ⟨a, edge⟩ := ends x mem_cons_self
        have fewer : outward edges (x :: seen) < outward edges seen := by
          have sub : edges.filter (fun e => e.2 ∉ x :: seen) =
              (edges.filter (fun e => e.2 ∉ seen)).filter (fun e => e.2 ≠ x) := by
            rw [filter_filter]
            refine filter_congr fun e _ => ?_
            simp [mem_cons, not_or]
          rw [outward, outward, sub]
          refine length_filter_lt_length_iff_exists.2 ⟨(a, x), mem_filter.2 ⟨edge, by simpa using old⟩, by simp⟩
        rw [length_cons] at size
        omega

theorem marked_nodup {xs : List α} (once : seen.Nodup) : (xs.foldl mark (seen, stack)).1.Nodup := by
  induction xs generalizing seen stack with
  | nil => exact once
  | cons x xs ih =>
    rw [foldl_cons, mark]
    dsimp only
    split_ifs with old
    · exact ih once
    · exact ih (nodup_cons.2 ⟨old, once⟩)

theorem marks_nodup {n : Nat} (once : seen.Nodup) : (marks edges n seen stack).Nodup := by
  induction n generalizing seen stack with
  | zero => exact once
  | succ n ih =>
    cases stack with
    | nil => exact once
    | cons x stack =>
      rw [marks]
      exact ih (marked_nodup once)

/-- A marked node is on the stack, or its successors are marked. -/
def Open (edges : List (α × α)) (seen stack : List α) : Prop := ∀ a ∈ seen, a ∈ stack ∨ ∀ b, Edge edges a b → b ∈ seen

theorem marks_spec {n : Nat} (enough : stack.length + outward edges seen ≤ n) (on : ∀ a ∈ stack, a ∈ seen) (open_ : Open edges seen stack) :
    (∀ y ∈ seen, y ∈ marks edges n seen stack) ∧ Closed edges (marks edges n seen stack) ∧
      ∀ y ∈ marks edges n seen stack, Reaches edges seen y := by
  induction n generalizing seen stack with
  | zero =>
    have none_ : stack = [] := length_eq_zero_iff.1 (by omega)
    subst none_
    exact ⟨fun _ mem => mem, fun a mem => (open_ a mem).resolve_left not_mem_nil, fun _ mem => .seed mem⟩
  | succ n ih =>
    cases stack with
    | nil => exact ⟨fun _ mem => mem, fun a mem => (open_ a mem).resolve_left not_mem_nil, fun _ mem => .seed mem⟩
    | cons x stack =>
      obtain ⟨kept, held, all, new, put, size⟩ := @marked_all _ edges seen stack _ (successors edges x)
        fun y mem => ⟨x, mem_successors.1 mem⟩
      have here : x ∈ seen := on x mem_cons_self
      rw [marks]
      dsimp only
      generalize (successors edges x).foldl mark (seen, stack) = next at kept held all new put size ⊢
      rw [length_cons] at enough
      obtain ⟨more, closed, sound⟩ := @ih next.1 next.2 (by omega)
        (fun a mem => (put a mem).elim (fun there => kept a (on a (mem_cons_of_mem _ there))) id)
        (fun a mem => by
          rcases new a mem with old | added
          · rcases open_ a old with waits | done
            · rcases mem_cons.1 waits with rfl | waits
              · exact .inr fun b edge => all b (mem_successors.2 edge)
              · exact .inl (held a waits)
            · exact .inr fun b edge => kept b (done b edge)
          · exact .inl added.2)
      refine ⟨fun y mem => more y (kept y mem), closed, fun y mem => ?_⟩
      refine (sound y mem).keeps (fun s from_ => ?_) fun _ _ edge reached => reached.edge edge
      rcases new s from_ with old | added
      · exact .seed old
      · exact (Reaches.seed here).edge (mem_successors.1 added.1)

/-- A search marks what the edges reach from its seeds. -/
theorem mem_search : x ∈ search edges seeds ↔ Reaches edges seeds x := by
  have fuel : seeds.length + outward edges seeds ≤ seeds.length + edges.length :=
    Nat.add_le_add_left (length_filter_le _ _) _
  obtain ⟨start, closed, sound⟩ := marks_spec fuel (fun _ mem => mem) fun a mem => .inl mem
  exact ⟨sound x, fun reached => reached.keeps start fun a b edge mem => closed a mem b edge⟩

end

/-! ### Chains -/

/-- The nodes of a path from the root, from the first to the last. -/
inductive Chain (edges : List (α × α)) (root : α) : List α → α → Prop
  | start : Chain edges root [root] root
  | step {chain : List α} {a b : α} : Chain edges root chain a → Edge edges a b → Chain edges root (chain ++ [b]) b

def Shortest (edges : List (α × α)) (root : α) (chain : List α) (x : α) : Prop :=
  Chain edges root chain x ∧ ∀ chain', Chain edges root chain' x → chain.length ≤ chain'.length

section
variable [DecidableEq α]

/-- The nodes visited, each with the chain that it came on: the queue's first comes first, and what is not seen yet is last. -/
def visits (edges : List (α × α)) : Nat → List (α × List α) → List α → List (α × List α)
  | 0, _, _ => []
  | _ + 1, [], _ => []
  | n + 1, (x, chain) :: queue, seen =>
    if x ∈ seen then visits edges n queue seen
    else
      let next := ((successors edges x).filter (· ∉ x :: seen)).map fun y => (y, chain ++ [y])
      (x, chain) :: visits edges n (queue ++ next) (x :: seen)

def paths (edges : List (α × α)) (root : α) : List (α × List α) := visits edges (edges.length + 1) [(root, [root])] []

/-- The edges of what is not seen yet. -/
def unseen (edges : List (α × α)) (seen : List α) : Nat := (edges.filter (fun e => e.1 ∉ seen)).length

theorem unseen_cons (new : x ∉ seen) : (successors edges x).length + unseen edges (x :: seen) = unseen edges seen := by
  simp only [successors, length_map, unseen, mem_cons]
  induction edges with
  | nil => rfl
  | cons e es ih =>
    by_cases own : e.1 = x
    · have fresh : e.1 ∉ seen := own ▸ new
      simp only [filter_cons, own, true_or, not_true, decide_true, decide_false, if_true, Bool.false_eq_true, if_false,
        new, not_false_eq_true, length_cons]
      omega
    · by_cases old : e.1 ∈ seen
      · simpa [filter_cons, own, old] using ih
      · simp only [filter_cons, own, old, or_self, not_false_eq_true, decide_true, decide_false, if_true,
          Bool.false_eq_true, if_false, length_cons]
        omega

end

variable {queue : List (α × List α)} {chain : List α}

/-- A queue holds chains, the shorter ones first and none by more than one longer than another; what is seen has its successors
seen or in the queue, by chains as short as any. -/
structure Queued (edges : List (α × α)) (root : α) (queue : List (α × List α)) (seen : List α) : Prop where
  chains : ∀ item ∈ queue, Chain edges root item.2 item.1
  sorted : queue.Pairwise fun item later => item.2.length ≤ later.2.length
  near : ∃ d, ∀ item ∈ queue, d ≤ item.2.length ∧ item.2.length ≤ d + 1
  first : root ∈ seen ∨ ∃ chain, (root, chain) ∈ queue ∧ chain.length ≤ 1
  next : ∀ a ∈ seen, ∀ chain, Chain edges root chain a → ∀ b, Edge edges a b →
    b ∈ seen ∨ ∃ chain', (b, chain') ∈ queue ∧ chain'.length ≤ chain.length + 1

theorem queued_start : Queued edges root [(root, [root])] [] where
  chains item mem := by
    rw [mem_singleton.1 mem]
    exact .start
  sorted := pairwise_singleton _ _
  near := ⟨1, fun item mem => by rw [mem_singleton.1 mem]; exact ⟨Nat.le_refl 1, Nat.le_succ 1⟩⟩
  first := .inr ⟨[root], mem_cons_self, Nat.le_refl 1⟩
  next := nofun

/-- A chain ends in what is seen, or the queue holds one as short to a node that is not. -/
theorem Queued.ahead (queued : Queued edges root queue seen) (path : Chain edges root chain x) :
    x ∈ seen ∨ ∃ item ∈ queue, item.2.length ≤ chain.length := by
  induction path with
  | start =>
    rcases queued.first with done | ⟨chain, mem, short⟩
    · exact .inl done
    · exact .inr ⟨_, mem, short⟩
  | @step chain a b path edge ih =>
    rw [length_append, length_singleton]
    rcases ih with done | ⟨item, mem, short⟩
    · rcases queued.next a done chain path b edge with there | ⟨chain', mem, short⟩
      · exact .inl there
      · exact .inr ⟨_, mem, short⟩
    · exact .inr ⟨item, mem, Nat.le_succ_of_le short⟩

theorem Queued.all (queued : Queued edges root [] seen) (path : Chain edges root chain x) : x ∈ seen := by
  refine (queued.ahead path).resolve_right ?_
  rintro ⟨_, mem, -⟩
  cases mem

/-- The first of a queue is no longer than any chain to a node that is not seen. -/
theorem Queued.shortest (queued : Queued edges root ((x, chain) :: queue) seen) (new : x ∉ seen) : Shortest edges root chain x := by
  refine ⟨queued.chains _ mem_cons_self, fun chain' path => ?_⟩
  obtain ⟨item, mem, short⟩ := (queued.ahead path).resolve_left new
  rcases mem_cons.1 mem with rfl | mem
  · exact short
  · exact Nat.le_trans ((pairwise_cons.1 queued.sorted).1 item mem) short

/-- What is seen already is dropped. -/
theorem Queued.drop (queued : Queued edges root ((x, chain) :: queue) seen) (old : x ∈ seen) : Queued edges root queue seen where
  chains item mem := queued.chains item (mem_cons_of_mem _ mem)
  sorted := (pairwise_cons.1 queued.sorted).2
  near := queued.near.imp fun _ near item mem => near item (mem_cons_of_mem _ mem)
  first := by
    rcases queued.first with done | ⟨chain', mem, short⟩
    · exact .inl done
    · rcases mem_cons.1 mem with same | mem
      · exact .inl ((Prod.mk.inj same).1 ▸ old)
      · exact .inr ⟨chain', mem, short⟩
  next a done chain' path b edge := by
    rcases queued.next a done chain' path b edge with there | ⟨chain'', mem, short⟩
    · exact .inl there
    · rcases mem_cons.1 mem with same | mem
      · exact .inl ((Prod.mk.inj same).1 ▸ old)
      · exact .inr ⟨chain'', mem, short⟩

theorem chain_reaches : (∃ chain, Chain edges root chain x) ↔ Reaches edges [root] x := by
  constructor
  · rintro ⟨chain, path⟩
    induction path with
    | start => exact .seed mem_cons_self
    | step _ edge ih => exact ih.edge edge
  · rintro ⟨s, mem, path⟩
    rw [mem_singleton] at mem
    subst mem
    induction path with
    | refl => exact ⟨_, .start⟩
    | tail _ edge ih =>
      obtain ⟨chain, path⟩ := ih
      exact ⟨_, path.step edge⟩

section
variable [DecidableEq α]

/-- A node's successors come last, by chains one longer than its own. -/
theorem Queued.visit (queued : Queued edges root ((x, chain) :: queue) seen) (new : x ∉ seen) :
    Queued edges root (queue ++ ((successors edges x).filter (· ∉ x :: seen)).map fun y => (y, chain ++ [y])) (x :: seen) := by
  obtain ⟨path, least⟩ := queued.shortest new
  obtain ⟨before, sorted⟩ := pairwise_cons.1 queued.sorted
  obtain ⟨d, near⟩ := queued.near
  have low := (near _ mem_cons_self).1
  have close : ∀ item ∈ queue, chain.length ≤ item.2.length ∧ item.2.length ≤ chain.length + 1 := by
    intro item mem
    have high := (near item (mem_cons_of_mem _ mem)).2
    exact ⟨before item mem, Nat.le_trans high (Nat.add_le_add_right low 1)⟩
  have added : ∀ item ∈ ((successors edges x).filter (· ∉ x :: seen)).map (fun y => (y, chain ++ [y])),
      Chain edges root item.2 item.1 ∧ item.2.length = chain.length + 1 := by
    intro item mem
    obtain ⟨y, there, rfl⟩ := mem_map.1 mem
    exact ⟨path.step (mem_successors.1 (mem_filter.1 there).1), length_append⟩
  constructor
  · intro item mem
    exact (mem_append.1 mem).elim (fun there => queued.chains item (mem_cons_of_mem _ there)) fun there => (added item there).1
  · refine pairwise_append.2 ⟨sorted, pairwise_of_forall_mem_list fun item mem later mem' => ?_, fun item mem later mem' => ?_⟩
    · exact Nat.le_of_eq ((added item mem).2.trans (added later mem').2.symm)
    · rw [(added later mem').2]
      exact (close item mem).2
  · refine ⟨chain.length, fun item mem => ?_⟩
    rcases mem_append.1 mem with there | there
    · exact close item there
    · rw [(added item there).2]
      exact ⟨Nat.le_succ _, Nat.le_refl _⟩
  · rcases queued.first with done | ⟨chain', mem, short⟩
    · exact .inl (mem_cons_of_mem _ done)
    · rcases mem_cons.1 mem with same | mem
      · exact .inl ((Prod.mk.inj same).1 ▸ mem_cons_self)
      · exact .inr ⟨chain', mem_append_left _ mem, short⟩
  · intro a done chain' path' b edge
    by_cases there : b ∈ x :: seen
    · exact .inl there
    · rcases mem_cons.1 done with rfl | done
      · refine .inr ⟨chain ++ [b], mem_append_right _ (mem_map.2 ⟨b, ?_, rfl⟩), ?_⟩
        · exact mem_filter.2 ⟨mem_successors.2 edge, decide_eq_true there⟩
        · rw [length_append, length_singleton]
          exact Nat.add_le_add_right (least chain' path') 1
      · rcases queued.next a done chain' path' b edge with seen_ | ⟨chain'', mem, short⟩
        · exact absurd (mem_cons_of_mem _ seen_) there
        · rcases mem_cons.1 mem with same | mem
          · exact absurd ((Prod.mk.inj same).1 ▸ mem_cons_self) there
          · exact .inr ⟨chain'', mem_append_left _ mem, short⟩

theorem visits_spec {n : Nat} (queued : Queued edges root queue seen) (enough : queue.length + unseen edges seen ≤ n) :
    ((visits edges n queue seen).map (·.1)).Nodup ∧ (∀ item ∈ visits edges n queue seen, Shortest edges root item.2 item.1 ∧ item.1 ∉ seen) ∧
      ∀ x chain, Chain edges root chain x → x ∈ seen ∨ x ∈ (visits edges n queue seen).map (·.1) := by
  induction n generalizing queue seen with
  | zero =>
    have none_ : queue = [] := length_eq_zero_iff.1 (by omega)
    subst none_
    exact ⟨nodup_nil, nofun, fun x chain path => .inl (queued.all path)⟩
  | succ n ih =>
    cases queue with
    | nil => exact ⟨nodup_nil, nofun, fun x chain path => .inl (queued.all path)⟩
    | cons item queue =>
      obtain ⟨x, chain⟩ := item
      rw [visits]
      rw [length_cons] at enough
      by_cases old : x ∈ seen
      · rw [if_pos old]
        exact ih (queued.drop old) (by omega)
      · rw [if_neg old]
        have count := @unseen_cons _ edges _ _ _ old
        have fewer := length_filter_le (· ∉ x :: seen) (successors edges x)
        obtain ⟨once, least, all⟩ := ih (queued.visit old) (by rw [length_append, length_map]; omega)
        refine ⟨?_, fun item mem => ?_, fun y path walked => ?_⟩
        · refine nodup_cons.2 ⟨fun again => ?_, once⟩
          obtain ⟨item, mem, same⟩ := mem_map.1 again
          exact (least item mem).2 (same ▸ mem_cons_self)
        · rcases mem_cons.1 mem with rfl | mem
          · exact ⟨queued.shortest old, old⟩
          · exact ⟨(least item mem).1, fun there => (least item mem).2 (mem_cons_of_mem _ there)⟩
        · rcases all y path walked with there | there
          · rcases mem_cons.1 there with rfl | there
            · exact .inr mem_cons_self
            · exact .inl there
          · exact .inr (mem_cons_of_mem _ there)

/-- Each node that the root reaches is visited once, on a shortest chain. -/
theorem paths_shortest : ((paths edges root).map (·.1)).Nodup ∧ (∀ item ∈ paths edges root, Shortest edges root item.2 item.1) ∧
    ∀ x, x ∈ (paths edges root).map (·.1) ↔ Reaches edges [root] x := by
  have fuel : [(root, [root])].length + unseen edges [] ≤ edges.length + 1 := by
    have all : unseen edges [] ≤ edges.length := length_filter_le _ _
    rw [length_singleton]
    omega
  obtain ⟨once, least, all⟩ := visits_spec queued_start fuel
  refine ⟨once, fun item mem => (least item mem).1, fun x => ?_⟩
  rw [← chain_reaches]
  constructor
  · intro mem
    obtain ⟨item, there, rfl⟩ := mem_map.1 mem
    exact ⟨_, (least item there).1.1⟩
  · rintro ⟨chain, path⟩
    exact (all x chain path).resolve_left not_mem_nil

end

end Searches
