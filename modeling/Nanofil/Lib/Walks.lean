import Mathlib.Data.List.Basic

/-! Walks of a graph from a root, and strict dominance as what every walk passes. -/
namespace Walks

variable {α : Type*} (edge : α → α → Prop) (root : α)

/-- A walk from the root to a node, with the nodes it left, the last one first. -/
inductive Walk : List α → α → Prop
  | start : Walk [] root
  | step {p : List α} {a b : α} : Walk p a → edge a b → Walk (a :: p) b

def Reachable (a : α) : Prop := ∃ p, Walk edge root p a

/-- Every walk to `b` has left `a` on its way. -/
def StrictDom (a b : α) : Prop := ∀ p, Walk edge root p b → a ∈ p

variable {edge root}

theorem Reachable.start : Reachable edge root root := ⟨[], .start⟩

theorem Reachable.step {a b : α} (reached : Reachable edge root a) (next : edge a b) :
    Reachable edge root b := by
  obtain ⟨p, walk⟩ := reached
  exact ⟨a :: p, walk.step next⟩

/-- A walk can be cut where it left a node. -/
theorem Walk.cut {p : List α} {a b : α} (walk : Walk edge root p b) (left : a ∈ p) :
    ∃ q, Walk edge root q a ∧ q.length < p.length ∧ ∀ x ∈ q, x ∈ p := by
  induction walk with
  | start => simp at left
  | @step p c d walk next ih =>
    rcases List.mem_cons.1 left with rfl | earlier
    · exact ⟨p, walk, Nat.lt_succ_self _, fun x h => List.mem_cons_of_mem _ h⟩
    · obtain ⟨q, shorter, lt, sub⟩ := ih earlier
      exact ⟨q, shorter, Nat.lt_succ_of_lt lt, fun x h => List.mem_cons_of_mem _ (sub x h)⟩

theorem Walk.reachable {p : List α} {a : α} (walk : Walk edge root p a) : Reachable edge root a :=
  ⟨p, walk⟩

/-- What is dominated by `s` after an edge was so before it, or the edge left `s`. -/
theorem StrictDom.back {s a b : α} (dom : StrictDom edge root s b) (next : edge a b) :
    s = a ∨ StrictDom edge root s a := by
  by_cases same : s = a
  · exact .inl same
  · refine .inr (fun p walk => ?_)
    rcases List.mem_cons.1 (dom (a :: p) (walk.step next)) with h | h
    · exact absurd h same
    · exact h

theorem StrictDom.trans {a b c : α} (first : StrictDom edge root a b) (second : StrictDom edge root b c) :
    StrictDom edge root a c := by
  intro p walk
  obtain ⟨q, cut, _, sub⟩ := walk.cut (second p walk)
  exact sub a (first q cut)

/-- The shortest walk to a node has not left it before. -/
theorem StrictDom.irrefl {a : α} (reached : Reachable edge root a) : ¬ StrictDom edge root a a := by
  intro dom
  have longer : ∀ n p, p.length ≤ n → ¬ Walk edge root p a := by
    intro n
    induction n with
    | zero =>
      intro p short walk
      have left := dom p walk
      rw [List.length_eq_zero_iff.1 (Nat.le_zero.1 short)] at left
      exact absurd left List.not_mem_nil
    | succ n ih =>
      intro p short walk
      obtain ⟨q, cut, lt, _⟩ := walk.cut (dom p walk)
      exact ih q (by omega) cut
  obtain ⟨p, walk⟩ := reached
  exact longer p.length p (Nat.le_refl _) walk

theorem StrictDom.not_root {a : α} : ¬ StrictDom edge root a root := by
  intro dom
  exact absurd (dom [] .start) List.not_mem_nil

/-- A property of nodes that holds after each edge once it held before holds of every walk. -/
theorem Walk.induct {P : α → Prop} (atRoot : P root) (step : ∀ a b, P a → edge a b → P b)
    {p : List α} {a : α} (walk : Walk edge root p a) : P a := by
  induction walk with
  | start => exact atRoot
  | step _ next ih => exact step _ _ ih next

/-! ### Ancestors -/

/-- `parent` is one node's immediate ancestor, and `anc` the reflexive closure. -/
inductive Ancestor (parent : α → Option α) : α → α → Prop
  | self (a : α) : Ancestor parent a a
  | child {a b c : α} : Ancestor parent a b → parent c = some b → Ancestor parent a c

theorem Ancestor.trans {parent : α → Option α} {a b c : α} (first : Ancestor parent a b)
    (second : Ancestor parent b c) : Ancestor parent a c := by
  induction second with
  | self => exact first
  | child _ h ih => exact ih.child h

/-- A node's ancestors are in line: the root is above each of them. -/
theorem Ancestor.linear {parent : α → Option α} {d a : α} (noParent : parent root = none)
    (below : Ancestor parent d a) (above : Ancestor parent root a) : Ancestor parent root d := by
  induction below with
  | self => exact above
  | child _ up ih =>
    cases above with
    | self => rw [noParent] at up; cases up
    | child above up' =>
      rw [up] at up'
      cases up'
      exact ih above

theorem Ancestor.head {parent : α → Option α} {l x : α} (anc : Ancestor parent l x) :
    l = x ∨ ∃ k, parent k = some l ∧ Ancestor parent k x := by
  induction anc with
  | self => exact .inl rfl
  | @child b c _ up ih =>
    rcases ih with rfl | ⟨k, first, anc⟩
    · exact .inr ⟨c, up, .self _⟩
    · exact .inr ⟨k, first, anc.child up⟩

/-- Two ancestors of one node are in line. -/
theorem Ancestor.comparable {parent : α → Option α} {a b x : α} (first : Ancestor parent a x)
    (second : Ancestor parent b x) : Ancestor parent a b ∨ Ancestor parent b a := by
  induction first with
  | self => exact .inr second
  | @child y x anc up ih =>
    cases second with
    | self => exact .inl (anc.child up)
    | child anc' up' =>
      rw [up] at up'
      cases up'
      exact ih anc'

/-- Below the root no node is its own parent's ancestor. -/
theorem Ancestor.not_parent {parent : α → Option α} (noParent : parent root = none) {a b : α}
    (rooted : Ancestor parent root a) (up : parent a = some b) : ¬ Ancestor parent a b := by
  induction rooted generalizing b with
  | self => rw [noParent] at up; cases up
  | @child c a rooted up' ih =>
    intro cycle
    rw [up'] at up
    cases up
    cases cycle with
    | self => exact ih up' (.self _)
    | child cycle up => exact ih up (((Ancestor.self c).child up').trans cycle)

/-- A tree whose every parent is a common ancestor of the nodes before its child
has only dominators for ancestors. -/
theorem Ancestor.dominates {parent : α → Option α} (noParent : parent root = none)
    (common : ∀ a b, Reachable edge root a → edge a b → ∀ d, parent b = some d → Ancestor parent d a)
    {p : List α} {b : α} (walk : Walk edge root p b) :
    ∀ a, Ancestor parent a b → a = b ∨ a ∈ p := by
  induction walk with
  | start =>
    intro a anc
    cases anc with
    | self => exact .inl rfl
    | child _ h => rw [noParent] at h; cases h
  | @step p c d walk next ih =>
    intro a anc
    cases anc with
    | self => exact .inl rfl
    | child above h =>
      have onWay := ih a (above.trans (common c d walk.reachable next _ h))
      exact .inr (List.mem_cons.2 onWay)

theorem Ancestor.strictDom {parent : α → Option α} (noParent : parent root = none)
    (common : ∀ a b, Reachable edge root a → edge a b → ∀ d, parent b = some d → Ancestor parent d a)
    {a b : α} (anc : Ancestor parent a b) (ne : a ≠ b) : StrictDom edge root a b := by
  intro p walk
  exact (Ancestor.dominates noParent common walk a anc).resolve_left ne

end Walks
