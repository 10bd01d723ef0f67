import Mathlib.Logic.Relation
import Mathlib.Data.List.Dedup

/-! What a list of edges reaches from some seeds, computed, and as a relation. -/
namespace Closures
open List

variable {α : Type*} {edges : List (α × α)} {seeds seen : List α}

def Edge (edges : List (α × α)) (a b : α) : Prop := (a, b) ∈ edges

def Reaches (edges : List (α × α)) (seeds : List α) (x : α) : Prop :=
  ∃ s ∈ seeds, Relation.ReflTransGen (Edge edges) s x

theorem Reaches.seed {x : α} (mem : x ∈ seeds) : Reaches edges seeds x := ⟨x, mem, .refl⟩

theorem Reaches.edge {x y : α} (reached : Reaches edges seeds x) (edge : Edge edges x y) : Reaches edges seeds y := by
  obtain ⟨s, mem, path⟩ := reached
  exact ⟨s, mem, path.tail edge⟩

/-- What is reached satisfies what the seeds do and the edges keep. -/
theorem Reaches.keeps {P : α → Prop} (start : ∀ s ∈ seeds, P s)
    (kept : ∀ a b, Edge edges a b → P a → P b) {x : α} (reached : Reaches edges seeds x) : P x := by
  obtain ⟨s, mem, path⟩ := reached
  induction path with
  | refl => exact start s mem
  | tail _ edge ih => exact kept _ _ edge ih

theorem Reaches.mono {edges' : List (α × α)} {seeds' : List α} (sub : ∀ e ∈ edges, e ∈ edges')
    (start : ∀ s ∈ seeds, s ∈ seeds') {x : α} (reached : Reaches edges seeds x) : Reaches edges' seeds' x :=
  reached.keeps (fun s mem => .seed (start s mem)) fun _ _ edge reached => reached.edge (sub _ edge)

theorem reaches_swap {edges' : List (α × α)} {a b : α} (swapped : ∀ x y, Edge edges' x y ↔ Edge edges y x) :
    Reaches edges' [a] b ↔ Reaches edges [b] a := by
  have ways : Relation.ReflTransGen (Edge edges') a b ↔ Relation.ReflTransGen (Edge edges) b a := by
    rw [← Relation.reflTransGen_swap]
    have same : Edge edges' = Function.swap (Edge edges) := by
      funext x y
      exact propext (swapped x y)
    rw [same]
  simp only [Reaches, mem_singleton, exists_eq_left, ways]

/-- The edges from what is reached reach the same. -/
theorem reaches_inside {edges' : List (α × α)} {a : α} (sub : ∀ e ∈ edges', e ∈ edges)
    (inside : ∀ x y, Reaches edges [a] x → Edge edges x y → Edge edges' x y) {x : α} : Reaches edges' [a] x ↔ Reaches edges [a] x := by
  refine ⟨fun reached => reached.mono sub fun _ mem => mem, fun reached => ?_⟩
  obtain ⟨s, mem, path⟩ := reached
  refine ⟨s, mem, ?_⟩
  induction path with
  | refl => exact .refl
  | tail path edge ih => exact ih.tail (inside _ _ ⟨s, mem, path⟩ edge)

variable [DecidableEq α]

/-- The nodes seen, and those one edge further. -/
def grow (edges : List (α × α)) (seen : List α) : List α :=
  seen ++ (edges.filter (fun e => e.1 ∈ seen && e.2 ∉ seen)).map (·.2)

def growN (edges : List (α × α)) : Nat → List α → List α
  | 0, seen => seen
  | n + 1, seen => growN edges n (grow edges seen)

/-- As many rounds as there are edges: each but the last reaches one more edge's end. -/
def closure (edges : List (α × α)) (seeds : List α) : List α := (growN edges edges.length seeds).dedup

theorem mem_grow {x : α} : x ∈ grow edges seen ↔ x ∈ seen ∨ ∃ a ∈ seen, Edge edges a x := by
  simp only [grow, mem_append, mem_map, mem_filter, Bool.and_eq_true, decide_eq_true_eq]
  constructor
  · rintro (mem | ⟨⟨a, b⟩, ⟨mem, from_, _⟩, rfl⟩)
    exacts [.inl mem, .inr ⟨a, from_, mem⟩]
  · rintro (mem | ⟨a, from_, mem⟩)
    · exact .inl mem
    · by_cases old : x ∈ seen
      · exact .inl old
      · exact .inr ⟨(a, x), ⟨mem, from_, old⟩, rfl⟩

def Closed (edges : List (α × α)) (seen : List α) : Prop := ∀ a ∈ seen, ∀ b, Edge edges a b → b ∈ seen

/-- The edges that end outside of what is seen. -/
def outward (edges : List (α × α)) (seen : List α) : Nat := (edges.filter (fun e => e.2 ∉ seen)).length

theorem grow_outward (open_ : ¬ Closed edges seen) : outward edges (grow edges seen) < outward edges seen := by
  simp only [Closed, not_forall] at open_
  obtain ⟨a, from_, b, edge, new⟩ := open_
  have fewer : edges.filter (fun e => e.2 ∉ grow edges seen) =
      (edges.filter (fun e => e.2 ∉ seen)).filter (fun e => e.2 ∉ grow edges seen) := by
    rw [filter_filter]
    refine filter_congr fun e _ => ?_
    by_cases mem : e.2 ∈ seen
    · simp [mem, mem_grow]
    · simp [mem]
  rw [outward, fewer]
  refine length_filter_lt_length_iff_exists.2 ⟨(a, b), mem_filter.2 ⟨edge, by simpa using new⟩, ?_⟩
  simpa using mem_grow.2 (.inr ⟨a, from_, edge⟩)

theorem grow_closed (closed : Closed edges seen) : Closed edges (grow edges seen) := by
  intro a mem b edge
  rcases mem_grow.1 mem with mem | ⟨c, from_, edge'⟩
  · exact mem_grow.2 (.inl (closed a mem b edge))
  · exact mem_grow.2 (.inl (closed a (closed c from_ a edge') b edge))

theorem growN_closed : ∀ {n : Nat} {seen : List α}, outward edges seen ≤ n ∨ Closed edges seen →
    Closed edges (growN edges n seen) := by
  intro n
  induction n with
  | zero =>
    rintro seen (none_ | closed)
    · intro a _ b edge
      by_contra new
      have mem : (a, b) ∈ edges.filter (fun e => e.2 ∉ seen) := mem_filter.2 ⟨edge, by simpa [growN] using new⟩
      have empty : edges.filter (fun e => e.2 ∉ seen) = [] := length_eq_zero_iff.1 (Nat.le_zero.1 none_)
      rw [empty] at mem
      cases mem
    · exact closed
  | succ n ih =>
    intro seen bound
    refine ih ?_
    by_cases closed : Closed edges seen
    · exact .inr (grow_closed closed)
    · rcases bound with bound | closed'
      · exact .inl (by have := grow_outward closed; omega)
      · exact absurd closed' closed

theorem growN_sound : ∀ {n : Nat} {seen : List α} {x : α}, x ∈ growN edges n seen → Reaches edges seen x := by
  intro n
  induction n with
  | zero => exact fun mem => ⟨_, mem, .refl⟩
  | succ n ih =>
    intro seen x mem
    obtain ⟨s, start, path⟩ := ih mem
    rcases mem_grow.1 start with start | ⟨a, from_, edge⟩
    · exact ⟨s, start, path⟩
    · exact ⟨a, from_, .head edge path⟩

theorem growN_seen : ∀ {n : Nat} {seen : List α} {x : α}, x ∈ seen → x ∈ growN edges n seen := by
  intro n
  induction n with
  | zero => exact fun mem => mem
  | succ n ih => exact fun mem => ih (mem_grow.2 (.inl mem))

/-- The closure holds what the edges reach from the seeds. -/
theorem mem_closure {x : α} : x ∈ closure edges seeds ↔ Reaches edges seeds x := by
  rw [closure, mem_dedup]
  constructor
  · exact growN_sound
  · rintro ⟨s, start, path⟩
    have closed : Closed edges (growN edges edges.length seeds) :=
      growN_closed (.inl (length_filter_le _ _))
    induction path with
    | refl => exact growN_seen start
    | tail _ edge ih => exact closed _ ih _ edge

end Closures
