import Mathlib.Data.List.Induction

/-! Aggregates by key: the value in the row with the least or the greatest key. -/
namespace Aggregates

variable {κ α : Type*} [LT κ] [DecidableLT κ]

/-- The first row than which no later one is better. -/
def best (better : κ → κ → Bool) (rows : List (κ × α)) : Option (κ × α) :=
  rows.foldl (fun b x => match b with
    | none => some x
    | some b => if better x.1 b.1 then some x else some b) none

def argMin (rows : List (κ × α)) : Option α := (best (fun k k' => k < k') rows).map Prod.snd

def argMax (rows : List (κ × α)) : Option α := (best (fun k k' => k' < k) rows).map Prod.snd

omit [LT κ] [DecidableLT κ] in
theorem best_append (better : κ → κ → Bool) (rows : List (κ × α)) (x : κ × α) :
    best better (rows ++ [x]) = match best better rows with
      | none => some x
      | some b => if better x.1 b.1 then some x else some b := by
  rw [best, List.foldl_append]
  rfl

omit [LT κ] [DecidableLT κ] in
theorem best_mem {better : κ → κ → Bool} {rows : List (κ × α)} {b : κ × α} (found : best better rows = some b) : b ∈ rows := by
  induction rows using List.reverseRecOn generalizing b with
  | nil => cases found
  | append_singleton rows x ih =>
    rw [best_append] at found
    cases before : best better rows with
    | none =>
      rw [before] at found
      cases found
      exact List.mem_append_right _ (List.mem_singleton.2 rfl)
    | some c =>
      rw [before] at found
      simp only at found
      split_ifs at found
      · cases found
        exact List.mem_append_right _ (List.mem_singleton.2 rfl)
      · cases found
        exact List.mem_append_left _ (ih before)

/-- A row with a greater key than all before it is the greatest. -/
theorem argMax_append {rows : List (κ × α)} {x : κ × α} (later : ∀ y ∈ rows, y.1 < x.1) : argMax (rows ++ [x]) = some x.2 := by
  rw [argMax, best_append]
  cases before : best (fun k k' => decide (k' < k)) rows with
  | none => rfl
  | some b =>
    have less := later b (best_mem before)
    simp [less]

variable [Std.Asymm (α := κ) (· < ·)]

/-- A row with a greater key than all before it is the least only when there are none. -/
theorem argMin_append {rows : List (κ × α)} {x : κ × α} (later : ∀ y ∈ rows, y.1 < x.1) :
    argMin (rows ++ [x]) = (argMin rows).or (some x.2) := by
  rw [argMin, argMin, best_append]
  cases before : best (fun k k' => decide (k < k')) rows with
  | none => rfl
  | some b =>
    have less := Std.Asymm.asymm _ _ (later b (best_mem before))
    simp [less]

end Aggregates
