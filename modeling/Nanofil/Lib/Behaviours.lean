import Mathlib.Order.WellFounded
import Mathlib.Data.Nat.Find

/-! Infinite behaviours: what falls in a well-founded order comes to rest. -/
namespace Behaviours

variable {β : Type*} [PartialOrder β] [WellFoundedLT β]

/-- From some time on, a value that never rises stays as it is. -/
theorem eventually_const {f : ℕ → β} {n : ℕ} (falls : ∀ m, n ≤ m → f (m + 1) ≤ f m) :
    ∃ N, n ≤ N ∧ ∀ m, N ≤ m → f m = f N := by
  have least := wellFounded_lt.has_min (f '' {m | n ≤ m}) ⟨f n, n, le_refl n, rfl⟩
  obtain ⟨_, ⟨N, later, rfl⟩, least⟩ := least
  refine ⟨N, later, fun m after => ?_⟩
  induction m, after using Nat.le_induction with
  | base => rfl
  | succ m after ih =>
    have below : f (m + 1) ≤ f N := ih ▸ falls m (le_trans later after)
    exact (eq_of_le_of_not_lt below (least _ ⟨m + 1, Nat.le_succ_of_le (le_trans later after), rfl⟩))

/-- What never rises does not fall again and again. -/
theorem not_always_falls {f : ℕ → β} {n : ℕ} (falls : ∀ m, n ≤ m → f (m + 1) ≤ f m) :
    ∃ N, n ≤ N ∧ ∀ m, N ≤ m → ¬f (m + 1) < f m := by
  obtain ⟨N, later, rests⟩ := eventually_const falls
  refine ⟨N, later, fun m after lt => ?_⟩
  rw [rests m after, rests (m + 1) (Nat.le_succ_of_le after)] at lt
  exact lt_irrefl _ lt

/-- What holds at a time and not for ever stops holding at a step. -/
theorem last_time {p : ℕ → Prop} {n m : ℕ} (holds : p n) (later : n ≤ m) (stops : ¬p m) :
    ∃ k, n ≤ k ∧ p k ∧ ¬p (k + 1) := by
  by_contra never
  push Not at never
  refine stops ?_
  induction m, later using Nat.le_induction with
  | base => exact holds
  | succ m later ih =>
    by_cases before : p m
    · exact never m later before
    · exact absurd (ih before) before

/-- A first time among those from a time on. -/
theorem first_time {p : ℕ → Prop} {n : ℕ} (again : ∃ m, n ≤ m ∧ p m) :
    ∃ m, n ≤ m ∧ p m ∧ ∀ k, n ≤ k → k < m → ¬p k := by
  classical
  refine ⟨Nat.find again, (Nat.find_spec again).1, (Nat.find_spec again).2, fun k later before holds => ?_⟩
  exact Nat.find_min again before ⟨later, holds⟩

end Behaviours
