import Mathlib.Data.List.Forall2

/-! Lists traversed by a computation that may fail: each result is of its own element. -/
namespace Traversals
open List Option

variable {α β : Type} {xs : List α} {ys : List β}

theorem mapM_forall₂ {f : α → Option β} (done : xs.mapM f = some ys) :
    List.Forall₂ (fun x y => f x = some y) xs ys := by
  induction xs generalizing ys with
  | nil =>
    cases done
    exact .nil
  | cons x xs ih =>
    simp only [mapM_cons, bind_eq_bind, bind_eq_some_iff, Option.pure_def, Option.some.injEq] at done
    obtain ⟨y, first, ys, rest, rfl⟩ := done
    exact .cons first (ih rest)

theorem forall₂_of_left {R : α → β → Prop} (each : List.Forall₂ R xs ys) {x : α}
    (here : x ∈ xs) : ∃ y ∈ ys, R x y := by
  induction each with
  | nil => cases here
  | @cons x' y' _ _ first _ ih =>
    rcases mem_cons.1 here with rfl | here
    · exact ⟨y', mem_cons_self, first⟩
    · obtain ⟨y, there, same⟩ := ih here
      exact ⟨y, mem_cons_of_mem y' there, same⟩

theorem forall₂_maps {γ : Type} {f : α → γ} {g : β → γ} (each : List.Forall₂ (fun x y => f x = g y) xs ys) : xs.map f = ys.map g := by
  induction each with
  | nil => rfl
  | cons first _ ih => rw [map_cons, map_cons, first, ih]

theorem mapM_total {f : α → Option β} (total : ∀ x ∈ xs, ∃ y, f x = some y) :
    ∃ ys, xs.mapM f = some ys := by
  induction xs with
  | nil => exact ⟨[], rfl⟩
  | cons x xs ih =>
    obtain ⟨y, first⟩ := total x mem_cons_self
    obtain ⟨ys, rest⟩ := ih fun x' there => total x' (mem_cons_of_mem x there)
    exact ⟨y :: ys, by rw [mapM_cons, first, rest]; rfl⟩

end Traversals
