import Mathlib.Data.List.Nodup
import Mathlib.Data.List.Pairwise
import Mathlib.Order.Lattice
import Mathlib.Order.Nat

/-! Intervals packed greedily into numbered slots: an open slot keeps where its last
interval stops, and takes one that starts after that. What is no longer open is not
used again. -/
namespace Packing
open List

section
variable {α : Type} [LinearOrder α]

/-- The open slots, the count of all slots and the slot of an interval, the first open one that it may take. -/
def reuse (start stop : α) (count : Nat) : List (Nat × α) → List (Nat × α) × Nat × Nat
  | [] => ([(count, stop)], count + 1, count)
  | slot :: slots =>
    if slot.2 < start then ((slot.1, stop) :: slots, count, slot.1)
    else (slot :: (reuse start stop count slots).1, (reuse start stop count slots).2)

theorem reuse_cases (start stop : α) (count : Nat) (slots : List (Nat × α)) :
    (∃ before slot after, slots = before ++ slot :: after ∧ slot.2 < start ∧
      reuse start stop count slots = (before ++ (slot.1, stop) :: after, count, slot.1)) ∨
    reuse start stop count slots = (slots ++ [(count, stop)], count + 1, count) := by
  induction slots with
  | nil => exact .inr rfl
  | cons slot slots ih =>
    rw [reuse]
    by_cases free : slot.2 < start
    · rw [if_pos free]
      exact .inl ⟨[], slot, slots, rfl, free, rfl⟩
    · rw [if_neg free]
      rcases ih with ⟨before, taken, after, rfl, ends, same⟩ | same
      · exact .inl ⟨slot :: before, taken, after, rfl, ends, by rw [same]; rfl⟩
      · exact .inr (by rw [same]; rfl)

end

section
variable {ρ α : Type} [LinearOrder α] {start stop : ρ → α}

/-- Items in their slots: those of one slot follow each other, and an open slot's last one stops where it says. -/
structure Packed (start stop : ρ → α) (used : List (ρ × Nat)) (slots : List (Nat × α)) (count : Nat) : Prop where
  below : ∀ u ∈ used, u.2 < count
  inside : ∀ o ∈ slots, o.1 < count
  once : (slots.map Prod.fst).Nodup
  stopped : ∀ u ∈ used, ∀ o ∈ slots, o.1 = u.2 → stop u.1 ≤ o.2
  follow : used.Pairwise (fun u v => u.2 = v.2 → stop u.1 < start v.1)

variable {used : List (ρ × Nat)} {slots : List (Nat × α)} {count : Nat}

theorem Packed.nil : Packed start stop [] [] 0 := ⟨nofun, nofun, nodup_nil, nofun, .nil⟩

/-- Slots are closed. -/
theorem Packed.close (packed : Packed start stop used slots count) : Packed start stop used [] count :=
  ⟨packed.below, nofun, nodup_nil, fun _ _ _ none => (not_mem_nil none).elim, packed.follow⟩

/-- A slot of its own that stays closed. -/
theorem Packed.own (packed : Packed start stop used slots count) (r : ρ) :
    Packed start stop (used ++ [(r, count)]) slots (count + 1) where
  below u there := by
    rcases mem_append.1 there with there | here
    · exact Nat.lt_succ_of_lt (packed.below u there)
    · rw [mem_singleton.1 here]
      exact Nat.lt_succ_self count
  inside o there := Nat.lt_succ_of_lt (packed.inside o there)
  once := packed.once
  stopped u there o slot same := by
    rcases mem_append.1 there with there | here
    · exact packed.stopped u there o slot same
    · rw [mem_singleton.1 here] at same
      exact absurd same (packed.inside o slot).ne
  follow := by
    refine pairwise_append.2 ⟨packed.follow, pairwise_singleton .., fun u there v here same => ?_⟩
    rw [mem_singleton.1 here] at same
    exact absurd same (packed.below u there).ne

/-- What takes an open slot follows all that was in it. -/
theorem Packed.take {before after : List (Nat × α)} {slot : Nat × α}
    (packed : Packed start stop used (before ++ slot :: after) count) {r : ρ} (ordered : start r ≤ stop r)
    (free : slot.2 < start r) : Packed start stop (used ++ [(r, slot.1)]) (before ++ (slot.1, stop r) :: after) count := by
  have slotIn : slot ∈ before ++ slot :: after := mem_append_right _ mem_cons_self
  have labels : ((before ++ (slot.1, stop r) :: after).map Prod.fst) = (before ++ slot :: after).map Prod.fst := by
    simp only [map_append, map_cons]
  have ends : ∀ u ∈ used, u.2 = slot.1 → stop u.1 < start r := fun u there same =>
    (packed.stopped u there slot slotIn same.symm).trans_lt free
  have other : ∀ o ∈ before ++ (slot.1, stop r) :: after, o = (slot.1, stop r) ∨ o ∈ before ++ slot :: after ∧ o.1 ≠ slot.1 := by
    intro o there
    have once := packed.once
    rw [map_append, map_cons, nodup_middle, nodup_cons, mem_append, not_or] at once
    rcases mem_append.1 there with there | there
    · exact .inr ⟨mem_append_left _ there, fun same => once.1.1 (same ▸ mem_map_of_mem there)⟩
    · rcases mem_cons.1 there with rfl | there
      · exact .inl rfl
      · exact .inr ⟨mem_append_right _ (mem_cons_of_mem _ there), fun same => once.1.2 (same ▸ mem_map_of_mem there)⟩
  refine ⟨fun u there => ?_, fun o there => ?_, labels ▸ packed.once, fun u there o slotO same => ?_, ?_⟩
  · rcases mem_append.1 there with there | here
    · exact packed.below u there
    · rw [mem_singleton.1 here]
      exact packed.inside slot slotIn
  · rcases other o there with rfl | ⟨there, -⟩
    · exact packed.inside slot slotIn
    · exact packed.inside o there
  · rcases mem_append.1 there with there | here
    · rcases other o slotO with rfl | ⟨slotO, -⟩
      · exact ((ends u there same.symm).trans_le ordered).le
      · exact packed.stopped u there o slotO same
    · rw [mem_singleton.1 here] at same ⊢
      rcases other o slotO with rfl | ⟨-, apart⟩
      · exact le_rfl
      · exact absurd same apart
  · refine pairwise_append.2 ⟨packed.follow, pairwise_singleton .., fun u there v here same => ?_⟩
    rw [mem_singleton.1 here] at same ⊢
    exact ends u there same

/-- A new slot that stays open. -/
theorem Packed.open_ (packed : Packed start stop used slots count) (r : ρ) :
    Packed start stop (used ++ [(r, count)]) (slots ++ [(count, stop r)]) (count + 1) := by
  have own := packed.own r
  refine ⟨own.below, fun o there => ?_, ?_, fun u there o slot same => ?_, own.follow⟩
  · rcases mem_append.1 there with there | here
    · exact own.inside o there
    · rw [mem_singleton.1 here]
      exact Nat.lt_succ_self count
  · rw [map_append, map_singleton]
    refine nodup_append.2 ⟨packed.once, nodup_singleton _, fun i there j here => ?_⟩
    obtain ⟨o, slot, rfl⟩ := mem_map.1 there
    rw [mem_singleton.1 here]
    exact (packed.inside o slot).ne
  · rcases mem_append.1 slot with slot | here
    · exact own.stopped u there o slot same
    · rw [mem_singleton.1 here] at same ⊢
      rcases mem_append.1 there with there | new
      · exact absurd same (packed.below u there).ne'
      · rw [mem_singleton.1 new]

/-- A greedy choice keeps the items of one slot apart. -/
theorem Packed.reuse (packed : Packed start stop used slots count) {r : ρ} (ordered : start r ≤ stop r) :
    Packed start stop (used ++ [(r, (reuse (start r) (stop r) count slots).2.2)]) (reuse (start r) (stop r) count slots).1
      (reuse (start r) (stop r) count slots).2.1 := by
  rcases reuse_cases (start r) (stop r) count slots with ⟨before, slot, after, rfl, free, same⟩ | same
  · rw [same]
    exact packed.take ordered free
  · rw [same]
    exact packed.open_ r

theorem Packed.disjoint (packed : Packed start stop used slots count) {u v : ρ × Nat} (left : u ∈ used) (right : v ∈ used)
    (apart : u ≠ v) (same : u.2 = v.2) : stop u.1 < start v.1 ∨ stop v.1 < start u.1 := by
  let R : ρ × Nat → ρ × Nat → Prop := fun u v => u.2 = v.2 → stop u.1 < start v.1 ∨ stop v.1 < start u.1
  have : Std.Symm R := ⟨fun u v before same => (before same.symm).symm⟩
  have either : used.Pairwise R := packed.follow.imp fun before same => .inl (before same)
  exact either.forall left right apart same

end

end Packing
