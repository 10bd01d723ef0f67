import Mathlib.Tactic.Ring

/-! Bijective numeration: every number is one list of digits, the least first. -/
namespace Numerals

variable {b n : Nat} {xs ys : List Nat}

def bijective (b : Nat) : List Nat → Nat
  | [] => 0
  | d :: ds => d + 1 + b * bijective b ds

/-- The lists of at most so many digits. -/
def count (b : Nat) : Nat → Nat
  | 0 => 1
  | n + 1 => 1 + b * count b n

theorem bijective_lt (digits : ∀ d ∈ xs, d < b) (few : xs.length ≤ n) : bijective b xs < count b n := by
  induction xs generalizing n with
  | nil => cases n <;> rw [bijective, count] <;> omega
  | cons d ds ih =>
    cases n with
    | zero => cases few
    | succ n =>
      obtain ⟨small, digits⟩ := List.forall_mem_cons.1 digits
      have rest := Nat.mul_le_mul_left b (ih digits (Nat.le_of_succ_le_succ few))
      rw [Nat.mul_succ] at rest
      rw [bijective, count]
      omega

theorem bijective_inj (left : ∀ d ∈ xs, d < b) (right : ∀ d ∈ ys, d < b) (same : bijective b xs = bijective b ys) : xs = ys := by
  induction xs generalizing ys with
  | nil =>
    cases ys with
    | nil => rfl
    | cons d ds => rw [bijective, bijective] at same; omega
  | cons d ds ih =>
    cases ys with
    | nil => simp [bijective] at same
    | cons d' ds' =>
      obtain ⟨small, before⟩ := List.forall_mem_cons.1 left
      obtain ⟨small', after⟩ := List.forall_mem_cons.1 right
      rw [bijective, bijective, Nat.add_right_comm, Nat.add_right_comm d', Nat.add_right_cancel_iff] at same
      obtain rfl : d = d' := by simpa [Nat.add_mul_mod_self_left, Nat.mod_eq_of_lt small, Nat.mod_eq_of_lt small'] using congrArg (· % b) same
      rw [ih before after (Nat.eq_of_mul_eq_mul_left (Nat.zero_lt_of_lt small) (Nat.add_left_cancel same))]

end Numerals
