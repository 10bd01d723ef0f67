import Nanofil.Arithmetic.Conversions
import Nanofil.Lib.Bitwords

/-! Byte swaps and rotates: the bits of a word in another order. -/
namespace Nanofil.Arithmetic
open Switching (IntType size sign convertInt span)

/-- The `n` low bytes of a number in the opposite order. -/
def byteSwap (n x : Nat) : Nat := Nat.ofDigits 256 ((List.range n).map fun i => x / 256 ^ i % 256).reverse

/-- The number's `w` low bits turned around. -/
def Dir.turn (dir : Dir) (w x n : Nat) : Nat :=
  match dir with
  | .left => ((BitVec.ofNat w x).rotateLeft n).toNat
  | .right => ((BitVec.ofNat w x).rotateRight n).toNat

/-! ### Byte swaps -/

/-- A byte or-ed in at its place. -/
def swapStep (x last : Nat) (y : Option Nat) (i : Nat) : Option Nat :=
  let moved := x / 256 ^ i % 256 * 256 ^ (last - i)
  some (match y with | none => moved | some y => y ||| moved)

section
variable {known : List Value} {x y : Value} {X n last : Nat} {dir : Dir}

theorem power_256 (i : Nat) : 256 ^ i = 2 ^ (8 * i) := (Nat.pow_mul 2 8 i).symm

theorem moved_byte {i : Nat} (le : i ≤ last) (small : last < 8) :
    (X / 2 ^ (low (8 * i) % 64) &&& low 255) * 2 ^ (low (8 * (last - i)) % 64) % 2 ^ 64 = X / 256 ^ i % 256 * 256 ^ (last - i) := by
  have mask (w : Nat) : w &&& low 255 = w % 256 := Nat.and_two_pow_sub_one_eq_mod w 8
  have start : low (8 * i) % 64 = 8 * i := by
    unfold low
    omega
  have place : low (8 * (last - i)) % 64 = 8 * (last - i) := by
    unfold low
    omega
  rw [mask, start, place, ← power_256, ← power_256]
  refine Nat.mod_eq_of_lt ?_
  calc X / 256 ^ i % 256 * 256 ^ (last - i) < 256 * 256 ^ (last - i) :=
        Nat.mul_lt_mul_of_pos_right (Nat.mod_lt _ (by decide)) (by positivity)
    _ = 256 ^ (last - i + 1) := by rw [Nat.pow_succ, Nat.mul_comm]
    _ ≤ 256 ^ 8 := Nat.pow_le_pow_right (by decide) (by omega)

theorem gives_swappedBytes (is : List Nat) (y0 : Option Value) (here : Usable known x) (there : ∀ y, y0 = some y → Usable known y)
    (inside : ∀ i ∈ is, i ≤ last) (small : last < 8) :
    Gives known (swappedBytes is x last y0) Option.toList fun env r =>
      r.map (bits env) = is.foldl (swapStep (bits env x) last) (y0.map (bits env)) := by
  induction is generalizing known y0 with
  | nil => exact .pure (fun v mem => there v (by simpa using mem)) fun env => rfl
  | cons i is ih =>
    have le := inside i List.mem_cons_self
    have others : ∀ i ∈ is, i ≤ last := fun i mem => inside i (List.mem_cons_of_mem _ mem)
    refine .bind (.binary here (by simp) ⟨_, _, rfl⟩) fun b0 => ?_
    refine .bind (.binary (by simp) (by simp) ⟨_, _, rfl⟩) fun b => ?_
    refine .bind (.binary (by simp) (by simp) ⟨_, _, rfl⟩) fun moved => ?_
    have byte {env : Env} (hmoved : bits env moved = onBits .shl .l [bits env b, bits env (.const (8 * (last - i)))])
        (hb : bits env b = onBits .and .l [bits env b0, bits env (.const 255)])
        (hb0 : bits env b0 = onBits .shr .l [bits env x, bits env (.const (8 * i))]) :
        bits env moved = bits env x / 256 ^ i % 256 * 256 ^ (last - i) := by
      rw [hmoved, hb, hb0]
      exact moved_byte le small
    cases y0 with
    | none =>
      refine (ih (some moved) (by simp [here]) (fun y eq => by cases eq; simp) others).weaken fun env r hr hmoved hb hb0 => ?_
      rw [hr, Option.map_some, byte hmoved hb hb0]
      rfl
    | some y0 =>
      refine .bind (.binary (by simp [there y0 rfl]) (by simp) ⟨_, _, rfl⟩) fun y1 => ?_
      refine (ih (some y1) (by simp [here]) (fun y eq => by cases eq; simp) others).weaken fun env r hr hy1 hmoved hb hb0 => ?_
      rw [hr, Option.map_some, hy1, byte hmoved hb hb0]
      rfl

/-- The bytes so far, in the opposite order, at the top. -/
theorem swapped_range {k : Nat} (le : k ≤ last) : (List.range (k + 1)).foldl (swapStep X last) none =
    some (256 ^ (last - k) * byteSwap (k + 1) X) := by
  induction k with
  | zero =>
    show some (X / 256 ^ 0 % 256 * 256 ^ (last - 0)) = some (256 ^ (last - 0) * byteSwap 1 X)
    have one : byteSwap 1 X = X / 256 ^ 0 % 256 := by simp [byteSwap]
    rw [one, Nat.mul_comm]
  | succ k ih =>
    have next : byteSwap (k + 1 + 1) X = X / 256 ^ (k + 1) % 256 + 256 * byteSwap (k + 1) X := by
      rw [byteSwap, List.range_succ, List.map_append, List.reverse_append]
      rfl
    have place : last - k = last - (k + 1) + 1 := by omega
    rw [List.range_succ, List.foldl_append, ih (by omega), next]
    show some (256 ^ (last - k) * byteSwap (k + 1) X ||| X / 256 ^ (k + 1) % 256 * 256 ^ (last - (k + 1))) = _
    rw [place, Bitwords.join_byte (Nat.mod_lt _ (by decide))]

/-! ### Rotates -/

/-- The opposite count, from a negative modulo 2^64. -/
theorem opposite_count {e N : Nat} (le : e ≤ 64) (small : N < 2 ^ 64) :
    (2 ^ 64 - N) % 2 ^ 64 % 2 ^ e = (2 ^ e - N % 2 ^ e) % 2 ^ e := by
  have positive : 0 < 2 ^ e := Nat.two_pow_pos e
  obtain ⟨k, eq⟩ : 2 ^ e ∣ 2 ^ 64 := Nat.pow_dvd_pow 2 le
  rw [Nat.mod_mod_of_dvd _ ⟨k, eq⟩]
  have split := Nat.div_add_mod N (2 ^ e)
  have less := Nat.mod_lt N positive
  have quotient : N / 2 ^ e < k := Nat.div_lt_of_lt_mul (by rwa [← eq])
  obtain ⟨d, rfl⟩ := Nat.exists_eq_add_of_lt quotient
  have whole : 2 ^ 64 - N = 2 ^ e * d + (2 ^ e - N % 2 ^ e) := by
    rw [eq, Nat.mul_add, Nat.mul_add, Nat.mul_one]
    omega
  rw [whole, Nat.mul_add_mod]

theorem turn_mod {w x n : Nat} : dir.turn w x n = dir.turn w x (n % w) := by
  cases dir with
  | left => rw [Dir.turn, Dir.turn, BitVec.rotateLeft_mod_eq_rotateLeft]
  | right => rw [Dir.turn, Dir.turn, BitVec.rotateRight_mod_eq_rotateRight]

theorem gives_rotateWord {e : Nat} (le : e ≤ 6) (hereX : Usable known x) (hereN : Usable known y) :
    Gives known (rotateWord dir x y (2 ^ e - 1)) (fun v => [v]) fun env v => bits env x < 2 ^ 2 ^ e →
      bits env v % 2 ^ 2 ^ e = dir.turn (2 ^ e) (bits env x) (bits env y) := by
  have width : 2 ^ e ≤ 64 := Nat.pow_le_pow_right (by decide) le
  have positive : 0 < 2 ^ e := Nat.two_pow_pos e
  have table (d : Dir) : (∃ ka kb, machine (if dir = d then .shl else .shr) .l = some [ka, kb]) ∧
      ∃ ka kb, machine (if dir = d then .shr else .shl) .l = some [ka, kb] := by
    split_ifs <;> exact ⟨⟨_, _, rfl⟩, _, _, rfl⟩
  unfold rotateWord
  refine .bind (.binary hereN (by simp) ⟨_, _, rfl⟩) fun s => ?_
  refine .bind (.unary (by simp [hereN]) ⟨_, rfl⟩) fun m => ?_
  refine .bind (.binary (by simp) (by simp) ⟨_, _, rfl⟩) fun t => ?_
  refine .bind (.binary (by simp [hereX]) (by simp) (table .left).1) fun y1 => ?_
  refine .bind (.binary (by simp [hereX]) (by simp) (table .left).2) fun y2 => ?_
  refine (Gives.binary (by simp) (by simp) ⟨_, _, rfl⟩).weaken fun env v => ?_
  intro hv hy2 hy1 ht hm hs small
  have mask : low ((2 ^ e - 1 : Nat) : Int) = 2 ^ e - 1 := low_cast (by omega)
  have less := Nat.mod_lt (bits env y) positive
  have whole := bits_lt env y
  have shift : bits env s = bits env y % 2 ^ e := by
    rw [hs, bits_const, mask]
    exact Nat.and_two_pow_sub_one_eq_mod _ _
  have opposite : bits env t = (2 ^ e - bits env y % 2 ^ e) % 2 ^ e := by
    rw [ht, hm, bits_const, mask]
    exact (Nat.and_two_pow_sub_one_eq_mod _ _).trans (opposite_count (by omega) whole)
  have counts : bits env s % 64 = bits env y % 2 ^ e ∧ bits env t % 64 = (2 ^ e - bits env y % 2 ^ e) % 2 ^ e := by
    have := Nat.mod_lt (2 ^ e - bits env y % 2 ^ e) positive
    exact ⟨by rw [shift, Nat.mod_eq_of_lt (by omega)], by rw [opposite, Nat.mod_eq_of_lt (by omega)]⟩
  rw [turn_mod, hv, hy1, hy2]
  cases dir with
  | left =>
    show (bits env x * 2 ^ (bits env s % 64) % 2 ^ 64 ||| bits env x / 2 ^ (bits env t % 64)) % 2 ^ 2 ^ e = _
    rw [counts.1, counts.2]
    exact Bitwords.rotateLeft_word width small less
  | right =>
    show (bits env x / 2 ^ (bits env s % 64) ||| bits env x * 2 ^ (bits env t % 64) % 2 ^ 64) % 2 ^ 2 ^ e = _
    rw [counts.1, counts.2]
    exact Bitwords.rotateRight_word width small less

end

end Nanofil.Arithmetic
