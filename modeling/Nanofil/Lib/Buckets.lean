import Mathlib.Data.List.Perm.Basic
import Mathlib.Data.List.Nodup

/-! Chains of entries in buckets: each entry hangs in the bucket of its hash. -/
namespace Buckets
open scoped List

variable {α : Type*} {hash : α → Nat} {bs : List (List α)} {c c' es : List α} {e : α} {i n : Nat}

/-- The chain of a bucket that is replaced leaves the table, and the new one enters it. -/
theorem flatten_set (there : bs[i]? = some c) (c' : List α) : ((bs.set i c').flatten ++ c).Perm (c' ++ bs.flatten) := by
  induction bs generalizing i with
  | nil => simp at there
  | cons b bs ih =>
    cases i with
    | zero =>
      obtain rfl : b = c := by simpa using there
      simp only [List.set_cons_zero, List.flatten_cons, List.append_assoc]
      exact List.perm_append_comm.append_left c'
    | succ i =>
      have rest := ih (i := i) (by simpa using there)
      simp only [List.set_cons_succ, List.flatten_cons, List.append_assoc]
      calc b ++ ((bs.set i c').flatten ++ c)
        _ ~ b ++ (c' ++ bs.flatten) := rest.append_left b
        _ ~ c' ++ (b ++ bs.flatten) := by
          rw [← List.append_assoc, ← List.append_assoc]
          exact List.perm_append_comm.append_right _

/-- Every entry hangs in the bucket of its hash. -/
def Placed (hash : α → Nat) (bs : List (List α)) : Prop := ∀ i c, bs[i]? = some c → ∀ e ∈ c, hash e = i

theorem Placed.set (placed : Placed hash bs) (all : ∀ e ∈ c', hash e = i) : Placed hash (bs.set i c') := by
  intro j c there e mem
  rw [List.getElem?_set] at there
  split_ifs at there with same inside
  · obtain rfl : c' = c := Option.some.inj there
    exact (all e mem).trans same
  · exact placed j c there e mem

theorem Placed.filter {p : α → Bool} (placed : Placed hash bs) : Placed hash (bs.map (List.filter p)) := by
  intro i c there e mem
  rw [List.getElem?_map] at there
  obtain ⟨b, found, rfl⟩ := Option.map_eq_some_iff.1 there
  exact placed i b found e (List.mem_of_mem_filter mem)

/-- An entry of the table is found in its own bucket. -/
theorem Placed.mem (placed : Placed hash bs) : e ∈ bs.flatten ↔ ∃ c, bs[hash e]? = some c ∧ e ∈ c := by
  constructor
  · intro mem
    obtain ⟨c, there, inside⟩ := List.mem_flatten.1 mem
    obtain ⟨i, found⟩ := List.mem_iff_getElem?.1 there
    exact ⟨c, (placed i c found e inside).symm ▸ found, inside⟩
  · rintro ⟨c, found, inside⟩
    exact List.mem_flatten.2 ⟨c, List.mem_of_getElem? found, inside⟩

/-- An entry is put before the chain of its bucket. -/
def push (hash : α → Nat) (bs : List (List α)) (e : α) : List (List α) := bs.modify (hash e) (e :: ·)

@[simp] theorem length_push : (push hash bs e).length = bs.length := List.length_modify _ _ _

theorem push_perm (inside : hash e < bs.length) : (push hash bs e).flatten.Perm (e :: bs.flatten) := by
  have there : bs[hash e]? = some bs[hash e] := List.getElem?_eq_getElem inside
  have moved := flatten_set there (e :: bs[hash e])
  have same : push hash bs e = bs.set (hash e) (e :: bs[hash e]) := by
    rw [push, List.modify_eq_set_getElem?, there]
    rfl
  rw [← same] at moved
  exact (List.perm_append_right_iff _).1 (moved.trans (List.perm_append_comm.cons e))

theorem Placed.push (placed : Placed hash bs) : Placed hash (push hash bs e) := by
  intro i c there x mem
  rw [Buckets.push, List.getElem?_modify] at there
  obtain ⟨b, found, rfl⟩ := Option.map_eq_some_iff.1 there
  split_ifs at mem with same
  · exact (List.mem_cons.1 mem).elim (fun eq => eq ▸ same) (placed i b found x)
  · exact placed i b found x mem

theorem placed_empty : Placed hash (List.replicate n []) := by
  intro i c there e mem
  rw [List.getElem?_replicate] at there
  split_ifs at there
  obtain rfl : [] = c := Option.some.inj there
  exact absurd mem List.not_mem_nil

/-- Entries that are hung in turn into new buckets. -/
def rehash (hash : α → Nat) (n : Nat) (es : List α) : List (List α) := es.foldl (push hash) (List.replicate n [])

theorem foldl_push (inside : ∀ e, hash e < bs.length) (placed : Placed hash bs) :
    (es.foldl (push hash) bs).length = bs.length ∧ Placed hash (es.foldl (push hash) bs) ∧
      (es.foldl (push hash) bs).flatten.Perm (es ++ bs.flatten) := by
  induction es generalizing bs with
  | nil => exact ⟨rfl, placed, .refl _⟩
  | cons e es ih =>
    obtain ⟨length, hung, perm⟩ := @ih (push hash bs e) (by simpa using inside) placed.push
    refine ⟨by simpa using length, hung, perm.trans ?_⟩
    exact ((push_perm (inside e)).append_left es).trans List.perm_middle

theorem rehash_spec (inside : ∀ e, hash e < n) :
    (rehash hash n es).length = n ∧ Placed hash (rehash hash n es) ∧ (rehash hash n es).flatten.Perm es := by
  obtain ⟨length, placed, perm⟩ := @foldl_push α hash (List.replicate n []) es (by simpa using inside) placed_empty
  exact ⟨by simpa [rehash] using length, placed, by simpa [rehash] using perm⟩

end Buckets
