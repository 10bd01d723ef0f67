import Mathlib.Data.List.Find
import Mathlib.Tactic.SplitIfs
import Nanofil.Jemalloc.Nodes

/-! A node is one by its name and by its MIB, and what an error of either leaves. -/
namespace Nanofil.Jemalloc
open List Option

/-! ### Patterns -/

/-- A pattern without digits, with at most one number a component and none in the first; a component of a
pattern that is `fresh` may still have one. -/
def sound : Bool → List Char → Bool
  | _, [] => true
  | fresh, c :: pat =>
    if c = '.' then sound true pat
    else if c = '#' then fresh && sound false pat
    else !c.isDigit && sound fresh pat

/-- A pattern with numbers in place. -/
def spell : List Char → List UInt64 → List Char
  | [], _ => []
  | c :: pat, ks =>
    if c = '#' then Nat.toDigits 10 (ks.headD 0).toNat ++ spell pat ks.tail
    else c :: spell pat ks

theorem nodes_sound : ∀ n ∈ nodes, sound false n.name.toList = true ∧ n.name.toList.count '#' ≤ MAXDEPTH := by decide +kernel

theorem nodes_length : nodes.length < 2 ^ 64 := by decide

section
variable {pat other name : List Char} {idx idx' acc acc' ks : List UInt64} {fresh fresh' : Bool} {c : Char} {k o : UInt64}

theorem sound_digit (good : sound fresh (c :: pat) = true) : c.isDigit = false := by
  rw [sound] at good
  split_ifs at good with dot number
  · rw [dot]
    rfl
  · rw [number]
    rfl
  · simp at good
    exact good.1

theorem sound_tail (good : sound fresh (c :: pat) = true) : ∃ fresh', sound fresh' pat = true := by
  rw [sound] at good
  split_ifs at good with dot number
  · exact ⟨true, good⟩
  · exact ⟨false, (Bool.and_eq_true_iff.1 good).2⟩
  · exact ⟨fresh, (Bool.and_eq_true_iff.1 good).2⟩

/-- One step of a match: a number, or a character. -/
theorem matches_cons {p : Char} : matches_ (p :: pat) (c :: name) acc = some idx ↔
    (p = '#' ∧ c.isDigit = true ∧ ∃ v rest, strtoull (c :: name) = (some v, rest) ∧ acc.length ≠ MAXDEPTH ∧
      matches_ pat rest (acc ++ [v]) = some idx) ∨ (p ≠ '#' ∧ p = c ∧ matches_ pat name acc = some idx) := by
  rw [matches_]
  by_cases number : p = '#'
  · rw [if_pos number]
    cases digit : c.isDigit with
    | false => simp [number]
    | true =>
      obtain ⟨_ | v, rest⟩ := strtoull (c :: name)
      · simp [number]
      · by_cases full : acc.length = MAXDEPTH
        · simp [number, full]
        · simp only [number, full, Bool.not_true, Bool.false_eq_true, if_false, true_and, ne_eq, not_true, false_and, or_false,
            not_false_eq_true, Prod.mk.injEq, Option.some.injEq, exists_and_left, exists_eq_left', and_assoc]
  · rw [if_neg number]
    by_cases same : p = c
    · rw [if_neg fun other => other same]
      exact ⟨fun found => .inr ⟨number, same, found⟩, fun | .inl is => absurd is.1 number | .inr is => is.2.2⟩
    · rw [if_pos same]
      exact ⟨fun found => (nomatch found), fun | .inl is => absurd is.1 number | .inr is => absurd is.2.1 same⟩

/-- Two patterns that match one name are one pattern. -/
theorem matches_unique (good : sound fresh pat = true) (good' : sound fresh' other = true)
    (here : matches_ pat name acc = some idx) (there : matches_ other name acc' = some idx') : pat = other := by
  induction pat generalizing fresh fresh' other name acc acc' with
  | nil =>
    cases name with
    | nil =>
      cases other with
      | nil => rfl
      | cons => cases there
    | cons => cases here
  | cons p pat ih =>
    cases name with
    | nil => cases here
    | cons c name =>
      cases other with
      | nil => cases there
      | cons q other =>
        have digits := sound_digit good
        have digits' := sound_digit good'
        obtain ⟨_, tail⟩ := sound_tail good
        obtain ⟨_, tail'⟩ := sound_tail good'
        rcases matches_cons.1 here with ⟨rfl, digit, v, rest, read, -, rest_here⟩ | ⟨-, rfl, rest_here⟩ <;>
          rcases matches_cons.1 there with ⟨rfl, digit', v', rest', read', -, rest_there⟩ | ⟨-, rfl, rest_there⟩
        · cases read.symm.trans read'
          rw [ih tail tail' rest_here rest_there]
        · exact absurd digit (by rw [digits']; decide)
        · exact absurd digit' (by rw [digits]; decide)
        · rw [ih tail tail' rest_here rest_there]

theorem takeWhile_digits {ds rest : List Char} (digits : ∀ d ∈ ds, d.isDigit = true) (ends : ∀ c ∈ rest.head?, c.isDigit = false) :
    (ds ++ rest).takeWhile Char.isDigit = ds ∧ (ds ++ rest).dropWhile Char.isDigit = rest := by
  have taken : rest.takeWhile Char.isDigit = [] ∧ rest.dropWhile Char.isDigit = rest := by
    cases rest with
    | nil => exact ⟨rfl, rfl⟩
    | cons c rest =>
      have end_ := ends c rfl
      simp [end_]
  rw [takeWhile_append_of_pos digits, dropWhile_append_of_pos digits, taken.1, taken.2, append_nil]
  exact ⟨rfl, rfl⟩

/-- A number that fits is read back. -/
theorem strtoull_digits {rest : List Char} (k : UInt64) (ends : ∀ c ∈ rest.head?, c.isDigit = false) :
    strtoull (Nat.toDigits 10 k.toNat ++ rest) = (some k, rest) := by
  have digits : ∀ d ∈ Nat.toDigits 10 k.toNat, d.isDigit = true := fun d mem => Nat.isDigit_of_mem_toDigits (by decide) (by decide) mem
  obtain ⟨taken, dropped⟩ := takeWhile_digits digits ends
  rw [strtoull, taken, dropped, Nat.ofDigitChars_ten_toDigits, if_pos k.toNat_lt, UInt64.ofNat_toNat]

theorem spell_ends (good : sound false pat = true) (ks : List UInt64) : ∀ c ∈ (spell pat ks).head?, c.isDigit = false := by
  cases pat with
  | nil => exact fun c mem => nomatch mem
  | cons p pat =>
    have plain : p ≠ '#' := by
      rintro rfl
      cases good
    intro c mem
    rw [spell, if_neg plain] at mem
    cases mem
    exact sound_digit good

/-- A pattern matches its own spelling, with the numbers it was spelled with. -/
theorem matches_spell (good : sound fresh pat = true) (length : ks.length = pat.count '#') (room : acc.length + ks.length ≤ MAXDEPTH) :
    matches_ pat (spell pat ks) acc = some (acc ++ ks) := by
  induction pat generalizing fresh ks acc with
  | nil =>
    rw [length_eq_zero_iff.1 length, append_nil]
    rfl
  | cons p pat ih =>
    by_cases number : p = '#'
    · subst number
      have tail : sound false pat = true := by
        rw [sound, if_neg (by decide), if_pos rfl] at good
        exact (Bool.and_eq_true_iff.1 good).2
      rw [count_cons_self] at length
      obtain ⟨k, ks, rfl⟩ := exists_cons_of_length_eq_add_one length
      rw [length_cons] at length room
      have read := strtoull_digits k (spell_ends tail ks)
      have rest : matches_ pat (spell pat ks) (acc ++ [k]) = some (acc ++ [k] ++ ks) :=
        ih tail (Nat.succ.inj length) (by rw [length_append, length_singleton]; omega)
      rw [append_assoc, singleton_append] at rest
      obtain ⟨d, ds, digits⟩ := exists_cons_of_ne_nil (Nat.toDigits_ne_nil (b := 10) (n := k.toNat))
      have digit : d.isDigit = true := Nat.isDigit_of_mem_toDigits (by decide) (by decide) (digits ▸ mem_cons_self)
      rw [spell, if_pos rfl, headD_cons, tail_cons]
      rw [digits, cons_append] at read ⊢
      exact matches_cons.2 (.inl ⟨rfl, digit, k, _, read, by omega, rest⟩)
    · obtain ⟨_, tail⟩ := sound_tail good
      rw [count_cons_of_ne number] at length
      rw [spell, if_neg number]
      exact matches_cons.2 (.inr ⟨number, rfl, ih tail length room⟩)

theorem matches_length (found : matches_ pat name acc = some idx) : idx.length = acc.length + pat.count '#' := by
  induction pat generalizing name acc with
  | nil =>
    cases name with
    | nil =>
      cases found
      rfl
    | cons => cases found
  | cons p pat ih =>
    cases name with
    | nil => cases found
    | cons c name =>
      rcases matches_cons.1 found with ⟨rfl, -, v, rest, -, -, found⟩ | ⟨other, -, found⟩
      · rw [ih found, length_append, length_singleton, count_cons_self]
        omega
      · rw [ih found, count_cons_of_ne other]

theorem mibRest_index (length : idx.length = pat.count '#') (good : sound fresh pat = true) :
    mibIndex pat (mibRest pat o idx) = idx ∧ (fresh = false → (mibRest pat o idx).headD 0 = o) ∧
      (mibRest pat o idx).length = depth pat := by
  induction pat generalizing fresh idx o with
  | nil =>
    rw [length_eq_zero_iff.1 length]
    exact ⟨rfl, fun _ => rfl, rfl⟩
  | cons p pat ih =>
    rw [sound] at good
    rw [mibRest, mibIndex, depth]
    split_ifs at good ⊢ with dot number
    · rw [dot] at length
      obtain ⟨index, -, long⟩ := ih (o := 0) length good
      refine ⟨index, fun _ => rfl, ?_⟩
      rw [dot, length_cons, long, depth, count_cons_self]
    · rw [number, count_cons_self] at length
      obtain ⟨k, ks, rfl⟩ := exists_cons_of_length_eq_add_one length
      obtain ⟨may, good⟩ := Bool.and_eq_true_iff.1 good
      obtain ⟨index, first, long⟩ := ih (o := k) (Nat.succ.inj length) good
      rw [headD_cons, tail_cons, index, first rfl, count_cons_of_ne dot]
      exact ⟨rfl, fun not => absurd may (by rw [not]; decide), long⟩
    · rw [count_cons_of_ne number] at length
      obtain ⟨index, first, long⟩ := ih (o := o) length (Bool.and_eq_true_iff.1 good).2
      rw [count_cons_of_ne dot]
      exact ⟨index, first, long⟩

end

/-! ### The table's first match -/

section
variable {name name' : List Char} {i : Nat} {n : Node} {idx ks : List UInt64}

theorem findSome?_find? {α β : Type} (f : α → Option β) (xs : List α) :
    xs.findSome? f = (xs.find? fun x => (f x).isSome).bind f := by
  induction xs with
  | nil => rfl
  | cons x xs ih =>
    rw [findSome?_cons, find?_cons]
    cases found : f x with
    | none => exact ih
    | some y => exact found.symm

theorem findNode_some (found : findNode name = some (i, n, idx)) :
    nodes[i]? = some n ∧ matches_ n.name.toList name [] = some idx := by
  obtain ⟨⟨n', i'⟩, mem, is⟩ := exists_of_findSome?_eq_some found
  obtain ⟨idx', matched, same⟩ := map_eq_some_iff.1 is
  cases same
  exact ⟨(mem_zipIdx_iff_getElem?.1 mem), matched⟩

/-- A name of the same pattern finds the same node. -/
theorem findNode_spell (found : findNode name = some (i, n, idx)) (length : ks.length = n.name.toList.count '#') :
    findNode (spell n.name.toList ks) = some (i, n, ks) := by
  obtain ⟨at_, matched⟩ := findNode_some found
  obtain ⟨good, few⟩ := nodes_sound n (mem_of_getElem? at_)
  have spelled : matches_ n.name.toList (spell n.name.toList ks) [] = some ks :=
    matches_spell good length (by rw [length_nil, Nat.zero_add, length]; exact few)
  have same : ∀ x ∈ nodes.zipIdx, ((matches_ x.1.name.toList (spell n.name.toList ks) []).map fun k => (x.2, x.1, k)).isSome =
      ((matches_ x.1.name.toList name []).map fun k => (x.2, x.1, k)).isSome := by
    intro x mem
    obtain ⟨good', -⟩ := nodes_sound x.1 (mem_of_getElem? (mem_zipIdx_iff_getElem?.1 mem))
    rw [isSome_map, isSome_map, Bool.eq_iff_iff, isSome_iff_exists, isSome_iff_exists]
    constructor
    · rintro ⟨idx', other⟩
      rw [matches_unique good' good other spelled]
      exact ⟨idx, matched⟩
    · rintro ⟨idx', other⟩
      rw [matches_unique good' good other matched]
      exact ⟨ks, spelled⟩
  rw [findNode, findSome?_find?] at found ⊢
  rw [find?_congr same]
  obtain ⟨x, first, is⟩ := bind_eq_some_iff.1 found
  obtain ⟨idx', -, eq⟩ := map_eq_some_iff.1 is
  cases eq
  rw [first, bind_some, spelled]
  rfl

end

end Nanofil.Jemalloc
