import Nanofil.Constants.Grammar

/-! The integer reader takes the integer constants, with their values, and those with a suffix of mixed case. -/
namespace Nanofil.Constants
open List Option
open Switching (IntType)

/-! ### Suffixes -/

section
variable {c : Char} {cs tail : List Char} {s : Suffix}

theorem lower_u : suffixLower c = 'u' ↔ c ∈ ['u', 'U'] := by
  unfold suffixLower
  split_ifs <;> simp_all

theorem lower_l : suffixLower c = 'l' ↔ c ∈ ['l', 'L'] := by
  unfold suffixLower
  split_ifs <;> simp_all

theorem intSuffix_spelled (spelled : SuffixSpelling tail s) : intSuffix tail = some s := by
  cases spelled with
  | none => rfl
  | u u => simp [intSuffix, suffixName, lower_u.2 u]
  | l l => simp [intSuffix, suffixName, lower_l.2 l]
  | ll l => simp [intSuffix, suffixName, lower_l.2 l]
  | ul u l => simp [intSuffix, suffixName, lower_u.2 u, lower_l.2 l]
  | lu u l => simp [intSuffix, suffixName, lower_u.2 u, lower_l.2 l]
  | ull u l => simp [intSuffix, suffixName, lower_u.2 u, lower_l.2 l]
  | llu u l => simp [intSuffix, suffixName, lower_u.2 u, lower_l.2 l]

theorem long_pair {a b : Char} (first : a ∈ ['l', 'L']) (second : b ∈ ['l', 'L']) :
    a = b ∨ 'l' ∈ [a, b] ∧ 'L' ∈ [a, b] := by
  fin_cases first <;> fin_cases second <;> simp

theorem intSuffix_sound (read : intSuffix tail = some s) : SuffixSpelling tail s ∨ MixedSuffix tail := by
  unfold intSuffix suffixName at read
  split_ifs at read with none u l ll ul lu ull llu <;> cases read
  · rw [map_eq_nil_iff.1 none]
    exact .inl .none
  · obtain ⟨a, rfl, isU⟩ := map_eq_singleton_iff.1 u
    exact .inl (.u (lower_u.1 isU))
  · obtain ⟨a, rfl, isL⟩ := map_eq_singleton_iff.1 l
    exact .inl (.l (lower_l.1 isL))
  · obtain ⟨a, rest, rfl, isL, more⟩ := map_eq_cons_iff.1 ll
    obtain ⟨b, rfl, isL2⟩ := map_eq_singleton_iff.1 more
    rcases long_pair (lower_l.1 isL) (lower_l.1 isL2) with rfl | mixed
    · exact .inl (.ll (lower_l.1 isL))
    · exact .inr ⟨mixed.1, mixed.2, by simp [ll]⟩
  · obtain ⟨a, rest, rfl, isU, more⟩ := map_eq_cons_iff.1 ul
    obtain ⟨b, rfl, isL⟩ := map_eq_singleton_iff.1 more
    exact .inl (.ul (lower_u.1 isU) (lower_l.1 isL))
  · obtain ⟨b, rest, rfl, isL, more⟩ := map_eq_cons_iff.1 lu
    obtain ⟨a, rfl, isU⟩ := map_eq_singleton_iff.1 more
    exact .inl (.lu (lower_u.1 isU) (lower_l.1 isL))
  · obtain ⟨a, rest, rfl, isU, more⟩ := map_eq_cons_iff.1 ull
    obtain ⟨b, rest, rfl, isL, last⟩ := map_eq_cons_iff.1 more
    obtain ⟨b2, rfl, isL2⟩ := map_eq_singleton_iff.1 last
    rcases long_pair (lower_l.1 isL) (lower_l.1 isL2) with rfl | mixed
    · exact .inl (.ull (lower_u.1 isU) (lower_l.1 isL))
    · exact .inr ⟨mem_cons_of_mem _ mixed.1, mem_cons_of_mem _ mixed.2, by simp [ull]⟩
  · obtain ⟨b, rest, rfl, isL, more⟩ := map_eq_cons_iff.1 llu
    obtain ⟨b2, rest, rfl, isL2, last⟩ := map_eq_cons_iff.1 more
    obtain ⟨a, rfl, isU⟩ := map_eq_singleton_iff.1 last
    rcases long_pair (lower_l.1 isL) (lower_l.1 isL2) with rfl | mixed
    · exact .inl (.llu (lower_u.1 isU) (lower_l.1 isL))
    · exact .inr ⟨mem_append_left [a] mixed.1, mem_append_left [a] mixed.2, by simp [llu]⟩

/-- A suffix has the letters u and l only. -/
theorem intSuffix_letters (read : intSuffix tail = some s) : ∀ c ∈ tail, c ∈ ['u', 'U', 'l', 'L'] := by
  have letters : ∀ d ∈ tail.map suffixLower, d = 'u' ∨ d = 'l' := by
    unfold intSuffix suffixName at read
    generalize tail.map suffixLower = ls at read
    split_ifs at read with none u l ll ul lu ull llu <;> cases read <;> simp_all
  intro c mem
  rcases letters _ (List.mem_map_of_mem mem) with isU | isL
  · exact mem_append_left ['l', 'L'] (lower_u.1 isU)
  · exact mem_append_right ['u', 'U'] (lower_l.1 isL)

theorem letter_stops (base : Nat) (letter : c ∈ ['u', 'U', 'l', 'L']) : isDigit base c = false := by
  fin_cases letter <;> rfl

end

/-! ### Digits and a suffix -/

section
variable {base v : Nat} {digit : Char → Bool} {radix r : Radix} {lack : Bool} {s : Suffix} {c : Char}
  {cs ds tail : List Char}

theorem digitsSuffix_spelled (same : digit = isDigit base) (digits : AllDigits base ds) (filled : ds ≠ [] ∨ lack = true)
    (suffix : SuffixSpelling tail s) :
    digitsSuffix digit base radix lack (ds ++ tail) = some (value base ds, s, radix) := by
  have read := intSuffix_spelled suffix
  obtain ⟨run, rest⟩ := run_digits tail digits fun c head =>
    letter_stops base (intSuffix_letters read c (mem_of_mem_head? head))
  rw [digitsSuffix, same, run, rest, read, baseValue_eq, if_neg]
  · rfl
  · rintro ⟨none, none'⟩
    rcases filled with digit | lack
    · exact digit none
    · simp [lack] at none'

/-- What the reader takes is digits of the base and a suffix. -/
theorem digitsSuffix_sound (same : digit = isDigit base) (read : digitsSuffix digit base radix lack cs = some (v, s, r)) :
    ∃ ds tail, cs = ds ++ tail ∧ AllDigits base ds ∧ (ds ≠ [] ∨ lack = true) ∧ v = value base ds ∧
      intSuffix tail = some s ∧ r = radix := by
  rw [digitsSuffix, same] at read
  split_ifs at read with none
  obtain ⟨suffix, found, eq⟩ := map_eq_some_iff.1 read
  cases eq
  refine ⟨_, _, (takeWhile_append_dropWhile (p := isDigit base)).symm, run_allDigits _ _, ?_, baseValue_eq _ _, found, rfl⟩
  cases lack with
  | true => exact .inr rfl
  | false => exact .inl fun empty => none ⟨empty, rfl⟩

/-- A character that is neither a digit nor a suffix's letter stops the reader. -/
theorem digitsSuffix_none (same : digit = isDigit base) (mem : c ∈ cs) (no_digit : isDigit base c = false)
    (no_letter : c ∉ ['u', 'U', 'l', 'L']) : digitsSuffix digit base radix lack cs = none := by
  cases read : digitsSuffix digit base radix lack cs with
  | none => rfl
  | some found =>
    obtain ⟨ds, tail, rfl, digits, -, -, suffix, -⟩ := digitsSuffix_sound same read
    rcases mem_append.1 mem with left | right
    · exact absurd (digits c left) (by simp [no_digit])
    · exact absurd (intSuffix_letters suffix c right) no_letter

end

/-! ### Integer constants -/

section
variable {c x : Char} {xs cs rest : List Char} {v : Nat} {s : Suffix} {r : Radix}

theorem prefixed_some : prefixed xs cs = some rest ↔ ∃ x ∈ xs, cs = '0' :: x :: rest := by
  unfold prefixed
  split
  · split_ifs with both
    · obtain ⟨rfl, mem⟩ := both
      constructor
      · rintro ⟨⟩
        exact ⟨_, mem, rfl⟩
      · rintro ⟨x, -, eq⟩
        cases eq
        rfl
    · constructor
      · rintro ⟨⟩
      · rintro ⟨x, mem, eq⟩
        cases eq
        exact absurd ⟨rfl, mem⟩ both
  · rename_i other
    constructor
    · rintro ⟨⟩
    · rintro ⟨x, -, rfl⟩
      exact absurd rfl (other _ _ _)

theorem prefixed_none (no : ∀ x ∈ xs, ∀ rest, cs ≠ '0' :: x :: rest) : prefixed xs cs = none := by
  rw [eq_none_iff_forall_ne_some]
  intro rest found
  obtain ⟨x, mem, eq⟩ := prefixed_some.1 found
  exact no x mem rest eq

theorem integerLiteral_spelled (spelled : IntegerConstant cs v s r) : integerLiteral cs = some (v, s, r) := by
  unfold integerLiteral
  cases spelled with
  | decimal nonzero digits suffix =>
    rename_i d ds tail
    have plain (xs : List Char) : prefixed xs (d :: ds ++ tail) = none :=
      prefixed_none fun x _ rest eq => nonzero (List.cons.inj eq).1
    have head : (d :: ds ++ tail).head? ≠ some '0' := by simpa using nonzero
    simp only [plain, if_neg head]
    exact digitsSuffix_spelled (funext decimal_eq) digits (.inl (cons_ne_nil _ _)) suffix
  | octal digits suffix =>
    rename_i ds tail
    have plain (xs : List Char) (no : ∀ x ∈ xs, isDigit 8 x = false ∧ x ∉ ['u', 'U', 'l', 'L']) :
        prefixed xs ('0' :: ds ++ tail) = none := by
      refine prefixed_none fun x mem rest eq => ?_
      obtain ⟨no_digit, no_letter⟩ := no x mem
      have next : x ∈ ds ++ tail := by
        rw [show ds ++ tail = x :: rest from (List.cons.inj eq).2]
        exact mem_cons_self
      rcases mem_append.1 next with left | right
      · exact absurd (digits x left) (by simp [no_digit])
      · exact no_letter (intSuffix_letters (intSuffix_spelled suffix) x right)
    have head : ('0' :: ds ++ tail).head? = some '0' := rfl
    have hex := plain ['x', 'X'] fun x mem => by fin_cases mem <;> decide
    have bin := plain ['b', 'B'] fun x mem => by fin_cases mem <;> decide
    simp only [hex, bin, if_pos head]
    exact digitsSuffix_spelled (funext octDigit_eq) digits (.inr rfl) suffix
  | hexadecimal mark filled digits suffix =>
    rename_i x ds tail
    have found : prefixed ['x', 'X'] ('0' :: x :: ds ++ tail) = some (ds ++ tail) := prefixed_some.2 ⟨x, mark, rfl⟩
    simp only [found]
    exact digitsSuffix_spelled (funext hexDigit_eq) digits (.inl filled) suffix
  | binary mark filled digits suffix =>
    rename_i x ds tail
    have plain : prefixed ['x', 'X'] ('0' :: x :: ds ++ tail) = none := by
      fin_cases mark <;> rfl
    have found : prefixed ['b', 'B'] ('0' :: x :: ds ++ tail) = some (ds ++ tail) := prefixed_some.2 ⟨x, mark, rfl⟩
    simp only [plain, found]
    exact digitsSuffix_spelled (funext binDigit_eq) digits (.inl filled) suffix

/-- What is read is the digits of a constant, which any suffix may follow, and a suffix. -/
theorem integerLiteral_parts (read : integerLiteral cs = some (v, s, r)) : ∃ body tail, cs = body ++ tail ∧
    intSuffix tail = some s ∧ ∀ t s', SuffixSpelling t s' → IntegerConstant (body ++ t) v s' r := by
  unfold integerLiteral at read
  split at read
  · rename_i rest found
    obtain ⟨x, mark, rfl⟩ := prefixed_some.1 found
    obtain ⟨ds, tail, rfl, digits, filled, rfl, suffix, rfl⟩ := digitsSuffix_sound (funext hexDigit_eq) read
    exact ⟨'0' :: x :: ds, tail, rfl, suffix, fun t s' => .hexadecimal mark (by simpa using filled) digits⟩
  split at read
  · rename_i rest found
    obtain ⟨x, mark, rfl⟩ := prefixed_some.1 found
    obtain ⟨ds, tail, rfl, digits, filled, rfl, suffix, rfl⟩ := digitsSuffix_sound (funext binDigit_eq) read
    exact ⟨'0' :: x :: ds, tail, rfl, suffix, fun t s' => .binary mark (by simpa using filled) digits⟩
  split_ifs at read with zero
  · obtain ⟨rest, rfl⟩ := head?_eq_some_iff.1 zero
    obtain ⟨ds, tail, eq, digits, -, rfl, suffix, rfl⟩ := digitsSuffix_sound (funext octDigit_eq) read
    exact ⟨'0' :: ds, tail, congrArg _ eq, suffix, fun t s' => .octal digits⟩
  · obtain ⟨ds, tail, rfl, digits, filled, rfl, suffix, rfl⟩ := digitsSuffix_sound (funext decimal_eq) read
    cases ds with
    | nil => simp at filled
    | cons d ds => exact ⟨d :: ds, tail, rfl, suffix, fun t s' => .decimal (by simpa using zero) digits⟩

theorem integerLiteral_sound (read : integerLiteral cs = some (v, s, r)) : IntegerConstant cs v s r ∨ MixedLong cs := by
  obtain ⟨body, tail, rfl, suffix, constant⟩ := integerLiteral_parts read
  rcases intSuffix_sound suffix with spelled | mixed
  · exact .inl (constant tail s spelled)
  · refine .inr ⟨body, tail, v, r, rfl, ?_, mixed⟩
    have plain := constant [] .none .none
    rwa [append_nil] at plain

/-- A character that no integer constant has. -/
theorem integerLiteral_none (mem : c ∈ cs) (no_digit : isDigit 16 c = false)
    (other : c ∉ ['u', 'U', 'l', 'L', 'x', 'X']) : integerLiteral cs = none := by
  have no_small {base : Nat} (le : base ≤ 16) : isDigit base c = false := by
    rw [Bool.eq_false_iff] at *
    exact fun digit => no_digit (isDigit_mono le digit)
  have no_letter : c ∉ ['u', 'U', 'l', 'L'] := fun letter => other (mem_append_left ['x', 'X'] letter)
  have nonzero : c ≠ '0' := by
    rintro rfl
    exact absurd no_digit (by decide)
  unfold integerLiteral
  split
  · rename_i rest found
    obtain ⟨x, mark, rfl⟩ := prefixed_some.1 found
    refine digitsSuffix_none (c := c) (funext hexDigit_eq) ?_ no_digit no_letter
    have : c ≠ x := by
      rintro rfl
      exact other (mem_append_right ['u', 'U', 'l', 'L'] mark)
    simpa [nonzero, this] using mem
  split
  · rename_i rest found
    obtain ⟨x, mark, rfl⟩ := prefixed_some.1 found
    refine digitsSuffix_none (c := c) (funext binDigit_eq) ?_ (no_small (by decide)) no_letter
    have : c ≠ x := by
      rintro rfl
      fin_cases mark <;> exact absurd no_digit (by decide)
    simpa [nonzero, this] using mem
  split_ifs with zero
  · obtain ⟨rest, rfl⟩ := head?_eq_some_iff.1 zero
    exact digitsSuffix_none (c := c) (funext octDigit_eq) (by simpa [nonzero] using mem) (no_small (by decide)) no_letter
  · exact digitsSuffix_none (funext decimal_eq) mem (no_small (by decide)) no_letter

end

end Nanofil.Constants
