import Nanofil.Constants.Integers

/-! The floating reader takes the floating constants, with their exact values, and decimal digits alone. -/
namespace Nanofil.Constants
open List Option

/-! ### Mantissas -/

section
variable {base n places : Nat} {cs m rest : List Char} {q : ℚ}

theorem baseDigit_fun (base : Nat) : baseDigit base = isDigit base := funext (baseDigit_eq base)

theorem point_stops (base : Nat) : isDigit base '.' = false := rfl

theorem significand_spelled (rest : List Char) (positive : 0 < base) (mantissa : Mantissa base m q)
    (stop : ∀ c, rest.head? = some c → isDigit base c = false ∧ c ≠ '.') :
    ∃ n places, significand base (m ++ rest) = some (n, places, rest) ∧ q = n / (base : ℚ) ^ places := by
  have unit : (base : ℚ) ≠ 0 := by exact_mod_cast positive.ne'
  have stops : ∀ c, rest.head? = some c → isDigit base c = false := fun c head => (stop c head).1
  unfold significand fraction
  rw [baseDigit_fun]
  cases mantissa with
  | whole filled digits =>
    obtain ⟨run, after⟩ := run_digits rest digits stops
    have no_point : rest.head? ≠ some '.' := fun head => (stop '.' head).2 rfl
    refine ⟨value base m, 0, ?_, by simp⟩
    simp only [run, after, if_neg no_point, append_nil, if_neg filled, digitsNumber_eq, length_nil]
  | point filled left right =>
    rename_i before after
    obtain ⟨run, past⟩ := run_digits ('.' :: (after ++ rest)) left
      (by rintro c ⟨⟩; exact point_stops base)
    obtain ⟨run2, past2⟩ := run_digits rest right stops
    refine ⟨value base (before ++ after), after.length, ?_, ?_⟩
    · rw [append_assoc, cons_append]
      simp only [run, past, head?_cons, if_pos, tail_cons, run2, past2, if_neg filled, digitsNumber_eq]
    · rw [value_append]
      push_cast
      field_simp

theorem significand_sound (read : significand base cs = some (n, places, rest)) : ∃ m q, cs = m ++ rest ∧
    Mantissa base m q ∧ ('.' ∉ m → m ≠ [] ∧ AllDigits base m) := by
  unfold significand fraction at read
  rw [baseDigit_fun] at read
  dsimp only at read
  have parts := (takeWhile_append_dropWhile (p := isDigit base) (l := cs)).symm
  have digits := run_allDigits base cs
  generalize cs.takeWhile (isDigit base) = before at read parts digits
  generalize cs.dropWhile (isDigit base) = past at read parts
  subst parts
  by_cases point : past.head? = some '.'
  · obtain ⟨past, rfl⟩ := head?_eq_some_iff.1 point
    simp only [head?_cons, if_pos, tail_cons] at read
    have parts := (takeWhile_append_dropWhile (p := isDigit base) (l := past)).symm
    have digits2 := run_allDigits base past
    generalize past.takeWhile (isDigit base) = after at read parts digits2
    generalize past.dropWhile (isDigit base) = rest2 at read parts
    subst parts
    split_ifs at read with empty
    cases read
    exact ⟨before ++ '.' :: after, _, by simp, .point empty digits digits2, fun no_point =>
      absurd (mem_append_right before mem_cons_self) no_point⟩
  · simp only [if_neg point, append_nil] at read
    split_ifs at read with empty
    cases read
    exact ⟨before, _, rfl, .whole empty digits, fun _ => ⟨empty, digits⟩⟩

end

/-! ### Exponents -/

section
variable {cs ds sg x rest : List Char} {c : Char} {n s : Int} {marks : List Char}

/-- A first digit is no sign. -/
theorem sign_digits (digits : AllDigits 10 ds) : sign ds = (0, ds) := by
  cases ds with
  | nil => rfl
  | cons d ds =>
    have digit := digits d mem_cons_self
    have minus : (d :: ds).head? ≠ some '-' := by
      rintro ⟨⟩
      exact absurd digit (by decide)
    have plus : (d :: ds).head? ≠ some '+' := by
      rintro ⟨⟩
      exact absurd digit (by decide)
    rw [sign, if_neg minus, if_neg plus]

theorem sign_spelled (spelled : Sign sg s) (digits : AllDigits 10 ds) : (sign (sg ++ ds)).2 = ds ∧ 1 - 2 * (sign (sg ++ ds)).1 = s := by
  cases spelled with
  | none =>
    rw [nil_append, sign_digits digits]
    exact ⟨rfl, rfl⟩
  | plus => exact ⟨rfl, rfl⟩
  | minus => exact ⟨rfl, rfl⟩

theorem sign_sound (cs : List Char) : ∃ sg, cs = sg ++ (sign cs).2 ∧ Sign sg (1 - 2 * (sign cs).1) := by
  unfold sign
  split_ifs with minus plus
  · obtain ⟨rest, rfl⟩ := head?_eq_some_iff.1 minus
    exact ⟨['-'], rfl, .minus⟩
  · obtain ⟨rest, rfl⟩ := head?_eq_some_iff.1 plus
    exact ⟨['+'], rfl, .plus⟩
  · exact ⟨[], rfl, .none⟩

theorem exponentValue_spelled (signed : Sign sg s) (filled : ds ≠ []) (digits : AllDigits 10 ds) :
    exponentValue (sg ++ ds) = some (s * value 10 ds, []) := by
  obtain ⟨rest, eq⟩ := sign_spelled signed digits
  obtain ⟨run, past⟩ := run_digits [] digits (by simp)
  rw [append_nil] at run past
  rw [exponentValue, baseDigit_fun, rest, eq, digitsNumber_eq, run, past, if_neg filled]

theorem exponentValue_sound (read : exponentValue cs = some (n, [])) :
    ∃ sg ds s, cs = sg ++ ds ∧ Sign sg s ∧ ds ≠ [] ∧ AllDigits 10 ds ∧ n = s * value 10 ds := by
  obtain ⟨sg, parts, signed⟩ := sign_sound cs
  rw [exponentValue, baseDigit_fun] at read
  split_ifs at read with empty
  simp only [Option.some.injEq, Prod.mk.injEq] at read
  obtain ⟨eq, done⟩ := read
  have whole := takeWhile_append_dropWhile (p := isDigit 10) (l := (sign cs).2)
  rw [done, append_nil] at whole
  rw [whole] at empty eq
  refine ⟨sg, (sign cs).2, _, parts, signed, empty, ?_, by rw [← eq, digitsNumber_eq]⟩
  rw [← whole]
  exact run_allDigits _ _

/-- An exponent starts with its mark, which ends the digits before it. -/
theorem Exponent.head (exponent : Exponent marks x n) : ∃ c ∈ marks, x.head? = some c := by
  cases exponent with
  | mk mark => exact ⟨_, mark, rfl⟩

theorem decimalExponent_spelled (exponent : Exponent ['e', 'E'] x n) : decimalExponent x = some (n, []) := by
  cases exponent with
  | mk mark signed filled digits =>
    rw [cons_append, decimalExponent, if_pos mark]
    exact exponentValue_spelled signed filled digits

theorem binaryExponent_spelled (exponent : Exponent ['p', 'P'] x n) : binaryExponent x = some (n, []) := by
  cases exponent with
  | mk mark signed filled digits =>
    rw [cons_append, binaryExponent, if_pos mark]
    exact exponentValue_spelled signed filled digits

theorem decimalExponent_sound (read : decimalExponent cs = some (n, [])) :
    (cs = [] ∧ n = 0) ∨ Exponent ['e', 'E'] cs n := by
  cases cs with
  | nil =>
    cases read
    exact .inl ⟨rfl, rfl⟩
  | cons c rest =>
    rw [decimalExponent] at read
    split_ifs at read with mark
    · obtain ⟨sg, ds, s, rfl, signed, filled, digits, rfl⟩ := exponentValue_sound read
      exact .inr (.mk mark signed filled digits)
    · cases read

theorem binaryExponent_sound (read : binaryExponent cs = some (n, [])) : Exponent ['p', 'P'] cs n := by
  cases cs with
  | nil => cases read
  | cons c rest =>
    rw [binaryExponent] at read
    split_ifs at read with mark
    obtain ⟨sg, ds, s, rfl, signed, filled, digits, rfl⟩ := exponentValue_sound read
    exact .mk mark signed filled digits

end

/-! ### Magnitudes -/

section
variable {base n radix : Nat} {cs m x : List Char} {q : ℚ} {e i : Int}

/-- A decimal mantissa has no letter after its first digit. -/
theorem mantissa_not_prefixed {xs : List Char} (x : List Char) (mantissa : Mantissa 10 m q)
    (follow : ∀ c, x.head? = some c → c ∉ ['x', 'X', 'b', 'B']) (marks : ∀ c ∈ xs, c ∈ ['x', 'X', 'b', 'B']) : prefixed xs (m ++ x) = none := by
  have no_digit : ∀ c ∈ xs, isDigit 10 c = false := fun c mem => by
    have mark := marks c mem
    fin_cases mark <;> rfl
  refine prefixed_none fun c mem rest eq => ?_
  have digit_first {ds tail : List Char} (digits : AllDigits 10 ds) (eq : ds ++ tail = c :: rest) : ds = [] := by
    cases ds with
    | nil => rfl
    | cons d ds =>
      cases eq
      exact absurd (digits c mem_cons_self) (by simp [no_digit c mem])
  cases mantissa with
  | whole filled digits =>
    cases m with
    | nil => exact filled rfl
    | cons d ds =>
      have next : ds ++ x = c :: rest := (List.cons.inj eq).2
      obtain rfl := digit_first (fun d mem => digits d (mem_cons_of_mem _ mem)) next
      rw [nil_append] at next
      exact follow c (by rw [next]; rfl) (marks c mem)
  | point filled left right =>
    rename_i before after
    cases before with
    | nil => exact absurd (List.cons.inj eq).1 (by decide)
    | cons d ds =>
      have next : ds ++ ('.' :: after ++ x) = c :: rest := by
        rw [← append_assoc]
        exact (List.cons.inj eq).2
      obtain rfl := digit_first (fun d mem => left d (mem_cons_of_mem _ mem)) next
      obtain rfl : '.' = c := (List.cons.inj next).1
      exact absurd (marks '.' mem) (by decide)

theorem magnitude_spelled (spelled : Magnitude cs q) :
    ∃ n radix e, magnitude cs = some (n, radix, e) ∧ 0 < radix ∧ q = n * (radix : ℚ) ^ e := by
  have ten : (10 : ℚ) ≠ 0 := by norm_num
  have two : (2 : ℚ) ≠ 0 := by norm_num
  unfold magnitude
  cases spelled with
  | fractional mantissa =>
    have plain : prefixed ['x', 'X'] (cs ++ []) = none := mantissa_not_prefixed [] mantissa (by simp) (by simp)
    obtain ⟨n, places, read, rfl⟩ := significand_spelled [] (by decide) mantissa (by simp)
    rw [append_nil] at plain read
    refine ⟨n, 10, 0 - places, ?_, by decide, ?_⟩
    · simp [plain, read, decimalExponent]
    · rw [zero_sub, zpow_neg, zpow_natCast]
      push_cast
      rw [div_eq_mul_inv]
  | scientific mantissa exponent =>
    rename_i m x q i
    obtain ⟨c, mark, head⟩ := exponent.head
    have only : ∀ c', x.head? = some c' → c' = c := fun c' head' => by
      rw [head] at head'
      exact (Option.some.inj head').symm
    have plain : prefixed ['x', 'X'] (m ++ x) = none := by
      refine mantissa_not_prefixed x mantissa (fun c' head' => ?_) (by simp)
      rw [only c' head']
      fin_cases mark <;> decide
    obtain ⟨n, places, read, rfl⟩ := significand_spelled x (by decide) mantissa fun c' head' => by
      rw [only c' head']
      fin_cases mark <;> decide
    refine ⟨n, 10, i - places, ?_, by decide, ?_⟩
    · simp [plain, read, decimalExponent_spelled exponent]
    · push_cast
      rw [zpow_sub₀ ten, zpow_natCast]
      ring
  | hexadecimal mark mantissa exponent =>
    rename_i c m x q i
    have found : prefixed ['x', 'X'] ('0' :: c :: (m ++ x)) = some (m ++ x) := prefixed_some.2 ⟨c, mark, rfl⟩
    obtain ⟨p, isP, head⟩ := exponent.head
    obtain ⟨n, places, read, rfl⟩ := significand_spelled x (by decide) mantissa fun c' head' => by
      rw [head] at head'
      obtain rfl := Option.some.inj head'
      fin_cases isP <;> decide
    refine ⟨n, 2, i - 4 * places, ?_, by decide, ?_⟩
    · simp [found, read, binaryExponent_spelled exponent]
    · have sixteen : ((16 : Nat) : ℚ) ^ places = 2 ^ (4 * (places : Int)) := by
        rw [zpow_mul, zpow_natCast]
        norm_num
      rw [sixteen]
      push_cast
      rw [zpow_sub₀ two]
      ring

theorem magnitude_sound (read : magnitude cs = some (n, radix, e)) :
    (∃ q, Magnitude cs q) ∨ cs ≠ [] ∧ AllDigits 10 cs := by
  unfold magnitude at read
  split at read
  · rename_i rest found
    obtain ⟨c, mark, rfl⟩ := prefixed_some.1 found
    simp only [bind_eq_bind, bind_eq_some_iff] at read
    obtain ⟨⟨n', places, rest'⟩, first, ⟨i, last⟩, second, done⟩ := read
    dsimp only at first second done
    split_ifs at done with empty
    rw [empty] at second
    obtain ⟨m, q, rfl, mantissa, _⟩ := significand_sound first
    exact .inl ⟨_, .hexadecimal mark mantissa (binaryExponent_sound second)⟩
  · simp only [bind_eq_bind, bind_eq_some_iff] at read
    obtain ⟨⟨n', places, rest'⟩, first, ⟨i, last⟩, second, done⟩ := read
    dsimp only at first second done
    split_ifs at done with empty
    rw [empty] at second
    obtain ⟨m, q, rfl, mantissa, bare⟩ := significand_sound first
    rcases decimalExponent_sound second with ⟨rfl, -⟩ | exponent
    · rw [append_nil]
      by_cases point : '.' ∈ m
      · exact .inl ⟨q, .fractional mantissa point⟩
      · exact .inr (bare point)
    · exact .inl ⟨_, .scientific mantissa exponent⟩

end

end Nanofil.Constants
