import Nanofil.Constants.Floats

/-! Constants are read as the standard has them: each one gets its value and its type, and nothing else is read but
two kinds of near misses. -/
namespace Nanofil.Constants
open List Option
open Switching (IntType)

/-! ### Types -/

theorem constantTypes_listed (radix : Radix) (suffix : Suffix) : constantTypes radix suffix = listed radix suffix := by
  cases radix <;> cases suffix <;> decide

theorem fits_iff (v : Nat) (t : IntType) : fits v t = true ↔ v ≤ largest t := by
  have unit (i : Nat) : 0 < 2 ^ i := Nat.two_pow_pos i
  have below (i : Nat) : v < 2 ^ i ↔ v ≤ 2 ^ i - 1 := Nat.lt_iff_le_pred (unit i)
  unfold fits belowMax largest
  cases Switching.sign t <;> simp [below]

/-- The type is the first of the list that holds the value, and the last of all where none does. -/
theorem numType_first (v : Nat) (suffix : Suffix) (radix : Radix) :
    FirstHolding v (listed radix suffix) (numType v suffix radix) ∨
      (∀ t ∈ listed radix suffix, largest t < v) ∧ numType v suffix radix = .ullong := by
  rw [← constantTypes_listed]
  unfold numType
  cases found : (constantTypes radix suffix).find? (fits v ·) with
  | none =>
    refine .inr ⟨fun t mem => ?_, rfl⟩
    have := find?_eq_none.1 found t mem
    rwa [fits_iff, not_le] at this
  | some t =>
    obtain ⟨holds, before, after, split, none⟩ := find?_eq_some_iff_append.1 found
    refine .inl ⟨before, after, split, (fits_iff v t).1 holds, fun u mem => ?_⟩
    have := none u mem
    rwa [Bool.not_eq_eq_eq_not, Bool.not_true, Bool.eq_false_iff, Ne, fits_iff, not_le] at this

/-! ### Spellings -/

section
variable {cs body tail ds : List Char} {q : ℚ} {t : FloatType} {c : Char}

theorem PpNumber.head (spelled : PpNumber cs) : ∃ c, cs.head? = some c ∧ (decimal c = true ∨ c = '.') := by
  induction spelled with
  | digit digit => exact ⟨_, rfl, .inl digit⟩
  | point => exact ⟨_, rfl, .inr rfl⟩
  | char _ _ ih | exponent _ _ _ ih =>
    obtain ⟨c, head, first⟩ := ih
    exact ⟨c, by rw [head?_append, head]; rfl, first⟩

/-- What the lexer hands on after a first digit, or a point and a digit, is a pp-number. -/
theorem ppNumberRest_spelled {pre : List Char} (start : PpNumber pre) : PpNumber (pre ++ (ppNumberRest cs).1) := by
  induction cs using ppNumberRest.induct generalizing pre with
  | case1 | case3 => simp [ppNumberRest, *]
  | case2 c char => simpa [ppNumberRest, char] using start.char (by simpa using char)
  | case4 e s cs mark ih => simpa [ppNumberRest, mark] using ih (start.exponent mark.1 mark.2)
  | case5 e s cs other char ih =>
    rw [ppNumberRest, if_neg other, if_pos char]
    simpa using ih (start.char (by simpa using char))
  | case6 e s cs other stop => rwa [ppNumberRest, if_neg other, if_neg stop, append_nil]

theorem ppNumberRest_append {us ws : List Char} (taken : (ppNumberRest us).1 = us) (rest : (ppNumberRest ws).1 = ws)
    (unsigned : ∀ s ∈ ws.head?, s ∉ ['+', '-']) : (ppNumberRest (us ++ ws)).1 = us ++ ws := by
  induction us using ppNumberRest.induct <;> cases ws <;> grind [ppNumberRest]

theorem prefix_ppNumberRest {us : List Char} (vs : List Char) (taken : (ppNumberRest us).1 = us) : us <+: (ppNumberRest (us ++ vs)).1 := by
  induction us using ppNumberRest.induct <;> cases vs <;> grind [ppNumberRest]

theorem spelled_taken {pre us : List Char} {d : Char} (digit : decimal d = true) (start : pre = [d] ∨ pre = ['.', d])
    (spelled : PpNumber (pre ++ us)) : (ppNumberRest us).1 = us := by
  have last : pre.getLast? = some d := by rcases start with rfl | rfl <;> rfl
  have unsigned {c : Char} (char : identChar c = true ∨ c = '.') : c ∉ ['+', '-'] := by
    rintro mem
    simp only [mem_cons, not_mem_nil, or_false] at mem
    rcases mem with rfl | rfl <;> exact absurd char (by decide)
  generalize all : pre ++ us = cs at spelled
  induction spelled generalizing us with
  | digit | point other =>
    rcases start with rfl | rfl <;> cases all <;> first
    | rfl
    | exact absurd digit (by decide)
  | @char cs c _ char ih =>
    rcases us.eq_nil_or_concat' with rfl | ⟨us, c', rfl⟩
    · rfl
    · obtain ⟨before, rfl⟩ : pre ++ us = cs ∧ c' = c := by simpa [← append_assoc] using all
      exact ppNumberRest_append (ih before) (by rw [ppNumberRest, if_pos (by simpa using char)]) (by simpa using unsigned char)
  | @exponent cs e s _ mark signed ih =>
    have char : decimal e = false ∧ identChar e = true := by
      simp only [mem_cons, not_mem_nil, or_false] at mark
      rcases mark with rfl | rfl | rfl | rfl <;> decide
    rcases us.eq_nil_or_concat' with rfl | ⟨us, s', rfl⟩
    · rfl
    · rw [← append_assoc, append_cons cs] at all
      obtain ⟨before, same⟩ := append_inj' all rfl
      cases same
      rcases us.eq_nil_or_concat' with rfl | ⟨us, e', rfl⟩
      · rw [append_nil] at before
        rw [before, getLast?_concat] at last
        cases last
        exact absurd digit (by simp [char.1])
      · rw [← append_assoc] at before
        obtain ⟨earlier, same⟩ := append_inj' before rfl
        cases same
        rw [← append_cons]
        exact ppNumberRest_append (ih earlier) (by rw [ppNumberRest, if_pos ⟨mark, signed⟩]; rfl) (by simpa using unsigned (.inl char.2))

theorem ppNumberRest_split (cs : List Char) : (ppNumberRest cs).1 ++ (ppNumberRest cs).2 = cs := by
  induction cs using ppNumberRest.induct <;> grind [ppNumberRest]

/-- After a first digit the lexer takes the longest pp-number, and hands on the rest. -/
theorem ppNumberRest_longest (d : Char) (pre cs : List Char) (digit : decimal d = true) (start : pre = [d] ∨ pre = ['.', d]) :
    PpNumber (pre ++ (ppNumberRest cs).1) ∧ (ppNumberRest cs).1 ++ (ppNumberRest cs).2 = cs ∧
      ∀ us vs, us ++ vs = cs → PpNumber (pre ++ us) → us <+: (ppNumberRest cs).1 := by
  refine ⟨ppNumberRest_spelled ?_, ppNumberRest_split cs, fun us vs split spelled => ?_⟩
  · rcases start with rfl | rfl
    · exact .digit digit
    · exact .point digit
  · exact split ▸ prefix_ppNumberRest vs (spelled_taken digit start spelled)

theorem ppNumberRest_longest_sign : PpNumber (['1'] ++ (ppNumberRest ['e', '+', 'x']).1) :=
  (ppNumberRest_longest '1' ['1'] ['e', '+', 'x'] (by decide) (.inl rfl)).1

/-- No sign starts a pp-number. -/
theorem sign_spelled_none (spelled : PpNumber (body ++ tail)) : sign body = (0, body) := by
  cases body with
  | nil => rfl
  | cons d ds =>
    obtain ⟨c, head, first⟩ := spelled.head
    obtain rfl : d = c := Option.some.inj head
    have minus : (d :: ds).head? ≠ some '-' := by
      rintro ⟨⟩
      exact absurd first (by decide)
    have plus : (d :: ds).head? ≠ some '+' := by
      rintro ⟨⟩
      exact absurd first (by decide)
    rw [sign, if_neg minus, if_neg plus]

/-! ### Characters -/

theorem digit_floatChar {base : Nat} (digit : isDigit base c = true) : floatChar c = true := by
  have weight : (digitWeight c).isSome = true := by
    rw [isDigit] at digit
    cases found : digitWeight c with
    | none => simp [found] at digit
    | some w => rfl
  rw [floatChar, weight, Bool.or_true]

theorem Mantissa.chars {base : Nat} (mantissa : Mantissa base body q) : ∀ c ∈ body, floatChar c = true := by
  cases mantissa with
  | whole _ digits => exact fun c mem => digit_floatChar (digits c mem)
  | point _ left right =>
    intro c mem
    rcases mem_append.1 mem with before | after
    · exact digit_floatChar (left c before)
    · rcases mem_cons.1 after with rfl | after
      · rfl
      · exact digit_floatChar (right c after)

theorem Exponent.chars {marks : List Char} {n : Int} (exponent : Exponent marks cs n)
    (known : ∀ c ∈ marks, floatChar c = true) : ∀ c ∈ cs, floatChar c = true := by
  cases exponent with
  | mk mark signed filled digits =>
    intro c mem
    rcases mem_append.1 mem with first | digit
    · rcases mem_cons.1 first with rfl | inSign
      · exact known _ mark
      · cases signed with
        | none => cases inSign
        | plus | minus =>
          obtain rfl := mem_singleton.1 inSign
          rfl
    · exact digit_floatChar (digits c digit)

theorem Magnitude.chars (magnitude : Magnitude body q) : ∀ c ∈ body, floatChar c = true := by
  cases magnitude with
  | fractional mantissa => exact mantissa.chars
  | scientific mantissa exponent =>
    intro c mem
    exact (mem_append.1 mem).elim (mantissa.chars c) (exponent.chars (List.all_eq_true.1 (by decide)) c)
  | hexadecimal mark mantissa exponent =>
    intro c mem
    rcases mem_cons.1 mem with rfl | mem
    · rfl
    rcases mem_cons.1 mem with rfl | mem
    · fin_cases mark <;> rfl
    · exact (mem_append.1 mem).elim (mantissa.chars c) (exponent.chars (List.all_eq_true.1 (by decide)) c)

/-- Without a suffix the last character is a digit or a point. -/
theorem Magnitude.last (magnitude : Magnitude body q) :
    ∃ c, body.getLast? = some c ∧ (isDigit 10 c = true ∨ c = '.') := by
  have of_digits {ds : List Char} (pre : List Char) (filled : ds ≠ []) (digits : AllDigits 10 ds) :
      ∃ c, (pre ++ ds).getLast? = some c ∧ isDigit 10 c = true := by
    refine ⟨ds.getLast filled, ?_, digits _ (getLast_mem filled)⟩
    rw [getLast?_append, getLast?_eq_getLast_of_ne_nil filled]
    rfl
  have of_exponent {marks x : List Char} {n : Int} (pre : List Char) (exponent : Exponent marks x n) :
      ∃ c, (pre ++ x).getLast? = some c ∧ isDigit 10 c = true := by
    cases exponent with
    | mk mark signed filled digits =>
      rw [← append_assoc]
      exact of_digits _ filled digits
  cases magnitude with
  | fractional mantissa point =>
    cases mantissa with
    | whole filled digits => exact absurd (digits '.' point) (by decide)
    | point filled left right =>
      rename_i before after
      by_cases none : after = []
      · exact ⟨'.', by simp [none], .inr rfl⟩
      · obtain ⟨c, last, digit⟩ := of_digits (before ++ ['.']) none right
        exact ⟨c, by simpa using last, .inl digit⟩
  | scientific mantissa exponent =>
    obtain ⟨c, last, digit⟩ := of_exponent _ exponent
    exact ⟨c, last, .inl digit⟩
  | hexadecimal mark mantissa exponent =>
    rename_i x m e q n
    obtain ⟨c, last, digit⟩ := of_exponent ('0' :: x :: m) exponent
    exact ⟨c, last, .inl digit⟩

/-! ### Reading floating constants -/

theorem ieeeParse_correct {k : Ieee.Fmt} (unsigned : sign body = (0, body)) (magnitude : Magnitude body q) :
    ∃ b, ieeeParse k body = some b ∧ Ieee.CorrectlyRounded k q b := by
  obtain ⟨n, radix, e, read, positive, rfl⟩ := magnitude_spelled magnitude
  unfold ieeeParse
  rw [unsigned]
  simp only [read, bind_eq_bind, bind_some]
  have nonneg : (0 : Int) ≤ n := Int.natCast_nonneg n
  split_ifs with up
  · obtain ⟨i, rfl⟩ := Int.eq_ofNat_of_zero_le up
    refine ⟨_, rfl, ?_⟩
    have rounded := Ieee.roundRatio_correct (k := k) (n := n * radix ^ i) (d := 1) (by positivity) one_pos
    simpa using rounded
  · obtain ⟨i, eq⟩ := Int.eq_ofNat_of_zero_le (show 0 ≤ -e by omega)
    obtain rfl : e = -(i : Int) := by omega
    refine ⟨_, rfl, ?_⟩
    have rounded := Ieee.roundRatio_correct (k := k) (n := n) (d := radix ^ i) nonneg (by positivity)
    simpa [div_eq_mul_inv] using rounded

theorem FloatSuffix.chars (suffix : FloatSuffix tail t) : ∀ c ∈ tail, floatChar c = true := by
  cases suffix with
  | none => simp
  | f mark | l mark => fin_cases mark <;> exact List.all_eq_true.1 (by decide)

theorem floatLiteral_spelled (magnitude : Magnitude body q) (suffix : FloatSuffix tail t) :
    floatLiteral (body ++ tail) = (ieeeParse (floatClass t) body).map (·, t) := by
  cases suffix with
  | none =>
    obtain ⟨c, last, char⟩ := magnitude.last
    have no_f : c ∉ ['f', 'F'] := fun mem => by
      fin_cases mem <;> exact absurd char (by decide)
    have no_l : c ∉ ['l', 'L'] := fun mem => by
      fin_cases mem <;> exact absurd char (by decide)
    rw [append_nil, floatLiteral, last, bind_eq_bind, bind_some, if_neg no_f, if_neg no_l]
  | f mark =>
    rename_i c
    rw [floatLiteral, getLast?_concat, bind_eq_bind, bind_some, if_pos mark, dropLast_concat]
  | l mark =>
    rename_i c
    have no_f : c ∉ ['f', 'F'] := by
      fin_cases mark <;> decide
    rw [floatLiteral, getLast?_concat, bind_eq_bind, bind_some, if_neg no_f, if_pos mark,
      dropLast_concat]

theorem floatLiteral_sound {r : Int × FloatType} (read : floatLiteral cs = some r) :
    ∃ body tail, cs = body ++ tail ∧ FloatSuffix tail r.2 ∧ (ieeeParse (floatClass r.2) body).isSome := by
  rw [floatLiteral] at read
  obtain ⟨c, last, read⟩ := bind_eq_some_iff.1 read
  have parts : cs = cs.dropLast ++ [c] := (dropLast_append_getLast? c last).symm
  split_ifs at read with isF isL
  · obtain ⟨bits, parsed, rfl⟩ := map_eq_some_iff.1 read
    exact ⟨cs.dropLast, [c], parts, .f isF, by simp [parsed]⟩
  · obtain ⟨bits, parsed, rfl⟩ := map_eq_some_iff.1 read
    exact ⟨cs.dropLast, [c], parts, .l isL, by simp [parsed]⟩
  · obtain ⟨bits, parsed, rfl⟩ := map_eq_some_iff.1 read
    exact ⟨cs, [], (append_nil cs).symm, .none, by simp [parsed]⟩

/-! ### The two readers together -/

theorem bare_exponent_no_integer {e : Char} {rest : List Char} (filled : ds ≠ []) (digits : AllDigits 10 ds)
    (mark : e ∈ ['e', 'E']) : integerLiteral (ds ++ e :: rest) = none := by
  have plain {xs : List Char} (marks : ∀ c ∈ xs, c ∈ ['x', 'X', 'b', 'B']) : prefixed xs (ds ++ e :: rest) = none := by
    refine mantissa_not_prefixed _ (.whole filled digits) ?_ marks
    rintro c ⟨⟩
    fin_cases mark <;> decide
  have no_digit : isDigit 8 e = false ∧ isDigit 10 e = false := by fin_cases mark <;> decide
  have no_letter : e ∉ ['u', 'U', 'l', 'L'] := by fin_cases mark <;> decide
  unfold integerLiteral
  rw [plain (by simp), plain (by simp)]
  dsimp only
  split_ifs with zero
  · cases ds with
    | nil => exact absurd rfl filled
    | cons d ds => exact digitsSuffix_none (c := e) (funext octDigit_eq) (by simp) no_digit.1 no_letter
  · exact digitsSuffix_none (c := e) (funext decimal_eq) (by simp) no_digit.2 no_letter

/-- No floating constant is read as an integer. -/
theorem floating_no_integer (magnitude : Magnitude body q) : integerLiteral (body ++ tail) = none := by
  have of_point (point : '.' ∈ body) : integerLiteral (body ++ tail) = none :=
    integerLiteral_none (c := '.') (mem_append_left tail point) rfl (by decide)
  cases magnitude with
  | fractional mantissa point => exact of_point point
  | scientific mantissa exponent =>
    cases mantissa with
    | whole filled digits =>
      cases exponent with
      | mk mark =>
        rw [append_assoc, cons_append, cons_append]
        exact bare_exponent_no_integer filled digits mark
    | point => exact of_point (by simp)
  | hexadecimal mark mantissa exponent =>
    obtain ⟨p, isP, head⟩ := exponent.head
    obtain ⟨x, rfl⟩ := head?_eq_some_iff.1 head
    refine integerLiteral_none (c := p) (by simp) ?_ ?_ <;> fin_cases isP <;> decide

theorem constant_integer {v : Nat} {s : Suffix} {r : Radix} (spelled : IntegerConstant cs v s r) :
    constant cs = some (.integer v (numType v s r)) := by
  rw [constant, numberToken, integerLiteral_spelled spelled]

theorem constant_floating (spelled : PpNumber cs) (floating : FloatingConstant cs q t) :
    ∃ b, constant cs = some (.floating b t) ∧ Ieee.CorrectlyRounded (floatClass t) q b := by
  cases floating with
  | mk magnitude suffix =>
    rename_i body tail
    obtain ⟨b, parsed, rounded⟩ := ieeeParse_correct (k := floatClass t) (sign_spelled_none spelled) magnitude
    have chars : (body ++ tail).all floatChar = true := by
      rw [List.all_eq_true]
      exact fun c mem => (mem_append.1 mem).elim (magnitude.chars c) (suffix.chars c)
    have read := floatLiteral_spelled magnitude suffix
    rw [parsed, map_some] at read
    refine ⟨b, ?_, rounded⟩
    rw [constant, numberToken, floating_no_integer magnitude]
    simp only [chars, if_true, read, map_some]

/-- Every spelling read is a constant or a near miss. -/
theorem constant_sound (spelled : PpNumber cs) (read : (constant cs).isSome) : (∃ v s r, IntegerConstant cs v s r) ∨
    (∃ q t, FloatingConstant cs q t) ∨ MixedLong cs ∨ BareDigits cs := by
  rw [constant, numberToken] at read
  cases found : integerLiteral cs with
  | some parts =>
    obtain ⟨v, s, r⟩ := parts
    rcases integerLiteral_sound found with integer | mixed
    · exact .inl ⟨v, s, r, integer⟩
    · exact .inr (.inr (.inl mixed))
  | none =>
    have no_integer : NoInteger cs := fun v s r integer => by
      rw [integerLiteral_spelled integer] at found
      cases found
    rw [found] at read
    split_ifs at read with chars
    · obtain ⟨c, converted⟩ := isSome_iff_exists.1 read
      obtain ⟨⟨bits, t⟩, literal, -⟩ := map_eq_some_iff.1 converted
      obtain ⟨body, tail, rfl, suffix, parsed⟩ := floatLiteral_sound literal
      rw [ieeeParse, sign_spelled_none spelled] at parsed
      obtain ⟨b, parsed⟩ := isSome_iff_exists.1 parsed
      obtain ⟨⟨n, radix, e⟩, magnitude, -⟩ := bind_eq_some_iff.1 parsed
      rcases magnitude_sound magnitude with ⟨q, floating⟩ | ⟨filled, digits⟩
      · exact .inr (.inl ⟨q, t, .mk floating suffix⟩)
      · exact .inr (.inr (.inr ⟨no_integer, body, tail, t, rfl, filled, digits, suffix⟩))
    · cases read

end

theorem constants_exact {cs : List Char} (spelled : PpNumber cs) :
    (∀ v s r, IntegerConstant cs v s r → ∃ t, constant cs = some (.integer v t) ∧
      (FirstHolding v (listed r s) t ∨ (∀ u ∈ listed r s, largest u < v) ∧ t = .ullong)) ∧
    (∀ q t, FloatingConstant cs q t → ∃ b, constant cs = some (.floating b t) ∧
      Ieee.CorrectlyRounded (floatClass t) q b) ∧
    (NoInteger cs → NoFloating cs → ¬ MixedLong cs → ¬ BareDigits cs → constant cs = none) := by
  refine ⟨fun v s r integer => ⟨_, constant_integer integer, numType_first v s r⟩,
    fun q t floating => constant_floating spelled floating, fun no_integer no_floating no_mixed no_bare => ?_⟩
  by_contra read
  rcases constant_sound spelled (isSome_iff_ne_none.2 read) with ⟨v, s, r, integer⟩ | ⟨q, t, floating⟩ | mixed | bare
  · exact no_integer v s r integer
  · exact no_floating q t floating
  · exact no_mixed mixed
  · exact no_bare bare

theorem threeHalves_exact : ∃ b, constant ['1', '.', '5'] = some (.floating b .double) ∧
    Ieee.CorrectlyRounded .d (3 / 2) b := by
  have one : PpNumber ['1'] := .digit rfl
  have point : PpNumber (['1'] ++ ['.']) := .char one (.inr rfl)
  have spelled : PpNumber (['1', '.'] ++ ['5']) := .char point (.inl rfl)
  have mantissa : Mantissa 10 (['1'] ++ '.' :: ['5']) _ := .point (by decide) (by simp [AllDigits]; rfl) (by simp [AllDigits]; rfl)
  have floating : FloatingConstant ((['1'] ++ '.' :: ['5']) ++ []) _ .double := .mk (.fractional mantissa (by decide)) .none
  have amount : (value 10 ['1'] + value 10 ['5'] / ((10 : Nat) : ℚ) ^ ['5'].length) = 3 / 2 := by
    rw [show value 10 ['1'] = 1 from rfl, show value 10 ['5'] = 5 from rfl]
    norm_num
  rw [amount] at floating
  exact (constants_exact spelled).2.1 _ _ floating

theorem digits_no_floating {cs : List Char} (digits : AllDigits 10 cs) : NoFloating cs := by
  intro q t floating
  have never {c : Char} (mem : c ∈ cs) (no_digit : isDigit 10 c = false) : False := by simp [digits c mem] at no_digit
  cases floating with
  | mk magnitude suffix =>
    cases magnitude with
    | fractional mantissa point => exact never (mem_append_left _ point) rfl
    | scientific mantissa exponent | hexadecimal mark mantissa exponent =>
      obtain ⟨e, isE, head⟩ := exponent.head
      obtain ⟨x, rfl⟩ := head?_eq_some_iff.1 head
      exact never (c := e) (by simp) (by fin_cases isE <;> rfl)

/-- An octal constant with a digit 8 is read as a double; an integer that no type holds is read all the same. -/
theorem near_misses : (PpNumber ['0', '8'] ∧ NoInteger ['0', '8'] ∧ NoFloating ['0', '8'] ∧
      constant ['0', '8'] = some (.floating 0x4020000000000000 .double)) ∧
    (IntegerConstant ('1' :: List.replicate 20 '0') (10 ^ 20) .none .dec ∧
      constant ('1' :: List.replicate 20 '0') = some (.integer (10 ^ 20) .ullong) ∧
      ∀ t ∈ listed .dec .none, largest t < 10 ^ 20) := by
  have digits : AllDigits 10 ['0', '8'] := by simp [AllDigits]; decide
  have no_integer : NoInteger ['0', '8'] := fun v s r integer => by
    have read := integerLiteral_spelled integer
    rw [show integerLiteral ['0', '8'] = none from rfl] at read
    cases read
  have large : IntegerConstant ('1' :: List.replicate 20 '0') (10 ^ 20) .none .dec := by
    have amount : value 10 ('1' :: List.replicate 20 '0') = 10 ^ 20 := by decide +kernel
    have spelled : IntegerConstant ('1' :: List.replicate 20 '0' ++ []) _ .none .dec :=
      .decimal (by decide) (fun d mem => by fin_cases mem <;> rfl) .none
    rwa [amount, append_nil] at spelled
  have holds : ∀ t ∈ listed .dec .none, largest t < 10 ^ 20 := by decide
  have zero : PpNumber ['0'] := .digit rfl
  have spelled : PpNumber (['0'] ++ ['8']) := .char zero (.inl rfl)
  exact ⟨⟨spelled, no_integer, digits_no_floating digits, by decide +kernel⟩,
    large, (constant_integer large).trans (by decide), holds⟩

end Nanofil.Constants
