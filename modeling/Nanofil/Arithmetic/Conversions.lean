import Nanofil.Arithmetic.Rules
import Nanofil.Switching.Dispatch

/-! The conversions between integer types keep values as C does. -/
namespace Nanofil.Arithmetic
open Switching (IntType size sign typeClass convertInt span lowest InRange)

/-! ### Values of a type -/

section
variable {t : IntType} {x y : Int}

theorem span_cases (t : IntType) : size t = 1 ∧ span t = 2 ^ 8 ∨ size t = 2 ∧ span t = 2 ^ 16 ∨ size t = 4 ∧ span t = 2 ^ 32 ∨
    size t = 8 ∧ span t = 2 ^ 64 := by
  cases t <;> decide

theorem convertInt_span (other : t ≠ .bool) : InRange t (convertInt x t) ∧ convertInt x t % span t = x % span t := by
  have eq : convertInt x t = Switching.signedWord (sign t) (x % span t) (span t) := by
    cases t <;> first | rfl | exact absurd rfl other
  rw [eq, InRange, lowest]
  cases sign t <;> rcases span_cases t with ⟨-, is⟩ | ⟨-, is⟩ | ⟨-, is⟩ | ⟨-, is⟩ <;> rw [is] <;> dsimp only [Switching.signedWord]
  case signed.inl | signed.inr.inl | signed.inr.inr.inl | signed.inr.inr.inr => split_ifs <;> omega
  all_goals omega

theorem convertInt_bool : convertInt x .bool = if x = 0 then 0 else 1 := rfl

/-- A conversion gives a value of the type, and leaves one alone. -/
theorem convertInt_fixed : convertInt (convertInt x t) t = convertInt x t := by
  by_cases other : t = .bool
  · subst other
    simp only [convertInt_bool]
    split_ifs <;> simp_all
  · obtain ⟨inside, same⟩ := convertInt_span (x := convertInt x t) other
    obtain ⟨was, -⟩ := convertInt_span (x := x) other
    rw [InRange] at inside was
    rcases span_cases t with ⟨-, is⟩ | ⟨-, is⟩ | ⟨-, is⟩ | ⟨-, is⟩ <;> rw [is] at inside was same <;> omega

theorem value_inRange (value : convertInt x t = x) : InRange t x := by
  by_cases other : t = .bool
  · subst other
    rw [convertInt_bool] at value
    have bounds : 0 ≤ x ∧ x < 2 ^ 8 := by split_ifs at value <;> omega
    exact bounds
  · exact value ▸ (convertInt_span other).1

end

/-! ### Words -/

/-- Of a narrow type only the low half of the word counts. -/
def wordSpan (t : IntType) : Int := if size t = 8 then 2 ^ 64 else 2 ^ 32

/-- The IR value stands for a value of its type; a constant is that value. -/
structure Represents (env : Env) (a : Lowered) (x : Int) : Prop where
  value : convertInt x a.type = x
  word : (bits env a.v : Int) % wordSpan a.type = x % wordSpan a.type
  const : ∀ n, a.v = .const n → n = x

section
variable {env : Env} {a : Lowered} {src dst t : IntType} {x : Int} {v : Value} {known : List Value} {w : Nat}

/-- What an extension of the low half gives. -/
theorem extended_half (inX : InRange t x) (narrow : size t < 8) (word : (w : Int) % 2 ^ 32 = x % 2 ^ 32) :
    (extended 4 (sign t) w : Int) = x % 2 ^ 64 := by
  have bound : span t ≤ 2 ^ 32 := by rcases span_cases t with ⟨-, is⟩ | ⟨-, is⟩ | ⟨-, is⟩ | ⟨is, -⟩ <;> omega
  rw [InRange, lowest] at inX
  cases is : sign t with
  | signed =>
    rw [is] at inX
    simp only [extended, true_and, Nat.reduceMul, Nat.reduceSub, Nat.reducePow] at inX ⊢
    split_ifs <;> omega
  | unsigned =>
    rw [is] at inX
    simp only [extended, reduceCtorEq, false_and, if_false, Nat.reduceMul, Nat.reducePow] at inX ⊢
    omega

theorem word_half (word : (w : Int) % wordSpan t = x % wordSpan t) : (w : Int) % 2 ^ 32 = x % 2 ^ 32 := by
  unfold wordSpan at word
  split_ifs at word <;> omega

/-- What a narrowing of the low half gives. -/
theorem extended_narrow (other : t ≠ .bool) (narrow : size t < 4) (word : (w : Int) % 2 ^ 32 = x % 2 ^ 32) :
    (extended (size t) (sign t) w : Int) % 2 ^ 32 = convertInt x t % 2 ^ 32 := by
  obtain ⟨inside, same⟩ := convertInt_span (x := x) other
  rw [InRange, lowest] at inside
  generalize convertInt x t = y at inside same
  rcases span_cases t with ⟨is, eq⟩ | ⟨is, eq⟩ | ⟨is, -⟩ | ⟨is, -⟩ <;> try omega
  all_goals
    rw [eq] at inside same
    rw [is]
    cases as : sign t with
    | signed =>
      rw [as] at inside
      simp only [extended, true_and, Nat.reduceMul, Nat.reduceSub, Nat.reducePow] at inside ⊢
      split_ifs <;> omega
    | unsigned =>
      rw [as] at inside
      simp only [extended, reduceCtorEq, false_and, if_false, Nat.reduceMul, Nat.reducePow] at inside ⊢
      omega

theorem representable_inRange (fits : representable (size src) (sign src) (size dst) (sign dst) = true) (inX : InRange src x) :
    InRange dst x := by
  have le : size src < size dst → 2 * span src ≤ span dst ∧ 0 < span src ∧ span dst % 2 = 0 ∧ span src % 2 = 0 := by
    cases src <;> cases dst <;> decide
  have same : size src = size dst → span src = span dst := fun eq => by rw [span, span, eq]
  simp only [representable, Bool.or_eq_true, Bool.and_eq_true, decide_eq_true_eq] at fits
  rw [InRange, lowest] at inX ⊢
  rcases fits with ⟨less, fits⟩ | ⟨size, sign⟩
  · obtain ⟨double, positive, even, even'⟩ := le less
    cases toS : sign dst <;> cases fromS : sign src <;> simp only [toS, fromS] at fits inX ⊢
    case unsigned.signed => simp at fits
    all_goals omega
  · rw [← same size, ← sign]
    exact inX

theorem convertInt_self (other : t ≠ .bool) (inX : InRange t x) : convertInt x t = x := by
  obtain ⟨inside, same⟩ := convertInt_span (x := x) other
  rw [InRange] at inX inside
  rcases span_cases t with ⟨-, is⟩ | ⟨-, is⟩ | ⟨-, is⟩ | ⟨-, is⟩ <;> rw [is] at inX inside same <;> omega

theorem onBits_ext (n : Nat) (s : Signedness) (k : Cls) (int : k = .l ∨ k = .w) (narrow : n = 1 ∨ n = 2 ∨ n = 4) :
    (∃ ka, machine (.ext (narrowOp n s)) k = some [ka]) ∧
      ∀ w, onBits (.ext (narrowOp n s)) k [w] = if k = .l then extended n s w else extended n s w % 2 ^ 32 := by
  rcases narrow with rfl | rfl | rfl <;> cases s <;> rcases int with rfl | rfl <;> exact ⟨⟨_, rfl⟩, fun _ => rfl⟩

theorem gives_intConvert (here : Usable known v) (other : dst ≠ .bool) :
    Gives known (intConvert src dst v) (fun r => [r]) fun env r => ((∀ n, v ≠ .const n) → ∀ n, r ≠ .const n) ∧
      ∀ x, convertInt x src = x → (bits env v : Int) % wordSpan src = x % wordSpan src →
        (bits env r : Int) % wordSpan dst = convertInt x dst % wordSpan dst := by
  unfold intConvert
  split_ifs with wide narrow
  · obtain ⟨⟨ka, table⟩, eq⟩ := onBits_ext 4 (sign src) .l (.inl rfl) (by decide)
    refine ((Gives.unary here ⟨ka, table⟩).fresh fun s => ⟨_, rfl⟩).weaken fun env r shown => ⟨fun _ => shown.2, ?_⟩
    intro x value word
    have out := shown.1
    rw [eq, if_pos rfl] at out
    obtain ⟨-, same⟩ := convertInt_span (x := x) other
    rw [out, extended_half (value_inRange value) wide.2 (word_half word), wordSpan, if_pos wide.1, Int.emod_emod_of_dvd _ (dvd_refl _)]
    rwa [span, wide.1, eq_comm] at same
  · obtain ⟨⟨ka, table⟩, eq⟩ := onBits_ext (size dst) (sign dst) .w (.inr rfl) (by have := span_cases dst; omega)
    refine ((Gives.unary here ⟨ka, table⟩).fresh fun s => ⟨_, rfl⟩).weaken fun env r shown => ⟨fun _ => shown.2, ?_⟩
    intro x value word
    have out := shown.1
    rw [eq, if_neg (by decide)] at out
    rw [out, wordSpan, if_neg (by omega), ← extended_narrow other narrow.1 (word_half word)]
    omega
  · refine .pure (by simpa using here) fun env => ⟨fun fresh => fresh, fun x value word => ?_⟩
    obtain ⟨-, same⟩ := convertInt_span (x := x) other
    have small : size dst < 4 → (bits env v : Int) % wordSpan dst = convertInt x dst % wordSpan dst := fun small => by
      have fits : representable (size src) (sign src) (size dst) (sign dst) = true := by
        by_contra no
        exact narrow ⟨small, by simpa using no⟩
      rw [convertInt_self other (representable_inRange fits (value_inRange value)), wordSpan, if_neg (by omega)]
      exact word_half word
    rcases span_cases dst with ⟨is, -⟩ | ⟨is, -⟩ | ⟨is, eq⟩ | ⟨is, eq⟩
    · exact small (by omega)
    · exact small (by omega)
    · rw [eq] at same
      rw [wordSpan, if_neg (by omega), same]
      exact word_half word
    · have wide : size src = 8 := by have := span_cases src; omega
      rw [eq] at same
      rw [wordSpan, if_pos wide] at word
      rw [wordSpan, if_pos is, same, word]

/-- A value is zero where its word is. -/
theorem word_zero (value : convertInt x t = x) (word : (w : Int) % wordSpan t = x % wordSpan t) :
    (w : Int) % wordSpan t = 0 ↔ x = 0 := by
  have inX := value_inRange value
  rw [word]
  unfold wordSpan
  rw [InRange, lowest] at inX
  cases as : sign t <;> rw [as] at inX <;>
    rcases span_cases t with ⟨is, eq⟩ | ⟨is, eq⟩ | ⟨is, eq⟩ | ⟨is, eq⟩ <;> rw [eq] at inX <;> dsimp only at inX <;> split_ifs <;> omega

theorem word_const {n : Int} : (bits env (.const n) : Int) % wordSpan t = n % wordSpan t := by
  have := low_lt (x := n)
  rw [bits_const, wordSpan, low]
  split_ifs <;> omega

/-- A test for zero is the conversion to bool. -/
theorem gives_test (here : Usable known a.v) :
    Gives known (do let b ← let_ .w (.cmp .ne (typeClass a.type)) [a.v, .const 0]; pure (⟨b, .bool⟩ : Lowered)) (fun r => [r.v])
      fun env r => r.type = .bool ∧ ∀ x, Represents env a x → Represents env r (convertInt x .bool) := by
  have table : ∃ ka kb, machine (.cmp .ne (typeClass a.type)) .w = some [ka, kb] := by
    rw [typeClass]
    split_ifs <;> exact ⟨_, _, rfl⟩
  refine .bind (Gives.fresh (.binary here (by simp) table) fun s => ⟨_, rfl⟩) fun b => .pure (by simp) fun env shown => ?_
  obtain ⟨out, fresh⟩ := shown
  refine ⟨rfl, fun x represents => ⟨convertInt_fixed, ?_, fun n const => absurd const (fresh n)⟩⟩
  have test : bits env b = if (bits env a.v : Int) % wordSpan a.type = 0 then 0 else 1 := by
    have small := bits_lt env a.v
    rw [out, typeClass, wordSpan]
    by_cases wide : size a.type = 8
    · rw [if_pos wide, if_pos wide]
      show (if bits env a.v = 0 then 0 else 1) = _
      split_ifs <;> omega
    · rw [if_neg wide, if_neg wide]
      show (if bits env a.v % 2 ^ 32 = 0 then 0 else 1) = _
      split_ifs <;> omega
  simp only [word_zero represents.value represents.word] at test
  rw [convertInt_bool, test]
  split_ifs <;> rfl

/-- A conversion's value is C's. -/
theorem gives_convert (here : Usable known a.v) :
    Gives known (convert a dst) (fun r => [r.v]) fun env r => r.type = dst ∧ ∀ x, Represents env a x →
      Represents env r (convertInt x dst) := by
  have test := gives_test here
  unfold convert
  split_ifs with same isBool class_w
  · refine .pure (by simpa using here) fun env => ⟨same, fun x represents => ?_⟩
    rw [← same, represents.value]
    exact represents
  · rw [class_w] at test
    rw [truth, if_pos class_w, isBool]
    exact test
  · have class_l : typeClass a.type = .l := if_pos (by_contra fun narrow => class_w (if_neg narrow))
    rw [class_l] at test
    rw [truth, if_neg class_w, isBool]
    exact test
  · obtain ⟨v, src⟩ := a
    cases v with
    | const n =>
      refine .pure (by simp) fun env => ⟨rfl, fun x represents => ?_⟩
      rw [represents.const n rfl]
      exact ⟨convertInt_fixed, word_const, fun m eq => by cases eq; rfl⟩
    | tmp _ | global _ =>
      refine .bind (gives_intConvert here isBool) fun v => .pure (by simp) fun env ⟨fresh, out⟩ => ⟨rfl, fun x represents => ?_⟩
      exact ⟨convertInt_fixed, out x represents.value represents.word, fun m eq => absurd eq (fresh (fun _ no => by cases no) m)⟩

end

end Nanofil.Arithmetic
