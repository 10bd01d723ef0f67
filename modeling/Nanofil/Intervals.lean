import Nanofil.Interp
import Nanofil.Lib.Residues
import Nanofil.Objects
import Nanofil.Offsets

/-! `offset_interval/6` is sound: a temporary with one definition holds, whenever it
holds a value, one of its interval modulo its class. -/
namespace Nanofil
open List Option Results

theorem wordAtClass_int {k : Cls} {n m : Int} (size : modulus k = some m) (int : k = .w ∨ k = .l) :
    wordAtClass k (.int n) = .ok (.int (n % m)) := by
  rcases int with rfl | rfl <;> cases size <;> rfl

/-! ### Integer operations at w and l -/

variable {t : LoadType} {args : List Value} {i : Int × Int} {op : Op} {c : Int} {v a : Value} {env : Env} {prep : Prep} {w : Word}
  {xs : List Word} {mem' : Mem}

section
variable {k : Cls} {mode : Mode} {mem : Mem} {m x y : Int}

theorem opRes_add (int : k = .w ∨ k = .l) (size : modulus k = some m) :
    opRes .add k mode [.int x, .int y] mem = .ok (.val (.int ((x + y) % m)), mem) := by
  rcases int with rfl | rfl <;> cases size <;> rfl

theorem opRes_sub (int : k = .w ∨ k = .l) (size : modulus k = some m) :
    opRes .sub k mode [.int x, .int y] mem = .ok (.val (.int ((x - y) % m)), mem) := by
  rcases int with rfl | rfl <;> cases size <;> rfl

theorem opRes_mul (int : k = .w ∨ k = .l) (size : modulus k = some m) :
    opRes .mul k mode [.int x, .int y] mem = .ok (.val (.int ((x * y) % m)), mem) := by
  rcases int with rfl | rfl <;> cases size <;> rfl

theorem opRes_urem (int : k = .w ∨ k = .l) :
    opRes .urem k mode [.int x, .int y] mem = .ok (.val (.int (unsignedDivision x y (· % ·))), mem) := by
  rcases int with rfl | rfl <;> rfl

theorem opRes_shl {bits : Nat} (int : k = .w ∨ k = .l) (size : modulus k = some m)
    (width : classBits k = some bits) :
    opRes .shl k mode [.int x, .int y] mem = .ok (.val (.int (x * 2 ^ (y % bits).toNat % m)), mem) := by
  rcases int with rfl | rfl <;> cases size <;> cases width <;> rfl

theorem opRes_copy (int : k = .w ∨ k = .l) :
    opRes .copy k mode [.int x] mem = .ok (.val (.int x), mem) := by
  rcases int with rfl | rfl <;> rfl

theorem opRes_ext {e : Int} (int : k = .w ∨ k = .l) (size : modulus k = some m) (extended : extension t x = .ok e) :
    opRes (.ext t) k mode [.int x] mem = .ok (.val (.int (e % m)), mem) := by
  rcases int with rfl | rfl <;> cases size <;> cases t <;> cases extended <;> rfl

end

/-! ### Derivations -/

/-- What `offset_interval` derives of a name's one definition, without its depth and memo. -/
inductive HasInterval (once : Once) : Value → Cls → Int × Int → Prop
  | const {c v : Int} {k : Cls} : signedValue k c = some v → HasInterval once (.const c) k (v, v)
  | narrow {x d : Name} {k : Cls} {t : LoadType} {args : List Value} {i : Int × Int} :
      once x = some (.inst (.let_ d k (.ext t) args)) → narrowRange t = some i → intervalFits k i →
      HasInterval once (.tmp x) k i
  | load {x d : Name} {k : Cls} {t : LoadType} {off : Int} {args : List Value} {i : Int × Int} :
      once x = some (.inst (.let_ d k (.rawLoad t off) args)) → narrowRange t = some i → intervalFits k i →
      HasInterval once (.tmp x) k i
  | sw {x d : Name} {k : Cls} {a : Value} {i : Int × Int} :
      once x = some (.inst (.let_ d k (.ext .sw) [a])) → HasInterval once a .w i → intervalFits k i →
      HasInterval once (.tmp x) k i
  | uw {x d : Name} {k : Cls} {a : Value} {i : Int × Int} :
      once x = some (.inst (.let_ d k (.ext .uw) [a])) → HasInterval once a .w i → 0 ≤ i.1 → intervalFits k i →
      HasInterval once (.tmp x) k i
  | copy {x d : Name} {k : Cls} {a : Value} {i : Int × Int} :
      once x = some (.inst (.let_ d k .copy [a])) → HasInterval once a k i → intervalFits k i →
      HasInterval once (.tmp x) k i
  | mask {x d : Name} {k : Cls} {a b : Value} {v : Int} :
      once x = some (.inst (.let_ d k .and [a, b])) → maskOf k b = some v ∨ maskOf k a = some v →
      intervalFits k (0, v) → HasInterval once (.tmp x) k (0, v)
  | urem {x d : Name} {k : Cls} {a : Value} {c : Int} {bits : Nat} :
      once x = some (.inst (.let_ d k .urem [a, .const c])) → classBits k = some bits → 0 < c % 2 ^ bits →
      intervalFits k (0, c % 2 ^ bits - 1) → HasInterval once (.tmp x) k (0, c % 2 ^ bits - 1)
  | shl {x d : Name} {k : Cls} {a : Value} {n : Int} {bits : Nat} {i : Int × Int} :
      once x = some (.inst (.let_ d k .shl [a, .const n])) → classBits k = some bits → 0 ≤ n → n < bits →
      HasInterval once a k i → intervalFits k (i.1 * 2 ^ n.toNat, i.2 * 2 ^ n.toNat) →
      HasInterval once (.tmp x) k (i.1 * 2 ^ n.toNat, i.2 * 2 ^ n.toNat)
  | mul {x d : Name} {k : Cls} {args : List Value} {a : Value} {c v : Int} {i : Int × Int} :
      once x = some (.inst (.let_ d k .mul args)) → scaled args = some (a, c) → signedValue k c = some v →
      HasInterval once a k i → intervalFits k (scaleInterval i v) →
      HasInterval once (.tmp x) k (scaleInterval i v)
  | add {x d : Name} {k : Cls} {a b : Value} {i j : Int × Int} :
      once x = some (.inst (.let_ d k .add [a, b])) → HasInterval once a k i → HasInterval once b k j →
      intervalFits k (i.1 + j.1, i.2 + j.2) → HasInterval once (.tmp x) k (i.1 + j.1, i.2 + j.2)
  | sub {x d : Name} {k : Cls} {a : Value} {c v : Int} {i : Int × Int} :
      once x = some (.inst (.let_ d k .sub [a, .const c])) → signedValue k c = some v →
      HasInterval once a k i → intervalFits k (i.1 - v, i.2 - v) →
      HasInterval once (.tmp x) k (i.1 - v, i.2 - v)

def MemoDerived (once : Once) (memo : Memo) : Prop :=
  ∀ e ∈ memo, HasInterval once (.tmp e.1.1) e.1.2 e.2

theorem MemoDerived.nil (once : Once) : MemoDerived once [] := by simp [MemoDerived]

/-- One definition unfolded: its operands' derivations give its own, if it fits. -/
theorem opInterval_derived {once : Once} {interval : IntervalOf} {x d : Name}
    {k : Cls} {m m' : Memo} (onceX : once x = some (.inst (.let_ d k op args)))
    (operands : ∀ v k m i m', interval v k m = some (i, m') → MemoDerived once m →
      HasInterval once v k i ∧ MemoDerived once m')
    (derived : MemoDerived once m) (found : opInterval interval op args k m = some (i, m'))
    (fits : intervalFits k i) : HasInterval once (.tmp x) k i ∧ MemoDerived once m' := by
  unfold opInterval at found
  split at found
  · simp only [bind_found, pure_found,
      Prod.mk.injEq] at found
    obtain ⟨i', narrow, rfl, rfl⟩ := found
    exact ⟨.load onceX narrow fits, derived⟩
  · obtain ⟨sub, derived'⟩ := operands _ _ _ _ _ found derived
    exact ⟨.sw onceX sub fits, derived'⟩
  · simp only [bind_found] at found
    obtain ⟨r, sub, found⟩ := found
    split at found
    · cases found
      obtain ⟨sub, derived'⟩ := operands _ _ _ _ _ sub derived
      exact ⟨.uw onceX sub ‹_› fits, derived'⟩
    · cases found
  · simp only [bind_found, pure_found,
      Prod.mk.injEq] at found
    obtain ⟨i', narrow, rfl, rfl⟩ := found
    exact ⟨.narrow onceX narrow fits, derived⟩
  · obtain ⟨sub, derived'⟩ := operands _ _ _ _ _ found derived
    exact ⟨.copy onceX sub fits, derived'⟩
  · simp only [bind_found, pure_found,
      Prod.mk.injEq, or_eq_some_iff] at found
    obtain ⟨v, mask, rfl, rfl⟩ := found
    exact ⟨.mask onceX (mask.imp id (·.2)) fits, derived⟩
  · simp only [bind_found] at found
    obtain ⟨bits, width, found⟩ := found
    split at found
    · cases found
      exact ⟨.urem onceX width (And.left ‹_›) fits, derived⟩
    · cases found
  · simp only [bind_found] at found
    obtain ⟨bits, width, found⟩ := found
    split at found
    · simp only [bind_found, pure_found, Prod.mk.injEq] at found
      obtain ⟨r, sub, rfl, rfl⟩ := found
      obtain ⟨sub, derived'⟩ := operands _ _ _ _ _ sub derived
      exact ⟨.shl onceX width (And.left ‹_›) (And.right ‹_›) sub fits, derived'⟩
    · cases found
  · simp only [bind_found, pure_found,
      Prod.mk.injEq] at found
    obtain ⟨ac, shape, v, value, r, sub, rfl, rfl⟩ := found
    obtain ⟨sub, derived'⟩ := operands _ _ _ _ _ sub derived
    exact ⟨.mul onceX shape value sub fits, derived'⟩
  · simp only [bind_found, pure_found,
      Prod.mk.injEq] at found
    obtain ⟨r1, sub1, r2, sub2, rfl, rfl⟩ := found
    obtain ⟨sub1, derived1⟩ := operands _ _ _ _ _ sub1 derived
    obtain ⟨sub2, derived2⟩ := operands _ _ _ _ _ sub2 derived1
    exact ⟨.add onceX sub1 sub2 fits, derived2⟩
  · simp only [bind_found, pure_found,
      Prod.mk.injEq] at found
    obtain ⟨v, value, r, sub, rfl, rfl⟩ := found
    obtain ⟨sub, derived'⟩ := operands _ _ _ _ _ sub derived
    exact ⟨.sub onceX value sub fits, derived'⟩
  · cases found

theorem offsetInterval_const {once : Once} {n : Nat} {k : Cls} {m : Memo} :
    offsetInterval once n (.const c) k m = (signedValue k c).map (fun v => ((v, v), m)) := by
  cases n <;>
  · unfold offsetInterval
    cases signedValue k c <;> rfl

theorem offsetInterval_derived {once : Once} {n : Nat} : ∀ {v : Value} {k : Cls} {m m' : Memo} {i : Int × Int},
    offsetInterval once n v k m = some (i, m') → MemoDerived once m →
      HasInterval once v k i ∧ MemoDerived once m' := by
  have const : ∀ {n c k m m' i}, offsetInterval once n (.const c) k m = some (i, m') → MemoDerived once m →
      HasInterval once (.const c) k i ∧ MemoDerived once m' := by
    intro n c k m m' i found derived
    rw [offsetInterval_const, map_eq_some_iff] at found
    obtain ⟨v, value, pair⟩ := found
    cases pair
    exact ⟨.const value, derived⟩
  have memoised : ∀ {m : Memo} {x k i}, m.get (x, k) = some i → MemoDerived once m →
      HasInterval once (.tmp x) k i := by
    intro m x k i found derived
    simp only [Memo.get, map_eq_some_iff] at found
    obtain ⟨e, found, rfl⟩ := found
    have key : e.1 = (x, k) := by simpa using find?_some found
    have := derived e (mem_of_find?_eq_some found)
    rwa [key] at this
  induction n with
  | zero =>
    intro v k m m' i found derived
    cases v with
    | const c => exact const found derived
    | global g => cases found
    | tmp x =>
      unfold offsetInterval at found
      split at found
      · cases found
        exact ⟨memoised ‹_› derived, derived⟩
      · cases found
  | succ n ih =>
    intro v k m m' i found derived
    cases v with
    | const c => exact const found derived
    | global g => cases found
    | tmp x =>
      unfold offsetInterval at found
      split at found
      · cases found
        exact ⟨memoised ‹_› derived, derived⟩
      · split at found
        · rename_i n' d k' op args succ onceX
          cases succ
          split at found
          · rename_i same
            subst same
            simp only [bind_found] at found
            obtain ⟨r, unfolded, found⟩ := found
            split at found
            · rename_i fits
              cases found
              obtain ⟨here, derived'⟩ :=
                opInterval_derived onceX (fun v k m i m' h hm => ih h hm) derived unfolded fits
              refine ⟨here, fun e h => ?_⟩
              rcases mem_cons.1 h with rfl | h
              · exact here
              · exact derived' e h
            · cases found
          · cases found
        · cases found

/-! ### Runs -/

/-- A word of an interval at a class, modulo the class. -/
def WordIn (k : Cls) (w : Word) (i : Int × Int) : Prop :=
  ∃ n m, w = .int n ∧ modulus k = some m ∧ Residues.In m n i

/-- Each assigned temporary with a derived interval holds a word of it. -/
def IntervalsHold (once : Once) (env : Env) : Prop :=
  ∀ x k i w, HasInterval once (.tmp x) k i → env.vals x = some w → WordIn k w i

theorem fits_class {k : Cls} (fits : intervalFits k i = true) : k = .w ∨ k = .l := by
  cases k <;> simp [intervalFits] at fits ⊢

/-- The class and the range of whatever has an interval at w or l. -/
theorem hasInterval_fits {once : Once} {k : Cls} (has : HasInterval once v k i)
    (int : k = .w ∨ k = .l) : intervalFits k i = true := by
  cases has with
  | const value =>
    rcases int with rfl | rfl
    · simp only [signedValue, classBits, numericClass, intClass, floatClass, classTable] at value
      simp only [intervalFits, decide_eq_true_eq]
      simp at value
      subst value
      split <;> omega
    · rfl
  | _ => assumption

theorem signedValue_modEq {k : Cls} {v m : Int} (value : signedValue k c = some v) (size : modulus k = some m)
    (int : k = .w ∨ k = .l) : c % m ≡ v [ZMOD m] := by
  rcases int with rfl | rfl <;>
  · cases size
    simp only [signedValue, classBits, numericClass, intClass, floatClass, classTable] at value
    simp at value
    subst value
    simp only [Int.ModEq]
    split <;> omega

theorem modulus_int {k : Cls} (int : k = .w ∨ k = .l) : ∃ m, modulus k = some m ∧ 0 < m := by
  rcases int with rfl | rfl
  · exact ⟨_, rfl, by decide⟩
  · exact ⟨_, rfl, by decide⟩

/-- What reads a value with an interval reads a word of the interval. -/
theorem interval_value {once : Once} (hold : IntervalsHold once env)
    {k : Cls} (has : HasInterval once v k i) (int : k = .w ∨ k = .l)
    (read : valueX prep env k v = .ok w) : WordIn k w i := by
  obtain ⟨m, size, pos⟩ := modulus_int int
  cases v with
  | global g => cases has
  | const c =>
    cases has with
    | const value =>
      have same := signedValue_modEq value size int
      refine ⟨c % m, m, ?_, size, .point same⟩
      simp only [valueX, orNoRule_ok.2 size, bind_ok, Except.ok.injEq, exists_eq_left'] at read
      rcases int with rfl | rfl <;>
      · cases read
        rfl
  | tmp x =>
    simp only [valueX] at read
    split at read
    · rename_i w' assigned
      obtain ⟨n, m', rfl, size', mem⟩ := hold x k i w' has assigned
      rw [size] at size'
      cases size'
      rw [wordAtClass_int size int] at read
      cases read
      exact ⟨n % m, m, rfl, size, mem.emod⟩
    · cases read

theorem valuesX_one {k : Cls} (read : valuesX prep env [k] [a] = .ok xs) : ∃ x, xs = [x] ∧ valueX prep env k a = .ok x := by
  simp only [valuesX, bind_ok, pure_ok, Except.ok.injEq] at read
  obtain ⟨x, read, _, rfl, rfl⟩ := read
  exact ⟨x, rfl, read⟩

theorem valuesX_two {k1 k2 : Cls} {b : Value} (read : valuesX prep env [k1, k2] [a, b] = .ok xs) :
    ∃ x y, xs = [x, y] ∧ valueX prep env k1 a = .ok x ∧ valueX prep env k2 b = .ok y := by
  simp only [valuesX, bind_ok, pure_ok, Except.ok.injEq] at read
  obtain ⟨x, readA, _, ⟨y, readB, _, rfl, rfl⟩, rfl⟩ := read
  exact ⟨x, y, rfl, readA, readB⟩

theorem narrow_extension {x e : Int} (narrow : narrowRange t = some i)
    (extended : extension t x = .ok e) : i.1 ≤ e ∧ e ≤ i.2 := by
  cases t <;> cases narrow <;> cases extended <;> dsimp only [signExtension] <;> (try split) <;> omega

theorem word_of_int {k : Cls} {x : Int} (w : WordIn k (.int x) i) {m : Int} (size : modulus k = some m) : Residues.In m x i := by
  obtain ⟨n, m', same, size', mem⟩ := w
  rw [size] at size'
  cases size'
  cases same
  exact mem

theorem wordIn_w {x : Int} (w : WordIn .w (.int x) i) (fits : intervalFits .w i = true) :
    ∃ t, i.1 ≤ t ∧ t ≤ i.2 ∧ x % 4294967296 = t % 4294967296 ∧ -2147483648 ≤ t ∧ t ≤ 2147483647 := by
  obtain ⟨t, low, high, same⟩ := word_of_int w rfl
  simp only [intervalFits, decide_eq_true_eq] at fits
  exact ⟨t, low, high, by simpa [Int.ModEq] using same, by omega, by omega⟩

theorem land_comm (x y : Int) : Int.land x y = Int.land y x := by
  cases x <;> cases y <;> simp [Int.land, Nat.land_comm, Nat.lor_comm]

/-- A non-negative mask bounds what it is and-ed with. -/
theorem land_mask {x : Int} (nonneg : 0 ≤ c) : 0 ≤ Int.land x c ∧ Int.land x c ≤ c := by
  obtain ⟨n, rfl⟩ := Int.eq_ofNat_of_zero_le nonneg
  cases x with
  | ofNat a =>
    have and : Int.land (Int.ofNat a) n = ((a &&& n : Nat) : Int) := rfl
    rw [and]
    exact ⟨by omega, by exact_mod_cast Nat.and_le_right⟩
  | negSucc a =>
    have diff : Int.land (Int.negSucc a) n = ((Nat.ldiff n a : Nat) : Int) := rfl
    rw [diff]
    have le : Nat.ldiff n a ≤ n := by
      refine Nat.le_of_testBit fun i h => ?_
      rw [Nat.testBit_ldiff] at h
      exact (Bool.and_eq_true _ _ ▸ h).1
    exact ⟨by omega, by exact_mod_cast le⟩

theorem maskOf_value {k : Cls} {m : Int} (mask : maskOf k v = some c) (size : modulus k = some m) (int : k = .w ∨ k = .l)
    (read : valueX prep env k v = .ok w) : w = .int c ∧ 0 ≤ c := by
  unfold maskOf at mask
  split at mask
  · rename_i n
    simp only [filter_eq_some_iff, decide_eq_true_eq] at mask
    obtain ⟨value, nonneg⟩ := mask
    refine ⟨?_, nonneg⟩
    simp only [valueX, orNoRule_ok.2 size, bind_ok, Except.ok.injEq, exists_eq_left'] at read
    rcases int with rfl | rfl <;>
    · have width : m = _ := (Option.some.inj size).symm
      cases read
      simp only [signedValue, classBits, numericClass, intClass, floatClass, classTable] at value
      simp at value width
      subst value width
      congr 1
      split at nonneg <;> split <;> omega
  · cases mask

theorem const_value {k : Cls} {n m : Int} (size : modulus k = some m)
    (int : k = .w ∨ k = .l) (read : valueX prep env k (.const n) = .ok w) : w = .int (n % m) := by
  simp only [valueX, orNoRule_ok.2 size, bind_ok, Except.ok.injEq, exists_eq_left'] at read
  rcases int with rfl | rfl <;>
  · cases read
    rfl

theorem opClasses_binary {k : Cls} {mode : Mode} (int : k = .w ∨ k = .l)
    (binary : op = .add ∨ op = .sub ∨ op = .mul ∨ op = .and ∨ op = .urem) :
    opArgClasses op k mode = some [k, k] := by
  rcases int with rfl | rfl <;> rcases binary with rfl | rfl | rfl | rfl | rfl <;> rfl

theorem scaled_cases (shape : scaled args = some (a, c)) : args = [a, .const c] ∨ args = [.const c, a] := by
  unfold scaled at shape
  split at shape
  · cases shape
  · cases shape
    exact .inl rfl
  · cases shape
    exact .inr rfl
  · cases shape

theorem scaleInterval_in {m x y : Int} {v : Int} (left : Residues.In m x i)
    (same : y ≡ v [ZMOD m]) : Residues.In m (x * y) (scaleInterval i v) := by
  unfold scaleInterval
  split
  · exact left.mul_nonneg same ‹_›
  · exact left.mul_nonpos same (by omega)

theorem wordIn_int {k : Cls} (mem : WordIn k w i) {m : Int} (size : modulus k = some m) :
    ∃ x, w = .int x ∧ Residues.In m x i := by
  obtain ⟨n, m', rfl, size', h⟩ := mem
  rw [size] at size'
  cases size'
  exact ⟨n, rfl, h⟩

theorem ext_operand {k : Cls} {mode : Mode} {mem : Mem} (int : k = .w ∨ k = .l)
    (range : narrowRange t = some i) (read : valuesX prep env [.w] args = .ok xs)
    (done : opRes (.ext t) k mode xs mem = .ok (.val w, mem')) :
    ∃ a e, xs = [.int a] ∧ extension t a = .ok e := by
  cases args with
  | nil => cases read
  | cons v vs =>
    cases vs with
    | cons => simp only [valuesX, bind_ok, reduceCtorEq, false_and, exists_false, and_false] at read
    | nil =>
      obtain ⟨x, rfl, _⟩ := valuesX_one read
      cases x with
      | int a => cases t <;> cases range <;> exact ⟨a, _, rfl, rfl⟩
      | ptr a c => rcases int with rfl | rfl <;> cases t <;> cases range <;> cases done
      | limit c size => rcases int with rfl | rfl <;> cases t <;> cases range <;> cases done

theorem loadOpRes_narrow {k : Cls} {mode : Mode} {addr : Word} {mem : Mem} {r : Res Word × Mem} (range : narrowRange t = some i) (done : loadOpRes t k mode addr mem = .ok r)
    (value : r.1 = .val w) : ∃ u e m, extension t u = .ok e ∧ modulus k = some m ∧ w = .int (e % m) := by
  cases t <;> cases range
  all_goals
    simp only [loadOpRes, bind_ok, pure_ok] at done
    obtain ⟨x, _, y, extended, rfl⟩ := done
    subst value
    cases h : x.1 with
    | val u =>
      simp only [h, extendedRes, bind_ok, pure_ok, orNoRule_ok, Res.val.injEq] at extended
      obtain ⟨e, he, m, hm, rfl⟩ := extended
      exact ⟨u, e, m, he, hm, rfl⟩
    | ub u => simp only [h] at extended; cases extended
    | trap why => simp only [h] at extended; cases extended
    | unchecked why => simp only [h] at extended; cases extended

theorem rawLoad_narrow {off : Int} {k : Cls} {mode : Mode} {mem : Mem} (range : narrowRange t = some i)
    (done : opRes (.rawLoad t off) k mode xs mem = .ok (.val w, mem')) :
    ∃ u e m, extension t u = .ok e ∧ modulus k = some m ∧ w = .int (e % m) := by
  simp only [opRes] at done
  split at done
  · contradiction
  · simp only [opKind, orNoRule, bind_ok, Except.ok.injEq, exists_eq_left'] at done
    unfold kindRes at done
    split at done
    any_goals (cases done; done)
    all_goals
      first
      | contradiction
      | skip
    cases ‹Op.rawLoad t off = Op.rawLoad _ _›
    split at done
    · simp only [bind_ok, pure_ok, Prod.mk.injEq] at done
      obtain ⟨r, loaded, raw, _⟩ := done
      refine loadOpRes_narrow range loaded ?_
      cases h : r.1 <;> rw [h] at raw <;> cases raw
      rfl
    · cases done

theorem and_operands {k : Cls} {mode : Mode} {x y : Word} {mem : Mem} (int : k = .w ∨ k = .l)
    (done : opRes .and k mode [x, y] mem = .ok (.val w, mem')) :
    ∃ a b, x = .int a ∧ y = .int b ∧ w = .int (Int.land a b) := by
  rcases int with rfl | rfl <;> cases x <;> cases y <;> cases done <;> exact ⟨_, _, rfl, rfl, rfl⟩

theorem urem_operand {k : Cls} {mode : Mode} {x : Word} {mem : Mem} (int : k = .w ∨ k = .l)
    (done : opRes .urem k mode [x, .int c] mem = .ok (.val w, mem')) : ∃ a, x = .int a := by
  rcases int with rfl | rfl <;> cases x <;> cases done <;> exact ⟨_, rfl⟩

/-- An instruction gives its temporary a word of its interval: one case per derivation. -/
theorem interval_let {once : Once} (hold : IntervalsHold once env) {x d : Name}
    {k : Cls} (onceX : once x = some (.inst (.let_ d k op args)))
    {mode : Mode} {classes : List Cls} (hclasses : opArgClasses op k mode = some classes)
    (read : valuesX prep env classes args = .ok xs) {mem : Mem}
    (done : opRes op k mode xs mem = .ok (.val w, mem')) {k' : Cls}
    (has : HasInterval once (.tmp x) k' i) : WordIn k' w i := by
  cases has with
  | @narrow _ _ _ t _ _ onceX' range fits =>
    cases onceX.symm.trans onceX'
    have int := fits_class fits
    obtain ⟨m, size, pos⟩ := modulus_int int
    cases (show opArgClasses (.ext t) k mode = some [.w] by cases t <;> cases range <;> rfl).symm.trans hclasses
    obtain ⟨a, e, rfl, extended⟩ := ext_operand int range read done
    rw [opRes_ext int size extended] at done
    cases done
    have bounds := narrow_extension range extended
    exact ⟨_, m, rfl, size, (Residues.In.of_mem bounds.1 bounds.2).emod⟩
  | load onceX' range fits =>
    cases onceX.symm.trans onceX'
    obtain ⟨u, e, m, extended, size, rfl⟩ := rawLoad_narrow range done
    have bounds := narrow_extension range extended
    exact ⟨_, m, rfl, size, (Residues.In.of_mem bounds.1 bounds.2).emod⟩
  | sw onceX' sub fits =>
    cases onceX.symm.trans onceX'
    have int := fits_class fits
    obtain ⟨m, size, pos⟩ := modulus_int int
    cases (show opArgClasses (.ext .sw) k mode = some [.w] from rfl).symm.trans hclasses
    obtain ⟨xa, rfl, readA⟩ := valuesX_one read
    obtain ⟨a, _, rfl, _, _⟩ := interval_value hold sub (.inl rfl) readA
    obtain ⟨t, low, high, same, _, _⟩ := wordIn_w (interval_value hold sub (.inl rfl) readA) (hasInterval_fits sub (.inl rfl))
    rw [opRes_ext int size rfl] at done
    cases done
    have exact : signExtension 4294967296 2147483648 a = t := by
      unfold signExtension
      split <;> omega
    exact ⟨_, m, rfl, size, (exact ▸ Residues.In.of_mem low high).emod⟩
  | uw onceX' sub nonneg fits =>
    cases onceX.symm.trans onceX'
    have int := fits_class fits
    obtain ⟨m, size, pos⟩ := modulus_int int
    cases (show opArgClasses (.ext .uw) k mode = some [.w] from rfl).symm.trans hclasses
    obtain ⟨xa, rfl, readA⟩ := valuesX_one read
    obtain ⟨a, _, rfl, _, _⟩ := interval_value hold sub (.inl rfl) readA
    obtain ⟨t, low, high, same, _, _⟩ := wordIn_w (interval_value hold sub (.inl rfl) readA) (hasInterval_fits sub (.inl rfl))
    rw [opRes_ext int size rfl] at done
    cases done
    have exact : a % 4294967296 = t := by omega
    exact ⟨_, m, rfl, size, (exact ▸ Residues.In.of_mem low high).emod⟩
  | copy onceX' sub fits =>
    cases onceX.symm.trans onceX'
    have int := fits_class fits
    cases (show opArgClasses .copy k mode = some [k] from rfl).symm.trans hclasses
    obtain ⟨xa, rfl, readA⟩ := valuesX_one read
    have inA := interval_value hold sub int readA
    obtain ⟨a, m, rfl, size, mem⟩ := inA
    rw [opRes_copy int] at done
    cases done
    exact ⟨a, m, rfl, size, mem⟩
  | @mask _ _ _ _ _ v onceX' which fits =>
    cases onceX.symm.trans onceX'
    have int := fits_class fits
    obtain ⟨m, size, pos⟩ := modulus_int int
    cases (opClasses_binary int (.inr (.inr (.inr (.inl rfl))))).symm.trans hclasses
    obtain ⟨xa, xb, rfl, readA, readB⟩ := valuesX_two read
    obtain ⟨a, b, rfl, rfl, rfl⟩ := and_operands int done
    have bounds : 0 ≤ Int.land a b ∧ Int.land a b ≤ v := by
      rcases which with mask | mask
      · obtain ⟨same, nonneg⟩ := maskOf_value mask size int readB
        cases same
        exact land_mask nonneg
      · obtain ⟨same, nonneg⟩ := maskOf_value mask size int readA
        cases same
        exact land_comm _ b ▸ land_mask nonneg
    exact ⟨_, m, rfl, size, .of_mem bounds.1 bounds.2⟩
  | @urem _ _ _ _ c bits onceX' width divisor fits =>
    cases onceX.symm.trans onceX'
    have int := fits_class fits
    obtain ⟨m, size, pos⟩ := modulus_int int
    cases (opClasses_binary int (.inr (.inr (.inr (.inr rfl))))).symm.trans hclasses
    obtain ⟨xa, xb, rfl, readA, readB⟩ := valuesX_two read
    cases const_value size int readB
    obtain ⟨a, rfl⟩ := urem_operand int done
    rw [opRes_urem int] at done
    cases done
    have same : m = 2 ^ bits := by
      rcases int with rfl | rfl <;> cases size <;> cases width <;> rfl
    rw [← same] at divisor
    simp only [unsignedDivision, if_neg (ne_of_gt divisor)]
    have low := Int.emod_nonneg a (ne_of_gt divisor)
    have high := Int.emod_lt_of_pos a divisor
    exact ⟨_, m, rfl, size, .of_mem low (same ▸ Int.le_sub_one_of_lt high)⟩
  | @shl _ _ _ _ n bits _ onceX' width low high sub fits =>
    cases onceX.symm.trans onceX'
    have int := fits_class fits
    obtain ⟨m, size, pos⟩ := modulus_int int
    cases (show opArgClasses .shl k mode = some [k, .w] from rfl).symm.trans hclasses
    obtain ⟨xa, xb, rfl, readA, readB⟩ := valuesX_two read
    obtain ⟨a, rfl, inA⟩ := wordIn_int (interval_value hold sub int readA) size
    cases const_value (k := .w) rfl (.inl rfl) readB
    rw [opRes_shl int size width] at done
    cases done
    have small : bits ≤ 64 := by
      rcases int with rfl | rfl <;> cases width <;> decide
    have count : n % 2 ^ 32 % bits = n := by
      rw [Int.emod_eq_of_lt low (by omega), Int.emod_eq_of_lt low high]
    refine ⟨_, m, rfl, size, ?_⟩
    simp only [count]
    exact (inA.mul_nonneg (.refl _) (by positivity)).emod
  | mul onceX' shape value sub fits =>
    cases onceX.symm.trans onceX'
    have int := fits_class fits
    obtain ⟨m, size, pos⟩ := modulus_int int
    cases (opClasses_binary int (.inr (.inr (.inl rfl)))).symm.trans hclasses
    have factor := signedValue_modEq value size int
    rcases scaled_cases shape with rfl | rfl
    · obtain ⟨xa, xb, rfl, readA, readB⟩ := valuesX_two read
      obtain ⟨a, rfl, inA⟩ := wordIn_int (interval_value hold sub int readA) size
      cases const_value size int readB
      rw [opRes_mul int size] at done
      cases done
      exact ⟨_, m, rfl, size, (scaleInterval_in inA factor).emod⟩
    · obtain ⟨xa, xb, rfl, readA, readB⟩ := valuesX_two read
      obtain ⟨a, rfl, inA⟩ := wordIn_int (interval_value hold sub int readB) size
      cases const_value size int readA
      rw [opRes_mul int size] at done
      cases done
      rw [Int.mul_comm]
      exact ⟨_, m, rfl, size, (scaleInterval_in inA factor).emod⟩
  | add onceX' subA subB fits =>
    cases onceX.symm.trans onceX'
    have int := fits_class fits
    obtain ⟨m, size, pos⟩ := modulus_int int
    cases (opClasses_binary int (.inl rfl)).symm.trans hclasses
    obtain ⟨xa, xb, rfl, readA, readB⟩ := valuesX_two read
    obtain ⟨a, rfl, inA⟩ := wordIn_int (interval_value hold subA int readA) size
    obtain ⟨b, rfl, inB⟩ := wordIn_int (interval_value hold subB int readB) size
    rw [opRes_add int size] at done
    cases done
    exact ⟨_, m, rfl, size, (inA.add inB).emod⟩
  | sub onceX' value sub fits =>
    cases onceX.symm.trans onceX'
    have int := fits_class fits
    obtain ⟨m, size, pos⟩ := modulus_int int
    cases (opClasses_binary int (.inr (.inl rfl))).symm.trans hclasses
    obtain ⟨xa, xb, rfl, readA, readB⟩ := valuesX_two read
    obtain ⟨a, rfl, inA⟩ := wordIn_int (interval_value hold sub int readA) size
    cases const_value size int readB
    rw [opRes_sub int size] at done
    cases done
    exact ⟨_, m, rfl, size, (inA.sub (.point (signedValue_modEq value size int))).emod⟩

end Nanofil
