import Nanofil.Arithmetic.Counts
import Nanofil.Arithmetic.Limbs
import Nanofil.Arithmetic.Shuffles

/-! The code of the arithmetic builtins runs to their mathematical results. -/
namespace Nanofil.Arithmetic
open Switching (IntType Emit size sign typeClass convertInt InRange Computes Kept span)

/-! ### Results -/

/-- An argument lowered before the state's code: its value stands for the number. -/
structure Operand (s : Emit) (env : Env) (a : Lowered) (x : Int) : Prop where
  old : Old s.n a.v
  holds : Holds env a.v
  represents : Represents env a x

/-- The code that a lowering adds. -/
def Adds (s s1 : Emit) (is : List Inst) : Prop := s1.insts = is.reverse ++ s.insts ∧ s1.blocks = s.blocks ∧ s1.cases = s.cases

/-- The code computes a value of the type. -/
def Returns (c : Nanofil.Ctx) (s : Emit) (env : Env) (m : Emitting Lowered) (t : IntType) (y : Int) : Prop :=
  ∃ is env1, Adds s (m s).2 is ∧ Computes c is env env1 ∧ Kept s.n env env1 ∧ (m s).1.type = t ∧ Represents env1 (m s).1 y

/-- A run goes on from other temporaries. -/
def Result.from (env : Env) : Result → Result
  | .cont _ s => .cont env s
  | .stop out s => .stop out s

/-- The code does to the memory what a store of the value does, and computes a flag. -/
def Stores (c : Nanofil.Ctx) (s : Emit) (env : Env) (m : Emitting Lowered) (wd : Width) (addr : Value) (y flag : Int) : Prop :=
  ∃ is env1, Adds s (m s).2 is ∧ Kept s.n env env1 ∧ (m s).1.type = .bool ∧ Represents env1 (m s).1 flag ∧ ∀ call st,
    instsResult call c.prep is env st = Result.from env1 <$> instsResult call c.prep [.store wd (.const y) addr] env st

/-- The results of a builtin: C's mathematical ones. -/
def Exact (c : Nanofil.Ctx) : Builtin → Prop
  | .overflow op fixed => ∀ s env a b m n addr type, Operand s env a m → Operand s env b n → Old s.n addr → type ≠ .bool →
      (fixed = none ∨ fixed = some type) → ∃ code, checkedArithmetic op fixed a b addr type = .ok code ∧
        ∀ e, e = op.exact (operandValue fixed m) (operandValue fixed n) →
          Stores c s env code (storeWidth type) addr (convertInt e type) (if InRange type e then 0 else 1)
  | .bit op type => ∀ s env a m, Operand s env a m →
      Returns c s env (bitBuiltin op type a) .int (op.count (8 * size type) (convertInt m type).toNat)
  | .bswap type => ∀ s env a m, Operand s env a m →
      Returns c s env (bswapBuiltin type a) type (byteSwap (size type) (convertInt m type).toNat)
  | .rotate dir type => ∀ s env a b m n, Operand s env a m → Operand s env b n →
      Returns c s env (rotateBuiltin dir type a b) type
        (dir.turn (8 * size type) (convertInt m type).toNat (n % (8 * size type)).toNat)

section
variable {c : Nanofil.Ctx} {s s1 s2 : Emit} {env env1 : Env} {known : List Value} {is js : List Inst} {a b : Lowered} {t type : IntType}
  {m n x : Int} {v addr : Value}

theorem Adds.trans (first : Adds s s1 is) (second : Adds s1 s2 js) : Adds s s2 (is ++ js) := by
  refine ⟨?_, second.2.1.trans first.2.1, second.2.2.trans first.2.2⟩
  rw [second.1, first.1, List.reverse_append, List.append_assoc]

theorem adds_emit {i : Inst} : Adds s (s.emit i) [i] := by
  have live : s.ensureLive.insts = s.insts ∧ s.ensureLive.blocks = s.blocks ∧ s.ensureLive.cases = s.cases := by
    unfold Emit.ensureLive
    split <;> exact ⟨rfl, rfl, rfl⟩
  exact ⟨congrArg (i :: ·) live.1, live.2⟩

theorem word_kept (kept : Kept s.n env env1) (old : Old s.n v) : word env1 v = word env v := by
  cases v with
  | tmp x =>
    have same := kept.vals x fun j le eq => old j le (congrArg Value.tmp eq)
    simp only [word, same]
  | const _ | global _ => rfl

theorem represents_kept (kept : Kept s.n env env1) (old : Old s.n a.v) (represents : Represents env a x) : Represents env1 a x :=
  ⟨represents.value, by rw [bits, word_kept kept old]; exact represents.word, represents.const⟩

/-- What is given holds of a run. -/
theorem Gives.runs {α : Type} {m : Emitting α} {out : α → List Value} {P : Env → α → Prop} (gives : Gives known m out P)
    (old : ∀ v ∈ known, Old s.n v) (holds : ∀ v ∈ known, Holds env v) :
    ∃ is env1, Adds s (m s).2 is ∧ Computes c is env env1 ∧ Kept s.n env env1 ∧ s.n ≤ (m s).2.n ∧
      (∀ v ∈ out (m s).1, Old (m s).2.n v ∧ Holds env1 v) ∧ P env1 (m s).1 := by
  obtain ⟨js, straight, avail, then_holds⟩ := gives known s [] s .nil fun v mem => .inr (.inl mem)
  obtain ⟨env1, ran, solves, kept, held⟩ := straight.run (c := c) old holds
  have names := straight.old old
  exact ⟨_, env1, ⟨straight.insts, straight.blocks⟩, ran, kept, straight.le_n, fun v mem => ⟨(avail v mem).old old straight.le_n
    fun d k op args mem => (names d k op args mem).1, held v (avail v mem)⟩, then_holds env1 solves⟩

theorem Gives.returns {m : Emitting Lowered} {P : Env → Prop} {y : Int} (gives : Gives known m (fun r => [r.v]) fun env r =>
      r.type = t ∧ (P env → Represents env r y)) (old : ∀ v ∈ known, Old s.n v) (holds : ∀ v ∈ known, Holds env v)
    (given : ∀ env1, Kept s.n env env1 → P env1) : Returns c s env m t y := by
  obtain ⟨is, env1, adds, ran, kept, -, -, type, value⟩ := gives.runs (c := c) (s := s) old holds
  exact ⟨is, env1, adds, ran, kept, type, value (given env1 kept)⟩

/-! ### Checked arithmetic -/

theorem storeWidth_class : widthValueClass (storeWidth t) = typeClass t := by cases t <;> rfl

/-- A value's word at its type's class is the number's. -/
theorem value_represents (prep : Prep) (holds : Holds env a.v) (represents : Represents env a x) :
    valueX prep env (typeClass a.type) a.v = valueX prep env (typeClass a.type) (.const x) := by
  have int : typeClass a.type = .w ∨ typeClass a.type = .l := by
    rw [typeClass]
    split_ifs
    · exact .inr rfl
    · exact .inl rfl
  have same : atClass (typeClass a.type) (word env a.v) = atClass (typeClass a.type) x := by
    have eq : (bits env a.v : Int) = word env a.v % 2 ^ 64 := by
      show (low (word env a.v) : Int) = _
      unfold low
      omega
    have represented := represents.word
    rw [eq, wordSpan] at represented
    unfold typeClass
    split_ifs at represented ⊢
    · show word env a.v % 18446744073709551616 = x % 18446744073709551616
      omega
    · show word env a.v % 4294967296 = x % 4294967296
      omega
  have const : Holds env (.const x) := trivial
  rw [holds_value int holds, holds_value int const, same]
  rfl

theorem value_kept {prep : Prep} {k : Cls} (kept : Kept s.n env env1) (old : Old s.n v) : valueX prep env1 k v = valueX prep env k v := by
  cases v with
  | tmp x =>
    have same := kept.vals x fun j le eq => old j le (congrArg Value.tmp eq)
    simp only [valueX, same]
  | const _ | global _ => rfl

/-- A store reads its value and its address only. -/
theorem store_same {wd : Width} {v1 : Value} (kept : Kept s.n env env1) (old : Old s.n addr)
    (same : valueX c.prep env1 (widthValueClass wd) v1 = valueX c.prep env (widthValueClass wd) v) (call : Call) (st : St) :
    instsResult call c.prep [.store wd v1 addr] env1 st = Result.from env1 <$> instsResult call c.prep [.store wd v addr] env st := by
  have address : valueX c.prep env1 (addrClass c.prep.mode) addr = valueX c.prep env (addrClass c.prep.mode) addr := value_kept kept old
  have first : instResult call c.prep (.store wd v1 addr) env1 st =
      Result.from env1 <$> instResult call c.prep (.store wd v addr) env st := by
    show storeInstResult c.prep wd v1 addr env1 st = Result.from env1 <$> storeInstResult c.prep wd v addr env st
    unfold storeInstResult
    rw [same, address]
    simp only [map_bind]
    congr 1
    funext x
    congr 1
    funext y
    congr 1
    funext r
    obtain ⟨_ | _ | _ | _, _⟩ := r <;> rfl
  have clear : aheadTransparent (.store wd v1 addr) = aheadTransparent (.store wd v addr) := rfl
  have doomed (r : Result) : doomedResult c.prep (.store wd v1 addr) env1 (Result.from env1 r) =
      Result.from env1 <$> doomedResult c.prep (.store wd v addr) env r := by
    cases r with
    | cont env2 st2 => rfl
    | stop out st2 =>
      cases out <;> simp only [doomedResult, aheadInst, Result.from, kept.doomed] <;> try rfl
      cases env.doomed with
      | none => rfl
      | some why =>
        dsimp only
        split_ifs <;> rfl
  rw [instsResult, instsResult, kept.doomed, clear, first]
  cases instResult call c.prep (.store wd v addr) env st with
  | error e => split <;> rfl
  | ok r =>
    have stepped := doomed r
    split
    · rfl
    · show (doomedResult c.prep (.store wd v1 addr) env1 (Result.from env1 r) >>= _) = Result.from env1 <$> (doomedResult _ _ env r >>= _)
      rw [stepped]
      cases doomedResult c.prep (.store wd v addr) env r with
      | error e => rfl
      | ok r2 => cases r2 <;> rfl

theorem emit_n {i : Inst} : s.n ≤ (s.emit i).n := by
  show s.n ≤ s.ensureLive.n
  unfold Emit.ensureLive
  split
  · exact Nat.le_refl _
  · exact Nat.le_succ _

/-- Straight code around a store. -/
theorem stores_around {i i1 : Inst} {env2 : Env} (before : Computes c is env env1) (after : Computes c js env1 env2)
    (same : ∀ call st, instsResult call c.prep [i] env1 st = Result.from env1 <$> instsResult call c.prep [i1] env st) (call : Call)
    (st : St) : instsResult call c.prep (is ++ ([i] ++ js)) env st = Result.from env2 <$> instsResult call c.prep [i1] env st := by
  rw [instsResult_append, before call st]
  show instsResult call c.prep ([i] ++ js) env1 st = _
  rw [instsResult_append, same]
  cases instsResult call c.prep [i1] env st with
  | error e => rfl
  | ok r =>
    cases r with
    | cont env3 st3 => exact after call st3
    | stop out st3 => rfl

theorem limbs_kept {r : Value × Value} (kept : Kept s.n env env1) (old1 : Old s.n r.1) (old2 : Old s.n r.2) (limbs : Limbs env r x) :
    Limbs env1 r x := by
  rw [Limbs, bits, bits, word_kept kept old1, word_kept kept old2]
  exact limbs

theorem inRange_iff (other : t ≠ .bool) : x = convertInt x t ↔ InRange t x :=
  ⟨fun eq => value_inRange eq.symm, fun inX => (convertInt_self other inX).symm⟩

theorem overflow_exact (op : CheckedOp) (fixed : Option IntType) : Exact c (.overflow op fixed) := by
  intro s env a b m n addr type ha hb oldAddr other valid
  refine ⟨_, if_pos ⟨other, valid⟩, fun e eq => ?_⟩
  have old : ∀ v ∈ [a.v, b.v], Old s.n v := by simpa using ⟨ha.old, hb.old⟩
  have holds : ∀ v ∈ [a.v, b.v], Holds env v := by simpa using ⟨ha.holds, hb.holds⟩
  have stored : Gives [a.v, b.v] (overflowStored op fixed a b type) _ _ := gives_overflowStored other (by simp) (by simp)
  obtain ⟨is, env1, adds, ran, kept, le, given, type_eq, values⟩ := stored.runs (c := c) (s := s) old holds
  obtain ⟨_, rfl, limbs, value, low, high⟩ :=
    values m n (represents_kept kept ha.old ha.represents) (represents_kept kept hb.old hb.represents)
  rw [← eq] at limbs value low high
  generalize result : overflowStored op fixed a b type s = r at *
  obtain ⟨⟨exact, k⟩, s1⟩ := r
  dsimp only at *
  let store : Inst := .store (storeWidth type) k.v addr
  have after {v : Value} (old : Old s1.n v) : Old (s1.emit store).n v := fun j h => old j (Nat.le_trans emit_n h)
  have olds : ∀ v ∈ [exact.1, exact.2, k.v], Old (s1.emit store).n v := fun v mem => after (given v mem).1
  have flag : Gives [exact.1, exact.2, k.v] (overflowFlag exact k) _ _ := gives_overflowFlag (by simp) (by simp) (by simp)
  obtain ⟨js, env2, adds2, ran2, kept2, -, -, isBool, flagged⟩ :=
    flag.runs (c := c) (s := s1.emit store) olds fun v mem => (given v mem).2
  have around : s.n ≤ (s1.emit store).n := Nat.le_trans le emit_n
  have there := flagged e (convertInt e type) (limbs_kept kept2 (olds _ (by simp)) (olds _ (by simp)) limbs)
    (represents_kept kept2 (olds _ (by simp)) value) low high
  simp only [inRange_iff other] at there
  have code : (do
      let r ← overflowStored op fixed a b type
      emit (.store (storeWidth type) r.2.v addr)
      overflowFlag r.1 r.2 : Emitting Lowered) s = overflowFlag exact k (s1.emit store) := by
    show overflowFlag (overflowStored op fixed a b type s).1.1 (overflowStored op fixed a b type s).1.2
      ((overflowStored op fixed a b type s).2.emit _) = _
    rw [result]
  have same : valueX c.prep env1 (widthValueClass (storeWidth type)) k.v =
      valueX c.prep env (widthValueClass (storeWidth type)) (.const (convertInt e type)) := by
    have read := value_represents c.prep (given k.v (by simp)).2 value
    rw [type_eq] at read
    rw [storeWidth_class, read]
    rfl
  refine ⟨is ++ ([store] ++ js), env2, ?_, kept_trans kept kept2 around, ?_⟩
  · rw [code]
    exact adds.trans (adds_emit.trans adds2)
  · rw [code]
    exact ⟨isBool, there, stores_around ran ran2 (store_same kept oldAddr same)⟩

/-! ### Bits -/

theorem unsigned_bounds (other : t ≠ .bool) (unsigned : sign t = .unsigned) :
    0 ≤ convertInt m t ∧ convertInt m t < 2 ^ (8 * size t) ∧ (2 : Int) ^ (8 * size t) ≤ 2 ^ 64 := by
  have inside := (convertInt_span (x := m) other).1
  rw [InRange, Switching.lowest, unsigned] at inside
  rw [← span]
  dsimp only at inside
  rcases span_cases t with ⟨-, is⟩ | ⟨-, is⟩ | ⟨-, is⟩ | ⟨-, is⟩ <;> rw [is] at inside ⊢ <;> omega

theorem gives_extended (other : t ≠ .bool) (unsigned : sign t = .unsigned) (here : Usable known a.v) :
    Gives known (convert a .ulong) (fun r => [r.v]) fun env r => ∀ m, Represents env a (convertInt m t) →
      bits env r.v = (convertInt m t).toNat := by
  refine (gives_convert here).weaken fun env r ⟨type, out⟩ m represents => ?_
  have word := (out _ represents).word
  obtain ⟨low, high, le⟩ := unsigned_bounds (m := m) other unsigned
  have small := bits_lt env r.v
  have same : convertInt (convertInt m t) .ulong = convertInt m t := by
    show convertInt m t % 2 ^ 64 = _
    omega
  have whole : wordSpan .ulong = 2 ^ 64 := rfl
  rw [type, same, whole] at word
  omega

theorem count_le (op : BitOp) (n x : Nat) : op.count n x ≤ n + 1 := by
  have sub (p : Nat → Bool) (l : List Nat) : (l.takeWhile p).length ≤ l.length := (List.takeWhile_sublist p).length_le
  have trailing := sub (fun i => !x.testBit i) (List.range n)
  have leading := sub (fun i => !x.testBit i) (List.range n).reverse
  have ones : (List.range n).countP x.testBit ≤ _ := List.countP_le_length
  rw [List.length_reverse] at leading
  rw [List.length_range] at trailing leading ones
  cases op with
  | ctz => exact Nat.le_succ_of_le trailing
  | clz => exact Nat.le_succ_of_le leading
  | popcount => exact Nat.le_succ_of_le ones
  | ffs =>
    rw [BitOp.count]
    split_ifs
    · exact Nat.zero_le _
    · exact Nat.succ_le_succ trailing

theorem bitCount_tmp (op : BitOp) (n : Nat) (x : Value) (s : Emit) : ∃ d, (bitCount op n x s).1 = .tmp d := by
  cases op with
  | ctz =>
    rw [bitCount_ctz]
    split_ifs <;> exact ⟨_, rfl⟩
  | clz | popcount | ffs => exact ⟨_, rfl⟩

theorem bit_exact (op : BitOp) (other : t ≠ .bool) (unsigned : sign t = .unsigned) : Exact c (.bit op t) := by
  intro s env a m ha
  have width : 8 * size t ≤ 64 := by have := span_cases t; omega
  have code : Gives [a.v] (bitBuiltin op t a) (fun r => [r.v]) fun env r => r.type = .int ∧ (Represents env a m →
      Represents env r (op.count (8 * size t) (convertInt m t).toNat)) := by
    unfold bitBuiltin
    refine .bind (gives_convert (by simp)) fun v1 => ?_
    refine .bind (gives_extended other unsigned (by simp)) fun x => ?_
    refine .bind ((gives_bitCount op (by simp) width).fresh (bitCount_tmp op _ _)) fun n => ?_
    refine (gives_convert (by simp)).weaken fun env r => ?_
    rintro ⟨type, out⟩ ⟨counted, fresh⟩ word ⟨-, value⟩
    refine ⟨type, fun represents => ?_⟩
    obtain ⟨low, high, -⟩ := unsigned_bounds (m := m) other unsigned
    have small : (convertInt m t).toNat < 2 ^ (8 * size t) := by
      have : ((2 ^ (8 * size t) : Nat) : Int) = 2 ^ (8 * size t) := by push_cast; rfl
      omega
    rw [word m (value m represents)] at counted
    have bound := count_le op (8 * size t) (convertInt m t).toNat
    generalize op.count (8 * size t) (convertInt m t).toNat = k at counted bound
    have fits {t : IntType} (is : t = .int ∨ t = .long) : convertInt k t = k := by
      refine convertInt_self (by rcases is with rfl | rfl <;> decide) ?_
      rcases is with rfl | rfl
      · exact ⟨show (-2147483648 : Int) ≤ k by omega, show (k : Int) < -2147483648 + 4294967296 by omega⟩
      · exact ⟨show (-9223372036854775808 : Int) ≤ k by omega, show (k : Int) < -9223372036854775808 + 18446744073709551616 by omega⟩
    have long : Represents env ⟨n, .long⟩ k := ⟨fits (.inr rfl), by rw [counted small], fun c const => absurd const (fresh c)⟩
    exact fits (.inl rfl) ▸ out k long
  exact code.returns (by simpa using ha.old) (by simpa using ha.holds) fun env1 kept => represents_kept kept ha.old ha.represents

theorem byteSwap_lt (n x : Nat) : byteSwap n x < 256 ^ n := by
  have bytes : ∀ d ∈ ((List.range n).map fun i => x / 256 ^ i % 256).reverse, d < 256 := by
    intro d mem
    obtain ⟨i, -, rfl⟩ := List.mem_map.1 (List.mem_reverse.1 mem)
    exact Nat.mod_lt _ (by decide)
  have bound := Nat.ofDigits_lt_base_pow_length (by decide) bytes
  rwa [List.length_reverse, List.length_map, List.length_range] at bound

/-- A word of the type's size is the value. -/
theorem ulong_result {k : Nat} {v : Value} (other : t ≠ .bool) (unsigned : sign t = .unsigned) (fresh : ∀ n, v ≠ .const n)
    (word : bits env v % 2 ^ (8 * size t) = k) : Represents env ⟨v, .ulong⟩ (bits env v) ∧ convertInt (bits env v) t = k := by
  have small := bits_lt env v
  refine ⟨⟨?_, rfl, fun c const => absurd const (fresh c)⟩, ?_⟩
  · show (bits env v : Int) % 2 ^ 64 = _
    omega
  · obtain ⟨low, high, -⟩ := unsigned_bounds (m := bits env v) other unsigned
    have same := (convertInt_span (x := bits env v) other).2
    rw [span] at same
    rw [Int.emod_eq_of_lt low high] at same
    rw [same, ← word]
    push_cast
    rfl

theorem swappedBytes_tmp (is : List Nat) (x : Value) (last : Nat) (y0 : Option Value) (s : Emit)
    (fresh : ∀ v, y0 = some v → ∀ n, v ≠ .const n) : ∀ v, (swappedBytes is x last y0 s).1 = some v → ∀ n, v ≠ .const n := by
  induction is generalizing y0 s with
  | nil => exact fresh
  | cons i is ih =>
    cases y0 with
    | none => exact ih _ _ fun v eq n const => by cases eq; cases const
    | some y0 => exact ih _ _ fun v eq n const => by cases eq; cases const

theorem bswap_exact (other : t ≠ .bool) (unsigned : sign t = .unsigned) : Exact c (.bswap t) := by
  intro s env a m ha
  have positive : 0 < size t ∧ size t ≤ 8 := by have := span_cases t; omega
  have code : Gives [a.v] (bswapBuiltin t a) (fun r => [r.v]) fun env r => r.type = t ∧ (Represents env a m →
      Represents env r (byteSwap (size t) (convertInt m t).toNat)) := by
    unfold bswapBuiltin
    refine .bind (gives_convert (by simp)) fun v1 => ?_
    refine .bind (gives_extended other unsigned (by simp)) fun x => ?_
    refine .bind ((gives_swappedBytes _ none (by simp) (by simp) (fun i mem => by have := List.mem_range.1 mem; omega) (by omega)).also
      (F := fun y => ∀ v, y = some v → ∀ n, v ≠ .const n) fun s => swappedBytes_tmp _ _ _ none s (by simp)) fun y => ?_
    have here : Usable (y.toList ++ ([x.v] ++ ([v1.v] ++ [a.v]))) (y.getD (.const 0)) := by cases y <;> simp
    refine (gives_convert here).weaken fun env r => ?_
    rintro ⟨type, out⟩ ⟨swapped, fresh⟩ word ⟨-, argument⟩
    refine ⟨type, fun represents => ?_⟩
    have bytes : (List.range (size t - 1 + 1)).foldl (swapStep (bits env x.v) (size t - 1)) none = _ :=
      swapped_range (Nat.le_refl (size t - 1))
    rw [Nat.sub_add_cancel positive.1] at bytes
    rw [Option.map_none, bytes, Nat.sub_self, Nat.pow_zero, Nat.one_mul, word m (argument m represents)] at swapped
    cases y with
    | none => cases swapped
    | some v =>
      have value : bits env v = byteSwap (size t) (convertInt m t).toNat := Option.some.inj swapped
      have small := byteSwap_lt (size t) (convertInt m t).toNat
      rw [← value, power_256] at small
      obtain ⟨long, same⟩ := ulong_result other unsigned (fresh v rfl) (Nat.mod_eq_of_lt small)
      rw [← value]
      exact same ▸ out _ long
  exact code.returns (by simpa using ha.old) (by simpa using ha.holds) fun env1 kept => represents_kept kept ha.old ha.represents

/-- A count modulo the width is the number's. -/
theorem count_mod {e : Nat} (other : t ≠ .bool) (unsigned : sign t = .unsigned) (width : 8 * size t = 2 ^ e) :
    (convertInt n t).toNat % 2 ^ e = (n % (8 * size t)).toNat := by
  obtain ⟨low, -, -⟩ := unsigned_bounds (m := n) other unsigned
  have same := (convertInt_span (x := n) other).2
  have int : (8 * size t : Int) = 2 ^ e := by
    have := congrArg (Nat.cast (R := Int)) width
    push_cast at this
    exact this
  have dvd : (2 : Int) ^ e ∣ span t := by
    rw [span, width]
    exact pow_dvd_pow 2 (Nat.le_of_lt Nat.lt_two_pow_self)
  have narrow : convertInt n t % 2 ^ e = n % 2 ^ e := by
    rw [← Int.emod_emod_of_dvd _ dvd, same, Int.emod_emod_of_dvd _ dvd]
  have power : ((2 : Int) ^ e).toNat = 2 ^ e := by
    rw [← Int.toNat_natCast (2 ^ e)]
    push_cast
    rfl
  rw [int, ← narrow, Int.toNat_emod low (by positivity), power]

theorem rotate_exact (dir : Dir) (other : t ≠ .bool) (unsigned : sign t = .unsigned) : Exact c (.rotate dir t) := by
  intro s env a b m n ha hb
  obtain ⟨e, le, width⟩ : ∃ e ≤ 6, 8 * size t = 2 ^ e := by
    rcases span_cases t with ⟨is, -⟩ | ⟨is, -⟩ | ⟨is, -⟩ | ⟨is, -⟩ <;> rw [is]
    · exact ⟨3, by decide, rfl⟩
    · exact ⟨4, by decide, rfl⟩
    · exact ⟨5, by decide, rfl⟩
    · exact ⟨6, by decide, rfl⟩
  have code : Gives [a.v, b.v] (rotateBuiltin dir t a b) (fun r => [r.v]) fun env r => r.type = t ∧
      (Represents env a m ∧ Represents env b n →
        Represents env r (dir.turn (8 * size t) (convertInt m t).toNat (n % (8 * size t)).toNat)) := by
    unfold rotateBuiltin
    refine .bind (gives_convert (by simp)) fun va => ?_
    refine .bind (gives_convert (by simp)) fun vb => ?_
    refine .bind (gives_extended other unsigned (by simp)) fun x => ?_
    refine .bind (gives_extended other unsigned (by simp)) fun y => ?_
    rw [width]
    refine .bind ((gives_rotateWord le (by simp) (by simp)).fresh fun s => ⟨_, rfl⟩) fun v => ?_
    refine (gives_convert (by simp)).weaken fun env r => ?_
    rintro ⟨type, out⟩ ⟨turned, fresh⟩ count word ⟨-, valueB⟩ ⟨-, valueA⟩
    refine ⟨type, fun ⟨representsA, representsB⟩ => ?_⟩
    have value := word m (valueA m representsA)
    rw [value, count n (valueB n representsB), turn_mod, count_mod other unsigned width, ← width] at turned
    obtain ⟨low, high, -⟩ := unsigned_bounds (m := m) other unsigned
    have small : (convertInt m t).toNat < 2 ^ (8 * size t) := by
      have : ((2 ^ (8 * size t) : Nat) : Int) = 2 ^ (8 * size t) := by push_cast; rfl
      omega
    obtain ⟨long, same⟩ := ulong_result other unsigned fresh (turned small)
    rw [← width]
    exact same ▸ out _ long
  exact code.returns (by simpa using ⟨ha.old, hb.old⟩) (by simpa using ⟨ha.holds, hb.holds⟩) fun env1 kept =>
    ⟨represents_kept kept ha.old ha.represents, represents_kept kept hb.old hb.represents⟩

/-! ### The builtins -/

/-- The type of a bit builtin is an unsigned one. -/
def Builtin.Proper : Builtin → Prop
  | .overflow _ _ => True
  | .bit _ t | .bswap t | .rotate _ t => t ≠ .bool ∧ sign t = .unsigned

theorem builtins_proper : ∀ p ∈ builtins, p.2.Proper := by
  have all : ∀ b ∈ builtins.map Prod.snd, b.Proper := by
    simp only [builtins, List.flatMap_cons, List.flatMap_nil, List.map_cons, List.map_nil, List.append_nil,
      List.cons_append, List.nil_append, List.mem_cons, List.not_mem_nil, or_false, forall_eq_or_imp, forall_eq, Builtin.Proper, true_and]
    decide
  exact fun p mem => all p.2 (List.mem_map_of_mem mem)

/-- Every arithmetic builtin is exact. -/
theorem builtins_exact (name : String) (b : Builtin) (known : (name, b) ∈ builtins) (c : Nanofil.Ctx) : Exact c b := by
  have proper := builtins_proper _ known
  cases b with
  | overflow op fixed => exact overflow_exact op fixed
  | bit op t => exact bit_exact op proper.1 proper.2
  | bswap t => exact bswap_exact proper.1 proper.2
  | rotate dir t => exact rotate_exact dir proper.1 proper.2

end

/-- A function without code. -/
def noCode : Nanofil.Ctx :=
  ⟨⟨fun _ => none, fun _ => none, .filc, noMem⟩, ⟨"f", .local_, .void, [], []⟩⟩

/-- Twice the greatest int stores -2 and sets the flag. -/
theorem twice_greatest : ∃ code, checkedArithmetic .mul none ⟨.const 2147483647, .int⟩ ⟨.const 2, .int⟩ (.const 0) .int = .ok code ∧
    Stores noCode ⟨none, [], [], 0, []⟩ emptyEnv code .w (.const 0) (-2) 1 := by
  have operand (m : Int) (value : convertInt m .int = m) : Operand ⟨none, [], [], 0, []⟩ emptyEnv ⟨.const m, .int⟩ m :=
    ⟨fun _ _ eq => (nomatch eq), trivial, ⟨value, word_const, fun n eq => by cases eq; rfl⟩⟩
  obtain ⟨code, is, stores⟩ := builtins_exact "__builtin_mul_overflow" (.overflow .mul none) (by decide) noCode
    ⟨none, [], [], 0, []⟩ emptyEnv _ _ 2147483647 2 (.const 0) .int (operand 2147483647 (by decide)) (operand 2 (by decide))
    (fun _ _ eq => (nomatch eq)) (by decide) (.inl rfl)
  exact ⟨code, is, stores _ rfl⟩

end Nanofil.Arithmetic
