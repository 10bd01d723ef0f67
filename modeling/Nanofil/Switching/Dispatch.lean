import Nanofil.Switching.Emission
import Nanofil.Intervals

/-! The tests of a dispatch on words: what they decide of the values the words are of. -/
namespace Nanofil.Switching
open List Option

/-! ### Values of a type -/

def span (t : IntType) : Int := 2 ^ (8 * size t)

def lowest (t : IntType) : Int :=
  match sign t with
  | .signed => -(span t / 2)
  | .unsigned => 0

/-- The value is one of the type's. -/
def InRange (t : IntType) (v : Int) : Prop := lowest t ≤ v ∧ v < lowest t + span t

instance (t : IntType) (v : Int) : Decidable (InRange t v) := inferInstanceAs (Decidable (_ ∧ _))

/-- A promoted type: int or wider. -/
def Promoted (t : IntType) : Prop := size t = 4 ∨ size t = 8

instance (t : IntType) : Decidable (Promoted t) := inferInstanceAs (Decidable (_ ∨ _))

theorem promoted_integerPromotion (t : IntType) : Promoted (integerPromotion t) := by
  cases t <;> decide

section
variable {t : IntType} {v w lo hi : Int}

theorem Promoted.span_eq (wide : Promoted t) : span t = 4294967296 ∨ span t = 18446744073709551616 := by
  rcases wide with four | eight
  · exact .inl (by rw [span, four]; rfl)
  · exact .inr (by rw [span, eight]; rfl)

theorem Promoted.modulus (wide : Promoted t) : modulus (typeClass t) = some (span t) := by
  rcases wide with four | eight
  · simp [typeClass, span, four, Nanofil.modulus, classTable]
  · simp [typeClass, span, eight, Nanofil.modulus, classTable]

theorem Promoted.int (_wide : Promoted t) : typeClass t = .w ∨ typeClass t = .l := by
  rw [typeClass]
  split_ifs
  · exact .inr rfl
  · exact .inl rfl

theorem convertInt_eq (wide : Promoted t) : convertInt v t = signedWord (sign t) (v % span t) (span t) := by
  cases t <;> first | rfl | exact absurd wide (by decide)

/-- A conversion gives a value of the type, the same modulo its width. -/
theorem convertInt_range (wide : Promoted t) : InRange t (convertInt v t) ∧ convertInt v t % span t = v % span t := by
  rw [convertInt_eq wide, InRange, lowest]
  cases sign t <;> rcases wide.span_eq with eq | eq <;> rw [eq] <;> dsimp only [signedWord]
  · split_ifs <;> omega
  · split_ifs <;> omega
  · omega
  · omega

/-- Values of a type with one word are one value. -/
theorem inRange_inj (wide : Promoted t) (inV : InRange t v) (inW : InRange t w) (same : v % span t = w % span t) : v = w := by
  rw [InRange] at inV inW
  rcases wide.span_eq with eq | eq <;> rw [eq] at inV inW same <;> omega

theorem convertInt_self (wide : Promoted t) : convertInt v t = v ↔ InRange t v := by
  obtain ⟨inside, same⟩ := convertInt_range (v := v) wide
  exact ⟨fun eq => eq ▸ inside, fun inV => inRange_inj wide inside inV same⟩

/-! ### Tests -/

theorem test_eq (wide : Promoted t) (inV : InRange t v) (inW : InRange t w) :
    condBit .eq (typeClass t) (v % span t) (w % span t) = .ok (bit (v = w)) := by
  have same : (v % span t = w % span t) = (v = w) :=
    propext ⟨inRange_inj wide inV inW, fun eq => eq ▸ rfl⟩
  simp only [condBit, same]

/-- The word read with the type's sign is the value. -/
theorem signed_word (wide : Promoted t) (inV : InRange t v) (is : sign t = .signed) :
    signed (typeClass t) (v % span t) = .ok v := by
  rw [InRange, lowest, is] at inV
  have half : halfModulus (typeClass t) = some (span t / 2) := by
    rcases wide with four | eight
    · simp [typeClass, span, four, halfModulus, classTable]
    · simp [typeClass, span, eight, halfModulus, classTable]
  have word : signExtension (span t) (span t / 2) (v % span t) = v := by
    rw [signExtension]
    rcases wide.span_eq with eq | eq <;> rw [eq] at inV ⊢ <;> dsimp only at inV <;> split_ifs <;> omega
  simp only [signed, wide.modulus, half, orNoRule, bind, Except.bind, pure, Except.pure, word]

theorem test_less (wide : Promoted t) (inV : InRange t v) (inW : InRange t w) :
    condBit (lessThan (sign t)) (typeClass t) (v % span t) (w % span t) = .ok (bit (v < w)) := by
  cases is : sign t with
  | signed =>
    simp only [lessThan, condBit, signed_word wide inV is, signed_word wide inW is, bind, Except.bind, pure, Except.pure]
  | unsigned =>
    rw [InRange, lowest, is] at inV inW
    dsimp only at inV inW
    have left : v % span t = v := Int.emod_eq_of_lt inV.1 (by omega)
    have right : w % span t = w := Int.emod_eq_of_lt inW.1 (by omega)
    simp only [lessThan, condBit, left, right]

/-- One unsigned comparison of the distance decides an interval. -/
theorem test_span (wide : Promoted t) (inV : InRange t v) (inLo : InRange t lo) (inHi : InRange t hi) (le : lo ≤ hi) :
    condBit .ule (typeClass t) ((v % span t - lo % span t) % span t) ((hi - lo) % span t) = .ok (bit (lo ≤ v ∧ v ≤ hi)) := by
  have same : ((v % span t - lo % span t) % span t ≤ (hi - lo) % span t) = (lo ≤ v ∧ v ≤ hi) := by
    rw [InRange] at inV inLo inHi
    rw [← Int.sub_emod]
    rcases wide.span_eq with eq | eq <;> rw [eq] at inV inLo inHi ⊢ <;> apply propext <;> omega
  simp only [condBit, same]

end

/-! The blocks of a dispatch lead, in the interpreter, to the label of the value's case. -/

open Nanofil

/-! ### Paths through blocks -/

section
variable {c : Nanofil.Ctx} {l l1 l2 l3 t d : Name} {env env1 env2 : Env} {k : Cls} {u v : Value} {x y : Int} {b : Bool}
  {op : Op} {i : Inst} {is : List Inst} {P Q : Env → Prop}

/-- From a block the run comes to another: it takes some fuel, and leaves the memory. -/
def Reaches (c : Nanofil.Ctx) (l : Name) (env : Env) (l' : Name) (P : Env → Prop) : Prop :=
  ∃ k env', P env' ∧ ∀ pred, ∃ pred', ∀ n fuel (s : St),
    blockOutcome (n + k) c l pred env { s with fuel := fuel + k } = blockOutcome n c l' pred' env' { s with fuel }

theorem Reaches.refl (holds : P env) : Reaches c l env l P := ⟨0, env, holds, fun pred => ⟨pred, fun _ _ _ => rfl⟩⟩

theorem Reaches.head (step : ∀ pred n fuel (s : St),
      blockOutcome (n + 1) c l pred env { s with fuel := fuel + 1 } = blockOutcome n c l1 (some l) env1 { s with fuel })
    (rest : Reaches c l1 env1 l2 P) : Reaches c l env l2 P := by
  obtain ⟨k, env2, holds, run⟩ := rest
  obtain ⟨pred2, run⟩ := run (some l)
  exact ⟨k + 1, env2, holds, fun pred => ⟨pred2, fun n fuel s => (step pred (n + k) (fuel + k) s).trans (run n fuel s)⟩⟩

theorem Reaches.mono (reaches : Reaches c l env l1 P) (weaker : ∀ env, P env → Q env) : Reaches c l env l1 Q := by
  obtain ⟨k, env', holds, run⟩ := reaches
  exact ⟨k, env', weaker env' holds, run⟩

/-- An instruction that computes on words: the run goes on with its result. -/
def Computes (c : Nanofil.Ctx) (is : List Inst) (env env1 : Env) : Prop :=
  ∀ call s, instsResult call c.prep is env s = .ok (.cont env1 s)

theorem Computes.nil : Computes c [] env env := fun _ _ => rfl

theorem Computes.cons (clear : aheadTransparent i = true) (no_ahead : aheadInst i = none)
    (first : ∀ call s, instResult call c.prep i env s = .ok (.cont env1 s)) (rest : Computes c is env1 env2) :
    Computes c (i :: is) env env2 := by
  intro call s
  have kept : doomedResult c.prep i env (.cont env1 s) = .ok (.cont env1 s) := by
    simp only [doomedResult, no_ahead]
  rw [instsResult, first, clear]
  cases env.doomed <;>
    · show (doomedResult c.prep i env (.cont env1 s) >>= _) = _
      rw [kept]
      exact rest call s

theorem compare_computes {cond : Cond} (int : k = .w ∨ k = .l) (left : valueX c.prep env k u = .ok (.int x))
    (right : valueX c.prep env k v = .ok (.int y)) (decides : condBit cond k x y = .ok (bit b)) (call : Call) (s : St) :
    instResult call c.prep (.let_ d .w (.cmp cond k) [u, v]) env s = .ok (.cont (env.put d (.int (bit b))) s) := by
  have op : opRes (.cmp cond k) .w c.prep.mode [.int x, .int y] s.mem = .ok (.val (.int (bit b)), s.mem) := by
    rcases int with rfl | rfl <;> simp only [opRes, fmt, alu, intOp, decides] <;> rfl
  show letResult c.prep d .w (.cmp cond k) [u, v] env s = _
  simp only [letResult, opArgClasses, opKind, kindArgClasses, bind_some, orNoRule, valuesX, left, right, bind,
    Except.bind, pure, Except.pure, op, resResult]
  rfl

theorem sub_computes {m : Int} (int : k = .w ∨ k = .l) (size : modulus k = some m) (left : valueX c.prep env k u = .ok (.int x))
    (right : valueX c.prep env k v = .ok (.int y)) (call : Call) (s : St) :
    instResult call c.prep (.let_ d k .sub [u, v]) env s = .ok (.cont (env.put d (.int ((x - y) % m))) s) := by
  have op : opRes .sub k c.prep.mode [.int x, .int y] s.mem = .ok (.val (.int ((x - y) % m)), s.mem) := opRes_sub int size
  have classes : additiveArgClasses k = some [k, k] := by rcases int with rfl | rfl <;> rfl
  have plain : instResult call c.prep (.let_ d k .sub [u, v]) env s = letResult c.prep d k .sub [u, v] env s := by
    rcases int with rfl | rfl <;> rfl
  rw [plain]
  simp only [letResult, opArgClasses, opKind, kindArgClasses, bind_some, classes, orNoRule, valuesX, left, right, bind,
    Except.bind, pure, Except.pure, op, resResult]
  rfl

theorem branch_step (found : c.func.block? l = some ⟨l, [], is, .branch (.tmp t) (.label l1) (.label l2)⟩)
    (ran : Computes c is env env1) (test : env1.vals t = some (.int (bit b))) (pred : Option Name) (n fuel : Nat) (s : St) :
    blockOutcome (n + 1) c l pred env { s with fuel := fuel + 1 } =
      blockOutcome n c (if b then l1 else l2) (some l) env1 { s with fuel } := by
  have read : valueX c.prep env1 .w (.tmp t) = .ok (.int (bit b)) := by
    rw [valueX, test]
    cases b <;> rfl
  rw [Computes] at ran
  rw [blockOutcome, if_neg (Nat.succ_ne_zero fuel), found]
  simp only [phisEnv, ran, bind, Except.bind, resultOutcome, Nat.add_sub_cancel]
  have edge : (Jump.branch (.tmp t) (.label l1) (.label l2)).isEdge = true := rfl
  rw [edge]
  have jumps : jumpOutcome (blockOutcome n c) c (.branch (.tmp t) (.label l1) (.label l2)) l env1 { s with fuel } =
      blockOutcome n c (if b then l1 else l2) (some l) env1 { s with fuel } := by
    simp only [jumpOutcome, read, bind, Except.bind, Word.toInt]
    cases b <;> rfl
  cases env1.doomed <;> exact jumps

theorem goto_step (found : c.func.block? l = some ⟨l, [], is, .goto (.label l1)⟩) (ran : Computes c is env env1)
    (pred : Option Name) (n fuel : Nat) (s : St) :
    blockOutcome (n + 1) c l pred env { s with fuel := fuel + 1 } = blockOutcome n c l1 (some l) env1 { s with fuel } := by
  rw [Computes] at ran
  rw [blockOutcome, if_neg (Nat.succ_ne_zero fuel), found]
  simp only [phisEnv, ran, bind, Except.bind, resultOutcome, Nat.add_sub_cancel]
  have edge : (Jump.goto (.label l1)).isEdge = true := rfl
  rw [edge]
  cases env1.doomed <;> rfl

end

/-! ### What the emission keeps -/

/-- An emission adds blocks, takes names and leaves the cases. -/
structure Emits (s s' : Emit) : Prop where
  blocks : s.blocks <:+ s'.blocks
  n : s.n ≤ s'.n
  cases : s'.cases = s.cases

section
variable {s s1 s2 : Emit} {j : Jump} {l : Name} {k : Cls} {op : Op} {args : List Value}

theorem Emits.refl : Emits s s := ⟨suffix_refl _, Nat.le_refl _, rfl⟩

theorem Emits.trans (first : Emits s s1) (second : Emits s1 s2) : Emits s s2 :=
  ⟨first.blocks.trans second.blocks, Nat.le_trans first.n second.n, second.cases.trans first.cases⟩

theorem emits_label : Emits s s.label.2 := ⟨suffix_refl _, Nat.le_succ _, rfl⟩

theorem emits_ensureLive : Emits s s.ensureLive := by
  rw [Emit.ensureLive]
  split
  · exact .refl
  · exact ⟨suffix_refl _, Nat.le_succ _, rfl⟩

theorem emits_emit {i : Inst} : Emits s (s.emit i) :=
  ⟨emits_ensureLive.blocks, emits_ensureLive.n, emits_ensureLive.cases⟩

theorem emits_closeBlock : Emits s (s.closeBlock j) := by
  rw [Emit.closeBlock]
  split
  · exact ⟨suffix_cons _ _, Nat.le_refl _, rfl⟩
  · exact .refl

theorem emits_term : Emits s (s.term j) := emits_ensureLive.trans emits_closeBlock

theorem emits_start : Emits s (s.start l) := by
  rw [Emit.start]
  split
  · exact ⟨emits_term.blocks, emits_term.n, emits_term.cases⟩
  · exact ⟨suffix_refl _, Nat.le_refl _, rfl⟩

theorem emits_let : Emits s (s.let_ k op args).2 :=
  (show Emits s { s with n := s.n + 1 } from ⟨suffix_refl _, Nat.le_succ _, rfl⟩).trans emits_emit

theorem emits_dispatchCases {value : Value} {lDefault : Name} (pairs : List (Int × Aim)) :
    Emits s (dispatchCases pairs value k lDefault s) := by
  induction pairs generalizing s with
  | nil => exact emits_term
  | cons p pairs ih =>
    obtain ⟨lo, l | ⟨hi, l⟩⟩ := p
    · exact (emits_let.trans (emits_label.trans (emits_term.trans emits_start))).trans ih
    · exact (emits_let.trans (emits_let.trans (emits_label.trans (emits_term.trans emits_start)))).trans ih

theorem emits_dispatchSearch {value : Value} {lDefault : Name} {sign : Signedness} (pairs : List (Int × Aim)) :
    Emits s (dispatchSearch pairs value sign k lDefault s) := by
  induction bound : pairs.length using Nat.strong_induction_on generalizing pairs s with
  | _ size ih =>
    rw [dispatchSearch]
    split
    case isTrue large =>
      have lower (s : Emit) : Emits s (dispatchSearch (pairs.take (pairs.length / 2)) value sign k lDefault s) :=
        ih _ (by rw [length_take]; omega) _ rfl
      have upper (s : Emit) : Emits s (dispatchSearch (pairs.drop (pairs.length / 2)) value sign k lDefault s) :=
        ih _ (by rw [length_drop]; omega) _ rfl
      exact (emits_let.trans (emits_label.trans (emits_label.trans (emits_term.trans emits_start)))).trans
        ((lower _).trans (emits_start.trans (upper _)))
    case isFalse => exact emits_dispatchCases pairs

/-- No block is open. -/
def Closed (s : Emit) : Prop := s.cur = none ∧ s.insts = []

theorem closed_term : Closed (s.term j) := by
  rw [Emit.term, Emit.ensureLive]
  split
  case h_1 live =>
    rw [Emit.closeBlock, live]
    exact ⟨rfl, rfl⟩
  case h_2 => exact ⟨rfl, rfl⟩

theorem closed_dispatchCases {value : Value} {lDefault : Name} (pairs : List (Int × Aim)) :
    Closed (dispatchCases pairs value k lDefault s) := by
  induction pairs generalizing s with
  | nil => exact closed_term
  | cons p pairs ih =>
    obtain ⟨lo, l | ⟨hi, l⟩⟩ := p
    · exact ih
    · exact ih

theorem closed_dispatchSearch {value : Value} {lDefault : Name} {sign : Signedness} (pairs : List (Int × Aim)) :
    Closed (dispatchSearch pairs value sign k lDefault s) := by
  induction bound : pairs.length using Nat.strong_induction_on generalizing pairs s with
  | _ size ih =>
    rw [dispatchSearch]
    split
    case isTrue large => exact ih _ (by rw [length_drop]; omega) _ rfl
    case isFalse => exact closed_dispatchCases pairs

end

/-! ### Cases one by one -/

def Aim.label : Aim → Name
  | .at l | .to _ l => l

/-- The values that a pair takes. -/
def covers (p : Int × Aim) (v : Int) : Bool :=
  match p.2 with
  | .at _ => v = p.1
  | .to hi _ => p.1 ≤ v ∧ v ≤ hi

def hit (pairs : List (Int × Aim)) (v : Int) : Option Name := (pairs.find? (covers · v)).map (·.2.label)

/-- A pair's bounds are values of the type. -/
def Fits (t : IntType) (p : Int × Aim) : Prop :=
  InRange t p.1 ∧ ∀ hi l, p.2 = .to hi l → InRange t hi ∧ p.1 ≤ hi

/-- The temporaries that were there before, and the run's other records, are kept. -/
structure Kept (n : Nat) (env env' : Env) : Prop where
  vals : ∀ x, (∀ j, n ≤ j → x ≠ tempName j) → env'.vals x = env.vals x
  doomed : env'.doomed = env.doomed
  snapshot : env'.snapshot = env.snapshot

section
variable {c : Nanofil.Ctx} {t : IntType} {l lDefault : Name} {env env' : Env} {k : Cls} {value : Value} {v x : Int} {n m : Nat}
  {pairs : List (Int × Aim)} {bs : List Block} {cs : List Case} {s : Emit}

theorem Kept.refl : Kept n env env := ⟨fun _ _ => rfl, rfl, rfl⟩

theorem Kept.put {w : Word} {env2 : Env} (kept : Kept m (env.put (tempName n) w) env2) (le : n ≤ m) : Kept n env env2 := by
  refine ⟨fun x other => ?_, kept.doomed, kept.snapshot⟩
  rw [kept.vals x fun j h => other j (Nat.le_trans le h)]
  exact if_neg (other n (Nat.le_refl n))

theorem value_put {prep : Prep} {w : Word} (old : value ≠ .tmp (tempName n)) :
    valueX prep (env.put (tempName n) w) k value = valueX prep env k value := by
  cases value with
  | tmp y =>
    have other : (env.put (tempName n) w).vals y = env.vals y := if_neg fun same => old (congrArg Value.tmp same)
    simp only [valueX, other]
  | const _ => rfl
  | global _ => rfl

theorem value_const (wide : Promoted t) (prep : Prep) (w : Int) :
    valueX prep env (typeClass t) (.const w) = .ok (.int (w % span t)) := by
  simp only [valueX, wide.modulus, orNoRule, bind, Except.bind]
  rcases wide.int with is | is <;> rw [is] <;> rfl

/-- The function has the blocks, under their labels. -/
def Has (c : Nanofil.Ctx) (bs : List Block) : Prop := ∀ b ∈ bs, c.func.block? b.label = some b

theorem Has.emits {s s' : Emit} (has : Has c s'.blocks) (emits : Emits s s') : Has c s.blocks :=
  fun b mem => has b (emits.blocks.subset mem)

/-- The state where a block begins. -/
def opening (l : Name) (bs : List Block) (n : Nat) (cs : List Case) : Emit := ⟨some (l, []), [], bs, n, cs⟩

theorem Closed.start {s : Emit} (closed : Closed s) (l : Name) : s.start l = opening l s.blocks s.n s.cases := by
  obtain ⟨cur, insts, bs, n, cs⟩ := s
  obtain ⟨rfl, rfl⟩ := closed
  rfl

theorem Has.head {b : Block} (has : Has c (b :: bs)) : c.func.block? b.label = some b := has b mem_cons_self

theorem hit_cons {p : Int × Aim} : hit (p :: pairs) v = if covers p v then some p.2.label else hit pairs v := by
  simp only [hit, find?_cons]
  cases covers p v <;> rfl

/-- The block of one pair: the value's test, and a jump to the pair's label or to the next block. -/
theorem aim_step {p : Int × Aim} {next : Name} {is : List Inst} {j : Nat} {env1 : Env}
    (has : Has c (⟨l, [], is, .branch (.tmp (tempName j)) (.label p.2.label) (.label next)⟩ :: bs)) (ran : Computes c is env env1)
    (test : env1.vals (tempName j) = some (.int (bit (covers p v)))) (kept : Kept n env env1)
    (rest : covers p v = false → Reaches c next env1 ((hit pairs v).getD lDefault) (Kept n env)) :
    Reaches c l env ((hit (p :: pairs) v).getD lDefault) (Kept n env) := by
  have step := branch_step has.head ran test
  rw [hit_cons]
  cases covered : covers p v with
  | true =>
    rw [covered] at step
    exact .head step (.refl kept)
  | false =>
    rw [covered] at step
    exact .head step (rest covered)

theorem dispatchCases_at {aim : Name} {lo : Int} : dispatchCases ((lo, .at aim) :: pairs) value k lDefault (opening l bs n cs) =
    dispatchCases pairs value k lDefault (opening (labelName (n + 1)) (⟨l, [], [.let_ (tempName n) .w (.cmp .eq k) [value, .const lo]],
      .branch (.tmp (tempName n)) (.label aim) (.label (labelName (n + 1)))⟩ :: bs) (n + 2) cs) := rfl

theorem dispatchCases_to {aim : Name} {lo hi : Int} : dispatchCases ((lo, .to hi aim) :: pairs) value k lDefault (opening l bs n cs) =
    dispatchCases pairs value k lDefault (opening (labelName (n + 2)) (⟨l, [], [.let_ (tempName n) k .sub [value, .const lo],
      .let_ (tempName (n + 1)) .w (.cmp .ule k) [.tmp (tempName n), .const (hi - lo)]],
      .branch (.tmp (tempName (n + 1))) (.label aim) (.label (labelName (n + 2)))⟩ :: bs) (n + 3) cs) := rfl

theorem dispatchCases_reaches (wide : Promoted t) (inV : InRange t v) (fits : ∀ p ∈ pairs, Fits t p)
    (has : Has c (dispatchCases pairs value (typeClass t) lDefault (opening l bs n cs)).blocks)
    (reads : valueX c.prep env (typeClass t) value = .ok (.int (v % span t))) (old : ∀ j, n ≤ j → value ≠ .tmp (tempName j)) :
    Reaches c l env ((hit pairs v).getD lDefault) (Kept n env) := by
  induction pairs generalizing l bs n env with
  | nil => exact .head (goto_step has.head .nil) (.refl .refl)
  | cons p pairs ih =>
    obtain ⟨inLo, toHi⟩ := fits p mem_cons_self
    have fits' : ∀ p ∈ pairs, Fits t p := fun p mem => fits p (mem_cons_of_mem _ mem)
    obtain ⟨lo, aim | ⟨hi, aim⟩⟩ := p
    · let env1 := env.put (tempName n) (.int (bit (v = lo)))
      rw [dispatchCases_at] at has
      have compared := compare_computes (d := tempName n) wide.int reads (value_const wide c.prep lo) (test_eq wide inV inLo)
      have reads1 : valueX c.prep env1 (typeClass t) value = .ok (.int (v % span t)) := by
        rw [value_put (old n (Nat.le_refl n)), reads]
      have kept : Kept n env env1 := .put .refl (Nat.le_refl n)
      refine aim_step (p := (lo, .at aim)) (has.emits (emits_dispatchCases pairs)) (.cons rfl rfl compared .nil) (if_pos rfl) kept
        fun _ => ?_
      exact (ih fits' has reads1 fun j le => old j (by omega)).mono fun _ later => .put later (by omega)
    · obtain ⟨inHi, le⟩ := toHi hi aim rfl
      rw [dispatchCases_to] at has
      let env1 := env.put (tempName n) (.int ((v % span t - lo % span t) % span t))
      let env2 := env1.put (tempName (n + 1)) (.int (bit (lo ≤ v ∧ v ≤ hi)))
      have shifted := sub_computes (d := tempName n) wide.int wide.modulus reads (value_const wide c.prep lo)
      have distance : valueX c.prep env1 (typeClass t) (.tmp (tempName n)) =
          .ok (.int ((v % span t - lo % span t) % span t)) := by
        have there : env1.vals (tempName n) = some (.int ((v % span t - lo % span t) % span t)) := if_pos rfl
        simp only [valueX, there, wordAtClass_int wide.modulus wide.int, Int.emod_emod]
      have compared := compare_computes (d := tempName (n + 1)) wide.int distance (value_const wide c.prep (hi - lo))
        (test_span wide inV inLo inHi le)
      have reads1 : valueX c.prep env2 (typeClass t) value = .ok (.int (v % span t)) := by
        rw [value_put (old (n + 1) (by omega)), value_put (old n (Nat.le_refl n)), reads]
      have no_ahead : aheadInst (.let_ (tempName n) (typeClass t) .sub [value, .const lo]) = none := by
        rcases wide.int with is | is <;> rw [is] <;> rfl
      have kept : Kept n env env2 := .put (.put .refl (Nat.le_refl (n + 1))) (Nat.le_succ n)
      refine aim_step (p := (lo, .to hi aim)) (has.emits (emits_dispatchCases pairs))
        (.cons rfl no_ahead shifted (.cons rfl rfl compared .nil)) (if_pos rfl) kept fun _ => ?_
      exact (ih fits' has reads1 fun j le => old j (by omega)).mono fun _ later => .put (.put later (by omega)) (by omega)

/-! ### The search -/

def last (p : Int × Aim) : Int :=
  match p.2 with
  | .at _ => p.1
  | .to hi _ => hi

/-- The pairs of a list follow one another, none reaching the next. -/
def Ordered (pairs : List (Int × Aim)) : Prop := pairs.Pairwise fun p q => last p < q.1

theorem covers_iff (fits : Fits t p) : covers p v = true ↔ p.1 ≤ v ∧ v ≤ last p := by
  obtain ⟨lo, aim | ⟨hi, aim⟩⟩ := p
  · simp only [covers, last, decide_eq_true_eq]
    omega
  · simp only [covers, last, decide_eq_true_eq]

theorem hit_append {others : List (Int × Aim)} : hit (pairs ++ others) v = (hit pairs v).or (hit others v) := by
  simp only [hit, find?_append]
  cases pairs.find? (covers · v) <;> rfl

theorem hit_none (never : ∀ p ∈ pairs, covers p v = false) : hit pairs v = none := by
  have no : pairs.find? (covers · v) = none := find?_eq_none.2 fun p mem => by simp [never p mem]
  simp only [hit, no, map_none]

theorem first_le_last (fits : Fits t p) : p.1 ≤ last p := by
  obtain ⟨lo, aim | ⟨hi, aim⟩⟩ := p
  · exact Int.le_refl lo
  · exact (fits.2 hi aim rfl).2

/-- The pivot parts the pairs: no pair below it reaches it, and no other starts before. -/
theorem hit_split {lower upper : List (Int × Aim)} {pivot : Int × Aim} (ordered : Ordered (lower ++ pivot :: upper))
    (fits : ∀ p ∈ lower ++ pivot :: upper, Fits t p) :
    hit (lower ++ pivot :: upper) v = if v < pivot.1 then hit lower v else hit (pivot :: upper) v := by
  obtain ⟨-, above, below⟩ := pairwise_append.1 ordered
  have fits_pivot := fits pivot (by simp)
  rw [hit_append]
  split
  case isTrue less =>
    have never : ∀ q ∈ pivot :: upper, covers q v = false := by
      intro q mem
      have after : pivot.1 ≤ q.1 := by
        rcases mem_cons.1 mem with rfl | mem
        · exact Int.le_refl _
        · have next := rel_of_pairwise_cons above mem
          have bounds := first_le_last fits_pivot
          omega
      rw [Bool.eq_false_iff, Ne, covers_iff (fits q (mem_append_right _ mem))]
      omega
    rw [hit_none never, or_none]
  case isFalse notLess =>
    have never : ∀ p ∈ lower, covers p v = false := by
      intro p mem
      have before := below p mem pivot mem_cons_self
      rw [Bool.eq_false_iff, Ne, covers_iff (fits p (mem_append_left _ mem))]
      omega
    rw [hit_none never, none_or]

theorem dispatchSearch_split {sign : Signedness} (large : 4 < pairs.length) (half : pairs.length / 2 < pairs.length) {s1 : Emit}
    (lower : s1 = dispatchSearch (pairs.take (pairs.length / 2)) value sign k lDefault (opening (labelName (n + 1))
      (⟨l, [], [.let_ (tempName n) .w (.cmp (lessThan sign) k) [value, .const (pairs.get ⟨pairs.length / 2, half⟩).1]],
        .branch (.tmp (tempName n)) (.label (labelName (n + 1))) (.label (labelName (n + 2)))⟩ :: bs) (n + 3) cs)) :
    dispatchSearch pairs value sign k lDefault (opening l bs n cs) =
      dispatchSearch (pairs.drop (pairs.length / 2)) value sign k lDefault (opening (labelName (n + 2)) s1.blocks s1.n s1.cases) := by
  have closed : Closed s1 := lower ▸ closed_dispatchSearch _
  rw [dispatchSearch, dif_pos large, ← closed.start, lower]
  rfl

theorem dispatchSearch_reaches (wide : Promoted t) (inV : InRange t v) (ordered : Ordered pairs) (fits : ∀ p ∈ pairs, Fits t p)
    (has : Has c (dispatchSearch pairs value (sign t) (typeClass t) lDefault (opening l bs n cs)).blocks)
    (reads : valueX c.prep env (typeClass t) value = .ok (.int (v % span t))) (old : ∀ j, n ≤ j → value ≠ .tmp (tempName j)) :
    Reaches c l env ((hit pairs v).getD lDefault) (Kept n env) := by
  induction bound : pairs.length using Nat.strong_induction_on generalizing pairs l bs n cs env with
  | _ size ih =>
    by_cases large : 4 < pairs.length
    case neg =>
      rw [dispatchSearch, dif_neg large] at has
      exact dispatchCases_reaches wide inV fits has reads old
    case pos =>
      have half : pairs.length / 2 < pairs.length := by omega
      let pivot := pairs.get ⟨pairs.length / 2, half⟩
      have upper_eq : pairs.drop (pairs.length / 2) = pivot :: pairs.drop (pairs.length / 2 + 1) := drop_eq_getElem_cons half
      have parts : pairs = pairs.take (pairs.length / 2) ++ pivot :: pairs.drop (pairs.length / 2 + 1) := by
        rw [← upper_eq, take_append_drop]
      have picked := hit_split (v := v) (parts ▸ ordered) (parts ▸ fits)
      rw [← parts, ← upper_eq] at picked
      have inPivot : InRange t pivot.1 := (fits pivot (List.get_mem pairs ⟨_, half⟩)).1
      let env1 := env.put (tempName n) (.int (bit (v < pivot.1)))
      have compared := compare_computes (d := tempName n) wide.int reads (value_const wide c.prep pivot.1) (test_less wide inV inPivot)
      have reads1 : valueX c.prep env1 (typeClass t) value = .ok (.int (v % span t)) := by
        rw [value_put (old n (Nat.le_refl n)), reads]
      have kept1 (env2 : Env) {m : Nat} (le : n + 3 ≤ m) (later : Kept m env1 env2) : Kept n env env2 := .put later (by omega)
      rw [dispatchSearch_split large half rfl] at has
      generalize lower : dispatchSearch (pairs.take _) value _ _ _ _ = s1 at has
      have emits1 := lower ▸ emits_dispatchSearch (pairs.take (pairs.length / 2))
      have le : n + 3 ≤ s1.n := emits1.n
      have has1 : Has c s1.blocks :=
        Has.emits (s := opening (labelName (n + 2)) s1.blocks s1.n s1.cases) has (emits_dispatchSearch _)
      have step := branch_step (has1.emits emits1).head (.cons rfl rfl compared .nil) (if_pos rfl)
      rw [picked]
      split at picked
      case isTrue less =>
        rw [if_pos less]
        have rest := ih _ (by rw [length_take]; omega) (ordered.sublist (take_sublist _ _))
          (fun p mem => fits p (mem_of_mem_take mem)) (lower ▸ has1) reads1 (fun j le => old j (by omega)) rfl
        refine .head step ?_
        rw [if_pos (decide_eq_true less)]
        exact rest.mono fun _ => kept1 _ (Nat.le_refl _)
      case isFalse notLess =>
        rw [if_neg notLess]
        have rest := ih _ (by rw [length_drop]; omega) (ordered.sublist (drop_sublist _ _))
          (fun p mem => fits p (mem_of_mem_drop mem)) has reads1 (fun j le => old j (by omega)) rfl
        refine .head step ?_
        rw [if_neg (ne_true_of_eq_false (decide_eq_false notLess))]
        exact rest.mono fun _ => kept1 _ le

end

end Nanofil.Switching
