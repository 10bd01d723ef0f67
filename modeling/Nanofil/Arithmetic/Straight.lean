import Nanofil.Arithmetic.Lowering
import Nanofil.Switching.Dispatch

/-! Code without jumps: each instruction defines a new temporary, so that when the run is over all of them hold
together as equations. -/
namespace Nanofil.Arithmetic
open List
open Switching (tempName Computes Kept)

/-! ### Machine operations -/

/-- The classes at which an operation on integer words reads its arguments. -/
def machine : Op → Cls → Option (List Cls)
  | .add, .l | .sub, .l | .mul, .l | .and, .l | .or, .l => some [.l, .l]
  | .shl, .l | .shr, .l | .sar, .l => some [.l, .w]
  | .neg, .l => some [.l]
  | .or, .w => some [.w, .w]
  | .ext t, .l | .ext t, .w => if (narrowType t).isSome then some [.w] else none
  | .cmp .ne .l, .w | .cmp .ult .l, .w => some [.l, .l]
  | .cmp .ne .w, .w => some [.w, .w]
  | .xor, .l => some [.l, .l]
  | .sub, .w | .and, .w | .xor, .w | .shl, .w => some [.w, .w]
  | .copy, .w => some [.w]
  | .cmp .eq .l, .w | .cmp .slt .l, .w | .cmp .sle .l, .w => some [.l, .l]
  | .cmp .eq .w, .w | .cmp .slt .w, .w | .cmp .sle .w, .w => some [.w, .w]
  | _, _ => none

/-- An integer as a class reads it. -/
def atClass (k : Cls) (x : Int) : Int := x % (modulus k).getD 1

/-- What an operation gives of integers. -/
def compute (op : Op) (k : Cls) (xs : List Int) : Int :=
  match alu op k (List.zipWith (fun c x => .int (atClass c x)) ((machine op k).getD []) xs) with
  | .ok (.int y) => y
  | _ => 0

/-- The integer of a constant or a temporary. -/
def word (env : Env) : Value → Int
  | .tmp n =>
    match env.vals n with
    | some (.int x) => x
    | _ => 0
  | .const n => n
  | .global _ => 0

/-- A constant, or a temporary that holds an integer. -/
def Holds (env : Env) : Value → Prop
  | .tmp n => ∃ x, env.vals n = some (.int x)
  | .const _ => True
  | .global _ => False

section
variable {prep : Prep} {env env1 env2 : Env} {k : Cls} {op : Op} {v : Value} {d : Name} {args : List Value} {ks : List Cls} {c : Nanofil.Ctx}

theorem holds_value (int : k = .w ∨ k = .l) (holds : Holds env v) : valueX prep env k v = .ok (.int (atClass k (word env v))) := by
  cases v with
  | tmp n =>
    obtain ⟨x, is⟩ := holds
    rcases int with rfl | rfl <;> simp only [valueX, word, is] <;> rfl
  | const n => rcases int with rfl | rfl <;> rfl
  | global g => exact absurd holds id

theorem unary_result {a : Value} {ka : Cls} {w : Word} (classes : opArgClasses op k prep.mode = some [ka]) (int : ka = .w ∨ ka = .l)
    (holds : Holds env a) (res : ∀ mem, opRes op k prep.mode [.int (atClass ka (word env a))] mem = .ok (.val w, mem)) (s : St) :
    letResult prep d k op [a] env s = .ok (.cont (env.put d w) s) := by
  simp only [letResult, classes, orNoRule, valuesX, holds_value int holds, res, bind, Except.bind, pure, Except.pure, resResult]
  rfl

theorem binary_result {a b : Value} {ka kb : Cls} {w : Word} (classes : opArgClasses op k prep.mode = some [ka, kb])
    (intA : ka = .w ∨ ka = .l) (intB : kb = .w ∨ kb = .l) (holdsA : Holds env a) (holdsB : Holds env b)
    (res : ∀ mem, opRes op k prep.mode [.int (atClass ka (word env a)), .int (atClass kb (word env b))] mem = .ok (.val w, mem))
    (s : St) : letResult prep d k op [a, b] env s = .ok (.cont (env.put d w) s) := by
  simp only [letResult, classes, orNoRule, valuesX, holds_value intA holdsA, holds_value intB holdsB, res, bind, Except.bind, pure,
    Except.pure, resResult]
  rfl

/-- The operations of the table are the interpreter's on integer words. -/
theorem machine_result (known : machine op k = some ks) (length : args.length = ks.length)
    (holds : ∀ a ∈ args, Holds env a) (call : Call) (s : St) :
    instResult call prep (.let_ d k op args) env s =
      .ok (.cont (env.put d (.int (compute op k (args.map (word env))))) s) := by
  have one {a : Value} (eq : args = [a]) : Holds env a := holds a (by simp [eq])
  have both {a b : Value} (eq : args = [a, b]) : Holds env a ∧ Holds env b := ⟨holds a (by simp [eq]), holds b (by simp [eq])⟩
  unfold machine at known
  split at known
  case h_9 =>
    cases known
    obtain ⟨a, rfl⟩ := length_eq_one_iff.1 length
    exact unary_result rfl (.inr rfl) (one rfl) (fun _ => rfl) s
  case h_11 t | h_12 t =>
    split_ifs at known with narrow
    cases known
    obtain ⟨a, rfl⟩ := length_eq_one_iff.1 length
    cases t <;> first
    | exact absurd narrow (by decide)
    | exact unary_result rfl (.inl rfl) (one rfl) (fun _ => rfl) s
  case h_21 =>
    cases known
    obtain ⟨a, rfl⟩ := length_eq_one_iff.1 length
    exact unary_result rfl (.inl rfl) (one rfl) (fun _ => rfl) s
  case h_28 => cases known
  all_goals
    cases known
    obtain ⟨a, b, rfl⟩ := length_eq_two.1 length
    obtain ⟨holdsA, holdsB⟩ := both rfl
    first
    | exact binary_result rfl (.inr rfl) (.inr rfl) holdsA holdsB (fun _ => rfl) s
    | exact binary_result rfl (.inr rfl) (.inl rfl) holdsA holdsB (fun _ => rfl) s
    | exact binary_result rfl (.inl rfl) (.inl rfl) holdsA holdsB (fun _ => rfl) s

/-- An operation of the table leaves a doomed run alone. -/
theorem machine_clear (d : Name) (known : machine op k = some ks) (holds : ∀ a ∈ args, Holds env a) :
    aheadTransparent (.let_ d k op args) = true ∧ aheadInst (.let_ d k op args) = none := by
  have noGlobal {free : Value → Bool} (tmp : ∀ n, free (.tmp n) = true) (const : ∀ c, free (.const c) = true) : args.all free = true := by
    refine all_eq_true.2 fun a mem => ?_
    have held := holds a mem
    cases a with
    | tmp n => exact tmp n
    | const c => exact const c
    | global _ => exact absurd held id
  unfold machine at known
  split at known
  case h_21 => exact ⟨(Bool.and_true _).trans (noGlobal (fun _ => rfl) fun _ => rfl), rfl⟩
  all_goals first
  | exact ⟨rfl, rfl⟩
  | cases known

theorem word_put {w : Word} (other : v ≠ .tmp d) : word (env.put d w) v = word env v := by
  cases v with
  | tmp n =>
    have same : (env.put d w).vals n = env.vals n := if_neg fun eq => other (congrArg Value.tmp eq)
    simp only [word, same]
  | const _ | global _ => rfl

theorem word_new {x : Int} : word (env.put d (.int x)) (.tmp d) = x := by
  have there : (env.put d (.int x)).vals d = some (.int x) := if_pos rfl
  simp only [word, there]

theorem holds_put {x : Int} (holds : Holds env v) : Holds (env.put d (.int x)) v := by
  cases v with
  | tmp n =>
    by_cases same : n = d
    · exact ⟨x, if_pos same⟩
    · obtain ⟨y, is⟩ := holds
      exact ⟨y, (if_neg same).trans is⟩
  | const _ => trivial
  | global _ => exact holds

end

/-! ### Straight code -/

/-- What an instruction may read: a constant, an input, or what one before it defines. -/
def Avail (inputs : List Value) (is : List Inst) (v : Value) : Prop :=
  (∃ n, v = .const n) ∨ v ∈ inputs ∨ ∃ d k op args, v = .tmp d ∧ Inst.let_ d k op args ∈ is

/-- Instructions emitted from one state to another, each an operation of the table on what it may read. -/
inductive Straight (inputs : List Value) (s : Switching.Emit) : List Inst → Switching.Emit → Prop
  | nil : Straight inputs s [] s
  | snoc {is : List Inst} {s1 : Switching.Emit} {k : Cls} {op : Op} {args : List Value} {ks : List Cls} (first : Straight inputs s is s1)
      (known : machine op k = some ks) (length : args.length = ks.length) (reads : ∀ a ∈ args, Avail inputs is a) :
      Straight inputs s (is ++ [.let_ (tempName s1.n) k op args]) (s1.let_ k op args).2

/-- Every instruction holds as an equation. -/
def Solves (env : Env) (is : List Inst) : Prop :=
  ∀ d k op args, Inst.let_ d k op args ∈ is → word env (.tmp d) = compute op k (args.map (word env))

/-- No temporary of the state's numbers from `n` on. -/
def Old (n : Nat) (v : Value) : Prop := ∀ j, n ≤ j → v ≠ .tmp (tempName j)

section
variable {inputs : List Value} {s s1 : Switching.Emit} {is js : List Inst} {v : Value} {env env1 : Env} {c : Nanofil.Ctx} {n m : Nat}

theorem tempName_inj (eq : tempName n = tempName m) : n = m := by
  have digits : Nat.toDigits 10 n = Nat.toDigits 10 m := by
    have chars := congrArg String.toList eq
    rw [tempName, tempName, String.toList_append, String.toList_append, Nat.toList_repr, Nat.toList_repr] at chars
    exact append_cancel_left chars
  have number := congrArg (fun ds => Nat.ofDigitChars 10 ds 0) digits
  rwa [Nat.ofDigitChars_ten_toDigits, Nat.ofDigitChars_ten_toDigits] at number

theorem let_n {k : Cls} {op : Op} {args : List Value} : s.n + 1 ≤ (s.let_ k op args).2.n := by
  show s.n + 1 ≤ (Switching.Emit.ensureLive { s with n := s.n + 1 }).n
  unfold Switching.Emit.ensureLive
  split
  · exact Nat.le_refl _
  · exact Nat.le_succ _

theorem let_insts {k : Cls} {op : Op} {args : List Value} :
    (s.let_ k op args).2.insts = .let_ (tempName s.n) k op args :: s.insts := by
  show _ :: (Switching.Emit.ensureLive { s with n := s.n + 1 }).insts = _
  unfold Switching.Emit.ensureLive
  split <;> rfl

theorem Avail.append (avail : Avail inputs is v) (js : List Inst) : Avail inputs (is ++ js) v := by
  rcases avail with const | input | ⟨d, k, op, args, eq, mem⟩
  · exact .inl const
  · exact .inr (.inl input)
  · exact .inr (.inr ⟨d, k, op, args, eq, mem_append_left js mem⟩)

theorem Solves.prefix (solves : Solves env (is ++ js)) : Solves env is :=
  fun d k op args mem => solves d k op args (mem_append_left js mem)

theorem Straight.le_n (straight : Straight inputs s is s1) : s.n ≤ s1.n := by
  induction straight with
  | nil => exact Nat.le_refl _
  | snoc _ _ _ _ ih => exact Nat.le_trans ih (Nat.le_of_succ_le let_n)

theorem Straight.insts (straight : Straight inputs s is s1) : s1.insts = is.reverse ++ s.insts := by
  induction straight with
  | nil => rfl
  | snoc _ _ _ _ ih =>
    rw [let_insts, ih, reverse_append]
    rfl

theorem Straight.blocks (straight : Straight inputs s is s1) : s1.blocks = s.blocks ∧ s1.cases = s.cases := by
  induction straight with
  | nil => exact ⟨rfl, rfl⟩
  | @snoc is s1 k op args _ _ _ _ _ ih =>
    have kept : (s1.let_ k op args).2.blocks = s1.blocks ∧ (s1.let_ k op args).2.cases = s1.cases := by
      show (Switching.Emit.ensureLive { s1 with n := s1.n + 1 }).blocks = _ ∧
        (Switching.Emit.ensureLive { s1 with n := s1.n + 1 }).cases = _
      unfold Switching.Emit.ensureLive
      split <;> exact ⟨rfl, rfl⟩
    exact ⟨kept.1.trans ih.1, kept.2.trans ih.2⟩

theorem Avail.old (fresh : ∀ v ∈ inputs, Old s.n v) (le : s.n ≤ n)
    (defined : ∀ d k op args, Inst.let_ d k op args ∈ is → Old n (.tmp d)) (avail : Avail inputs is v) : Old n v := by
  rcases avail with ⟨x, rfl⟩ | input | ⟨d, k, op, args, rfl, mem⟩
  · exact fun j _ eq => by cases eq
  · exact fun j h => fresh v input j (Nat.le_trans le h)
  · exact defined d k op args mem

/-- The names in straight code are older than the state after it. -/
theorem Straight.old (straight : Straight inputs s is s1) (fresh : ∀ v ∈ inputs, Old s.n v) :
    ∀ d k op args, Inst.let_ d k op args ∈ is → Old s1.n (.tmp d) ∧ ∀ a ∈ args, Old s1.n a := by
  induction straight with
  | nil => exact fun _ _ _ _ mem => by cases mem
  | @snoc is s1 k op args ks first known length reads ih =>
    have later {v : Value} (old : Old s1.n v) : Old (s1.let_ k op args).2.n v :=
      fun j h => old j (Nat.le_trans (Nat.le_of_succ_le let_n) h)
    intro d k' op' args' mem
    rcases mem_append.1 mem with before | last
    · obtain ⟨name, names⟩ := ih d k' op' args' before
      exact ⟨later name, fun a mem => later (names a mem)⟩
    · cases mem_singleton.1 last
      refine ⟨fun j h eq => ?_, fun a mem => later ((reads a mem).old fresh first.le_n fun d k op args mem => (ih d k op args mem).1)⟩
      have := tempName_inj (Value.tmp.inj eq)
      have := Nat.le_trans let_n h
      omega

/-! ### Running it -/

theorem instsResult_append (call : Call) (prep : Prep) (is js : List Inst) (env : Env) (s : St) :
    instsResult call prep (is ++ js) env s = (instsResult call prep is env s >>= fun r =>
      match r with
      | .cont env' s' => instsResult call prep js env' s'
      | .stop out s' => .ok (.stop out s')) := by
  induction is generalizing env s with
  | nil => rfl
  | cons i is ih =>
    rw [cons_append, instsResult, instsResult]
    split
    · rfl
    · simp only [bind_assoc]
      congr 1
      funext r0
      congr 1
      funext r
      cases r with
      | cont env' s' => exact ih env' s'
      | stop out s' => rfl

theorem computes_append {env2 : Env} (first : Computes c is env env1) (second : Computes c js env1 env2) :
    Computes c (is ++ js) env env2 := by
  intro call s
  rw [instsResult_append, first call s]
  exact second call s

theorem kept_trans {env2 : Env} (first : Kept n env env1) (second : Kept m env1 env2) (le : n ≤ m) : Kept n env env2 :=
  ⟨fun x other => (second.vals x fun j h => other j (Nat.le_trans le h)).trans (first.vals x other),
    second.doomed.trans first.doomed, second.snapshot.trans first.snapshot⟩

/-- Straight code runs, and then all its equations hold. -/
theorem Straight.run (straight : Straight inputs s is s1) (fresh : ∀ v ∈ inputs, Old s.n v) (ints : ∀ v ∈ inputs, Holds env v) :
    ∃ env1, Computes c is env env1 ∧ Solves env1 is ∧ Kept s.n env env1 ∧ ∀ v, Avail inputs is v → Holds env1 v := by
  induction straight with
  | nil =>
    refine ⟨env, .nil, fun _ _ _ _ mem => (by cases mem), .refl, fun v avail => ?_⟩
    rcases avail with ⟨x, rfl⟩ | input | ⟨d, k, op, args, rfl, mem⟩
    · trivial
    · exact ints v input
    · cases mem
  | @snoc is s1 k op args ks first known length reads ih =>
    obtain ⟨env1, ran, solves, kept, holds⟩ := ih
    have argsHold : ∀ a ∈ args, Holds env1 a := fun a mem => holds a (reads a mem)
    obtain ⟨clear, no_ahead⟩ := machine_clear (tempName s1.n) known argsHold
    let env2 := env1.put (tempName s1.n) (.int (compute op k (args.map (word env1))))
    have last : Computes c [.let_ (tempName s1.n) k op args] env1 env2 :=
      .cons clear no_ahead (machine_result known length argsHold) .nil
    have old := first.old fresh
    have same {v : Value} (old : Old s1.n v) : word env2 v = word env1 v := word_put (old s1.n (Nat.le_refl _))
    have sameArgs {args : List Value} (old : ∀ a ∈ args, Old s1.n a) : args.map (word env2) = args.map (word env1) :=
      map_congr_left fun a mem => same (old a mem)
    refine ⟨env2, computes_append ran last, fun d k' op' args' mem => ?_, kept_trans kept (.put .refl (Nat.le_refl _)) first.le_n, fun v avail => ?_⟩
    · rcases mem_append.1 mem with before | this
      · obtain ⟨name, names⟩ := old d k' op' args' before
        rw [same name, sameArgs names]
        exact solves d k' op' args' before
      · cases mem_singleton.1 this
        rw [sameArgs fun a mem => (reads a mem).old fresh first.le_n fun d k op args mem => (old d k op args mem).1]
        exact word_new
    · rcases avail with const | input | ⟨d, k', op', args', rfl, mem⟩
      · exact holds_put (holds v (.inl const))
      · exact holds_put (holds v (.inr (.inl input)))
      · rcases mem_append.1 mem with before | this
        · exact holds_put (holds _ (.inr (.inr ⟨d, k', op', args', rfl, before⟩)))
        · cases mem_singleton.1 this
          exact ⟨_, if_pos rfl⟩

end

end Nanofil.Arithmetic
