import Nanofil.Instructions

/-! The words that calls pass: what a callee's parameters get, directly or through the
generic entry, and what its results become. -/
namespace Nanofil
open List Results

/-- A call through a pointer passes and reads no long double, and no tuple of one result. -/
def indirectFits (res : CallRes) (args : List Arg) : Bool :=
  args.all (fun a => a.cls ≠ .x) && (resultTemps res).all (fun r => r.2 ≠ .x) &&
    match res with
    | .tuple tos => 2 ≤ tos.length
    | _ => true

/-- A call of an alias fits the function it names. -/
def callFits (m : Module) : Inst → Bool
  | .call res (.global g) args =>
    (funcNamed m g).isSome || (preparedFuncs m g).all (fun f => callArgsOk f args && callResultOk res f.ret)
  | .call res _ args | .rawCall res _ args => indirectFits res args
  | _ => true

/-- A word parameter may get all the bits its caller passed; another gets a word of its class. -/
def ArgOk (prep : Prep) (mem : Mem) (k : Cls) (x : Word) : Prop := Held prep mem k x ∨ k = .w ∧ ∃ n, x = .int n

structure ArgsOk (prep : Prep) (mem : Mem) (params : List Param) (xs : List Word) : Prop where
  fits : ∃ ys zs, xs = ys ++ zs ∧ List.Forall₂ (fun p y => ArgOk prep mem p.cls y) params ys
  loose : ∀ x ∈ xs, Loose prep mem x

def OutcomeOk (prep : Prep) (mem : Mem) (ret : Ret) : Outcome → Prop
  | .ret x => ∃ k, ret = .cls k ∧ WordOk prep mem k x
  | .rets xs => ∃ ks, ret = .tuple ks ∧ WordsOk prep mem ks xs
  | .retVoid => ret = .void
  | _ => True

structure Returned (prep : Prep) (ret : Ret) (s : St) (r : Outcome × St) : Prop where
  outcome : OutcomeOk prep r.2.mem ret r.1
  left : Left prep s r.2
  locals : r.2.locals = s.locals

/-- Calls of accepted functions end as they may, with less fuel than `n`. -/
def CallsOk (m : Module) (prep : Prep) (n : Nat) (call : Call) : Prop :=
  ∀ f ∈ m.funcs, ∀ xs s, ArgsOk prep s.mem f.params xs → MemOk prep s.mem → GlobalsOk m prep s.mem → s.fuel < n →
    Ends Gap (Returned prep f.ret s) (call f xs s)

variable {args : List Arg} {f : Func} {res : CallRes} {xs : List Word}

section
variable {m : Module} {prep : Prep} {mem : Mem}

/-! ### Words of a class, passed -/

variable {x : Word} {j : Cls} {env : Env} {ys : List Word}

theorem WordOk.arg {k : Cls} (word : WordOk prep mem k x) : ArgOk prep mem k x := .inl word.held

theorem ArgOk.loose {k : Cls} (arg : ArgOk prep mem k x) : Loose prep mem x := by
  rcases arg with held | ⟨_, int⟩
  · unfold Held at held
    split at held
    · obtain ⟨n, int, _⟩ := held
      exact .inl ⟨n, int⟩
    · exact held.loose
  · exact .inl int

theorem ArgOk.cases {k : Cls} (arg : ArgOk prep mem k x) :
    (numericClass k = true ∧ ∃ n, x = .int n) ∨ numericClass k = false ∧ WordOk prep mem k x := by
  rcases arg with held | ⟨rfl, int⟩
  · unfold Held at held
    split at held
    · rename_i numeric
      obtain ⟨n, int, _⟩ := held
      exact .inl ⟨numeric, n, int⟩
    · rename_i other
      exact .inr ⟨by simpa using other, held⟩
  · exact .inl ⟨rfl, int⟩

theorem argOk_int {k : Cls} {n : Int} (numeric : numericClass k = true) (within : Within prep mem k n) :
    ArgOk prep mem k (.int n) :=
  (WordOk.int numeric within).arg

/-- What is passed at a class can be read at it. -/
theorem wordAtClass_arg {k : Cls} (arg : ArgOk prep mem k x) : Ends Gap (WordOk prep mem k) (wordAtClass k x) := by
  rcases arg.cases with ⟨numeric, n, rfl⟩ | ⟨other, word⟩
  · exact wordAtClass_numeric numeric n
  · rw [wordAtClass_same other]
    exact Ends.ok word

/-! ### The generic entry -/

theorem intWordAs_ends {k : Cls} {n : Int} (numeric : numericClass j = true) (within : Within prep mem j n)
    (any : anyClass k = true) (notX : j ≠ .x ∧ k ≠ .x) : Ends Gap (ArgOk prep mem k) (intWordAs k (.int n)) := by
  have fits : AddressesFit prep mem → n < 2 ^ 64 := fun fit => by
    have below := within.2 fun _ => fit
    have wide : (2 : Int) ^ classWidth j ≤ 2 ^ 64 := by
      cases j <;> first | exact absurd rfl notX.1 | norm_num [classWidth, classTable]
    omega
  cases k <;> try cases any
  · exact Ends.ok (.inr ⟨rfl, n, rfl⟩)
  · exact Ends.ok (argOk_int rfl ⟨within.1, fun fit => fits (fit (.inl rfl))⟩)
  · exact (wordAtClass_numeric rfl n).mono fun _ word => word.arg
  · exact (wordAtClass_numeric rfl n).mono fun _ word => word.arg
  · exact absurd rfl notX.2
  · exact Ends.ok (WordOk.arg (.ptr capOk_none ⟨within.1, fun fit => fits (fit (.inr rfl))⟩))

theorem genericWord_ends {k : Cls} (word : WordOk prep mem j x) (anyJ : anyClass j = true)
    (any : anyClass k = true) (notX : j ≠ .x ∧ k ≠ .x) : Ends Gap (ArgOk prep mem k) (genericWord j k x) := by
  by_cases pointer : j = .p
  · subst pointer
    obtain ⟨a, c, rfl, cap, within⟩ := word.toPtr
    by_cases same : k = .p
    · subst same
      exact Ends.ok word.arg
    · have int := intWordAs_ends (k := k) (j := .l) rfl
        (n := a) ⟨within.1, fun fit => within.2 fun _ => fit (.inl rfl)⟩ any ⟨by decide, notX.2⟩
      cases k <;> first | contradiction | exact int
  · have numeric : numericClass j = true := by
      cases j <;> first | rfl | exact absurd rfl pointer | cases anyJ
    obtain ⟨n, rfl, within⟩ := word.toInt numeric
    have step : genericWord j k (.int n) = intWordAs k (.int n) := by
      cases j <;> first | rfl | exact absurd rfl notX.1 | cases numeric
    rw [step]
    exact intWordAs_ends numeric within any notX

/-- A class whose words a call through a pointer may pass. -/
def Passes (k : Cls) : Prop := anyClass k = true ∧ k ≠ .x

theorem genericWords_ends {ks : List Cls} : ∀ {js : List Cls} {xs : List Word}, WordsOk prep mem js xs →
    (∀ j ∈ js, Passes j) → (∀ k ∈ ks, Passes k) → ks.length ≤ js.length →
    Ends Gap (List.Forall₂ (ArgOk prep mem) ks) (genericWords js ks xs) := by
  induction ks with
  | nil =>
    intro js xs _ _ _ _
    have step : genericWords js [] xs = .ok [] := by cases js <;> cases xs <;> rfl
    rw [step]
    exact Ends.ok .nil
  | cons k ks ih =>
    intro js xs words passJ passK length
    cases words with
    | nil => simp at length
    | @cons j x js xs head tail =>
      have j_ok := passJ j mem_cons_self
      have k_ok := passK k mem_cons_self
      exact (genericWord_ends head j_ok.1 k_ok.1 ⟨j_ok.2, k_ok.2⟩).bind fun y arg =>
        (ih tail (fun j h => passJ j (mem_cons_of_mem _ h)) (fun k h => passK k (mem_cons_of_mem _ h))
          (by simpa using length)).bind fun ys args => Ends.pure (.cons arg args)

/-! ### Results -/

/-- An outcome that a call can read: its words at the classes of its temporaries. -/
def ReadOk (prep : Prep) (mem : Mem) (res : CallRes) (out : Outcome) : Prop :=
  match out, res with
  | .ret x, .result _ k => ArgOk prep mem k x
  | .rets xs, .tuple tos => List.Forall₂ (fun t x => ArgOk prep mem t.2 x) tos xs
  | .ret _, .tuple _ | .rets _, .result _ _ | .retVoid, .result _ _ | .retVoid, .tuple _ => False
  | _, _ => True

theorem Outcome.Stops.read {res : CallRes} {out : Outcome} (stops : out.Stops) : ReadOk prep mem res out := by
  cases out <;> first | exact stops.elim | (cases res <;> exact trivial)

theorem Defines.trans {ds ds' : List Name} {env' env'' : Env} (first : Defines prep mem f ds env env')
    (second : Defines prep mem f ds' env' env'') : Defines prep mem f (ds ++ ds') env env'' := by
  refine ⟨fun n other => ?_, fun n h => ?_, second.snapshot.trans first.snapshot⟩
  · simp only [mem_append, not_or] at other
    exact (second.old n other.2).trans (first.old n other.1)
  · by_cases later : n ∈ ds'
    · exact second.new n later
    · obtain ⟨x, known, slot⟩ := first.new n ((mem_append.1 h).resolve_right later)
      exact ⟨x, (second.old n later).trans known, slot⟩

theorem toWordEnv_ends {d : Name} {k : Cls} (defined : classOf f d = some k)
    (arg : ArgOk prep mem k x) : Ends Gap (Defines prep mem f [d] env) (toWordEnv d k x env) :=
  (wordAtClass_arg arg).bind fun _ word => Ends.pure (.put (.held defined word.held))

theorem retsEnv_ends {tos : List (Name × Cls)} : ∀ {xs : List Word} {env : Env},
    (∀ t ∈ tos, classOf f t.1 = some t.2) → List.Forall₂ (fun t x => ArgOk prep mem t.2 x) tos xs →
    Ends Gap (Defines prep mem f (tos.map (·.1)) env) (retsEnv tos xs env) := by
  induction tos with
  | nil =>
    intro xs env _ args
    cases args
    exact Ends.ok (.none mem)
  | cons t tos ih =>
    intro xs env defined args
    cases args with
    | cons head tail =>
      exact (toWordEnv_ends (defined t mem_cons_self) head).bind fun env' first =>
        (ih (fun t h => defined t (mem_cons_of_mem _ h)) tail).mono fun env'' rest => first.trans rest

/-- What a call becomes past its callee: the caller goes on with what it reads, or stops. -/
theorem callOutcomeResult_ends {i : Inst} {out : Outcome} {s s' : St}
    (left : Left prep s s') (locals : s'.locals = s.locals) (notAlloc : ∀ n size, i ≠ .localAlloc n size)
    (defs : instDefs i = (resultTemps res).map (·.1)) (defined : ∀ t ∈ resultTemps res, classOf f t.1 = some t.2)
    (readOk : ReadOk prep s'.mem res out) : Ends Gap (InstOk prep f i env s) (callOutcomeResult out res env s') := by
  have goesOn : ∀ {env'}, Defines prep s'.mem f ((resultTemps res).map (·.1)) env env' →
      InstOk prep f i env s (.cont env' s') := fun defines => ⟨left, .same notAlloc locals, defs ▸ defines⟩
  cases out with
  | ret x =>
    cases res with
    | void => exact Ends.ok (goesOn (.none _))
    | tuple tos => exact readOk.elim
    | result d k =>
      exact (toWordEnv_ends (defined (d, k) mem_cons_self) readOk).bind fun env' defines => Ends.pure (goesOn defines)
  | rets xs =>
    cases res with
    | void => exact Ends.ok (goesOn (.none _))
    | result d k => exact readOk.elim
    | tuple tos => exact (retsEnv_ends defined readOk).bind fun env' defines => Ends.pure (goesOn defines)
  | retVoid =>
    cases res with
    | void => exact Ends.ok (goesOn (.none _))
    | result d k => exact readOk.elim
    | tuple tos => exact readOk.elim
  | unreachable | ub | trap | unchecked | outOfFuel | unknown => exact Ends.ok ⟨left, locals, trivial⟩

theorem classResult_arg {r k : Cls} (typed : classResultOk r k = true) (anyR : anyClass r = true) (any : anyClass k = true)
    (word : WordOk prep mem r x) : ArgOk prep mem k x := by
  by_cases same : r = k
  · exact same ▸ word.arg
  · have ints : r = .l ∧ k = .w := by
      cases r <;> cases k <;> first | contradiction | exact ⟨rfl, rfl⟩
    obtain ⟨n, rfl, _⟩ := word.toInt (by rw [ints.1]; rfl)
    exact .inr ⟨ints.2, n, rfl⟩

/-- A direct call's results are read as the callee's declaration says. -/
theorem OutcomeOk.direct {ret : Ret} {out : Outcome} (ok : OutcomeOk prep mem ret out)
    (result : callResultOk res ret = true) (any : ∀ r ∈ resultTemps res, anyClass r.2 = true) :
    ReadOk prep mem res out := by
  cases out with
  | ret x =>
    obtain ⟨r, rfl, word⟩ := ok
    cases res with
    | void => exact trivial
    | tuple tos => simp [callResultOk] at result
    | result d k =>
      simp only [callResultOk, Bool.and_eq_true] at result
      exact classResult_arg result.2 result.1 (any (d, k) mem_cons_self) word
  | rets xs =>
    obtain ⟨ks, rfl, words⟩ := ok
    cases res with
    | void => exact trivial
    | result d k => cases result
    | tuple tos =>
      have same : ks = tos.map (·.2) := by simpa [callResultOk] using result
      subst same
      exact (forall₂_map_left_iff.1 words).imp fun t x word => word.arg
  | retVoid =>
    cases ok
    cases res with
    | void => exact trivial
    | result d k => cases result
    | tuple tos => simp [callResultOk] at result
  | unreachable | ub | trap | unchecked | outOfFuel | unknown => cases res <;> exact trivial

/-! ### Arguments -/

abbrev ArgWords (prep : Prep) (mem : Mem) (args : List Arg) (xs : List Word) : Prop :=
  List.Forall₂ (fun a x => WordOk prep mem a.cls x) args xs

theorem ArgWords.loose (words : ArgWords prep mem args xs) : ∀ x ∈ xs, Loose prep mem x := by
  induction words with
  | nil => exact fun x h => by cases h
  | cons head _ ih =>
    intro x h
    rcases mem_cons.1 h with rfl | h
    · exact head.loose
    · exact ih x h

theorem ArgWords.params {params : List Param} : ∀ {args : List Arg} {xs : List Word}, ArgWords prep mem args xs →
    params.map (·.cls) <+: args.map (·.cls) →
    ∃ ys zs, xs = ys ++ zs ∧ List.Forall₂ (fun p y => ArgOk prep mem p.cls y) params ys := by
  induction params with
  | nil => exact fun {args xs} _ _ => ⟨[], xs, rfl, .nil⟩
  | cons p params ih =>
    intro args xs words front
    cases words with
    | nil => simp at front
    | @cons a x args xs head tail =>
      simp only [map_cons, cons_prefix_cons] at front
      obtain ⟨ys, zs, rfl, typed⟩ := ih tail front.2
      exact ⟨x :: ys, zs, rfl, .cons (front.1 ▸ head.arg) typed⟩

theorem ArgWords.direct (words : ArgWords prep mem args xs) (fits : callArgsOk f args = true) : ArgsOk prep mem f.params xs := by
  have front : f.params.map (·.cls) <+: args.map (·.cls) := by
    simp only [callArgsOk, Bool.or_eq_true, decide_eq_true_eq, Bool.and_eq_true, isPrefixOf_iff_prefix] at fits
    rcases fits with same | ⟨_, front⟩
    · exact same ▸ prefix_refl _
    · exact front
  exact ⟨words.params front, words.loose⟩

theorem ArgWords.classes (words : ArgWords prep mem args xs) : WordsOk prep mem (args.map (·.cls)) xs :=
  forall₂_map_left_iff.2 words

theorem args_loose {ks : List Cls} (typed : List.Forall₂ (ArgOk prep mem) ks ys) : ∀ y ∈ ys, Loose prep mem y := by
  induction typed with
  | nil => exact fun y h => by cases h
  | cons head _ ih =>
    intro y h
    rcases mem_cons.1 h with rfl | h
    · exact head.loose
    · exact ih y h

/-- The generic entry gives a callee its parameters, and a variadic one the rest. -/
theorem indirectArgs (words : ArgWords prep mem args xs) (typed : List.Forall₂ (ArgOk prep mem) (f.params.map (·.cls)) ys) :
    ArgsOk prep mem f.params (if variadicFunc f then ys ++ xs.drop f.params.length else ys) := by
  have params : List.Forall₂ (fun p y => ArgOk prep mem p.cls y) f.params ys := forall₂_map_left_iff.1 typed
  have loose := args_loose typed
  split
  · refine ⟨⟨ys, _, rfl, params⟩, fun x h => ?_⟩
    rcases mem_append.1 h with h | h
    · exact loose x h
    · exact words.loose x (mem_of_mem_drop h)
  · exact ⟨⟨ys, [], by simp, params⟩, loose⟩

/-! ### Indirect results -/

theorem sameClass_arg {k : Cls} (same : wordClass k = wordClass j) (known : (wordClass k).isSome)
    (word : WordOk prep mem j x) : ArgOk prep mem k x := by
  by_cases equal : j = k
  · exact equal ▸ word.arg
  · have ints : (j = .w ∧ k = .l) ∨ j = .l ∧ k = .w := by
      cases j <;> cases k <;> first | contradiction | simp
    rcases ints with ⟨rfl, rfl⟩ | ⟨rfl, rfl⟩
    · obtain ⟨n, rfl, within⟩ := word.toInt rfl
      have fits := within.bits (by decide) (by decide)
      exact argOk_int rfl ⟨fits.1, fun _ => fits.2.trans (by decide)⟩
    · obtain ⟨n, rfl, _⟩ := word.toInt rfl
      exact .inr ⟨rfl, n, rfl⟩

theorem sameWords_args {caller : List Cls} : ∀ {callee : List Cls} {xs : List Word},
    sameWords caller callee = true → WordsOk prep mem callee xs → List.Forall₂ (ArgOk prep mem) caller xs := by
  induction caller with
  | nil =>
    intro callee xs same words
    cases callee with
    | nil =>
      cases words
      exact .nil
    | cons => simp [sameWords] at same
  | cons k caller ih =>
    intro callee xs same words
    cases words with
    | nil => simp [sameWords] at same
    | @cons j x callee xs head tail =>
      simp only [sameWords, map_cons, List.cons.injEq, all_cons, Bool.and_eq_true, decide_eq_true_eq] at same
      exact .cons (sameClass_arg same.1.1 same.2.1 head)
        (ih (by simp only [sameWords, same.1.2, same.2.2, decide_true, Bool.and_self]) tail)

theorem returnWords_ends (prep : Prep) (mem : Mem) {ret : Ret} (typed : tupleRet ret = true) (notX : ret ≠ .cls .x) :
    ∃ ks, returnWords ret = .ok ks ∧ (∀ k ∈ ks, Passes k) ∧ ∀ out, OutcomeOk prep mem ret out →
      (∃ xs, outcomeWords out = some xs ∧ out = wordsOutcome xs ∧ WordsOk prep mem ks xs) ∨
        outcomeWords out = none ∧ out.Stops := by
  cases ret with
  | void =>
    refine ⟨[], rfl, fun k h => (by cases h), fun out ok => ?_⟩
    cases out with
    | retVoid => exact .inl ⟨[], rfl, rfl, .nil⟩
    | ret x =>
      obtain ⟨k, h, _⟩ := ok
      cases h
    | rets xs =>
      obtain ⟨ks, h, _⟩ := ok
      cases h
    | unreachable | ub | trap | unchecked | outOfFuel | unknown => exact .inr ⟨rfl, trivial⟩
  | cls k =>
    have known : returnWords (.cls k) = .ok [k] := by
      cases k <;> first | rfl | contradiction
    refine ⟨[k], known, fun k' h => ?_, fun out ok => ?_⟩
    · rw [mem_singleton.1 h]
      exact ⟨typed, fun h => notX (h ▸ rfl)⟩
    cases out with
    | retVoid => cases ok
    | ret x =>
      obtain ⟨k', h, word⟩ := ok
      cases h
      exact .inl ⟨[x], rfl, rfl, .cons word .nil⟩
    | rets xs =>
      obtain ⟨ks, h, _⟩ := ok
      cases h
    | unreachable | ub | trap | unchecked | outOfFuel | unknown => exact .inr ⟨rfl, trivial⟩
  | tuple ks =>
    obtain ⟨k1, k2, rfl⟩ : ∃ k1 k2, ks = [k1, k2] := by
      unfold tupleRet at typed
      split at typed <;> simp_all
    refine ⟨[k1, k2], rfl, fun k h => ?_, fun out ok => ?_⟩
    · have passes : k = .l ∨ k = .p ∨ k = .s ∨ k = .d := by
        have both := all_eq_true.1 typed k h
        simpa [or_assoc] using both
      rcases passes with rfl | rfl | rfl | rfl <;> exact ⟨rfl, by decide⟩
    cases out with
    | retVoid => cases ok
    | ret x =>
      obtain ⟨k', h, word⟩ := ok
      cases h
    | rets xs =>
      obtain ⟨ks, h, words⟩ := ok
      cases h
      obtain ⟨x, y, rfl, _, _⟩ := WordsOk.two words
      exact .inl ⟨[x, y], rfl, rfl, words⟩
    | unreachable | ub | trap | unchecked | outOfFuel | unknown => exact .inr ⟨rfl, trivial⟩

theorem wordsOutcome_read (fits : indirectFits res args = true)
    (typed : List.Forall₂ (ArgOk prep mem) (resultWords res) ys) : ReadOk prep mem res (wordsOutcome ys) := by
  cases res with
  | void =>
    cases typed
    exact trivial
  | result d k =>
    obtain ⟨y, rfl, arg⟩ : ∃ y, ys = [y] ∧ ArgOk prep mem k y := by
      cases typed with
      | cons head tail =>
        cases tail
        exact ⟨_, rfl, head⟩
    exact arg
  | tuple tos =>
    simp only [indirectFits, Bool.and_eq_true, decide_eq_true_eq] at fits
    have args : List.Forall₂ (fun t y => ArgOk prep mem t.2 y) tos ys := forall₂_map_left_iff.1 typed
    have many := args.length_eq ▸ fits.2
    cases ys with
    | nil => simp at many
    | cons y ys =>
      cases ys with
      | nil => simp at many
      | cons y' ys => exact args

end

section
variable {m : Module} {prep : Prep} {mem : Mem}

theorem ValidFunc.paramClass {mode : Mode} {stage : Stage} (valid : ValidFunc m mode stage f) {p : Param}
    (mem_p : p ∈ f.params) : Passes p.cls := by
  have noX := valid.noX
  have proofs := valid.proofs
  simp only [usesX, Bool.or_eq_false_iff, any_eq_false, decide_eq_true_eq] at noX
  simp only [proofClassDefs, Bool.not_eq_true', Bool.or_eq_false_iff, any_eq_false] at proofs
  have x := noX.1.2 p mem_p
  have proof := proofs.1 p mem_p
  cases k : p.cls <;> rw [k] at x proof <;> first | exact ⟨rfl, x⟩ | exact absurd rfl proof

/-- The generic entry's words, or the trap of arguments or results that are too few. -/
theorem indirectCallConv_ends {mode : Mode} {stage : Stage} {fn : Func} (valid : ValidFunc m mode stage fn) (words : ArgWords prep mem args xs)
    (passesArgs : ∀ a ∈ args, Passes a.cls) :
    Ends Gap (fun fc => (∃ why, fc = ([], .trap why)) ∨ ∃ callee, returnWords fn.ret = .ok callee ∧
      (resultWords res).length ≤ callee.length ∧
      fc.2 = (if sameWords (resultWords res) callee then .same else .conv (resultWords res) callee) ∧
      List.Forall₂ (ArgOk prep mem) (fn.params.map (·.cls)) fc.1)
      (indirectCallConv fn.ret fn.params res args xs) := by
  have noX : fn.ret ≠ .cls .x := fun h => by
    have noX := valid.noX
    simp [usesX, h] at noX
  obtain ⟨callee, returned, _, _⟩ := returnWords_ends prep mem valid.ret noX
  unfold indirectCallConv
  refine (ends_ok (Q := fun ks => ks = callee) returned rfl).bind fun ks same => ?_
  subst same
  split
  · exact Ends.pure (.inl ⟨_, rfl⟩)
  split
  · exact Ends.pure (.inl ⟨_, rfl⟩)
  rename_i enough few
  have paramsPass : ∀ k ∈ fn.params.map (·.cls), Passes k := by
    intro k h
    obtain ⟨p, mem_p, rfl⟩ := mem_map.1 h
    exact valid.paramClass mem_p
  have argsPass : ∀ k ∈ args.map (·.cls), Passes k := by
    intro k h
    obtain ⟨a, mem_a, rfl⟩ := mem_map.1 h
    exact passesArgs a mem_a
  refine (genericWords_ends words.classes argsPass paramsPass (by simp; omega)).bind fun ys typed => Ends.pure (.inr ?_)
  exact ⟨ks, returned, by omega, rfl, typed⟩

end

end Nanofil
