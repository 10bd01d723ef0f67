import Mathlib.Logic.Relation
import Nanofil.Images

/-! The configurations that a run goes through: a call about to begin, a block about to be
entered, or a block with instructions to go. Each is in order. -/
namespace Nanofil
open List Results

inductive Config
  | calls (n : Nat) (f : Func) (xs : List Word) (s : St)
  | enters (n : Nat) (f : Func) (l : Name) (pred : Option Name) (env : Env) (s : St)
  | stands (n : Nat) (f : Func) (b : Block) (k : Nat) (env : Env) (s : St)

def Config.st : Config → St
  | .calls _ _ _ s | .enters _ _ _ _ _ s | .stands _ _ _ _ _ s => s

/-- A computation's result is that of one call, whatever calls do. -/
def CallsTo {α : Type} (s : St) (x : Call → Except RunError α) (g : Func) (xs : List Word) : Prop :=
  ∃ after, ∀ call : Call, x call = call g xs s >>= after

def Makes (prep : Prep) (i : Inst) (env : Env) (s : St) (g : Func) (xs : List Word) : Prop :=
  CallsTo s (fun call => instsResult call prep [i] env s) g xs

/-- A block's outcome is that of the block it goes to, whatever blocks do. -/
def Goes (prep : Prep) (f : Func) (b : Block) (env : Env) (s : St) (l : Name) : Prop :=
  ∀ enter : Enter, resultOutcome enter ⟨prep, f⟩ (.cont env s) b.jump b.label = enter l (some b.label) env s

inductive Step (prep : Prep) : Config → Config → Prop
  | entry {n : Nat} {f : Func} {xs : List Word} {s : St} {env env' : Env} {entry : Block} {mem : Mem} :
      paramsEnv f.params xs emptyEnv = .ok env → f.blocks.head? = some entry →
      entrySnapshot f xs env s.mem = .ok (some (env', mem)) →
      Step prep (.calls n f xs s) (.enters n f entry.label none env' { mem := mem, fuel := s.fuel, locals := freshLocals f })
  | phis {n : Nat} {f : Func} {l : Name} {pred : Option Name} {env env' : Env} {s : St} {b : Block} :
      s.fuel ≠ 0 → f.block? l = some b → phisEnv prep pred env b.phis env = .ok env' →
      Step prep (.enters (n + 1) f l pred env s) (.stands n f b 0 env' { s with fuel := s.fuel - 1 })
  | inst {n : Nat} {f : Func} {b : Block} {k : Nat} {i : Inst} {env env' : Env} {s s' : St} :
      b.insts[k]? = some i → instsResult (callOutcome (blockOutcome n) prep) prep [i] env s = .ok (.cont env' s') →
      Step prep (.stands n f b k env s) (.stands n f b (k + 1) env' s')
  | call {n : Nat} {f : Func} {b : Block} {k : Nat} {i : Inst} {env : Env} {s : St} {g : Func} {xs : List Word} :
      b.insts[k]? = some i → Makes prep i env s g xs → Step prep (.stands n f b k env s) (.calls n g xs s)
  | edge {n : Nat} {f : Func} {b : Block} {env : Env} {s : St} {l : Name} :
      Goes prep f b env s l →
      Step prep (.stands n f b b.insts.length env s) (.enters n f l (some b.label) env s)

abbrev RunsTo (prep : Prep) : Config → Config → Prop := Relation.ReflTransGen (Step prep)

/-! ### No call or edge is missed -/

variable {g f : Func} {i : Inst} {xs : List Word}

section
variable {prep : Prep} {env : Env} {s : St}

theorem CallsTo.bind {α β : Type} {x : Call → Except RunError α} (calls : CallsTo s x g xs)
    (rest : α → Except RunError β) : CallsTo s (fun call => x call >>= rest) g xs := by
  obtain ⟨after, same⟩ := calls
  exact ⟨fun r => after r >>= rest, fun call => (congrArg (· >>= rest) (same call)).trans (bind_assoc _ _ _)⟩

theorem makes_of_inst (running : env.doomed = none)
    (calls : CallsTo s (fun call => instResult call prep i env s) g xs) : Makes prep i env s g xs := by
  simp only [Makes, instsResult, running]
  exact calls.bind _

end

/-! ### Order -/

/-- What every configuration of a run has in order. -/
def Config.Ok (m : Module) (prep : Prep) : Config → Prop
  | .calls n f xs s =>
    f ∈ m.funcs ∧ ArgsOk prep s.mem f.params xs ∧ MemOk prep s.mem ∧ GlobalsOk m prep s.mem ∧ s.fuel < n
  | .enters n f l pred env s =>
    f ∈ m.funcs ∧ ∃ low, ∃ b ∈ f.blocks, b.label = l ∧ Arriving m prep f low b pred env s ∧ s.fuel < n
  | .stands n f b k env s => f ∈ m.funcs ∧ b ∈ f.blocks ∧ ∃ low, InOrder m prep f low b k env s ∧ s.fuel < n

variable {c : Config}

section
variable {m : Module} {prep : Prep} (prepared : Prepared m prep) (fits : callsFit m = true)
include prepared fits

variable {b : Block}

/-- One instruction of a block in order, given what its calls do. -/
theorem single_ends (mem_f : f ∈ m.funcs) (mem_b : b ∈ f.blocks) {k : Nat}
    (at_ : b.insts[k]? = some i) {low : Int} {env : Env} {s : St} (here : InOrder m prep f low b k env s) {n : Nat}
    {call : Call} (calls : CallsOk m prep n call) (fuel : s.fuel < n) :
    Ends Gap (fun r => ∀ env' s', r = .cont env' s' → InOrder m prep f low b (k + 1) env' s' ∧ s'.fuel < n)
      (instsResult call prep [i] env s) := by
  have valid := prepared.func mem_f
  have limits := valid.limitsRead mem_f
  have accepted := valid.inst mem_b at_
  have fit := all_eq_true.1 (all_eq_true.1 fits f mem_f) i
    (mem_flatMap.2 ⟨b, mem_b, mem_of_getElem? at_⟩)
  unfold instsResult
  split
  · exact Ends.ok fun env' s' h => by cases h
  · refine (inst_ends prepared mem_f limits mem_b at_ here calls fuel accepted fit).bind fun r0 ran =>
      (doomed_ends valid limits mem_b at_ here accepted ran).bind fun r ran => ?_
    cases r with
    | stop out s' => exact Ends.pure fun env' s' h => by cases h
    | cont env' s' =>
      refine Ends.ok fun env'' s'' h => ?_
      cases h
      exact ⟨here.next valid mem_b at_ ran, lt_of_le_of_lt ran.1.fuel fuel⟩

open Classical in
/-- A call that is stuck unless it is made as it should be: no instruction in order makes it stick. -/
noncomputable def probeCall (m : Module) (prep : Prep) : Call := fun f xs s =>
  if f ∈ m.funcs ∧ ArgsOk prep s.mem f.params xs ∧ MemOk prep s.mem ∧ GlobalsOk m prep s.mem then .ok (.outOfFuel, s)
  else .error .noRule

omit prepared fits in
theorem probeCall_ok (m : Module) (prep : Prep) (n : Nat) : CallsOk m prep n (probeCall m prep) := by
  intro f mem_f xs s args ok globals _
  unfold probeCall
  rw [if_pos ⟨mem_f, args, ok, globals⟩]
  exact Ends.ok ⟨trivial, .same ok, rfl⟩

theorem Makes.ok (mem_f : f ∈ m.funcs) (mem_b : b ∈ f.blocks) {k : Nat}
    (at_ : b.insts[k]? = some i) {low : Int} {env : Env} {s : St} (here : InOrder m prep f low b k env s) (makes : Makes prep i env s g xs) :
    g ∈ m.funcs ∧ ArgsOk prep s.mem g.params xs ∧ MemOk prep s.mem ∧ GlobalsOk m prep s.mem := by
  obtain ⟨after, same⟩ := makes
  have ends := single_ends prepared fits mem_f mem_b at_ here (probeCall_ok m prep (s.fuel + 1)) (Nat.lt_succ_self _)
  by_contra wrong
  have stuck : instsResult (probeCall m prep) prep [i] env s = _ := same (probeCall m prep)
  rw [stuck, probeCall, if_neg wrong] at ends
  rcases ends with h | ⟨_, h⟩ <;> cases h

open Classical in
/-- A block that is stuck unless it is entered in order. -/
noncomputable def probeEnter (m : Module) (prep : Prep) (f : Func) (low : Int) : Enter := fun l pred env s =>
  if ∃ b ∈ f.blocks, b.label = l ∧ Arriving m prep f low b pred env s then .ok (.outOfFuel, s) else .error .noRule

omit fits in
theorem Goes.ok (mem_f : f ∈ m.funcs) (mem_b : b ∈ f.blocks) {low : Int} {env : Env} {s : St}
    (here : InOrder m prep f low b b.insts.length env s) {l : Name} (goes : Goes prep f b env s l) :
    ∃ b' ∈ f.blocks, b'.label = l ∧ Arriving m prep f low b' (some b.label) env s := by
  have valid := prepared.func mem_f
  have ends : Ends Gap (BlockOk prep f low s)
      (resultOutcome (probeEnter m prep f low) ⟨prep, f⟩ (.cont env s) b.jump b.label) := exit_ends valid (valid.limitsRead mem_f) mem_b here
    fun b' mem_b' arriving => by
      unfold probeEnter
      rw [if_pos ⟨b', mem_b', rfl, arriving⟩]
      exact Ends.ok ⟨trivial, .same here.mem, here.frame⟩
  by_contra wrong
  rw [goes, probeEnter, if_neg wrong] at ends
  rcases ends with h | ⟨_, h⟩ <;> cases h

theorem Step.ok {c' : Config} (step : Step prep c c') (ok : c.Ok m prep) : c'.Ok m prep := by
  cases step with
  | entry params head taken =>
    obtain ⟨mem_f, args, mem_ok, globals, fuel⟩ := ok
    obtain ⟨typed, assigned⟩ := (args_ends prepared mem_f args).result params
    have entered := (entrySnapshot_ends prepared mem_f mem_ok args.loose _).result taken _ rfl
    exact ⟨mem_f, _, _, mem_of_head? head, rfl, entry_arriving prepared mem_f head globals typed assigned entered, fuel⟩
  | phis running found bound =>
    obtain ⟨mem_f, low, b, mem_b, rfl, arriving, fuel⟩ := ok
    have valid := prepared.func mem_f
    rw [Func.block?, find_label valid.labels mem_b] at found
    cases found
    have defines := (phisEnv_ends valid (valid.limitsRead mem_f) mem_b arriving fun ph h => h).result bound
    exact ⟨mem_f, mem_b, low, Arriving.phis valid mem_b (arriving.fuel _) defines, by dsimp only; omega⟩
  | inst at_ ran =>
    obtain ⟨mem_f, mem_b, low, here, fuel⟩ := ok
    have next := (single_ends prepared fits mem_f mem_b at_ here (calls_ends prepared fits _) fuel).result ran _ _ rfl
    exact ⟨mem_f, mem_b, low, next⟩
  | call at_ makes =>
    obtain ⟨mem_f, mem_b, low, here, fuel⟩ := ok
    obtain ⟨mem_g, args, mem_ok, globals⟩ := makes.ok prepared fits mem_f mem_b at_ here
    exact ⟨mem_g, args, mem_ok, globals, fuel⟩
  | edge goes =>
    obtain ⟨mem_f, mem_b, low, here, fuel⟩ := ok
    obtain ⟨b', mem_b', label, arriving⟩ := goes.ok prepared mem_f mem_b here
    exact ⟨mem_f, low, b', mem_b', label, arriving, fuel⟩

/-- Every configuration that a run reaches is in order. -/
theorem RunsTo.ok {c' : Config} (runs : RunsTo prep c c') (ok : c.Ok m prep) : c'.Ok m prep := by
  induction runs with
  | refl => exact ok
  | tail _ step ih => exact step.ok prepared fits ih

end

/-! ### Ranges -/

/-- The integers in the temporaries of a word or long: a word parameter holds what its caller passed,
a long what addresses there are. -/
def EnvInRange (prep : Prep) (f : Func) (env : Env) (mem : Mem) : Prop :=
  ∀ n v, env.vals n = some (.int v) →
    (classOf f n = some .w → ¬wordParam f n → 0 ≤ v ∧ v < 2 ^ 32) ∧
    (classOf f n = some .l → 0 ≤ v ∧ (AddressesFit prep mem → v < 2 ^ 64))

def Config.InRange (prep : Prep) : Config → Prop
  | .calls _ _ _ _ => True
  | .enters _ f _ _ env s | .stands _ f _ _ env s => EnvInRange prep f env s.mem

theorem EnvTyped.inRange {prep : Prep} {mem : Mem} {env : Env} (typed : EnvTyped prep mem f env) : EnvInRange prep f env mem := by
  intro n v known
  cases typed n _ known with
  | wide word param =>
    refine ⟨fun _ narrow => absurd param narrow, fun long => ?_⟩
    rw [long] at word
    cases word
  | @held k _ class_ held =>
    rw [class_]
    refine ⟨fun word _ => ?_, fun long => ?_⟩
    · cases word
      obtain ⟨_, int, low, high⟩ := held
      cases int
      exact ⟨low, high fun h => by cases h⟩
    · cases long
      obtain ⟨_, int, low, high⟩ := held
      cases int
      exact ⟨low, fun fit => high fun _ => fit⟩

theorem Config.Ok.inRange {m : Module} {prep : Prep} (ok : c.Ok m prep) : c.InRange prep := by
  cases c with
  | calls => exact trivial
  | enters =>
    obtain ⟨_, _, _, _, _, arriving, _⟩ := ok
    exact arriving.typed.inRange
  | stands =>
    obtain ⟨_, _, _, here, _⟩ := ok
    exact here.typed.inRange

/-! ### Runs -/

/-- Arguments that a caller may pass: in range, a pointer for every `p`, and of capabilities that
the run has. -/
structure ArgsGiven (prep : Prep) (f : Func) (args : List Word) : Prop where
  fit : argsFit f args = true
  pointers : ∀ pa ∈ f.params.zip args, pa.1.cls = .p → ∃ a c, pa.2 = .ptr a c ∧ 0 ≤ a ∧ a < 2 ^ 64
  words : ∀ x ∈ args, Loose prep prep.mem x

theorem argsInRange_split {ps : List Param} : ∀ {xs : List Word}, argsInRange ps xs = true →
    ∃ ys zs, xs = ys ++ zs ∧ List.Forall₂ (fun p y => classArg p.cls y = true) ps ys := by
  induction ps with
  | nil => exact fun {xs} _ => ⟨[], xs, rfl, .nil⟩
  | cons p ps ih =>
    intro xs fits
    cases xs with
    | nil => cases fits
    | cons x xs =>
      simp only [argsInRange, Bool.and_eq_true] at fits
      obtain ⟨ys, zs, rfl, all⟩ := ih fits.2
      exact ⟨x :: ys, zs, rfl, .cons fits.1 all⟩

theorem classArg_ok {prep : Prep} {mem : Mem} {k : Cls} {x : Word} (fits : classArg k x = true)
    (pointer : k = .p → ∃ a c, x = .ptr a c ∧ 0 ≤ a ∧ a < 2 ^ 64) (loose : Loose prep mem x) : ArgOk prep mem k x := by
  by_cases isP : k = .p
  · obtain ⟨a, c, rfl, low, high⟩ := pointer isP
    subst isP
    rcases loose with ⟨n, h⟩ | ⟨_, _, h, cap⟩ <;> cases h
    exact WordOk.arg (.ptr cap ⟨low, fun _ => high⟩)
  · cases x with
    | int n =>
      have within : ∃ m, modulus k = some m ∧ 0 ≤ n ∧ n < m := by
        have fits : (modulus k).any (fun m => 0 ≤ n ∧ n < m) = true := by
          cases k <;> first | exact absurd rfl isP | exact fits | cases fits
        simpa only [Option.any_eq_true, decide_eq_true_eq] using fits
      obtain ⟨m, known, low, high⟩ := within
      have numeric : numericClass k = true := by
        cases k <;> first | rfl | exact absurd rfl isP | cases known
      exact argOk_int numeric ⟨low, fun _ => modulus_width known ▸ high⟩
    | ptr => cases k <;> first | exact absurd rfl isP | cases fits
    | limit => cases k <;> first | exact absurd rfl isP | cases fits

theorem ArgsGiven.ok {prep : Prep} {args : List Word} (given : ArgsGiven prep f args) : ArgsOk prep prep.mem f.params args := by
  refine ⟨?_, given.words⟩
  have fit := given.fit
  simp only [argsFit, Bool.and_eq_true] at fit
  obtain ⟨ys, zs, rfl, all⟩ := argsInRange_split fit.1
  refine ⟨ys, zs, rfl, ?_⟩
  rw [forall₂_iff_zip] at all ⊢
  refine ⟨all.1, fun {p y} h => ?_⟩
  have inside : (p, y) ∈ f.params.zip (ys ++ zs) := by
    have split : (f.params ++ []).zip (ys ++ zs) = f.params.zip ys ++ [].zip zs := zip_append all.1
    rw [append_nil] at split
    rw [split]
    exact mem_append_left _ h
  exact classArg_ok (all.2 h) (given.pointers _ inside) (given.words _ (mem_append_left _ (of_mem_zip h).2))

end Nanofil
