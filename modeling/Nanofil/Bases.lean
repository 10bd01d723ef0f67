import Nanofil.Configs
import Nanofil.Runs

/-! Offset intervals and guard chains along whole runs: what a temporary with an interval
holds lies in it, and a pointer holds the capability of each base of its chain, at an
address that is the base's plus an offset of the interval. -/
namespace Nanofil
open List Option Results Residues

/-! ### What the environments of an invocation relate -/

/-- A pointer of `p` in one environment and of `b` in another are a chain's interval apart. -/
def Offset (prep : Prep) (env : Env) (p : Value) (env' : Env) (b : Value) (i : Int × Int) : Prop :=
  ∀ a c, valueX prep env .p p = .ok (.ptr a c) → ∃ a', valueX prep env' .p b = .ok (.ptr a' c) ∧ In addressModulus a (a' + i.1, a' + i.2)

/-- Each flight that is its temporary's one definition was made of a base that some
environment since the invocation's start holds. -/
def Flown (prep : Prep) (once : Once) (envs : List Env) : Prop :=
  ∀ env older, (env :: older) <:+ envs → ∀ x w, env.vals x = some w → ∀ b sign o, flightStep once (.tmp x) = some (b, sign, o) →
    ∃ env' older', (env' :: older') <:+ env :: older ∧ ∃ ax ab c, w = .ptr ax c ∧ valueX prep env' .p b = .ok (.ptr ab c) ∧
      In addressModulus ax (offsetBy (ab, ab) sign o)

variable {env env' : Env} {x d : Name} {args : List FlightArg} {op : Op} {r : Result} {s : St}

section
variable {prep : Prep} {once : Once}

theorem Flown.nil : Flown prep once [] := by
  intro env older cut
  cases suffix_nil.1 cut

/-- One more environment: its flights are new, or as they were. -/
theorem Flown.cons {envs : List Env} (flown : Flown prep once envs) {env : Env}
    (new : ∀ x w, env.vals x = some w → ∀ b sign o, flightStep once (.tmp x) = some (b, sign, o) →
      ∃ env' older', (env' :: older') <:+ env :: envs ∧ ∃ ax ab c, w = .ptr ax c ∧ valueX prep env' .p b = .ok (.ptr ab c) ∧
        In addressModulus ax (offsetBy (ab, ab) sign o)) :
    Flown prep once (env :: envs) := by
  intro env' older cut
  rcases suffix_cons_iff.1 cut with same | cut
  · cases same
    exact new
  · exact flown env' older cut

/-- A flight that an environment has from the one before it. -/
theorem Flown.kept {envs : List Env} (flown : Flown prep once (env :: envs)) (same : env'.vals x = env.vals x)
    {w : Word} (value : env'.vals x = some w) {b : Value} {sign : Sign} {o : Int × Int} (step : flightStep once (.tmp x) = some (b, sign, o)) :
    ∃ e older, (e :: older) <:+ env' :: env :: envs ∧ ∃ ax ab c, w = .ptr ax c ∧ valueX prep e .p b = .ok (.ptr ab c) ∧
      In addressModulus ax (offsetBy (ab, ab) sign o) := by
  obtain ⟨e, older, cut, related⟩ := flown env envs suffix_rfl x w (same ▸ value) b sign o step
  exact ⟨e, older, cut.trans (suffix_cons _ _), related⟩

/-- Each base of a chain was, in some environment so far, an offset of its interval away. -/
theorem Flown.chain {envs : List Env} (flown : Flown prep once envs) {k : Nat} : ∀ {p : Value} {i : Int × Int} {env : Env} {older : List Env}
    {ax : Int} {c : Cap} {b : Value} {j : Int × Int}, (env :: older) <:+ envs → (b, j) ∈ guardChainFrom once k p i →
    valueX prep env .p p = .ok (.ptr ax c) → ∃ env' ∈ env :: older, ∃ ab, valueX prep env' .p b = .ok (.ptr ab c) ∧
      ∀ t, i.1 ≤ t → t ≤ i.2 → In addressModulus (ax + t) (ab + j.1, ab + j.2) := by
  have here : ∀ {p : Value} {i : Int × Int} {env : Env} {older : List Env} {ax : Int} {c : Cap}, valueX prep env .p p = .ok (.ptr ax c) →
      ∃ env' ∈ env :: older, ∃ ab, valueX prep env' .p p = .ok (.ptr ab c) ∧
        ∀ t, i.1 ≤ t → t ≤ i.2 → In addressModulus (ax + t) (ab + i.1, ab + i.2) := by
    intro p i env older ax c value
    exact ⟨env, mem_cons_self, ax, value, fun t low high => .of_mem (by simpa using low) (by simpa using high)⟩
  induction k with
  | zero =>
    intro p i env older ax c b j cut inChain value
    simp only [guardChainFrom, mem_singleton, Prod.mk.injEq] at inChain
    obtain ⟨rfl, rfl⟩ := inChain
    exact here value
  | succ k ih =>
    intro p i env older ax c b j cut inChain value
    simp only [guardChainFrom] at inChain
    split at inChain
    · rename_i b' sign o step
      rcases mem_cons.1 inChain with head | later
      · cases head
        exact here value
      · obtain ⟨x, d, op, args, rfl, onceX⟩ := flightStep_inst step
        obtain ⟨env1, older1, cut1, ax1, ab1, c1, same, base, offset⟩ := flown env older cut x _ (valueX_pointer value) b' sign o step
        cases same
        obtain ⟨env2, mem2, ab, found, chain⟩ := ih (cut1.trans cut) later base
        refine ⟨env2, cut1.subset mem2, ab, found, fun t low high => ?_⟩
        obtain ⟨t', low', high', same⟩ := offsetBy_shift low high offset
        exact (chain t' low' high').congr same
    · simp only [mem_singleton, Prod.mk.injEq] at inChain
      obtain ⟨rfl, rfl⟩ := inChain
      exact here value

end

/-! ### One step -/

def Config.func : Config → Func
  | .calls _ f _ _ | .enters _ f _ _ _ _ | .stands _ f _ _ _ _ => f

def Config.env? : Config → Option Env
  | .calls _ _ _ _ => none
  | .enters _ _ _ _ env _ | .stands _ _ _ _ env _ => some env

def Func.once (f : Func) : Once := singleDefinitions f.params f.blocks

/-- The environments that an invocation leaves behind with a step; a call's are its own. -/
def Config.leaves (past : List Env) (c : Config) : Config → List Env
  | .calls _ _ _ _ => []
  | .enters _ _ _ _ _ _ | .stands _ _ _ _ _ _ => c.env?.toList ++ past

/-- A run to a configuration, with the environments its invocation has been in. -/
inductive Past (prep : Prep) (first : Config) : List Env → Config → Prop
  | start : Past prep first [] first
  | step {past : List Env} {c c' : Config} : Past prep first past c → Step prep c c' → Past prep first (c.leaves past c') c'

section
variable {prep : Prep} {f : Func}

/-- What holds of an invocation's environment, whatever the function. -/
structure Derived (prep : Prep) (f : Func) (past : List Env) (env : Env) : Prop where
  intervals : IntervalsHold f.once env
  flown : Flown prep f.once (env :: past)

theorem flightStep_once {once : Once} {b : Value} {sign : Sign} {o : Int × Int} (step : flightStep once (.tmp x) = some (b, sign, o)) :
    ∃ d op args, once x = some (.inst (.flight d op args (.lower b))) := by
  obtain ⟨x', d, op, args, same, onceX⟩ := flightStep_inst step
  cases same
  exact ⟨d, op, args, onceX⟩

/-- Names that no single instruction defines may change. -/
theorem Derived.keep {past : List Env} (derived : Derived prep f past env) {ds : List Name} (keeps : Keeps ds env env')
    (others : ∀ x ∈ ds, ∀ i, f.once x ≠ some (.inst i)) : Derived prep f (env :: past) env' := by
  refine ⟨fun x k i w has value => ?_, derived.flown.cons fun x w value b sign o step => ?_⟩
  · obtain ⟨_, d, op, args, onceX, _⟩ := hasInterval_let has
    rw [keeps.1 x fun h => others x h _ onceX] at value
    exact derived.intervals x k i w has value
  · obtain ⟨d, op, args, onceX⟩ := flightStep_once step
    exact derived.flown.kept (keeps.1 x fun h => others x h _ onceX) value step

theorem Derived.entry {env env' : Env} {xs : List Word} (bound : paramsEnv f.params xs emptyEnv = .ok env) (keeps : Keeps [] env env') :
    Derived prep f [] env' := by
  have unset : ∀ x i, f.once x = some (.inst i) → env'.vals x = none := by
    intro x i onceX
    rw [keeps.1 x not_mem_nil, (paramsEnv_keeps bound).1 x]
    · rfl
    · intro h
      obtain ⟨p, mem_p, named⟩ := List.mem_map.1 h
      cases once_param onceX mem_p named
  refine ⟨fun x k i w has value => ?_, Flown.nil.cons fun x w value b sign o step => ?_⟩
  · obtain ⟨_, d, op, args, onceX, _⟩ := hasInterval_let has
    rw [unset x _ onceX] at value
    cases value
  · obtain ⟨d, op, args, onceX⟩ := flightStep_once step
    rw [unset x _ onceX] at value
    cases value

variable {s' : St}

/-- An instruction that the run goes on from, and what it did. -/
theorem instsResult_single {call : Call} {i : Inst} (done : instsResult call prep [i] env s = .ok (.cont env' s')) :
    ∃ r, instResult call prep i env s = .ok r ∧ doomedResult prep i env r = .ok (.cont env' s') := by
  unfold instsResult at done
  split at done
  · cases done
  · simp only [bind_ok] at done
    obtain ⟨r0, ran, r, went, done⟩ := done
    split at done
    · cases done
      exact ⟨r0, ran, went⟩
    · cases done

theorem went_keeps {call : Call} {i : Inst} (ran : instResult call prep i env s = .ok r)
    (went : doomedResult prep i env r = .ok (.cont env' s')) : ∀ n ∉ instDefs i, env'.vals n = env.vals n := by
  intro n other
  rcases doomedResult_cont went with rfl | ⟨d, v, why, p, ahead, rfl, _, rfl⟩
  · exact (instResult_keeps ran).1 n other
  · obtain ⟨lo, hi, r, al, ahi, rfl⟩ := aheadInst_shape ahead
    exact (Keeps.put (by simp [instDefs, instTempDefs]) env p).1 n other

/-- A flight that the run goes on from has its base's capability. -/
theorem flight_went {call : Call} {b : Value}
    (intervals : IntervalsHold f.once env) (onceD : f.once d = some (.inst (.flight d op args (.lower b))))
    (ran : instResult call prep (.flight d op args (.lower b)) env s = .ok r)
    (went : doomedResult prep (.flight d op args (.lower b)) env r = .ok (.cont env' s')) :
    ∃ ax ab c, env'.vals d = some (.ptr ax c) ∧ valueX prep env .p b = .ok (.ptr ab c) ∧
      ∀ sign o, flightStep f.once (.tmp d) = some (b, sign, o) → In addressModulus ax (offsetBy (ab, ab) sign o) := by
  simp only [instResult, bind_ok, pure_ok] at ran
  obtain ⟨xs, read, w, ran, cap, flown, ax, int, rfl⟩ := ran
  rcases doomedResult_cont went with h | ⟨_, _, _, _, ahead, _⟩
  · obtain ⟨y, yields, rfl, rfl⟩ := resResult_cont h
    cases yields
    simp only [flightCap, pointerX, bind_ok, pure_ok] at flown
    obtain ⟨p, ⟨wn, value, pointer⟩, rfl⟩ := flown
    obtain rfl : wn = .ptr p.1 p.2 := by
      cases wn <;> cases pointer
      rfl
    exact ⟨ax, p.1, p.2, by simp [Env.put, put], value, fun sign o step => flight_related intervals onceD value read ran int step⟩
  · cases ahead

variable {b : Block} (mem_b : b ∈ f.blocks) {k : Nat} {i : Inst} (at_ : b.insts[k]? = some i)
include mem_b at_

theorem Derived.inst {call : Call} {past : List Env} {env env' : Env} {s s' : St} {r : Result} (derived : Derived prep f past env)
    (ran : instResult call prep i env s = .ok r) (went : doomedResult prep i env r = .ok (.cont env' s')) :
    Derived prep f (env :: past) env' := by
  have kept := went_keeps ran went
  refine ⟨intervals_step mem_b at_ ran went derived.intervals kept, derived.flown.cons fun x w value b' sign o step => ?_⟩
  by_cases def_ : x ∈ instDefs i
  · obtain ⟨d, op, args, onceX⟩ := flightStep_once step
    cases once_inst onceX mem_b at_ def_
    cases (show x = d by simpa [instDefs, instTempDefs] using def_)
    obtain ⟨ax, ab, c, new, base, offset⟩ := flight_went derived.intervals onceX ran went
    rw [new] at value
    cases value
    exact ⟨env, past, suffix_cons _ _, ax, ab, c, rfl, base, offset sign o step⟩
  · exact derived.flown.kept (kept x def_) value step

end

/-! ### Where definitions are in scope -/

/-- Each flight in scope has its base's capability, if the base has one definition or none. -/
def FlightsHold (prep : Prep) (f : Func) (env : Env) (pt : Point) : Prop :=
  ∀ x d op args b, f.once x = some (.inst (.flight d op args (.lower b))) → Established f.params f.blocks x pt →
    (∀ n, b = .tmp n → (f.once n).isSome) →
      ∃ ax ab c, env.vals x = some (.ptr ax c) ∧ valueX prep env .p b = .ok (.ptr ab c) ∧
        ∀ sign o, flightStep f.once (.tmp x) = some (b, sign, o) → In addressModulus ax (offsetBy (ab, ab) sign o)

/-- What holds of an environment at a point, where definitions dominate their uses. -/
structure Scoped (prep : Prep) (f : Func) (env : Env) (pt : Point) : Prop where
  reached : ReachablePoint f.blocks pt
  flights : FlightsHold prep f env pt

section
variable {prep : Prep} {f : Func} (ssa : Ssa f.params f.blocks)

theorem flight_uses {n : Name} : n ∈ instUses (.flight d op args (.lower (.tmp n))) := by
  simp [instUses, temps, Value.temp?]

include ssa

/-- The flights in scope before a step keep what they hold past it. -/
theorem Scoped.kept {pt : Point} (inScope : Scoped prep f env pt)
    (same : ∀ n d, f.once n = some d → Established f.params f.blocks n pt → env'.vals n = env.vals n) {b : Value} (onceX : f.once x = some (.inst (.flight d op args (.lower b))))
    (est : Established f.params f.blocks x pt) (onceB : ∀ n, b = .tmp n → (f.once n).isSome) :
    ∃ ax ab c, env'.vals x = some (.ptr ax c) ∧ valueX prep env' .p b = .ok (.ptr ab c) ∧
      ∀ sign o, flightStep f.once (.tmp x) = some (b, sign, o) → In addressModulus ax (offsetBy (ab, ab) sign o) := by
  obtain ⟨ax, ab, c, value, base, offset⟩ := inScope.flights x d op args b onceX est onceB
  refine ⟨ax, ab, c, (same x _ onceX est).trans value, (valueX_kept fun n here => ?_).trans base, offset⟩
  subst here
  obtain ⟨dn, onceN⟩ := isSome_iff_exists.1 (onceB n rfl)
  exact same n dn onceN (established_operand ssa onceX flight_uses inScope.reached est)

theorem Scoped.phis {b : Block} (mem_b : b ∈ f.blocks) {env env' : Env} (inScope : Scoped prep f env ⟨b.label, -1⟩)
    (keeps : Keeps (b.phis.map (·.dst)) env env') : Scoped prep f env' ⟨b.label, 0⟩ := by
  have same : ∀ n d, f.once n = some d → Established f.params f.blocks n ⟨b.label, -1⟩ → env'.vals n = env.vals n := by
    intro n d once est
    refine keeps.1 n fun h => ?_
    obtain ⟨ph, phi, named⟩ := List.mem_map.1 h
    exact established_phi once mem_b phi inScope.reached est named
  refine ⟨reachable_next mem_b (by omega) (by omega) inScope.reached, fun x d op args b' onceX est onceB => ?_⟩
  rcases established_phis ssa mem_b est with before | ⟨ph, phi, named⟩
  · exact inScope.kept ssa same onceX before onceB
  · cases once_phi onceX mem_b phi named

theorem Scoped.inst {call : Call} {b : Block} (mem_b : b ∈ f.blocks) {k : Nat} {i : Inst} (at_ : b.insts[k]? = some i) {env env' : Env}
    {s s' : St} {r : Result} (inScope : Scoped prep f env ⟨b.label, k⟩) (intervals : IntervalsHold f.once env)
    (ran : instResult call prep i env s = .ok r) (went : doomedResult prep i env r = .ok (.cont env' s')) :
    Scoped prep f env' ⟨b.label, (k + 1 : Nat)⟩ := by
  have kept := went_keeps ran went
  have inside := (List.getElem?_eq_some_iff.1 at_).1
  have same : ∀ n d, f.once n = some d → Established f.params f.blocks n ⟨b.label, k⟩ → env'.vals n = env.vals n :=
    fun n d once est => kept n (established_kept once mem_b at_ inScope.reached est)
  have reached := reachable_next mem_b (by omega) (by omega) inScope.reached
  rw [Nat.cast_succ]
  refine ⟨reached, fun x d op args b' onceX est onceB => ?_⟩
  rcases established_next ssa mem_b at_ est with before | def_
  · exact inScope.kept ssa same onceX before onceB
  · cases once_inst onceX mem_b at_ def_
    cases (show x = d by simpa [instDefs, instTempDefs] using def_)
    obtain ⟨ax, ab, c, new, base, offset⟩ := flight_went intervals onceX ran went
    refine ⟨ax, ab, c, new, (valueX_kept fun n here => ?_).trans base, offset⟩
    subst here
    obtain ⟨dn, onceN⟩ := isSome_iff_exists.1 (onceB n rfl)
    exact same n dn onceN (inst_use ssa mem_b at_ inScope.reached flight_uses)

theorem Scoped.edge {b : Block} (mem_b : b ∈ f.blocks) {env : Env} (inScope : Scoped prep f env ⟨b.label, b.insts.length⟩) {l : Name}
    (jumps : l ∈ jumpLabels b.jump) : Scoped prep f env ⟨l, -1⟩ :=
  ⟨inScope.reached.step (.jump mem_b jumps), fun x d op args b' onceX est onceB =>
    inScope.flights x d op args b' onceX (established_edge ssa mem_b jumps est) onceB⟩

/-- Along a chain in scope the pointer's address is each base's, plus an offset of its interval. -/
theorem Scoped.chain {pt : Point} (inScope : Scoped prep f env pt) {k : Nat} : ∀ {p : Value} {i : Int × Int} {ax : Int} {c : Cap}
    {b : Value} {j : Int × Int}, (b, j) ∈ guardChainFrom f.once k p i → (∀ n, b = .tmp n → (f.once n).isSome) →
    (∀ n, p = .tmp n → (f.once n).isSome → Established f.params f.blocks n pt) → valueX prep env .p p = .ok (.ptr ax c) →
    ∃ ab, valueX prep env .p b = .ok (.ptr ab c) ∧ ∀ t, i.1 ≤ t → t ≤ i.2 → In addressModulus (ax + t) (ab + j.1, ab + j.2) := by
  have here : ∀ {p : Value} {i : Int × Int} {ax : Int} {c : Cap}, valueX prep env .p p = .ok (.ptr ax c) →
      ∃ ab, valueX prep env .p p = .ok (.ptr ab c) ∧ ∀ t, i.1 ≤ t → t ≤ i.2 → In addressModulus (ax + t) (ab + i.1, ab + i.2) := by
    intro p i ax c value
    exact ⟨ax, value, fun t low high => .of_mem (by simpa using low) (by simpa using high)⟩
  induction k with
  | zero =>
    intro p i ax c b j inChain _ _ value
    simp only [guardChainFrom, mem_singleton, Prod.mk.injEq] at inChain
    obtain ⟨rfl, rfl⟩ := inChain
    exact here value
  | succ k ih =>
    intro p i ax c b j inChain onceB est value
    simp only [guardChainFrom] at inChain
    split at inChain
    · rename_i b' sign o step
      rcases mem_cons.1 inChain with head | later
      · cases head
        exact here value
      · obtain ⟨x, d, op, args, rfl, onceX⟩ := flightStep_inst step
        have estX := est x rfl (by rw [onceX]; rfl)
        have onceB' : ∀ n, b' = .tmp n → (f.once n).isSome := by
          rintro n rfl
          cases b with
          | tmp m => exact guardChainFrom_once later (onceB m rfl)
          | const | global =>
            by_contra unknown
            have stuck : flightStep f.once (.tmp n) = none := by simp [flightStep, not_isSome_iff_eq_none.1 unknown]
            cases k <;> simp [guardChainFrom, stuck] at later
        obtain ⟨ax', ab', c', value', base, offset⟩ := inScope.flights x d op args b' onceX estX onceB'
        rw [valueX_pointer value] at value'
        cases value'
        have estB : ∀ n, b' = .tmp n → (f.once n).isSome → Established f.params f.blocks n pt := by
          rintro n rfl _
          exact established_operand ssa onceX flight_uses inScope.reached estX
        obtain ⟨ab, found, chain⟩ := ih later onceB estB base
        refine ⟨ab, found, fun t low high => ?_⟩
        obtain ⟨t', low', high', same⟩ := offsetBy_shift low high (offset sign o step)
        exact (chain t' low' high').congr same
    · simp only [mem_singleton, Prod.mk.injEq] at inChain
      obtain ⟨rfl, rfl⟩ := inChain
      exact here value

end

/-! ### Runs -/

/-- A block's outcome reads only what the targets of its jump do. -/
theorem resultOutcome_targets {enter enter' : Enter} {ctx : Ctx} {jump : Jump} {label : Name}
    (same : ∀ l ∈ jumpLabels jump, enter l = enter' l) : resultOutcome enter ctx r jump label = resultOutcome enter' ctx r jump label := by
  have edges : ∀ t ∈ jumpTargets jump, ∀ env s, edgeOutcome enter t label env s = edgeOutcome enter' t label env s := by
    intro t target env s
    have here := same _ (List.mem_map.2 ⟨t, target, rfl⟩)
    unfold edgeOutcome
    cases t with
    | label l => exact congrFun (congrFun (congrFun here _) _) _
    | poll l =>
      cases env.doomed with
      | none => exact congrFun (congrFun (congrFun here _) _) _
      | some why => rfl
  have jumps : ∀ env s, jumpOutcome enter ctx jump label env s = jumpOutcome enter' ctx jump label env s := by
    intro env s
    cases jump with
    | goto t => exact edges t (by simp [jumpTargets]) env s
    | branch v t1 t2 =>
      simp only [jumpOutcome]
      congr 1
      funext x
      congr 1
      funext n
      split
      · exact edges t1 (by simp [jumpTargets]) env s
      · exact edges t2 (by simp [jumpTargets]) env s
    | ret | rets | retVoid | unreachable => rfl
  cases r with
  | stop => rfl
  | cont env s =>
    simp only [resultOutcome]
    rw [jumps]

theorem Goes.jumps {prep : Prep} {f : Func} {b : Block} {env : Env} {s : St} {l : Name} (goes : Goes prep f b env s l) :
    l ∈ jumpLabels b.jump := by
  by_contra other
  have here := goes fun l' _ _ s => if l' = l then .ok (.outOfFuel, s) else .error .noRule
  have fails := goes fun _ _ _ _ => .error .noRule
  rw [resultOutcome_targets fun l' jumps => ?_, fails] at here
  · simp at here
  · funext _ _ s
    refine if_neg ?_
    rintro rfl
    exact other jumps

/-- Where a configuration is. -/
def Config.point : Config → Point
  | .calls _ f _ _ => startPoint f.blocks
  | .enters _ _ l _ _ _ => ⟨l, -1⟩
  | .stands _ _ b k _ _ => ⟨b.label, k⟩

/-- What a run's past and its configuration have to do with each other. -/
structure Traced (prep : Prep) (past : List Env) (c : Config) : Prop where
  fresh : c.env? = none → past = []
  within : ∀ n f b k env s, c = .stands n f b k env s → b ∈ f.blocks
  derived : ∀ env, c.env? = some env → Derived prep c.func past env
  inScope : ∀ env, c.env? = some env → Ssa c.func.params c.func.blocks → Scoped prep c.func env c.point

theorem Traced.calls {prep : Prep} {n : Nat} {f : Func} {xs : List Word} : Traced prep [] (.calls n f xs s) :=
  ⟨fun _ => rfl, fun _ _ _ _ _ _ same => (by cases same), fun _ same => (by cases same), fun _ same => by cases same⟩

theorem Traced.step {prep : Prep} {past : List Env} {c c' : Config} (traced : Traced prep past c) (step : Step prep c c') :
    Traced prep (c.leaves past c') c' := by
  cases step with
  | @entry n f xs s env env' entry mem bound first taken =>
    obtain rfl := traced.fresh rfl
    have keeps := entrySnapshot_keeps taken
    refine ⟨fun no => (by cases no), fun _ _ _ _ _ _ same => (by cases same), fun _ same => ?_, fun _ same ssa => ?_⟩
    · cases same
      exact .entry bound keeps
    · cases same
      have start : startPoint f.blocks = ⟨entry.label, -1⟩ := by simp [startPoint, blocksEntry, first]
      show Scoped prep f env' ⟨entry.label, -1⟩
      rw [← start]
      refine ⟨.start, fun x d op args b onceX est => ?_⟩
      obtain ⟨p, mem_p, named⟩ := established_start est
      cases once_param onceX mem_p named
  | @phis n f l pred env env' s b running found bound =>
    have mem_b := mem_of_find?_eq_some found
    have label : b.label = l := by simpa using find?_some found
    subst label
    have keeps := phisEnv_keeps bound
    refine ⟨fun no => (by cases no), fun _ _ _ _ _ _ same => ?_, fun _ same => ?_, fun _ same ssa => ?_⟩
    · cases same
      exact mem_b
    · cases same
      refine (traced.derived env rfl).keep keeps fun x h i onceX => ?_
      obtain ⟨ph, phi, named⟩ := List.mem_map.1 h
      cases once_phi onceX mem_b phi named
    · cases same
      exact (traced.inScope env rfl ssa).phis ssa mem_b keeps
  | @inst n f b k i env env' s s' at_ ran =>
    have mem_b := traced.within _ _ _ _ _ _ rfl
    obtain ⟨r, ran, went⟩ := instsResult_single ran
    have derived := traced.derived env rfl
    refine ⟨fun no => (by cases no), fun _ _ _ _ _ _ same => ?_, fun _ same => ?_, fun _ same ssa => ?_⟩
    · cases same
      exact mem_b
    · cases same
      exact derived.inst mem_b at_ ran went
    · cases same
      exact (traced.inScope env rfl ssa).inst ssa mem_b at_ derived.intervals ran went
  | call => exact .calls
  | @edge n f b env s l goes =>
    have mem_b := traced.within _ _ _ _ _ _ rfl
    refine ⟨fun no => (by cases no), fun _ _ _ _ _ _ same => (by cases same), fun _ same => ?_, fun _ same ssa => ?_⟩
    · cases same
      exact (traced.derived env rfl).keep (.refl [] env) fun x no => (by cases no)
    · cases same
      exact (traced.inScope env rfl ssa).edge ssa mem_b goes.jumps

theorem Past.traced {prep : Prep} {n : Nat} {f : Func} {xs : List Word} {past : List Env} {c : Config}
    (run : Past prep (.calls n f xs s) past c) : Traced prep past c := by
  induction run with
  | start => exact .calls
  | step _ step ih => exact ih.step step

/-- A word read as signed at `w` lies in the interval, at `l` modulo 2^64. -/
def Lies (k : Cls) (w : Word) (i : Int × Int) : Prop :=
  ∃ n, w = .int n ∧ (k = .w → i.1 ≤ signExtension 4294967296 2147483648 n ∧ signExtension 4294967296 2147483648 n ≤ i.2) ∧
    (k = .l → ∃ t, i.1 ≤ t ∧ t ≤ i.2 ∧ n ≡ t [ZMOD addressModulus])

theorem WordIn.lies {k : Cls} {w : Word} {i : Int × Int} (word : WordIn k w i) (fits : intervalFits k i = true) : Lies k w i := by
  have kept := word
  obtain ⟨n, m, rfl, size, mem⟩ := word
  refine ⟨n, rfl, fun narrow => ?_, fun wide => ?_⟩
  · subst narrow
    obtain ⟨t, low, high, same, least, most⟩ := wordIn_w kept fits
    have exact : signExtension 4294967296 2147483648 n = t := by
      unfold signExtension
      split <;> omega
    rw [exact]
    exact ⟨low, high⟩
  · subst wide
    cases size
    exact mem

/-- Intervals and chains are sound in every environment of every run: an interval holds what
its temporary does, a chain's bases had the pointer's capability at an offset of their
intervals, and they have it still where definitions dominate uses. -/
theorem offsets_sound (prep : Prep) {n : Nat} {f : Func} {xs : List Word} {s : St} {past : List Env} {c : Config} {env : Env}
    (run : Past prep (.calls n f xs s) past c) (here : c.env? = some env) :
    (∀ x k depth i memo w, offsetInterval c.func.once depth (.tmp x) k [] = some (i, memo) → env.vals x = some w → Lies k w i) ∧
      (∀ p b i, (b, i) ∈ guardChain c.func.once p → ∃ env' ∈ env :: past, Offset prep env p env' b i) ∧
        (Ssa c.func.params c.func.blocks → ∀ p b i, (b, i) ∈ guardChain c.func.once p →
          (∀ x, p = .tmp x → (c.func.once x).isSome → Established c.func.params c.func.blocks x c.point) →
            (∀ y, b = .tmp y → (c.func.once y).isSome) → Offset prep env p env b i) := by
  have traced := run.traced
  obtain ⟨intervals, flown⟩ := traced.derived env here
  refine ⟨fun x k depth i memo w found value => ?_, fun p b i inChain => ?_, fun ssa p b i inChain est onceB a cap value => ?_⟩
  · have has := (offsetInterval_derived found (.nil _)).1
    exact (intervals x k i w has value).lies (hasInterval_fits has (hasInterval_let has).1)
  · by_cases pointer : ∃ a cap, valueX prep env .p p = .ok (.ptr a cap)
    · obtain ⟨a, cap, value⟩ := pointer
      obtain ⟨env', mem, a', base, offset⟩ := flown.chain suffix_rfl inChain value
      refine ⟨env', mem, fun a1 c1 value1 => ⟨a', ?_, ?_⟩⟩ <;>
      · rw [value] at value1
        cases value1
        first | exact base | simpa using offset 0 (le_refl _) (le_refl _)
    · exact ⟨env, mem_cons_self, fun a cap value => absurd ⟨a, cap, value⟩ pointer⟩
  · obtain ⟨a', base, offset⟩ := (traced.inScope env here ssa).chain ssa inChain onceB est value
    exact ⟨a', base, by simpa using offset 0 (le_refl _) (le_refl _)⟩

/-- A pointer less four times a byte. -/
def lessBytes : Block :=
  ⟨"start", [], [.let_ "i" .l (.ext .ub) [.tmp "x"], .let_ "o" .l .mul [.tmp "i", .const 18446744073709551612],
    .flight "q" .add [.address (.tmp "b"), .value (.tmp "o")] (.lower (.tmp "b"))], .retVoid⟩

def lessFunc : Func := { name := "f", linkage := .export_, ret := .void, params := [⟨.p, "b"⟩, ⟨.w, "x"⟩], blocks := [lessBytes] }

def lessPrep : Prep := ⟨fun _ => none, fun _ => none, .filc, noMem⟩

theorem offsets_less : ∃ past env s, Past lessPrep (.calls 2 lessFunc [.ptr 1000 .none, .int 261] ⟨noMem, 1, fun _ => none⟩) past (.stands 1 lessFunc lessBytes 3 env s) ∧
    env.vals "q" = some (.ptr 980 .none) ∧ Lies .l (.int 18446744073709551596) (-1020, 0) ∧
      ∃ env' ∈ env :: past, Offset lessPrep env (.tmp "q") env' (.tmp "b") (-1020, 0) := by
  have run := ((((@Past.start lessPrep (.calls 2 lessFunc [.ptr 1000 .none, .int 261] ⟨noMem, 1, fun _ => none⟩)).step
    (.entry rfl rfl rfl)).step (.phis Nat.one_ne_zero rfl rfl)).step (.inst rfl rfl)).step (.inst rfl rfl)
  have run := run.step (.inst rfl rfl)
  obtain ⟨intervals, chains, -⟩ := offsets_sound lessPrep run rfl
  exact ⟨_, _, _, run, rfl, intervals "o" .l 32 _ _ _ rfl rfl, chains (.tmp "q") (.tmp "b") _ (by decide)⟩

end Nanofil
