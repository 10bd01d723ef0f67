import Nanofil.Evidence
import Nanofil.Intervals
import Nanofil.Ssa

/-! What a run knows of two pointers of one object: each established single
definition still relates its temporary to the operand it read. -/
namespace Nanofil
open List Option Results Residues

abbrev addressModulus : Int := 18446744073709551616

/-! ### Passed checks -/

/-- A check of `[lo, hi)` passed: its bytes are in the object, unless that was freed since. -/
def Passed (mem : Mem) (a : Int) (c : Cap) (lo hi align : Int) : Prop :=
  ∃ base r, capBase c = some base ∧ objectRegion base mem.regions = .ok r ∧ base ≤ rawAddress a lo ∧
    rawAddress a lo + (hi - lo) ≤ 281474976710656 ∧
    (r.life = .freed ∨ rawAddress a lo + (hi - lo) ≤ r.end_ ∧ rawAddress a lo % align = 0)

/-- A span test was 1: the object contains the span, unless it was freed since. -/
def SpanHeld (mem : Mem) (a : Int) (c : Cap) (lo hi : Int) : Prop :=
  ∃ base r, capBase c = some base ∧ objectRegion base mem.regions = .ok r ∧
    (r.life = .freed ∨ base ≤ rawAddress a lo ∧ rawAddress a lo < rawAddress a hi ∧ rawAddress a hi ≤ r.end_)

variable {a hi lo : Int} {c : Cap} {mem' : Mem} {n x : Name} {p : Value} {i : Int × Int}

theorem Passed.evolve {mem : Mem} {align : Int} (passed : Passed mem a c lo hi align)
    (evolves : Evolves mem mem') : Passed mem' a c lo hi align := by
  obtain ⟨base, r, based, found, above, below, inside⟩ := passed
  obtain ⟨r', found', same⟩ := evolves base r found
  rcases same with rfl | ⟨freed, _⟩
  · exact ⟨base, r', based, found', above, below, inside⟩
  · exact ⟨base, r', based, found', above, below, .inl freed⟩

theorem SpanHeld.evolve {mem : Mem} (held : SpanHeld mem a c lo hi) (evolves : Evolves mem mem') : SpanHeld mem' a c lo hi := by
  obtain ⟨base, r, based, found, inside⟩ := held
  obtain ⟨r', found', same⟩ := evolves base r found
  rcases same with rfl | ⟨freed, _⟩
  · exact ⟨base, r', based, found', inside⟩
  · exact ⟨base, r', based, found', .inl freed⟩

theorem spanAccess_passed {mem : Mem} {align : Int} {rights : Rights} (ok : RegionsOk mem)
    (passes : spanAccess mem a c lo hi rights align = .ok .ok) : Passed mem a c lo hi align := by
  obtain ⟨base, r, based, found, inside, aligned, _⟩ := accessRes_ok.1 passes
  obtain ⟨mem_r, rfl⟩ := objectRegion_mem found
  have bounds := ok.bounds r mem_r
  exact ⟨r.base, r, based, found, inside.1, le_trans inside.2 bounds.2.2.1, .inr ⟨inside.2, aligned⟩⟩

/-! ### What a definition's temporary has to do with its operand -/

/-- The operand a definition is related to, if the source follows it. -/
def defOperand : Inst → Option Name
  | .flight _ _ _ (.lower (.tmp b)) => some b
  | .let_ _ .a op args =>
    match proofPointer op args with
    | some (.tmp p) => some p
    | _ => none
  | .let_ _ .w (.spanTest _ _) [.tmp p] => some p
  | .let_ _ .l (.limit _) [.tmp p] => some p
  | _ => none

/-- `x` and `n` hold the words that executing the definition relates. -/
def Related (once : Once) (mem : Mem) (doomed : Option Why) (x : Name) (i : Inst) (wx wn : Word) : Prop :=
  match i with
  | .flight _ _ _ (.lower (.tmp b)) => ∃ ax ab c, wx = .ptr ax c ∧ wn = .ptr ab c ∧
      ∀ sign o, flightStep once (.tmp x) = some (.tmp b, sign, o) → In addressModulus ax (offsetBy (ab, ab) sign o)
  | .let_ _ .a op args => ∃ a c, wx = .ptr a c ∧ wn = .ptr a c ∧
      ∀ s, renewSourceOp op args = some s → doomed = none → Passed mem a c s.lo s.hi s.align
  | .let_ _ .w (.spanTest lo hi) [.tmp _] => ∃ v a c, wx = .int v ∧ wn = .ptr a c ∧ (v = 0 ∨ v = 1) ∧
      (v = 1 → SpanHeld mem a c lo hi)
  | .let_ _ .l (.limit size) [.tmp _] => ∃ a c, wx = .limit c size ∧ wn = .ptr a c
  | _ => True

def DefHolds (once : Once) (env : Env) (mem : Mem) (x : Name) (i : Inst) : Prop :=
  ∀ n, defOperand i = some n → (once n).isSome →
    ∃ wx wn, env.vals x = some wx ∧ env.vals n = some wn ∧ Related once mem env.doomed x i wx wn

theorem defOperand_use {i : Inst} (operand : defOperand i = some n) : n ∈ instUses i := by
  unfold defOperand at operand
  split at operand
  · cases operand
    simp [instUses, temps, Value.temp?]
  · rename_i op args
    split at operand
    · rename_i p pointer
      cases operand
      unfold proofPointer at pointer
      split at pointer <;> cases pointer <;> simp [instUses, temps, Value.temp?]
    · cases operand
  · cases operand
    simp [instUses, temps, Value.temp?]
  · cases operand
    simp [instUses, temps, Value.temp?]
  · cases operand

theorem Related.frame {once : Once} {mem : Mem} {doomed doomed' : Option Why} {i : Inst}
    {wx wn : Word} (related : Related once mem doomed x i wx wn) (evolves : Evolves mem mem')
    (later : doomed' = none → doomed = none) : Related once mem' doomed' x i wx wn := by
  unfold Related at related ⊢
  split
  · exact related
  · obtain ⟨a, c, hx, hn, passed⟩ := related
    exact ⟨a, c, hx, hn, fun s source live => (passed s source (later live)).evolve evolves⟩
  · obtain ⟨v, a, c, hx, hn, bit, held⟩ := related
    exact ⟨v, a, c, hx, hn, bit, fun one => (held one).evolve evolves⟩
  · exact related
  · trivial

/-- Every single definition past its site holds. -/
def DefsHold (params : List Param) (bs : List Block) (env : Env) (mem : Mem) (pt : Point) : Prop :=
  ∀ x i, singleDefinitions params bs x = some (.inst i) → Established params bs x pt →
    DefHolds (singleDefinitions params bs) env mem x i

/-! ### Chains -/

theorem flightStep_inst {once : Once} {b : Value} {sign : Sign} {o : Int × Int} (step : flightStep once p = some (b, sign, o)) :
    ∃ x d op args, p = .tmp x ∧ once x = some (.inst (.flight d op args (.lower b))) := by
  unfold flightStep at step
  split at step
  · rename_i x
    split at step
    · rename_i d op args b' onceX
      simp only [bind_found, pure_found,
        Prod.mk.injEq] at step
      obtain ⟨_, _, _, _, rfl, _⟩ := step
      exact ⟨x, d, op, args, rfl, onceX⟩
    · cases step
  · cases step

/-- A chain that goes on past its start starts at a single definition. -/
theorem guardChainFrom_once {once : Once} {k : Nat} {b : Name} {j : Int × Int}
    (inChain : (Value.tmp n, j) ∈ guardChainFrom once k (.tmp b) i) (onceN : (once n).isSome) : (once b).isSome := by
  by_contra unknown
  have unknown := not_isSome_iff_eq_none.1 unknown
  have stuck : flightStep once (.tmp b) = none := by simp [flightStep, unknown]
  cases k <;> simp [guardChainFrom, stuck] at inChain
  all_goals
    rw [inChain.1, unknown] at onceN
    cases onceN

theorem offsetBy_shift {sign : Sign} {o : Int × Int} {m b t : Int} (low : i.1 ≤ t) (high : t ≤ i.2)
    (mem : In m a (offsetBy (b, b) sign o)) :
    ∃ t', (offsetBy i sign o).1 ≤ t' ∧ t' ≤ (offsetBy i sign o).2 ∧ a + t ≡ b + t' [ZMOD m] := by
  obtain ⟨s, ge, le, same⟩ := mem
  refine ⟨s - b + t, ?_, ?_, ?_⟩
  · cases sign <;> simp only [offsetBy] at ge le ⊢ <;> omega
  · cases sign <;> simp only [offsetBy] at ge le ⊢ <;> omega
  · have shift := same.add_right t
    rwa [show s + t = b + (s - b + t) by omega] at shift

theorem exactBases_tmp {once : Once} {e : Name × Int} (exact : e ∈ exactBases once p) : ∃ x, p = .tmp x := by
  cases p with
  | tmp x => exact ⟨x, rfl⟩
  | const z => simp [exactBases, guardChain, guardChainFrom, flightStep] at exact
  | global g => simp [exactBases, guardChain, guardChainFrom, flightStep] at exact

theorem pointerDistance_bases {once : Once} {p1 : Value} {d : Int} (distance : pointerDistance once p p1 = some d) :
    ∃ n k k1, (n, k) ∈ exactBases once p ∧ (n, k1) ∈ exactBases once p1 ∧ d = k - k1 := by
  unfold pointerDistance at distance
  obtain ⟨⟨n, k⟩, mem, found⟩ := exists_of_findSome?_eq_some distance
  simp only [map_eq_some_iff] at found
  obtain ⟨⟨n1, k1⟩, found, rfl⟩ := found
  have same : n1 = n := by simpa using find?_some found
  exact ⟨n, k, k1, mem, same ▸ mem_of_find?_eq_some found, rfl⟩

theorem lowerChain_step {once : Once} {k : Nat} {b : Value} (chain : lowerChain once k p b = true) :
    p = b ∨ ∃ k' x d op args p', k = k' + 1 ∧ p = .tmp x ∧
      once x = some (.inst (.flight d op args (.lower p'))) ∧ lowerChain once k' p' b = true := by
  by_cases same : p = b
  · exact .inl same
  · right
    unfold lowerChain at chain
    rw [if_neg same] at chain
    split at chain
    · rename_i k' x
      split at chain
      · rename_i d op args p' onceX
        exact ⟨k', x, d, op, args, p', rfl, rfl, onceX, chain⟩
      · cases chain
    · cases chain

section Chains
variable {params : List Param} {bs : List Block} (ssa : Ssa params bs) {env : Env} {mem : Mem} {pt : Point}
  (reached : ReachablePoint bs pt) (defs : DefsHold params bs env mem pt)
include ssa reached defs

/-- A flight's base, one step down its chain. -/
theorem flight_base {b : Name} {d : Name} {op : Op} {args : List FlightArg} {ax : Int}
    (onceX : singleDefinitions params bs x = some (.inst (.flight d op args (.lower (.tmp b)))))
    (est : Established params bs x pt) (onceB : (singleDefinitions params bs b).isSome)
    (value : env.vals x = some (.ptr ax c)) :
    Established params bs b pt ∧ ∃ ab, env.vals b = some (.ptr ab c) ∧ ∀ sign o,
      flightStep (singleDefinitions params bs) (.tmp x) = some (.tmp b, sign, o) →
        In addressModulus ax (offsetBy (ab, ab) sign o) := by
  obtain ⟨wx, wn, hx, hn, ax', ab, c', rfl, rfl, offset⟩ := defs x _ onceX est b rfl onceB
  rw [value] at hx
  cases hx
  refine ⟨established_operand ssa onceX ?_ reached est, ab, hn, offset⟩
  simp [instUses, temps, Value.temp?]

/-- Along a chain the pointer's address is each base's, plus an offset of its interval. -/
theorem guardChain_address {k : Nat} : ∀ {x : Name} {i : Int × Int} {ax : Int} {c : Cap} {n : Name}
    {j : Int × Int}, (tmp_n : (Value.tmp n, j) ∈ guardChainFrom (singleDefinitions params bs) k (.tmp x) i) →
    (singleDefinitions params bs n).isSome →
    ((singleDefinitions params bs x).isSome → Established params bs x pt) → env.vals x = some (.ptr ax c) →
    ∃ an, env.vals n = some (.ptr an c) ∧
      ∀ t, i.1 ≤ t → t ≤ i.2 → In addressModulus (ax + t) (an + j.1, an + j.2) := by
  have here : ∀ {x : Name} {i : Int × Int} {ax : Int} {c : Cap}, env.vals x = some (.ptr ax c) →
      ∃ an, env.vals x = some (.ptr an c) ∧
        ∀ t, i.1 ≤ t → t ≤ i.2 → In addressModulus (ax + t) (an + i.1, an + i.2) := by
    intro x i ax c value
    exact ⟨ax, value, fun t low high => .of_mem (by simpa using low) (by simpa using high)⟩
  induction k with
  | zero =>
    intro x i ax c n j inChain _ _ value
    simp only [guardChainFrom, mem_singleton, Prod.mk.injEq, Value.tmp.injEq] at inChain
    obtain ⟨rfl, rfl⟩ := inChain
    exact here value
  | succ k ih =>
    intro x i ax c n j inChain onceN est value
    simp only [guardChainFrom] at inChain
    split at inChain
    · rename_i b sign o step
      rcases mem_cons.1 inChain with head | inChain
      · simp only [Prod.mk.injEq, Value.tmp.injEq] at head
        obtain ⟨rfl, rfl⟩ := head
        exact here value
      · obtain ⟨x', d, op, args, same, onceX⟩ := flightStep_inst step
        cases same
        cases b with
        | tmp b =>
          have onceB := guardChainFrom_once inChain onceN
          obtain ⟨estB, ab, valueB, offset⟩ :=
            flight_base ssa reached defs onceX (est (by rw [onceX]; rfl)) onceB value
          obtain ⟨an, valueN, chain⟩ := ih inChain onceN (fun _ => estB) valueB
          refine ⟨an, valueN, fun t low high => ?_⟩
          obtain ⟨t', low', high', same⟩ := offsetBy_shift low high (offset sign o step)
          exact (chain t' low' high').congr same
        | const z => cases k <;> simp [guardChainFrom, flightStep] at inChain
        | global g => cases k <;> simp [guardChainFrom, flightStep] at inChain
    · simp only [mem_singleton, Prod.mk.injEq, Value.tmp.injEq] at inChain
      obtain ⟨rfl, rfl⟩ := inChain
      exact here value

omit defs in
/-- The bases of an established pointer's chain are established. -/
theorem guardChain_established {k : Nat} : ∀ {x : Name} {i : Int × Int} {n : Name} {j : Int × Int},
    (Value.tmp n, j) ∈ guardChainFrom (singleDefinitions params bs) k (.tmp x) i →
    (singleDefinitions params bs n).isSome →
    ((singleDefinitions params bs x).isSome → Established params bs x pt) → Established params bs n pt := by
  induction k with
  | zero =>
    intro x i n j inChain onceN est
    simp only [guardChainFrom, mem_singleton, Prod.mk.injEq, Value.tmp.injEq] at inChain
    obtain ⟨rfl, rfl⟩ := inChain
    exact est onceN
  | succ k ih =>
    intro x i n j inChain onceN est
    simp only [guardChainFrom] at inChain
    split at inChain
    · rename_i b sign o step
      rcases mem_cons.1 inChain with head | inChain
      · simp only [Prod.mk.injEq, Value.tmp.injEq] at head
        obtain ⟨rfl, rfl⟩ := head
        exact est onceN
      · obtain ⟨x', d, op, args, same, onceX⟩ := flightStep_inst step
        cases same
        cases b with
        | tmp b =>
          refine ih inChain onceN fun _ => established_operand ssa onceX ?_ reached (est (by rw [onceX]; rfl))
          simp [instUses, temps, Value.temp?]
        | const z => cases k <;> simp [guardChainFrom, flightStep] at inChain
        | global g => cases k <;> simp [guardChainFrom, flightStep] at inChain
    · simp only [mem_singleton, Prod.mk.injEq, Value.tmp.injEq] at inChain
      obtain ⟨rfl, rfl⟩ := inChain
      exact est onceN

/-- A pointer whose chain reaches a pointer is one. -/
theorem guardChain_pointer {k : Nat} {j : Int × Int} {an : Int}
    (inChain : (Value.tmp n, j) ∈ guardChainFrom (singleDefinitions params bs) k (.tmp x) i)
    (onceN : (singleDefinitions params bs n).isSome)
    (est : (singleDefinitions params bs x).isSome → Established params bs x pt)
    (value : env.vals n = some (.ptr an c)) :
    ∃ ax, env.vals x = some (.ptr ax c) ∧
      ∀ t, i.1 ≤ t → t ≤ i.2 → In addressModulus (ax + t) (an + j.1, an + j.2) := by
  have pointer : ∃ ax c', env.vals x = some (.ptr ax c') := by
    have here : x = n → ∃ ax c', env.vals x = some (.ptr ax c') := fun same => ⟨an, c, same ▸ value⟩
    cases k with
    | zero =>
      simp only [guardChainFrom, mem_singleton, Prod.mk.injEq, Value.tmp.injEq] at inChain
      exact here inChain.1.symm
    | succ k =>
      simp only [guardChainFrom] at inChain
      split at inChain
      · rename_i b sign o step
        rcases mem_cons.1 inChain with head | inChain
        · simp only [Prod.mk.injEq, Value.tmp.injEq] at head
          exact here head.1.symm
        · obtain ⟨x', d, op, args, same, onceX⟩ := flightStep_inst step
          cases same
          cases b with
          | tmp b =>
            have onceB := guardChainFrom_once inChain onceN
            obtain ⟨_, _, hx, _, ax, _, c', rfl, _⟩ := defs x _ onceX (est (by rw [onceX]; rfl)) b rfl onceB
            exact ⟨ax, c', hx⟩
          | const z => cases k <;> simp [guardChainFrom, flightStep] at inChain
          | global g => cases k <;> simp [guardChainFrom, flightStep] at inChain
      · simp only [mem_singleton, Prod.mk.injEq, Value.tmp.injEq] at inChain
        exact here inChain.1.symm
  obtain ⟨ax, c', valueX⟩ := pointer
  obtain ⟨an', valueN, chain⟩ := guardChain_address ssa reached defs inChain onceN est valueX
  rw [value] at valueN
  cases valueN
  exact ⟨ax, valueX, chain⟩

omit ssa reached defs in
theorem exactBases_chain {k : Int} (exact : (n, k) ∈ exactBases (singleDefinitions params bs) (.tmp x)) :
    (Value.tmp n, (k, k)) ∈ guardChain (singleDefinitions params bs) (.tmp x) ∧
      (singleDefinitions params bs n).isSome := by
  simp only [exactBases, mem_filterMap] at exact
  obtain ⟨⟨v, j⟩, inChain, exact⟩ := exact
  cases v with
  | const z => cases exact
  | global g => cases exact
  | tmp n' =>
    simp only [ite_none_right_eq_some, Option.some.injEq, Prod.mk.injEq] at exact
    obtain ⟨⟨known, point⟩, rfl, rfl⟩ := exact
    refine ⟨?_, known⟩
    have pair : j = (j.1, j.1) := Prod.ext rfl point.symm
    rw [← pair]
    exact inChain

theorem exactBase_address {k ax : Int} (exact : (n, k) ∈ exactBases (singleDefinitions params bs) (.tmp x))
    (est : (singleDefinitions params bs x).isSome → Established params bs x pt)
    (value : env.vals x = some (.ptr ax c)) :
    ∃ an, env.vals n = some (.ptr an c) ∧ ax ≡ an + k [ZMOD addressModulus] := by
  obtain ⟨inChain, known⟩ := exactBases_chain exact
  obtain ⟨an, valueN, chain⟩ := guardChain_address ssa reached defs inChain known est value
  have mem := chain 0 (le_refl _) (le_refl _)
  rw [add_zero] at mem
  exact ⟨an, valueN, mem.exact⟩

omit defs in
theorem exactBase_established {k : Int} (exact : (n, k) ∈ exactBases (singleDefinitions params bs) (.tmp x))
    (est : (singleDefinitions params bs x).isSome → Established params bs x pt) : Established params bs n pt := by
  obtain ⟨inChain, known⟩ := exactBases_chain exact
  exact guardChain_established ssa reached inChain known est

/-- Two pointers at a distance are of one object, that far apart modulo 2^64. -/
theorem pointerDistance_address {p1 : Value} {d : Int} (distance : pointerDistance (singleDefinitions params bs) p p1 = some d) :
    ∃ x x1, p = .tmp x ∧ p1 = .tmp x1 ∧ ∀ a1 c,
      ((singleDefinitions params bs x).isSome → Established params bs x pt) →
      ((singleDefinitions params bs x1).isSome → Established params bs x1 pt) →
      env.vals x1 = some (.ptr a1 c) →
      ∃ a, env.vals x = some (.ptr a c) ∧ a ≡ a1 + d [ZMOD addressModulus] := by
  obtain ⟨n, k, k1, mem, mem1, rfl⟩ := pointerDistance_bases distance
  obtain ⟨x, rfl⟩ := exactBases_tmp mem
  obtain ⟨x1, rfl⟩ := exactBases_tmp mem1
  refine ⟨x, x1, rfl, rfl, fun a1 c est est1 value1 => ?_⟩
  obtain ⟨an, valueN, same1⟩ := exactBase_address ssa reached defs mem1 est1 value1
  obtain ⟨inChain, known⟩ := exactBases_chain mem
  obtain ⟨a, value, chain⟩ := guardChain_pointer ssa reached defs inChain known est valueN
  have mem := chain 0 (le_refl _) (le_refl _)
  rw [add_zero] at mem
  refine ⟨a, value, mem.exact.trans ?_⟩
  have shift := same1.add_right (k - k1)
  rw [show an + k1 + (k - k1) = an + k by omega] at shift
  exact shift.symm

/-- A pointer whose chain of lower donors ends at a pointer is one of its object. -/
theorem lowerChain_cap {k : Nat} : ∀ {x n : Name} {an : Int} {c : Cap},
    lowerChain (singleDefinitions params bs) k (.tmp x) (.tmp n) = true →
    (singleDefinitions params bs n).isSome →
    ((singleDefinitions params bs x).isSome → Established params bs x pt) → env.vals n = some (.ptr an c) →
    ∃ ax, env.vals x = some (.ptr ax c) := by
  induction k with
  | zero =>
    intro x n an c chain _ _ value
    rcases lowerChain_step chain with same | ⟨k', _, _, _, _, _, succ, _⟩
    · cases same
      exact ⟨an, value⟩
    · cases succ
  | succ k ih =>
    intro x n an c chain onceN est value
    rcases lowerChain_step chain with same | ⟨k', x', d, op, args, b, succ, same, onceX, chain⟩
    · cases same
      exact ⟨an, value⟩
    · cases succ
      cases same
      have lower : ∃ b', b = .tmp b' ∧ (singleDefinitions params bs b').isSome := by
        rcases lowerChain_step chain with same | ⟨_, b', _, _, _, _, _, same, onceB, _⟩
        · exact ⟨n, same, onceN⟩
        · exact ⟨b', same, by rw [onceB]; rfl⟩
      obtain ⟨b', rfl, onceB⟩ := lower
      have estX := est (by rw [onceX]; rfl)
      obtain ⟨_, _, hx, hn, ax, ab, c', rfl, rfl, _⟩ := defs x _ onceX estX b' rfl onceB
      have estB := established_operand ssa onceX (n := b') (by simp [instUses, temps, Value.temp?]) reached estX
      obtain ⟨_, valueB⟩ := ih chain onceN (fun _ => estB) value
      rw [hn] at valueB
      cases valueB
      exact ⟨ax, hx⟩

end Chains

end Nanofil
