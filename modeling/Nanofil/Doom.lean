import Nanofil.Facts

/-! A doomed run: the bytes that a `check_ahead` found missing are needed on every path,
so an access fails before the run does anything that shows. -/
namespace Nanofil
open Results Residues

/-- No access that ends `h` past `a` or more, as near offsets go, passes in the object. -/
def Beyond (mem : Mem) (a : Int) (c : Cap) (h : Int) : Prop :=
  ∀ h' x size rights al, h ≤ h' → nearOffset h' = true → 0 < size → x + size ≡ a + h' [ZMOD addressModulus] →
    0 ≤ x → accessRes mem x c size rights al ≠ .ok .ok

variable {a h : Int} {c : Cap}

theorem Beyond.same {mem mem' : Mem} (beyond : Beyond mem a c h) (same : SameObjects mem mem') : Beyond mem' a c h := by
  intro h' x size rights al ge near pos end_ low
  rw [same.accessRes]
  exact beyond h' x size rights al ge near pos end_ low

theorem Beyond.mono {mem : Mem} {h1 : Int} (beyond : Beyond mem a c h) (le : h ≤ h1) : Beyond mem a c h1 :=
  fun h' x size rights al ge => beyond h' x size rights al (le_trans le ge)

/-- A need that no access can meet. -/
structure DoomedBy (need : Need) (env : Env) (mem : Mem) (n : Name) (a : Int) (c : Cap) (h : Int) : Prop where
  value : env.vals n = some (.ptr a c)
  needed : need n = some h
  beyond : Beyond mem a c h

def Doomed (need : Need) (env : Env) (mem : Mem) : Prop := ∃ n a c h, DoomedBy need env mem n a c h

/-! ### Where a run is doomed -/

/-- A `check_ahead`'s low end is not so far below its pointer that its span wraps past
2^64 from a near need. The validator has no such rule. -/
def aheadNear : Inst → Bool
  | .let_ _ _ (.checkAhead lo _ _ _ _) _ => -9223372036854775808 + 281474976710656 ≤ lo
  | _ => true

/-- A check whose access passes and whose range does not: the range's end is beyond. -/
theorem beyond_range {mem : Mem} {an k lo hi ahi align : Int} {rights : Rights} {why : Why}
    (ok : RegionsOk mem) (first : spanAccess mem a c lo ahi rights align = .ok .ok)
    (second : spanAccess mem a c lo hi rights align = .ok (.trap why)) (base : a ≡ an + k [ZMOD addressModulus])
    (near : nearOffset k = true) (far : -9223372036854775808 + 281474976710656 ≤ lo) (span : lo < ahi)
    (need : k + hi ≤ h) : Beyond mem an c h := by
  intro h' x size rights' al ge nearH pos end_ low passes
  obtain ⟨b, r, based, found, inside, aligned, writable⟩ := accessRes_ok.1 first
  obtain ⟨b', r', based', found', inside', _⟩ := accessRes_ok.1 passes
  obtain ⟨rfl, rfl⟩ := same_object based found based' found'
  have bounds := object_bounds ok found
  have outside : ¬ inBounds r' (rawAddress a lo) (hi - lo) := by
    rcases accessRes_trap based found second with ⟨_, h⟩ | ⟨_, _, ro, write⟩ | ⟨_, _, h⟩
    · exact h
    · exact absurd ro (writable write b')
    · exact absurd aligned h
  simp only [inBounds, bounds.2.2.2.1] at inside inside' outside
  simp only [nearOffset, decide_eq_true_eq] at near nearH
  simp only [Int.ModEq, addressModulus] at base end_
  simp only [rawAddress] at inside outside
  omega

/-! ### What a doomed run does -/

section
variable {params : List Param} {bs : List Block} (ssa : Ssa params bs)
  {b : Block} (mem_b : b ∈ bs) {k : Nat} {i : Inst} (at_ : b.insts[k]? = some i) {env : Env} {s : St}
  (holds : Holds params bs env s.mem ⟨b.label, k⟩)
include ssa mem_b at_ holds

/-- A transparent instruction past which the run goes on carries the need on. -/
theorem DoomedBy.step {ctx : ValidCtx} {prep : Prep} (filc : prep.mode = .filc) {call : Call}
    (valid : validInst ctx i = true) {n : Name} {a h : Int} {c : Cap}
    (doomed : DoomedBy (needAt (singleDefinitions params bs) bs b k) env s.mem n a c h) {r : Result} {env' : Env}
    {s' : St} (done : instResult call prep i env s = .ok r)
    (went : doomedResult prep i env r = .ok (.cont env' s')) (effect : InstEffect i s r) :
    DoomedBy (needAt (singleDefinitions params bs) bs b (k + 1)) env' s'.mem n a c h := by
  have moved := effect.went done went
  have needed := doomed.needed
  rw [needAt_next at_] at needed
  obtain ⟨transparent, next⟩ := aheadStep_some needed
  have preserving : evidencePreserving i = true := by
    simp only [aheadTransparent, Bool.and_eq_true] at transparent
    exact transparent.1
  have same := moved.same preserving
  rcases next with ⟨other, need⟩ | ⟨acc, sa, p, e, raw, size, pointer, base, reach, nearE, nearH⟩
  · exact ⟨(moved.vals n other).trans doomed.value, need, doomed.beyond.same same⟩
  · exfalso
    -- the proof's pointer is known by its definition, wherever the proof came from
    obtain ⟨x, rfl⟩ := exactBases_tmp base
    have onceX : (singleDefinitions params bs x).isSome := by
      obtain ⟨inChain, onceN⟩ := exactBases_chain base
      exact guardChainFrom_once inChain onceN
    unfold proofPointers at pointer
    split at pointer
    · rename_i d op args onceQ
      have operand : defOperand (.let_ d .a op args) = some x := by simp [defOperand, pointer]
      have use : acc.proof ∈ instUses i := by
        unfold rawAccess at raw
        split at raw <;> cases raw <;> simp [instUses, temps, Value.temp?]
      have estQ := inst_use ssa mem_b at_ holds.reached use
      obtain ⟨wq, wx, valueQ, valueX, aq, cq, rfl, rfl, _⟩ := holds.defs _ _ onceQ estQ x operand onceX
      have estX := established_operand ssa onceQ (defOperand_use operand) holds.reached estQ
      obtain ⟨an, valueN, apart⟩ :=
        exactBase_address ssa holds.reached holds.defs base (fun _ => estX) valueX
      rw [doomed.value] at valueN
      cases valueN
      obtain ⟨al, test, _, tested, _, fails⟩ := rawAccess_result filc valid raw size valueQ done
      cases test with
      | ok =>
        have spec := accessSizeAlign_spec size
        refine doomed.beyond h _ sa.1 acc.need al (le_refl h) nearH spec.1 ?_ ?_ tested
        · simp only [Int.ModEq, rawAddress, addressModulus] at apart ⊢
          omega
        · simp only [rawAddress]
          omega
      | trap why =>
        obtain ⟨s1, rfl⟩ := fails why rfl
        rcases doomedResult_cont went with h | ⟨_, _, _, _, _, h, _⟩ <;> cases h
    · cases pointer

omit ssa mem_b holds in
theorem DoomedBy.transparent {mem : Mem} {n : Name}
    (doomed : DoomedBy (needAt (singleDefinitions params bs) bs b k) env mem n a c h) : aheadTransparent i = true := by
  have needed := doomed.needed
  rw [needAt_next at_] at needed
  exact (aheadStep_some needed).1

end

end Nanofil
