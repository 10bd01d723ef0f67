import Nanofil.Interp
import Nanofil.Valid
import Nanofil.Lib.Numerals
import Nanofil.Lib.Results
import Nanofil.Lib.Traversals

/-! `filc_abi.pl`'s fast-call signature numbers, which name private bodies and weak thunks. -/
namespace Nanofil
open Results Numerals Traversals

def classDigit : Cls → Option Nat
  | .w | .l => some 0
  | .p => some 7
  | .s => some 1
  | .d => some 2
  | _ => none

def bijectiveValue : List Nat → Nat := bijective 11

def retKinds : Ret → Option (List Cls)
  | .void => some []
  | .tuple ks => some ks
  | .cls k => if (classDigit k).isSome then some [k] else none

/-- No function object has it: a call with it always goes generic. -/
def neverSignature : Nat := 18446744073709551615

def signature (ret : Ret) (paramKs : List Cls) : Option Nat := do
  let retKs ← retKinds ret
  let retDigits ← retKs.mapM classDigit
  let argDigits ← paramKs.mapM classDigit
  if argDigits.length ≤ 16 then some (1 + bijectiveValue retDigits + 133 * bijectiveValue argDigits) else some neverSignature

abbrev Digits : List Cls → List Nat → Prop := List.Forall₂ (classDigit · = some ·)

variable {k k' : Cls} {ks ks' : List Cls} {ds ds' : List Nat} {ret : Ret} {n d d' : Nat}

theorem classDigit_iff (found : classDigit k = some d) (found' : classDigit k' = some d') : d = d' ↔ wordClass k = wordClass k' := by
  cases k <;> cases found <;> cases k' <;> cases found' <;> decide

theorem classDigit_lt (found : classDigit k = some d) : d < 11 := by
  cases k <;> cases found <;> decide

theorem classDigits_iff (digits : Digits ks ds) (digits' : Digits ks' ds') : ds = ds' ↔ ks.map wordClass = ks'.map wordClass := by
  induction digits generalizing ks' ds' with
  | nil => cases digits' <;> simp
  | cons found _ ih =>
    cases digits' with
    | nil => simp
    | cons found' rest => simp [classDigit_iff found found', ih rest]

theorem digits_lt (digits : Digits ks ds) : ∀ d ∈ ds, d < 11 := by
  induction digits with
  | nil => simp
  | cons found _ ih => simpa [classDigit_lt found] using ih

theorem values_iff (digits : Digits ks ds) (digits' : Digits ks' ds') :
    bijective 11 ds = bijective 11 ds' ↔ ks.map wordClass = ks'.map wordClass :=
  ⟨fun same => (classDigits_iff digits digits').1 (bijective_inj (digits_lt digits) (digits_lt digits') same),
    fun same => congrArg _ ((classDigits_iff digits digits').2 same)⟩

theorem retKinds_few (proper : tupleRet ret = true) (kinds : retKinds ret = some ks) : ks.length ≤ 2 := by
  cases ret with
  | void | cls => grind [retKinds]
  | tuple ks =>
    cases kinds
    rcases ks with _ | ⟨_, _ | ⟨_, _ | _⟩⟩ <;> first
    | exact Nat.le_refl 2
    | cases proper

/-- What a signature is made of: at most two words of the result, and those of the parameters. -/
theorem signature_digits (proper : tupleRet ret = true) (given : signature ret ks = some n) :
    ∃ rks rs as, retKinds ret = some rks ∧ Digits rks rs ∧ Digits ks as ∧ bijective 11 rs < 133 ∧
      ((ks.length ≤ 16 ∧ n = 1 + bijective 11 rs + 133 * bijective 11 as ∧ n < 2 ^ 63) ∨ 16 < ks.length ∧ n = neverSignature) := by
  simp only [signature, bind_found] at given
  obtain ⟨rks, kinds, rs, results, as, args, given⟩ := given
  have left := mapM_forall₂ results
  have right := mapM_forall₂ args
  have few : rs.length ≤ 2 := left.length_eq ▸ retKinds_few proper kinds
  have low := bijective_lt (digits_lt left) few
  refine ⟨rks, rs, as, kinds, left, right, low, ?_⟩
  rw [← right.length_eq] at given
  split_ifs at given with fits <;> cases given
  · have high := bijective_lt (digits_lt right) (right.length_eq ▸ fits)
    refine .inl ⟨fits, rfl, ?_⟩
    simp only [count] at low high
    simp only [bijectiveValue]
    omega
  · exact .inr ⟨Nat.lt_of_not_le fits, rfl⟩

/-- Two functions have one signature exactly where a call transports the same words, or both have too many parameters for one. -/
theorem signature_exact (ret ret' : Ret) (ks ks' : List Cls) (n n' : Nat) (proper : tupleRet ret = true) (proper' : tupleRet ret' = true)
    (given : signature ret ks = some n) (given' : signature ret' ks' = some n') :
    (n = neverSignature ↔ 16 < ks.length) ∧ (ks.length ≤ 16 → n < 2 ^ 63) ∧
      (n = n' ↔ (16 < ks.length ∧ 16 < ks'.length) ∨ (ks.length ≤ 16 ∧ ks'.length ≤ 16 ∧
        (retKinds ret).map (List.map wordClass) = (retKinds ret').map (List.map wordClass) ∧ ks.map wordClass = ks'.map wordClass)) := by
  obtain ⟨rks, rs, as, kinds, left, right, low, shape⟩ := signature_digits proper given
  obtain ⟨rks', rs', as', kinds', left', right', low', shape'⟩ := signature_digits proper' given'
  have results : bijective 11 rs = bijective 11 rs' ↔ (retKinds ret).map (List.map wordClass) = (retKinds ret').map (List.map wordClass) := by
    rw [kinds, kinds', Option.map_some, Option.map_some, Option.some.injEq]
    exact values_iff left left'
  rw [← results, ← values_iff right right', neverSignature]
  rw [neverSignature] at shape shape'
  omega

theorem signature_exact_word : signature .void [.w] = some 134 ∧ signature .void [.l] = some 134 ∧ ((134 : Nat) = neverSignature ↔ 16 < 1) :=
  ⟨by decide, by decide, (signature_exact .void .void [.w] [.l] 134 134 rfl rfl (by decide) (by decide)).1⟩

end Nanofil
