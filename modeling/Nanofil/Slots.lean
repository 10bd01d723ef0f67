import Nanofil.Progress

/-! What the temporaries of an accepted function hold, and the words that its
instructions read of them. -/
namespace Nanofil
open List Option Results Bits

/-- The symbols a module's values may name, as memory has them. -/
structure GlobalsOk (m : Module) (prep : Prep) (mem : Mem) : Prop where
  plain : prep.mode = .plain → ∀ g, dataNamed m g = true → ∃ a, prep.globals g = some (.int a) ∧ 0 ≤ a
  filc : prep.mode = .filc → ∀ g x, prep.globals g = some x → ∃ a c, x = .ptr a c ∧ 0 ≤ a ∧ CapOk prep mem c

/-- A word that may be passed where the callee names no parameter. -/
def Loose (prep : Prep) (mem : Mem) (x : Word) : Prop :=
  (∃ n, x = .int n) ∨ ∃ a c, x = .ptr a c ∧ CapOk prep mem c

section
variable {m : Module} {prep : Prep} {mem mem' : Mem} {f : Func}

theorem GlobalsOk.grows (ok : GlobalsOk m prep mem) (grows : Grows mem mem') : GlobalsOk m prep mem' :=
  ⟨ok.plain, fun filc g x known => by
    obtain ⟨a, c, ptr, low, cap⟩ := ok.filc filc g x known
    exact ⟨a, c, ptr, low, cap.grows grows⟩⟩

variable {x : Word} {n : Name} {v : Value}

theorem Loose.grows (ok : Loose prep mem x) (grows : Grows mem mem') : Loose prep mem' x := by
  rcases ok with int | ⟨a, c, ptr, cap⟩
  · exact .inl int
  · exact .inr ⟨a, c, ptr, cap.grows grows⟩

theorem WordOk.loose {k : Cls} (word : WordOk prep mem k x) : Loose prep mem x := by
  cases word with
  | int => exact .inl ⟨_, rfl⟩
  | ptr cap => exact .inr ⟨_, _, rfl, cap⟩
  | proof _ cap => exact .inr ⟨_, _, rfl, cap⟩

theorem Held.grows {k : Cls} (held : Held prep mem k x) (grows : Grows mem mem') : Held prep mem' k x := by
  unfold Held at held ⊢
  split
  · rename_i numeric
    rw [if_pos numeric] at held
    obtain ⟨n, int, low, fits⟩ := held
    exact ⟨n, int, low, fun fit => fits fun wide => (fit wide).before grows⟩
  · rename_i other
    rw [if_neg other] at held
    exact held.grows grows

/-! ### Slots -/

def classOf (f : Func) (n : Name) : Option Cls :=
  ((tempClasses f.params f.blocks).find? (fun d => d.1 = n)).map (·.2)

/-- A word parameter may hold all the bits its caller passed. -/
def wordParam (f : Func) (n : Name) : Prop := ∃ p ∈ f.params, p.name = n ∧ p.cls = .w

inductive Slot (prep : Prep) (mem : Mem) (f : Func) (n : Name) : Word → Prop
  | held {k : Cls} {x : Word} : classOf f n = some k → Held prep mem k x → Slot prep mem f n x
  | wide {v : Int} : classOf f n = some .w → wordParam f n → Slot prep mem f n (.int v)
  | limit {c : Cap} {size : Int} : classOf f n = some .l → n ∈ limitNames f.blocks → Slot prep mem f n (.limit c size)

theorem Slot.grows (slot : Slot prep mem f n x) (grows : Grows mem mem') : Slot prep mem' f n x := by
  cases slot with
  | held known held => exact .held known (held.grows grows)
  | wide known param => exact .wide known param
  | limit known limit => exact .limit known limit

def EnvTyped (prep : Prep) (mem : Mem) (f : Func) (env : Env) : Prop :=
  ∀ n x, env.vals n = some x → Slot prep mem f n x

/-- What may be read of a function's temporaries where it stands. -/
def Readable (f : Func) (env : Env) (v : Value) : Prop :=
  ∀ n, v = .tmp n → (env.vals n).isSome ∧ n ∉ limitNames f.blocks

theorem classOf_ctx (mode : Mode) (n : Name) : (funcCtx m mode f).classOf n = classOf f n := rfl

theorem classOf_def {k : Cls} (classes : checkTempClasses (tempClasses f.params f.blocks) = true)
    (mem_k : (n, k) ∈ tempClasses f.params f.blocks) : classOf f n = some k := by
  have found : ((tempClasses f.params f.blocks).find? (fun d => d.1 = n)).isSome :=
    find?_isSome.2 ⟨(n, k), mem_k, by simp⟩
  obtain ⟨d, found⟩ := isSome_iff_exists.1 found
  have named : d.1 = n := by simpa using find?_some found
  have both := List.all_eq_true.1 classes d (mem_of_find?_eq_some found)
  simp only [Bool.and_eq_true, List.all_eq_true, Bool.or_eq_true, decide_eq_true_eq] at both
  rcases both.2 (n, k) mem_k with other | same
  · exact absurd named.symm other
  · simp only [classOf, found, map_some]
    rw [← same]

theorem wordAtClass_numeric {k : Cls} (numeric : numericClass k = true) (n : Int) :
    Ends Gap (WordOk prep mem k) (wordAtClass k (.int n)) := by
  have step : wordAtClass k (.int n) = (do return .int (n % (← orNoRule (modulus k)))) := by
    cases k <;> first | rfl | cases numeric
  rw [step]
  refine (ends_orNoRule (Q := fun m => modulus k = some m) ?_ fun a h => h).bind
    fun m known => Ends.pure (.int numeric (.emod known n))
  cases k <;> first | rfl | cases numeric

theorem wordAtClass_same {k : Cls} (other : numericClass k = false) : wordAtClass k x = .ok x := by
  cases k <;> first | rfl | cases other

/-- A temporary is read at its class, or a long's low word. -/
theorem slot_read {k0 k : Cls} (slot : Slot prep mem f n x) (known : classOf f n = some k0)
    (use : tempUseOk k0 k = true) (notLimit : n ∉ limitNames f.blocks) :
    Ends Gap (WordOk prep mem k) (wordAtClass k x) := by
  have uses : k0 = k ∨ k0 = .l ∧ k = .w := by simpa [tempUseOk] using use
  cases slot with
  | limit _ limit => exact absurd limit notLimit
  | wide known' _ =>
    rw [known] at known'
    cases known'
    rcases uses with rfl | ⟨h, _⟩
    · exact wordAtClass_numeric rfl _
    · cases h
  | held known' held =>
    rw [known] at known'
    cases known'
    unfold Held at held
    split at held
    · rename_i numeric
      obtain ⟨v, rfl, _⟩ := held
      refine wordAtClass_numeric ?_ v
      rcases uses with rfl | ⟨_, rfl⟩
      · exact numeric
      · rfl
    · rename_i other
      rcases uses with rfl | ⟨rfl, _⟩
      · rw [wordAtClass_same (by simpa using other)]
        exact Ends.ok held
      · exact absurd rfl other

theorem constUse_ends {k : Cls} {n : Int} (use : constUseOk n k = true) {env : Env} :
    Ends Gap (WordOk prep mem k) (valueX prep env k (.const n)) := by
  have any : anyClass k = true := by
    cases k <;> first | rfl | cases use
  refine (ends_orNoRule (Q := fun m => modulus k = some m) (modulus_known any) fun a h => h).bind fun m known => ?_
  cases k <;> first
    | exact Ends.ok (.ptr capOk_none (.emod known n))
    | exact Ends.ok (.int rfl (.emod known n))
    | cases any

variable {env : Env}

theorem valueX_ends (globals : GlobalsOk m prep mem) (typed : EnvTyped prep mem f env) {k : Cls}
    (use : validUse (funcCtx m prep.mode f) k v = true) (readable : Readable f env v) :
    Ends Gap (WordOk prep mem k) (valueX prep env k v) := by
  cases v with
  | tmp n =>
    obtain ⟨assigned, notLimit⟩ := readable n rfl
    obtain ⟨x, bound⟩ := isSome_iff_exists.1 assigned
    simp only [validUse, classOf_ctx, Option.any_eq_true] at use
    obtain ⟨k0, known, use⟩ := use
    simp only [valueX, bound]
    exact slot_read (typed n x bound) known use notLimit
  | const n => exact constUse_ends use
  | global g =>
    simp only [validUse, symbolUseOk, Bool.and_eq_true, decide_eq_true_eq] at use
    obtain ⟨⟨plain, rfl⟩, named⟩ := use
    obtain ⟨a, known, low⟩ := globals.plain plain g named
    simp only [valueX, known]
    exact Ends.ok (.int rfl ⟨low, fun fit => (fit (.inl rfl)).symbols g a (.inl known)⟩)

theorem valuesX_ends (globals : GlobalsOk m prep mem) (typed : EnvTyped prep mem f env) {ks : List Cls} :
    ∀ {vs : List Value}, validUses (funcCtx m prep.mode f) ks vs = true → (∀ v ∈ vs, Readable f env v) →
    Ends Gap (WordsOk prep mem ks) (valuesX prep env ks vs) := by
  induction ks with
  | nil =>
    intro vs uses _
    cases vs with
    | nil => exact Ends.ok .nil
    | cons v vs => cases uses
  | cons k ks ih =>
    intro vs uses readable
    cases vs with
    | nil => cases uses
    | cons v vs =>
      simp only [validUses, Bool.and_eq_true] at uses
      exact (valueX_ends globals typed uses.1 (readable v mem_cons_self)).bind fun x word =>
        (ih uses.2 fun w h => readable w (mem_cons_of_mem _ h)).bind fun xs words =>
          Ends.pure (.cons word words)

theorem pointerX_ends (globals : GlobalsOk m prep mem) (typed : EnvTyped prep mem f env) {k : Cls}
    (pointer : k = .p ∨ proofClass k = true) (use : validUse (funcCtx m prep.mode f) k v = true)
    (readable : Readable f env v) : Ends Gap (fun p => CapOk prep mem p.2) (pointerX prep env k v) := by
  refine (valueX_ends globals typed use readable).bind fun x word => ?_
  rcases pointer with rfl | proof
  · obtain ⟨a, c, rfl, cap, _⟩ := word.toPtr
    exact Ends.ok cap
  · obtain ⟨a, c, rfl, cap⟩ := word.toProof proof
    exact Ends.ok cap

/-- A long is read also where it may be a limit. -/
theorem longX_ends (globals : GlobalsOk m prep mem) (typed : EnvTyped prep mem f env)
    (use : validUse (funcCtx m prep.mode f) .l v = true) (assigned : ∀ n, v = .tmp n → (env.vals n).isSome) :
    Ends Gap (fun _ => True) (valueX prep env .l v) := by
  by_cases limit : ∃ n, v = .tmp n ∧ n ∈ limitNames f.blocks
  · obtain ⟨n, rfl, _⟩ := limit
    obtain ⟨x, bound⟩ := isSome_iff_exists.1 (assigned n rfl)
    simp only [validUse, classOf_ctx, Option.any_eq_true] at use
    obtain ⟨k0, known, use⟩ := use
    have long : k0 = .l := by simpa [tempUseOk] using use
    subst long
    simp only [valueX, bound]
    cases typed n x bound with
    | limit => exact trivial
    | wide => exact trivial
    | held known' held =>
      rw [known] at known'
      cases known'
      obtain ⟨v, rfl, _⟩ := held
      exact trivial
  · exact (valueX_ends globals typed use fun n same => ⟨assigned n same, fun h => limit ⟨n, same, h⟩⟩).mono fun _ _ => trivial

/-- A Fil-C symbol's address may be taken, also that of one nobody defines. -/
theorem globalX_ends (filc : prep.mode = .filc) (globals : GlobalsOk m prep mem) (g : Name) :
    Ends Gap (WordOk prep mem .p) (valueX prep env .p (.global g)) := by
  cases known : prep.globals g with
  | none =>
    simp only [valueX, known, filc, undefinedSymbol]
    exact Ends.ok (.ptr (capOk_ext g) ⟨le_rfl, fun _ => by positivity⟩)
  | some x =>
    obtain ⟨a, c, rfl, low, cap⟩ := globals.filc filc g x known
    simp only [valueX, known]
    exact Ends.ok (.ptr cap ⟨low, fun fit => (fit (.inr rfl)).symbols g a (.inr ⟨c, known⟩)⟩)

end

end Nanofil
