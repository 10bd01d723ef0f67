import Nanofil.Storage

/-! Every operation of an instruction the validator accepts has a rule for the words it
reads, and what it gives is a word of its class. -/
namespace Nanofil
open Results Bits

section
variable {prep : Prep} {mem : Mem}

/-! ### Checks -/

/-- What a proof operation gives is its pointer, proven. -/
def Yields (p : Word) (r : Res Word) : Prop := ∀ x, r = .val x → x = p

variable {p : Word} {c : Cap} {a align hi lo : Int} {rights : Rights} {op : Op}

theorem yields_stopped {res : Res Word} (stops : ∀ x, res ≠ .val x) : Yields p res :=
  fun x h => absurd h (stops x)

theorem yields_val (p : Word) : Yields p (.val p) := fun x h => by cases h; rfl

theorem capObject_registered {base : Int} (cap : CapOk prep mem c) (based : capBase c = some base) :
    ∃ r, objectRegion base mem.regions = .ok r :=
  cap.1 base based

theorem spanAccess_ends (cap : CapOk prep mem c) : Ends Gap (fun _ => True) (spanAccess mem a c lo hi rights align) :=
  accessRes_ends cap

theorem checkedRes_yields (check : Check) (p : Word) : Yields p (checkedRes check p) := by
  cases check with
  | ok => exact yields_val p
  | trap why => exact yields_stopped fun x h => by cases h

theorem renewRes_ends (cap : CapOk prep mem c) (check : Check) (p : Word) : Ends Gap (Yields p) (renewRes check p c mem) := by
  have freed : Ends Gap (fun _ => True) (capFreed c mem) := by
    unfold capFreed
    cases based : capBase c with
    | none => exact trivial
    | some base =>
      obtain ⟨r, found⟩ := capObject_registered cap based
      simp only [found]
      exact trivial
  have stopped : ∀ b : Bool, Yields p (if b then .trap .outOfBounds else .unchecked .span) := fun b =>
    yields_stopped fun x h => by cases b <;> cases h
  have other : Ends Gap (Yields p) (do
      let freed ← capFreed c mem
      return if freed then .trap .outOfBounds else .unchecked .span) :=
    freed.bind fun b _ => Ends.pure (stopped b)
  cases check with
  | ok => exact Ends.ok (yields_val p)
  | trap why =>
    cases why
    case readonly => exact Ends.ok (yields_stopped fun x h => by cases h)
    all_goals exact other

theorem checkRes_ends (cap : CapOk prep mem c) : Ends Gap (Yields (.ptr a c)) (checkRes mem a c lo hi rights align) :=
  (spanAccess_ends cap).bind fun check _ => Ends.pure (checkedRes_yields check _)

theorem checkAheadRes_ends {ahi : Int} (cap : CapOk prep mem c) :
    Ends Gap (Yields (.ptr a c)) (checkAheadRes mem a c lo hi rights align ahi) := by
  refine (spanAccess_ends cap).bind fun check _ => ?_
  cases check with
  | trap why => exact Ends.pure (yields_stopped fun x h => by cases h)
  | ok =>
    refine (spanAccess_ends cap).bind fun check _ => ?_
    cases check with
    | trap why => exact Ends.pure (yields_stopped fun x h => by cases h)
    | ok => exact Ends.pure (yields_val _)

theorem renewOpRes_ends (cap : CapOk prep mem c) : Ends Gap (Yields (.ptr a c)) (renewOpRes mem a c lo hi rights align) :=
  (spanAccess_ends cap).bind fun check _ => renewRes_ends cap check _

theorem halfRes_yields (check : Check) (passes : Bool) (p : Word) : Yields p (halfRes check passes p) := by
  cases check with
  | ok => cases passes <;> first | exact yields_val p | exact yields_stopped fun x h => by cases h
  | trap why => cases passes <;> exact yields_stopped fun x h => by cases h

theorem halfCheckRes_ends {bound : Bound} (cap : CapOk prep mem c) :
    Ends Gap (Yields (.ptr a c)) (halfCheckRes mem a c bound lo hi rights align) := by
  refine (spanAccess_ends cap).bind fun check _ => ?_
  have passes : Ends Gap (fun _ => True) (halfPasses bound mem (rawAddress a lo) (hi - lo) c rights align) := by
    unfold halfPasses
    cases based : capBase c with
    | none => exact trivial
    | some base =>
      obtain ⟨r, found⟩ := capObject_registered cap based
      simp only [found]
      exact trivial
  refine passes.bind fun result _ => ?_
  cases result with
  | none => exact Ends.pure (yields_stopped fun x h => by cases h)
  | some b => exact Ends.pure (halfRes_yields check b _)

theorem renewIfRes_ends {g : Int} (cap : CapOk prep mem c) :
    Ends Gap (Yields (.ptr a c)) (renewIfRes mem a c g lo hi rights align) := by
  refine (spanAccess_ends cap).bind fun check _ => ?_
  split
  · exact Ends.pure (checkedRes_yields check _)
  split
  · exact Ends.pure (yields_stopped fun x h => by cases h)
  · exact renewRes_ends cap check _

theorem checkLimitRes_ends (u : Word) (cap : CapOk prep mem c) :
    Ends Gap (Yields (.ptr a c)) (checkLimitRes mem a c u lo hi rights align) := by
  unfold checkLimitRes
  split
  · exact checkRes_ends cap
  · exact Ends.ok (yields_stopped fun x h => by cases h)

theorem spanTestRes_ends (cap : CapOk prep mem c) :
    Ends Gap (fun r => ∀ x, r = .val x → WordOk prep mem .w x) (spanTestRes mem a c lo hi) := by
  have bits : ∀ b, WordOk prep mem .w (.int (bit b)) := fun b => .int rfl (bit_within rfl b)
  unfold spanTestRes
  cases based : capBase c with
  | none => exact Ends.ok fun x h => by cases h; exact bits false
  | some base =>
    obtain ⟨r, found⟩ := capObject_registered cap based
    simp only [found]
    exact Ends.ok fun x h => by cases h; exact bits _

/-- A proof is a word of a proof class, with the capability its pointer has. -/
theorem OpOk.yields {k : Cls} {x : Except RunError (Res Word)} (ok : MemOk prep mem)
    (proof : proofClass k = true) (cap : CapOk prep mem c) (ends : Ends Gap (Yields (.ptr a c)) x) :
    Ends Gap (OpOk prep mem k) (keep mem x) :=
  ends.bind fun r yields => Ends.pure
    ⟨fun x h => by cases yields x h; exact .proof proof cap, ok, .refl mem⟩

theorem sameCapRes_ends {k : Cls} {f : Int → Cap → Except RunError (Res Word)} (qs : List Word)
    (ok : MemOk prep mem) (proof : proofClass k = true) (cap : CapOk prep mem c)
    (ends : Ends Gap (Yields (.ptr a c)) (f a c)) : Ends Gap (OpOk prep mem k) (sameCapRes mem qs (.ptr a c) f) := by
  unfold sameCapRes
  dsimp only
  split
  · exact OpOk.yields ok proof cap ends
  · exact Ends.ok (.stopped ok fun x h => by cases h)

def proofOp : Op → Bool
  | .check .. | .checkAhead .. | .renew .. | .renewHull .. | .halfCheck .. | .renewIf .. => true
  | _ => false

theorem proofRes_ends (ok : MemOk prep mem) {k : Cls} {ks : List Cls} {xs : List Word}
    (proofs : proofOp op = true) (classes : opArgClasses op k .filc = some ks) (words : WordsOk prep mem ks xs) :
    Ends Gap (OpOk prep mem .a) (proofRes op xs mem) := by
  cases op <;> cases proofs <;> cases classes
  case check =>
    obtain ⟨p, rfl, hp⟩ := words.one
    obtain ⟨a, c, rfl, cap, _⟩ := hp.toPtr
    exact OpOk.yields ok rfl cap (checkRes_ends cap)
  case checkAhead =>
    obtain ⟨p, rfl, hp⟩ := words.one
    obtain ⟨a, c, rfl, cap, _⟩ := hp.toPtr
    exact OpOk.yields ok rfl cap (checkAheadRes_ends cap)
  case renew =>
    obtain ⟨q, p, rfl, _, hp⟩ := words.two
    obtain ⟨a, c, rfl, cap, _⟩ := hp.toPtr
    exact sameCapRes_ends (k := .a) _ ok rfl cap (f := fun a c => renewOpRes mem a c _ _ _ _) (renewOpRes_ends cap)
  case renewHull =>
    obtain ⟨ql, qh, p, rfl, _, _, hp⟩ := words.three
    obtain ⟨a, c, rfl, cap, _⟩ := hp.toPtr
    exact sameCapRes_ends (k := .a) _ ok rfl cap (f := fun a c => renewOpRes mem a c _ _ _ _) (renewOpRes_ends cap)
  case halfCheck =>
    obtain ⟨q, p, rfl, _, hp⟩ := words.two
    obtain ⟨a, c, rfl, cap, _⟩ := hp.toPtr
    exact sameCapRes_ends (k := .a) _ ok rfl cap (f := fun a c => halfCheckRes mem a c _ _ _ _ _) (halfCheckRes_ends cap)
  case renewIf =>
    obtain ⟨p, g, rfl, hp, hg⟩ := words.two
    obtain ⟨a, c, rfl, cap, _⟩ := hp.toPtr
    obtain ⟨n, rfl, _⟩ := hg.toInt rfl
    exact OpOk.yields ok rfl cap (renewIfRes_ends cap)

/-! ### Operations -/

theorem valRes_ends (ok : MemOk prep mem) {k : Cls} {x : Except RunError Word} (ends : Ends Gap (WordOk prep mem k) x) :
    Ends Gap (OpOk prep mem k) (valRes mem x) :=
  ends.bind fun _ word => Ends.pure (.val ok word)

theorem keep_ends (ok : MemOk prep mem) {k : Cls} {x : Except RunError (Res Word)}
    (ends : Ends Gap (fun r => ∀ y, r = .val y → WordOk prep mem k y) x) : Ends Gap (OpOk prep mem k) (keep mem x) :=
  ends.bind fun _ word => Ends.pure ⟨word, ok, .refl mem⟩

/-- What would have trapped is unchecked, and what it gives is the same. -/
theorem OpOk.raw {k : Cls} {r : Res Word × Mem} (done : OpOk prep mem k r) : OpOk prep mem k (rawRes r.1, r.2) := by
  refine ⟨fun x h => done.word x ?_, done.ok, done.grows⟩
  cases res : r.1 <;> rw [res] at h <;> cases h
  rfl

/-- What a temporary of a class may hold; a cast may keep an address that does not fit. -/
def Held (prep : Prep) (mem : Mem) (k : Cls) (x : Word) : Prop :=
  if numericClass k then ∃ n, x = .int n ∧ 0 ≤ n ∧ ((classWidth k = 64 → AddressesFit prep mem) → n < 2 ^ classWidth k)
  else WordOk prep mem k x

structure OpHeld (prep : Prep) (mem : Mem) (k : Cls) (r : Res Word × Mem) : Prop where
  word : ∀ x, r.1 = .val x → Held prep r.2 k x
  ok : MemOk prep r.2
  grows : Grows mem r.2

theorem WordOk.held {k : Cls} {x : Word} (word : WordOk prep mem k x) : Held prep mem k x := by
  unfold Held
  split
  · rename_i numeric
    obtain ⟨n, rfl, within⟩ := word.toInt numeric
    exact ⟨n, rfl, within.1, fun fit => within.2 fun wide => fit (by rcases wide with rfl | rfl <;> rfl)⟩
  · exact word

theorem OpOk.held {k : Cls} {r : Res Word × Mem} (done : OpOk prep mem k r) : OpHeld prep mem k r :=
  ⟨fun x h => (done.word x h).held, done.ok, done.grows⟩

theorem opRes_kind (kind : OpKind) {k : Cls} {mode : Mode} {xs : List Word} (is : opKind op = some kind)
    (notCompare : ∀ c ck, op ≠ .cmp c ck) (notFloat : fmt k = none ∨ floatArithmeticOp op = false) :
    opRes op k mode xs mem = kindRes kind op k mode xs mem := by
  unfold opRes
  split
  · exact absurd rfl (notCompare _ _)
  · rw [is]
    rcases notFloat with none | other
    · rw [none]
      rfl
    · rw [other]
      cases fmt k <;> rfl

theorem opRes_float {k : Cls} {f : Ieee.Fmt} {mode : Mode} {xs : List Word} (format : fmt k = some f)
    (arithmetic : floatArithmeticOp op = true) : opRes op k mode xs mem = valRes mem (floatArithmetic op f xs) := by
  unfold opRes
  split
  · cases arithmetic
  · rw [format, arithmetic]

/-- The operations of one rule for numbers: what the integer classes give, and the float ones. -/
theorem numeric_ends (ok : MemOk prep mem) (kind : OpKind) {k : Cls} {mode : Mode} {xs : List Word}
    (is : opKind op = some kind) (notCompare : ∀ c ck, op ≠ .cmp c ck) (arithmetic : floatArithmeticOp op = true)
    (float : ∀ f, fmt k = some f → Ends Gap (WordOk prep mem k) (floatArithmetic op f xs))
    (other : fmt k = none → Ends Gap (OpOk prep mem k) (kindRes kind op k mode xs mem)) :
    Ends Gap (OpOk prep mem k) (opRes op k mode xs mem) := by
  cases format : fmt k with
  | some f =>
    rw [opRes_float format arithmetic]
    exact valRes_ends ok (float f format)
  | none =>
    rw [opRes_kind _ is notCompare (.inl format)]
    exact other format

theorem int_or_float {k : Cls} (numeric : numericClass k = true) : intClass k = true ∨ ∃ f, fmt k = some f := by
  cases k <;> first | exact .inl rfl | exact .inr ⟨_, rfl⟩ | cases numeric

theorem fmt_int {k : Cls} (int : intClass k = true) : fmt k = none := by
  cases k <;> first | rfl | cases int

theorem any_cases {k : Cls} (any : anyClass k = true) : intClass k = true ∨ (∃ f, fmt k = some f) ∨ k = .p := by
  cases k <;> first | exact .inl rfl | exact .inr (.inl ⟨_, rfl⟩) | exact .inr (.inr rfl) | cases any

section
variable {k : Cls} {mode : Mode} {ks : List Cls} {xs : List Word} (ok : MemOk prep mem)
include ok

theorem additive_ends (additive : op = .add ∨ op = .sub) (any : anyClass k = true)
    (classes : additiveArgClasses k = some ks) (words : WordsOk prep mem ks xs) :
    Ends Gap (OpOk prep mem k) (opRes op k mode xs mem) := by
  have is : opKind op = some .additive := by rcases additive with rfl | rfl <;> rfl
  have known : (floatOp op).isSome := by rcases additive with rfl | rfl <;> rfl
  have arithmetic : arithmeticOp op = true := by rcases additive with rfl | rfl <;> rfl
  have step : kindRes .additive op k mode xs mem = valRes mem (additiveRes k op xs) := by
    rcases additive with rfl | rfl <;> rfl
  refine numeric_ends ok _ is (fun c ck h => by rcases additive with rfl | rfl <;> cases h)
    (by rcases additive with rfl | rfl <;> rfl) (fun f format => ?_) fun none => ?_
  · have same : ks = [k, k] := by cases k <;> first | (cases classes; rfl) | cases format
    subst same
    exact floatArithmetic_two format known words
  · rw [step]
    refine valRes_ends ok ?_
    rcases any_cases any with int | ⟨f, format⟩ | rfl
    · have same : ks = [k, k] ∧ additiveRes k op xs = alu op k xs := by
        rcases intClass_cases int with rfl | rfl <;> (cases classes; exact ⟨rfl, rfl⟩)
      rw [same.2]
      rw [same.1] at words
      exact alu_arithmetic arithmetic int words
    · rw [format] at none
      cases none
    · cases classes
      exact additive_pointer additive words

theorem alu_ends (is : opKind op = some .alu)
    (result : intClass k = true ∨ (op = .mul ∨ op = .div) ∧ ∃ f, fmt k = some f) (words : WordsOk prep mem [k, k] xs) :
    Ends Gap (OpOk prep mem k) (opRes op k mode xs mem) := by
  have arithmetic : arithmeticOp op = true := by
    cases op <;> first | rfl | cases is | (rename_i t; cases t <;> cases is)
  have notCompare : ∀ c ck, op ≠ .cmp c ck := fun c ck h => by subst h; cases is
  have step : kindRes .alu op k mode xs mem = valRes mem (alu op k xs) := by
    cases op <;> rfl
  rcases result with int | ⟨product, f, format⟩
  · rw [opRes_kind _ is notCompare (.inl (fmt_int int)), step]
    exact valRes_ends ok (alu_arithmetic arithmetic int words)
  · have known : (floatOp op).isSome ∧ floatArithmeticOp op = true := by
      rcases product with rfl | rfl <;> exact ⟨rfl, rfl⟩
    rw [opRes_float format known.2]
    exact valRes_ends ok (floatArithmetic_two format known.1 words)

theorem unary_ends (unary : op = .copy ∧ anyClass k = true ∨ op = .neg ∧ numericClass k = true)
    (words : WordsOk prep mem [k] xs) : Ends Gap (OpOk prep mem k) (opRes op k mode xs mem) := by
  rcases unary with ⟨rfl, any⟩ | ⟨rfl, numeric⟩
  · exact numeric_ends ok .copy rfl (fun c ck h => by cases h) rfl
      (fun f format => floatArithmetic_one format (.inl rfl) words) fun _ => valRes_ends ok (alu_copy words)
  · refine numeric_ends ok .neg rfl (fun c ck h => by cases h) rfl
      (fun f format => floatArithmetic_one format (.inr rfl) words) fun none => valRes_ends ok ?_
    rcases int_or_float numeric with int | ⟨f, format⟩
    · exact alu_neg int words
    · rw [format] at none
      cases none

variable {ck : Cls}

theorem compare_ends {c : Cond} (cond : comparison c ck = true)
    (result : if floatClass ck then k = .w else intClass k = true) (words : WordsOk prep mem [ck, ck] xs) :
    Ends Gap (OpOk prep mem k) (opRes (.cmp c ck) k mode xs mem) := by
  have numeric : intClass ck = true ∧ cmpCond c = true ∨ floatClass ck = true ∧ floatCond c = true := by
    simpa [comparison] using cond
  have numbers : numericClass ck = true := by
    rcases numeric with ⟨int, _⟩ | ⟨float, _⟩
    · exact numeric_int int
    · exact numeric_float float
  obtain ⟨x, y, rfl, hx, hy⟩ := words.two
  obtain ⟨a, rfl, _⟩ := hx.toInt numbers
  obtain ⟨b, rfl, _⟩ := hy.toInt numbers
  rcases numeric with ⟨int, cmp⟩ | ⟨float, _⟩
  · have notFloat : floatClass ck = false := by rcases intClass_cases int with rfl | rfl <;> rfl
    simp only [notFloat] at result
    have step : opRes (.cmp c ck) k mode [.int a, .int b] mem = valRes mem (alu (.cmp c ck) k [.int a, .int b]) := by
      simp only [opRes, fmt_int int]
    rw [step]
    exact valRes_ends ok (alu_compare cmp int result words)
  · obtain ⟨f, format⟩ := float_known float
    rw [if_pos float] at result
    subst result
    simp only [opRes, format]
    exact Ends.ok (.val ok (.int rfl (ieeeCompare_within f c a b)))

theorem shiftOp_ends (shift : shiftOp op = true) (int : intClass k = true)
    (words : WordsOk prep mem [k, .w] xs) : Ends Gap (OpOk prep mem k) (opRes op k mode xs mem) := by
  have is : opKind op = some .shift := by cases op <;> first | rfl | cases shift
  have step : kindRes .shift op k mode xs mem = valRes mem (alu op k xs) := by
    cases op <;> rfl
  rw [opRes_kind _ is (fun c ck h => by subst h; cases is) (.inl (fmt_int int)), step]
  exact valRes_ends ok (alu_shift shift int words)

theorem floatConvertOp_ends (is : opKind op = some .floatConvert)
    (result : kindResultOk .floatConvert op mode k = true) (classes : kindArgClasses .floatConvert op k mode = some ks)
    (words : WordsOk prep mem ks xs) : Ends Gap (OpOk prep mem k) (opRes op k mode xs mem) := by
  have single : (op = .ext .s ∨ op = .ext .d ∨ op = .truncd ∨ op = .truncx) ∧ ∃ ck, ks = [ck] := by
    unfold kindArgClasses at classes
    dsimp only at classes
    split at classes <;> cases classes <;> simp
  obtain ⟨conversion, ck, rfl⟩ := single
  have other : floatArithmeticOp op = false ∧ (∀ c ck, op ≠ .cmp c ck) ∧ kindResultOk .floatConvert op .filc k = true := by
    rcases conversion with rfl | rfl | rfl | rfl <;> exact ⟨rfl, fun _ _ h => by (cases h), result⟩
  rw [opRes_kind _ is other.2.1 (.inr other.1)]
  obtain ⟨n, rfl, ends⟩ := floatConvert_ends other.2.2 classes words
  have step : kindRes .floatConvert op k mode [.int n] mem = valRes mem (floatConvert op k n) := by
    cases op <;> rfl
  rw [step]
  exact valRes_ends ok ends

theorem floatToInt_ends (source : floatIntSource op = some ck) (int : intClass k = true)
    (words : WordsOk prep mem [ck] xs) : Ends Gap (OpOk prep mem k) (opRes op k mode xs mem) := by
  have facts : opKind op = some .floatToInt ∧ (floatSource op).isSome ∧ numericClass ck = true := by
    cases op <;> cases source <;> exact ⟨rfl, rfl, rfl⟩
  obtain ⟨x, rfl, hx⟩ := words.one
  obtain ⟨n, rfl, _⟩ := hx.toInt facts.2.2
  have step : kindRes .floatToInt op k mode [.int n] mem = keep mem (floatInteger op k n) := by cases op <;> rfl
  rw [opRes_kind _ facts.1 (fun c ck h => by subst h; cases source) (.inl (fmt_int int)), step]
  exact keep_ends ok (floatInteger_ends facts.2.1 int n)

theorem intToFloat_ends (source : op = .swtof ∨ op = .sltof ∨ op = .uwtof ∨ op = .ultof)
    (float : floatClass k = true) (words : WordsOk prep mem [if op = .swtof ∨ op = .uwtof then .w else .l] xs) :
    Ends Gap (OpOk prep mem k) (opRes op k mode xs mem) := by
  obtain ⟨f, format⟩ := float_known float
  obtain ⟨x, rfl, hx⟩ := words.one
  obtain ⟨n, rfl, _⟩ := hx.toInt (by split <;> rfl)
  have facts : opKind op = some .intToFloat ∧ floatArithmeticOp op = false ∧
      kindRes .intToFloat op k mode [.int n] mem = valRes mem (do
        let i ← integerSource op n
        let f ← orNoRule (fmt k)
        return .int (Ieee.ieeeFromInt f i)) := by
    rcases source with rfl | rfl | rfl | rfl <;> exact ⟨rfl, rfl, rfl⟩
  rw [opRes_kind _ facts.1 (fun c ck h => by subst h; rcases source with h | h | h | h <;> cases h) (.inr facts.2.1), facts.2.2]
  refine valRes_ends ok ((integerSource_ends source n).bind fun i _ => ?_)
  rw [format]
  exact Ends.ok (wordOk_pattern format (Ieee.ieeeFromInt_pattern _ _))

theorem cast_ends (source : castClasses k = some ck) (words : WordsOk prep mem [ck] xs) :
    Ends Gap (OpHeld prep mem k) (opRes .cast k mode xs mem) := by
  have facts : numericClass ck = true ∧ numericClass k = true ∧ classWidth ck = classWidth k ∧
      (ck = .l ∨ ck = .p → classWidth k = 64) := by
    cases k <;> cases source <;> exact ⟨rfl, rfl, rfl, by decide⟩
  obtain ⟨x, rfl, hx⟩ := words.one
  obtain ⟨n, rfl, within⟩ := hx.toInt facts.1
  rw [opRes_kind .cast rfl (fun c ck h => by cases h) (.inr rfl)]
  refine Ends.ok ⟨fun x h => ?_, ok, .refl mem⟩
  cases h
  rw [Held, if_pos facts.2.1]
  exact ⟨n, rfl, within.1, fun fit => facts.2.2.1 ▸ within.2 fun wide => fit (facts.2.2.2 wide)⟩

end

theorem filcClasses_some {mode : Mode} {ks ks' : List Cls} (classes : filcClasses mode ks = some ks') :
    mode = .filc ∧ ks' = ks := by
  unfold filcClasses at classes
  split at classes
  · exact ⟨‹_›, (Option.some.inj classes).symm⟩
  · cases classes

section
variable {k : Cls} {mode : Mode} {ks : List Cls} {xs : List Word} (ok : MemOk prep mem)
include ok

variable {off : Int} {t : LoadType}

theorem rawLoad_ends (result : loadResultOk t .filc k = true)
    (words : WordsOk prep mem [.a] xs) : Ends Gap (OpOk prep mem k) (opRes (.rawLoad t off) k .filc xs mem) := by
  obtain ⟨q, rfl, hq⟩ := words.one
  obtain ⟨a, c, rfl, cap⟩ := hq.toProof rfl
  rw [opRes_kind .ld rfl (fun c ck h => by cases h) (.inr rfl)]
  have load : Ends Gap (OpOk prep mem k) (loadOpRes t k .filc (.ptr (rawAddress a off) c) mem) :=
    loadOpRes_ends ok result (.filc _ cap)
  exact load.bind fun r done => Ends.pure done.raw

theorem rawLoadPointer_ends {es : List Effect} (valid : validOp (.rawLoadPointer off es) = true)
    (words : WordsOk prep mem [.a] xs) : Ends Gap (OpOk prep mem .p) (opRes (.rawLoadPointer off es) .p .filc xs mem) := by
  obtain ⟨q, rfl, hq⟩ := words.one
  obtain ⟨a, c, rfl, cap⟩ := hq.toProof rfl
  rw [opRes_kind .ldPointer rfl (fun c ck h => by cases h) (.inr rfl)]
  have protocol : es = pointerMemoryEffects .load ∨ es = pointerMemoryEffects .localLoad ∨
      es = pointerMemoryEffects .atomicLoad := by simpa [validOp, or_assoc] using valid
  exact (accessRes_ends cap).bind fun check _ => pointerLoadEffectsRes_ends ok check (rawAddress a off) protocol

theorem casOp_ends (cas : casType t = true) (result : loadResultOk t .filc k = true)
    (words : WordsOk prep mem [k, k, .p] xs) : Ends Gap (OpOk prep mem k) (opRes (.cas t) k .filc xs mem) := by
  obtain ⟨e, n, p, rfl, he, hn, hp⟩ := words.three
  obtain ⟨a, c, rfl, cap, _⟩ := hp.toPtr
  rw [opRes_kind .cas rfl (fun c ck h => by cases h) (.inr rfl)]
  exact casRes_ends ok a cas result he hn cap

theorem rawCas_ends (cas : casType t = true) (result : loadResultOk t .filc k = true)
    (words : WordsOk prep mem [.a, k, k] xs) : Ends Gap (OpOk prep mem k) (opRes (.rawCas t off) k .filc xs mem) := by
  obtain ⟨q, e, n, rfl, hq, he, hn⟩ := words.three
  obtain ⟨a, c, rfl, cap⟩ := hq.toProof rfl
  rw [opRes_kind .rawCas rfl (fun c ck h => by cases h) (.inr rfl)]
  exact (casRes_ends ok (rawAddress a off) cas result he hn cap).bind fun r done => Ends.pure done.raw

theorem allocOp_ends (valid : allocAlignOk align = true) (words : WordsOk prep mem [.l] xs) :
    Ends Gap (OpOk prep mem (addrClass mode)) (opRes (.alloc align) (addrClass mode) mode xs mem) := by
  obtain ⟨x, rfl, hx⟩ := words.one
  obtain ⟨size, rfl, within⟩ := hx.toInt rfl
  have positive : 0 < align := by
    simp only [allocAlignOk, Bool.and_eq_true, decide_eq_true_eq] at valid
    omega
  rw [opRes_kind .alloc rfl (fun c ck h => by cases h) (.inr rfl)]
  exact Ends.ok (allocRes_ok ok positive within.1)

theorem proofOp_ends (proofs : proofOp op = true) (classes : opArgClasses op .a .filc = some ks)
    (words : WordsOk prep mem ks xs) : Ends Gap (OpOk prep mem .a) (opRes op .a .filc xs mem) := by
  have step : opRes op .a .filc xs mem = proofRes op xs mem := by
    cases op <;> cases proofs <;> rfl
  rw [step]
  exact proofRes_ends ok proofs classes words

theorem checkLimit_ends {u : Word} (hp : WordOk prep mem .p p) :
    Ends Gap (OpOk prep mem .a) (opRes (.checkLimit lo hi rights align) .a .filc [p, u] mem) := by
  obtain ⟨a, c, rfl, cap, _⟩ := hp.toPtr
  exact OpOk.yields (k := .a) ok rfl cap (checkLimitRes_ends u cap)

omit ok in
theorem limit_ends (size : Int) (hp : WordOk prep mem .p p) :
    ∃ c, opRes (.limit size) .l .filc [p] mem = .ok (.val (.limit c size), mem) := by
  obtain ⟨a, c, rfl, _⟩ := hp.toPtr
  exact ⟨c, rfl⟩

end

/-- Operations that an instruction runs by its own rule, and those of limits. -/
def ownRule : Op → Bool
  | .vaArgs | .checkLocal .. | .checkFunction | .limit _ | .checkLimit .. => true
  | _ => false

theorem opRes_ends (ok : MemOk prep mem) {k : Cls} {mode : Mode} {ks : List Cls} {xs : List Word}
    (other : ownRule op = false) (valid : validOp op = true) (result : opResultOk mode op k = true)
    (classes : opArgClasses op k mode = some ks) (words : WordsOk prep mem ks xs) :
    Ends Gap (OpHeld prep mem k) (opRes op k mode xs mem) := by
  have held : ∀ {j x}, Ends Gap (OpOk prep mem j) x → Ends Gap (OpHeld prep mem j) x :=
    fun ends => ends.mono fun _ done => done.held
  cases op with
  | vaArgs | checkLocal | checkFunction | limit | checkLimit => cases other
  | add => exact held (additive_ends ok (.inl rfl) result classes words)
  | sub => exact held (additive_ends ok (.inr rfl) result classes words)
  | mul | div =>
    cases classes
    have numeric : intClass k = true ∨ floatClass k = true := by simpa [opResultOk, opKind, kindResultOk] using result
    exact held (alu_ends ok rfl (numeric.imp_right fun float => ⟨by simp, float_known float⟩) words)
  | udiv | rem | urem | and | or | xor =>
    cases classes
    have int : intClass k = true := by simpa [opResultOk, opKind, kindResultOk] using result
    exact held (alu_ends ok rfl (.inl int) words)
  | sar | shr | shl =>
    cases classes
    exact held (shiftOp_ends ok rfl result words)
  | neg =>
    cases classes
    exact held (unary_ends ok (.inr ⟨rfl, result⟩) words)
  | copy =>
    cases classes
    exact held (unary_ends ok (.inl ⟨rfl, result⟩) words)
  | ptoi =>
    cases classes
    have long : mode = .filc ∧ k = .l := by simpa [opResultOk, opKind, kindResultOk] using result
    rw [long.2]
    exact held (valRes_ends ok (alu_ptoi words))
  | itop =>
    cases classes
    have pointer : mode = .filc ∧ k = .p := by simpa [opResultOk, opKind, kindResultOk] using result
    rw [pointer.2]
    exact held (valRes_ends ok (alu_itop words))
  | vaArg =>
    obtain ⟨rfl, rfl⟩ := filcClasses_some classes
    have any : anyClass k = true := by simpa [opResultOk, opKind, kindResultOk] using result
    obtain ⟨p, rfl, hp⟩ := words.one
    rw [opRes_kind .vaArg rfl (fun c ck h => by cases h) (.inr rfl)]
    exact held (vaArgRes_ends ok any hp)
  | setjmp kind =>
    rw [opRes_kind .setjmp rfl (fun c ck h => by cases h) (.inr rfl)]
    exact Ends.error (.inl rfl)
  | ext t =>
    by_cases narrow : (narrowType t).isSome
    · have is : opKind (.ext t) = some .ext := by cases t <;> first | rfl | cases narrow
      have int : intClass k = true := by
        have extended : extResultOk t k = true := by simpa [opResultOk, is, kindResultOk] using result
        cases t <;> cases k <;> first | rfl | cases extended
      have same : ks = [.w] := by simpa [opArgClasses, is, kindArgClasses] using classes.symm
      subst same
      rw [opRes_kind _ is (fun c ck h => by cases h) (.inr rfl)]
      exact held (valRes_ends ok (alu_ext narrow int words))
    · cases t <;> first | exact absurd rfl narrow | exact held (floatConvertOp_ends ok rfl result classes words) | cases valid
  | truncd | truncx => exact held (floatConvertOp_ends ok rfl result classes words)
  | xtosi | xtoui | stosi | stoui | dtosi | dtoui =>
    cases classes
    exact held (floatToInt_ends ok rfl result words)
  | swtof | uwtof | sltof | ultof =>
    cases classes
    exact held (intToFloat_ends ok (by simp) result words)
  | cast =>
    obtain ⟨ck, source, rfl⟩ := Option.map_eq_some_iff.1 classes
    exact cast_ends ok source words
  | cmp c ck =>
    cases classes
    have compared : comparison c ck = true ∧ if floatClass ck then k = .w else intClass k = true := by
      simp only [opResultOk, opKind, kindResultOk, Option.any_some, Bool.and_eq_true] at result
      refine ⟨result.1, ?_⟩
      have typed := result.2
      split at typed
      · rw [if_pos ‹_›]
        simpa using typed
      · rw [if_neg ‹_›]
        exact typed
    exact held (compare_ends ok compared.1 compared.2 words)
  | load t =>
    cases classes
    obtain ⟨x, rfl, hx⟩ := words.one
    rw [opRes_kind .load rfl (fun c ck h => by cases h) (.inr rfl)]
    exact held (loadOpRes_ends ok result hx.address)
  | atomicLoad t =>
    have pointer : t = .p := by cases t <;> first | rfl | cases valid
    subst pointer
    have filc : mode = .filc ∧ k = .p := by simpa [opResultOk, opKind, kindResultOk] using result
    obtain ⟨rfl, rfl⟩ := filc
    cases classes
    obtain ⟨x, rfl, hx⟩ := words.one
    exact held (loadOpRes_ends (t := .p) ok rfl (show Address prep mem .filc x from WordOk.address hx))
  | cas t =>
    obtain ⟨rfl, rfl⟩ := filcClasses_some classes
    have typed : loadResultOk t .filc k = true := by simpa [opResultOk, opKind, kindResultOk] using result
    exact held (casOp_ends ok valid typed words)
  | rawCas t off =>
    obtain ⟨rfl, rfl⟩ := filcClasses_some classes
    have typed : loadResultOk t .filc k = true := by simpa [opResultOk, opKind, kindResultOk] using result
    exact held (rawCas_ends ok valid typed words)
  | alloc align =>
    cases classes
    have address : k = addrClass mode := by simpa [opResultOk, opKind, kindResultOk] using result
    subst address
    exact held (allocOp_ends ok valid words)
  | check | checkAhead | renew | renewHull | halfCheck | renewIf =>
    obtain ⟨rfl, rfl⟩ := filcClasses_some classes
    have proof : k = .a := by simpa [opResultOk, opKind, kindResultOk] using result
    subst proof
    exact held (proofOp_ends ok rfl classes words)
  | spanTest lo hi =>
    obtain ⟨rfl, rfl⟩ := filcClasses_some classes
    have word : k = .w := by simpa [opResultOk, opKind, kindResultOk] using result
    subst word
    obtain ⟨p, rfl, hp⟩ := words.one
    obtain ⟨a, c, rfl, cap, _⟩ := hp.toPtr
    exact held (keep_ends (k := .w) ok (spanTestRes_ends cap))
  | rawLoad t off =>
    obtain ⟨rfl, rfl⟩ := filcClasses_some classes
    have typed : loadResultOk t .filc k = true := by simpa [opResultOk, opKind, kindResultOk] using result
    exact held (rawLoad_ends ok typed words)
  | rawLoadPointer off es =>
    obtain ⟨rfl, rfl⟩ := filcClasses_some classes
    have pointer : k = .p := by simpa [opResultOk, opKind, kindResultOk] using result
    subst pointer
    exact held (rawLoadPointer_ends ok valid words)

end

end Nanofil
