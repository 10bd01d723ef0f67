import Nanofil.Boehm.Allocation
import Mathlib.Data.List.Count

/-! When an allocation gives what was asked for, or the out-of-memory result. -/
namespace Nanofil.Boehm.Allocation
open List

/-! ### What a call is to give -/

/-- What is asked for: an object of some bytes, by reallocation or not, a list of objects, an object
with a code, or nothing. -/
inductive Request where
  | bytes (n : Nat)
  | resized (n : Nat)
  | list (n : Nat)
  | status (n : Nat)
  | nothing

def Call.request : Call → Request
  | .malloc n | .mallocAtomic n | .mallocIgnoreOffPage n | .mallocAtomicIgnoreOffPage n | .mallocStubborn n
  | .mallocExplicitlyTyped n | .mallocExplicitlyTypedIgnoreOffPage n | .debugMalloc n | .debugMallocAtomic n
  | .debugMallocIgnoreOffPage n | .debugMallocAtomicIgnoreOffPage n | .debugMallocStubborn n
  | .debugMallocReplacement n | .mallocUncollectable n | .mallocAtomicUncollectable n
  | .genericMallocUncollectable n _ | .debugMallocUncollectable n | .debugMallocAtomicUncollectable n
  | .genericMalloc n _ | .genericMallocIgnoreOffPage n _ | .genericOrSpecialMalloc n _
  | .debugGenericOrSpecialMalloc n _ | .mallocKind n _ | .mallocKindGlobal n _ | .memalign _ n | .gcjMalloc n _
  | .gcjMallocIgnoreOffPage n _ | .debugGcjMalloc n _ | .finalizedMalloc n _ => .bytes n.toNat
  | .genericMallocMany n _ | .mallocMany n => .list n.toNat
  | .posixMemalign _ n => .status n.toNat
  | .strdup s | .debugStrdup s =>
    match s with
    | none => .nothing
    | some s => .bytes (s.len + 1)
  | .strndup s size | .debugStrndup s size => .bytes (min s.len size.toNat + 1)
  | .debugWcsdup s => .bytes ((s.len + 1) * 4)
  | .realloc p n | .debugRealloc p n | .debugReallocReplacement p n => if p ≠ .null ∧ n = 0 then .nothing else .resized n.toNat
  | .callocExplicitlyTyped nelements elementSize => .bytes (nelements.toNat * elementSize.toNat)

/-- The out-of-memory function was asked, and this is what it gave. -/
def Denied (e : Env) (h h' : Heap) (p : Ptr) : Prop := ∃ n, h'.asked = n :: h.asked ∧ p = oomResult e n

/-- The objects that a list links through their first words. -/
inductive Linked (words : Ptr → Ptr) : Ptr → List Ptr → Prop
  | nil : Linked words .null []
  | cons {p : Ptr} {ps : List Ptr} (rest : Linked words (words p) ps) : Linked words p (p :: ps)

def Given (e : Env) (h h' : Heap) : Request → Reply → Prop
  | .bytes n, .pointer p => h'.holds p n ∨ Denied e h h' p
  | .resized n, .pointer p =>
    h'.holds p n ∨ Denied e h h' p ∧ h'.blocks = h.blocks ∧ h'.uncollectable = h.uncollectable
  | .list n, .pointer p => (∃ ps, ps ≠ [] ∧ Linked h'.words p ps ∧ ∀ q ∈ ps, h'.holds q n) ∨ Denied e h h' p
  | .status n, .status code memptr =>
    code ≠ 0 ∨ ∃ p, memptr = some p ∧ p ≠ .null ∧ (h'.holds p n ∨ Denied e h h' p)
  | .nothing, .pointer p => p = .null
  | _, _ => False

/-- The call returns, NULL is not kept, and what it gives is an object or the out-of-memory result. -/
def Call.Good (e : Env) (h : Heap) (call : Call) : Prop :=
  ∃ r h', call.run e h = some (r, h') ∧ h'.uncollectable.count .null = h.uncollectable.count .null ∧
    Given e h h' call.request r

/-! ### When it does -/

/-- What the out-of-memory function gives for a size, should it be asked, has so many bytes. -/
def Covered (e : Env) (h : Heap) (n : UInt64) (bytes : Nat) : Prop := n ≤ FUGC_MAX_ALLOC ∨ h.holds (oomResult e n) bytes

/-- What it gives is not NULL. -/
def Answered (e : Env) (n : UInt64) : Prop := n ≤ FUGC_MAX_ALLOC ∨ oomResult e n ≠ .null

def Call.Sound (e : Env) (h : Heap) : Call → Prop
  | .malloc _ | .mallocAtomic _ | .mallocIgnoreOffPage _ | .mallocAtomicIgnoreOffPage _ | .mallocStubborn _
  | .mallocExplicitlyTyped _ | .mallocExplicitlyTypedIgnoreOffPage _ | .debugMalloc _ | .debugMallocAtomic _
  | .debugMallocIgnoreOffPage _ | .debugMallocAtomicIgnoreOffPage _ | .debugMallocStubborn _
  | .debugMallocReplacement _ | .memalign _ _ | .callocExplicitlyTyped _ _ => True
  | .mallocUncollectable n | .mallocAtomicUncollectable n | .genericMallocUncollectable n _
  | .debugMallocUncollectable n | .debugMallocAtomicUncollectable n => Answered e n
  | .genericMalloc n k | .genericMallocIgnoreOffPage n k | .genericOrSpecialMalloc n k
  | .debugGenericOrSpecialMalloc n k | .mallocKind n k | .mallocKindGlobal n k => k = 2 ∨ k = 3 → Answered e n
  | .genericMallocMany n _ | .mallocMany n => Covered e h n 8
  | .posixMemalign align n => align < 8 ∨ align &&& (align - 1) ≠ 0 ∨ Answered e n
  | .strdup s | .debugStrdup s => ∀ t ∈ s, Covered e h (UInt64.ofNat (t.len + 1)) (t.len + 1)
  | .strndup s size | .debugStrndup s size =>
    Covered e h (UInt64.ofNat (min s.len size.toNat + 1)) (min s.len size.toNat + 1)
  | .debugWcsdup s => Covered e h (UInt64.ofNat ((s.len + 1) * 4)) ((s.len + 1) * 4)
  | .realloc p n | .debugRealloc p n | .debugReallocReplacement p n =>
    p = .null ∨ n = 0 ∨ n > FUGC_MAX_ALLOC ∨ isBase h p
  | .gcjMalloc n _ | .gcjMallocIgnoreOffPage n _ | .debugGcjMalloc n _ => Covered e h n 8
  | .finalizedMalloc n _ => n.toNat + 8 < 2 ^ 64 ∧ Covered e h (n + 8) (n.toNat + 8)

/-! ### The helpers -/

section
variable {e : Env} {h h' : Heap} {n : UInt64} {p : Ptr} {bytes : Nat}

/-- The heap with a new object. -/
def Heap.push (e : Env) (h : Heap) (n : UInt64) : Heap := { h with blocks := h.blocks ++ [⟨e.room n.toNat, true⟩] }

/-- The heap where the out-of-memory function was asked. -/
def Heap.ask (h : Heap) (n : UInt64) : Heap := { h with asked := n :: h.asked }

theorem holds_push (le : bytes ≤ n.toNat) : (h.push e n).holds (.at h.blocks.length 0) bytes := by
  have room : bytes ≤ e.room n.toNat := Nat.le_trans le (e.le_room _)
  simp [Heap.holds, Heap.push, room]

/-- `alloc_normal` gives an object, or asks for the out-of-memory result. -/
theorem allocNormal_cases (e : Env) (n : UInt64) (h : Heap) :
    (n ≤ FUGC_MAX_ALLOC ∧ allocNormal e n h = (.at h.blocks.length 0, h.push e (if n ≠ 0 then n else 1))) ∨
      (¬n ≤ FUGC_MAX_ALLOC ∧ allocNormal e n h = (oomResult e n, h.ask n)) := by
  rw [allocNormal]
  by_cases big : n > FUGC_MAX_ALLOC
  · rw [if_pos big]
    exact .inr ⟨UInt64.not_le.2 big, rfl⟩
  · rw [if_neg big]
    exact .inl ⟨UInt64.not_lt.1 big, rfl⟩

theorem le_nonzero : n.toNat ≤ (if n ≠ 0 then n else 1).toNat := by
  split_ifs with zero
  · exact Nat.le_refl _
  · rw [not_not.1 zero]
    exact Nat.zero_le _

/-- Whatever it is asked for, `alloc_normal` gives it or asks for the out-of-memory result. -/
theorem allocNormal_given (le : bytes ≤ n.toNat) :
    ((allocNormal e n h).2.holds (allocNormal e n h).1 bytes ∨ Denied e h (allocNormal e n h).2 (allocNormal e n h).1) ∧
      (allocNormal e n h).2.uncollectable = h.uncollectable := by
  obtain ⟨-, eq⟩ | ⟨-, eq⟩ := allocNormal_cases e n h
  · rw [eq]
    exact ⟨.inl (holds_push (Nat.le_trans le le_nonzero)), rfl⟩
  · rw [eq]
    exact ⟨.inr ⟨n, rfl, rfl⟩, rfl⟩

theorem registerFinalizer_spec : (registerFinalizer p h).blocks = h.blocks ∧ (registerFinalizer p h).words = h.words ∧
    (registerFinalizer p h).uncollectable = h.uncollectable ∧ (registerFinalizer p h).asked = h.asked := by
  rw [registerFinalizer]
  split_ifs <;> exact ⟨rfl, rfl, rfl, rfl⟩

/-- What a heap holds is read of its objects. -/
theorem holds_congr (same : h'.blocks = h.blocks) : h'.holds p bytes = h.holds p bytes := by
  cases p with
  | null => rfl
  | «at» o off => simp only [Heap.holds, same]

theorem holds_mono {n m : Nat} (le : m ≤ n) (holds : h.holds p n) : h.holds p m := by
  cases p with
  | null => exact absurd holds Bool.false_ne_true
  | «at» o off =>
    simp only [Heap.holds, Option.any_eq_true, Bool.and_eq_true, decide_eq_true_eq] at holds ⊢
    obtain ⟨b, there, live, inside⟩ := holds
    exact ⟨b, there, live, by omega⟩

theorem holds_ne_null (holds : h.holds p bytes) : p ≠ .null := by
  rintro rfl
  exact absurd holds Bool.false_ne_true

theorem count_makeUncollectable : (makeUncollectable p h).uncollectable.count .null = h.uncollectable.count .null ↔ p ≠ .null := by
  rw [makeUncollectable, count_cons]
  split_ifs with null
  · simp [beq_iff_eq.1 null]
  · simpa using null

/-! ### The families -/

theorem good_normal : Call.Good e h (.malloc n) := by
  obtain ⟨given, same⟩ := allocNormal_given (e := e) (h := h) (Nat.le_refl n.toNat)
  exact ⟨_, _, rfl, congrArg _ same, given⟩

theorem uncollectable_given : (allocUncollectable e n h).2.uncollectable.count .null = h.uncollectable.count .null ↔ Answered e n := by
  rw [allocUncollectable]
  obtain ⟨small, eq⟩ | ⟨big, eq⟩ := allocNormal_cases e n h
  · rw [eq]
    refine (count_makeUncollectable (h := h.push e _)).trans ⟨fun _ => .inl small, fun _ => nofun⟩
  · rw [eq]
    refine (count_makeUncollectable (h := h.ask n)).trans ⟨.inr, fun answered => ?_⟩
    exact answered.resolve_left big

theorem good_uncollectable : Call.Good e h (.mallocUncollectable n) ↔ Answered e n := by
  obtain ⟨given, -⟩ := allocNormal_given (e := e) (h := h) (Nat.le_refl n.toNat)
  have given' : Given e h (allocUncollectable e n h).2 (.bytes n.toNat) (.pointer (allocUncollectable e n h).1) := given
  constructor
  · rintro ⟨r, h', ran, kept, -⟩
    obtain ⟨rfl, rfl⟩ := Prod.mk.inj (Option.some.inj ran)
    exact uncollectable_given.1 kept
  · exact fun answered => ⟨_, _, rfl, uncollectable_given.2 answered, given'⟩

theorem genericMalloc_spec (k : Int) :
    ((genericMalloc e n k h).2.holds (genericMalloc e n k h).1 n.toNat ∨
      Denied e h (genericMalloc e n k h).2 (genericMalloc e n k h).1) ∧ (genericMalloc e n k h).2.words = h.words ∧
      ((genericMalloc e n k h).2.uncollectable.count .null = h.uncollectable.count .null ↔
        (k = 2 ∨ k = 3 → Answered e n)) := by
  have words : (allocNormal e n h).2.words = h.words := by
    obtain ⟨-, eq⟩ | ⟨-, eq⟩ := allocNormal_cases e n h
    · rw [eq]; rfl
    · rw [eq]; rfl
  obtain ⟨given, kept⟩ := allocNormal_given (e := e) (h := h) (Nat.le_refl n.toNat)
  rw [genericMalloc]
  by_cases special : k = 2 ∨ k = 3
  · rw [if_pos (by simpa using special)]
    refine ⟨given, words, uncollectable_given.trans ⟨fun answered _ => answered, fun answered => answered special⟩⟩
  · rw [if_neg (by simpa using special)]
    dsimp only
    split_ifs with disclaim
    · obtain ⟨blocks, same, uncollectable, asked⟩ := registerFinalizer_spec (p := (allocNormal e n h).1) (h := (allocNormal e n h).2)
      refine ⟨given.imp (fun holds => (holds_congr blocks).trans holds) fun ⟨m, is, eq⟩ => ⟨m, asked.trans is, eq⟩,
        same.trans words, ?_⟩
      rw [uncollectable, kept]
      exact iff_of_true rfl fun is => absurd is special
    · exact ⟨given, words, iff_of_true (congrArg _ kept) fun is => absurd is special⟩

theorem good_generic {k : Int} : Call.Good e h (.genericMalloc n k) ↔ (k = 2 ∨ k = 3 → Answered e n) := by
  obtain ⟨given, -, kept⟩ := genericMalloc_spec (e := e) (h := h) (n := n) k
  constructor
  · rintro ⟨r, h', ran, same, -⟩
    obtain ⟨rfl, rfl⟩ := Prod.mk.inj (Option.some.inj ran)
    exact kept.1 same
  · exact fun answered => ⟨_, _, rfl, kept.2 answered, given⟩

theorem good_memalign {align : UInt64} : Call.Good e h (.memalign align n) := by
  have given : ((memalign e align n h).2.holds (memalign e align n h).1 n.toNat ∨
      Denied e h (memalign e align n h).2 (memalign e align n h).1) ∧
      (memalign e align n h).2.uncollectable = h.uncollectable := by
    rw [memalign]
    by_cases plain : align ≤ 16 || n > FUGC_MAX_ALLOC
    · rw [if_pos plain]
      exact allocNormal_given (Nat.le_refl _)
    · rw [if_neg plain]
      exact ⟨.inl (holds_push le_nonzero), rfl⟩
  exact ⟨_, _, rfl, congrArg _ given.2, given.1⟩

theorem good_calloc {nelements elementSize : UInt64} : Call.Good e h (.callocExplicitlyTyped nelements elementSize) := by
  have given : ((callocExplicitlyTyped e nelements elementSize h).2.holds (callocExplicitlyTyped e nelements elementSize h).1
      (nelements.toNat * elementSize.toNat) ∨ Denied e h (callocExplicitlyTyped e nelements elementSize h).2
        (callocExplicitlyTyped e nelements elementSize h).1) ∧
      (callocExplicitlyTyped e nelements elementSize h).2.uncollectable = h.uncollectable := by
    rw [callocExplicitlyTyped]
    by_cases wraps : elementSize ≠ 0 && nelements > (0 - 1) / elementSize
    · rw [if_pos wraps]
      exact ⟨.inr ⟨_, rfl, rfl⟩, rfl⟩
    · rw [if_neg wraps]
      refine allocNormal_given (Nat.le_of_eq ?_)
      rw [UInt64.toNat_mul, Nat.mod_eq_of_lt]
      simp only [ne_eq, Bool.and_eq_true, decide_eq_true_eq, not_and, gt_iff_lt, UInt64.not_lt, UInt64.le_iff_toNat_le,
        UInt64.toNat_div] at wraps
      rcases Nat.eq_zero_or_pos elementSize.toNat with zero | pos
      · rw [zero, Nat.mul_zero]
        decide
      · have le := (Nat.le_div_iff_mul_le pos).1 (wraps fun zero => by simp [zero] at pos)
        have top : (0 - 1 : UInt64).toNat = 2 ^ 64 - 1 := rfl
        omega
  exact ⟨_, _, rfl, congrArg _ given.2, given.1⟩

/-- An allocation is written to: it returns exactly where what it got has the bytes that are written. -/
theorem good_written {call : Call} {m : Nat} {w : Ptr → Heap → Heap} (le : bytes ≤ n.toNat) (need_le : m ≤ n.toNat)
    (request : call.request = .bytes bytes)
    (keeps : ∀ p h, (w p h).blocks = h.blocks ∧ (w p h).uncollectable = h.uncollectable ∧ (w p h).asked = h.asked)
    (run : call.run e h = if (allocNormal e n h).2.holds (allocNormal e n h).1 m then
      some (.pointer (allocNormal e n h).1, w (allocNormal e n h).1 (allocNormal e n h).2) else none) :
    call.Good e h ↔ Covered e h n m := by
  obtain ⟨given, kept⟩ := allocNormal_given (e := e) (h := h) le
  obtain ⟨blocks, uncollectable, asked⟩ := keeps (allocNormal e n h).1 (allocNormal e n h).2
  have covered : (allocNormal e n h).2.holds (allocNormal e n h).1 m ↔ Covered e h n m := by
    obtain ⟨small, eq⟩ | ⟨big, eq⟩ := allocNormal_cases e n h
    · rw [eq]
      exact iff_of_true (holds_push (Nat.le_trans need_le le_nonzero)) (.inl small)
    · rw [eq]
      have same : (h.ask n).holds (oomResult e n) m = h.holds (oomResult e n) m := holds_congr rfl
      rw [same]
      exact ⟨.inr, fun covered => covered.resolve_left big⟩
  rw [← covered]
  constructor
  · rintro ⟨r, h', ran, -⟩
    rw [run] at ran
    by_contra short
    rw [if_neg short] at ran
    exact nomatch ran
  · intro holds
    rw [if_pos holds] at run
    refine ⟨_, _, run, congrArg _ (uncollectable.trans kept), ?_⟩
    rw [request]
    exact given.imp (fun holds => (holds_congr blocks).trans holds) fun ⟨m, is, eq⟩ => ⟨m, asked.trans is, eq⟩

theorem fill_pos (pos : 0 < bytes) : fill p bytes h = if h.holds p bytes then some h else none := by
  simp [fill, Nat.ne_of_gt pos]

theorem good_strdup {s : Option (CString 1)} :
    Call.Good e h (.strdup s) ↔ ∀ t ∈ s, Covered e h (UInt64.ofNat (t.len + 1)) (t.len + 1) := by
  cases s with
  | none => exact iff_of_true ⟨_, _, rfl, rfl, rfl⟩ nofun
  | some s =>
    have fits := s.fits
    rw [Nat.mul_one] at fits
    have size : (UInt64.ofNat (s.len + 1)).toNat = s.len + 1 := UInt64.toNat_ofNat_of_lt' fits
    refine (good_written (w := fun _ h => h) (n := UInt64.ofNat (s.len + 1)) (m := s.len + 1)
      (Nat.le_of_eq size.symm) (Nat.le_of_eq size.symm) rfl (fun _ _ => ⟨rfl, rfl, rfl⟩) ?_).trans (by simp)
    have sum : UInt64.ofNat s.len + 1 = UInt64.ofNat (s.len + 1) := (UInt64.ofNat_add _ _).symm
    show (strdup e (some s) h).map pointer = _
    simp only [strdup, sum, size, fill_pos (Nat.succ_pos s.len)]
    split_ifs <;> rfl

theorem good_wcsdup {s : CString 4} :
    Call.Good e h (.debugWcsdup s) ↔ Covered e h (UInt64.ofNat ((s.len + 1) * 4)) ((s.len + 1) * 4) := by
  have size : (UInt64.ofNat ((s.len + 1) * 4)).toNat = (s.len + 1) * 4 := UInt64.toNat_ofNat_of_lt' s.fits
  refine good_written (w := fun _ h => h) (Nat.le_of_eq size.symm) (Nat.le_of_eq size.symm) rfl
    (fun _ _ => ⟨rfl, rfl, rfl⟩) ?_
  have product : (UInt64.ofNat s.len + 1) * 4 = UInt64.ofNat ((s.len + 1) * 4) := by
    rw [UInt64.ofNat_mul, UInt64.ofNat_add]
    rfl
  show (wcsdup e s h).map pointer = _
  simp only [wcsdup, product, size, fill_pos (Nat.mul_pos (Nat.succ_pos s.len) (Nat.succ_pos 3))]
  split_ifs <;> rfl

theorem holds_add (n m : Nat) : h.holds p (n + m) = (h.holds p n && h.holds (p.add n) m) := by
  cases p with
  | null => rfl
  | «at» o off =>
    simp only [Heap.holds, Ptr.add]
    cases h.blocks[o]? with
    | none => rfl
    | some b =>
      simp only [Option.any_some]
      rw [Bool.eq_iff_iff]
      simp only [Bool.and_eq_true, decide_eq_true_eq]
      constructor
      · rintro ⟨live, inside⟩
        exact ⟨⟨live, by omega⟩, live, by omega⟩
      · rintro ⟨⟨live, -⟩, -, inside⟩
        exact ⟨live, by omega⟩

/-- Bytes are written, and the zero after them. -/
theorem fill_fill (n : Nat) : (fill p n h).bind (fill (p.add n) 1) = if h.holds p (n + 1) then some h else none := by
  rw [holds_add]
  rcases Nat.eq_zero_or_pos n with rfl | pos
  · have first : h.holds (p.add 0) 1 = true → h.holds p 0 = true := fun holds => by
      have same : p.add 0 = p := by cases p <;> rfl
      rw [same] at holds
      exact holds_mono (Nat.zero_le 1) holds
    by_cases holds : h.holds (p.add 0) 1 = true
    · simp [fill, holds, first holds]
    · simp [fill, holds]
  · rw [fill_pos pos]
    by_cases holds : h.holds p n = true
    · simp [holds, fill]
    · simp [holds]

theorem good_strndup {s : CString 1} {size : UInt64} : Call.Good e h (.strndup s size) ↔
    Covered e h (UInt64.ofNat (min s.len size.toNat + 1)) (min s.len size.toNat + 1) := by
  have fits := s.fits
  have short : min s.len size.toNat + 1 < UInt64.size := by
    have le : min s.len size.toNat ≤ s.len := Nat.min_le_left _ _
    show _ < 2 ^ 64
    omega
  have len : (UInt64.ofNat (min s.len size.toNat)).toNat = min s.len size.toNat :=
    UInt64.toNat_ofNat_of_lt' (Nat.lt_of_succ_lt short)
  have total : (UInt64.ofNat (min s.len size.toNat + 1)).toNat = min s.len size.toNat + 1 := UInt64.toNat_ofNat_of_lt' short
  refine good_written (w := fun _ h => h) (Nat.le_of_eq total.symm) (Nat.le_of_eq total.symm) rfl
    (fun _ _ => ⟨rfl, rfl, rfl⟩) ?_
  have sum : UInt64.ofNat (min s.len size.toNat) + 1 = UInt64.ofNat (min s.len size.toNat + 1) := (UInt64.ofNat_add _ _).symm
  show (strndup e s size h).map pointer = _
  have both := fill_fill (p := (allocNormal e (UInt64.ofNat (min s.len size.toNat + 1)) h).1)
    (h := (allocNormal e (UInt64.ofNat (min s.len size.toNat + 1)) h).2) (min s.len size.toNat)
  simp only [strndup, sum, len, Option.bind_eq_bind, ← Option.bind_assoc, both]
  split_ifs <;> rfl

/-- The eight bytes of the first word. -/
theorem first_word : 8 ≤ (if n < 8 then 8 else n).toNat ∧ n.toNat ≤ (if n < 8 then 8 else n).toNat ∧
    (Covered e h (if n < 8 then 8 else n) 8 ↔ Covered e h n 8) := by
  split_ifs with small
  · have lt : n.toNat < 8 := UInt64.lt_iff_toNat_lt.1 small
    refine ⟨Nat.le_refl 8, Nat.le_of_lt lt, iff_of_true (.inl (by decide)) (.inl ?_)⟩
    exact UInt64.le_iff_toNat_le.2 (Nat.le_trans (Nat.le_of_lt lt) (by decide))
  · exact ⟨UInt64.le_iff_toNat_le.1 (UInt64.not_lt.1 small), Nat.le_refl _, Iff.rfl⟩

theorem good_gcj {vtable : Ptr} : Call.Good e h (.gcjMalloc n vtable) ↔ Covered e h n 8 := by
  obtain ⟨word, le, same⟩ := first_word (e := e) (h := h) (n := n)
  refine (good_written (w := fun p h => { h with words := Function.update h.words p vtable }) le word rfl
    (fun _ _ => ⟨rfl, rfl, rfl⟩) ?_).trans same
  show (gcjMalloc e n vtable h).map pointer = _
  simp only [gcjMalloc, store]
  split_ifs <;> rfl

theorem good_posixMemalign {align : UInt64} :
    Call.Good e h (.posixMemalign align n) ↔ align < 8 ∨ align &&& (align - 1) ≠ 0 ∨ Answered e n := by
  by_cases bad : align < 8 || align &&& (align - 1) != 0
  · refine iff_of_true ⟨.status 22 none, h, ?_, rfl, .inl (by decide)⟩ ?_
    · simp only [Call.run, posixMemalign, if_pos bad]
    · simp only [Bool.or_eq_true, decide_eq_true_eq, bne_iff_ne] at bad
      exact bad.imp_right .inl
  · have run : Call.run e h (.posixMemalign align n) =
        some (.status 0 (some (memalign e align n h).1), (memalign e align n h).2) := by
      simp only [Call.run, posixMemalign, if_neg bad]
    simp only [Bool.or_eq_true, decide_eq_true_eq, bne_iff_ne, not_or] at bad
    rw [← or_assoc, or_iff_right (not_or.2 bad)]
    have good : Call.Good e h (.memalign align n) := good_memalign
    obtain ⟨p, h', ran, kept, given⟩ := good
    obtain ⟨rfl, rfl⟩ := Prod.mk.inj (Option.some.inj ran)
    have some_ : (memalign e align n h).1 ≠ .null ↔ Answered e n := by
      rw [memalign]
      by_cases plain : align ≤ 16 || n > FUGC_MAX_ALLOC
      · rw [if_pos plain]
        obtain ⟨small, eq⟩ | ⟨big, eq⟩ := allocNormal_cases e n h
        · rw [eq]
          exact iff_of_true nofun (.inl small)
        · rw [eq]
          exact ⟨.inr, fun answered => answered.resolve_left big⟩
      · rw [if_neg plain]
        simp only [Bool.or_eq_true, decide_eq_true_eq, not_or] at plain
        exact iff_of_true nofun (.inl (UInt64.not_lt.1 plain.2))
    rw [← some_]
    constructor
    · rintro ⟨r, h', ran', -, given'⟩
      obtain ⟨rfl, rfl⟩ := Prod.mk.inj (Option.some.inj (run.symm.trans ran'))
      obtain ⟨q, is, there, -⟩ := given'.resolve_left (absurd rfl)
      exact Option.some.inj is ▸ there
    · exact fun there => ⟨_, _, run, kept, .inr ⟨_, rfl, there, given⟩⟩

theorem count_zgcFree (some_ : p ≠ .null) : (zgcFree p h).uncollectable.count .null = h.uncollectable.count .null := by
  cases p with
  | null => rfl
  | «at» o off => exact count_filter (by simp)

theorem good_realloc :
    Call.Good e h (.realloc p n) ↔ p = .null ∨ n = 0 ∨ n > FUGC_MAX_ALLOC ∨ isBase h p := by
  by_cases null : p = .null
  · refine iff_of_true ⟨_, _, congrArg (Option.map pointer) (if_pos null), ?_, ?_⟩ (.inl null)
    · exact congrArg _ (allocNormal_given (Nat.zero_le n.toNat)).2
    · have request : (Call.realloc p n).request = .resized n.toNat := if_neg fun both => both.1 null
      rw [request]
      obtain ⟨-, eq⟩ | ⟨-, eq⟩ := allocNormal_cases e n h
      · rw [eq]
        exact .inl (holds_push le_nonzero)
      · rw [eq]
        exact .inr ⟨⟨n, rfl, rfl⟩, rfl, rfl⟩
  by_cases zero : n = 0
  · have run : Call.run e h (.realloc p n) = some (.pointer .null, free p h) := by
      simp [Call.run, realloc, if_neg null, zero, pointer]
    refine iff_of_true ⟨_, _, run, ?_, ?_⟩ (.inr (.inl zero))
    · rw [free]
      split_ifs
      · exact count_zgcFree null
      · rfl
    · have request : (Call.realloc p n).request = .nothing := if_pos ⟨null, zero⟩
      rw [request]
      rfl
  have request : (Call.realloc p n).request = .resized n.toNat := if_neg fun both => zero both.2
  rw [or_iff_right null, or_iff_right zero]
  by_cases big : n > FUGC_MAX_ALLOC
  · have run : Call.run e h (.realloc p n) = some (.pointer (oomResult e n), h.ask n) := by
      simp only [Call.run, realloc, if_neg null, if_neg zero, if_pos big]
      rfl
    exact iff_of_true ⟨_, _, run, rfl, request ▸ .inr ⟨⟨n, rfl, rfl⟩, rfl, rfl⟩⟩ (.inl big)
  rw [or_iff_right big]
  constructor
  · rintro ⟨r, h', ran, -⟩
    by_contra wrong
    simp [Call.run, realloc, null, zero, big, zgcRealloc, wrong] at ran
  · intro base
    have run : Call.run e h (.realloc p n) = some (.pointer (.at (zgcFree p h).blocks.length 0),
        if isUncollectable p h then makeUncollectable (.at (zgcFree p h).blocks.length 0) ((zgcFree p h).push e n)
        else (zgcFree p h).push e n) := by
      simp only [Call.run, realloc, if_neg null, if_neg zero, if_neg big, zgcRealloc, if_pos base]
      rfl
    refine ⟨_, _, run, ?_, request ▸ .inl ?_⟩
    · split_ifs
      · exact ((count_makeUncollectable (p := .at _ _) (h := (zgcFree p h).push e n)).2 nofun).trans (count_zgcFree null)
      · exact count_zgcFree null
    · have holds : ((zgcFree p h).push e n).holds (.at (zgcFree p h).blocks.length 0) n.toNat := holds_push (Nat.le_refl _)
      split_ifs
      · exact (holds_congr rfl).trans holds
      · exact holds

theorem add_ne {k : Nat} (pos : 0 < k) (some_ : p ≠ .null) : p.add k ≠ p := by
  cases p with
  | null => exact absurd rfl some_
  | «at» o off =>
    simp only [Ptr.add, ne_eq, Ptr.at.injEq, true_and]
    omega

theorem good_finalized {fc : Ptr} :
    Call.Good e h (.finalizedMalloc n fc) ↔ n.toNat + 8 < 2 ^ 64 ∧ Covered e h (n + 8) (n.toNat + 8) := by
  have run : Call.run e h (.finalizedMalloc n fc) =
      if (allocNormal e (n + 8) h).2.holds (allocNormal e (n + 8) h).1 8 then
        some (.pointer ((allocNormal e (n + 8) h).1.add 8), registerFinalizer (allocNormal e (n + 8) h).1
          { (allocNormal e (n + 8) h).2 with
            words := Function.update (allocNormal e (n + 8) h).2.words (allocNormal e (n + 8) h).1 (fc.add 1) })
      else none := by
    show (finalizedMalloc e n fc h).map pointer = _
    simp only [finalizedMalloc, store]
    split_ifs <;> rfl
  have sum : (n + 8).toNat = (n.toNat + 8) % 2 ^ 64 := UInt64.toNat_add _ _
  obtain ⟨small, eq⟩ | ⟨big, eq⟩ := allocNormal_cases e (n + 8) h
  · rw [eq] at run
    have le := le_nonzero (n := n + 8)
    generalize nonzero : (if n + 8 ≠ 0 then n + 8 else 1) = m at run le
    dsimp only at run
    obtain ⟨blocks, -, uncollectable, asked⟩ := registerFinalizer_spec (p := .at h.blocks.length 0)
      (h := { h.push e m with words := Function.update h.words (.at h.blocks.length 0) (fc.add 1) })
    constructor
    · rintro ⟨r, h', ran, -, given⟩
      refine ⟨?_, .inl small⟩
      by_contra wraps
      have tiny : m.toNat < 8 := by
        have lt := n.toNat_lt
        rw [← nonzero]
        split_ifs
        · omega
        · decide
      rw [run] at ran
      split_ifs at ran with holds
      obtain ⟨rfl, rfl⟩ := Prod.mk.inj (Option.some.inj ran)
      obtain there | ⟨k, is, -⟩ := given
      · replace there := (holds_congr blocks).symm.trans there
        have room := e.room_lt m.toNat
        simp only [Heap.holds, Heap.push, Ptr.add, getElem?_concat_length, Option.any_some, Bool.true_and,
          decide_eq_true_eq] at there
        omega
      · exact absurd (is.symm.trans asked) (cons_ne_self _ _)
    · rintro ⟨fits, -⟩
      have whole : 8 + n.toNat ≤ (n + 8).toNat := by omega
      have holds : (h.push e m).holds (.at h.blocks.length 0) (8 + n.toNat) := holds_push (Nat.le_trans whole le)
      rw [holds_add, Bool.and_eq_true] at holds
      rw [if_pos holds.1] at run
      exact ⟨_, _, run, congrArg _ uncollectable, .inl ((holds_congr blocks).trans holds.2)⟩
  · rw [eq] at run
    dsimp only at run
    obtain ⟨blocks, -, uncollectable, asked⟩ := registerFinalizer_spec (p := oomResult e (n + 8))
      (h := { h.ask (n + 8) with words := Function.update h.words (oomResult e (n + 8)) (fc.add 1) })
    have fits : n.toNat + 8 < 2 ^ 64 := by
      by_contra wraps
      have lt := n.toNat_lt
      refine big (UInt64.le_iff_toNat_le.2 (Nat.le_trans (?_ : _ ≤ 8) (by decide)))
      omega
    have covered : Covered e h (n + 8) (n.toNat + 8) ↔
        (h.holds (oomResult e (n + 8)) 8 && h.holds ((oomResult e (n + 8)).add 8) n.toNat) = true := by
      rw [← holds_add, Nat.add_comm 8]
      exact ⟨fun covered => covered.resolve_left big, .inr⟩
    rw [and_iff_right fits, covered, Bool.and_eq_true]
    have first : (h.ask (n + 8)).holds (oomResult e (n + 8)) 8 = h.holds (oomResult e (n + 8)) 8 := holds_congr rfl
    rw [first] at run
    constructor
    · rintro ⟨r, h', ran, -, given⟩
      rw [run] at ran
      split_ifs at ran with holds
      obtain ⟨rfl, rfl⟩ := Prod.mk.inj (Option.some.inj ran)
      refine ⟨holds, ?_⟩
      obtain there | ⟨k, is, same⟩ := given
      · exact (holds_congr blocks).symm.trans there
      · -- The out-of-memory function gave the base, not the address after its first word.
        obtain ⟨rfl, -⟩ := List.cons.inj (is.symm.trans asked)
        exact absurd same (add_ne (Nat.succ_pos 7) (holds_ne_null holds))
    · rintro ⟨holds, rest⟩
      rw [if_pos holds] at run
      exact ⟨_, _, run, congrArg _ uncollectable, .inl ((holds_congr blocks).trans rest)⟩

/-! ### Lists of objects -/

theorem Linked.congr {words words' : Ptr → Ptr} {ps : List Ptr} (linked : Linked words p ps)
    (same : ∀ q ∈ ps, words' q = words q) : Linked words' p ps := by
  induction linked with
  | nil => exact .nil
  | cons rest ih =>
    refine .cons ?_
    rw [same _ mem_cons_self]
    exact ih fun q mem => same q (mem_cons_of_mem _ mem)

/-- What `GC_generic_malloc` does after the allocation changes tables only. -/
theorem genericMalloc_alloc (k : Int) : (genericMalloc e n k h).1 = (allocNormal e n h).1 ∧
    (genericMalloc e n k h).2.blocks = (allocNormal e n h).2.blocks ∧
    (genericMalloc e n k h).2.asked = (allocNormal e n h).2.asked := by
  rw [genericMalloc, allocUncollectable]
  by_cases special : k = 2 || k = 3
  · rw [if_pos special]
    exact ⟨rfl, rfl, rfl⟩
  · rw [if_neg special]
    dsimp only
    split_ifs
    · exact ⟨rfl, registerFinalizer_spec.1, registerFinalizer_spec.2.2.2⟩
    · exact ⟨rfl, rfl, rfl⟩

theorem holds_lt {o off : Nat} (holds : h.holds (.at o off) bytes) : o < h.blocks.length := by
  obtain ⟨b, there, -⟩ := (Option.any_eq_true _ _).1 holds
  exact (List.getElem?_eq_some_iff.1 there).1

theorem holds_old {m : UInt64} (holds : h.holds p bytes) : (h.push e m).holds p bytes := by
  cases p with
  | null => exact holds
  | «at» o off =>
    rw [Heap.holds, Heap.push, getElem?_append_left (holds_lt holds)]
    exact holds

/-- What the loop links holds the bytes, and what it linked before stays. -/
theorem mallocMany_small (small : (if n < 8 then 8 else n) ≤ FUGC_MAX_ALLOC) (k : Int) (count : Nat) {head : Ptr} {ps : List Ptr}
    (linked : Linked h.words head ps) (all : ∀ q ∈ ps, h.holds q n.toNat) :
    ∃ p h' new, mallocMany e n k count head h = some (p, h') ∧ Linked h'.words p (new ++ ps) ∧ new.length = count ∧
      (∀ q ∈ new ++ ps, h'.holds q n.toNat) ∧ h'.uncollectable.count .null = h.uncollectable.count .null := by
  induction count generalizing head h ps with
  | zero => exact ⟨head, h, [], rfl, linked, rfl, all, rfl⟩
  | succ count ih =>
    obtain ⟨word, le, -⟩ := first_word (e := e) (h := h) (n := n)
    rw [mallocMany]
    generalize (if n < 8 then 8 else n) = m at small word le ⊢
    obtain ⟨same, blocks, -⟩ := genericMalloc_alloc (e := e) (h := h) (n := m) k
    obtain ⟨-, words, kept⟩ := genericMalloc_spec (e := e) (h := h) (n := m) k
    obtain ⟨-, eq⟩ | ⟨big, -⟩ := allocNormal_cases e m h
    swap
    · exact absurd small big
    rw [eq] at same blocks
    generalize genericMalloc e m k h = got at same blocks words kept ⊢
    obtain ⟨p, h1⟩ := got
    obtain rfl : p = _ := same
    dsimp only at blocks words kept ⊢
    have holds : h1.holds (.at h.blocks.length 0) m.toNat := (holds_congr blocks).trans (holds_push le_nonzero)
    rw [store, if_pos (holds_mono word holds)]
    have fresh : ∀ q ∈ ps, q ≠ .at h.blocks.length 0 := by
      rintro q mem rfl
      exact Nat.lt_irrefl _ (holds_lt (all _ mem))
    have linked' : Linked (Function.update h1.words (.at h.blocks.length 0) head) (.at h.blocks.length 0)
        (.at h.blocks.length 0 :: ps) := by
      refine .cons ?_
      rw [Function.update_self, words]
      exact linked.congr fun q mem => Function.update_of_ne (fresh q mem) _ _
    have all' : ∀ q ∈ .at h.blocks.length 0 :: ps,
        Heap.holds { h1 with words := Function.update h1.words (.at h.blocks.length 0) head } q n.toNat := by
      refine forall_mem_cons.2 ⟨(holds_congr rfl).trans (holds_mono le holds), fun q mem => ?_⟩
      exact (holds_congr blocks).trans (holds_old (all q mem))
    obtain ⟨p, h', new, ran, links, length, both, count_⟩ := ih linked' all'
    refine ⟨p, h', new ++ [.at h.blocks.length 0], ran, ?_, by simp [length], ?_, count_.trans (kept.2 fun _ => .inl small)⟩
    · rw [append_assoc]
      exact links
    · rw [append_assoc]
      exact both

theorem good_many {k : Int} : Call.Good e h (.genericMallocMany n k) ↔ Covered e h n 8 := by
  obtain ⟨word, le, covered⟩ := first_word (e := e) (h := h) (n := n)
  by_cases small : (if n < 8 then 8 else n) ≤ FUGC_MAX_ALLOC
  · refine iff_of_true ?_ (covered.1 (.inl small))
    obtain ⟨p, h', new, ran, links, length, all, count⟩ := mallocMany_small (e := e) (h := h) small k (manyCount n)
      (.nil : Linked h.words .null []) nofun
    have run : Call.run e h (.genericMallocMany n k) = some (.pointer p, h') := by
      rw [Call.run, genericMallocMany, ran]
      rfl
    refine ⟨_, _, run, count, .inl ⟨new ++ [], ?_, links, all⟩⟩
    have pos : 0 < manyCount n := by
      refine Nat.lt_min.2 ⟨?_, by decide⟩
      split_ifs with large some_
      · exact Nat.one_pos
      · have lt : n.toNat < 1024 := UInt64.lt_iff_toNat_lt.1 (UInt64.not_le.1 large)
        exact Nat.div_pos (Nat.le_of_lt lt) (Nat.pos_of_ne_zero fun zero => some_ (UInt64.toNat_inj.1 zero))
      · decide
    rw [append_nil, ← length_pos_iff, length]
    exact pos
  · have large : ¬n < 8 := fun lt => by
      rw [if_pos lt] at small
      exact small (by decide)
    rw [if_neg large] at small
    have once : manyCount n = 1 := by
      have ge : n ≥ 1024 := UInt64.le_iff_toNat_le.2 (Nat.le_trans (by decide : _ ≤ FUGC_MAX_ALLOC.toNat)
        (Nat.le_of_lt (UInt64.lt_iff_toNat_lt.1 (UInt64.not_le.1 small))))
      rw [manyCount, if_pos ge]
      decide
    obtain ⟨same, blocks, asked⟩ := genericMalloc_alloc (e := e) (h := h) (n := n) k
    obtain ⟨-, -, kept⟩ := genericMalloc_spec (e := e) (h := h) (n := n) k
    obtain ⟨fits, -⟩ | ⟨-, eq⟩ := allocNormal_cases e n h
    · exact absurd fits small
    rw [eq] at same blocks asked
    have run : Call.run e h (.genericMallocMany n k) = if (genericMalloc e n k h).2.holds (genericMalloc e n k h).1 8 then
        some (.pointer (genericMalloc e n k h).1, { (genericMalloc e n k h).2 with
          words := Function.update (genericMalloc e n k h).2.words (genericMalloc e n k h).1 .null }) else none := by
      show (genericMallocMany e n k h).map pointer = _
      simp only [genericMallocMany, once, mallocMany, if_neg large, store]
      split_ifs <;> rfl
    have short : (genericMalloc e n k h).2.holds (genericMalloc e n k h).1 8 = h.holds (oomResult e n) 8 := by
      rw [same]
      exact holds_congr blocks
    rw [short] at run
    constructor
    · rintro ⟨r, h', ran, -⟩
      rw [run] at ran
      split_ifs at ran with holds
      exact .inr holds
    · intro covers
      have holds := covers.resolve_left small
      rw [if_pos holds] at run
      exact ⟨_, _, run, kept.2 fun _ => .inr (holds_ne_null holds), .inr ⟨n, asked, same⟩⟩

/-! ### Every entry point -/

/-- The defaults: objects of whole 16 bytes, `default_oom_fn`, no disclaim procedure. -/
def defaults : Env where
  room n := (n + 15) / 16 * 16
  le_room n := by omega
  room_lt n := by omega
  oomFn := some fun _ => .null
  disclaimProcs _ := false

def Heap.empty : Heap := ⟨[], fun _ => .null, [], [], []⟩

end

end Nanofil.Boehm.Allocation
