import Nanofil.Switching.Dispatch

/-! Case labels: the values they match, and the check that no value has two. -/
namespace Nanofil.Switching
open List Option

/-! ### Intervals -/

section
variable {ps : List (Int × Int)}

/-- Intervals with no common value. -/
def Disjoint (p q : Int × Int) : Prop := ∀ v, ¬ ((p.1 ≤ v ∧ v ≤ p.2) ∧ q.1 ≤ v ∧ v ≤ q.2)

theorem adjacent_none (proper : ∀ p ∈ ps, p.1 ≤ p.2) : adjacent ps = none ↔ ps.Pairwise fun p q => p.2 < q.1 := by
  induction ps with
  | nil => simp [adjacent]
  | cons p rest ih =>
    have proper' : ∀ p ∈ rest, p.1 ≤ p.2 := fun p mem => proper p (mem_cons_of_mem _ mem)
    cases rest with
    | nil => simp [adjacent]
    | cons q rest =>
      rw [pairwise_cons, ← ih proper', adjacent]
      split
      case isTrue overlap =>
        constructor
        · intro none
          cases none
        · intro ⟨first, _⟩
          have before := first q mem_cons_self
          omega
      case isFalse before =>
        refine ⟨fun none => ⟨fun r mem => ?_, none⟩, And.right⟩
        have next : r = q ∨ q.2 < r.1 := by
          rcases mem_cons.1 mem with rfl | mem
          · exact .inl rfl
          · exact .inr (rel_of_pairwise_cons ((ih proper').1 none) mem)
        have bounds := proper' q mem_cons_self
        rcases next with rfl | next <;> omega

/-- In a sorted list, intervals are disjoint when each ends before the next begins. -/
theorem pairwise_disjoint (sorted : ps.Pairwise fun p q => p.1 ≤ q.1) (proper : ∀ p ∈ ps, p.1 ≤ p.2) :
    (ps.Pairwise fun p q => p.2 < q.1) ↔ ps.Pairwise Disjoint := by
  constructor
  · exact .imp fun before v both => by omega
  · intro disjoint
    refine (disjoint.and sorted).imp_of_mem fun {p q} _ memQ both => ?_
    have bounds := proper q memQ
    have apart := both.1 q.1
    have order := both.2
    omega

theorem Disjoint.symm {p q : Int × Int} (disjoint : Disjoint p q) : Disjoint q p := fun v both => disjoint v both.symm

theorem termLe_sorted : (ps.mergeSort termLe).Pairwise fun p q => p.1 ≤ q.1 := by
  have trans : ∀ a b c : Int × Int, termLe a b = true → termLe b c = true → termLe a c = true := by
    simp only [termLe, Bool.or_eq_true, Bool.and_eq_true, decide_eq_true_eq]
    omega
  have total : ∀ a b : Int × Int, (termLe a b || termLe b a) = true := by
    simp only [termLe, Bool.or_eq_true, Bool.and_eq_true, decide_eq_true_eq]
    omega
  refine (pairwise_mergeSort trans total ps).imp fun {p q} le => ?_
  simp only [termLe, Bool.or_eq_true, Bool.and_eq_true, decide_eq_true_eq] at le
  omega

/-- The check of neighbours finds an overlap when two intervals have one. -/
theorem adjacent_sorted (proper : ∀ p ∈ ps, p.1 ≤ p.2) : adjacent (ps.mergeSort termLe) = none ↔ ps.Pairwise Disjoint := by
  have perm := mergeSort_perm ps termLe
  have proper' : ∀ p ∈ ps.mergeSort termLe, p.1 ≤ p.2 := fun p mem => proper p (perm.mem_iff.1 mem)
  rw [adjacent_none proper', pairwise_disjoint termLe_sorted proper', perm.pairwise_iff .symm]

end

/-! ### Entries of a switch -/

def Case.pair (ty : IntType) : Case → Option (Int × Aim)
  | .case v l => some (convertInt v ty, .at l)
  | .range lo hi l => some (convertInt lo ty, .to (convertInt hi ty) l)
  | .default _ => none

/-- A range's bounds are in order and of the type. -/
def Case.Sound (ty : IntType) : Case → Prop
  | .range lo hi _ => lo ≤ hi ∧ InRange ty lo ∧ InRange ty hi
  | _ => True

/-- No value is of both pairs. -/
def Apart (p q : Int × Aim) : Prop := ∀ v, ¬ (covers p v = true ∧ covers q v = true)

section
variable {ty : IntType} {cases : List Case} {c : Case} {p : Int × Aim}

theorem casePairs_perm : (casePairs ty cases).Perm (cases.filterMap (·.pair ty)) := by
  induction cases with
  | nil => exact .refl _
  | cons c cases ih =>
    cases c with
    | case v l => exact ih.cons _
    | range lo hi l => exact perm_middle.trans (ih.cons _)
    | default l => exact ih

theorem Case.Sound.fits (wide : Promoted ty) (sound : c.Sound ty) (is : c.pair ty = some p) : Fits ty p := by
  cases c with
  | case v l =>
    cases is
    exact ⟨(convertInt_range wide).1, fun _ _ same => nomatch same⟩
  | range lo hi l =>
    obtain ⟨le, inLo, inHi⟩ := sound
    cases is
    refine ⟨(convertInt_range wide).1, fun _ _ same => ?_⟩
    cases same
    exact ⟨(convertInt_range wide).1, by simp only [(convertInt_self wide).2 inLo, (convertInt_self wide).2 inHi, le]⟩
  | default l => cases is

theorem fits_casePairs (wide : Promoted ty) (sound : ∀ c ∈ cases, c.Sound ty) : ∀ p ∈ casePairs ty cases, Fits ty p := by
  intro p mem
  obtain ⟨c, memC, is⟩ := mem_filterMap.1 (casePairs_perm.mem_iff.1 mem)
  exact (sound c memC).fits wide is

theorem caseIntervals_eq (wide : Promoted ty) (sound : ∀ c ∈ cases, c.Sound ty) :
    caseIntervals ty cases = (casePairs ty cases).map fun p => (p.1, last p) := by
  rw [caseIntervals, casePairs, map_append, map_filterMap, map_filterMap]
  congr 1
  · refine filterMap_congr fun c _ => ?_
    cases c <;> rfl
  · refine filterMap_congr fun c mem => ?_
    cases c with
    | range lo hi l =>
      obtain ⟨-, inLo, inHi⟩ := sound _ mem
      simp only [map_some, last, (convertInt_self wide).2 inLo, (convertInt_self wide).2 inHi]
    | case v l => rfl
    | default l => rfl

theorem disjoint_iff {q : Int × Aim} (fitsP : Fits ty p) (fitsQ : Fits ty q) :
    Disjoint (p.1, last p) (q.1, last q) ↔ Apart p q := by
  simp only [Disjoint, Apart, covers_iff fitsP, covers_iff fitsQ]

/-- A switch whose ranges fit is refused when two pairs have a common value. -/
theorem distinctCases_sound (wide : Promoted ty) (sound : ∀ c ∈ cases, c.Sound ty) :
    (distinctCases cases ty = .ok () ∧ (cases.filterMap (·.pair ty)).Pairwise Apart) ∨
      (∃ v, distinctCases cases ty = .error (.duplicate v)) ∧ ¬ (cases.filterMap (·.pair ty)).Pairwise Apart := by
  have fits := fits_casePairs wide sound
  have fit : cases.findSome? (unfit ty) = none := by
    refine findSome?_eq_none_iff.2 fun c mem => ?_
    cases c with
    | range lo hi l =>
      obtain ⟨-, inLo, inHi⟩ := sound _ mem
      exact if_pos ⟨(convertInt_self wide).2 inLo, (convertInt_self wide).2 inHi⟩
    | case v l => rfl
    | default l => rfl
  have proper : ∀ p ∈ caseIntervals ty cases, p.1 ≤ p.2 := by
    intro p mem
    rw [caseIntervals_eq wide sound] at mem
    obtain ⟨q, memQ, rfl⟩ := List.mem_map.1 mem
    exact first_le_last (fits q memQ)
  have apart : adjacent ((caseIntervals ty cases).mergeSort termLe) = none ↔ (cases.filterMap (·.pair ty)).Pairwise Apart := by
    rw [adjacent_sorted proper, caseIntervals_eq wide sound, pairwise_map, ← casePairs_perm.pairwise_iff]
    · exact List.Pairwise.iff_of_mem fun {p q} memP memQ => disjoint_iff (fits p memP) (fits q memQ)
    · exact fun {p q} apart v both => apart v both.symm
  rw [distinctCases, fit]
  cases found : adjacent ((caseIntervals ty cases).mergeSort termLe) with
  | none => exact .inl ⟨rfl, apart.1 found⟩
  | some v =>
    refine .inr ⟨⟨v, rfl⟩, fun all => ?_⟩
    rw [apart.2 all] at found
    cases found

end

/-! ### Labels -/

/-- The values that a case's constants give its promoted type. -/
def CaseLabel.Matches (ty : IntType) (v : Int) : CaseLabel → Prop
  | .value w => convertInt w ty = v
  | .range lo hi => ∃ x, lo ≤ x ∧ x ≤ hi ∧ convertInt x ty = v

/-- A range that stays an interval has bounds of the type. -/
def CaseLabel.Fits (ty : IntType) : CaseLabel → Prop
  | .value _ => True
  | .range lo hi => hi - lo ≥ 4096 → InRange ty lo ∧ InRange ty hi

/-- A label of a switch: a case's or the default. -/
inductive Own
  | case (e : CaseLabel)
  | default

def Own.entries : Own × Name → List Case
  | (.case e, l) => caseEntries l e
  | (.default, l) => [.default l]

def Own.Matches (ty : IntType) (v : Int) : Own → Prop
  | .case e => e.Matches ty v
  | .default => False

def Own.Fits (ty : IntType) : Own → Prop
  | .case e => e.Fits ty
  | .default => True

def Own.pairs (ty : IntType) (o : Own × Name) : List (Int × Aim) := (Own.entries o).filterMap (·.pair ty)

section
variable {ty : IntType} {o : Own} {e : CaseLabel} {l : Name} {c : Case} {p : Int × Aim} {lo hi v x : Int}

theorem caseEntries_small (small : ¬ hi - lo ≥ 4096) :
    Own.pairs ty (.case (.range lo hi), l) =
      (List.range (hi - lo + 1).toNat).map fun (i : Nat) => (convertInt (lo + i) ty, Aim.at l) := by
  rw [Own.pairs, Own.entries, caseEntries, if_neg small]
  split
  case isTrue empty =>
    have none : (hi - lo + 1).toNat = 0 := by omega
    rw [none]
    rfl
  case isFalse =>
    rw [filterMap_map]
    exact congrFun filterMap_eq_map _

theorem caseEntries_large (large : hi - lo ≥ 4096) :
    Own.pairs ty (.case (.range lo hi), l) = [(convertInt lo ty, .to (convertInt hi ty) l)] := by
  rw [Own.pairs, Own.entries, caseEntries, if_pos large]
  rfl

theorem pairs_label (mem : p ∈ Own.pairs ty (o, l)) : p.2.label = l := by
  rcases o with (w | ⟨lo, hi⟩) | _
  · cases mem_singleton.1 mem
    rfl
  · by_cases large : hi - lo ≥ 4096
    · rw [caseEntries_large large] at mem
      cases mem_singleton.1 mem
      rfl
    · rw [caseEntries_small large] at mem
      obtain ⟨i, -, rfl⟩ := List.mem_map.1 mem
      rfl
  · cases mem

/-- A range that is expanded is shorter than any type, so its values stay different. -/
theorem pairs_apart (wide : Promoted ty) : (Own.pairs ty (o, l)).Pairwise Apart := by
  rcases o with (w | ⟨lo, hi⟩) | _
  · exact pairwise_singleton _ _
  · by_cases large : hi - lo ≥ 4096
    · rw [caseEntries_large large]
      exact pairwise_singleton _ _
    · rw [caseEntries_small large, pairwise_map]
      refine pairwise_lt_range.imp_of_mem fun {i j} _ memJ less v both => ?_
      simp only [covers, decide_eq_true_eq] at both
      have wordI := (convertInt_range (v := lo + i) wide).2
      have wordJ := (convertInt_range (v := lo + j) wide).2
      rw [both.1.symm.trans both.2, wordJ] at wordI
      have bound := mem_range.1 memJ
      rcases wide.span_eq with eq | eq <;> rw [eq] at wordI <;> omega
  · exact .nil

theorem pairs_cover (wide : Promoted ty) (fits : o.Fits ty) : (∃ p ∈ Own.pairs ty (o, l), covers p v = true) ↔ o.Matches ty v := by
  rcases o with (w | ⟨lo, hi⟩) | _
  · show (∃ p ∈ [(convertInt w ty, Aim.at l)], covers p v = true) ↔ convertInt w ty = v
    simp only [mem_singleton, exists_eq_left, covers, decide_eq_true_eq]
    exact eq_comm
  · show _ ↔ ∃ x, lo ≤ x ∧ x ≤ hi ∧ convertInt x ty = v
    by_cases large : hi - lo ≥ 4096
    · obtain ⟨inLo, inHi⟩ := fits large
      have self (x : Int) (between : lo ≤ x ∧ x ≤ hi) : convertInt x ty = x := by
        rw [convertInt_self wide]
        exact ⟨Int.le_trans inLo.1 between.1, Int.lt_of_le_of_lt between.2 inHi.2⟩
      rw [caseEntries_large large]
      simp only [mem_singleton, exists_eq_left, covers, decide_eq_true_eq, (convertInt_self wide).2 inLo,
        (convertInt_self wide).2 inHi]
      constructor
      · intro between
        exact ⟨v, between.1, between.2, self v between⟩
      · rintro ⟨x, le, ge, rfl⟩
        rw [self x ⟨le, ge⟩]
        exact ⟨le, ge⟩
    · rw [caseEntries_small large]
      simp only [List.mem_map, mem_range, exists_exists_and_eq_and, covers, decide_eq_true_eq]
      constructor
      · rintro ⟨i, bound, rfl⟩
        exact ⟨lo + i, by omega, by omega, rfl⟩
      · rintro ⟨x, le, ge, rfl⟩
        refine ⟨(x - lo).toNat, by omega, ?_⟩
        rw [Int.toNat_of_nonneg (by omega), show lo + (x - lo) = x by omega]
  · refine ⟨?_, False.elim⟩
    rintro ⟨p, mem, -⟩
    cases mem

theorem entries_sound (fits : o.Fits ty) (mem : c ∈ Own.entries (o, l)) : c.Sound ty := by
  rcases o with (w | ⟨lo, hi⟩) | _
  · cases mem_singleton.1 mem
    trivial
  · rw [Own.entries, caseEntries] at mem
    split at mem
    case isTrue large =>
      cases mem_singleton.1 mem
      exact ⟨by omega, fits large⟩
    case isFalse =>
      split at mem
      case isTrue => cases mem
      case isFalse =>
        obtain ⟨i, -, rfl⟩ := List.mem_map.1 mem
        trivial
  · cases mem_singleton.1 mem
    trivial

theorem entries_unfit (wide : Promoted ty) (unfits : ¬ o.Fits ty) :
    ∃ c ∈ Own.entries (o, l), ∃ lo hi, unfit ty c = some (.rangeDoesNotFit lo hi) := by
  rcases o with (w | ⟨lo, hi⟩) | _
  · exact absurd trivial unfits
  · have large : hi - lo ≥ 4096 := by
      by_contra small
      exact unfits fun large => absurd large small
    have outside : ¬ (convertInt lo ty = lo ∧ convertInt hi ty = hi) := by
      rw [convertInt_self wide, convertInt_self wide]
      exact fun inside => unfits fun _ => inside
    refine ⟨.range lo hi l, ?_, lo, hi, if_neg outside⟩
    rw [Own.entries, caseEntries, if_pos large]
    exact mem_singleton_self _
  · exact absurd trivial unfits

end

/-! ### Dispatch to the labels -/

def AllFit (ty : IntType) (labels : List Own) : Prop := ∀ o ∈ labels, o.Fits ty

/-- No value has two labels of its own. -/
def OneEach (ty : IntType) (labels : List Own) : Prop :=
  labels.Pairwise fun a b => ∀ v, ¬ (a.Matches ty v ∧ b.Matches ty v)

section
variable {ty : IntType} {labelled : List (Own × Name)} {pairs others : List (Int × Aim)} {p : Int × Aim} {v : Int}

theorem flatMap_pairs : (labelled.flatMap Own.entries).filterMap (·.pair ty) = labelled.flatMap (Own.pairs ty) :=
  filterMap_flatMap

theorem apart_iff (wide : Promoted ty) (fits : AllFit ty (labelled.map Prod.fst)) :
    (labelled.flatMap (Own.pairs ty)).Pairwise Apart ↔ OneEach ty (labelled.map Prod.fst) := by
  have own (q : Own × Name) (mem : q ∈ labelled) : q.1.Fits ty := fits q.1 (List.mem_map_of_mem mem)
  rw [pairwise_flatMap, OneEach, pairwise_map]
  constructor
  · rintro ⟨-, apart⟩
    refine apart.imp_of_mem fun {a b} memA memB apart v both => ?_
    obtain ⟨p, memP, coversP⟩ := (pairs_cover (l := a.2) wide (own a memA)).2 both.1
    obtain ⟨q, memQ, coversQ⟩ := (pairs_cover (l := b.2) wide (own b memB)).2 both.2
    exact apart p memP q memQ v ⟨coversP, coversQ⟩
  · intro one
    refine ⟨fun q _ => pairs_apart wide, one.imp_of_mem fun {a b} memA memB none p memP q memQ v both => ?_⟩
    exact none v ⟨(pairs_cover wide (own a memA)).1 ⟨p, memP, both.1⟩, (pairs_cover wide (own b memB)).1 ⟨q, memQ, both.2⟩⟩

/-- What the check of a switch's labels says of them. -/
theorem distinctCases_labels (wide : Promoted ty) :
    (distinctCases (labelled.flatMap Own.entries) ty = .ok () ↔
      AllFit ty (labelled.map Prod.fst) ∧ OneEach ty (labelled.map Prod.fst)) ∧
    ((∃ v, distinctCases (labelled.flatMap Own.entries) ty = .error (.duplicate v)) ↔
      AllFit ty (labelled.map Prod.fst) ∧ ¬ OneEach ty (labelled.map Prod.fst)) := by
  by_cases fits : AllFit ty (labelled.map Prod.fst)
  case pos =>
    have sound : ∀ c ∈ labelled.flatMap Own.entries, c.Sound ty := by
      intro c mem
      obtain ⟨q, memQ, memC⟩ := mem_flatMap.1 mem
      exact entries_sound (fits q.1 (List.mem_map_of_mem memQ)) memC
    rw [← apart_iff wide fits, ← flatMap_pairs]
    rcases distinctCases_sound wide sound with ⟨ok, apart⟩ | ⟨⟨v, error⟩, both⟩
    · simp [ok, fits, apart]
    · simp [error, fits, both]
  case neg =>
    obtain ⟨o, memO, unfits⟩ : ∃ o ∈ labelled.map Prod.fst, ¬ o.Fits ty := by
      simpa only [AllFit, not_forall, exists_prop] using fits
    obtain ⟨q, memQ, rfl⟩ := List.mem_map.1 memO
    obtain ⟨c, memC, lo, hi, unfitC⟩ := entries_unfit (l := q.2) wide unfits
    have refused : ∃ lo hi, distinctCases (labelled.flatMap Own.entries) ty = .error (.rangeDoesNotFit lo hi) := by
      rw [distinctCases]
      cases found : (labelled.flatMap Own.entries).findSome? (unfit ty) with
      | none =>
        have fit := findSome?_eq_none_iff.1 found c (mem_flatMap.2 ⟨q, memQ, memC⟩)
        rw [unfitC] at fit
        cases fit
      | some error =>
        obtain ⟨c', -, is⟩ := exists_of_findSome?_eq_some found
        cases c' with
        | range lo hi l =>
          rw [unfit] at is
          split at is <;> cases is
          exact ⟨lo, hi, rfl⟩
        | case v l => cases is
        | default l => cases is
    obtain ⟨lo, hi, error⟩ := refused
    simp [error, fits]

theorem hit_of_mem (apart : pairs.Pairwise Apart) (mem : p ∈ pairs) (covered : covers p v = true) :
    hit pairs v = some p.2.label := by
  induction pairs with
  | nil => cases mem
  | cons q pairs ih =>
    rw [hit_cons]
    rcases mem_cons.1 mem with rfl | mem
    · rw [if_pos covered]
    · have other : ¬ covers q v = true := fun both => rel_of_pairwise_cons apart mem v ⟨both, covered⟩
      rw [if_neg other, ih apart.tail mem]

theorem hit_perm (perm : pairs.Perm others) (apart : pairs.Pairwise Apart) : hit pairs v = hit others v := by
  have apart' : others.Pairwise Apart := (perm.pairwise_iff fun {p q} apart v both => apart v both.symm).1 apart
  by_cases some : ∃ p ∈ pairs, covers p v = true
  case pos =>
    obtain ⟨p, mem, covered⟩ := some
    rw [hit_of_mem apart mem covered, hit_of_mem apart' (perm.mem_iff.1 mem) covered]
  case neg =>
    have never : ∀ p ∈ pairs, covers p v = false := fun p mem => Bool.eq_false_iff.2 fun covered => some ⟨p, mem, covered⟩
    rw [hit_none never, hit_none fun p mem => never p (perm.mem_iff.2 mem)]

/-- Pairs apart, in the order of their first values, follow one another. -/
theorem ordered_keysort (fits : ∀ p ∈ pairs, Fits ty p) (apart : pairs.Pairwise Apart) : Ordered (keysort pairs) := by
  have perm : (keysort pairs).Perm pairs := mergeSort_perm _ _
  have sorted : (keysort pairs).Pairwise fun p q => p.1 ≤ q.1 := by
    refine (pairwise_mergeSort ?_ ?_ pairs).imp fun {p q} le => of_decide_eq_true le
    · simp only [decide_eq_true_eq]
      omega
    · simp only [Bool.or_eq_true, decide_eq_true_eq]
      omega
  have apart' : (keysort pairs).Pairwise Apart := (perm.pairwise_iff fun {p q} apart v both => apart v both.symm).2 apart
  refine (apart'.and sorted).imp_of_mem fun {p q} memP memQ both => ?_
  have fitsP := fits p (perm.mem_iff.1 memP)
  have fitsQ := fits q (perm.mem_iff.1 memQ)
  have bounds := first_le_last fitsQ
  have order := both.2
  have common := both.1 q.1
  rw [covers_iff fitsP, covers_iff fitsQ] at common
  omega

end

end Nanofil.Switching
