import Nanofil.Chains

/-! Why a proof's operands are enough: an access inside a checked span is inside its
object, and each reused check is the full check at the address it stands for. -/
namespace Nanofil
open Results Residues

/-- The span of a check is inside its object, or the object was freed. -/
def Inside (mem : Mem) (a : Int) (c : Cap) (lo hi : Int) : Prop :=
  ∃ base r, capBase c = some base ∧ objectRegion base mem.regions = .ok r ∧
    (r.life = .freed ∨ inBounds r (rawAddress a lo) (hi - lo))

def AlignedIn (mem : Mem) (a : Int) (c : Cap) (lo align : Int) : Prop :=
  ∀ base r, capBase c = some base → objectRegion base mem.regions = .ok r → r.life ≠ .freed →
    rawAddress a lo % align = 0

variable {base a al align hi lo a1 al1 d hi1 lo1 : Int} {r : Region} {c : Cap} {rights : Rights}

/-- What the object of a capability gives arithmetic to work with. -/
theorem object_bounds {mem : Mem} (ok : RegionsOk mem) (found : objectRegion base mem.regions = .ok r) :
    0 ≤ base ∧ base ≤ r.end_ ∧ r.end_ ≤ 281474976710656 ∧ r.base = base ∧ (r.life = .freed → r.end_ = base) := by
  obtain ⟨mem_r, rfl⟩ := objectRegion_mem found
  have bounds := ok.bounds r mem_r
  exact ⟨bounds.1, bounds.2.1, bounds.2.2.1, rfl, fun life => ok.freed r mem_r life⟩

theorem same_object {mem : Mem} {base' : Int} {r' : Region} (based : capBase c = some base)
    (found : objectRegion base mem.regions = .ok r) (based' : capBase c = some base')
    (found' : objectRegion base' mem.regions = .ok r') : base' = base ∧ r' = r := by
  rw [based] at based'
  cases based'
  rw [found] at found'
  cases found'
  exact ⟨rfl, rfl⟩

/-! ### Accesses -/

theorem emod_add_of_emod {x : Int} (aligned : a % al = 0) (shift : x % al = 0) : (a + x) % al = 0 :=
  Int.emod_eq_zero_of_dvd (Int.dvd_add (Int.dvd_of_emod_eq_zero aligned) (Int.dvd_of_emod_eq_zero shift))

theorem emod_of_emod (aligned : a % align = 0) (divides : align % al = 0) : a % al = 0 :=
  Int.emod_eq_zero_of_dvd ((Int.dvd_of_emod_eq_zero divides).trans (Int.dvd_of_emod_eq_zero aligned))

/-- An access within a span that passes its check passes its own. -/
theorem covered_access {mem : Mem} {off size : Int} {need : Rights}
    (ok : RegionsOk mem) (passes : spanAccess mem a c lo hi rights align = .ok .ok) (low : lo ≤ off)
    (high : off + size ≤ hi) (nonneg : 0 ≤ size) (divides : align % al = 0) (shift : (off - lo) % al = 0)
    (allow : rightsAllow rights need = true) :
    accessRes mem (rawAddress a off) c size need al = .ok .ok := by
  obtain ⟨base, r, based, found, inside, aligned, writable⟩ := accessRes_ok.1 passes
  have bounds := object_bounds ok found
  simp only [inBounds] at inside
  have exact : rawAddress a off = rawAddress a lo + (off - lo) := by
    simp only [rawAddress] at inside ⊢
    omega
  refine accessRes_ok.2 ⟨base, r, based, found, ?_, ?_, ?_⟩
  · rw [exact, inBounds]
    omega
  · rw [exact]
    exact emod_add_of_emod (emod_of_emod aligned divides) shift
  · intro write
    subst write
    simp only [rightsAllow, Bool.or_eq_true, decide_eq_true_eq, reduceCtorEq, or_false] at allow
    exact writable allow

/-- A test at an alignment passes at each that divides it. -/
theorem accessRes_align {mem : Mem} {size : Int} {kind : Rights}
    (passes : accessRes mem a c size kind align = .ok .ok) (divides : align % al = 0) :
    accessRes mem a c size kind al = .ok .ok := by
  obtain ⟨base, r, based, found, inside, aligned, writable⟩ := accessRes_ok.1 passes
  exact accessRes_ok.2 ⟨base, r, based, found, inside, emod_of_emod aligned divides, writable⟩

theorem spanAccess_exists {mem : Mem} (based : capBase c = some base)
    (found : objectRegion base mem.regions = .ok r) (a lo hi : Int) (rights : Rights) (align : Int) :
    ∃ res, spanAccess mem a c lo hi rights align = .ok res := by
  cases c <;> cases based <;> simp [spanAccess, accessRes, capAccessRes, found]

/-! ### Renewals -/

/-- A renewal of a span that is inside its object is the check of that span. -/
theorem renewOpRes_check {mem : Mem} (ok : RegionsOk mem)
    (inside : Inside mem a c lo hi) (aligned : AlignedIn mem a c lo align) (span : lo < hi) :
    renewOpRes mem a c lo hi rights align = checkRes mem a c lo hi rights align := by
  obtain ⟨base, r, based, found, inside⟩ := inside
  obtain ⟨res, access⟩ := spanAccess_exists based found a lo hi rights align
  have bounds := object_bounds ok found
  simp only [renewOpRes, checkRes, access, bind, Except.bind]
  cases res with
  | ok => rfl
  | trap why =>
    have reason := accessRes_trap based found access
    rcases inside with freed | inside
    · have outside : ¬ inBounds r (rawAddress a lo) (hi - lo) := by
        rw [inBounds, bounds.2.2.2.1, bounds.2.2.2.2 freed]
        omega
      rcases reason with ⟨rfl, _⟩ | ⟨h, _⟩ | ⟨h, _⟩
      · simp [renewRes, capFreed, based, found, freed, checkedRes, bind, Except.bind, pure, Except.pure]
      · exact absurd h outside
      · exact absurd h outside
    · rcases reason with ⟨_, h⟩ | ⟨_, rfl, _⟩ | ⟨_, _, h⟩
      · exact absurd inside h
      · rfl
      · by_cases freed : r.life = .freed
        · rw [inBounds, bounds.2.2.2.1, bounds.2.2.2.2 freed] at inside
          omega
        · exact absurd (aligned base r based found freed) h

/-- A renewal from one check at a distance: its span is inside the checked one. -/
theorem renew_inside {mem : Mem} (ok : RegionsOk mem)
    (passed : Passed mem a1 c lo1 hi1 al1) (distance : a ≡ a1 + d [ZMOD addressModulus]) (low : lo1 ≤ lo + d)
    (high : hi + d ≤ hi1) (span : lo < hi) (divides : al1 % align = 0) (shift : (lo + d - lo1) % align = 0) :
    Inside mem a c lo hi ∧ AlignedIn mem a c lo align := by
  obtain ⟨base, r, based, found, above, below, live⟩ := passed
  have bounds := object_bounds ok found
  simp only [Int.ModEq, addressModulus] at distance
  have exact : rawAddress a lo = rawAddress a1 lo1 + (lo + d - lo1) := by
    simp only [rawAddress] at above below ⊢
    omega
  refine ⟨⟨base, r, based, found, live.imp id fun live => ?_⟩, fun base' r' based' found' alive => ?_⟩
  · rw [inBounds, exact]
    omega
  · obtain ⟨rfl, rfl⟩ := same_object based found based' found'
    rcases live with freed | live
    · exact absurd freed alive
    · rw [exact]
      exact emod_add_of_emod (emod_of_emod live.2 divides) shift

/-- A renewal from two checks: its low end is above one's, its high end below the other's. -/
theorem hull_inside {mem : Mem} {ah dl dh lol hil loh hih all alh : Int}
    (ok : RegionsOk mem) (passedL : Passed mem al c lol hil all) (passedH : Passed mem ah c loh hih alh)
    (distanceL : a ≡ al + dl [ZMOD addressModulus]) (distanceH : a ≡ ah + dh [ZMOD addressModulus])
    (span : lo < hi) (spanL : lol < hil) (spanH : loh < hih) (el : 0 ≤ lo + dl - lol)
    (eh : lo + dl - lol ≤ 2 ^ 62) (fl : 0 ≤ hih - hi - dh) (fh : hih - hi - dh ≤ 2 ^ 62) (small : hi - lo ≤ 2 ^ 62)
    (aligned : all % align = 0 ∧ (lo + dl - lol) % align = 0 ∨ alh % align = 0 ∧ (lo + dh - loh) % align = 0)
    (divides : addressModulus % align = 0) :
    Inside mem a c lo hi ∧ AlignedIn mem a c lo align := by
  obtain ⟨base, r, based, found, aboveL, belowL, liveL⟩ := passedL
  obtain ⟨base', r', based', found', aboveH, belowH, liveH⟩ := passedH
  obtain ⟨rfl, rfl⟩ := same_object based found based' found'
  have bounds := object_bounds ok found
  simp only [Int.ModEq, addressModulus] at distanceL distanceH
  have exact : rawAddress a lo = rawAddress al lol + (lo + dl - lol) := by
    simp only [rawAddress] at aboveL belowL ⊢
    omega
  have top : rawAddress a lo + (hi - lo) = rawAddress ah loh + (hih - loh) - (hih - hi - dh) := by
    rw [exact]
    simp only [rawAddress] at aboveL belowL aboveH belowH ⊢
    omega
  refine ⟨⟨base', r', based, found, ?_⟩, fun base'' r'' based'' found'' alive => ?_⟩
  · rcases liveL with freed | liveL
    · exact .inl freed
    · rcases liveH with freed | liveH
      · exact .inl freed
      · right
        rw [inBounds, top]
        constructor
        · rw [exact]
          omega
        · omega
  · obtain ⟨rfl, rfl⟩ := same_object based found based'' found''
    rcases aligned with ⟨h, shift⟩ | ⟨h, shift⟩
    · rcases liveL with freed | liveL
      · exact absurd freed alive
      · rw [exact]
        exact emod_add_of_emod (emod_of_emod liveL.2 h) shift
    · rcases liveH with freed | liveH
      · exact absurd freed alive
      · have wrap : rawAddress a lo = (rawAddress ah loh + (lo + dh - loh)) % addressModulus := by
          simp only [rawAddress, addressModulus] at distanceH ⊢
          omega
        rw [wrap]
        have whole := emod_add_of_emod (emod_of_emod liveH.2 h) shift
        rw [Int.emod_emod_of_dvd _ (Int.dvd_of_emod_eq_zero divides)]
        exact whole

/-! ### Half checks -/

theorem signExtension_mod {x y : Int} (low : -9223372036854775808 ≤ y) (high : y < 9223372036854775808)
    (same : x % addressModulus = y % addressModulus) :
    signExtension 18446744073709551616 9223372036854775808 x = y := by
  simp only [addressModulus] at same
  simp only [signExtension]
  split <;> omega

/-- A half check with its other end proven tests exactly the bounds of the full check. -/
theorem halfBound_inBounds {mem : Mem} {bound : Bound}
    (ok : RegionsOk mem) (passed : Passed mem a1 c lo1 hi1 al1) (distance : a ≡ a1 + d [ZMOD addressModulus])
    (span : lo < hi) (span1 : lo1 < hi1) (known : halfKnown bound lo hi d lo1 hi1 = true)
    (based : capBase c = some base) (found : objectRegion base mem.regions = .ok r) :
    halfBound bound (rawAddress a lo) (hi - lo) r = true ↔ inBounds r (rawAddress a lo) (hi - lo) := by
  obtain ⟨base', r', based', found', above, below, live⟩ := passed
  obtain ⟨rfl, rfl⟩ := same_object based found based' found'
  have bounds := object_bounds ok found
  simp only [halfKnown, nearOffset, Bool.and_eq_true, decide_eq_true_eq] at known
  obtain ⟨⟨⟨near_e, near_f⟩, small⟩, side⟩ := known
  have signed : signedDistance d % addressModulus = d % addressModulus := by
    simp only [signedDistance, addressModulus]
    omega
  generalize signedDistance d = s at near_e near_f side signed
  simp only [Int.ModEq, addressModulus] at distance
  have shifted : a % addressModulus = (a1 + s) % addressModulus := by
    simp only [addressModulus] at distance signed ⊢
    omega
  rw [inBounds, bounds.2.2.2.1]
  cases bound with
  | upper =>
    simp only [halfSide, decide_eq_true_eq] at side
    have exact : rawAddress a lo = rawAddress a1 lo1 + (s + lo - lo1) := by
      simp only [rawAddress, addressModulus] at above below shifted ⊢
      omega
    simp only [halfBound, decide_eq_true_eq]
    rw [exact]
    omega
  | lower =>
    simp only [halfSide, decide_eq_true_eq] at side
    have value : signExtension 18446744073709551616 9223372036854775808 (rawAddress a lo) =
        rawAddress a1 lo1 + (hi1 - lo1) + (s + hi - hi1) - (hi - lo) := by
      refine signExtension_mod ?_ ?_ ?_
      · omega
      · omega
      · simp only [rawAddress, addressModulus] at shifted ⊢
        omega
    simp only [halfBound, decide_eq_true_eq, value, bounds.2.2.2.1]
    rcases live with freed | live
    · have empty := bounds.2.2.2.2 freed
      constructor
      · intro h
        exact absurd freed h.1
      · intro h
        omega
    · have low : 0 ≤ rawAddress a lo ∧ rawAddress a lo < 18446744073709551616 := by
        simp only [rawAddress]
        omega
      have mod : (rawAddress a lo - (rawAddress a1 lo1 + (hi1 - lo1) + (s + hi - hi1) - (hi - lo))) %
          18446744073709551616 = 0 := by
        simp only [rawAddress, addressModulus] at shifted ⊢
        omega
      have alive : r'.life ≠ .freed ∨ r'.end_ = base' := by
        by_cases freed : r'.life = .freed
        · exact .inr (bounds.2.2.2.2 freed)
        · exact .inl freed
      constructor
      · intro h
        omega
      · intro h
        refine ⟨?_, by omega⟩
        rcases alive with alive | empty
        · exact alive
        · omega

theorem halfCheckRes_check {mem : Mem} {bound : Bound} (ok : RegionsOk mem) (passed : Passed mem a1 c lo1 hi1 al1)
    (distance : a ≡ a1 + d [ZMOD addressModulus]) (span : lo < hi) (span1 : lo1 < hi1)
    (known : halfKnown bound lo hi d lo1 hi1 = true) :
    halfCheckRes mem a c bound lo hi rights align = checkRes mem a c lo hi rights align := by
  obtain ⟨base, r, based, found, _⟩ := id passed
  obtain ⟨res, access⟩ := spanAccess_exists based found a lo hi rights align
  have tests := halfBound_inBounds ok passed distance span span1 known based found
  have passes : halfPasses bound mem (rawAddress a lo) (hi - lo) c rights align =
      .ok (some (halfBound bound (rawAddress a lo) (hi - lo) r &&
        !(rights = .write && c = .ro base) && rawAddress a lo % align = 0)) := by
    simp [halfPasses, based, found, bind, Except.bind, pure, Except.pure]
  simp only [halfCheckRes, checkRes, access, passes, bind, Except.bind, pure, Except.pure]
  cases res with
  | ok =>
    obtain ⟨base', r', based', found', inside, aligned, writable⟩ := accessRes_ok.1 access
    obtain ⟨rfl, rfl⟩ := same_object based found based' found'
    have both : ¬ (rights = .write ∧ c = .ro base') := fun h => writable h.1 base' h.2
    simp only [tests.2 inside, aligned, Bool.true_and, decide_true, Bool.and_true]
    by_cases write : rights = .write <;> by_cases ro : c = .ro base' <;> simp_all [halfRes, checkedRes]
  | trap why =>
    rcases accessRes_trap based found access with ⟨_, h⟩ | ⟨_, _, ro, write⟩ | ⟨_, _, h⟩
    · have fails : halfBound bound (rawAddress a lo) (hi - lo) r = false := by
        simpa using mt tests.1 h
      simp [fails, halfRes, checkedRes]
    · simp [ro, write, halfRes, checkedRes]
    · simp [h, halfRes, checkedRes]

/-! ### Guarded renewals and limits -/

theorem guard_inside {mem : Mem} {a0 glo ghi olo ohi : Int} (ok : RegionsOk mem)
    (held : SpanHeld mem a0 c glo ghi) (offset : In addressModulus a (a0 + olo, a0 + ohi)) (span : lo < hi)
    (low : glo ≤ olo + lo) (high : ohi + hi ≤ ghi) (near : -9223372036854775808 ≤ glo)
    (near' : ghi ≤ 9223372036854775807) : Inside mem a c lo hi := by
  obtain ⟨base, r, based, found, live⟩ := held
  have bounds := object_bounds ok found
  obtain ⟨t, ge, le, same⟩ := offset
  simp only [Int.ModEq, addressModulus] at same
  refine ⟨base, r, based, found, live.imp id fun live => ?_⟩
  rw [inBounds, bounds.2.2.2.1]
  simp only [rawAddress] at live same ge le ⊢
  omega

theorem renewIfRes_check {mem : Mem} {g : Int} (ok : RegionsOk mem) (inside : g ≠ 0 → Inside mem a c lo hi) (span : lo < hi) :
    renewIfRes mem a c g lo hi rights align = checkRes mem a c lo hi rights align := by
  by_cases zero : g = 0
  · simp [renewIfRes, checkRes, zero]
  · obtain ⟨base, r, based, found, live⟩ := inside zero
    obtain ⟨res, access⟩ := spanAccess_exists based found a lo hi rights align
    by_cases misaligned : res = .trap .misaligned
    · simp [renewIfRes, checkRes, access, zero, misaligned, bind, Except.bind, pure, Except.pure, checkedRes]
    · have aligned : ∀ why, res = .trap why → ¬ inBounds r (rawAddress a lo) (hi - lo) ∨ why = .readonly := by
        intro why trapped
        subst trapped
        rcases accessRes_trap based found access with ⟨_, h⟩ | ⟨_, h, _⟩ | ⟨_, h, _⟩
        · exact .inl h
        · exact .inr h
        · exact absurd (h ▸ rfl) misaligned
      have bounds := object_bounds ok found
      simp only [renewIfRes, checkRes, access, zero, misaligned, if_false, bind, Except.bind]
      cases res with
      | ok => rfl
      | trap why =>
        rcases live with freed | live
        · rcases accessRes_trap based found access with ⟨rfl, _⟩ | ⟨h, _⟩ | ⟨h, _⟩
          · simp [renewRes, capFreed, based, found, freed, checkedRes, bind, Except.bind, pure, Except.pure]
          all_goals
            rw [inBounds, bounds.2.2.2.1, bounds.2.2.2.2 freed] at h
            omega
        · rcases aligned why rfl with h | rfl
          · exact absurd live h
          · rfl

theorem checkLimitRes_check {mem : Mem} {a lo hi align : Int} {c : Cap} {rights : Rights} :
    checkLimitRes mem a c (.limit c (hi - lo)) lo hi rights align = checkRes mem a c lo hi rights align := by
  simp [checkLimitRes]

/-! ### Hulls of live checks -/

/-- Between one live check's low end and another's high end, all is inside their object. -/
theorem hull_access {mem : Mem} {a2 aq d1 d2 lo2 hi2 off size al2 : Int} {rights1 rights2 need : Rights} (ok : RegionsOk mem)
    (pass1 : spanAccess mem a1 c lo1 hi1 rights1 al1 = .ok .ok)
    (pass2 : spanAccess mem a2 c lo2 hi2 rights2 al2 = .ok .ok)
    (pass : spanAccess mem a c lo hi rights align = .ok .ok) (same : aq = a)
    (distance1 : a1 ≡ a + d1 [ZMOD addressModulus]) (distance2 : a2 ≡ a + d2 [ZMOD addressModulus])
    (span1 : lo1 < hi1) (span2 : lo2 < hi2) (low : lo1 + d1 ≤ off) (high : off + size ≤ hi2 + d2) (pos : 0 < size)
    (near1 : nearOffset (lo1 + d1) = true) (near2 : nearOffset (hi2 + d2) = true)
    (near3 : nearOffset (lo2 + d2) = true)
    (divides : align % al = 0) (shift : (off - lo) % al = 0) (whole : addressModulus % al = 0)
    (writable : need = .write → ∀ b, c ≠ .ro b) :
    accessRes mem (rawAddress aq off) c size need al = .ok .ok := by
  subst same
  obtain ⟨base, r, based, found, inside1, _, _⟩ := accessRes_ok.1 pass1
  obtain ⟨base2, r2, based2, found2, inside2, _, _⟩ := accessRes_ok.1 pass2
  obtain ⟨base3, r3, based3, found3, _, aligned, _⟩ := accessRes_ok.1 pass
  obtain ⟨rfl, rfl⟩ := same_object based found based2 found2
  have bounds := object_bounds ok found
  simp only [Int.ModEq, addressModulus] at distance1 distance2
  simp only [nearOffset, decide_eq_true_eq] at near1 near2 near3
  simp only [inBounds, bounds.2.2.2.1] at inside1 inside2
  have exact : rawAddress aq off = rawAddress a1 lo1 + (off - (lo1 + d1)) := by
    simp only [rawAddress] at inside1 ⊢
    omega
  have top : rawAddress aq off + size = rawAddress a2 lo2 + (off + size - (lo2 + d2)) := by
    rw [exact]
    simp only [rawAddress] at inside1 inside2 ⊢
    omega
  refine accessRes_ok.2 ⟨base2, r2, based, found, ?_, ?_, writable⟩
  · rw [inBounds, bounds.2.2.2.1, top, exact]
    omega
  · have wrap : rawAddress aq off = (rawAddress aq lo + (off - lo)) % addressModulus := by
      simp only [rawAddress, addressModulus]
      omega
    rw [wrap, Int.emod_emod_of_dvd _ (Int.dvd_of_emod_eq_zero whole)]
    exact emod_add_of_emod (emod_of_emod aligned divides) shift

theorem accessSizeAlign_spec {t : AccessType} {sa : Int × Int} (known : accessSizeAlign t = some sa) :
    0 < sa.1 ∧ sa.1 ≤ 10 ∧ addressModulus % sa.2 = 0 := by
  unfold accessSizeAlign at known
  split at known
  · cases known; decide
  · cases known; decide
  · rename_i t _ _
    cases known
    cases t <;> decide
  · cases known; decide
  · cases known; decide
  · rename_i wd _ _
    cases known
    cases wd <;> decide
  · rename_i t
    split at known
    · cases known
      cases t <;> first | decide | contradiction
    · cases known

theorem checkRes_result {mem : Mem} {r : Res Word} (done : checkRes mem a c lo hi rights align = .ok r) :
    r.Checked ∧ (∀ w, r = .val w → w = .ptr a c ∧ spanAccess mem a c lo hi rights align = .ok .ok) := by
  simp only [checkRes, bind_ok, pure_ok] at done
  obtain ⟨res, access, rfl⟩ := done
  cases res with
  | ok => exact ⟨by simp [checkedRes], fun w h => by cases h; exact ⟨rfl, access⟩⟩
  | trap why => exact ⟨by simp [checkedRes], fun w h => by cases h⟩

end Nanofil
