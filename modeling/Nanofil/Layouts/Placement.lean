import Nanofil.Layouts.Fields
import Mathlib.Tactic.Ring

/-! What `su_layout/6` lays out is well formed. One field places its members past the bits
before it, at multiples of an alignment that divides the definition's; the units of packed
bit-fields come after, within the bytes that the members take. -/
namespace Nanofil.Layouts
open List Option Multiples Results

/-! ### What the callers give -/

/-- The alignments of atomic and vector types are powers of two. -/
def Aligned : CType → Prop
  | .qualified _ t => Aligned t
  | .array t _ => Aligned t
  | .vec _ _ a => PowTwo a
  | .atomic _ p => PowTwo p
  | _ => True

/-- So are those of the definitions in scope. -/
def Laid (env : Env) : Prop := ∀ id kind members size align, env id = some (.def_ kind members size align) → PowTwo align

def Base.Ok : Base → Prop
  | .natural => True
  | .typedef align => PowTwo align

def Packing.Ok : Packing → Prop
  | .pack n => PowTwo n
  | _ => True

/-- What the declaration of a member leaves: requests that are powers of two, widths that fit their types. -/
def Declared : Field → Prop
  | .plain _ type => Aligned type
  | .aligned _ type base explicit => Aligned type ∧ base.Ok ∧ PowTwo explicit
  | .bits name type w => bitfieldWidth name type w = true

variable {r : Nat × Nat} {t type : CType} {s w align align' end_ : Nat} {f : Field} {fields : List Field}

section
variable {env : Env} (laid : Laid env)
include laid

theorem suSize_powTwo {id : Nat} (sized : suSize env id = .ok r) : PowTwo r.2 := by
  unfold suSize at sized
  split at sized
  · rename_i d found
    cases d with
    | def_ kind members size align =>
      cases sized
      exact laid id kind members size align found
    | incomplete why members => cases sized
    | bad why => cases sized
  · cases sized

theorem typeSizeAlign_powTwo : ∀ {r : Nat × Nat}, Aligned t → typeSizeAlign env t = .ok r → PowTwo r.2 := by
  induction t with
  | qualified qs t ih => exact fun aligned sized => ih aligned sized
  | bool | char | schar | uchar => intro r _ sized; cases sized; exact ⟨0, rfl⟩
  | short | ushort => intro r _ sized; cases sized; exact ⟨1, rfl⟩
  | int | uint | float => intro r _ sized; cases sized; exact ⟨2, rfl⟩
  | long | ulong | llong | ullong | double => intro r _ sized; cases sized; exact ⟨3, rfl⟩
  | ptr t => intro r _ sized; cases sized; exact ⟨3, rfl⟩
  | ldouble => intro r _ sized; cases sized; exact ⟨4, rfl⟩
  | atomic t p => intro r aligned sized; cases sized; exact aligned
  | array t n ih =>
    intro r aligned sized
    cases n with
    | none_ => cases sized
    | variable_ => cases sized
    | known n =>
      simp only [typeSizeAlign, bind_ok, pure_ok] at sized
      obtain ⟨r', inner, rfl⟩ := sized
      have pow : PowTwo r'.2 := ih aligned inner
      exact pow
  | vec e n a =>
    intro r aligned sized
    simp only [typeSizeAlign, bind_ok, pure_ok] at sized
    obtain ⟨r', -, rfl⟩ := sized
    exact aligned
  | struct id => exact fun _ sized => suSize_powTwo laid sized
  | union id => exact fun _ sized => suSize_powTwo laid sized
  | bad why => intro r _ sized; cases sized
  | void => intro r _ sized; cases sized
  | func ret => intro r _ sized; cases sized

theorem fieldSizeAlign_powTwo (aligned : Aligned t) (sized : fieldSizeAlign env t = .ok r) : PowTwo r.2 := by
  unfold fieldSizeAlign at sized
  split at sized
  · rename_i elem
    simp only [bind_ok, pure_ok] at sized
    obtain ⟨r', inner, rfl⟩ := sized
    have whole : Aligned elem := aligned
    have pow : PowTwo r'.2 := typeSizeAlign_powTwo laid whole inner
    exact pow
  · exact typeSizeAlign_powTwo laid aligned sized

end

theorem plainAlign_powTwo {packing : Packing} {natural : Nat} (ok : packing.Ok) (pow : PowTwo natural) : PowTwo (plainAlign packing natural) := by
  cases packing with
  | natural => exact pow
  | packed => exact .one
  | pack n =>
    simp only [plainAlign]
    split
    · exact ok
    · exact pow

theorem explicitAlign_powTwo {packing : Packing} {base : Base} {explicit natural : Nat} (ok : base.Ok) (asked : PowTwo explicit)
    (pow : PowTwo natural) : PowTwo (explicitAlign packing base explicit natural) := by
  have start : PowTwo (baseAlign base natural) := by
    cases base with
    | natural => exact pow
    | typedef align => exact ok
  cases packing with
  | natural => exact start.max asked
  | packed => exact asked
  | pack n => exact start.max asked

/-- An integer is as wide as it is aligned. -/
theorem intInfo_size (env : Env) {sign : Sign} (int : intInfo t = some (s, sign)) :
    typeSizeAlign env t = .ok (s, s) ∧ PowTwo s := by
  cases t <;> cases int
  all_goals first
    | exact ⟨rfl, 0, rfl⟩
    | exact ⟨rfl, 1, rfl⟩
    | exact ⟨rfl, 2, rfl⟩
    | exact ⟨rfl, 3, rfl⟩

theorem bitfieldWidth_int {name : Option Name} (ok : bitfieldWidth name type w = true) :
    ∃ s sign, intInfo type = some (s, sign) ∧ w ≤ 8 * s ∧ (w = 0 → name = none) := by
  unfold bitfieldWidth at ok
  split at ok
  · cases ok
  · rename_i s sign int
    simp only [decide_eq_true_eq] at ok
    have pos := (intInfo_size (fun _ => none) int).2.pos
    refine ⟨s, sign, int, ok.1.trans ?_, ok.2⟩
    split <;> omega

/-! ### Where members lie -/

def fieldSize (env : Env) (type : CType) : Nat :=
  match fieldSizeAlign env type with
  | .ok r => r.1
  | .error _ => 0

/-- The bits of a member, the first and the one after the last. -/
def Member.range (env : Env) : Member → Nat × Nat
  | .plain _ type off => (8 * off, 8 * (off + fieldSize env type))
  | .bits _ _ off pos w => (8 * off + pos, 8 * off + pos + w)

def Spot.range (env : Env) : Spot → Nat × Nat
  | .member m => m.range env
  | .packedBits _ _ start w => (start, start + w)

/-- A plain member of a type with the alignment asked for. -/
def PlainAt (env : Env) (name : Option Name) (type : CType) (effective : Nat → Nat) (align : Nat) (m : Member) : Prop :=
  ∃ off r, m = .plain name type off ∧ fieldSizeAlign env type = .ok r ∧ effective r.2 ∣ off ∧ effective r.2 ∣ align

/-- A bit-field in a unit of its own type. -/
def BitsAt (name : Option Name) (type : CType) (w align : Nat) (m : Member) : Prop :=
  ∃ s sign off pos, m = .bits name type off pos w ∧ intInfo type = some (s, sign) ∧ pos + w ≤ 8 * s ∧ s ∣ off ∧ s ∣ align

/-- What a field places. -/
def Spots (env : Env) (packing : Packing) (align : Nat) : Field → List Spot → Prop
  | .plain name type, ps => ∃ m, ps = [.member m] ∧ PlainAt env name type (plainAlign packing) align m
  | .aligned name type base explicit, ps => ∃ m, ps = [.member m] ∧ PlainAt env name type (explicitAlign packing base explicit) align m
  | .bits none _ _, ps => ps = []
  | .bits (some name) type w, ps =>
    packing ≠ .packed ∧ (∃ m, ps = [.member m] ∧ BitsAt (some name) type w align m) ∨
      packing = .packed ∧ ∃ start, ps = [.packedBits (some name) type start w]

variable {ps : List Spot} {m : Member}

theorem Spots.mono {env : Env} {packing : Packing} (dvd : align ∣ align')
    (spots : Spots env packing align f ps) : Spots env packing align' f ps := by
  cases f with
  | plain name type =>
    obtain ⟨m, rfl, off, r, rfl, sized, at_, below⟩ := spots
    exact ⟨_, rfl, off, r, rfl, sized, at_, below.trans dvd⟩
  | aligned name type base explicit =>
    obtain ⟨m, rfl, off, r, rfl, sized, at_, below⟩ := spots
    exact ⟨_, rfl, off, r, rfl, sized, at_, below.trans dvd⟩
  | bits name type w =>
    cases name with
    | none => exact spots
    | some name =>
      rcases spots with ⟨natural, m, rfl, s, sign, off, pos, rfl, int, fits, at_, below⟩ | packed
      · exact .inl ⟨natural, _, rfl, s, sign, off, pos, rfl, int, fits, at_, below.trans dvd⟩
      · exact .inr packed

/-- What the members of a field, or of several, do to the bits and the alignment before them. -/
structure Extends (env : Env) (kind : Kind) (end0 align0 : Nat) (ps : List Spot) (end_ align : Nat) : Prop where
  grows : end0 ≤ end_
  pow : PowTwo align
  dvd : align0 ∣ align
  within : ∀ p ∈ ps, (p.range env).2 ≤ end_
  after : kind = .struct → ∀ p ∈ ps, end0 ≤ (p.range env).1
  apart : kind = .struct → (ps.map (Spot.range env)).Pairwise fun a b => a.2 ≤ b.1
  first : kind = .union → ∀ p ∈ ps, (p.range env).1 = 0

theorem Extends.none {env : Env} {kind : Kind} {end0 align0 : Nat} (grows : end0 ≤ end_) (pow : PowTwo align0) :
    Extends env kind end0 align0 [] end_ align0 :=
  ⟨grows, pow, dvd_rfl, fun _ h => (by cases h), fun _ _ h => (by cases h), fun _ => List.Pairwise.nil, fun _ _ h => (by cases h)⟩

theorem Extends.one {env : Env} {kind : Kind} {end0 align0 : Nat} {p : Spot} (grows : end0 ≤ end_) (pow : PowTwo align)
    (dvd : align0 ∣ align) (within : (p.range env).2 ≤ end_) (after : kind = .struct → end0 ≤ (p.range env).1)
    (first : kind = .union → (p.range env).1 = 0) : Extends env kind end0 align0 [p] end_ align := by
  refine ⟨grows, pow, dvd, fun q h => ?_, fun struct q h => ?_, fun _ => pairwise_singleton .., fun union q h => ?_⟩
  · rw [mem_singleton.1 h]
    exact within
  · rw [mem_singleton.1 h]
    exact after struct
  · rw [mem_singleton.1 h]
    exact first union

theorem Extends.append {env : Env} {kind : Kind} {end0 align0 end1 align1 : Nat} {qs : List Spot}
    (here : Extends env kind end0 align0 ps end1 align1) (rest : Extends env kind end1 align1 qs end_ align) :
    Extends env kind end0 align0 (ps ++ qs) end_ align := by
  refine ⟨here.grows.trans rest.grows, rest.pow, here.dvd.trans rest.dvd, fun p h => ?_, fun struct p h => ?_, fun struct => ?_, fun union p h => ?_⟩
  · rcases mem_append.1 h with h | h
    · exact (here.within p h).trans rest.grows
    · exact rest.within p h
  · rcases mem_append.1 h with h | h
    · exact here.after struct p h
    · exact here.grows.trans (rest.after struct p h)
  · rw [map_append, pairwise_append]
    refine ⟨here.apart struct, rest.apart struct, fun a ha b hb => ?_⟩
    obtain ⟨p, hp, rfl⟩ := List.mem_map.1 ha
    obtain ⟨q, hq, rfl⟩ := List.mem_map.1 hb
    exact (here.within p hp).trans (rest.after struct q hq)
  · rcases mem_append.1 h with h | h
    · exact here.first union p h
    · exact rest.first union p h

/-! ### One field -/

section
variable {env : Env} {kind : Kind} {packing : Packing} {end0 align0 : Nat}

theorem memberOffsetEnd_extends (kind : Kind) (end0 : Nat) (name : Option Name) (sized : fieldSizeAlign env type = .ok r)
    (pow0 : PowTwo align0) (pow : PowTwo align) :
    Extends env kind end0 align0 [.member (.plain name type (memberOffsetEnd kind end0 r.1 align).1)] (memberOffsetEnd kind end0 r.1 align).2
      (max align0 align) ∧ align ∣ (memberOffsetEnd kind end0 r.1 align).1 := by
  have size : fieldSize env type = r.1 := by rw [fieldSize, sized]
  have up := le_nextMultiple ((end0 + 7) / 8) pow.pos
  constructor
  · refine .one ?_ (pow0.max pow) (pow0.dvd_max_left pow) ?_ (fun struct => ?_) (fun union => ?_)
    · cases kind <;> simp only [memberOffsetEnd] <;> omega
    · cases kind <;> simp only [memberOffsetEnd, Spot.range, Member.range, size] <;> omega
    · subst struct
      simp only [memberOffsetEnd, Spot.range, Member.range]
      omega
    · subst union
      rfl
  · cases kind with
    | struct => exact dvd_nextMultiple _ _
    | union => exact Nat.dvd_zero _

theorem bitfieldStartEnd_grows (pos : 0 < s) : end0 ≤ (bitfieldStartEnd kind end0 w (8 * s)).2 := by
  cases kind with
  | union => exact le_max_left _ _
  | struct =>
    have up := le_nextMultiple end0 (show 0 < 8 * s by omega)
    simp only [bitfieldStartEnd]
    split <;> omega

/-- A bit-field that starts in a unit ends in it. -/
theorem bitfieldStartEnd_fits (pos : 0 < s) (fits : w ≤ 8 * s) (some_ : 0 < w) :
    (bitfieldStartEnd kind end0 w (8 * s)).1 % (8 * s) + w ≤ 8 * s := by
  cases kind with
  | union => simpa [bitfieldStartEnd] using fits
  | struct =>
    simp only [bitfieldStartEnd]
    split
    · rename_i same
      have low := Nat.div_add_mod end0 (8 * s)
      have high := Nat.div_add_mod (end0 + w - 1) (8 * s)
      have small := Nat.mod_lt (end0 + w - 1) (show 0 < 8 * s by omega)
      rw [← same.2] at high
      omega
    · rw [Nat.mod_eq_zero_of_dvd (dvd_nextMultiple end0 (8 * s))]
      omega

theorem naturalBits_extends {name : Option Name} (declared : bitfieldWidth name type w = true)
    (pow0 : PowTwo align0) (natural : packing ≠ .packed) (done : naturalBits kind env name type w end0 align0 = .ok (ps, end_, align)) :
    Extends env kind end0 align0 ps end_ align ∧ Spots env packing align (.bits name type w) ps := by
  obtain ⟨s, sign, int, fits, named⟩ := bitfieldWidth_int declared
  obtain ⟨sized, pow⟩ := intInfo_size env int
  have grows : end0 ≤ (bitfieldStartEnd kind end0 w (8 * s)).2 := bitfieldStartEnd_grows pow.pos
  simp only [naturalBits, sized, bind_ok, Except.ok.injEq, exists_eq_left'] at done
  cases name with
  | none =>
    simp only [pure_ok, Prod.mk.injEq] at done
    obtain ⟨rfl, rfl, rfl⟩ := done
    exact ⟨.none grows pow0, rfl⟩
  | some name =>
    simp only [pure_ok, Prod.mk.injEq] at done
    obtain ⟨rfl, rfl, rfl⟩ := done
    have some_ : 0 < w := Nat.pos_of_ne_zero fun zero => by cases named zero
    have inside : (bitfieldStartEnd kind end0 w (8 * s)).1 % (8 * s) + w ≤ 8 * s := bitfieldStartEnd_fits pow.pos fits some_
    have whole : 8 * ((bitfieldStartEnd kind end0 w (8 * s)).1 / (8 * s) * s) + (bitfieldStartEnd kind end0 w (8 * s)).1 % (8 * s) =
        (bitfieldStartEnd kind end0 w (8 * s)).1 := by
      calc 8 * ((bitfieldStartEnd kind end0 w (8 * s)).1 / (8 * s) * s) + (bitfieldStartEnd kind end0 w (8 * s)).1 % (8 * s)
          = 8 * s * ((bitfieldStartEnd kind end0 w (8 * s)).1 / (8 * s)) + (bitfieldStartEnd kind end0 w (8 * s)).1 % (8 * s) := by ring
        _ = (bitfieldStartEnd kind end0 w (8 * s)).1 := Nat.div_add_mod _ _
    refine ⟨.one grows (pow0.max pow) (pow0.dvd_max_left pow) ?_ (fun struct => ?_) (fun union => ?_), .inl ⟨natural, _, rfl, s, sign, _, _, rfl, int, inside,
      Nat.dvd_mul_left _ _, pow0.dvd_max_right pow⟩⟩
    · simp only [Spot.range, Member.range, whole]
      cases kind with
      | struct => exact le_rfl
      | union => simp [bitfieldStartEnd]
    · subst struct
      simp only [Spot.range, Member.range, whole]
      have up := le_nextMultiple end0 (show 0 < 8 * s by have := pow.pos; omega)
      simp only [bitfieldStartEnd]
      split <;> omega
    · subst union
      simp only [Spot.range, Member.range, whole]
      rfl

theorem packedBits_extends {name : Option Name} (declared : bitfieldWidth name type w = true)
    (pow0 : PowTwo align0) (packed : packing = .packed) (done : packedBits kind env name type w end0 align0 = .ok (ps, end_, align)) :
    Extends env kind end0 align0 ps end_ align ∧ Spots env packing align (.bits name type w) ps := by
  obtain ⟨s, sign, int, fits, named⟩ := bitfieldWidth_int declared
  obtain ⟨sized, pow⟩ := intInfo_size env int
  have grows : end0 ≤ (bitfieldStartEnd kind end0 0 (8 * s)).2 := bitfieldStartEnd_grows pow.pos
  simp only [packedBits, sized, bind_ok, Except.ok.injEq, exists_eq_left'] at done
  cases name with
  | none =>
    simp only [pure_ok, Prod.mk.injEq] at done
    obtain ⟨rfl, rfl, rfl⟩ := done
    refine ⟨.none ?_ pow0, rfl⟩
    split
    · exact grows
    · split
      · exact le_max_left _ _
      · exact Nat.le_add_right _ _
  | some name =>
    have some_ : w ≠ 0 := fun zero => by cases named zero
    simp only [pure_ok, Prod.mk.injEq, if_neg some_] at done
    obtain ⟨rfl, rfl, rfl⟩ := done
    refine ⟨.one ?_ pow0 dvd_rfl ?_ (fun struct => ?_) (fun union => ?_), .inr ⟨packed, _, rfl⟩⟩
    · split
      · exact le_max_left _ _
      · exact Nat.le_add_right _ _
    · simp only [Spot.range]
      split
      · simp
      · exact le_rfl
    · subst struct
      exact le_rfl
    · subst union
      rfl

theorem fieldMember_extends (laid : Laid env) (ok : packing.Ok) (declared : Declared f)
    (pow0 : PowTwo align0) (done : fieldMember kind packing env end0 align0 f = .ok (ps, end_, align)) :
    Extends env kind end0 align0 ps end_ align ∧ Spots env packing align f ps := by
  cases f with
  | plain name type =>
    simp only [fieldMember, bind_ok, pure_ok, Prod.mk.injEq] at done
    obtain ⟨r, sized, rfl, rfl, rfl⟩ := done
    have pow := plainAlign_powTwo ok (fieldSizeAlign_powTwo laid declared sized)
    obtain ⟨extends_, at_⟩ := memberOffsetEnd_extends kind end0 name sized pow0 pow
    exact ⟨extends_, _, rfl, _, r, rfl, sized, at_, pow0.dvd_max_right pow⟩
  | aligned name type base explicit =>
    simp only [fieldMember, bind_ok] at done
    obtain ⟨r, sized, done⟩ := done
    split at done
    · cases done
    · simp only [pure_ok, Prod.mk.injEq] at done
      obtain ⟨rfl, rfl, rfl⟩ := done
      have pow : PowTwo (explicitAlign packing base explicit r.2) :=
        explicitAlign_powTwo declared.2.1 declared.2.2 (fieldSizeAlign_powTwo laid declared.1 sized)
      obtain ⟨extends_, at_⟩ := memberOffsetEnd_extends kind end0 name sized pow0 pow
      exact ⟨extends_, _, rfl, _, r, rfl, sized, at_, pow0.dvd_max_right pow⟩
  | bits name type w =>
    cases packing with
    | natural => exact naturalBits_extends declared pow0 (by simp) done
    | packed => exact packedBits_extends declared pow0 rfl done
    | pack n =>
      simp only [fieldMember, bind_ok] at done
      obtain ⟨r, sized, done⟩ := done
      split at done
      · exact naturalBits_extends declared pow0 (by simp) done
      · cases done

end

/-! ### All fields -/

theorem fieldMembers_extends {env : Env} {kind : Kind} {packing : Packing} (laid : Laid env) (ok : packing.Ok) :
    ∀ {end0 align0 end_ align : Nat} {pss : List (List Spot)}, (∀ f ∈ fields, Declared f) → PowTwo align0 →
      fieldMembers kind packing env fields end0 align0 = .ok (pss, end_, align) →
        Extends env kind end0 align0 pss.flatten end_ align ∧ List.Forall₂ (Spots env packing align) fields pss := by
  induction fields with
  | nil =>
    intro end0 align0 end_ align pss _ pow0 done
    cases done
    exact ⟨.none le_rfl pow0, .nil⟩
  | cons f fs ih =>
    intro end0 align0 end_ align pss declared pow0 done
    simp only [fieldMembers, bind_ok, pure_ok] at done
    obtain ⟨⟨ps, end1, align1⟩, one, ⟨pss', end2, align2⟩, rest, same⟩ := done
    cases same
    obtain ⟨here, spots⟩ := fieldMember_extends laid ok (declared f mem_cons_self) pow0 one
    obtain ⟨later, others⟩ := ih (fun g h => declared g (mem_cons_of_mem _ h)) here.pow rest
    exact ⟨here.append later, .cons (spots.mono later.dvd) others⟩

/-! ### Units of packed bit-fields -/

theorem packedWindow_fits {start size off pos : Nat} (found : packedWindow end_ start w size = some (off, pos)) :
    8 * off + pos = start ∧ off + size ≤ end_ ∧ pos + w ≤ 8 * size := by
  simp only [packedWindow] at found
  split at found
  · rename_i fits
    cases found
    have low := min_le_left (start / 8) (end_ - size)
    have high := min_le_right (start / 8) (end_ - size)
    omega
  · cases found

theorem narrowed_fits {start size off pos : Nat} {unit : CType} (found : narrowed end_ start w size type = some (unit, off, pos)) :
    ∃ s sign s', intInfo unit = some (s, sign) ∧ intInfo type = some (s', sign) ∧ 8 * off + pos = start ∧ off + s ≤ end_ ∧ pos + w ≤ 8 * s := by
  unfold narrowed at found
  split at found
  · cases found
  · rename_i s' sign int
    split at found
    · obtain ⟨u, -, here⟩ := exists_of_findSome?_eq_some found
      split at here
      · rename_i fits
        obtain ⟨p, window, same⟩ := map_eq_some_iff.1 here
        cases same
        exact ⟨u.1, sign, s', fits.2, int, packedWindow_fits window⟩
      · cases here
    · cases found

theorem packedUnit_range {env : Env} {p : Spot} (done : packedUnit end_ env p = .ok m) : m.range env = p.range env := by
  cases p with
  | member m' =>
    cases done
    rfl
  | packedBits name type start w =>
    simp only [packedUnit, bind_ok] at done
    obtain ⟨r, -, done⟩ := done
    split at done
    · rename_i off pos window
      cases done
      simp only [Member.range, Spot.range, (packedWindow_fits window).1]
    · split at done
      · rename_i unit off pos narrow
        cases done
        obtain ⟨_, _, _, _, _, at_, _⟩ := narrowed_fits narrow
        simp only [Member.range, Spot.range, at_]
      · cases done

/-- A packed bit-field's unit lies within the bytes of the members, and the bit-field in it. -/
theorem packedUnit_fits {env : Env} {start : Nat} {name : Option Name}
    (declared : bitfieldWidth name type w = true) (done : packedUnit end_ env (.packedBits name type start w) = .ok m) :
    ∃ unit s sign off pos, m = .bits name unit off pos w ∧ intInfo unit = some (s, sign) ∧ pos + w ≤ 8 * s ∧ off + s ≤ end_ := by
  obtain ⟨s, sign, int, -, -⟩ := bitfieldWidth_int declared
  obtain ⟨sized, -⟩ := intInfo_size env int
  simp only [packedUnit, sized, bind_ok, Except.ok.injEq, exists_eq_left'] at done
  split at done
  · rename_i off pos window
    cases done
    exact ⟨type, s, sign, off, pos, rfl, int, (packedWindow_fits window).2.2, (packedWindow_fits window).2.1⟩
  · split at done
    · rename_i unit off pos narrow
      cases done
      obtain ⟨s', sign', _, int', _, _, inside, fits⟩ := narrowed_fits narrow
      exact ⟨unit, s', sign', off, pos, rfl, int', fits, inside⟩
    · cases done

/-! ### The definition -/

/-- What a definition of a size and an alignment has of a field. -/
def InPlace (env : Env) (packing : Packing) (size align : Nat) : Field → List Member → Prop
  | .plain name type, ms => ∃ m, ms = [m] ∧ PlainAt env name type (plainAlign packing) align m ∧ (m.range env).2 ≤ 8 * size
  | .aligned name type base explicit, ms =>
    ∃ m, ms = [m] ∧ PlainAt env name type (explicitAlign packing base explicit) align m ∧ (m.range env).2 ≤ 8 * size
  | .bits none _ _, ms => ms = []
  | .bits (some name) type w, ms =>
    ∃ unit s sign off pos, ms = [.bits (some name) unit off pos w] ∧ intInfo unit = some (s, sign) ∧ pos + w ≤ 8 * s ∧ off + s ≤ size ∧
      (packing ≠ .packed → unit = type ∧ ∀ k, 8 * s * k ≤ 8 * off + pos ∨ 8 * off + pos + w ≤ 8 * s * k)

theorem PlainAt.mono {env : Env} {name : Option Name} {effective : Nat → Nat}
    (at_ : PlainAt env name type effective align m) (dvd : align ∣ align') : PlainAt env name type effective align' m := by
  obtain ⟨off, r, rfl, sized, multiple, below⟩ := at_
  exact ⟨off, r, rfl, sized, multiple, below.trans dvd⟩

/-- The access unit of a bit-field in natural packing is in the definition, which its size divides. -/
theorem BitsAt.inPlace {name : Option Name} {size : Nat} {env : Env} (at_ : BitsAt name type w align m)
    (some_ : 0 < w) (dvd : align ∣ size) (within : (m.range env).2 ≤ 8 * size) :
    ∃ s sign off pos, m = .bits name type off pos w ∧ intInfo type = some (s, sign) ∧ pos + w ≤ 8 * s ∧ off + s ≤ size ∧
      ∀ k, 8 * s * k ≤ 8 * off + pos ∨ 8 * off + pos + w ≤ 8 * s * k := by
  obtain ⟨s, sign, off, pos, rfl, int, fits, multiple, below⟩ := at_
  simp only [Member.range] at within
  refine ⟨s, sign, off, pos, rfl, int, fits, unit_le multiple (below.trans dvd) (by omega), fun k => ?_⟩
  obtain ⟨i, rfl⟩ := multiple
  rcases Nat.lt_or_ge i k with lt | ge
  · right
    have step := Nat.mul_le_mul_left (8 * s) lt
    calc 8 * (s * i) + pos + w ≤ 8 * (s * i) + 8 * s := by omega
      _ = 8 * s * (i + 1) := by ring
      _ ≤ 8 * s * k := step
  · left
    have step := Nat.mul_le_mul_left (8 * s) ge
    calc 8 * s * k ≤ 8 * s * i := step
      _ = 8 * (s * i) := by ring
      _ ≤ 8 * (s * i) + pos := Nat.le_add_right _ _

theorem Spots.inPlace {env : Env} {packing : Packing} {size : Nat} {ms : List Member}
    (declared : Declared f) (spots : Spots env packing align f ps) (units : ps.mapM (packedUnit end_ env) = .ok ms)
    (within : ∀ p ∈ ps, (p.range env).2 ≤ 8 * size) (le : end_ ≤ size) (dvd : align ∣ align') (whole : align' ∣ size) :
    InPlace env packing size align' f ms := by
  have single : ∀ p, ps = [p] → ∃ m, ms = [m] ∧ packedUnit end_ env p = .ok m := by
    rintro p rfl
    simp only [mapM_cons, mapM_nil, bind_ok, pure_ok] at units
    obtain ⟨m, done, _, rfl, rfl⟩ := units
    exact ⟨m, rfl, done⟩
  have plain : ∀ m, ps = [.member m] → ms = [m] ∧ (m.range env).2 ≤ 8 * size := by
    intro m same
    obtain ⟨m', rfl, done⟩ := single _ same
    cases done
    have inside := within (.member m) (by rw [same]; exact mem_singleton_self _)
    exact ⟨rfl, inside⟩
  cases f with
  | plain name type =>
    obtain ⟨m, same, at_⟩ := spots
    obtain ⟨rfl, inside⟩ := plain m same
    exact ⟨m, rfl, at_.mono dvd, inside⟩
  | aligned name type base explicit =>
    obtain ⟨m, same, at_⟩ := spots
    obtain ⟨rfl, inside⟩ := plain m same
    exact ⟨m, rfl, at_.mono dvd, inside⟩
  | bits name type w =>
    cases name with
    | none =>
      rw [show ps = [] from spots] at units
      cases units
      rfl
    | some name =>
      obtain ⟨_, _, _, _, named⟩ := bitfieldWidth_int declared
      have some_ : 0 < w := Nat.pos_of_ne_zero fun zero => by cases named zero
      rcases spots with ⟨_, m, same, at_⟩ | ⟨packed, start, same⟩
      · obtain ⟨rfl, inside⟩ := plain m same
        obtain ⟨s, sign, off, pos, rfl, int, fits, unit, crosses⟩ := at_.inPlace some_ (dvd.trans whole) inside
        exact ⟨type, s, sign, off, pos, rfl, int, fits, unit, fun _ => ⟨rfl, crosses⟩⟩
      · obtain ⟨m, rfl, done⟩ := single _ same
        obtain ⟨unit, s, sign, off, pos, rfl, int, fits, inside⟩ := packedUnit_fits declared done
        exact ⟨unit, s, sign, off, pos, rfl, int, fits, inside.trans le, fun natural => absurd packed natural⟩

theorem forall₂_inPlace {env : Env} {packing : Packing} {size : Nat} {pss : List (List Spot)} {mss : List (List Member)}
    (declared : ∀ f ∈ fields, Declared f) (spots : List.Forall₂ (Spots env packing align) fields pss)
    (units : List.Forall₂ (fun ps ms => ps.mapM (packedUnit end_ env) = .ok ms) pss mss) (within : ∀ p ∈ pss.flatten, (p.range env).2 ≤ 8 * size)
    (le : end_ ≤ size) (dvd : align ∣ align') (whole : align' ∣ size) : List.Forall₂ (InPlace env packing size align') fields mss := by
  induction spots generalizing mss with
  | nil =>
    cases units
    exact .nil
  | cons here _ ih =>
    cases units with
    | cons unit units =>
      refine .cons (here.inPlace (declared _ mem_cons_self) unit (fun p h => within p ?_) le dvd whole)
        (ih (fun g h => declared g (mem_cons_of_mem _ h)) units fun p h => within p ?_)
      · exact mem_flatten.2 ⟨_, mem_cons_self, h⟩
      · rw [flatten_cons]
        exact mem_append_right _ h

theorem suLayout_def {kind kind' : Kind} {packing : Packing} {request size : Nat} {env : Env} {members : List Member}
    (done : suLayout kind packing fields request env = .def_ kind' members size align) :
    ∃ end_ align0, fieldsLayout kind packing env fields = .ok (members, end_, align0) ∧ kind' = kind ∧ align = max align0 request ∧
      size = nextMultiple (nextMultiple end_ align0) align := by
  unfold suLayout at done
  cases laidOut : fieldsLayout kind packing env fields with
  | error why =>
    rw [laidOut] at done
    cases done
  | ok r =>
    rw [laidOut] at done
    cases done
    exact ⟨r.2.1, r.2.2, rfl, rfl, rfl, rfl⟩

/-- A bit-field next to a character, a wide one that has to move, an aligned array and a flexible one. -/
def mixed : List Field :=
  [.plain (some "a") .char, .bits (some "x") .int 30, .bits none .int 0, .aligned (some "b") (.array .char (.known 3)) .natural 8,
    .plain (some "c") (.array .long .none_)]

def mixedMembers : List Member :=
  [.plain (some "a") .char 0, .bits (some "x") .int 4 0 30, .plain (some "b") (.array .char (.known 3)) 8, .plain (some "c") (.array .long .none_) 16]

end Nanofil.Layouts
