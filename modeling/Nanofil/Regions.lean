import Mathlib.Data.List.Basic
import Mathlib.Data.List.Perm.Basic
import Nanofil.Lib.Results
import Nanofil.Ops

/-! The objects of a Fil-C run: what every reachable memory keeps of their bounds,
how an object may change, and what an access test says of its object. -/
namespace Nanofil
open List Option Results

/-- Bounds lie below the address space, freed objects are empty, bases differ. -/
structure RegionsOk (mem : Mem) : Prop where
  bounds : ∀ r ∈ mem.regions, 0 ≤ r.base ∧ r.base ≤ r.end_ ∧ r.end_ ≤ 281474976710656 ∧ r.base < mem.next
  freed : ∀ r ∈ mem.regions, r.life = .freed → r.end_ = r.base
  unique : (mem.regions.map (·.base)).Nodup
  next : 0 ≤ mem.next

/-- An object once registered stays so: as it was, or freed. -/
def Evolves (mem mem' : Mem) : Prop :=
  ∀ base r, objectRegion base mem.regions = .ok r →
    ∃ r', objectRegion base mem'.regions = .ok r' ∧ (r' = r ∨ r'.life = .freed ∧ r'.kind = r.kind)

/-- The memory's bytes and capabilities may differ, its objects do not. -/
def SameObjects (mem mem' : Mem) : Prop := mem'.regions = mem.regions ∧ mem'.next = mem.next

theorem Evolves.refl (mem : Mem) : Evolves mem mem := fun _ r h => ⟨r, h, .inl rfl⟩

theorem Evolves.trans {m1 m2 m3 : Mem} (first : Evolves m1 m2) (second : Evolves m2 m3) : Evolves m1 m3 := by
  intro base r h
  obtain ⟨r', h', first⟩ := first base r h
  obtain ⟨r'', h'', second⟩ := second base r' h'
  refine ⟨r'', h'', ?_⟩
  rcases second with rfl | ⟨freed, kind⟩
  · exact first
  · rcases first with rfl | ⟨_, kind'⟩
    · exact .inr ⟨freed, kind⟩
    · exact .inr ⟨freed, kind.trans kind'⟩

@[simp] theorem SameObjects.refl (mem : Mem) : SameObjects mem mem := ⟨rfl, rfl⟩

theorem SameObjects.trans {m1 m2 m3 : Mem} (first : SameObjects m1 m2) (second : SameObjects m2 m3) :
    SameObjects m1 m3 := ⟨second.1.trans first.1, second.2.trans first.2⟩

variable {mem' : Mem} {base align a : Int} {r : Region} {cap : Cap} {kind : Rights}

theorem SameObjects.evolves {mem : Mem} (same : SameObjects mem mem') : Evolves mem mem' := by
  intro base r h
  exact ⟨r, by rw [same.1]; exact h, .inl rfl⟩

theorem SameObjects.regionsOk {mem : Mem} (same : SameObjects mem mem') (ok : RegionsOk mem) : RegionsOk mem' := by
  obtain ⟨regions, next⟩ := same
  exact ⟨by rw [regions, next]; exact ok.bounds, by rw [regions]; exact ok.freed,
    by rw [regions]; exact ok.unique, by rw [next]; exact ok.next⟩

theorem SameObjects.accessRes {mem : Mem} (same : SameObjects mem mem') (a : Int) (cap : Cap) (size : Int)
    (kind : Rights) (align : Int) : accessRes mem' a cap size kind align = accessRes mem a cap size kind align := by
  unfold Nanofil.accessRes
  rw [same.1]

/-! ### Objects by base -/

theorem objectRegion_ok {rs : List Region} : objectRegion base rs = .ok r ↔ rs.find? (fun r => r.base = base) = some r := by
  unfold objectRegion
  cases rs.find? (fun r => r.base = base) <;> simp

theorem objectRegion_mem {rs : List Region} (found : objectRegion base rs = .ok r) : r ∈ rs ∧ r.base = base := by
  rw [objectRegion_ok] at found
  exact ⟨mem_of_find?_eq_some found, by simpa using find?_some found⟩

theorem find_erase_other (other : r.base ≠ base) (rs : List Region) :
    (rs.erase r).find? (fun r => r.base = base) = rs.find? (fun r => r.base = base) := by
  induction rs with
  | nil => rfl
  | cons r' rs ih =>
    by_cases same : r' = r
    · subst same
      simp [other]
    · rw [erase_cons_tail (by simpa using same)]
      simp only [find?_cons, ih]

theorem freeRegion_ok {mem : Mem} (ok : RegionsOk mem) (mem_r : r ∈ mem.regions)
    (based : r.base = base) : RegionsOk { mem with regions := freeRegion base r mem.regions } := by
  have bounds := ok.bounds r mem_r
  constructor
  · intro r' h
    rcases mem_cons.1 h with rfl | h
    · dsimp only
      omega
    · exact ok.bounds r' (mem_of_mem_erase h)
  · intro r' h life
    rcases mem_cons.1 h with rfl | h
    · rfl
    · exact ok.freed r' (mem_of_mem_erase h) life
  · have perm : (mem.regions.map (·.base)).Perm ((r :: mem.regions.erase r).map (·.base)) :=
      (perm_cons_erase mem_r).map _
    have nodup := perm.nodup_iff.1 ok.unique
    simp only [freeRegion, map_cons] at nodup ⊢
    rw [← based]
    exact nodup
  · exact ok.next

theorem freeRegion_evolves {mem : Mem} (found : objectRegion base mem.regions = .ok r) :
    Evolves mem { mem with regions := freeRegion base r mem.regions } := by
  obtain ⟨_, based⟩ := objectRegion_mem found
  intro base' r' found'
  by_cases same : base' = base
  · subst same
    rw [found] at found'
    cases found'
    exact ⟨{ base := base', end_ := base', kind := r.kind, life := .freed },
      by rw [objectRegion_ok]; simp [freeRegion], .inr ⟨rfl, rfl⟩⟩
  · refine ⟨r', ?_, .inl rfl⟩
    rw [objectRegion_ok] at found' ⊢
    have head : ¬ base = base' := fun h => same h.symm
    simp only [freeRegion, find?_cons, head, decide_false]
    rw [find_erase_other (by rw [based]; exact head)]
    exact found'

/-! ### Allocation -/

theorem roundUp_ge {n : Int} (pos : 0 < align) : n ≤ roundUp n align := by
  unfold roundUp
  have split := Int.emod_add_mul_ediv (n + align - 1) align
  have lt := Int.emod_lt_of_pos (n + align - 1) pos
  rw [Int.mul_comm] at split
  omega

theorem allocBase_objects {mode : AllocMode} {mem : Mem} {size : Int} (filc : mode ≠ .plain)
    (ok : RegionsOk mem) (positive : 0 ≤ size)
    (done : allocBase mode mem align size = some (base, mem')) : RegionsOk mem' ∧ Evolves mem mem' := by
  unfold allocBase at done
  simp only [ite_none_right_eq_some, Option.some.injEq, Prod.mk.injEq] at done
  obtain ⟨space, rfl, rfl⟩ := done
  have align16 : 0 < allocAlign mode align := by
    cases mode <;> simp only [allocAlign] <;> first | contradiction | omega
  have above := roundUp_ge (n := mem.next) align16
  have extent : 0 ≤ (allocExtent mode size).1 ∧
      (allocExtent mode size).1 ≤ allocationStride mode size (allocExtent mode size).1 := by
    have up : size ≤ roundUp size 16 := roundUp_ge (by omega)
    cases mode <;> simp only [allocExtent, allocationStride] <;> omega
  have below : roundUp mem.next (allocAlign mode align) +
      allocationStride mode size (allocExtent mode size).1 + 16 ≤ 281474976710656 := by
    cases mode <;> simp_all [addressSpace]
  have next := ok.next
  have fresh : ∀ r ∈ mem.regions, r.base ≠ roundUp mem.next (allocAlign mode align) := by
    intro r h
    have := ok.bounds r h
    omega
  refine ⟨⟨?_, ?_, ?_, ?_⟩, ?_⟩
  · intro r h
    rcases mem_cons.1 h with rfl | h
    · dsimp only
      omega
    · have := ok.bounds r h
      dsimp only
      omega
  · intro r h life
    rcases mem_cons.1 h with rfl | h
    · cases life
    · exact ok.freed r h life
  · simp only [map_cons, nodup_cons, List.mem_map, not_exists, not_and]
    exact ⟨fun r h => fresh r h, ok.unique⟩
  · dsimp only
    omega
  · intro base r found
    obtain ⟨h, based⟩ := objectRegion_mem found
    refine ⟨r, ?_, .inl rfl⟩
    rw [objectRegion_ok] at found ⊢
    have other : ¬ roundUp mem.next (allocAlign mode align) = base := by
      rw [← based]
      exact (fresh r h).symm
    simp only [find?_cons, other, decide_false]
    exact found

/-! ### What an access test says -/

/-- The object of a capability that can be accessed at all. -/
theorem accessRes_ok {mem : Mem} {size : Int} : accessRes mem a cap size kind align = .ok .ok ↔
      ∃ base r, capBase cap = some base ∧ objectRegion base mem.regions = .ok r ∧ inBounds r a size ∧
        a % align = 0 ∧ (kind = .write → ∀ b, cap ≠ .ro b) := by
  unfold accessRes
  cases cap with
  | none => simp [capAccessRes, capBase]
  | fn f => simp [capAccessRes, capBase]
  | ext n => simp [capAccessRes, capBase]
  | obj base =>
    simp only [capAccessRes, capBase, bind_ok, pure_ok, alignedRes]
    constructor
    · rintro ⟨r, found, h⟩
      split at h
      · split at h
        · exact ⟨base, r, rfl, found, ‹_›, ‹_›, by simp⟩
        · cases h
      · cases h
    · rintro ⟨_, r, based, found, inside, aligned, _⟩
      cases based
      exact ⟨r, found, by simp [inside, aligned]⟩
  | ro base =>
    simp only [capAccessRes, capBase, bind_ok, pure_ok]
    constructor
    · rintro ⟨r, found, h⟩
      split at h
      · cases kind with
        | read =>
          simp only [readonlyAccessRes, alignedRes] at h
          split at h
          · exact ⟨base, r, rfl, found, ‹_›, ‹_›, by simp⟩
          · cases h
        | write => simp [readonlyAccessRes] at h
      · cases h
    · rintro ⟨_, r, based, found, inside, aligned, writable⟩
      cases based
      cases kind with
      | read => exact ⟨r, found, by simp [inside, readonlyAccessRes, alignedRes, aligned]⟩
      | write => exact absurd rfl (writable rfl base)

/-- A test that fails on a live object's own bytes fails by rights or alignment. -/
theorem accessRes_trap {mem : Mem} {size : Int} {why : Why}
    (based : capBase cap = some base) (found : objectRegion base mem.regions = .ok r)
    (failed : accessRes mem a cap size kind align = .ok (.trap why)) :
    why = .outOfBounds ∧ ¬ inBounds r a size ∨ inBounds r a size ∧ why = .readonly ∧ cap = .ro base ∧ kind = .write ∨
      inBounds r a size ∧ why = .misaligned ∧ a % align ≠ 0 := by
  unfold accessRes at failed
  cases cap with
  | none => cases based
  | fn f => cases based
  | ext n => cases based
  | obj b =>
    cases based
    simp only [capAccessRes, bind_ok, pure_ok, found, Except.ok.injEq, exists_eq_left', alignedRes] at failed
    split at failed
    · split at failed
      · cases failed
      · cases failed
        exact .inr (.inr ⟨‹_›, rfl, ‹_›⟩)
    · cases failed
      exact .inl ⟨rfl, ‹_›⟩
  | ro b =>
    cases based
    simp only [capAccessRes, bind_ok, pure_ok, found, Except.ok.injEq, exists_eq_left'] at failed
    split at failed
    · cases kind with
      | read =>
        simp only [readonlyAccessRes, alignedRes] at failed
        split at failed
        · cases failed
        · cases failed
          exact .inr (.inr ⟨‹_›, rfl, ‹_›⟩)
      | write =>
        cases failed
        exact .inr (.inl ⟨‹_›, rfl, rfl, rfl⟩)
    · cases failed
      exact .inl ⟨rfl, ‹_›⟩

/-- An access test's reason is never one of a reused proof's. -/
theorem accessRes_why {mem : Mem} {size : Int} {why : Why} (failed : accessRes mem a cap size kind align = .ok (.trap why)) :
    why = .nullCapability ∨ why = .outOfBounds ∨ why = .readonly ∨ why = .misaligned := by
  cases based : capBase cap with
  | none =>
    unfold accessRes at failed
    cases cap <;> simp_all [capAccessRes, capBase]
  | some base =>
    have found : ∃ r, objectRegion base mem.regions = .ok r := by
      unfold accessRes at failed
      cases cap <;> simp_all only [capAccessRes, capBase, bind_ok, Option.some.injEq, reduceCtorEq]
      all_goals exact ⟨_, failed.choose_spec.1⟩
    obtain ⟨r, found⟩ := found
    rcases accessRes_trap based found failed with h | h | h
    · exact .inr (.inl h.1)
    · exact .inr (.inr (.inl h.2.1))
    · exact .inr (.inr (.inr h.2.1))

end Nanofil
