import Mathlib.Logic.Relation
import Nanofil.Storage

/-! What a Fil-C run may do to its memory, one event at a time, and what every event keeps. -/
namespace Nanofil
open List Option Results

/-- A capability of an object names one that is registered. -/
def CapNamed (mem : Mem) (c : Cap) : Prop := ∀ base, capBase c = some base → Registered mem base

def capOfWord : Word → Cap
  | .int _ => .none
  | .ptr _ c | .limit c _ => c

abbrev WordNamed (mem : Mem) (x : Word) : Prop := CapNamed mem (capOfWord x)

/-- Objects have bases of their own, live ones are apart and below the next, and what memory
holds of capabilities is registered. -/
structure Discipline (mem : Mem) : Prop where
  regions : RegionsOk mem
  apart : mem.regions.Pairwise fun r r' => r.life = .live → r'.life = .live → r.end_ ≤ r'.base ∨ r'.end_ ≤ r.base
  below : ∀ r ∈ mem.regions, r.life = .live → r.end_ ≤ mem.next
  aux : ∀ a c, mem.aux a = some c → CapNamed mem c

/-- A write into a live object, a capability left with a pointer, an allocation or the end of an object. -/
inductive Event : Mem → Mem → Prop
  | write {mem : Mem} {r : Region} {a : Int} {bs : List Int} : r ∈ mem.regions → r.life = .live → r.base ≤ a →
      a + bs.length ≤ r.end_ → Event mem { mem with bytes := writtenBytes bs a mem.bytes }
  | lower {mem : Mem} {r : Region} {a : Int} {c : Cap} : r ∈ mem.regions → r.life = .live → r.base ≤ a →
      a + 8 ≤ r.end_ → CapNamed mem c → Event mem { mem with aux := update mem.aux a c }
  | alloc {mem mem' : Mem} {mode : AllocMode} {align size base : Int} : mode ≠ .plain → 0 ≤ size →
      allocBase mode mem align size = some (base, mem') → Event mem mem'
  | free {mem : Mem} {r : Region} : r ∈ mem.regions → r.life = .live →
      Event mem { mem with regions := freeRegion r.base r mem.regions }

abbrev Events : Mem → Mem → Prop := Relation.ReflTransGen Event

/-- What every event keeps of the objects there were. -/
structure Kept (mem mem' : Mem) : Prop where
  objects : ∀ base, Registered mem base → Registered mem' base
  freed : ∀ r ∈ mem.regions, r.life = .freed → r ∈ mem'.regions

section
variable {mem mem' : Mem}

theorem CapNamed.kept {c : Cap} (named : CapNamed mem c) (kept : Kept mem mem') : CapNamed mem' c :=
  fun base h => kept.objects base (named base h)

theorem capNamed_none : CapNamed mem .none := fun _ h => by cases h

theorem wordNamed_int (n : Int) : WordNamed mem (.int n) := capNamed_none

theorem allocBase_regions {mode : AllocMode} {align size base : Int} (done : allocBase mode mem align size = some (base, mem')) :
    ∃ r, mem'.regions = r :: mem.regions ∧ r.base = base ∧ r.life = .live ∧ mem'.bytes = mem.bytes ∧ mem'.aux = mem.aux := by
  unfold allocBase at done
  simp only [ite_none_right_eq_some, Option.some.injEq, Prod.mk.injEq] at done
  obtain ⟨_, rfl, rfl⟩ := done
  exact ⟨_, rfl, rfl, rfl, rfl, rfl⟩

theorem Event.kept (event : Event mem mem') : Kept mem mem' := by
  cases event with
  | write | lower => exact ⟨fun _ h => h, fun _ h _ => h⟩
  | alloc _ _ done =>
    obtain ⟨r, regions, _⟩ := allocBase_regions done
    refine ⟨fun base h => ?_, fun r' h _ => regions ▸ mem_cons_of_mem _ h⟩
    obtain ⟨r', h, based⟩ := registered_iff.1 h
    exact registered_iff.2 ⟨r', regions ▸ mem_cons_of_mem _ h, based⟩
  | @free r h live =>
    have keeps := freeRegion_keeps mem (r := r) rfl
    refine ⟨keeps.1, fun r' h' freed => keeps.2 r' h' fun same => ?_⟩
    rw [same, live] at freed
    cases freed

theorem Events.kept (events : Events mem mem') : Kept mem mem' := by
  induction events with
  | refl => exact ⟨fun _ h => h, fun _ h _ => h⟩
  | tail _ event ih =>
    exact ⟨fun b h => event.kept.objects b (ih.objects b h), fun r h freed => event.kept.freed r (ih.freed r h freed) freed⟩

theorem allocBase_extent {mode : AllocMode} {align size base : Int} (filc : mode ≠ .plain) (positive : 0 ≤ size)
    (done : allocBase mode mem align size = some (base, mem')) :
    ∃ r, mem'.regions = r :: mem.regions ∧ mem.next ≤ r.base ∧ r.end_ ≤ mem'.next ∧ mem.next ≤ mem'.next := by
  unfold allocBase at done
  simp only [ite_none_right_eq_some, Option.some.injEq, Prod.mk.injEq] at done
  obtain ⟨_, rfl, rfl⟩ := done
  have align16 : 0 < allocAlign mode align := by
    cases mode <;> simp only [allocAlign] <;> first | contradiction | omega
  have above : mem.next ≤ roundUp mem.next (allocAlign mode align) := roundUp_ge align16
  have extent : 0 ≤ (allocExtent mode size).1 ∧
      (allocExtent mode size).1 ≤ allocationStride mode size (allocExtent mode size).1 := by
    have up : size ≤ roundUp size 16 := roundUp_ge (by omega)
    cases mode <;> simp only [allocExtent, allocationStride] <;> omega
  exact ⟨_, rfl, above, by dsimp only; omega, by dsimp only; omega⟩

theorem Event.discipline (event : Event mem mem') (ok : Discipline mem) : Discipline mem' := by
  have kept := event.kept
  cases event with
  | write => exact ⟨⟨ok.regions.bounds, ok.regions.freed, ok.regions.unique, ok.regions.next⟩, ok.apart, ok.below, ok.aux⟩
  | lower _ _ _ _ named =>
    refine ⟨⟨ok.regions.bounds, ok.regions.freed, ok.regions.unique, ok.regions.next⟩, ok.apart, ok.below, fun b d known => ?_⟩
    simp only [update] at known
    split at known
    · cases known
      exact named
    · exact ok.aux b d known
  | alloc filc positive done =>
    obtain ⟨regions, _⟩ := allocBase_objects filc ok.regions positive done
    obtain ⟨r, laid, above, below, next⟩ := allocBase_extent filc positive done
    obtain ⟨_, _, _, _, _, aux⟩ := allocBase_regions done
    refine ⟨regions, ?_, fun r' h live => ?_, fun a c known => (ok.aux a c (aux ▸ known)).kept kept⟩
    · rw [laid, pairwise_cons]
      refine ⟨fun r' h _ live => .inr ?_, ok.apart⟩
      have := ok.below r' h live
      omega
    · rw [laid] at h
      rcases mem_cons.1 h with rfl | h
      · exact below
      · have := ok.below r' h live
        omega
  | @free r h live =>
    refine ⟨freeRegion_ok ok.regions h rfl, ?_, fun r' h' live' => ?_, fun a c known => (ok.aux a c known).kept kept⟩
    · show (_ :: mem.regions.erase r).Pairwise _
      rw [pairwise_cons]
      exact ⟨fun r' _ freed => (by cases freed), ok.apart.sublist erase_sublist⟩
    · rcases mem_cons.1 h' with rfl | h'
      · cases live'
      · exact ok.below r' (mem_of_mem_erase h') live'

theorem Events.discipline (events : Events mem mem') (ok : Discipline mem) : Discipline mem' := by
  induction events with
  | refl => exact ok
  | tail _ event ih => exact event.discipline ih

theorem Discipline.registered (ok : Discipline mem) (a : Int) : CapNamed mem (auxCap mem a) := by
  unfold auxCap
  cases known : mem.aux a with
  | none => exact capNamed_none
  | some c => exact ok.aux a c known

/-! ### Writes -/

/-- An access that passes is of a live object. -/
theorem access_live (ok : RegionsOk mem) {a size align : Int} {cap : Cap} {kind : Rights} (positive : 0 < size)
    (passes : accessRes mem a cap size kind align = .ok .ok) :
    ∃ r ∈ mem.regions, r.life = .live ∧ r.base ≤ a ∧ a + size ≤ r.end_ := by
  obtain ⟨base, r, _, found, inside, _⟩ := accessRes_ok.1 passes
  obtain ⟨h, _⟩ := objectRegion_mem found
  obtain ⟨low, high⟩ := inside
  refine ⟨r, h, ?_, low, high⟩
  cases life : r.life with
  | live => rfl
  | freed =>
    have empty := ok.freed r h life
    omega

theorem writtenBytes_outside {bs : List Int} : ∀ {a b : Int} {bytes : Int → Option Int}, b < a ∨ a + bs.length ≤ b →
    writtenBytes bs a bytes b = bytes b := by
  induction bs with
  | nil => exact fun _ => rfl
  | cons x bs ih =>
    intro a b bytes outside
    simp only [length_cons] at outside
    have other : b ≠ a := by omega
    simp only [writtenBytes]
    rw [ih (by omega), update, if_neg other]

theorem bytesAt_filc (unknown : Int → Fin 256) (n : Nat) : ∀ (a : Int) (bytes : Int → Option Int),
    (bytesAt .filc unknown n a bytes).2 = bytes := by
  induction n with
  | zero => exact fun _ _ => rfl
  | succ n ih =>
    intro a bytes
    simp only [bytesAt, ih]
    split <;> rfl

/-- A Fil-C load leaves memory as it is. -/
theorem loadRes_pure (mem : Mem) (a : Int) (size : Nat) : ∃ n, loadRes .filc mem a size = (.val n, mem) := by
  unfold loadRes
  rw [if_pos (.inl rfl)]
  dsimp only
  rw [bytesAt_filc]
  exact ⟨_, rfl⟩

section
variable {r : Region} (h : r ∈ mem.regions) (live : r.life = .live) {a : Int} (low : r.base ≤ a)
include h live low

theorem writeBytes_event {size : Nat} (high : a + size ≤ r.end_) (v : Int) : Event mem (writeBytes mem a size v) :=
  .write h live low (by rw [leBytes_length]; exact high)

theorem lowerWrite_event (high : a + 8 ≤ r.end_) {c : Cap} (named : CapNamed mem c) : Event mem (lowerWrite a c mem) :=
  .lower h live low high named

theorem loweredWrite_events (high : a + 8 ≤ r.end_) {c : Cap} (named : CapNamed mem c) (v : Int) :
    Events mem (writeBytes (lowerWrite a c mem) a 8 v) :=
  .tail (.single (lowerWrite_event h live low high named)) (.write h live low (by rw [leBytes_length]; exact high))

end

end

end Nanofil
