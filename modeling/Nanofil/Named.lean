import Nanofil.Events

/-! The operations of a Fil-C run: their memory comes of events, what they yield names the
objects that they were given, and one that yields nothing leaves memory as it was. -/
namespace Nanofil
open List Results

structure YieldsNamed (mem : Mem) (r : Res Word × Mem) : Prop where
  events : Events mem r.2
  word : ∀ x, r.1 = .val x → WordNamed r.2 x
  stopped : (∀ x, r.1 ≠ .val x) → r.2 = mem

structure StoresNamed (mem : Mem) (r : Res Unit × Mem) : Prop where
  events : Events mem r.2
  stopped : r.1 ≠ .val () → r.2 = mem

section
variable {mem : Mem}

variable {r : Res Word × Mem} {x y addr p : Word} {a : Int} {t : LoadType} {cap : Cap} {op : Op} {xs : List Word}

theorem YieldsNamed.same (same : r.2 = mem) (word : ∀ x, r.1 = .val x → WordNamed mem x) : YieldsNamed mem r :=
  ⟨same ▸ .refl, fun x h => same ▸ word x h, fun _ => same⟩

theorem YieldsNamed.raw (yields : YieldsNamed mem r) : YieldsNamed mem (rawRes r.1, r.2) := by
  refine ⟨yields.events, fun x h => yields.word x ?_, fun none => yields.stopped fun x h => none x (by rw [h]; rfl)⟩
  cases res : r.1 <;> rw [res] at h <;> cases h
  rfl

theorem StoresNamed.raw {r : Res Unit × Mem} (stores : StoresNamed mem r) : StoresNamed mem (rawRes r.1, r.2) :=
  ⟨stores.events, fun none => stores.stopped fun h => none (by rw [h]; rfl)⟩

theorem wordAtClass_named {k : Cls} (named : WordNamed mem x) (done : wordAtClass k x = .ok y) : WordNamed mem y := by
  unfold wordAtClass at done
  split at done
  · cases done
    exact named
  · cases done
    exact named
  · cases done
    exact named
  · cases done
    exact named
  · simp only [bind_ok, pure_ok] at done
    obtain ⟨m, _, rfl⟩ := done
    exact wordNamed_int _
  · cases done

/-! ### Loads and stores -/

theorem widthBytes_pos (wd : Width) : (0 : Int) < widthBytes wd := by
  cases wd <;> decide

theorem storeRes_stores (ok : Discipline mem) {wd : Width} {r : Res Unit × Mem} (named : WordNamed mem x)
    (done : storeRes .filc wd mem addr x = .ok r) : StoresNamed mem r := by
  cases addr with
  | int | limit => cases done
  | ptr a cap =>
    simp only [storeRes, bind_ok, pure_ok] at done
    obtain ⟨vas, word, test, passes, mem', stored, rfl⟩ := done
    cases test with
    | trap why =>
      cases stored
      exact ⟨.refl, fun _ => rfl⟩
    | ok =>
      obtain ⟨region, h, live, low, high⟩ := access_live ok.regions (widthBytes_pos wd) passes
      simp only [accessStore, bind_ok, pure_ok] at stored
      obtain ⟨n, _, rfl⟩ := stored
      refine ⟨?_, fun h => absurd rfl h⟩
      unfold widthWord at word
      split at word
      · cases word
        exact loweredWrite_events h live low high named n
      · cases word
      · cases word
        exact .single (writeBytes_event h live low high n)
      · cases word
        exact .single (writeBytes_event h live low high n)

theorem pointerAccessLoad_named (ok : Discipline mem) {r : Word × Mem} (done : pointerAccessLoad mem a = .ok r) :
    r.2 = mem ∧ WordNamed mem r.1 := by
  obtain ⟨n, load⟩ := loadRes_pure mem a 8
  simp only [pointerAccessLoad, load] at done
  cases done
  exact ⟨rfl, ok.registered a⟩

theorem intLoadRes_pure {size : Nat} {r : Res Int × Mem} (done : intLoadRes .filc size addr mem = .ok r) : r.2 = mem := by
  cases addr with
  | int | limit => cases done
  | ptr a cap =>
    simp only [intLoadRes, bind_ok] at done
    obtain ⟨test, _, done⟩ := done
    split at done
    · cases done
      obtain ⟨n, load⟩ := loadRes_pure mem a size
      rw [load]
    · cases done
      rfl

theorem extendedRes_named {res : Res Int} {k : Cls} {r : Res Word} (done : extendedRes res t k = .ok r)
    (is : r = .val x) : WordNamed mem x := by
  cases res <;> simp only [extendedRes, bind_ok, pure_ok] at done
  · obtain ⟨_, _, _, _, rfl⟩ := done
    cases is
    exact wordNamed_int _
  all_goals
    cases done
    cases is

theorem word_named {res : Res Int} {x : Word} (is : res.word = .val x) : WordNamed mem x := by
  cases res <;> cases is
  exact wordNamed_int _

theorem pointerLoadRes_yields (ok : Discipline mem) (done : pointerLoadRes .filc addr mem = .ok r) : YieldsNamed mem r := by
  cases addr with
  | int | limit => cases done
  | ptr a cap =>
    simp only [pointerLoadRes, bind_ok] at done
    obtain ⟨test, _, done⟩ := done
    split at done
    · simp only [bind_ok, pure_ok] at done
      obtain ⟨x, loaded, rfl⟩ := done
      obtain ⟨same, named⟩ := pointerAccessLoad_named ok loaded
      exact .same same fun y h => by cases h; exact named
    · cases done
      exact .same rfl fun y h => by cases h

theorem loadOpRes_yields (ok : Discipline mem) {k : Cls} (done : loadOpRes t k .filc addr mem = .ok r) : YieldsNamed mem r := by
  have wide : ∀ {n}, (do let r ← intLoadRes .filc n addr mem; return (r.1.word, r.2)) = .ok r → YieldsNamed mem r := by
    intro n done
    simp only [bind_ok, pure_ok] at done
    obtain ⟨x, loaded, rfl⟩ := done
    exact .same (intLoadRes_pure loaded) fun y h => word_named h
  have narrow : ∀ {n}, (do let r ← intLoadRes .filc n addr mem; return (← extendedRes r.1 t k, r.2)) = .ok r → YieldsNamed mem r := by
    intro n done
    simp only [bind_ok, pure_ok] at done
    obtain ⟨x, loaded, y, extended, rfl⟩ := done
    exact .same (intLoadRes_pure loaded) fun z h => extendedRes_named extended h
  cases t <;> first | exact pointerLoadRes_yields ok done | exact wide done | exact narrow done

/-! ### Pointer protocols -/

theorem pointerLoadEffectsRes_yields (ok : Discipline mem) {check : Check} {es : List Effect}
    (done : pointerLoadEffectsRes check es a mem = .ok r) : YieldsNamed mem r := by
  cases check with
  | trap why =>
    cases done
    exact .same rfl fun y h => by cases h
  | ok =>
    simp only [pointerLoadEffectsRes, bind_ok, pure_ok] at done
    obtain ⟨x, loaded, rfl⟩ := done
    have kept : x.mem = mem ∧ CapNamed mem x.aux ∧ CapNamed mem x.lower := by
      refine foldlM_keeps (I := fun x : Loaded => x.mem = mem ∧ CapNamed mem x.aux ∧ CapNamed mem x.lower)
        (fun e _ x y before done => ?_) ⟨rfl, capNamed_none, capNamed_none⟩ loaded
      obtain ⟨same, aux, lower⟩ := before
      have read : ∀ {x : Loaded}, x.mem = mem → CapNamed mem (auxCap x.mem a) := fun same => same ▸ ok.registered a
      have address : ∀ {x y : Loaded}, x.mem = mem → addressRead a x = .ok y → y.mem = mem ∧ y.aux = x.aux ∧ y.lower = x.lower := by
        intro x y same done
        obtain ⟨n, load⟩ := loadRes_pure x.mem a 8
        simp only [addressRead, load] at done
        cases done
        exact ⟨same, rfl, rfl⟩
      cases e <;> simp only [pointerLoadEffect] at done
      case auxRead =>
        cases done
        exact ⟨same, read same, read same⟩
      case lowerResolve =>
        cases done
        exact ⟨same, aux, aux⟩
      case addressRead =>
        obtain ⟨same', aux', lower'⟩ := address same done
        exact ⟨same', aux' ▸ aux, lower' ▸ lower⟩
      case atomicRead =>
        obtain ⟨same', aux', lower'⟩ := address (x := auxRead a x) same done
        exact ⟨same', aux' ▸ read same, lower' ▸ read same⟩
      all_goals cases done
    exact .same kept.1 fun y h => by cases h; exact kept.2.2

theorem pointerStoreEffectsRes_stores (ok : Discipline mem) {check : Check} {es : List Effect} {kind : Rights} {align : Int} (test : accessRes mem a cap 8 kind align = .ok check) {r : Res Unit × Mem}
    (named : WordNamed mem x) (done : pointerStoreEffectsRes check es a x mem = .ok r) : StoresNamed mem r := by
  cases check with
  | trap why =>
    cases done
    exact ⟨.refl, fun _ => rfl⟩
  | ok =>
    obtain ⟨region, h, live, low, high⟩ := access_live ok.regions (by decide) test
    cases x with
    | int | limit => cases done
    | ptr u c =>
      simp only [pointerStoreEffectsRes, bind_ok, pure_ok] at done
      obtain ⟨mem', stored, rfl⟩ := done
      refine ⟨?_, fun h => absurd rfl h⟩
      refine (foldlM_keeps (I := fun m : Mem => Events mem m ∧ region ∈ m.regions)
        (fun e _ m m' before done => ?_) ⟨.refl, h⟩ stored).1
      obtain ⟨events, h⟩ := before
      have named : CapNamed m c := CapNamed.kept named events.kept
      cases e <;> simp only [pointerStoreEffect] at done <;> cases done
      all_goals first
        | exact ⟨events, h⟩
        | exact ⟨events.tail (lowerWrite_event h live low high named), h⟩
        | exact ⟨events.tail (writeBytes_event h live low high u), h⟩
        | exact ⟨events.trans (loweredWrite_events h live low high named u), h⟩

/-! ### Compare-exchange and variadic arguments -/

theorem WordNamed.events {mem' : Mem} (named : WordNamed mem x) (events : Events mem mem') : WordNamed mem' x :=
  CapNamed.kept named events.kept

theorem casChecked_yields (ok : Discipline mem) {region : Region} (h : region ∈ mem.regions) (live : region.life = .live) {k : Cls} {e n : Word} {size : Nat} (low : region.base ≤ a) (high : a + size ≤ region.end_)
    (eight : t = .p → size = 8) (named : WordNamed mem n) (done : casChecked t k e n a size mem = .ok r) :
    YieldsNamed mem r := by
  unfold casChecked at done
  split at done
  · rename_i nu nc
    simp only [bind_ok] at done
    obtain ⟨x, loaded, done⟩ := done
    obtain ⟨same, held⟩ := pointerAccessLoad_named ok loaded
    rw [same] at done
    have high8 : a + 8 ≤ region.end_ := by have := eight rfl; omega
    have swapped := loweredWrite_events h live low high8 (show CapNamed mem nc from named) nu
    split at done
    · cases done
      split
      · exact ⟨swapped, fun y h => by cases h; exact held.events swapped, fun none => (none _ rfl).elim⟩
      · exact .same rfl fun y h => by cases h; exact held
    · cases done
  · cases done
  · obtain ⟨u, load⟩ := loadRes_pure mem a size
    simp only [load, bind_ok, pure_ok] at done
    obtain ⟨res, cas, rfl⟩ := done
    have held : (∃ u, res = .val (.int u)) := by
      unfold casResult at cas
      split at cas
      · cases cas
        exact ⟨u, rfl⟩
      · simp only [extendedRes, bind_ok, pure_ok] at cas
        obtain ⟨v, _, m, _, rfl⟩ := cas
        exact ⟨_, rfl⟩
    obtain ⟨u', rfl⟩ := held
    split
    · exact ⟨.single (writeBytes_event h live low high _), fun y h => by cases h; exact wordNamed_int _, fun none => (none _ rfl).elim⟩
    · exact .same rfl fun y h => by cases h; exact wordNamed_int _
  · cases done

theorem casRes_yields (ok : Discipline mem) {k : Cls} {e n : Word}
    (named : WordNamed mem n) (done : casRes t k e n a cap mem = .ok r) : YieldsNamed mem r := by
  simp only [casRes, bind_ok, orNoRule_ok] at done
  obtain ⟨sa, sized, check, test, done⟩ := done
  have size : 0 < sa.1 ∧ (t = .p → sa.1 = 8) := by
    cases t <;> cases sized <;> decide
  cases check with
  | ok =>
    obtain ⟨region, h, live, low, high⟩ := access_live ok.regions size.1 test
    exact casChecked_yields ok h live low (by omega) (fun p => by rw [size.2 p]; rfl) named done
  | trap why =>
    cases done
    exact .same rfl fun y h => by cases h

theorem vaArgRes_yields (ok : Discipline mem) {k : Cls} (done : vaArgRes k p mem = .ok r) : YieldsNamed mem r := by
  simp only [vaArgRes, bind_ok] at done
  obtain ⟨cursor, loaded, done⟩ := done
  have cursorYields := pointerLoadRes_yields ok loaded
  have same : cursor.2 = mem := by
    cases p with
    | int | limit => cases loaded
    | ptr a cap =>
      simp only [pointerLoadRes, bind_ok] at loaded
      obtain ⟨test, _, loaded⟩ := loaded
      split at loaded
      · simp only [bind_ok, pure_ok] at loaded
        obtain ⟨x, loaded, rfl⟩ := loaded
        exact (pointerAccessLoad_named ok loaded).1
      · cases loaded
        rfl
  split at done
  · cases same
    simp only [bind_ok] at done
    obtain ⟨check, _, done⟩ := done
    cases check with
    | trap why =>
      cases done
      exact .same rfl fun y h => by cases h
    | ok =>
      simp only [vaCheckedRes, bind_ok] at done
      obtain ⟨st, stored, done⟩ := done
      have stores := storeRes_stores ok (wordNamed_int _) stored
      have ok' := stores.events.discipline ok
      split at done
      · rename_i trapped
        cases done
        exact .same (stores.stopped fun h => by rw [trapped] at h; cases h) fun y h => by cases h
      · split at done
        · simp only [bind_ok, pure_ok] at done
          obtain ⟨x, loaded, rfl⟩ := done
          obtain ⟨same, held⟩ := pointerAccessLoad_named ok' loaded
          exact ⟨same ▸ stores.events, fun y h => by cases h; exact same ▸ held, fun none => (none _ rfl).elim⟩
        · rename_i a cap _ _ _ _ _
          obtain ⟨n, load⟩ := loadRes_pure st.2 (roundUp a (vaCell k).2) (classBytes k)
          simp only [load, pure_ok] at done
          subst done
          exact ⟨stores.events, fun y h => @word_named _ (.val n) y h, fun none => (none _ rfl).elim⟩
  · cases same
    cases done
    exact .same rfl fun y h => by cases h
  · cases done

/-! ### Operations -/

theorem alu_named {k : Cls} (named : ∀ x ∈ xs, WordNamed mem x) (done : alu op k xs = .ok y) : WordNamed mem y := by
  unfold alu at done
  split at done
  · cases done
    exact wordNamed_int _
  · cases done
    exact capNamed_none
  · cases done
    exact named _ mem_cons_self
  · simp only [bind_ok, pure_ok] at done
    obtain ⟨_, _, rfl⟩ := done
    exact wordNamed_int _
  · simp only [bind_ok, pure_ok] at done
    obtain ⟨_, _, _, _, rfl⟩ := done
    exact wordNamed_int _
  · simp only [bind_ok, pure_ok] at done
    obtain ⟨_, _, rfl⟩ := done
    exact wordNamed_int _
  · cases done

theorem additiveRes_named {k : Cls} (named : ∀ x ∈ xs, WordNamed mem x)
    (done : additiveRes k op xs = .ok y) : WordNamed mem y := by
  unfold additiveRes at done
  split at done
  · simp only [bind_ok, pure_ok] at done
    obtain ⟨_, _, rfl⟩ := done
    have pointer := named _ mem_cons_self
    exact pointer
  · exact alu_named named done
  · exact alu_named named done
  · cases done

theorem valRes_yields {x : Except RunError Word} (named : ∀ y, x = .ok y → WordNamed mem y)
    (done : valRes mem x = .ok r) : YieldsNamed mem r := by
  simp only [valRes, bind_ok, pure_ok] at done
  obtain ⟨y, read, rfl⟩ := done
  exact .same rfl fun z h => by cases h; exact named y read

theorem keep_yields {x : Except RunError (Res Word)} (named : ∀ y, x = .ok (.val y) → WordNamed mem y)
    (done : keep mem x = .ok r) : YieldsNamed mem r := by
  obtain ⟨same, res⟩ := keep_effect done
  exact .same same fun y h => named y (res.trans (congrArg _ h))

/-- What a check of a pointer yields is that pointer. -/
theorem checked_named {res : Check} (named : WordNamed mem p) (is : checkedRes res p = .val x) : WordNamed mem x := by
  cases res <;> cases is
  exact named

theorem renewRes_named {res : Check} (named : WordNamed mem p)
    (done : renewRes res p cap mem = .ok (.val x)) : WordNamed mem x := by
  unfold renewRes at done
  split at done
  · cases done
    exact named
  · cases done
  · simp only [bind_ok, pure_ok] at done
    obtain ⟨freed, _, is⟩ := done
    split at is <;> cases is

theorem sameCapRes_yields {qs : List Word} {f : Int → Cap → Except RunError (Res Word)}
    (named : ∀ a c y, p = .ptr a c → f a c = .ok (.val y) → WordNamed mem y) (done : sameCapRes mem qs p f = .ok r) :
    YieldsNamed mem r := by
  unfold sameCapRes at done
  split at done
  · split at done
    · exact keep_yields (fun y => named _ _ y rfl) done
    · cases done
      exact .same rfl fun y h => by cases h
  · cases done
    exact .same rfl fun y h => by cases h

theorem proofRes_yields (named : ∀ x ∈ xs, WordNamed mem x) (done : proofRes op xs mem = .ok r) : YieldsNamed mem r := by
  have checks : ∀ {a cap lo hi rights align y}, WordNamed mem (.ptr a cap) →
      checkRes mem a cap lo hi rights align = .ok (.val y) → WordNamed mem y := by
    intro a cap lo hi rights align y named done
    simp only [checkRes, bind_ok, pure_ok] at done
    obtain ⟨res, _, is⟩ := done
    exact checked_named named is
  have renews : ∀ {a cap lo hi rights align y}, WordNamed mem (.ptr a cap) →
      renewOpRes mem a cap lo hi rights align = .ok (.val y) → WordNamed mem y := by
    intro a cap lo hi rights align y named done
    simp only [renewOpRes, bind_ok] at done
    obtain ⟨res, _, renewed⟩ := done
    exact renewRes_named named renewed
  unfold proofRes at done
  split at done
  · exact keep_yields (fun y => checks (named _ mem_cons_self)) done
  · refine keep_yields (fun y done => ?_) done
    simp only [checkAheadRes, bind_ok] at done
    obtain ⟨res, _, done⟩ := done
    split at done
    · cases done
    · simp only [bind_ok] at done
      obtain ⟨res, _, done⟩ := done
      split at done <;> cases done
      exact named _ mem_cons_self
  · exact sameCapRes_yields (fun a c y is => renews (is ▸ named _ (by simp))) done
  · exact sameCapRes_yields (fun a c y is => renews (is ▸ named _ (by simp))) done
  · refine sameCapRes_yields (fun a c y is done => ?_) done
    simp only [halfCheckRes, bind_ok] at done
    obtain ⟨res, _, passes, _, done⟩ := done
    cases passes with
    | none => cases done
    | some passes =>
      cases res <;> cases passes <;> cases done
      exact is ▸ named _ (by simp)
  · refine keep_yields (fun y done => ?_) done
    simp only [renewIfRes, bind_ok] at done
    obtain ⟨res, _, done⟩ := done
    split at done
    · simp only [pure_ok] at done
      exact checked_named (named _ mem_cons_self) done
    · split at done
      · cases done
      · exact renewRes_named (named _ mem_cons_self) done
  · refine keep_yields (fun y done => ?_) done
    unfold checkLimitRes at done
    split at done
    · exact checks (named _ mem_cons_self) done
    · cases done
  · cases done

theorem allocRes_yields (mem : Mem) (align : Int) {size : Int} (positive : 0 ≤ size) : YieldsNamed mem (allocRes .filc mem align size) := by
  unfold allocRes
  split
  · exact .same rfl fun y h => by cases h
  · split
    · rename_i base mem' done
      refine ⟨.single (.alloc (by simp [Mode.alloc]) positive done), fun y h => ?_, fun none => (none _ rfl).elim⟩
      cases h
      obtain ⟨r, regions, based, _⟩ := allocBase_regions done
      intro b is
      cases is
      exact registered_iff.2 ⟨r, regions ▸ mem_cons_self, based⟩
    · exact .same rfl fun y h => by cases h

/-- Allocation apart: only there do the sizes matter. -/
theorem kindRes_yields (ok : Discipline mem) {kind : OpKind} {k : Cls}
    (named : ∀ x ∈ xs, WordNamed mem x) (sizes : ∀ align size, op = .alloc align → xs = [.int size] → 0 ≤ size) (done : kindRes kind op k .filc xs mem = .ok r) : YieldsNamed mem r := by
  have proof : ∀ {op xs}, (∀ x ∈ xs, WordNamed mem x) →
      (if k = .a ∧ Mode.filc = .filc then proofRes op xs mem else .error .noRule) = .ok r → YieldsNamed mem r := by
    intro op xs named done
    split at done
    · exact proofRes_yields named done
    · cases done
  unfold kindRes at done
  split at done
  · cases done
  · exact loadOpRes_yields ok done
  · exact loadOpRes_yields ok done
  any_goals exact proof named done
  · split at done
    · refine keep_yields (fun y done => ?_) done
      unfold spanTestRes at done
      split at done
      · cases done
        exact wordNamed_int _
      · simp only [bind_ok, pure_ok] at done
        obtain ⟨_, _, is⟩ := done
        cases is
        exact wordNamed_int _
    · cases done
  · split at done
    · cases done
      have pointer := named _ mem_cons_self
      exact .same rfl fun y h => by cases h; exact pointer
    · cases done
  · simp only [if_true, bind_ok, pure_ok] at done
    obtain ⟨x, loaded, rfl⟩ := done
    exact (loadOpRes_yields ok loaded).raw
  · split at done
    · simp only [bind_ok] at done
      obtain ⟨check, _, done⟩ := done
      exact pointerLoadEffectsRes_yields ok done
    · cases done
  · simp only [if_true] at done
    exact casRes_yields ok (named _ (by simp)) done
  · simp only [if_true, bind_ok, pure_ok] at done
    obtain ⟨x, swapped, rfl⟩ := done
    exact (casRes_yields ok (named _ (by simp)) swapped).raw
  · cases done
    exact allocRes_yields mem _ (sizes _ _ rfl rfl)
  · simp only [if_true] at done
    exact vaArgRes_yields ok done
  · exact valRes_yields (fun y => additiveRes_named named) done
  any_goals exact valRes_yields (fun y => alu_named named) done
  · refine valRes_yields (fun y done => ?_) done
    unfold floatConvert at done
    split at done
    any_goals (split at done)
    any_goals (cases done; done)
    all_goals
      first | (cases done; exact wordNamed_int _) | skip
    all_goals
      simp only [bind_ok, pure_ok] at done
      obtain ⟨_, _, rfl⟩ := done
      exact wordNamed_int _
  · refine keep_yields (fun y done => ?_) done
    simp only [floatInteger, bind_ok] at done
    obtain ⟨src, _, m, _, done⟩ := done
    split at done
    · simp only [pure_ok] at done
      split at done <;> split at done <;> cases done <;> exact wordNamed_int _
    · cases done
  · refine valRes_yields (fun y done => ?_) done
    simp only [bind_ok, pure_ok] at done
    obtain ⟨_, _, _, _, rfl⟩ := done
    exact wordNamed_int _
  · cases done
    exact .same rfl fun y h => by cases h; exact wordNamed_int _
  · cases done

theorem opRes_yields (ok : Discipline mem) {k : Cls} (named : ∀ x ∈ xs, WordNamed mem x)
    (sizes : ∀ align size, op = .alloc align → xs = [.int size] → 0 ≤ size)
    (done : opRes op k .filc xs mem = .ok r) : YieldsNamed mem r := by
  unfold opRes at done
  split at done
  · split at done
    · cases done
      exact .same rfl fun y h => by cases h; exact wordNamed_int _
    · exact valRes_yields (fun y => alu_named named) done
  · split at done
    · refine valRes_yields (fun y done => ?_) done
      unfold floatArithmetic at done
      split at done
      · cases done
        exact wordNamed_int _
      · cases done
        exact wordNamed_int _
      · simp only [bind_ok, pure_ok] at done
        obtain ⟨_, _, rfl⟩ := done
        exact wordNamed_int _
      · cases done
    · simp only [bind_ok] at done
      obtain ⟨kind, _, done⟩ := done
      exact kindRes_yields ok named sizes done

end

end Nanofil
