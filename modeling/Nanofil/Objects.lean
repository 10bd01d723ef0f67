import Nanofil.Module
import Nanofil.Regions

/-! What the operations of a Fil-C run do to its objects, and which of them can
find an access unchecked. -/
namespace Nanofil
open Results

/-- The result is no unchecked access. -/
def Res.Checked {α : Type} (r : Res α) : Prop := ∀ why, r ≠ .unchecked why

variable {α : Type} {addr p : Word} {mode : Mode} {t : LoadType} {a : Int} {r : Res Word × Mem} {es : List Effect} {op : Op}
  {xs : List Word}

@[simp] theorem Res.checked_val (x : α) : (Res.val x).Checked := by simp [Res.Checked]
@[simp] theorem Res.checked_ub (u : Ub) : (Res.ub u : Res α).Checked := by simp [Res.Checked]
@[simp] theorem Res.checked_trap (why : Why) : (Res.trap why : Res α).Checked := by simp [Res.Checked]

/-! ### Loads -/

theorem loadRes_same (mode : Mode) (mem : Mem) (a : Int) (size : Nat) :
    SameObjects mem (loadRes mode mem a size).2 := by
  unfold loadRes
  split <;> exact ⟨rfl, rfl⟩

theorem loadRes_checked (mode : Mode) (mem : Mem) (a : Int) (size : Nat) :
    (loadRes mode mem a size).1.Checked := by
  unfold loadRes
  split <;> simp

theorem intLoadRes_effect {size : Nat} {mem : Mem} {r : Res Int × Mem}
    (done : intLoadRes mode size addr mem = .ok r) : SameObjects mem r.2 ∧ r.1.Checked := by
  unfold intLoadRes at done
  split at done
  · cases done
    exact ⟨loadRes_same .plain mem _ size, loadRes_checked .plain mem _ size⟩
  · simp only [bind_ok] at done
    obtain ⟨check, _, done⟩ := done
    cases check <;> cases done
    · exact ⟨loadRes_same .filc mem _ size, loadRes_checked .filc mem _ size⟩
    · simp
  · cases done

theorem extendedRes_checked {res : Res Int} {k : Cls} {r : Res Word} (checked : res.Checked)
    (done : extendedRes res t k = .ok r) : r.Checked := by
  cases res with
  | val u =>
    simp only [extendedRes, bind_ok, pure_ok] at done
    obtain ⟨_, _, _, _, rfl⟩ := done
    simp
  | ub u => cases done; simp
  | trap why => cases done; simp
  | unchecked why => exact absurd rfl (checked why)

theorem word_checked {res : Res Int} (checked : res.Checked) : res.word.Checked := by
  cases res with
  | unchecked why => exact absurd rfl (checked why)
  | _ => simp [Res.word]

theorem pointerAccessLoad_same {mem : Mem} {r : Word × Mem} (done : pointerAccessLoad mem a = .ok r) : SameObjects mem r.2 := by
  unfold pointerAccessLoad at done
  split at done
  · rename_i u mem' loaded
    cases done
    have same := loadRes_same .filc mem a 8
    rwa [loaded] at same
  · cases done

theorem pointerLoadRes_effect {mem : Mem} (done : pointerLoadRes mode addr mem = .ok r) : SameObjects mem r.2 ∧ r.1.Checked := by
  unfold pointerLoadRes at done
  split at done
  · simp only [bind_ok] at done
    obtain ⟨check, _, done⟩ := done
    cases check with
    | ok =>
      simp only [bind_ok, pure_ok] at done
      obtain ⟨x, loaded, rfl⟩ := done
      exact ⟨pointerAccessLoad_same loaded, by simp⟩
    | trap why =>
      cases done
      simp
  · cases done

theorem loadOpRes_effect {k : Cls} {mem : Mem}
    (done : loadOpRes t k mode addr mem = .ok r) : SameObjects mem r.2 ∧ r.1.Checked := by
  cases t with
  | p => exact pointerLoadRes_effect done
  | l | s | d | x =>
    simp only [loadOpRes, bind_ok, pure_ok] at done
    obtain ⟨x, loaded, rfl⟩ := done
    obtain ⟨same, checked⟩ := intLoadRes_effect loaded
    exact ⟨same, word_checked checked⟩
  | sw | uw | sh | uh | sb | ub =>
    simp only [loadOpRes, bind_ok, pure_ok] at done
    obtain ⟨x, loaded, y, extended, rfl⟩ := done
    obtain ⟨same, checked⟩ := intLoadRes_effect loaded
    exact ⟨same, extendedRes_checked checked extended⟩

/-! ### Stores -/

@[simp] theorem writeBytes_same (mem : Mem) (a : Int) (size : Nat) (v : Int) :
    SameObjects mem (writeBytes mem a size v) := ⟨rfl, rfl⟩

@[simp] theorem lowerWrite_same (a : Int) (c : Cap) (mem : Mem) : SameObjects mem (lowerWrite a c mem) := ⟨rfl, rfl⟩

theorem accessStore_same {res : Check} {mem mem' : Mem} {size : Nat} {v : Word} {stored : Option Cap}
    (done : accessStore res mem a size v stored = .ok mem') : SameObjects mem mem' := by
  cases res with
  | ok =>
    simp only [accessStore, bind_ok, pure_ok] at done
    obtain ⟨_, _, rfl⟩ := done
    exact ⟨rfl, rfl⟩
  | trap why =>
    cases done
    simp

theorem storeRes_effect {wd : Width} {mem : Mem} {x : Word} {r : Res Unit × Mem}
    (done : storeRes mode wd mem addr x = .ok r) : SameObjects mem r.2 ∧ r.1.Checked := by
  unfold storeRes at done
  split at done
  · split at done
    · simp only [bind_ok, pure_ok] at done
      obtain ⟨_, _, rfl⟩ := done
      simp
    · cases done
      simp
  · simp only [bind_ok, pure_ok] at done
    obtain ⟨_, _, check, _, mem', stored, rfl⟩ := done
    refine ⟨accessStore_same stored, ?_⟩
    cases check <;> simp [storeResult]
  · cases done

/-! ### Pointer protocols -/

theorem pointerLoadEffect_same {x y : Loaded} {e : Effect} (done : pointerLoadEffect a x e = .ok y) :
    SameObjects x.mem y.mem := by
  have read : ∀ z : Loaded, z.mem = x.mem → addressRead a z = .ok y → SameObjects x.mem y.mem := by
    intro z same done
    unfold addressRead at done
    split at done
    · rename_i u mem' loaded
      cases done
      have objects := loadRes_same .filc z.mem a 8
      rw [loaded, same] at objects
      exact objects
    · cases done
  cases e with
  | auxRead => cases done; exact .refl _
  | lowerResolve => cases done; exact .refl _
  | atomicRead => exact read (auxRead a x) rfl done
  | addressRead => exact read _ rfl done
  | _ => cases done

theorem pointerLoadEffects_same : ∀ {x y : Loaded}, es.foldlM (pointerLoadEffect a) x = .ok y → SameObjects x.mem y.mem := by
  induction es with
  | nil =>
    intro x y done
    simp only [List.foldlM_nil, pure_ok] at done
    exact done ▸ .refl _
  | cons e es ih =>
    intro x y done
    simp only [List.foldlM_cons, bind_ok] at done
    obtain ⟨z, first, done⟩ := done
    exact (pointerLoadEffect_same first).trans (ih done)

theorem pointerLoadEffectsRes_effect {check : Check} {mem : Mem} (done : pointerLoadEffectsRes check es a mem = .ok r) :
    SameObjects mem r.2 ∧ (∀ why, r.1 = .unchecked why ↔ check = .trap why) := by
  cases check with
  | ok =>
    simp only [pointerLoadEffectsRes, bind_ok, pure_ok] at done
    obtain ⟨x, loaded, rfl⟩ := done
    exact ⟨pointerLoadEffects_same loaded, by simp⟩
  | trap why =>
    cases done
    simp

theorem pointerStoreEffect_same {u : Int} {c : Cap} {mem mem' : Mem} {e : Effect}
    (done : pointerStoreEffect a u c mem e = .ok mem') : SameObjects mem mem' := by
  cases e <;> cases done <;> exact ⟨rfl, rfl⟩

theorem pointerStoreEffects_same {u : Int} {c : Cap} : ∀ {mem mem' : Mem},
    es.foldlM (pointerStoreEffect a u c) mem = .ok mem' → SameObjects mem mem' := by
  induction es with
  | nil =>
    intro mem mem' done
    simp only [List.foldlM_nil, pure_ok] at done
    exact done ▸ .refl _
  | cons e es ih =>
    intro mem mem' done
    simp only [List.foldlM_cons, bind_ok] at done
    obtain ⟨mem1, first, done⟩ := done
    exact (pointerStoreEffect_same first).trans (ih done)

theorem pointerStoreEffectsRes_effect {check : Check} {x : Word} {mem : Mem}
    {r : Res Unit × Mem} (done : pointerStoreEffectsRes check es a x mem = .ok r) :
    SameObjects mem r.2 ∧ (∀ why, r.1 = .unchecked why ↔ check = .trap why) := by
  unfold pointerStoreEffectsRes at done
  split at done
  · simp only [bind_ok, pure_ok] at done
    obtain ⟨mem', stored, rfl⟩ := done
    exact ⟨pointerStoreEffects_same stored, by simp⟩
  · cases done
  · cases done
    simp

/-! ### Compare-exchange and variadic arguments -/

theorem casChecked_effect {k : Cls} {e n : Word} {size : Nat} {mem : Mem} (done : casChecked t k e n a size mem = .ok r) : SameObjects mem r.2 ∧ r.1.Checked := by
  unfold casChecked at done
  split at done
  · simp only [bind_ok] at done
    obtain ⟨x, loaded, done⟩ := done
    have same := pointerAccessLoad_same loaded
    split at done
    · simp only [pure_ok] at done
      subst done
      refine ⟨?_, by simp⟩
      dsimp only
      split
      · exact same.trans ((lowerWrite_same _ _ _).trans (writeBytes_same _ _ _ _))
      · exact same
    · cases done
  · cases done
  · split at done
    · rename_i u mem1 loaded
      have same := loadRes_same .filc mem a size
      rw [loaded] at same
      simp only [bind_ok, pure_ok] at done
      obtain ⟨res, extended, rfl⟩ := done
      refine ⟨?_, ?_⟩
      · dsimp only
        split
        · exact same.trans (writeBytes_same _ _ _ _)
        · exact same
      · unfold casResult at extended
        split at extended
        · cases extended
          simp
        · exact extendedRes_checked (by simp) extended
    · cases done
  · cases done

theorem casRes_effect {k : Cls} {e n : Word} {cap : Cap} {mem : Mem} (done : casRes t k e n a cap mem = .ok r) : SameObjects mem r.2 ∧ r.1.Checked := by
  simp only [casRes, bind_ok] at done
  obtain ⟨sa, _, check, _, done⟩ := done
  cases check with
  | ok => exact casChecked_effect done
  | trap why =>
    cases done
    simp

theorem vaCheckedRes_effect {k : Cls} {step : Int} {mem : Mem}
    (done : vaCheckedRes k p a step mem = .ok r) : SameObjects mem r.2 ∧ r.1.Checked := by
  simp only [vaCheckedRes, bind_ok] at done
  obtain ⟨st, stored, done⟩ := done
  have same := (storeRes_effect stored).1
  split at done
  · cases done
    exact ⟨same, by simp⟩
  · split at done
    · simp only [bind_ok, pure_ok] at done
      obtain ⟨x, loaded, rfl⟩ := done
      exact ⟨same.trans (pointerAccessLoad_same loaded), by simp⟩
    · simp only [pure_ok] at done
      subst done
      exact ⟨same.trans (loadRes_same .filc _ _ _), word_checked (loadRes_checked .filc _ _ _)⟩

theorem vaArgRes_effect {k : Cls} {mem : Mem} (done : vaArgRes k p mem = .ok r) : SameObjects mem r.2 ∧ r.1.Checked := by
  simp only [vaArgRes, bind_ok] at done
  obtain ⟨cursor, loaded, done⟩ := done
  have same := (pointerLoadRes_effect loaded).1
  split at done
  · simp only [bind_ok] at done
    obtain ⟨check, _, done⟩ := done
    cases check with
    | ok =>
      obtain ⟨same', checked⟩ := vaCheckedRes_effect done
      exact ⟨same.trans same', checked⟩
    | trap why =>
      cases done
      exact ⟨same, by simp⟩
  · cases done
    exact ⟨same, by simp⟩
  · cases done

/-! ### Operations -/

theorem valRes_effect {mem : Mem} {x : Except RunError Word} (done : valRes mem x = .ok r) : r.2 = mem ∧ r.1.Checked := by
  simp only [valRes, bind_ok, pure_ok] at done
  obtain ⟨_, _, rfl⟩ := done
  simp

theorem keep_effect {mem : Mem} {x : Except RunError (Res Word)} (done : keep mem x = .ok r) : r.2 = mem ∧ x = .ok r.1 := by
  simp only [keep, bind_ok, pure_ok] at done
  obtain ⟨y, h, rfl⟩ := done
  exact ⟨rfl, h⟩

theorem floatInteger_checked {k : Cls} {x : Int} {r : Res Word} (done : floatInteger op k x = .ok r) : r.Checked := by
  simp only [floatInteger, bind_ok] at done
  obtain ⟨src, _, m, _, done⟩ := done
  split at done
  · simp only [pure_ok] at done
    subst done
    split <;> split <;> simp
  · cases done
    simp

theorem sameCapRes_mem {mem : Mem} {qs : List Word} {f : Int → Cap → Except RunError (Res Word)} (done : sameCapRes mem qs p f = .ok r) : r.2 = mem := by
  unfold sameCapRes at done
  split at done
  · split at done
    · exact (keep_effect done).1
    · cases done; rfl
  · cases done; rfl

theorem proofRes_mem {mem : Mem} (done : proofRes op xs mem = .ok r) : r.2 = mem := by
  unfold proofRes at done
  split at done
  any_goals exact (keep_effect done).1
  any_goals exact sameCapRes_mem done
  cases done

theorem proofRes_op {mem : Mem} (done : proofRes op xs mem = .ok r) : checkedOp op = true := by
  unfold proofRes at done
  split at done
  any_goals rfl
  cases done

/-- Only an allocation changes the objects. -/
theorem kindRes_same {kind : OpKind} {k : Cls} {mem : Mem} (done : kindRes kind op k mode xs mem = .ok r) (noAlloc : ∀ n, op ≠ .alloc n) :
    SameObjects mem r.2 := by
  have same : ∀ {mem' : Mem}, mem' = mem → SameObjects mem mem' := fun h => h ▸ .refl mem
  unfold kindRes at done
  split at done
  any_goals exact same (valRes_effect done).1
  any_goals exact same (keep_effect done).1
  any_goals exact (loadOpRes_effect done).1
  any_goals
    split at done
    all_goals first
      | exact same (proofRes_mem done)
      | exact same (keep_effect done).1
      | exact (casRes_effect done).1
      | exact (vaArgRes_effect done).1
      | skip
  any_goals exact absurd rfl (noAlloc _)
  any_goals (cases done; done)
  · cases done; exact .refl _
  · simp only [bind_ok, pure_ok] at done
    obtain ⟨x, loaded, rfl⟩ := done
    exact (loadOpRes_effect loaded).1
  · simp only [bind_ok] at done
    obtain ⟨check, _, done⟩ := done
    exact (pointerLoadEffectsRes_effect done).1
  · simp only [bind_ok, pure_ok] at done
    obtain ⟨x, swapped, rfl⟩ := done
    exact (casRes_effect swapped).1
  · cases done; exact .refl _

/-- Only a checked operation can find an access unchecked. -/
theorem kindRes_checked {kind : OpKind} {k : Cls} {mem : Mem} (done : kindRes kind op k mode xs mem = .ok r) (hkind : opKind op = some kind)
    (ordinary : checkedOp op = false) : r.1.Checked := by
  unfold kindRes at done
  split at done
  any_goals exact (valRes_effect done).2
  any_goals exact (loadOpRes_effect done).2
  any_goals exact floatInteger_checked (keep_effect done).2
  any_goals
    split at done
    all_goals first
      | exact (casRes_effect done).2
      | exact (vaArgRes_effect done).2
      | exact absurd (proofRes_op done) (by simp [ordinary])
      | skip
  any_goals (cases done; done)
  any_goals (cases ordinary; done)
  · cases done
    unfold allocRes
    split
    · simp
    · split <;> simp
  · cases done
    simp

theorem opRes_same {k : Cls} {mem : Mem}
    (done : opRes op k mode xs mem = .ok r) (noAlloc : ∀ n, op ≠ .alloc n) : SameObjects mem r.2 := by
  have same : ∀ {mem' : Mem}, mem' = mem → SameObjects mem mem' := fun h => h ▸ .refl mem
  unfold opRes at done
  split at done
  · split at done
    · cases done; exact .refl _
    · exact same (valRes_effect done).1
  · split at done
    · exact same (valRes_effect done).1
    · simp only [bind_ok] at done
      obtain ⟨kind, _, done⟩ := done
      exact kindRes_same done noAlloc

theorem orNoRule_ok {o : Option α} {x : α} : orNoRule o = .ok x ↔ o = some x := by
  cases o <;> simp [orNoRule]

theorem opRes_checked {k : Cls} {mem : Mem}
    (done : opRes op k mode xs mem = .ok r) (ordinary : checkedOp op = false) : r.1.Checked := by
  unfold opRes at done
  split at done
  · split at done
    · cases done; simp
    · exact (valRes_effect done).2
  · split at done
    · exact (valRes_effect done).2
    · simp only [bind_ok] at done
      obtain ⟨kind, hkind, done⟩ := done
      exact kindRes_checked done (orNoRule_ok.1 hkind) ordinary

/-- An allocation of a size that is none's negative keeps the objects in order. -/
theorem allocRes_objects {mem : Mem} {align size : Int} (ok : RegionsOk mem) (positive : 0 ≤ size) :
    RegionsOk (allocRes .filc mem align size).2 ∧ Evolves mem (allocRes .filc mem align size).2 := by
  unfold allocRes
  split
  · exact ⟨ok, .refl _⟩
  · split
    · rename_i base mem' done
      exact allocBase_objects (by simp [Mode.alloc]) ok positive done
    · exact ⟨ok, .refl _⟩

theorem opRes_alloc {n : Int} {k : Cls} {mem : Mem}
    (done : opRes (.alloc n) k .filc xs mem = .ok r) : ∃ size, xs = [.int size] ∧ r = allocRes .filc mem n size := by
  have noFloat : floatArithmeticOp (.alloc n) = false := rfl
  simp only [opRes, noFloat] at done
  split at done
  · contradiction
  · simp only [opKind, orNoRule, bind_ok, Except.ok.injEq, exists_eq_left'] at done
    unfold kindRes at done
    split at done
    any_goals (cases done; done)
    any_goals contradiction
    all_goals
      rename_i heq
      cases heq
      cases done
      exact ⟨_, rfl, rfl⟩

theorem opRes_objects {k : Cls} {mem : Mem} (done : opRes op k .filc xs mem = .ok r) (ok : RegionsOk mem)
    (sizes : ∀ align size, op = .alloc align → xs = [.int size] → 0 ≤ size) :
    RegionsOk r.2 ∧ Evolves mem r.2 := by
  by_cases alloc : ∃ n, op = .alloc n
  · obtain ⟨n, rfl⟩ := alloc
    obtain ⟨size, rfl, rfl⟩ := opRes_alloc done
    exact allocRes_objects ok (sizes _ _ rfl rfl)
  · have same := opRes_same done (fun n h => alloc ⟨n, h⟩)
    exact ⟨same.regionsOk ok, same.evolves⟩

end Nanofil
