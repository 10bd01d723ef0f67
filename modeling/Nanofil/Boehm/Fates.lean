import Nanofil.Boehm.Threads

/-! What holds of every registration whatever the threads do: its sentinel keeps what it was
registered with until it is cancelled or called, and is in one place at most. -/
namespace Nanofil.Boehm
open List Option

variable {fate : Fate}

section
variable {ο φ δ : Type} {r : Registry ο φ δ} {h : List (Registration ο φ δ)} {q : List Nat}
  {cs : List (Call ο φ δ)} {fs fs' : List (Frame ο φ)} {s : Nat} {o : ο}

/-! ### The fields -/

theorem clear_get (r : Registry ο φ δ) (s s' : Nat) : (r.clear s).sentinels[s']? =
    if s = s' then r.sentinels[s']?.map (fun x => { x with fn := none, obj := none }) else r.sentinels[s']? := by
  rw [Registry.clear, getElem?_modify]
  split_ifs
  · rfl
  · simp

@[simp] theorem clear_fn (r : Registry ο φ δ) (s s' : Nat) : (r.clear s).fn s' = if s = s' then none else r.fn s' := by
  rw [Registry.fn, clear_get, Registry.fn]
  split_ifs with same
  · cases r.sentinels[s']? <;> rfl
  · rfl

@[simp] theorem clear_obj (r : Registry ο φ δ) (s s' : Nat) : (r.clear s).obj s' = if s = s' then none else r.obj s' := by
  rw [Registry.obj, clear_get, Registry.obj]
  split_ifs with same
  · cases r.sentinels[s']? <;> rfl
  · rfl

@[simp] theorem clear_cd (r : Registry ο φ δ) (s s' : Nat) : (r.clear s).cd s' = r.cd s' := by
  rw [Registry.cd, clear_get, Registry.cd]
  split_ifs
  · cases r.sentinels[s']? <;> rfl
  · rfl

@[simp] theorem clear_size (r : Registry ο φ δ) (s : Nat) : (r.clear s).sentinels.length = r.sentinels.length :=
  length_modify ..

/-! ### The registrations -/

theorem become_get (fate : Fate) (h : List (Registration ο φ δ)) (s s' : Nat) : (become fate h s)[s']? =
    if s = s' then h[s']?.map (·.become fate) else h[s']? := by
  rw [become, getElem?_modify]
  split_ifs
  · rfl
  · simp

@[simp] theorem become_size (fate : Fate) (h : List (Registration ο φ δ)) (s : Nat) : (become fate h s).length = h.length :=
  length_modify ..

/-- The registrations that are neither drained nor run nor cancelled. -/
def counted (h : List (Registration ο φ δ)) : Nat := h.countP (fun x => x.fate = .registered)

theorem counted_become (other : fate ≠ .registered) {x : Registration ο φ δ} (here : h[s]? = some x)
    (was : x.fate = .registered) : counted (become fate h s) + 1 = counted h := by
  induction h generalizing s with
  | nil => cases here
  | cons y h ih =>
    cases s with
    | zero =>
      cases here
      simp [become, counted, Registration.become, was, other]
    | succ s =>
      have rest := ih (s := s) here
      rw [counted, become, modify_succ_cons, countP_cons, counted, countP_cons]
      rw [counted, become, counted] at rest
      omega

theorem dropOld_none {r : Registry ο φ δ} (entry : r.finalizers o = none) : r.dropOld o = r := by
  rw [Registry.dropOld, entry]

variable [DecidableEq ο]

theorem cancelled_get (o : ο) (h : List (Registration ο φ δ)) (s : Nat) : (cancelled o h)[s]? =
    h[s]?.map (fun x => if x.obj = o then x.become .cancelled else x) :=
  getElem?_map ..

/-! ### Draining one sentinel -/

theorem unmap_tables (r : Registry ο φ δ) (s : Nat) :
    ∃ fs, r.unmap s = { r with finalizers := fs } ∧
      ∀ o, fs o = if r.obj s = some o ∧ r.finalizers o = some s then none else r.finalizers o := by
  rw [Registry.unmap]
  cases obj : r.obj s with
  | none => exact ⟨r.finalizers, rfl, fun o => (if_neg (by simp)).symm⟩
  | some o' =>
    by_cases mine : r.finalizers o' = some s
    · refine ⟨Function.update r.finalizers o' none, if_pos mine, fun o => ?_⟩
      by_cases here : o = o'
      · subst here
        rw [Function.update_self, if_pos ⟨rfl, mine⟩]
      · rw [Function.update_of_ne here, if_neg (fun both => here (Option.some.inj both.1).symm)]
    · refine ⟨r.finalizers, if_neg mine, fun o => (if_neg ?_).symm⟩
      rintro ⟨here, there⟩
      cases here
      exact mine there

theorem hideAgain_tables (r : Registry ο φ δ) (s : Nat) : ∃ hidden, r.hideAgain s = { r with hidden := hidden } := by
  rw [Registry.hideAgain]
  split
  · split_ifs
    · exact ⟨_, rfl⟩
    · exact ⟨r.hidden, rfl⟩
  · exact ⟨r.hidden, rfl⟩

/-- What draining a sentinel that was not cancelled leaves of the tables. -/
theorem drainOne_live {r : Registry ο φ δ} {s : Nat} (live : (r.fn s).isSome) :
    ∃ fs hidden, r.drainOne s = { r with
      finalizers := fs, hidden := hidden, registered := r.registered - 1, pending := r.pending ++ [s] } ∧
      ∀ o, fs o = if r.obj s = some o ∧ r.finalizers o = some s then none else r.finalizers o := by
  obtain ⟨fs, unmapped, entries⟩ := unmap_tables r s
  obtain ⟨hidden, again⟩ := hideAgain_tables { r with finalizers := fs, registered := r.registered - 1 } s
  refine ⟨fs, hidden, ?_, entries⟩
  rw [Registry.drainOne, if_pos live, unmapped]
  dsimp only
  rw [again]

theorem drainOne_dead {r : Registry ο φ δ} {s : Nat} (dead : r.fn s = none) : r.drainOne s = r := by
  rw [Registry.drainOne, dead]
  rfl

theorem drainOne_finq (r : Registry ο φ δ) (s : Nat) : (r.drainOne s).finq = r.finq ∧ (r.drainOne s).sentinels = r.sentinels := by
  by_cases live : (r.fn s).isSome = true
  · obtain ⟨fs, hidden, turned, -⟩ := drainOne_live live
    rw [turned]
    exact ⟨rfl, rfl⟩
  · rw [drainOne_dead (not_isSome_iff_eq_none.1 live)]
    exact ⟨rfl, rfl⟩

end

/-! ### The invariant -/

section
variable {ο φ δ : Type} {r : Registry ο φ δ} {h : List (Registration ο φ δ)} {q : List Nat}
  {cs : List (Call ο φ δ)} {fs fs' : List (Frame ο φ)} {s : Nat} {o : ο}

/-- A registration with one of the fates, and its sentinel's object and function. -/
def Whole (r : Registry ο φ δ) (h : List (Registration ο φ δ)) (s : Nat) (fate : Fate) : Prop :=
  ∃ x, h[s]? = some x ∧ x.fate = fate ∧ r.obj s = some x.obj ∧ r.fn s = some x.fn

/-- Where each registration is: `q` was queued, `cs` was called and `fs` are the threads' frames. -/
structure Sound (r : Registry ο φ δ) (h : List (Registration ο φ δ)) (q : List Nat) (cs : List (Call ο φ δ))
    (fs : List (Frame ο φ)) : Prop where
  size : h.length = r.sentinels.length
  once : ∀ s, (cs.map Call.sentinel).count s + (fs.filterMap Frame.held?).count s + r.pending.count s ≤ 1
  counts : r.registered = counted h
  cds : ∀ s x, h[s]? = some x → r.cd s = some x.cd
  registered : ∀ s x, h[s]? = some x → x.fate = .registered → Whole r h s .registered
  cancelled : ∀ s x, h[s]? = some x → x.fate = .cancelled → r.fn s = none
  drained : ∀ s x, h[s]? = some x → x.fate = .drained → s ∈ q ∧ s ∉ r.finq
  run : ∀ s x, h[s]? = some x → x.fate = .run → r.fn s = none ∨ ∃ o, .taken s o ∈ fs
  mapped : ∀ o s, r.finalizers o = some s → s ∉ q ∧ ∃ x, h[s]? = some x ∧ x.obj = o ∧ x.fate = .registered
  finq : r.finq.Nodup ∧ ∀ s ∈ r.finq, s ∈ q
  queued : ∀ s ∈ q, s < h.length
  pending : ∀ s ∈ r.pending, Whole r h s .drained
  popped : ∀ s, .popped s ∈ fs → Whole r h s .drained
  taken : ∀ s o, .taken s o ∈ fs → s ∉ q ∧ Whole r h s .run ∧ r.obj s = some o
  calling : ∀ s o f, .calling s o f ∈ fs → ∃ x, h[s]? = some x ∧ (x.fate = .drained ∨ x.fate = .run) ∧ x.obj = o ∧ x.fn = f
  called : ∀ c ∈ cs, ∃ x, h[c.sentinel]? = some x ∧ (x.fate = .drained ∨ x.fate = .run) ∧
    c.obj = x.obj ∧ c.fn = x.fn ∧ c.cd = x.cd

theorem Sound.perm (sound : Sound r h q cs fs) (same : fs.Perm fs') : Sound r h q cs fs' where
  __ := sound
  once s := by
    rw [← (same.filterMap Frame.held?).count_eq s]
    exact sound.once s
  run s x here was := (sound.run s x here was).imp id fun ⟨o, there⟩ => ⟨o, same.mem_iff.1 there⟩
  popped s there := sound.popped s (same.mem_iff.2 there)
  taken s o there := sound.taken s o (same.mem_iff.2 there)
  calling s o f there := sound.calling s o f (same.mem_iff.2 there)

/-- Frames that hold no sentinel come and go. -/
theorem Sound.push (sound : Sound r h q cs fs) (gs : List (Frame ο φ)) (empty : ∀ f ∈ gs, f.held? = none) :
    Sound r h q cs (gs ++ fs) where
  __ := sound
  once s := by
    rw [filterMap_append, filterMap_eq_nil_iff.2 empty, nil_append]
    exact sound.once s
  run s x here was := (sound.run s x here was).imp id fun ⟨o, there⟩ => ⟨o, mem_append_right _ there⟩
  popped s there := (mem_append.1 there).elim (fun mem => nomatch empty _ mem) (sound.popped s)
  taken s o there := (mem_append.1 there).elim (fun mem => nomatch empty _ mem) (sound.taken s o)
  calling s o f there := (mem_append.1 there).elim (fun mem => nomatch empty _ mem) (sound.calling s o f)

theorem Sound.drop {f : Frame ο φ} (sound : Sound r h q cs (f :: fs)) (empty : f.held? = none) : Sound r h q cs fs where
  __ := sound
  once s := by
    have := sound.once s
    rwa [filterMap_cons_none empty] at this
  run s x here was := (sound.run s x here was).imp id fun ⟨o, there⟩ =>
    ⟨o, (mem_cons.1 there).resolve_left fun same => by rw [← same] at empty; cases empty⟩
  popped s there := sound.popped s (mem_cons_of_mem f there)
  taken s o there := sound.taken s o (mem_cons_of_mem f there)
  calling s o f' there := sound.calling s o f' (mem_cons_of_mem f there)

/-- A registration that is neither drained nor run is with no thread, not pending and not called. -/
theorem Sound.nowhere (sound : Sound r h q cs fs) {x : Registration ο φ δ} (here : h[s]? = some x)
    (was : x.fate = .registered) :
    (cs.map Call.sentinel).count s = 0 ∧ (fs.filterMap Frame.held?).count s = 0 ∧ r.pending.count s = 0 := by
  refine ⟨count_eq_zero.2 fun there => ?_, count_eq_zero.2 fun there => ?_, count_eq_zero.2 fun there => ?_⟩
  · obtain ⟨c, mem, rfl⟩ := List.mem_map.1 there
    obtain ⟨y, at_, fate, -⟩ := sound.called c mem
    rw [here] at at_
    cases at_
    rw [was] at fate
    exact fate.elim nofun nofun
  · obtain ⟨f, mem, held⟩ := mem_filterMap.1 there
    have other : ∃ y, h[s]? = some y ∧ (y.fate = .drained ∨ y.fate = .run) := by
      cases f with
      | popped s' =>
        cases held
        obtain ⟨y, at_, fate, -⟩ := sound.popped s mem
        exact ⟨y, at_, .inl fate⟩
      | taken s' o =>
        cases held
        obtain ⟨-, ⟨y, at_, fate, -⟩, -⟩ := sound.taken s o mem
        exact ⟨y, at_, .inr fate⟩
      | calling s' o f =>
        cases held
        obtain ⟨y, at_, fate, -⟩ := sound.calling s o f mem
        exact ⟨y, at_, fate⟩
      | _ => cases held
    obtain ⟨y, at_, fate⟩ := other
    rw [here] at at_
    cases at_
    rw [was] at fate
    exact fate.elim nofun nofun
  · obtain ⟨y, at_, fate, -⟩ := sound.pending s there
    rw [here] at at_
    cases at_
    rw [was] at fate
    cases fate

theorem become_self {x : Registration ο φ δ} (here : h[s]? = some x) (was : x.fate = .registered) :
    (become fate h s)[s]? = some { x with fate := fate } := by
  rw [become_get, if_pos rfl, here, map_some, Registration.become, if_pos was]

variable {s' : Nat}

theorem become_other (other : s' ≠ s) : (become fate h s)[s']? = h[s']? := by
  rw [become_get, if_neg (Ne.symm other)]

theorem become_cases {x y : Registration ο φ δ} (here : h[s]? = some x) (was : x.fate = .registered)
    (at_ : (become fate h s)[s']? = some y) : (s' = s ∧ y = { x with fate := fate }) ∨ (s' ≠ s ∧ h[s']? = some y) := by
  by_cases same : s' = s
  · subst same
    rw [become_self here was] at at_
    exact .inl ⟨rfl, (Option.some.inj at_).symm⟩
  · rw [become_other same] at at_
    exact .inr ⟨same, at_⟩

/-- The registration of another sentinel is as it was. -/
theorem Whole.other {r' : Registry ο φ δ} {fate fate' : Fate} {s' : Nat} (whole : Whole r h s' fate) (other : s' ≠ s)
    (obj : r'.obj s' = r.obj s') (fn : r'.fn s' = r.fn s') : Whole r' (become fate' h s) s' fate := by
  obtain ⟨x, here, was, own, runs⟩ := whole
  exact ⟨x, (become_other other).trans here, was, obj.trans own, fn.trans runs⟩

/-- A sentinel of another fate is another sentinel. -/
theorem Whole.apart {x : Registration ο φ δ} (whole : Whole r h s' fate) (here : h[s]? = some x)
    (was : x.fate ≠ fate) : s' ≠ s := by
  rintro rfl
  obtain ⟨y, at_, fate', -⟩ := whole
  rw [here] at at_
  cases at_
  exact was fate'

/-- A registration leaves its first fate: what the other ones keep. -/
theorem settled_cases {x : Registration ο φ δ} (here : h[s]? = some x) (was : x.fate = .registered) {P : Registration ο φ δ → Prop} (only : ∃ y, h[s']? = some y ∧ (y.fate = .drained ∨ y.fate = .run) ∧ P y) :
    ∃ y, (become fate h s)[s']? = some y ∧ (y.fate = .drained ∨ y.fate = .run) ∧ P y := by
  obtain ⟨y, at_, fates, holds⟩ := only
  refine ⟨y, (become_other ?_).trans at_, fates, holds⟩
  rintro rfl
  rw [here] at at_
  cases at_
  rw [was] at fates
  exact fates.elim nofun nofun

theorem setFinalizer_get [DecidableEq ο] (r : Registry ο φ δ) (o o' : ο) (v : Option Nat) :
    (r.setFinalizer o v).finalizers o' = if o' = o then v else r.finalizers o' :=
  Function.update_apply ..

/-- What the collector does leaves everything in its place. -/
theorem Sound.forget [DecidableEq ο] (sound : Sound r h q cs fs) (o : ο) : Sound (r.setFinalizer o none) h q cs fs where
  __ := sound
  mapped o' s there := by
    rw [setFinalizer_get] at there
    split_ifs at there
    exact sound.mapped o' s there

theorem Sound.queue (sound : Sound r h q cs fs) (inside : s < r.sentinels.length) (new : s ∉ q)
    (unmapped : ∀ o, r.finalizers o ≠ some s) (free : s ∉ fs.filterMap Frame.held?) :
    Sound { r with finq := r.finq ++ [s] } h (q ++ [s]) cs fs where
  __ := sound
  drained s' x here was := by
    obtain ⟨there, apart⟩ := sound.drained s' x here was
    refine ⟨mem_append_left _ there, fun mem => ?_⟩
    rcases mem_append.1 mem with mem | mem
    · exact apart mem
    · rw [mem_singleton.1 mem] at there
      exact new there
  mapped o s' there := by
    obtain ⟨apart, x⟩ := sound.mapped o s' there
    refine ⟨fun mem => ?_, x⟩
    rcases mem_append.1 mem with mem | mem
    · exact apart mem
    · exact unmapped o (mem_singleton.1 mem ▸ there)
  finq := by
    refine ⟨nodup_append.2 ⟨sound.finq.1, nodup_singleton s, fun s' mem s'' own => ?_⟩, fun s' mem => ?_⟩
    · rintro rfl
      rw [mem_singleton.1 own] at mem
      exact new (sound.finq.2 s mem)
    · exact (mem_append.1 mem).elim (fun mem => mem_append_left _ (sound.finq.2 s' mem)) (mem_append_right _)
  queued s' there := by
    rcases mem_append.1 there with there | there
    · exact sound.queued s' there
    · rw [mem_singleton.1 there, sound.size]
      exact inside
  taken s' o there := by
    obtain ⟨apart, whole⟩ := sound.taken s' o there
    refine ⟨fun mem => ?_, whole⟩
    rcases mem_append.1 mem with mem | mem
    · exact apart mem
    · rw [mem_singleton.1 mem] at there
      exact free (mem_filterMap.2 ⟨_, there, rfl⟩)

/-- A registration leaves its first fate, and goes to the pending list, to a thread or nowhere. -/
theorem Sound.leave {r' : Registry ο φ δ} {x : Registration ο φ δ} (sound : Sound r h q cs fs)
    (here : h[s]? = some x) (was : x.fate = .registered) (left : fate ≠ .registered)
    (obj : ∀ s', s' ≠ s → r'.obj s' = r.obj s') (fn : ∀ s', s' ≠ s → r'.fn s' = r.fn s') (cd : ∀ s', r'.cd s' = r.cd s')
    (size : r'.sentinels.length = r.sentinels.length) (counts : r'.registered = r.registered - 1)
    (entries : ∀ o s', r'.finalizers o = some s' → r.finalizers o = some s' ∧ s' ≠ s) (finq : r'.finq.Sublist r.finq)
    (drained : fate = .drained → s ∈ q ∧ s ∉ r'.finq) (cancelled : fate = .cancelled → r'.fn s = none)
    (run : fate = .run → ∃ o, .taken s o ∈ fs')
    (pending : ∀ s' ∈ r'.pending, s' ∈ r.pending ∨
      s' = s ∧ fate = .drained ∧ r'.obj s = some x.obj ∧ r'.fn s = some x.fn)
    (kept : ∀ f ∈ fs, f ∈ fs')
    (frames : ∀ f ∈ fs', f ∈ fs ∨ f = .taken s x.obj ∧ fate = .run ∧ s ∉ q ∧ r'.obj s = some x.obj ∧ r'.fn s = some x.fn)
    (once : ∀ s', (cs.map Call.sentinel).count s' + (fs'.filterMap Frame.held?).count s' + r'.pending.count s' ≤ 1) :
    Sound r' (become fate h s) q cs fs' := by
  have others : ∀ {s' : Nat} {fate' : Fate}, Whole r h s' fate' → fate' ≠ .registered → Whole r' (become fate h s) s' fate' :=
    fun whole other => by
      have apart := whole.apart here (by rw [was]; exact Ne.symm other)
      exact whole.other apart (obj _ apart) (fn _ apart)
  refine ⟨(become_size ..).trans (sound.size.trans size.symm), once, ?_, fun s' y at_ => ?_, fun s' y at_ now => ?_,
    fun s' y at_ now => ?_, fun s' y at_ now => ?_, fun s' y at_ now => ?_, fun o s' entry => ?_,
    ⟨finq.nodup sound.finq.1, fun s' mem => sound.finq.2 s' (finq.subset mem)⟩,
    fun s' mem => (sound.queued s' mem).trans_eq (become_size ..).symm, fun s' mem => ?_, fun s' mem => ?_,
    fun s' o mem => ?_, fun s' o f mem => ?_, fun c mem => ?_⟩
  · have := counted_become left here was
    have := sound.counts
    omega
  · rw [cd]
    rcases become_cases here was at_ with ⟨rfl, rfl⟩ | ⟨-, there⟩
    · exact sound.cds s' x here
    · exact sound.cds s' y there
  · rcases become_cases here was at_ with ⟨rfl, rfl⟩ | ⟨other, there⟩
    · exact absurd now left
    · exact (sound.registered s' y there now).other other (obj s' other) (fn s' other)
  · rcases become_cases here was at_ with ⟨rfl, rfl⟩ | ⟨other, there⟩
    · exact cancelled now
    · rw [fn s' other]
      exact sound.cancelled s' y there now
  · rcases become_cases here was at_ with ⟨rfl, rfl⟩ | ⟨other, there⟩
    · exact drained now
    · exact (sound.drained s' y there now).imp id fun apart mem => apart (finq.subset mem)
  · rcases become_cases here was at_ with ⟨rfl, rfl⟩ | ⟨other, there⟩
    · exact .inr (run now)
    · rw [fn s' other]
      exact (sound.run s' y there now).imp id fun ⟨o, mem⟩ => ⟨o, kept _ mem⟩
  · obtain ⟨entry, other⟩ := entries o s' entry
    obtain ⟨apart, z, at_, of_, fate'⟩ := sound.mapped o s' entry
    exact ⟨apart, z, (become_other other).trans at_, of_, fate'⟩
  · rcases pending s' mem with mem | ⟨rfl, now, own, runs⟩
    · exact others (sound.pending s' mem) nofun
    · exact ⟨_, become_self here was, now, own, runs⟩
  · rcases frames _ mem with mem | ⟨same, -⟩
    · exact others (sound.popped s' mem) nofun
    · cases same
  · rcases frames _ mem with mem | ⟨same, now, apart, own, runs⟩
    · obtain ⟨apart, whole, own⟩ := sound.taken s' o mem
      have other := whole.apart here (by rw [was]; nofun)
      exact ⟨apart, others whole nofun, (obj s' other).trans own⟩
    · cases same
      exact ⟨apart, ⟨_, become_self here was, now, own, runs⟩, own⟩
  · rcases frames _ mem with mem | ⟨same, -⟩
    · exact settled_cases here was (P := fun x => x.obj = o ∧ x.fn = f) (sound.calling s' o f mem)
    · cases same
  · exact settled_cases here was (P := fun x => c.obj = x.obj ∧ c.fn = x.fn ∧ c.cd = x.cd) (sound.called c mem)

/-- What is polled and was not cancelled is a registration. -/
theorem Sound.polled (sound : Sound r h q cs fs) (there : s ∈ r.finq) (live : (r.fn s).isSome) :
    ∃ x, h[s]? = some x ∧ x.fate = .registered ∧ r.obj s = some x.obj ∧ r.fn s = some x.fn := by
  have queued := sound.finq.2 s there
  obtain ⟨x, here⟩ : ∃ x, h[s]? = some x := ⟨_, getElem?_eq_getElem (sound.queued s queued)⟩
  have was : x.fate = .registered := by
    cases fate : x.fate with
    | registered => rfl
    | drained => exact absurd there (sound.drained s x here fate).2
    | cancelled =>
      rw [sound.cancelled s x here fate] at live
      cases live
    | run =>
      rcases sound.run s x here fate with gone | ⟨o, held⟩
      · rw [gone] at live
        cases live
      · exact absurd queued (sound.taken s o held).1
  obtain ⟨y, at_, -, own, fn⟩ := sound.registered s x here was
  rw [here] at at_
  cases at_
  exact ⟨x, here, was, own, fn⟩

/-- One turn of the drain: a registration goes to the pending list. -/
theorem Sound.drainOne [DecidableEq ο] {rest : List Nat} (sound : Sound r h q cs fs) (queue : r.finq = s :: rest) :
    Sound ({ r with finq := rest }.drainOne s) (if (r.fn s).isSome then become .drained h s else h) q cs fs := by
  obtain ⟨nodup, queued⟩ := sound.finq
  rw [queue, nodup_cons] at nodup
  have there : s ∈ r.finq := queue ▸ mem_cons_self
  have sub : rest.Sublist r.finq := queue ▸ sublist_cons_self s rest
  by_cases live : (r.fn s).isSome = true
  · obtain ⟨x, here, was, own, fn⟩ := sound.polled there live
    obtain ⟨inCalls, inFrames, inPending⟩ := sound.nowhere here was
    obtain ⟨fs', hidden, turned, entries⟩ := drainOne_live (r := { r with finq := rest }) live
    rw [turned, if_pos live]
    refine sound.leave here was nofun (fun _ _ => rfl) (fun _ _ => rfl) (fun _ => rfl) rfl rfl (fun o s' entry => ?_) sub
      (fun _ => ⟨queued s there, nodup.1⟩) nofun nofun (fun s' mem => ?_) (fun f mem => mem) (fun f mem => .inl mem) (fun s' => ?_)
    · dsimp only at entry
      rw [entries] at entry
      split_ifs at entry
      refine ⟨entry, ?_⟩
      rintro rfl
      exact (sound.mapped o s' entry).1 (queued s' there)
    · refine (mem_append.1 mem).imp id fun mem => ?_
      exact ⟨mem_singleton.1 mem, rfl, own, fn⟩
    · have old := sound.once s'
      dsimp only
      rw [count_append]
      by_cases same : s' = s
      · subst same
        rw [count_singleton_self]
        omega
      · rw [count_eq_zero_of_not_mem (show s' ∉ [s] by simpa using same)]
        exact old
  · rw [if_neg live, drainOne_dead (r := { r with finq := rest }) (not_isSome_iff_eq_none.1 live)]
    exact { sound with
      drained := fun s' y at_ now => ((sound.drained s' y at_ now).imp id fun apart mem => apart (sub.subset mem))
      finq := ⟨nodup.2, fun s' mem => queued s' (sub.subset mem)⟩ }

/-- The whole drain. -/
theorem Sound.drain [DecidableEq ο] {ns : List Nat} (sound : Sound r h q cs fs) (queue : r.finq = ns) :
    Sound (Registry.drainFrom ns r) (drainHistory ns r h) q cs fs := by
  induction ns generalizing r h with
  | nil => exact sound
  | cons s rest ih => exact ih (sound.drainOne queue) (drainOne_finq ..).1

/-- The drain appends what was not cancelled to the pending list. -/
theorem drainFrom_pending [DecidableEq ο] (ns : List Nat) (r : Registry ο φ δ) :
    (Registry.drainFrom ns r).pending = r.pending ++ ns.filter (fun s => (r.fn s).isSome) := by
  induction ns generalizing r with
  | nil => exact (append_nil _).symm
  | cons s rest ih =>
    have same : ∀ s', (({ r with finq := rest } : Registry ο φ δ).drainOne s).fn s' = r.fn s' := by
      intro s'
      rw [Registry.fn, (drainOne_finq ..).2]
      rfl
    rw [Registry.drainFrom, ih]
    simp only [same]
    by_cases live : (r.fn s).isSome = true
    · obtain ⟨fs, hidden, turned, -⟩ := drainOne_live (r := { r with finq := rest }) live
      rw [turned, filter_cons_of_pos (p := fun s => (r.fn s).isSome) live]
      exact append_assoc ..
    · rw [drainOne_dead (r := { r with finq := rest }) (not_isSome_iff_eq_none.1 live),
        filter_cons_of_neg (p := fun s => (r.fn s).isSome) live]

/-- A registration that is replaced, cancelled or dropped is in no table. -/
theorem Sound.cancel [DecidableEq ο] {x : Registration ο φ δ} (sound : Sound r h q cs fs) (entry : r.finalizers o = some s)
    (here : h[s]? = some x) (of_ : x.obj = o) (was : x.fate = .registered) :
    Sound ((r.dropOld o).setFinalizer o none) (become .cancelled h s) q cs fs := by
  have sole : ∀ o', r.finalizers o' = some s → o' = o := by
    intro o' entry'
    obtain ⟨-, y, at_, of', -⟩ := sound.mapped o' s entry'
    rw [here] at at_
    cases at_
    exact of'.symm.trans of_
  rw [Registry.dropOld, entry]
  refine sound.leave here was nofun (fun s' other => ?_) (fun s' other => ?_) (fun s' => clear_cd r s s') (clear_size r s) rfl
    (fun o' s' entry' => ?_) (List.Sublist.refl _) nofun (fun _ => ?_) nofun (fun _ mem => .inl mem) (fun _ mem => mem)
    (fun _ mem => .inl mem) sound.once
  · exact (clear_obj r s s').trans (if_neg (Ne.symm other))
  · exact (clear_fn r s s').trans (if_neg (Ne.symm other))
  · rw [setFinalizer_get] at entry'
    split_ifs at entry' with apart
    refine ⟨entry', ?_⟩
    rintro rfl
    exact apart (sole o' entry')
  · exact (clear_fn r s s).trans (if_pos rfl)

/-- A registration that `GC_finalize_all` takes is with its thread. -/
theorem Sound.take [DecidableEq ο] (sound : Sound r h q cs fs) (entry : r.finalizers o = some s) :
    Sound (r.takeEntry o) (become .run h s) q cs (.taken s o :: fs) := by
  obtain ⟨apart, x, here, rfl, was⟩ := sound.mapped o s entry
  obtain ⟨y, at_, -, own, fn⟩ := sound.registered s x here was
  rw [here] at at_
  cases at_
  obtain ⟨inCalls, inFrames, inPending⟩ := sound.nowhere here was
  refine sound.leave here was nofun (fun _ _ => rfl) (fun _ _ => rfl) (fun _ => rfl) rfl rfl (fun o' s' entry' => ?_)
    (List.Sublist.refl _) nofun nofun (fun _ => ⟨x.obj, mem_cons_self⟩) (fun _ mem => .inl mem)
    (fun _ mem => mem_cons_of_mem _ mem) (fun f mem => ?_) (fun s' => ?_)
  · have got : (r.setFinalizer x.obj none).finalizers o' = some s' := entry'
    rw [setFinalizer_get] at got
    split_ifs at got with other
    refine ⟨got, ?_⟩
    rintro rfl
    obtain ⟨-, y, at_, of', -⟩ := sound.mapped o' s' got
    rw [here] at at_
    cases at_
    exact other of'.symm
  · rcases mem_cons.1 mem with rfl | mem
    · exact .inr ⟨rfl, rfl, apart, own, fn⟩
    · exact .inl mem
  · have old := sound.once s'
    have holds : (Frame.taken s x.obj :: fs).filterMap Frame.held? = s :: fs.filterMap Frame.held? := rfl
    rw [holds, count_cons]
    change _ + _ + r.pending.count s' ≤ 1
    by_cases same : s' = s
    · subst same
      rw [beq_self_eq_true, if_pos rfl]
      omega
    · rw [show (s == s') = false by simpa using Ne.symm same]
      exact old

/-- A new registration has a sentinel of its own. -/
theorem Sound.add [DecidableEq ο] (sound : Sound r h q cs fs) (o : ο) (f : φ) (d : δ) :
    Sound { r.setFinalizer o (some r.sentinels.length) with
        sentinels := r.sentinels ++ [⟨some o, some f, d⟩], registered := r.registered + 1 }
      (h ++ [⟨o, f, d, .registered⟩]) q cs fs := by
  have sentinel : ∀ s, s < h.length → (r.sentinels ++ [⟨some o, some f, d⟩])[s]? = r.sentinels[s]? :=
    fun s low => getElem?_append_left (sound.size ▸ low)
  have split_ : ∀ {s : Nat} {x : Registration ο φ δ}, (h ++ [(⟨o, f, d, .registered⟩ : Registration ο φ δ)])[s]? = some x →
      h[s]? = some x ∧ s < h.length ∨ s = h.length ∧ x = ⟨o, f, d, .registered⟩ := by
    intro s x at_
    rcases Nat.lt_or_ge s h.length with low | high
    · rw [getElem?_append_left low] at at_
      exact .inl ⟨at_, low⟩
    · rw [getElem?_append_right high, getElem?_singleton] at at_
      split_ifs at at_ with zero
      exact .inr ⟨by omega, (Option.some.inj at_).symm⟩
  have kept : ∀ {s : Nat} {x : Registration ο φ δ}, h[s]? = some x → (h ++ [(⟨o, f, d, .registered⟩ : Registration ο φ δ)])[s]? = some x := by
    intro s x at_
    rw [getElem?_append_left (List.getElem?_eq_some_iff.1 at_).1, at_]
  have low : ∀ {s : Nat} {x : Registration ο φ δ}, h[s]? = some x → s < h.length := fun at_ => (List.getElem?_eq_some_iff.1 at_).1
  have obj : ∀ s, s < h.length → Registry.obj { r.setFinalizer o (some r.sentinels.length) with
      sentinels := r.sentinels ++ [⟨some o, some f, d⟩], registered := r.registered + 1 } s = r.obj s :=
    fun s low => by rw [Registry.obj, sentinel s low, Registry.obj]
  have fn : ∀ s, s < h.length → Registry.fn { r.setFinalizer o (some r.sentinels.length) with
      sentinels := r.sentinels ++ [⟨some o, some f, d⟩], registered := r.registered + 1 } s = r.fn s :=
    fun s low => by rw [Registry.fn, sentinel s low, Registry.fn]
  have whole : ∀ {s fate}, Whole r h s fate → Whole { r.setFinalizer o (some r.sentinels.length) with
      sentinels := r.sentinels ++ [⟨some o, some f, d⟩], registered := r.registered + 1 }
        (h ++ [⟨o, f, d, .registered⟩]) s fate := by
    rintro s fate ⟨x, here, was, own, runs⟩
    exact ⟨x, kept here, was, (obj s (low here)).trans own, (fn s (low here)).trans runs⟩
  refine ⟨by simp [sound.size], sound.once, ?_, fun s x at_ => ?_, fun s x at_ now => ?_, fun s x at_ now => ?_,
    fun s x at_ now => ?_, fun s x at_ now => ?_, fun o' s entry => ?_, sound.finq, fun s mem => ?_,
    fun s mem => whole (sound.pending s mem), fun s mem => whole (sound.popped s mem), fun s o' mem => ?_,
    fun s o' f' mem => ?_, fun c mem => ?_⟩
  · have := sound.counts
    simp [counted, countP_append, this]
  · rcases split_ at_ with ⟨at_, inside⟩ | ⟨rfl, rfl⟩
    · rw [Registry.cd, sentinel s inside]
      exact sound.cds s x at_
    · rw [Registry.cd, sound.size, getElem?_concat_length]
      rfl
  · rcases split_ at_ with ⟨at_, -⟩ | ⟨rfl, rfl⟩
    · exact whole (sound.registered s x at_ now)
    · refine ⟨_, at_, rfl, ?_, ?_⟩
      · rw [Registry.obj, sound.size, getElem?_concat_length]
        rfl
      · rw [Registry.fn, sound.size, getElem?_concat_length]
        rfl
  · rcases split_ at_ with ⟨at_, inside⟩ | ⟨rfl, rfl⟩
    · exact (fn s inside).trans (sound.cancelled s x at_ now)
    · cases now
  · rcases split_ at_ with ⟨at_, -⟩ | ⟨rfl, rfl⟩
    · exact sound.drained s x at_ now
    · cases now
  · rcases split_ at_ with ⟨at_, inside⟩ | ⟨rfl, rfl⟩
    · exact (sound.run s x at_ now).imp (fn s inside).trans id
    · cases now
  · have got : (r.setFinalizer o (some r.sentinels.length)).finalizers o' = some s := entry
    rw [setFinalizer_get] at got
    split_ifs at got with same
    · cases got
      refine ⟨fun mem => ?_, ⟨o, f, d, .registered⟩, ?_, same.symm, rfl⟩
      · have := sound.queued _ mem
        have := sound.size
        omega
      · rw [← sound.size, getElem?_concat_length]
    · obtain ⟨apart, x, here, rest⟩ := sound.mapped o' s got
      exact ⟨apart, x, kept here, rest⟩
  · rw [length_append]
    exact Nat.lt_add_right _ (sound.queued s mem)
  · obtain ⟨apart, ⟨x, here, rest⟩, own⟩ := sound.taken s o' mem
    exact ⟨apart, whole ⟨x, here, rest⟩, (obj s (low here)).trans own⟩
  · obtain ⟨x, here, rest⟩ := sound.calling s o' f' mem
    exact ⟨x, kept here, rest⟩
  · obtain ⟨x, here, rest⟩ := sound.called c mem
    exact ⟨x, kept here, rest⟩

/-- What is popped is with its thread. -/
theorem Sound.pop {rest : List Nat} (sound : Sound r h q cs fs) (front : r.pending = s :: rest) :
    Sound { r with pending := rest } h q cs (.popped s :: fs) where
  __ := sound
  once s' := by
    have old := sound.once s'
    rw [front, count_cons] at old
    have holds : (Frame.popped s :: fs).filterMap Frame.held? = s :: fs.filterMap Frame.held? := rfl
    rw [holds, count_cons]
    dsimp only
    omega
  run s x here was := (sound.run s x here was).imp id fun ⟨o, there⟩ => ⟨o, mem_cons_of_mem _ there⟩
  pending s' mem := sound.pending s' (front ▸ mem_cons_of_mem s mem)
  popped s' there := by
    rcases mem_cons.1 there with same | there
    · cases same
      exact sound.pending s (front ▸ mem_cons_self)
    · exact sound.popped s' there
  taken s' o there := (mem_cons.1 there).elim (fun same => nomatch same) (sound.taken s' o)
  calling s' o f there := (mem_cons.1 there).elim (fun same => nomatch same) (sound.calling s' o f)

/-- A sentinel in a thread's hand is nowhere else. -/
theorem Sound.alone {g : Frame ο φ} (sound : Sound r h q cs (g :: fs)) (held : g.held? = some s) :
    s ∉ cs.map Call.sentinel ∧ s ∉ fs.filterMap Frame.held? ∧ s ∉ r.pending := by
  have once := sound.once s
  rw [filterMap_cons_some held, count_cons_self] at once
  refine ⟨count_eq_zero.1 ?_, count_eq_zero.1 ?_, count_eq_zero.1 ?_⟩ <;> omega

/-- What its thread reads and clears is about to be called with what it was registered with. -/
theorem Sound.read {g : Frame ο φ} {x : Registration ο φ δ} (sound : Sound r h q cs (g :: fs)) (held : g.held? = some s)
    (here : h[s]? = some x) (was : x.fate = .drained ∨ x.fate = .run) :
    Sound (r.clear s) h q cs (.calling s x.obj x.fn :: fs) := by
  obtain ⟨-, inFrames, inPending⟩ := sound.alone held
  have other : ∀ {s' : Nat} {f : Frame ο φ}, f ∈ fs → f.held? = some s' → s' ≠ s := by
    rintro s' f mem own rfl
    exact inFrames (mem_filterMap.2 ⟨f, mem, own⟩)
  have obj : ∀ s', s' ≠ s → (r.clear s).obj s' = r.obj s' := fun s' apart => (clear_obj r s s').trans (if_neg (Ne.symm apart))
  have fn : ∀ s', s' ≠ s → (r.clear s).fn s' = r.fn s' := fun s' apart => (clear_fn r s s').trans (if_neg (Ne.symm apart))
  have whole : ∀ {s' : Nat} {fate : Fate}, Whole r h s' fate → s' ≠ s → Whole (r.clear s) h s' fate := by
    rintro s' fate ⟨y, at_, now, own, runs⟩ apart
    exact ⟨y, at_, now, (obj s' apart).trans own, (fn s' apart).trans runs⟩
  refine ⟨sound.size.trans (clear_size r s).symm, fun s' => ?_, sound.counts, fun s' y at_ => ?_, fun s' y at_ now => ?_,
    fun s' y at_ now => ?_, sound.drained, fun s' y at_ now => ?_, sound.mapped, sound.finq, sound.queued, fun s' mem => ?_,
    fun s' mem => ?_, fun s' o mem => ?_, fun s' o f mem => ?_, sound.called⟩
  · have old := sound.once s'
    rw [filterMap_cons_some held] at old
    exact old
  · rw [clear_cd]
    exact sound.cds s' y at_
  · refine whole (sound.registered s' y at_ now) ?_
    rintro rfl
    rw [here] at at_
    cases at_
    rw [now] at was
    exact was.elim nofun nofun
  · rw [clear_fn]
    split_ifs
    · rfl
    · exact sound.cancelled s' y at_ now
  · by_cases same : s' = s
    · subst same
      exact .inl ((clear_fn r s' s').trans (if_pos rfl))
    · rw [fn s' same]
      refine (sound.run s' y at_ now).imp id fun ⟨o, there⟩ => ⟨o, mem_cons_of_mem _ ?_⟩
      refine (mem_cons.1 there).resolve_left ?_
      rintro rfl
      exact same (Option.some.inj held)
  · exact whole (sound.pending s' mem) fun same => inPending (same ▸ mem)
  · rcases mem_cons.1 mem with same | mem
    · cases same
    · exact whole (sound.popped s' (mem_cons_of_mem g mem)) (other mem rfl)
  · rcases mem_cons.1 mem with same | mem
    · cases same
    · obtain ⟨apart, full, own⟩ := sound.taken s' o (mem_cons_of_mem g mem)
      exact ⟨apart, whole full (other mem rfl), (obj s' (other mem rfl)).trans own⟩
  · rcases mem_cons.1 mem with same | mem
    · cases same
      exact ⟨x, here, was, rfl, rfl⟩
    · exact sound.calling s' o f (mem_cons_of_mem g mem)

theorem Sound.call {f : φ} {d : δ} (sound : Sound r h q cs (.calling s o f :: fs)) (cd : r.cd s = some d) :
    Sound r h q (cs ++ [⟨s, o, f, d⟩]) fs where
  __ := sound
  once s' := by
    have old := sound.once s'
    have holds : (Frame.calling s o f :: fs).filterMap Frame.held? = s :: fs.filterMap Frame.held? := rfl
    rw [holds, count_cons] at old
    rw [map_append, count_append, map_singleton, count_singleton]
    dsimp only
    omega
  run s' x here was := (sound.run s' x here was).imp id fun ⟨o', there⟩ =>
    ⟨o', (mem_cons.1 there).resolve_left nofun⟩
  popped s' there := sound.popped s' (mem_cons_of_mem _ there)
  taken s' o' there := sound.taken s' o' (mem_cons_of_mem _ there)
  calling s' o' f' there := sound.calling s' o' f' (mem_cons_of_mem _ there)
  called c mem := by
    rcases mem_append.1 mem with mem | mem
    · exact sound.called c mem
    · rw [mem_singleton.1 mem]
      obtain ⟨x, here, was, obj, fn⟩ := sound.calling s o f mem_cons_self
      refine ⟨x, here, was, obj.symm, fn.symm, ?_⟩
      rw [sound.cds s x here] at cd
      exact (Option.some.inj cd).symm

end

end Nanofil.Boehm
