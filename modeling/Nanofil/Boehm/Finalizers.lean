import Nanofil.Boehm.Fates

/-! The runs of the finalizers: what is called and when, and what a thread leaves pending
when it observes a cycle. -/
namespace Nanofil.Boehm
open List Option

section
variable {ο φ δ : Type} [DecidableEq ο]

/-- A registration that is replaced, cancelled or dropped is still in the weak map, unless it is drained or run,
and a thread that observes a cycle in an allocation finds the pending list empty or something to drain. -/
def Kept (w : World ο φ δ) : Label ο → Prop
  | .changes o => ∀ s x, w.history[s]? = some x → x.obj = o → x.fate = .registered → w.reg.finalizers o = some s
  | .looks _ => w.reg.pending = [] ∨ ∃ s ∈ w.reg.finq, (w.reg.fn s).isSome
  | _ => True

def World.frames (w : World ο φ δ) : List (Frame ο φ) := w.threads.flatMap Thread.stack

def World.Sound (w : World ο φ δ) (fs : List (Frame ο φ)) : Prop := Boehm.Sound w.reg w.history w.queued w.calls fs

variable {w w' : World ο φ δ} {l : Label ο} {o : ο}

/-- What is cancelled is what the weak map has of the object. -/
theorem cancelled_cases {fs : List (Frame ο φ)} (sound : w.Sound fs) (kept : Kept w (.changes o)) :
    (w.reg.finalizers o = none ∧ cancelled o w.history = w.history) ∨
      ∃ s x, w.reg.finalizers o = some s ∧ w.history[s]? = some x ∧ x.obj = o ∧ x.fate = .registered ∧
        cancelled o w.history = become .cancelled w.history s := by
  cases entry : w.reg.finalizers o with
  | none =>
    refine .inl ⟨rfl, ext_getElem? fun s => ?_⟩
    rw [cancelled_get]
    cases here : w.history[s]? with
    | none => rfl
    | some x =>
      rw [map_some]
      refine congrArg some ?_
      split_ifs with of_
      · refine if_neg fun was => ?_
        rw [kept s x here of_ was] at entry
        cases entry
      · rfl
  | some s =>
    obtain ⟨-, x, here, of_, was⟩ := sound.mapped o s entry
    refine .inr ⟨s, x, rfl, here, of_, was, ext_getElem? fun s' => ?_⟩
    rw [cancelled_get, become_get]
    by_cases same : s = s'
    · subst same
      rw [if_pos rfl, here, map_some, if_pos of_]
      rfl
    · rw [if_neg same]
      cases here' : w.history[s']? with
      | none => rfl
      | some y =>
        rw [map_some]
        refine congrArg some ?_
        split_ifs with of'
        · refine if_neg fun was' => ?_
          have entry' := kept s' y here' of' was'
          rw [entry] at entry'
          exact same (Option.some.inj entry')
        · rfl

/-- `unregister_finalizer_of` cancels what is registered. -/
theorem unregister_sound {fs : List (Frame ο φ)} (sound : w.Sound fs) (kept : Kept w (.changes o)) :
    Sound (w.reg.unregisterFinalizerOf o) (cancelled o w.history) w.queued w.calls fs := by
  rw [Registry.unregisterFinalizerOf]
  rcases cancelled_cases sound kept with ⟨entry, same⟩ | ⟨s, x, entry, here, of_, was, same⟩
  · rw [same, entry]
    exact sound
  · rw [same, entry]
    exact Sound.cancel sound entry here of_ was

/-- `register_finalizer` cancels what was registered, and registers what it is given. -/
theorem register_sound {fs : List (Frame ο φ)} (sound : w.Sound fs) (kept : Kept w (.changes o)) (fn : Option φ) (d : δ) :
    Sound (w.reg.registerFinalizer o fn d).1
      (cancelled o w.history ++ (fn.map (fun f => (⟨o, f, d, .registered⟩ : Registration ο φ δ))).toList) w.queued w.calls fs := by
  have dropped : Sound ((w.reg.dropOld o).setFinalizer o none) (cancelled o w.history) w.queued w.calls fs := by
    rcases cancelled_cases sound kept with ⟨entry, same⟩ | ⟨s, x, entry, here, of_, was, same⟩
    · rw [same, dropOld_none entry]
      exact Sound.forget sound o
    · rw [same]
      exact Sound.cancel sound entry here of_ was
  cases fn with
  | none =>
    rw [Registry.registerFinalizer, map_none, toList_none, append_nil]
    dsimp only
    split_ifs with old
    · exact dropped
    · have entry : w.reg.finalizers o = none := by simpa using old
      rw [dropOld_none entry] at dropped ⊢
      have same : w.reg.setFinalizer o none = w.reg := by
        rw [Registry.setFinalizer, ← entry, Function.update_eq_self]
      rwa [same] at dropped
  | some f =>
    have added := dropped.add o f d
    have same : ((w.reg.dropOld o).setFinalizer o none).setFinalizer o (some (w.reg.dropOld o).sentinels.length) =
        (w.reg.dropOld o).setFinalizer o (some (w.reg.dropOld o).sentinels.length) := by
      simp only [Registry.setFinalizer, Function.update_idem]
    rw [Registry.registerFinalizer]
    dsimp only
    change Sound { ((w.reg.dropOld o).setFinalizer o none).setFinalizer o (some (w.reg.dropOld o).sentinels.length) with
      sentinels := (w.reg.dropOld o).sentinels ++ [⟨some o, some f, d⟩]
      registered := (w.reg.dropOld o).registered + 1 } _ _ _ _ at added
    rw [same] at added
    exact added

/-- Nothing is registered for an object when the counter is zero. -/
theorem unregistered {fs : List (Frame ο φ)} (sound : w.Sound fs) (zero : w.reg.registered = 0) :
    cancelled o w.history = w.history := by
  have none_ : counted w.history = 0 := by
    have := sound.counts
    omega
  refine ext_getElem? fun s => ?_
  rw [cancelled_get]
  cases here : w.history[s]? with
  | none => rfl
  | some x =>
    rw [map_some]
    refine congrArg some ?_
    split_ifs
    · refine if_neg fun was => ?_
      rw [counted, countP_eq_zero] at none_
      exact none_ x (mem_of_getElem? here) (by simpa using was)
    · rfl

omit [DecidableEq ο] in
theorem seen_sound {fs : List (Frame ο φ)} (sound : w.Sound fs) (c : Nat) :
    Sound { w.reg with seen := c } w.history w.queued w.calls fs := { sound with }

omit [DecidableEq ο] in
theorem observed_held {notify collecting : Bool} : ∀ f ∈ (observed notify collecting : List (Frame ο φ)), f.held? = none := by
  intro f there
  rw [observed] at there
  split_ifs at there
  · rw [mem_singleton.1 there]
    rfl
  · rw [mem_singleton.1 there]
    rfl
  · cases there

/-- A thread's step keeps every registration in its place. -/
theorem Act.sound {f : Frame ο φ} {st st' fs : List (Frame ο φ)} {k k' : Nat} (act : Act w f st k w' st' k' l)
    (kept : Kept w l) (sound : w.Sound (f :: (st ++ fs))) : w'.Sound (st' ++ fs) := by
  cases act with
  | registers o fn cd valid => exact register_sound sound kept fn cd
  | frees p valid counted => exact Sound.push sound [.unregister p] (by simp [Frame.held?])
  | freesUnregistered p valid zero =>
    have pushed := Sound.push sound [.free p] (by simp [Frame.held?])
    change Sound w.reg (cancelled p w.history) w.queued w.calls _
    rw [unregistered sound zero]
    exact pushed
  | unregisters p => exact Sound.push (Sound.drop (unregister_sound sound kept) rfl) [.free p] (by simp [Frame.held?])
  | freed p => exact Sound.drop sound rfl
  | drains => exact Sound.drain sound rfl
  | demands => exact sound
  | hooks other => exact Sound.push sound [.observe _ _] (by simp [Frame.held?])
  | collects => exact Sound.push sound [.observe _ _] (by simp [Frame.held?])
  | observes c collecting =>
    have under := Sound.drop sound rfl
    rw [append_assoc]
    refine Sound.push ?_ _ observed_held
    rw [Registry.observe]
    split_ifs with new
    · exact Sound.drain (seen_sound under c) rfl
    · exact under
  | notifies collecting =>
    rw [append_assoc]
    exact Sound.push (Sound.drop sound rfl) _ observed_held
  | runs collecting =>
    rw [cons_append, append_assoc]
    exact Sound.push (Sound.push (Sound.drop sound rfl) _ observed_held) [.invoke true] (by simp [Frame.held?])
  | collected => exact Sound.drop sound rfl
  | collectedRuns => exact Sound.push (Sound.drop sound rfl) [.invoke true] (by simp [Frame.held?])
  | invokes => exact Sound.push sound [.invoke false] (by simp [Frame.held?])
  | begins observing =>
    exact Sound.push (Sound.drain (Sound.drop sound rfl) rfl) [.loop observing] (by simp [Frame.held?])
  | pops observing front => exact Sound.pop sound front
  | finishes => exact Sound.drop sound rfl
  | @reads _ _ s o f own runs =>
    obtain ⟨x, here, was, obj, fn⟩ := sound.popped s mem_cons_self
    rw [own] at obj
    rw [runs] at fn
    cases obj
    cases fn
    exact Sound.read sound rfl here (.inl was)
  | @skips _ _ s gone =>
    obtain ⟨x, here, was, obj, fn⟩ := sound.popped s mem_cons_self
    rw [gone] at fn
    cases fn
  | finalizesAll => exact Sound.push sound [.finalizeAll] (by simp [Frame.held?])
  | takes entry live => exact Sound.take sound entry
  | finalizedAll => exact Sound.push (Sound.drop sound rfl) [.invoke false] (by simp [Frame.held?])
  | @readsTaken _ _ s o f runs =>
    obtain ⟨-, ⟨x, here, was, obj, fn⟩, own⟩ := sound.taken s o mem_cons_self
    rw [own] at obj
    rw [runs] at fn
    cases obj
    cases fn
    exact Sound.read sound rfl here (.inr was)
  | calls cd => exact Sound.push (Sound.call sound cd) [.client] (by simp [Frame.held?])
  | callsBack back => exact Sound.push sound [.client] (by simp [Frame.held?])
  | returns => exact Sound.drop sound rfl

omit [DecidableEq ο] in
theorem frames_turn {before after : List (Thread ο φ)} {st : List (Frame ο φ)} {k : Nat} :
    (w.turn before st k after).frames.Perm (st ++ (before ++ after).flatMap Thread.stack) := by
  rw [World.turn, World.frames, flatMap_append, flatMap_cons, flatMap_append]
  exact perm_append_comm_assoc ..

omit [DecidableEq ο] in
theorem held_frames (w : World ο φ δ) : w.held = w.frames.filterMap Frame.held? := by
  rw [World.held, World.frames, filterMap_flatMap]
  rfl

theorem Step.sound (step : Step w l w') (kept : Kept w l) (sound : w.Sound w.frames) : w'.Sound w'.frames := by
  cases step with
  | @thread before after f st st' k k' w1 _ at_ act =>
    have here : w.frames.Perm (f :: (st ++ (before ++ after).flatMap Thread.stack)) := by
      have turned := @frames_turn ο φ δ w before after (f :: st) k
      rwa [World.turn, World.frames, ← at_] at turned
    have done := act.sound kept (Sound.perm sound here)
    exact Sound.perm done (frames_turn (w := w1)).symm
  | spawns =>
    have pushed := Sound.push sound [.client] (by simp [Frame.held?])
    refine Sound.perm pushed ?_
    change List.Perm _ ((w.threads ++ [(⟨[.client], 0⟩ : Thread ο φ)]).flatMap Thread.stack)
    rw [flatMap_append]
    exact perm_append_comm
  | forgets o => exact Sound.forget sound o
  | queues s inside new unmapped free => exact Sound.queue sound inside new unmapped (held_frames w ▸ free)
  | completes => exact sound

/-- A step of the one thread. -/
theorem Step.alone {f : Frame ο φ} {st st' : List (Frame ο φ)} {k k' : Nat} {w' : World ο φ δ}
    (alone : w.threads = [⟨f :: st, k⟩]) (act : Act w f st k w' st' k' l) : Step w l (w'.turn [] st' k' []) :=
  @Step.thread ο φ δ _ w [] [] f st st' k k' w' l alone act

theorem Run.sound (run : Run Kept w) : w.Sound w.frames := by
  induction run with
  | start completed onDemand =>
    refine ⟨rfl, fun s => Nat.zero_le 1, rfl, ?_, ?_, ?_, ?_, ?_, ?_, ⟨nodup_nil, ?_⟩, ?_, ?_, ?_, ?_, ?_, ?_⟩ <;>
      simp [Registry.empty, World.frames]
  | step _ kept step ih => exact step.sound kept ih

/-- An observation that ends leaves nothing pending. -/
theorem Step.ends (step : Step w l w') (kept : Kept w l) (ends : l.ends) : w'.reg.pending = [] := by
  cases step with
  | @thread before after f st st' k k' w1 _ at_ act =>
    change w1.reg.pending = []
    cases act with
    | observes c collecting =>
      rw [lookLabel] at ends kept
      split_ifs at ends kept with looks
      · have quiet : (w.reg.observe c w.onDemand).2 = false := by simpa [Label.ends] using ends
        rw [Registry.observe, if_pos looks.1] at quiet ⊢
        dsimp only at quiet ⊢
        rw [looks.2.2.2, Bool.and_false, Bool.or_false, decide_eq_false_iff_not] at quiet
        have grown := drainFrom_pending w.reg.finq { w.reg with seen := c }
        rw [Registry.drainFinq] at quiet ⊢
        dsimp only at quiet ⊢
        rw [grown, length_append] at quiet
        have nothing : w.reg.finq.filter (fun s => (w.reg.fn s).isSome) = [] := by
          rw [← length_eq_zero_iff]
          change ¬w.reg.pending.length < w.reg.pending.length + (w.reg.finq.filter (fun s => (w.reg.fn s).isSome)).length at quiet
          omega
        rw [grown]
        change w.reg.pending ++ w.reg.finq.filter (fun s => (w.reg.fn s).isSome) = []
        rw [nothing, append_nil]
        rcases kept with empty | ⟨s, there, live⟩
        · exact empty
        · exact absurd (mem_filter.2 ⟨there, live⟩) (by rw [nothing]; exact not_mem_nil)
      · cases ends
    | finishes observing empty => exact empty
    | _ => cases ends
  | _ => cases ends

/-- What is promised of the finalizers in a state: each is called at most once, with what it was registered with
and never after it is cancelled, the counter counts, and an observation that ends leaves nothing pending. -/
structure Finalizes (Meets : World ο φ δ → Label ο → Prop) (w : World ο φ δ) : Prop where
  once : (w.calls.map Call.sentinel).Nodup
  registered : ∀ c ∈ w.calls, ∃ x, w.history[c.sentinel]? = some x ∧ c.obj = x.obj ∧ c.fn = x.fn ∧ c.cd = x.cd
  never : ∀ c ∈ w.calls, ∀ x, w.history[c.sentinel]? = some x → x.fate ≠ .cancelled
  counts : w.reg.registered = counted w.history
  prompt : ∀ l w', Step w l w' → Meets w l → l.ends → w'.reg.pending = []

end

/-- One thread registers a finalizer, and its object dies and is queued. -/
def queuedWorld : World Unit Unit Unit :=
  { reg := { sentinels := [⟨some (), some (), ()⟩], finalizers := fun _ => none, finq := [0], pending := [],
             registered := 1, hiddenUsed := false, hidden := fun _ => false, seen := 0 }
    threads := [⟨[.client], 0⟩], completed := 1, onDemand := false, freed := fun _ => false
    history := [⟨(), (), (), .registered⟩], queued := [0], calls := [] }

theorem queued_run (Meets : World Unit Unit Unit → Label Unit → Prop) (met : ∀ w l, Kept w l → Meets w l) :
    Run Meets queuedWorld := by
  have begins : Run Meets (_ : World Unit Unit Unit) := .start 0 false
  have registers := begins.step (met _ _ ?_) (.alone rfl (.registers () (some ()) () rfl))
  · have forgets := registers.step (met _ .other trivial) (.forgets ())
    have queues := forgets.step (met _ .other trivial) (.queues 0 (by decide) (by decide) (fun o => by cases o; decide) (by decide))
    have completes := queues.step (met _ .other trivial) .completes
    exact completes
  · intro s x here
    cases here

end Nanofil.Boehm
