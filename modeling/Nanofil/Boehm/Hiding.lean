import Nanofil.Boehm.Fates

/-! Hidden pointers: what a weak table forgets of an object that a cycle finds dead, and
the drain that hides it again, one step at a time. A call is a process of its own, also
when a finalizer makes it. -/
namespace Nanofil.Boehm.Hiding
open List Option

/-- Where a call is. After a drain, a reveal goes on with its object and the cycle that it waited for. -/
inductive Proc (ο : Type)
  | idle
  | hiding (o : ο)
  /-- `GC_REVEAL_POINTER`, of a hidden `NULL` or a hidden object. -/
  | revealing (h : Option ο)
  | decoding (o : ο)
  /-- The first decode found nothing. -/
  | counting (o : ο)
  | asking (o : ο)
  | waiting (o : ο) (n : Nat)
  | locking (o : ο) (n : Nat)
  | draining (after : Option (ο × Nat))
  | polled (s : Nat) (after : Option (ο × Nat))
  | unmapped (s : Nat) (after : Option (ο × Nat))
  /-- The counter was decremented, and the object is not hidden again yet. -/
  | discounted (s : Nat) (after : Option (ο × Nat))
  | hidden (s : Nat) (after : Option (ο × Nat))
  | unlocking (after : Option (ο × Nat))
  | redecoding (o : ο) (n : Nat)
  /-- `GC_REVEAL_POINTER` returned, of a hidden pointer to an object, and whether the pointer is valid. -/
  | returned (o : ο) (valid : Bool)
  | returnedNull
  | popped (s : Nat)
  | taken (s : Nat) (o : ο)
  /-- A finalizer runs with the object. -/
  | running (o : ο)
deriving DecidableEq

structure World (ο φ δ : Type) where
  reg : Registry ο φ δ
  procs : List (Proc ο)
  requested : Nat
  completed : Nat
  /-- Sentinels that the running cycle revived and has not queued. -/
  dying : List Nat
  /-- The cycle that found a sentinel's object dead. -/
  death : Nat → Nat
  /-- What `GC_HIDE_POINTER` was called with. -/
  everHidden : ο → Bool
  freed : ο → Bool
  /-- Found dead with no registration. -/
  lost : ο → Bool

section
variable {ο φ δ : Type} [DecidableEq ο]

def Proc.locked : Proc ο → Bool
  | .draining _ | .polled _ _ | .unmapped _ _ | .discounted _ _ | .hidden _ _ | .unlocking _ => true
  | _ => false

/-- The sentinel that a call has in hand. -/
def Proc.held? : Proc ο → Option Nat
  | .polled s _ | .unmapped s _ | .discounted s _ | .hidden s _ | .popped s | .taken s _ => some s
  | _ => none

/-- The sentinel whose object a drain has not hidden again. -/
def Proc.hand? : Proc ο → Option Nat
  | .polled s _ | .unmapped s _ | .discounted s _ => some s
  | _ => none

def Proc.holds? : Proc ο → Option ο
  | .hiding o | .taken _ o | .running o => some o
  | _ => none

/-- The object and the cycle of a reveal that has waited. -/
def Proc.waited? : Proc ο → Option (ο × Nat)
  | .locking o n | .redecoding o n => some (o, n)
  | .draining a | .polled _ a | .unmapped _ a | .discounted _ a | .hidden _ a | .unlocking a => a
  | _ => none

/-- The object and the cycle of a reveal past its drain. -/
def Proc.drained? : Proc ο → Option (ο × Nat)
  | .redecoding o n => some (o, n)
  | .unlocking a => a
  | _ => none

/-- The object that a reveal is of. -/
def Proc.reveals? : Proc ο → Option ο
  | .revealing h => h
  | .decoding o | .counting o | .asking o | .waiting o _ => some o
  | p => p.waited?.map Prod.fst

def Unlocked (ps : List (Proc ο)) : Prop := ∀ p ∈ ps, p.locked = false

/-- A revived sentinel whose object has not been hidden again. -/
def World.Undrained (w : World ο φ δ) (ps : List (Proc ο)) (s : Nat) : Prop :=
  s ∈ w.dying ∨ s ∈ w.reg.finq ∨ ∃ p ∈ ps, p.hand? = some s

/-- The sentinels that are revived, queued, pending or in hand. -/
def World.places (w : World ο φ δ) (ps : List (Proc ο)) : List Nat :=
  w.dying ++ w.reg.finq ++ w.reg.pending ++ ps.filterMap Proc.held?

def World.Gone (w : World ο φ δ) (o : ο) : Prop := w.freed o = true ∨ w.lost o = true

instance (w : World ο φ δ) (o : ο) : Decidable (w.Gone o) := inferInstanceAs (Decidable (_ ∨ _))

instance (ps : List (Proc ο)) : Decidable (Unlocked ps) := inferInstanceAs (Decidable (∀ p ∈ ps, p.locked = false))

inductive Label (ο : Type)
  | other
  /-- A reveal whose first decode found nothing reads the counter. -/
  | counts (o : ο)
  /-- A reveal that waited for a cycle decodes again. -/
  | redecodes (o : ο) (n : Nat)

/-- One step of a call, where `ps` are the other calls. -/
inductive Act (w : World ο φ δ) (ps : List (Proc ο)) : Proc ο → World ο φ δ → Proc ο → Label ο → Prop
  | hides (o : ο) : ¬w.Gone o → Act w ps .idle { w with reg := { w.reg with hiddenUsed := true } } (.hiding o) .other
  | encodes (o : ο) : Act w ps (.hiding o)
      { w with reg := { w.reg with hidden := Function.update w.reg.hidden o true }
               everHidden := Function.update w.everHidden o true } .idle .other
  | reveals (h : Option ο) : (∀ o, h = some o → w.everHidden o = true) → Act w ps .idle w (.revealing h) .other
  | revealsNull : Act w ps (.revealing none) w .returnedNull .other
  | revealsObject (o : ο) : Act w ps (.revealing (some o)) w (.decoding o) .other
  | decodes (o : ο) : w.reg.hidden o = true → Act w ps (.decoding o) w (.returned o true) .other
  | decodesNothing (o : ο) : w.reg.hidden o = false → Act w ps (.decoding o) w (.counting o) .other
  | counts (o : ο) : w.reg.registered ≠ 0 → Act w ps (.counting o) w (.asking o) (.counts o)
  | countsNone (o : ο) : w.reg.registered = 0 → Act w ps (.counting o) w (.returned o false) (.counts o)
  | asks (o : ο) : Act w ps (.asking o) w (.waiting o w.requested) .other
  | waits (o : ο) (n : Nat) : n ≤ w.completed → Act w ps (.waiting o n) w (.locking o n) .other
  | locks (o : ο) (n : Nat) : Unlocked ps → Act w ps (.locking o n) w (.draining (some (o, n))) .other
  | drains : Unlocked ps → Act w ps .idle w (.draining none) .other
  | polls {s : Nat} {rest : List Nat} (a : Option (ο × Nat)) : w.reg.finq = s :: rest → (w.reg.fn s).isSome →
      Act w ps (.draining a) { w with reg := { w.reg with finq := rest } } (.polled s a) .other
  | skips {s : Nat} {rest : List Nat} (a : Option (ο × Nat)) : w.reg.finq = s :: rest → w.reg.fn s = none →
      Act w ps (.draining a) { w with reg := { w.reg with finq := rest } } (.draining a) .other
  | pollsNothing (a : Option (ο × Nat)) : w.reg.finq = [] → Act w ps (.draining a) w (.unlocking a) .other
  | unmaps (s : Nat) (a : Option (ο × Nat)) : Act w ps (.polled s a) { w with reg := w.reg.unmap s } (.unmapped s a) .other
  | discounts (s : Nat) (a : Option (ο × Nat)) : Act w ps (.unmapped s a)
      { w with reg := { w.reg with registered := w.reg.registered - 1 } } (.discounted s a) .other
  | hidesAgain (s : Nat) (a : Option (ο × Nat)) :
      Act w ps (.discounted s a) { w with reg := w.reg.hideAgain s } (.hidden s a) .other
  | appends (s : Nat) (a : Option (ο × Nat)) :
      Act w ps (.hidden s a) { w with reg := { w.reg with pending := w.reg.pending ++ [s] } } (.draining a) .other
  | unlocks : Act w ps (.unlocking none) w .idle .other
  | unlocksReveal (o : ο) (n : Nat) : Act w ps (.unlocking (some (o, n))) w (.redecoding o n) .other
  | redecodes (o : ο) (n : Nat) : Act w ps (.redecoding o n) w (.returned o (w.reg.hidden o)) (.redecodes o n)
  | returns (o : ο) (valid : Bool) : Act w ps (.returned o valid) w .idle .other
  | returnsNull : Act w ps .returnedNull w .idle .other
  | registers (o : ο) (fn : Option φ) (d : δ) : Unlocked ps → ¬w.Gone o →
      Act w ps .idle { w with reg := (w.reg.registerFinalizer o fn d).1 } .idle .other
  | unregisters (o : ο) : Unlocked ps → Act w ps .idle { w with reg := w.reg.unregisterFinalizerOf o } .idle .other
  | frees (o : ο) : Act w ps .idle { w with freed := Function.update w.freed o true } .idle .other
  | pops {s : Nat} {rest : List Nat} : Unlocked ps → w.reg.pending = s :: rest →
      Act w ps .idle { w with reg := { w.reg with pending := rest } } (.popped s) .other
  | runs {s : Nat} {o : ο} : w.reg.obj s = some o →
      Act w ps (.popped s) { w with reg := w.reg.clear s } (.running o) .other
  | takes {s : Nat} {o : ο} : Unlocked ps → w.reg.finalizers o = some s → (w.reg.fn s).isSome →
      Act w ps .idle { w with reg := w.reg.takeEntry o } (.taken s o) .other
  | runsTaken (s : Nat) (o : ο) : Act w ps (.taken s o) { w with reg := w.reg.clear s } (.running o) .other
  | ran (o : ο) : Act w ps (.running o) w .idle .other

/-- What the collector does, and the calls that begin. -/
inductive Step (w : World ο φ δ) : Label ο → World ο φ δ → Prop
  | call {before after : List (Proc ο)} {p p' : Proc ο} {w' : World ο φ δ} {l : Label ο} :
      w.procs = before ++ p :: after → Act w (before ++ after) p w' p' l → Step w l { w' with procs := before ++ p' :: after }
  | begins : Step w .other { w with procs := w.procs ++ [.idle] }
  | requests : Step w .other { w with requested := w.requested + 1 }
  /-- A cycle finds an object dead that has a registration: its sentinel is revived, and it with it. -/
  | revives {o : ο} {s : Nat} : w.completed < w.requested → w.reg.finalizers o = some s →
      (∀ s' ∈ w.places w.procs, w.reg.obj s' ≠ some o) → (∀ p ∈ w.procs, p.holds? ≠ some o) →
      Step w .other { w with
        reg := { w.reg.setFinalizer o none with hidden := Function.update w.reg.hidden o false }
        dying := w.dying ++ [s]
        death := Function.update w.death s (w.completed + 1) }
  /-- A cycle finds an object dead that has none. -/
  | loses {o : ο} : w.completed < w.requested → w.reg.finalizers o = none →
      (∀ s' ∈ w.places w.procs, w.reg.obj s' ≠ some o) → (∀ p ∈ w.procs, p.holds? ≠ some o) →
      Step w .other { w with
        reg := { w.reg with hidden := Function.update w.reg.hidden o false }
        lost := Function.update w.lost o true }
  | queues {s : Nat} {rest : List Nat} : w.dying = s :: rest →
      Step w .other { w with reg := { w.reg with finq := w.reg.finq ++ [s] }, dying := rest }
  /-- A sentinel that was cancelled or run is queued too. -/
  | queuesCleared {s : Nat} : s < w.reg.sentinels.length → w.reg.fn s = none → s ∉ w.places w.procs →
      (∀ o, w.reg.finalizers o ≠ some s) →
      Step w .other { w with reg := { w.reg with finq := w.reg.finq ++ [s] }
                             death := Function.update w.death s (w.completed + 1) }
  | completes : w.completed < w.requested → w.dying = [] → Step w .other { w with completed := w.completed + 1 }

inductive Run (Meets : World ο φ δ → Label ο → Prop) : World ο φ δ → Prop
  | start (c : Nat) : Run Meets ⟨Registry.empty, [.idle], c, c, [], fun _ => 0, fun _ => false, fun _ => false, fun _ => false⟩
  | step {w w' : World ο φ δ} {l : Label ο} : Run Meets w → Meets w l → Step w l w' → Run Meets w'

/-- A reveal that found nothing reads a counter that is not zero, unless the object is gone, and no later cycle
than the one it waited for has revived a sentinel of the object that is not drained when it decodes again. -/
def SteadyAt (w : World ο φ δ) (ps : List (Proc ο)) : Label ο → Prop
  | .counts o => w.reg.registered = 0 → w.Gone o
  | .redecodes o n => ∀ s, w.Undrained ps s → w.reg.obj s = some o → w.death s ≤ n
  | .other => True

def Steady (w : World ο φ δ) (l : Label ο) : Prop := SteadyAt w w.procs l

end

/-! ### The invariant -/

section
variable {ο φ δ : Type} {w w' : World ο φ δ} {ps ps' : List (Proc ο)} {p p' : Proc ο} {s : Nat} {o : ο} {a : Option (ο × Nat)}

/-- Where the sentinels are. -/
structure Placed (w : World ο φ δ) (ps : List (Proc ο)) : Prop where
  cleared : ∀ s, w.reg.fn s = none → w.reg.obj s = none
  mapped : ∀ o s, w.reg.finalizers o = some s → w.reg.obj s = some o ∧ s ∉ w.places ps
  once : ∀ s, (w.places ps).count s ≤ 1
  inside : ∀ s ∈ w.places ps, s < w.reg.sentinels.length

/-- What the reveals rest on: an object that was hidden and is not gone is in the table, or a sentinel of it is
not drained, and a reveal past its drain has left none of the cycles that it waited for. -/
structure Revealable (w : World ο φ δ) (ps : List (Proc ο)) : Prop where
  used : ∀ o, w.everHidden o = true ∨ .hiding o ∈ ps → w.reg.hiddenUsed = true
  kept : ∀ o, w.everHidden o = true → ¬w.Gone o → w.reg.hidden o = true ∨ ∃ s, w.Undrained ps s ∧ w.reg.obj s = some o
  locked : ps.countP Proc.locked ≤ 1
  dying : ∀ s ∈ w.dying, w.death s = w.completed + 1
  waited : ∀ p ∈ ps, ∀ o n, p.waited? = some (o, n) → n ≤ w.completed
  drained : ∀ p ∈ ps, ∀ o n, p.drained? = some (o, n) → ∀ s, w.Undrained ps s → n < w.death s
  returned : ∀ o, .returned o false ∈ ps → w.Gone o
  reveals : ∀ p ∈ ps, ∀ o, p.reveals? = some o → w.everHidden o = true

theorem undrained_perm (same : ps.Perm ps') : w.Undrained ps s ↔ w.Undrained ps' s := by
  simp only [World.Undrained, same.mem_iff]

theorem Placed.perm (placed : Placed w ps) (same : ps.Perm ps') : Placed w ps' := by
  have places : (w.places ps).Perm (w.places ps') := (same.filterMap Proc.held?).append_left _
  refine ⟨placed.cleared, fun o s entry => ?_, fun s => ?_, fun s there => placed.inside s (places.mem_iff.2 there)⟩
  · exact (placed.mapped o s entry).imp id fun apart there => apart (places.mem_iff.2 there)
  · rw [← places.count_eq s]
    exact placed.once s

theorem Revealable.perm (holds : Revealable w ps) (same : ps.Perm ps') : Revealable w ps' where
  __ := holds
  used o hidden := holds.used o (hidden.imp id same.mem_iff.2)
  kept o hidden there := (holds.kept o hidden there).imp id fun ⟨s, mem, own⟩ => ⟨s, (undrained_perm same).1 mem, own⟩
  locked := same.countP_eq Proc.locked ▸ holds.locked
  waited p mem := holds.waited p (same.mem_iff.2 mem)
  drained p mem o n past s there := holds.drained p (same.mem_iff.2 mem) o n past s ((undrained_perm same).2 there)
  returned o mem := holds.returned o (same.mem_iff.2 mem)
  reveals p mem := holds.reveals p (same.mem_iff.2 mem)

/-! ### One call goes on -/

theorem undrained_cons : w.Undrained (p :: ps) s ↔ p.hand? = some s ∨ w.Undrained ps s := by
  simp only [World.Undrained, exists_mem_cons_iff]
  tauto

theorem count_places (w : World ο φ δ) (ps : List (Proc ο)) (s : Nat) : (w.places ps).count s =
    w.dying.count s + w.reg.finq.count s + w.reg.pending.count s + (ps.filterMap Proc.held?).count s := by
  simp only [World.places, count_append]

theorem count_held (p : Proc ο) (ps : List (Proc ο)) (s : Nat) : ((p :: ps).filterMap Proc.held?).count s =
    (if p.held? = some s then 1 else 0) + (ps.filterMap Proc.held?).count s := by
  rw [filterMap_cons]
  cases held : p.held? with
  | none => simp
  | some s' =>
    rw [count_cons, Nat.add_comm]
    simp

/-- Sentinels that keep their fields stay placed when none is in more places. -/
theorem Placed.fewer (placed : Placed w ps) (sentinels : w'.reg.sentinels = w.reg.sentinels)
    (finalizers : ∀ o s, w'.reg.finalizers o = some s → w.reg.finalizers o = some s)
    (counts : ∀ s, (w'.places ps').count s ≤ (w.places ps).count s) : Placed w' ps' := by
  have obj : ∀ s, w'.reg.obj s = w.reg.obj s := fun s => by rw [Registry.obj, sentinels, Registry.obj]
  have fn : ∀ s, w'.reg.fn s = w.reg.fn s := fun s => by rw [Registry.fn, sentinels, Registry.fn]
  refine ⟨fun s gone => ?_, fun o s entry => ?_, fun s => (counts s).trans (placed.once s), fun s there => ?_⟩
  · rw [obj]
    exact placed.cleared s (fn s ▸ gone)
  · obtain ⟨own, apart⟩ := placed.mapped o s (finalizers o s entry)
    refine ⟨(obj s).trans own, fun there => apart (count_pos_iff.1 ?_)⟩
    exact (count_pos_iff.2 there).trans_le (counts s)
  · rw [sentinels]
    exact placed.inside s (count_pos_iff.1 ((count_pos_iff.2 there).trans_le (counts s)))

theorem Placed.move (placed : Placed w (p :: ps)) (held : p'.held? = p.held?) : Placed w (p' :: ps) :=
  placed.fewer rfl (fun _ _ entry => entry) fun s => by
    rw [count_places, count_places, count_held, count_held, held]

structure Moves (w : World ο φ δ) (ps : List (Proc ο)) (p p' : Proc ο) : Prop where
  used : ∀ o, p' = .hiding o → w.reg.hiddenUsed = true
  lock : p'.locked = true → p.locked = true ∨ Unlocked ps
  waited : ∀ o n, p'.waited? = some (o, n) → n ≤ w.completed
  drained : ∀ o n, p'.drained? = some (o, n) → ∀ s, w.Undrained (p' :: ps) s → n < w.death s
  returned : ∀ o, p' = .returned o false → w.Gone o
  reveals : ∀ o, p'.reveals? = some o → w.everHidden o = true

theorem Unlocked.count (free : Unlocked ps) : ps.countP Proc.locked = 0 :=
  countP_eq_zero.2 fun p mem => by rw [free p mem]; nofun

/-- A call goes on, and what is not drained stays so or is hidden again. -/
theorem Revealable.move (holds : Revealable w (p :: ps)) (moves : Moves w' ps p p')
    (usedStays : w.reg.hiddenUsed = true → w'.reg.hiddenUsed = true) (ever : w'.everHidden = w.everHidden)
    (gone : ∀ o, w.Gone o → w'.Gone o) (dying : w'.dying = w.dying) (death : w'.death = w.death)
    (completed : w'.completed = w.completed)
    (kept : ∀ o, w.everHidden o = true → ¬w'.Gone o →
      w'.reg.hidden o = true ∨ ∃ s, w'.Undrained (p' :: ps) s ∧ w'.reg.obj s = some o)
    (less : ∀ s, w'.Undrained (p' :: ps) s → w.Undrained (p :: ps) s) : Revealable w' (p' :: ps) where
  used o hidden := by
    rcases hidden with hidden | mem
    · exact usedStays (holds.used o (.inl (ever ▸ hidden)))
    · rcases mem_cons.1 mem with same | mem
      · exact moves.used o same.symm
      · exact usedStays (holds.used o (.inr (mem_cons_of_mem p mem)))
  kept o hidden := kept o (ever ▸ hidden)
  locked := by
    have before := holds.locked
    rw [countP_cons] at before ⊢
    split_ifs with lock
    · rcases moves.lock lock with own | free
      · rw [if_pos own] at before
        exact before
      · rw [free.count]
    · exact (Nat.le_add_right _ _).trans before
  dying := by
    rw [dying, death, completed]
    exact holds.dying
  waited q mem o n at_ := by
    rcases mem_cons.1 mem with rfl | mem
    · exact moves.waited o n at_
    · rw [completed]
      exact holds.waited q (mem_cons_of_mem p mem) o n at_
  drained q mem o n at_ s there := by
    rcases mem_cons.1 mem with rfl | mem
    · exact moves.drained o n at_ s there
    · rw [death]
      exact holds.drained q (mem_cons_of_mem p mem) o n at_ s (less s there)
  returned o mem := by
    rcases mem_cons.1 mem with same | mem
    · exact moves.returned o same.symm
    · exact gone o (holds.returned o (mem_cons_of_mem p mem))
  reveals q mem o at_ := by
    rcases mem_cons.1 mem with rfl | mem
    · exact moves.reveals o at_
    · rw [ever]
      exact holds.reveals q (mem_cons_of_mem p mem) o at_

/-- A call goes on with what it has in hand, in a world whose tables say the same of what is hidden. -/
theorem Revealable.quiet (holds : Revealable w (p :: ps)) (moves : Moves w' ps p p')
    (usedStays : w.reg.hiddenUsed = true → w'.reg.hiddenUsed = true) (ever : w'.everHidden = w.everHidden)
    (gone : ∀ o, w.Gone o → w'.Gone o) (dying : w'.dying = w.dying) (death : w'.death = w.death)
    (completed : w'.completed = w.completed) (hidden : w'.reg.hidden = w.reg.hidden)
    (same : ∀ s, w'.Undrained (p' :: ps) s ↔ w.Undrained (p :: ps) s)
    (obj : ∀ s, w.Undrained (p :: ps) s → w'.reg.obj s = w.reg.obj s) : Revealable w' (p' :: ps) := by
  refine holds.move moves usedStays ever gone dying death completed (fun o ever_ there => ?_) fun s => (same s).1
  rw [hidden]
  refine (holds.kept o ever_ fun lost => there (gone o lost)).imp id fun ⟨s, mem, own⟩ => ?_
  exact ⟨s, (same s).2 mem, (obj s mem).trans own⟩

theorem Revealable.goes (holds : Revealable w (p :: ps)) (hand : p'.hand? = p.hand?) (moves : Moves w ps p p') :
    Revealable w (p' :: ps) :=
  holds.quiet moves id rfl (fun _ => id) rfl rfl rfl rfl (fun s => by rw [undrained_cons, undrained_cons, hand]) fun _ _ => rfl

theorem locked_of_hand {q : Proc ο} (hand : q.hand? = some s) : q.locked = true := by
  cases q <;> first | rfl | cases hand

theorem waited_of_drained {q : Proc ο} {n : Nat} (past : q.drained? = some (o, n)) : q.waited? = some (o, n) := by
  cases q <;> first | exact past | cases past

/-- While one call has the lock, no other has a sentinel in hand. -/
theorem Revealable.alone (holds : Revealable w (p :: ps)) (locked : p.locked = true) : ∀ q ∈ ps, q.hand? = none := by
  intro q mem
  by_contra some_
  obtain ⟨s, hand⟩ := ne_none_iff_exists'.1 some_
  have count := holds.locked
  rw [countP_cons, if_pos locked] at count
  have := countP_pos_iff.2 ⟨q, mem, locked_of_hand hand⟩
  omega

/-- When the queue is empty, what is not drained is of a cycle that is not completed. -/
theorem Revealable.emptied (holds : Revealable w (.draining a :: ps)) (empty : w.reg.finq = []) {o : ο} {n : Nat}
    (after : a = some (o, n)) : ∀ s, w.Undrained (.unlocking a :: ps) s → n < w.death s := by
  intro s there
  have low := holds.waited _ mem_cons_self o n after
  rw [undrained_cons] at there
  rcases there with hand | dying | queued | ⟨q, mem, hand⟩
  · cases hand
  · have := holds.dying s dying
    omega
  · rw [empty] at queued
    cases queued
  · rw [holds.alone rfl q mem] at hand
    cases hand

theorem Placed.clear (placed : Placed w ps) (unmapped : ∀ o, w.reg.finalizers o ≠ some s) :
    Placed { w with reg := w.reg.clear s } ps := by
  refine ⟨fun s' gone => ?_, fun o s' entry => ?_, placed.once, fun s' there => ?_⟩
  · dsimp only at gone ⊢
    rw [clear_fn] at gone
    rw [clear_obj]
    split_ifs at gone ⊢
    · rfl
    · exact placed.cleared s' gone
  · refine (placed.mapped o s' entry).imp (fun own => ?_) id
    dsimp only
    rw [clear_obj, if_neg]
    · exact own
    · rintro rfl
      exact unmapped o entry
  · exact (placed.inside s' there).trans_eq (clear_size w.reg s).symm

variable [DecidableEq ο]

/-- A sentinel is mapped under its own object, if it is mapped. -/
theorem Placed.unmap (placed : Placed w ps) {o' : ο} (entry : w.reg.finalizers o = some s)
    (entry' : (w.reg.setFinalizer o none).finalizers o' = some s) : False := by
  rw [setFinalizer_get] at entry'
  split_ifs at entry' with other
  have own := (placed.mapped o s entry).1
  rw [(placed.mapped o' s entry').1] at own
  exact other (Option.some.inj own)

theorem Placed.forget (placed : Placed w ps) (o : ο) : Placed { w with reg := w.reg.setFinalizer o none } ps := by
  refine placed.fewer rfl (fun o' s entry => ?_) fun s => Nat.le_refl _
  rw [setFinalizer_get] at entry
  split_ifs at entry
  exact entry

theorem Placed.cancel (placed : Placed w ps) (o : ο) :
    Placed { w with reg := (w.reg.dropOld o).setFinalizer o none } ps := by
  have forgot := placed.forget o
  rw [Registry.dropOld]
  cases entry : w.reg.finalizers o with
  | none => exact forgot
  | some old =>
    have cleared := forgot.clear (s := old) fun o' entry' => placed.unmap entry entry'
    exact cleared.fewer rfl (fun _ _ entry => entry) fun s => Nat.le_refl _

theorem Placed.add (placed : Placed w ps) (o : ο) (f : φ) (d : δ) :
    Placed { w with reg := { w.reg.setFinalizer o (some w.reg.sentinels.length) with
      sentinels := w.reg.sentinels ++ [⟨some o, some f, d⟩], registered := w.reg.registered + 1 } } ps := by
  have old : ∀ s, s < w.reg.sentinels.length → (w.reg.sentinels ++ [⟨some o, some f, d⟩])[s]? = w.reg.sentinels[s]? :=
    fun s low => getElem?_append_left low
  have known : ∀ {s o}, w.reg.obj s = some o → s < w.reg.sentinels.length := by
    intro s o own
    by_contra high
    rw [Registry.obj, getElem?_eq_none (Nat.le_of_not_lt high)] at own
    cases own
  refine ⟨fun s gone => ?_, fun o' s entry => ?_, placed.once, fun s there => ?_⟩
  · dsimp only [Registry.fn, Registry.obj] at gone ⊢
    rcases Nat.lt_trichotomy s w.reg.sentinels.length with low | rfl | high
    · rw [old s low] at gone ⊢
      exact placed.cleared s gone
    · rw [getElem?_concat_length] at gone
      cases gone
    · rw [getElem?_eq_none (by rw [length_append, length_singleton]; omega)]
      rfl
  · have got : (w.reg.setFinalizer o (some w.reg.sentinels.length)).finalizers o' = some s := entry
    rw [setFinalizer_get] at got
    split_ifs at got with same
    · cases got
      refine ⟨?_, fun there => Nat.lt_irrefl _ (placed.inside _ there)⟩
      dsimp only [Registry.obj]
      rw [getElem?_concat_length, same]
      rfl
    · refine (placed.mapped o' s got).imp (fun own => ?_) id
      dsimp only [Registry.obj]
      rw [old s (known own)]
      exact own
  · dsimp only
    rw [length_append]
    exact Nat.lt_add_right _ (placed.inside s there)

theorem Placed.unregister (placed : Placed w ps) (o : ο) : Placed { w with reg := w.reg.unregisterFinalizerOf o } ps := by
  rw [Registry.unregisterFinalizerOf]
  split_ifs
  · exact placed.cancel o
  · exact placed

theorem Placed.register (placed : Placed w ps) (o : ο) (fn : Option φ) (d : δ) :
    Placed { w with reg := (w.reg.registerFinalizer o fn d).1 } ps := by
  have dropped := placed.cancel o
  cases fn with
  | none =>
    rw [Registry.registerFinalizer]
    dsimp only
    split_ifs with old
    · exact dropped
    · rw [dropOld_none (by simpa using old)]
      exact placed
  | some f =>
    refine (dropped.add o f d).fewer rfl (fun o' s entry => ?_) fun s => Nat.le_refl _
    have got : ((w.reg.dropOld o).setFinalizer o (some (w.reg.dropOld o).sentinels.length)).finalizers o' = some s := entry
    change (((w.reg.dropOld o).setFinalizer o none).setFinalizer o (some (w.reg.dropOld o).sentinels.length)).finalizers o' = some s
    rw [setFinalizer_get] at got ⊢
    split_ifs at got ⊢ with same
    · exact got
    · rw [setFinalizer_get, if_neg same]
      exact got

/-- What a call's step does to where the sentinels are. -/
theorem Act.placed {l : Label ο} (act : Act w ps p w' p' l) (placed : Placed w (p :: ps)) : Placed w' (p' :: ps) := by
  cases act with
  | @polls s rest a front live =>
    refine placed.fewer rfl (fun _ _ entry => entry) fun s' => ?_
    simp only [count_places, count_held, Proc.held?, front, count_cons, Option.some.injEq, reduceCtorEq, if_false, beq_iff_eq]
    omega
  | @skips s rest a front gone =>
    refine placed.fewer rfl (fun _ _ entry => entry) fun s' => ?_
    simp only [count_places, count_held, front, count_cons]
    omega
  | unmaps s a =>
    have kept := @Placed.move _ _ _ _ _ _ (.unmapped s a) placed rfl
    obtain ⟨fs, unmapped, entries⟩ := unmap_tables w.reg s
    rw [unmapped]
    refine kept.fewer rfl (fun o' s' entry => ?_) fun s => Nat.le_refl _
    dsimp only at entry
    rw [entries] at entry
    split_ifs at entry
    exact entry
  | hidesAgain s a =>
    obtain ⟨hidden, again⟩ := hideAgain_tables w.reg s
    rw [again]
    exact (@Placed.move _ _ _ _ _ _ (.hidden s a) placed rfl).fewer rfl (fun _ _ entry => entry) fun s => Nat.le_refl _
  | appends s a =>
    refine placed.fewer rfl (fun _ _ entry => entry) fun s' => ?_
    simp only [count_places, count_held, Proc.held?, count_append, count_singleton, Option.some.injEq, reduceCtorEq,
      if_false, beq_iff_eq]
    omega
  | registers o fn d free valid => exact placed.register o fn d
  | unregisters o free => exact placed.unregister o
  | @pops s rest free front =>
    refine placed.fewer rfl (fun _ _ entry => entry) fun s' => ?_
    simp only [count_places, count_held, Proc.held?, front, count_cons, Option.some.injEq, reduceCtorEq, if_false, beq_iff_eq]
    omega
  | @runs s o own =>
    have cleared := placed.clear (s := s) fun o' entry => (placed.mapped o' s entry).2 (by simp [World.places, Proc.held?])
    exact cleared.fewer rfl (fun _ _ entry => entry) fun s' => by
      simp only [count_places, count_held, Proc.held?, reduceCtorEq, if_false]
      omega
  | @takes s o free entry live =>
    have forgot := placed.forget o
    obtain ⟨own, apart⟩ := placed.mapped o s entry
    refine ⟨forgot.cleared, fun o' s' entry' => ?_, fun s' => ?_, fun s' there => ?_⟩
    · refine (forgot.mapped o' s' entry').imp id fun away there => ?_
      rcases mem_append.1 there with there | there
      · exact away (mem_append_left _ there)
      · rcases mem_cons.1 there with rfl | there
        · exact placed.unmap entry entry'
        · exact away (mem_append_right _ there)
    · have zero : (w.places (.idle :: ps)).count s = 0 := count_eq_zero.2 apart
      have before := placed.once s'
      simp only [count_places, count_held, Proc.held?, reduceCtorEq, if_false, Option.some.injEq] at zero before ⊢
      change List.count s' w.dying + List.count s' w.reg.finq + List.count s' w.reg.pending + _ ≤ 1
      split_ifs with same
      · subst same
        omega
      · exact before
    · rcases mem_append.1 there with there | there
      · exact placed.inside s' (mem_append_left _ there)
      · rcases mem_cons.1 there with rfl | there
        · change s' < w.reg.sentinels.length
          by_contra high
          rw [Registry.obj, getElem?_eq_none (Nat.le_of_not_lt high)] at own
          cases own
        · exact placed.inside s' (mem_append_right _ there)
  | runsTaken s o =>
    have cleared := placed.clear (s := s) fun o' entry => (placed.mapped o' s entry).2 (by simp [World.places, Proc.held?])
    exact cleared.fewer rfl (fun _ _ entry => entry) fun s' => by
      simp only [count_places, count_held, Proc.held?, reduceCtorEq, if_false]
      omega
  | _ => exact placed.fewer rfl (fun _ _ entry => entry) fun s => Nat.le_refl _

omit [DecidableEq ο] in
theorem undrained_places (there : w.Undrained ps s) : s ∈ w.places ps := by
  simp only [World.places, mem_append, mem_filterMap]
  rcases there with dying | queued | ⟨q, mem, hand⟩
  · exact .inl (.inl (.inl dying))
  · exact .inl (.inl (.inr queued))
  · refine .inr ⟨q, mem, ?_⟩
    cases q <;> first | exact hand | cases hand

omit [DecidableEq ο] in
/-- What a call has in hand past a drain is drained. -/
theorem Placed.drained (placed : Placed w (p :: ps)) (held : p.held? = some s) (hand : p.hand? = none) :
    ¬w.Undrained (p :: ps) s := by
  intro there
  have once := placed.once s
  rw [count_places, count_held, if_pos held] at once
  rw [undrained_cons, hand] at there
  rcases there with none_ | dying | queued | ⟨q, mem, hand⟩
  · cases none_
  · have := count_pos_iff.2 dying
    omega
  · have := count_pos_iff.2 queued
    omega
  · have there : s ∈ ps.filterMap Proc.held? := by
      refine mem_filterMap.2 ⟨q, mem, ?_⟩
      cases q <;> first | exact hand | cases hand
    have := count_pos_iff.2 there
    omega

omit [DecidableEq ο] in
/-- Registering leaves the objects of the sentinels that are somewhere. -/
theorem Placed.dropOld_obj (placed : Placed w ps) (there : s ∈ w.places ps) (o : ο) : (w.reg.dropOld o).obj s = w.reg.obj s := by
  rw [Registry.dropOld]
  cases entry : w.reg.finalizers o with
  | none => rfl
  | some old =>
    refine (clear_obj w.reg old s).trans (if_neg ?_)
    rintro rfl
    exact (placed.mapped o _ entry).2 there

theorem Placed.register_obj (placed : Placed w ps) (there : s ∈ w.places ps) (o : ο) (fn : Option φ) (d : δ) :
    (w.reg.registerFinalizer o fn d).1.obj s = w.reg.obj s := by
  have dropped := placed.dropOld_obj there o
  cases fn with
  | none =>
    rw [Registry.registerFinalizer]
    dsimp only
    split_ifs
    · exact dropped
    · exact dropped
  | some f =>
    rw [← dropped]
    dsimp only [Registry.registerFinalizer, Registry.obj]
    rw [getElem?_append_left]
    have size : (w.reg.dropOld o).sentinels.length = w.reg.sentinels.length := by
      rw [Registry.dropOld]
      cases w.reg.finalizers o with
      | none => rfl
      | some old => exact clear_size w.reg old
    rw [size]
    exact placed.inside s there

theorem Placed.unregister_obj (placed : Placed w ps) (there : s ∈ w.places ps) (o : ο) :
    (w.reg.unregisterFinalizerOf o).obj s = w.reg.obj s := by
  rw [Registry.unregisterFinalizerOf]
  split_ifs
  · exact placed.dropOld_obj there o
  · rfl

omit [DecidableEq ο] in
theorem dropOld_kept (r : Registry ο φ δ) (o : ο) : (r.dropOld o).hidden = r.hidden ∧
    (r.dropOld o).hiddenUsed = r.hiddenUsed ∧ (r.dropOld o).finq = r.finq := by
  rw [Registry.dropOld]
  cases r.finalizers o <;> exact ⟨rfl, rfl, rfl⟩

theorem register_kept (r : Registry ο φ δ) (o : ο) (fn : Option φ) (d : δ) : (r.registerFinalizer o fn d).1.hidden = r.hidden ∧
    (r.registerFinalizer o fn d).1.hiddenUsed = r.hiddenUsed ∧ (r.registerFinalizer o fn d).1.finq = r.finq := by
  cases fn with
  | none =>
    rw [Registry.registerFinalizer]
    dsimp only
    split_ifs <;> exact dropOld_kept r o
  | some f => exact dropOld_kept r o

theorem unregister_kept (r : Registry ο φ δ) (o : ο) : (r.unregisterFinalizerOf o).hidden = r.hidden ∧
    (r.unregisterFinalizerOf o).hiddenUsed = r.hiddenUsed ∧ (r.unregisterFinalizerOf o).finq = r.finq := by
  rw [Registry.unregisterFinalizerOf]
  split_ifs
  · exact dropOld_kept r o
  · exact ⟨rfl, rfl, rfl⟩

theorem hideAgain_hidden (r : Registry ο φ δ) (s : Nat) (o : ο) : (r.hideAgain s).hidden o = true ↔
    r.hidden o = true ∨ r.obj s = some o ∧ r.hiddenUsed = true := by
  rw [Registry.hideAgain]
  cases own : r.obj s with
  | none => simp
  | some o' =>
    dsimp only
    split_ifs with used
    · dsimp only
      rw [Function.update_apply, used]
      split_ifs with same
      · simp [same]
      · simp [Ne.symm same]
    · simp [used]

/-- What a call's step does to what the reveals rest on. -/
theorem Act.revealable {l : Label ο} (act : Act w ps p w' p' l) (placed : Placed w (p :: ps)) (meets : SteadyAt w (p :: ps) l)
    (holds : Revealable w (p :: ps)) : Revealable w' (p' :: ps) := by
  have reveals := holds.reveals p mem_cons_self
  have waited := holds.waited p mem_cons_self
  cases act with
  | hides o there =>
    exact holds.quiet ⟨fun _ _ => rfl, nofun, nofun, nofun, nofun, nofun⟩ (fun _ => rfl) rfl (fun _ => id) rfl rfl rfl rfl
      (fun s => by rw [undrained_cons, undrained_cons]; rfl) fun _ _ => rfl
  | encodes o =>
    have used := holds.used o (.inr mem_cons_self)
    have goes : Revealable w (.idle :: ps) := holds.goes rfl ⟨nofun, nofun, nofun, nofun, nofun, nofun⟩
    refine ⟨fun _ _ => used, fun o' hidden there => ?_, goes.locked, goes.dying, goes.waited, goes.drained, goes.returned,
      fun q mem o' at_ => ?_⟩
    · by_cases same : o' = o
      · subst same
        exact .inl (Function.update_self ..)
      · have ever : w.everHidden o' = true := (Function.update_of_ne same true w.everHidden).symm.trans hidden
        refine (goes.kept o' ever there).imp (fun hidden => ?_) id
        exact (Function.update_of_ne same ..).trans hidden
    · by_cases same : o' = o
      · subst same
        exact Function.update_self ..
      · exact (Function.update_of_ne same ..).trans (goes.reveals q mem o' at_)
  | reveals h hidden => exact holds.goes rfl ⟨nofun, nofun, nofun, nofun, nofun, hidden⟩
  | revealsObject o => exact holds.goes rfl ⟨nofun, nofun, nofun, nofun, nofun, reveals⟩
  | revealsNull => exact holds.goes rfl ⟨nofun, nofun, nofun, nofun, nofun, nofun⟩
  | decodes o there => exact holds.goes rfl ⟨nofun, nofun, nofun, nofun, nofun, nofun⟩
  | decodesNothing o there => exact holds.goes rfl ⟨nofun, nofun, nofun, nofun, nofun, reveals⟩
  | counts o some_ => exact holds.goes rfl ⟨nofun, nofun, nofun, nofun, nofun, reveals⟩
  | countsNone o zero =>
    exact holds.goes rfl ⟨nofun, nofun, nofun, nofun, fun _ same => by cases same; exact meets zero, nofun⟩
  | asks o => exact holds.goes rfl ⟨nofun, nofun, nofun, nofun, nofun, reveals⟩
  | waits o n low => exact holds.goes rfl ⟨nofun, nofun, fun _ _ same => by cases same; exact low, nofun, nofun, reveals⟩
  | locks o n free => exact holds.goes rfl ⟨nofun, fun _ => .inr free, waited, nofun, nofun, reveals⟩
  | drains free => exact holds.goes rfl ⟨nofun, fun _ => .inr free, nofun, nofun, nofun, nofun⟩
  | @polls s rest a front live =>
    refine holds.quiet ⟨nofun, fun _ => .inl rfl, waited, nofun, nofun, reveals⟩ id rfl (fun _ => id) rfl rfl rfl rfl
      (fun s' => ?_) fun _ _ => rfl
    rw [undrained_cons, undrained_cons, World.Undrained, World.Undrained, front, mem_cons]
    simp only [show (Proc.polled s a).hand? = some s from rfl, show (Proc.draining a).hand? = none from rfl, Option.some.injEq,
      reduceCtorEq, false_or, eq_comm (a := s)]
    tauto
  | @skips s rest a front gone =>
    have less : ∀ s', World.Undrained { w with reg := { w.reg with finq := rest } } (.draining a :: ps) s' →
        w.Undrained (.draining a :: ps) s' := by
      rintro s' (dying | queued | hand)
      · exact .inl dying
      · exact .inr (.inl (front ▸ mem_cons_of_mem s queued))
      · exact .inr (.inr hand)
    refine holds.move ⟨nofun, fun _ => .inl rfl, waited, nofun, nofun, reveals⟩ id rfl (fun _ => id) rfl rfl rfl
      (fun o ever there => (holds.kept o ever there).imp id fun ⟨s', mem, own⟩ => ⟨s', ?_, own⟩) less
    rcases mem with dying | queued | hand
    · exact .inl dying
    · rw [front] at queued
      rcases mem_cons.1 queued with rfl | queued
      · rw [placed.cleared s' gone] at own
        cases own
      · exact .inr (.inl queued)
    · exact .inr (.inr hand)
  | pollsNothing a empty =>
    exact holds.goes rfl ⟨nofun, fun _ => .inl rfl, waited, fun _ _ after => holds.emptied empty after, nofun, reveals⟩
  | unmaps s a =>
    obtain ⟨fs, unmapped, -⟩ := unmap_tables w.reg s
    rw [unmapped]
    exact holds.quiet ⟨nofun, fun _ => .inl rfl, waited, nofun, nofun, reveals⟩ id rfl (fun _ => id) rfl rfl rfl rfl
      (fun s' => by rw [undrained_cons, undrained_cons]; rfl) fun _ _ => rfl
  | discounts s a =>
    exact holds.quiet ⟨nofun, fun _ => .inl rfl, waited, nofun, nofun, reveals⟩ id rfl (fun _ => id) rfl rfl rfl rfl
      (fun s' => by rw [undrained_cons, undrained_cons]; rfl) fun _ _ => rfl
  | hidesAgain s a =>
    have less : ∀ s', w.Undrained (.hidden s a :: ps) s' → w.Undrained (.discounted s a :: ps) s' := by
      intro s' there
      rw [undrained_cons] at there ⊢
      exact .inr (there.resolve_left nofun)
    have hand : ∀ s', w.Undrained (.discounted s a :: ps) s' → s' = s ∨ w.Undrained (.hidden s a :: ps) s' := by
      intro s' there
      rw [undrained_cons] at there
      refine there.imp (fun hand => (Option.some.inj hand).symm) fun there => ?_
      exact undrained_cons.2 (.inr there)
    obtain ⟨hidden, again⟩ := hideAgain_tables w.reg s
    have shows : ∀ o, hidden o = true ↔ w.reg.hidden o = true ∨ w.reg.obj s = some o ∧ w.reg.hiddenUsed = true := by
      intro o
      rw [← hideAgain_hidden, again]
    rw [again]
    refine holds.move ⟨nofun, fun _ => .inl rfl, waited, nofun, nofun, reveals⟩ id rfl (fun _ => id) rfl rfl rfl
      (fun o ever there => ?_) less
    rcases holds.kept o ever there with known | ⟨s', mem, own⟩
    · exact .inl ((shows o).2 (.inl known))
    · rcases hand s' mem with rfl | mem
      · exact .inl ((shows o).2 (.inr ⟨own, holds.used o (.inl ever)⟩))
      · exact .inr ⟨s', mem, own⟩
  | appends s a =>
    exact holds.quiet ⟨nofun, fun _ => .inl rfl, waited, nofun, nofun, reveals⟩ id rfl (fun _ => id) rfl rfl rfl rfl
      (fun s' => by rw [undrained_cons, undrained_cons]; rfl) fun _ _ => rfl
  | unlocks => exact holds.goes rfl ⟨nofun, nofun, nofun, nofun, nofun, nofun⟩
  | unlocksReveal o n =>
    refine holds.goes rfl ⟨nofun, nofun, waited, fun o' n' same s there => ?_, nofun, reveals⟩
    exact holds.drained _ mem_cons_self o' n' same s (by rwa [undrained_cons] at there ⊢)
  | redecodes o n =>
    refine holds.goes rfl ⟨nofun, nofun, nofun, nofun, fun o' same => ?_, nofun⟩
    have hidden : w.reg.hidden o = false := by
      injection same with _ same
    have own : o = o' := by
      injection same
    subst own
    by_contra there
    rcases holds.kept o (reveals o rfl) there with known | ⟨s, mem, obj⟩
    · rw [hidden] at known
      cases known
    · have low := meets s mem obj
      have high := holds.drained _ mem_cons_self o n rfl s mem
      omega
  | returns => exact holds.goes rfl ⟨nofun, nofun, nofun, nofun, nofun, nofun⟩
  | returnsNull => exact holds.goes rfl ⟨nofun, nofun, nofun, nofun, nofun, nofun⟩
  | registers o fn d free valid =>
    obtain ⟨hidden, used, finq⟩ := register_kept w.reg o fn d
    refine holds.quiet ⟨nofun, nofun, nofun, nofun, nofun, nofun⟩ used.trans rfl (fun _ => id) rfl rfl rfl hidden
      (fun s' => ?_) fun s' there => placed.register_obj (undrained_places there) o fn d
    simp only [World.Undrained, finq]
  | unregisters o free =>
    obtain ⟨hidden, used, finq⟩ := unregister_kept w.reg o
    refine holds.quiet ⟨nofun, nofun, nofun, nofun, nofun, nofun⟩ used.trans rfl (fun _ => id) rfl rfl rfl hidden
      (fun s' => ?_) fun s' there => placed.unregister_obj (undrained_places there) o
    simp only [World.Undrained, finq]
  | frees o =>
    refine holds.quiet ⟨nofun, nofun, nofun, nofun, nofun, nofun⟩ id rfl (fun o' gone => ?_) rfl rfl rfl rfl
      (fun s' => Iff.rfl) fun _ _ => rfl
    refine gone.imp (fun freed => ?_) id
    by_cases same : o' = o
    · subst same
      exact Function.update_self ..
    · exact (Function.update_of_ne same ..).trans freed
  | pops free front =>
    exact holds.quiet ⟨nofun, nofun, nofun, nofun, nofun, nofun⟩ id rfl (fun _ => id) rfl rfl rfl rfl
      (fun s' => by rw [undrained_cons, undrained_cons]; rfl) fun _ _ => rfl
  | @runs s o own =>
    refine holds.quiet ⟨nofun, nofun, nofun, nofun, nofun, nofun⟩ id rfl (fun _ => id) rfl rfl rfl rfl
      (fun s' => by rw [undrained_cons, undrained_cons]; rfl) fun s' there => ?_
    refine (clear_obj w.reg s s').trans (if_neg ?_)
    rintro rfl
    exact placed.drained rfl rfl there
  | takes free entry live =>
    exact holds.quiet ⟨nofun, nofun, nofun, nofun, nofun, nofun⟩ id rfl (fun _ => id) rfl rfl rfl rfl
      (fun s' => by rw [undrained_cons, undrained_cons]; rfl) fun _ _ => rfl
  | runsTaken s o =>
    refine holds.quiet ⟨nofun, nofun, nofun, nofun, nofun, nofun⟩ id rfl (fun _ => id) rfl rfl rfl rfl
      (fun s' => by rw [undrained_cons, undrained_cons]; rfl) fun s' there => ?_
    refine (clear_obj w.reg s s').trans (if_neg ?_)
    rintro rfl
    exact placed.drained rfl rfl there
  | ran => exact holds.goes rfl ⟨nofun, nofun, nofun, nofun, nofun, nofun⟩

omit [DecidableEq ο] in
/-- A sentinel that is in no place comes into one. -/
theorem Placed.enter (placed : Placed w ps) (away : s ∉ w.places ps) (inside : s < w.reg.sentinels.length)
    (sentinels : w'.reg.sentinels = w.reg.sentinels)
    (finalizers : ∀ o s', w'.reg.finalizers o = some s' → w.reg.finalizers o = some s' ∧ s' ≠ s)
    (places : ∀ s', (w'.places ps').count s' = (w.places ps).count s' + if s' = s then 1 else 0) : Placed w' ps' := by
  have obj : ∀ s, w'.reg.obj s = w.reg.obj s := fun s => by rw [Registry.obj, sentinels, Registry.obj]
  have fn : ∀ s, w'.reg.fn s = w.reg.fn s := fun s => by rw [Registry.fn, sentinels, Registry.fn]
  have mem : ∀ s', s' ∈ w'.places ps' → s' = s ∨ s' ∈ w.places ps := by
    intro s' there
    have count := count_pos_iff.2 there
    rw [places] at count
    split_ifs at count with same
    · exact .inl same
    · exact .inr (count_pos_iff.1 count)
  refine ⟨fun s gone => ?_, fun o s' entry => ?_, fun s' => ?_, fun s' there => ?_⟩
  · rw [obj]
    exact placed.cleared s (fn s ▸ gone)
  · obtain ⟨entry, other⟩ := finalizers o s' entry
    obtain ⟨own, apart⟩ := placed.mapped o s' entry
    exact ⟨(obj s').trans own, fun there => (mem s' there).elim other apart⟩
  · rw [places]
    split_ifs with same
    · rw [same, count_eq_zero.2 away]
    · exact placed.once s'
  · rw [sentinels]
    rcases mem s' there with rfl | there
    · exact inside
    · exact placed.inside s' there

theorem Step.placed {l : Label ο} (step : Step w l w') (placed : Placed w w.procs) : Placed w' w'.procs := by
  cases step with
  | @call before after p p' w1 _ at_ act =>
    have moved := act.placed (placed.perm (at_ ▸ perm_middle))
    exact (moved.perm perm_middle.symm).fewer rfl (fun _ _ entry => entry) fun s => Nat.le_refl _
  | begins =>
    have none_ : ([.idle] : List (Proc ο)).filterMap Proc.held? = [] := rfl
    refine placed.fewer rfl (fun _ _ entry => entry) fun s => ?_
    simp [count_places, none_]
  | requests => exact placed.fewer rfl (fun _ _ entry => entry) fun s => Nat.le_refl _
  | @revives o s running entry away holders =>
    obtain ⟨own, apart⟩ := placed.mapped o s entry
    have inside : s < w.reg.sentinels.length := by
      by_contra high
      rw [Registry.obj, getElem?_eq_none (Nat.le_of_not_lt high)] at own
      cases own
    refine placed.enter apart inside rfl (fun o' s' entry' => ?_) fun s' => ?_
    · have got : (w.reg.setFinalizer o none).finalizers o' = some s' := entry'
      refine ⟨?_, ?_⟩
      · rw [setFinalizer_get] at got
        split_ifs at got
        exact got
      · rintro rfl
        exact placed.unmap entry got
    · simp only [count_places, count_append, count_singleton, beq_iff_eq, eq_comm (a := s)]
      change _ + _ + List.count s' w.reg.finq + List.count s' w.reg.pending + _ = _
      omega
  | loses running entry away holders => exact placed.fewer rfl (fun _ _ entry => entry) fun s => Nat.le_refl _
  | @queues s rest front =>
    refine placed.fewer rfl (fun _ _ entry => entry) fun s' => ?_
    simp only [count_places, front, count_append, count_cons, count_nil]
    omega
  | @queuesCleared s inside gone away unmapped =>
    refine placed.enter away inside rfl (fun o s' entry => ⟨entry, ?_⟩) fun s' => ?_
    · rintro rfl
      exact unmapped o entry
    · simp only [count_places, count_append, count_singleton, beq_iff_eq, eq_comm (a := s)]
      omega
  | completes => exact placed.fewer rfl (fun _ _ entry => entry) fun s => Nat.le_refl _

theorem Step.revealable {l : Label ο} (step : Step w l w') (steady : Steady w l) (placed : Placed w w.procs)
    (holds : Revealable w w.procs) : Revealable w' w'.procs := by
  cases step with
  | @call before after p p' w1 _ at_ act =>
    have same : w.procs.Perm (p :: (before ++ after)) := at_ ▸ perm_middle
    have meets : SteadyAt w (p :: (before ++ after)) l := by
      cases l with
      | redecodes o n => exact fun s there => steady s ((undrained_perm same).2 there)
      | counts o => exact steady
      | other => trivial
    have moved := (act.revealable (placed.perm same) meets (holds.perm same)).perm perm_middle.symm
    exact ⟨moved.used, moved.kept, moved.locked, moved.dying, moved.waited, moved.drained, moved.returned, moved.reveals⟩
  | begins =>
    have goes : Revealable w (.idle :: w.procs) := by
      have same : ∀ s, w.Undrained (.idle :: w.procs) s ↔ w.Undrained w.procs s := fun s => by
        rw [undrained_cons]
        exact or_iff_right nofun
      refine ⟨fun o hidden => holds.used o (hidden.imp id fun mem =>
          (mem_cons.1 mem).resolve_left (show Proc.hiding o ≠ Proc.idle from nofun)),
        fun o hidden there => (holds.kept o hidden there).imp id fun ⟨s, mem, own⟩ => ⟨s, (same s).2 mem, own⟩,
        holds.locked, holds.dying, fun q mem => ?_, fun q mem o n past s there => ?_,
        fun o mem => holds.returned o ((mem_cons.1 mem).resolve_left nofun), fun q mem => ?_⟩
      · rcases mem_cons.1 mem with rfl | mem
        · nofun
        · exact holds.waited q mem
      · rcases mem_cons.1 mem with rfl | mem
        · cases past
        · exact holds.drained q mem o n past s ((same s).1 there)
      · rcases mem_cons.1 mem with rfl | mem
        · nofun
        · exact holds.reveals q mem
    have moved := goes.perm (perm_append_singleton ..).symm
    exact ⟨moved.used, moved.kept, moved.locked, moved.dying, moved.waited, moved.drained, moved.returned, moved.reveals⟩
  | requests => exact ⟨holds.used, holds.kept, holds.locked, holds.dying, holds.waited, holds.drained, holds.returned, holds.reveals⟩
  | @revives o s running entry away holders =>
    obtain ⟨own, apart⟩ := placed.mapped o s entry
    have fresh : s ∉ w.dying := fun there => apart (by simp [World.places, there])
    refine ⟨holds.used, fun o' hidden there => ?_, holds.locked, fun s' mem => ?_, holds.waited,
      fun q mem o' n past s' there => ?_, holds.returned, holds.reveals⟩
    · by_cases same : o' = o
      · subst same
        exact .inr ⟨s, .inl (mem_append_right _ (mem_singleton_self s)), own⟩
      · refine (holds.kept o' hidden there).imp (fun known => ?_) fun ⟨s', mem, own'⟩ => ⟨s', ?_, own'⟩
        · exact (Function.update_of_ne same ..).trans known
        · exact mem.imp (mem_append_left _) id
    · dsimp only
      by_cases same : s' = s
      · rw [same, Function.update_self]
      · rw [Function.update_of_ne same]
        exact holds.dying s' ((mem_append.1 mem).resolve_right (by simpa using same))
    · dsimp only
      by_cases same : s' = s
      · rw [same, Function.update_self]
        exact Nat.lt_succ_of_le (holds.waited q mem o' n (waited_of_drained past))
      · rw [Function.update_of_ne same]
        refine holds.drained q mem o' n past s' (there.imp (fun mem => ?_) id)
        exact (mem_append.1 mem).resolve_right (by simpa using same)
  | @loses o running entry away holders =>
    refine ⟨holds.used, fun o' hidden there => ?_, holds.locked, holds.dying, holds.waited, holds.drained,
      fun o' mem => ?_, holds.reveals⟩
    · by_cases same : o' = o
      · subst same
        exact absurd (.inr (Function.update_self ..)) there
      · have here : ¬w.Gone o' := fun gone => there (gone.imp id fun lost => (Function.update_of_ne same ..).trans lost)
        exact (holds.kept o' hidden here).imp (fun known => (Function.update_of_ne same ..).trans known) id
    · refine (holds.returned o' mem).imp id fun lost => ?_
      by_cases same : o' = o
      · subst same
        exact Function.update_self ..
      · exact (Function.update_of_ne same ..).trans lost
  | @queues s rest front =>
    have same : ∀ s', World.Undrained { w with reg := { w.reg with finq := w.reg.finq ++ [s] }, dying := rest } w.procs s' ↔
        w.Undrained w.procs s' := by
      intro s'
      constructor
      · rintro (dying | queued | hand)
        · exact .inl (front ▸ mem_cons_of_mem s dying)
        · rcases mem_append.1 queued with queued | own
          · exact .inr (.inl queued)
          · exact .inl (front ▸ mem_singleton.1 own ▸ mem_cons_self)
        · exact .inr (.inr hand)
      · rintro (dying | queued | hand)
        · rw [front] at dying
          rcases mem_cons.1 dying with rfl | dying
          · exact .inr (.inl (mem_append_right _ (mem_singleton_self _)))
          · exact .inl dying
        · exact .inr (.inl (mem_append_left _ queued))
        · exact .inr (.inr hand)
    exact ⟨holds.used, fun o hidden there => (holds.kept o hidden there).imp id fun ⟨s', mem, own⟩ => ⟨s', (same s').2 mem, own⟩,
      holds.locked, fun s' mem => holds.dying s' (front ▸ mem_cons_of_mem s mem), holds.waited,
      fun q mem o n past s' there => holds.drained q mem o n past s' ((same s').1 there), holds.returned, holds.reveals⟩
  | @queuesCleared s inside gone away unmapped =>
    have fresh : s ∉ w.dying := fun there => away (by simp [World.places, there])
    refine ⟨holds.used, fun o hidden there => (holds.kept o hidden there).imp id fun ⟨s', mem, own⟩ =>
      ⟨s', mem.imp id (Or.imp (mem_append_left _) id), own⟩,
      holds.locked, fun s' mem => ?_, holds.waited, fun q mem o n past s' there => ?_, holds.returned, holds.reveals⟩
    · dsimp only
      have other : s' ≠ s := by
        rintro rfl
        exact fresh mem
      rw [Function.update_of_ne other]
      exact holds.dying s' mem
    · dsimp only
      by_cases same : s' = s
      · rw [same, Function.update_self]
        exact Nat.lt_succ_of_le (holds.waited q mem o n (waited_of_drained past))
      · rw [Function.update_of_ne same]
        refine holds.drained q mem o n past s' (there.imp id (Or.imp (fun mem => ?_) id))
        exact (mem_append.1 mem).resolve_right (by simpa using same)
  | completes running empty =>
    refine ⟨holds.used, holds.kept, holds.locked, fun s mem => ?_, fun q mem o n past => ?_, holds.drained, holds.returned,
      holds.reveals⟩
    · rw [empty] at mem
      cases mem
    · exact (holds.waited q mem o n past).trans (Nat.le_succ _)

theorem Run.keeps (run : Run Steady w) : Placed w w.procs ∧ Revealable w w.procs := by
  induction run with
  | start c =>
    refine ⟨⟨fun _ _ => rfl, nofun, fun s => Nat.zero_le 1, nofun⟩, nofun, nofun, Nat.zero_le 1, nofun, ?_, ?_, ?_, ?_⟩
    · intro q mem
      rw [mem_singleton.1 mem]
      nofun
    · intro q mem
      rw [mem_singleton.1 mem]
      nofun
    · intro o mem
      cases mem_singleton.1 mem
    · intro q mem
      rw [mem_singleton.1 mem]
      nofun
  | step _ steady step ih => exact ⟨step.placed ih.1, step.revealable steady ih.1 ih.2⟩

/-- What a state shows of the reveals: one that returned gave a valid pointer, unless its object is gone, and one of a
hidden `NULL` returns `NULL`. -/
def Reveals (w : World ο φ δ) : Prop :=
  (∀ o valid, .returned o valid ∈ w.procs → ¬w.Gone o → valid = true) ∧
    ∀ ps w' p' l, Act w ps (.revealing none) w' p' l → p' = .returnedNull

theorem reveals_null {l : Label ο} (act : Act w ps (.revealing none) w' p' l) : p' = .returnedNull := by
  cases act
  rfl

end

/-- A step of the one call. -/
theorem Step.alone {ο φ δ : Type} [DecidableEq ο] {w w' : World ο φ δ} {p p' : Proc ο} {l : Label ο} (alone : w.procs = [p])
    (act : Act w [] p w' p' l) : Step w l { w' with procs := [p'] } :=
  @Step.call ο φ δ _ w [] [] p p' w' l alone act

/-- Steps of one of two calls. -/
theorem Step.first {ο φ δ : Type} [DecidableEq ο] {w w' : World ο φ δ} {p q p' : Proc ο} {l : Label ο} (both : w.procs = [p, q])
    (act : Act w [q] p w' p' l) : Step w l { w' with procs := [p', q] } :=
  @Step.call ο φ δ _ w [] [q] p p' w' l both act

theorem Step.second {ο φ δ : Type} [DecidableEq ο] {w w' : World ο φ δ} {p q p' : Proc ο} {l : Label ο} (both : w.procs = [q, p])
    (act : Act w [q] p w' p' l) : Step w l { w' with procs := [q, p'] } :=
  @Step.call ο φ δ _ w [q] [] p p' w' l both act

/-- An object was hidden, and a cycle found it dead and queued its sentinel. -/
def revivedWorld (procs : List (Proc Unit)) : World Unit Unit Unit :=
  { reg := { sentinels := [⟨some (), some (), ()⟩], finalizers := fun _ => none, finq := [0], pending := [], registered := 1
             hiddenUsed := true, hidden := fun _ => false, seen := 0 }
    procs := procs, requested := 1, completed := 1, dying := [], death := Function.update (fun _ => 0) 0 1
    everHidden := fun _ => true, freed := fun _ => false, lost := fun _ => false }

theorem revived_run (Meets : World Unit Unit Unit → Label Unit → Prop) (met : ∀ w l, Steady w l → Meets w l) :
    Run Meets (revivedWorld [.idle]) := by
  have begins : Run Meets (_ : World Unit Unit Unit) := .start 0
  have registers := begins.step (met _ .other trivial)
    (.alone rfl (.registers () (some ()) () nofun (by decide)))
  have hides := registers.step (met _ .other trivial) (.alone rfl (.hides () (by decide)))
  have encodes := hides.step (met _ .other trivial) (.alone rfl (.encodes ()))
  have requests := encodes.step (met _ .other trivial) .requests
  have revives := requests.step (met _ .other trivial) (.revives (o := ()) (s := 0) (by decide) rfl (by decide) (by decide))
  have queues := revives.step (met _ .other trivial) (.queues rfl)
  exact queues.step (met _ .other trivial) (.completes (by decide) rfl)

/-- The same world, with the object hidden again and its sentinel pending. -/
def drainedWorld (procs : List (Proc Unit)) : World Unit Unit Unit :=
  { revivedWorld procs with
    reg := { (revivedWorld procs).reg with finq := [], pending := [0], registered := 0, hidden := fun _ => true } }

theorem waiting_run : Run Steady (revivedWorld [.draining (some ((), 1))]) := by
  have reveals := (revived_run Steady fun _ _ steady => steady).step (l := .other) trivial
    (.alone rfl (.reveals (some ()) (by decide)))
  have object := reveals.step (l := .other) trivial (.alone rfl (.revealsObject ()))
  have nothing := object.step (l := .other) trivial (.alone rfl (.decodesNothing () (by decide)))
  have counts := nothing.step (show Steady (revivedWorld [.counting ()]) (.counts ()) from fun zero => absurd zero (by decide))
    (.alone rfl (.counts () (by decide)))
  have asks := counts.step (l := .other) trivial (.alone rfl (.asks ()))
  have waits := asks.step (l := .other) trivial (.alone rfl (.waits () 1 (by decide)))
  exact waits.step (l := .other) trivial (.alone rfl (.locks () 1 nofun))

theorem drained_run : Run Steady (drainedWorld [.redecoding () 1]) := by
  have polls := waiting_run.step (l := .other) trivial (.alone rfl (.polls (s := 0) _ rfl (by decide)))
  have unmaps := polls.step (l := .other) trivial (.alone rfl (.unmaps 0 _))
  have discounts := unmaps.step (l := .other) trivial (.alone rfl (.discounts 0 _))
  have again := discounts.step (l := .other) trivial (.alone rfl (.hidesAgain 0 _))
  have appends := again.step (l := .other) trivial (.alone rfl (.appends 0 _))
  have empty := appends.step (l := .other) trivial (.alone rfl (.pollsNothing _ rfl))
  exact empty.step (l := .other) trivial (.alone rfl (.unlocksReveal () 1))

end Nanofil.Boehm.Hiding
