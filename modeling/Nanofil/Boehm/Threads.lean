import Mathlib.Data.Finset.Insert
import Mathlib.Logic.Function.Basic
import Mathlib.Data.List.Count

/-! `gc_fugc.c`: the tables behind the finalizers. A registration is a sentinel that the
weak map holds under its object until the object dies, is cancelled or is drained. -/
namespace Nanofil.Boehm

/-- A sentinel's fields that its readers use. -/
structure Sentinel (ο φ δ : Type) where
  obj : Option ο
  fn : Option φ
  cd : δ

structure Registry (ο φ δ : Type) where
  sentinels : List (Sentinel ο φ δ)
  finalizers : ο → Option Nat
  finq : List Nat
  pending : List Nat
  registered : Int
  hiddenUsed : Bool
  hidden : ο → Bool
  seen : Nat

section
variable {ο φ δ : Type} [DecidableEq ο]

def Registry.empty : Registry ο φ δ := ⟨[], fun _ => none, [], [], 0, false, fun _ => false, 0⟩

def Registry.fn (r : Registry ο φ δ) (s : Nat) : Option φ := r.sentinels[s]?.bind Sentinel.fn

def Registry.obj (r : Registry ο φ δ) (s : Nat) : Option ο := r.sentinels[s]?.bind Sentinel.obj

def Registry.cd (r : Registry ο φ δ) (s : Nat) : Option δ := r.sentinels[s]?.map Sentinel.cd

/-- `s->fn = 0; s->obj = NULL`. -/
def Registry.clear (r : Registry ο φ δ) (s : Nat) : Registry ο φ δ :=
  { r with sentinels := r.sentinels.modify s (fun x => { x with fn := none, obj := none }) }

def Registry.setFinalizer (r : Registry ο φ δ) (o : ο) (s : Option Nat) : Registry ο φ δ :=
  { r with finalizers := Function.update r.finalizers o s }

/-- The old sentinel of an object is cleared and no longer counted. -/
def Registry.dropOld (r : Registry ο φ δ) (o : ο) : Registry ο φ δ :=
  match r.finalizers o with
  | some old => { r.clear old with registered := r.registered - 1 }
  | none => r

/-- `register_finalizer` of a valid object, with what it gives back of the old registration. -/
def Registry.registerFinalizer (r : Registry ο φ δ) (o : ο) (fn : Option φ) (cd : δ) :
    Registry ο φ δ × Option φ × Option δ :=
  let old := r.finalizers o
  let r1 := r.dropOld o
  let r2 := match fn with
    | some f => { r1.setFinalizer o (some r1.sentinels.length) with
        sentinels := r1.sentinels ++ [⟨some o, some f, cd⟩], registered := r1.registered + 1 }
    | none => if old.isSome then r1.setFinalizer o none else r1
  (r2, old.bind r.fn, old.bind r.cd)

def Registry.unregisterFinalizerOf (r : Registry ο φ δ) (p : ο) : Registry ο φ δ :=
  if (r.finalizers p).isSome then (r.dropOld p).setFinalizer p none else r

/-- `zweak_map_get(finalizers, s->obj) == s`, and the entry goes. -/
def Registry.unmap (r : Registry ο φ δ) (s : Nat) : Registry ο φ δ :=
  match r.obj s with
  | some o => if r.finalizers o = some s then r.setFinalizer o none else r
  | none => r

def Registry.hideAgain (r : Registry ο φ δ) (s : Nat) : Registry ο φ δ :=
  match r.obj s with
  | some o => if r.hiddenUsed then { r with hidden := Function.update r.hidden o true } else r
  | none => r

/-- One turn of `drain_finq`, of a sentinel that was polled. -/
def Registry.drainOne (r : Registry ο φ δ) (s : Nat) : Registry ο φ δ :=
  if (r.fn s).isSome then
    let r1 := { r.unmap s with registered := r.registered - 1 }
    let r2 := r1.hideAgain s
    { r2 with pending := r2.pending ++ [s] }
  else r

/-- The drain of a queue, whose head is polled at each turn. -/
def Registry.drainFrom : List Nat → Registry ο φ δ → Registry ο φ δ
  | [], r => r
  | s :: rest, r => drainFrom rest ({ r with finq := rest }.drainOne s)

def Registry.drainFinq (r : Registry ο φ δ) : Registry ο φ δ := Registry.drainFrom r.finq r

/-- The locked part of `GC_finalize_all`, of an entry that its iterator finds. -/
def Registry.takeEntry (r : Registry ο φ δ) (o : ο) : Registry ο φ δ :=
  { r.setFinalizer o none with registered := r.registered - 1 }

/-- The locked part of `process_cycle`, and `notify`. -/
def Registry.observe (r : Registry ο φ δ) (c : Nat) (onDemand : Bool) : Registry ο φ δ × Bool :=
  if r.seen < c then
    let r1 := { r with seen := c }.drainFinq
    (r1, r.pending.length < r1.pending.length || (r1.pending.length ≠ 0 && onDemand))
  else (r, false)

end

/-! The calls of the threads between cycles: each locked section is one step, and what a
thread does outside the lock is a step of its own. -/

/-- Where a call of a thread is. -/
inductive Frame (ο φ : Type)
  /-- Client code, which may call anything. -/
  | client
  /-- `process_cycle(c)`, of `GC_gcollect` or of `cycle_hook`. -/
  | observe (c : Nat) (collecting : Bool)
  /-- Past its section, to notify. -/
  | notified (collecting : Bool)
  /-- `GC_gcollect` past `process_cycle`. -/
  | collected
  /-- `GC_invoke_finalizers`, at the end of a cycle's observation or not. -/
  | invoke (observing : Bool)
  | loop (observing : Bool)
  | popped (s : Nat)
  | calling (s : Nat) (obj : ο) (fn : φ)
  | finalizeAll
  | taken (s : Nat) (obj : ο)
  /-- `GC_free` past its look at the counter. -/
  | unregister (p : ο)
  | free (p : ο)

structure Thread (ο φ : Type) where
  stack : List (Frame ο φ)
  running : Nat

/-- What became of a registration. -/
inductive Fate
  | registered | drained | run | cancelled
deriving DecidableEq

structure Registration (ο φ δ : Type) where
  obj : ο
  fn : φ
  cd : δ
  fate : Fate

structure Call (ο φ δ : Type) where
  sentinel : Nat
  obj : ο
  fn : φ
  cd : δ

structure World (ο φ δ : Type) where
  reg : Registry ο φ δ
  threads : List (Thread ο φ)
  completed : Nat
  onDemand : Bool
  freed : ο → Bool
  /-- Every registration that was made, in the order of their sentinels. -/
  history : List (Registration ο φ δ)
  /-- The sentinels that the collector queued. -/
  queued : List Nat
  calls : List (Call ο φ δ)

section
variable {ο φ δ : Type} [DecidableEq ο]

/-- A registration's first fate is followed by one other. -/
def Registration.become (x : Registration ο φ δ) (fate : Fate) : Registration ο φ δ :=
  if x.fate = .registered then { x with fate := fate } else x

def become (fate : Fate) (h : List (Registration ο φ δ)) (s : Nat) : List (Registration ο φ δ) :=
  h.modify s (·.become fate)

/-- What is registered for an object and neither drained nor run is cancelled. -/
def cancelled (o : ο) (h : List (Registration ο φ δ)) : List (Registration ο φ δ) :=
  h.map (fun x => if x.obj = o then x.become .cancelled else x)

/-- The registrations that `drain_finq` drains, as it goes. -/
def drainHistory : List Nat → Registry ο φ δ → List (Registration ο φ δ) → List (Registration ο φ δ)
  | [], _, h => h
  | s :: rest, r, h =>
    drainHistory rest ({ r with finq := rest }.drainOne s) (if (r.fn s).isSome then become .drained h s else h)

/-- The sentinel that a frame has in hand. -/
def Frame.held? : Frame ο φ → Option Nat
  | .popped s | .calling s _ _ | .taken s _ => some s
  | _ => none

def Frame.callsBack : Frame ο φ → Bool
  | .observe _ _ | .notified _ | .calling _ _ _ => true
  | _ => false

def Thread.held (t : Thread ο φ) : List Nat := t.stack.filterMap Frame.held?

def World.held (w : World ο φ δ) : List Nat := w.threads.flatMap Thread.held

/-- The world after a thread's step. -/
def World.turn (w : World ο φ δ) (before : List (Thread ο φ)) (stack : List (Frame ο φ)) (running : Nat)
    (after : List (Thread ο φ)) : World ο φ δ :=
  { w with threads := before ++ ⟨stack, running⟩ :: after }

def World.drain (w : World ο φ δ) : World ο φ δ :=
  { w with reg := w.reg.drainFinq, history := drainHistory w.reg.finq w.reg w.history }

/-- The frames after an observation's section. -/
def observed (notify collecting : Bool) : List (Frame ο φ) :=
  if notify then [.notified collecting] else if collecting then [.collected] else []

/-- What a step is to the claims about runs. -/
inductive Label (ο : Type)
  | other
  /-- The registrations of an object are replaced, cancelled or dropped with it. -/
  | changes (o : ο)
  /-- A thread outside a finalizer observes a new cycle in an allocation, with nothing on demand; `ends` when nothing follows. -/
  | looks (ends : Bool)
  /-- The finalizers that an observation runs are at their end. -/
  | ended

def Label.ends : Label ο → Bool
  | .looks ends => ends
  | .ended => true
  | _ => false

def lookLabel (w : World ο φ δ) (c running : Nat) (collecting notify : Bool) : Label ο :=
  if w.reg.seen < c ∧ collecting = false ∧ running = 0 ∧ w.onDemand = false then .looks (!notify) else .other

/-- One step of a thread that runs `f` over `st`, with `k` finalizer loops under way. -/
inductive Act (w : World ο φ δ) : Frame ο φ → List (Frame ο φ) → Nat → World ο φ δ → List (Frame ο φ) → Nat → Label ο → Prop
  | registers {st : List (Frame ο φ)} {k : Nat} (o : ο) (fn : Option φ) (cd : δ) : w.freed o = false →
      Act w .client st k { w with
        reg := (w.reg.registerFinalizer o fn cd).1
        history := cancelled o w.history ++ (fn.map (fun f => ⟨o, f, cd, .registered⟩)).toList } (.client :: st) k (.changes o)
  | frees {st : List (Frame ο φ)} {k : Nat} (p : ο) : w.freed p = false → w.reg.registered ≠ 0 →
      Act w .client st k w (.unregister p :: .client :: st) k .other
  | freesUnregistered {st : List (Frame ο φ)} {k : Nat} (p : ο) : w.freed p = false → w.reg.registered = 0 →
      Act w .client st k { w with history := cancelled p w.history } (.free p :: .client :: st) k (.changes p)
  | unregisters {st : List (Frame ο φ)} {k : Nat} (p : ο) :
      Act w (.unregister p) st k { w with reg := w.reg.unregisterFinalizerOf p, history := cancelled p w.history }
        (.free p :: st) k (.changes p)
  | freed {st : List (Frame ο φ)} {k : Nat} (p : ο) :
      Act w (.free p) st k { w with freed := Function.update w.freed p true } st k .other
  /-- `GC_should_invoke_finalizers`, or the locked part of `GC_REVEAL_POINTER`. -/
  | drains {st : List (Frame ο φ)} {k : Nat} : Act w .client st k w.drain (.client :: st) k .other
  | demands {st : List (Frame ο φ)} {k : Nat} (onDemand : Bool) :
      Act w .client st k { w with onDemand := onDemand } (.client :: st) k .other
  | hooks {st : List (Frame ο φ)} {k : Nat} : w.completed ≠ w.reg.seen →
      Act w .client st k w (.observe w.completed false :: .client :: st) k .other
  | collects {st : List (Frame ο φ)} {k : Nat} : Act w .client st k w (.observe w.completed true :: .client :: st) k .other
  | observes {st : List (Frame ο φ)} {k : Nat} (c : Nat) (collecting : Bool) :
      Act w (.observe c collecting) st k { w with
        reg := (w.reg.observe c w.onDemand).1
        history := if w.reg.seen < c then drainHistory w.reg.finq { w.reg with seen := c } w.history else w.history }
        (observed (w.reg.observe c w.onDemand).2 collecting ++ st) k
        (lookLabel w c k collecting (w.reg.observe c w.onDemand).2)
  | notifies {st : List (Frame ο φ)} {k : Nat} (collecting : Bool) : w.onDemand = true ∨ k ≠ 0 →
      Act w (.notified collecting) st k w (observed false collecting ++ st) k .other
  | runs {st : List (Frame ο φ)} {k : Nat} (collecting : Bool) : w.onDemand = false → k = 0 →
      Act w (.notified collecting) st k w (.invoke true :: (observed false collecting ++ st)) k .other
  | collected {st : List (Frame ο φ)} {k : Nat} : w.onDemand = true ∨ k ≠ 0 → Act w .collected st k w st k .other
  | collectedRuns {st : List (Frame ο φ)} {k : Nat} : w.onDemand = false → k = 0 →
      Act w .collected st k w (.invoke true :: st) k .other
  | invokes {st : List (Frame ο φ)} {k : Nat} : Act w .client st k w (.invoke false :: .client :: st) k .other
  | begins {st : List (Frame ο φ)} {k : Nat} (observing : Bool) :
      Act w (.invoke observing) st k w.drain (.loop observing :: st) (k + 1) .other
  | pops {st : List (Frame ο φ)} {k s : Nat} {rest : List Nat} (observing : Bool) : w.reg.pending = s :: rest →
      Act w (.loop observing) st k { w with reg := { w.reg with pending := rest } } (.popped s :: .loop observing :: st) k .other
  | finishes {st : List (Frame ο φ)} {k : Nat} (observing : Bool) : w.reg.pending = [] →
      Act w (.loop observing) st k w st (k - 1) (if observing then .ended else .other)
  | reads {st : List (Frame ο φ)} {k s : Nat} {o : ο} {f : φ} : w.reg.obj s = some o → w.reg.fn s = some f →
      Act w (.popped s) st k { w with reg := w.reg.clear s } (.calling s o f :: st) k .other
  | skips {st : List (Frame ο φ)} {k s : Nat} : w.reg.fn s = none →
      Act w (.popped s) st k { w with reg := w.reg.clear s } st k .other
  | finalizesAll {st : List (Frame ο φ)} {k : Nat} : Act w .client st k w (.finalizeAll :: .client :: st) k .other
  | takes {st : List (Frame ο φ)} {k s : Nat} {o : ο} : w.reg.finalizers o = some s → (w.reg.fn s).isSome →
      Act w .finalizeAll st k { w with reg := w.reg.takeEntry o, history := become .run w.history s }
        (.taken s o :: .finalizeAll :: st) k .other
  | finalizedAll {st : List (Frame ο φ)} {k : Nat} : (∀ o s, w.reg.finalizers o = some s → w.reg.fn s = none) →
      Act w .finalizeAll st k w (.invoke false :: st) k .other
  | readsTaken {st : List (Frame ο φ)} {k s : Nat} {o : ο} {f : φ} : w.reg.fn s = some f →
      Act w (.taken s o) st k { w with reg := w.reg.clear s } (.calling s o f :: st) k .other
  | calls {st : List (Frame ο φ)} {k s : Nat} {o : ο} {f : φ} {d : δ} : w.reg.cd s = some d →
      Act w (.calling s o f) st k { w with calls := w.calls ++ [⟨s, o, f, d⟩] } (.client :: st) k .other
  | callsBack {f : Frame ο φ} {st : List (Frame ο φ)} {k : Nat} : f.callsBack → Act w f st k w (.client :: f :: st) k .other
  | returns {f : Frame ο φ} {st : List (Frame ο φ)} {k : Nat} : Act w .client (f :: st) k w (f :: st) k .other

inductive Step (w : World ο φ δ) : Label ο → World ο φ δ → Prop
  | thread {before after : List (Thread ο φ)} {f : Frame ο φ} {st st' : List (Frame ο φ)} {k k' : Nat} {w' : World ο φ δ}
      {l : Label ο} : w.threads = before ++ ⟨f :: st, k⟩ :: after → Act w f st k w' st' k' l → Step w l (w'.turn before st' k' after)
  | spawns : Step w .other { w with threads := w.threads ++ [⟨[.client], 0⟩] }
  /-- The weak map loses the entry of an object that a cycle finds dead. -/
  | forgets (o : ο) : Step w .other { w with reg := w.reg.setFinalizer o none }
  /-- A sentinel that nothing holds is revived and queued. -/
  | queues (s : Nat) : s < w.reg.sentinels.length → s ∉ w.queued → (∀ o, w.reg.finalizers o ≠ some s) → s ∉ w.held →
      Step w .other { w with reg := { w.reg with finq := w.reg.finq ++ [s] }, queued := w.queued ++ [s] }
  | completes : Step w .other { w with completed := w.completed + 1 }

/-- The runs whose steps all meet a condition. -/
inductive Run (Meets : World ο φ δ → Label ο → Prop) : World ο φ δ → Prop
  | start (completed : Nat) (onDemand : Bool) :
      Run Meets ⟨Registry.empty, [⟨[.client], 0⟩], completed, onDemand, fun _ => false, [], [], []⟩
  | step {w w' : World ο φ δ} {l : Label ο} : Run Meets w → Meets w l → Step w l w' → Run Meets w'

end

end Nanofil.Boehm
