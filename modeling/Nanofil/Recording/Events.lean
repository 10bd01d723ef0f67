import Mathlib.Algebra.Group.Int.Defs
import Mathlib.Data.List.Basic

/-! `journal.cc`: events of a recording, and the summary of a run that they are projected to. -/
namespace Recordings
open List Option

/-- A value of the JSON library, whose numbers are integers here. -/
inductive Json
  | null
  | bool (b : Bool)
  | num (n : Int)
  | str (s : String)
  | arr (items : List Json)
  | obj (fields : List (String × Json))

/-- `contains`, and what it finds. -/
def Json.find (key : String) : Json → Option Json
  | .obj fields => (fields.find? (·.1 = key)).map Prod.snd
  | _ => none

/-- `at`, which throws when there is no such field. -/
def Json.at_ (p : Json) (key : String) : Option Json := p.find key

/-- `value`, which throws on what is no object. -/
def Json.value (p : Json) (key : String) (default : Json) : Option Json :=
  match p with
  | .obj _ => some ((p.find key).getD default)
  | _ => none

def Json.getString : Json → Option String
  | .str s => some s
  | _ => none

def Json.getBool : Json → Option Bool
  | .bool b => some b
  | _ => none

def Json.getInt : Json → Option Int
  | .num n => some n
  | _ => none

/-- `get<std::uint64_t>`, which wraps a negative number around. -/
def Json.getId : Json → Option Nat
  | .num n => some (n % 2 ^ 64).toNat
  | _ => none

def Json.getItems : Json → Option (List Json)
  | .arr items => some items
  | _ => none

def Json.isEmpty : Json → Bool
  | .null | .arr [] | .obj [] => true
  | _ => false

/-- A string of hexadecimal digits as bytes. -/
def unhex : List Char → Option (List Nat)
  | [] => some []
  | high :: low :: rest => do
    let digit (c : Char) : Option Nat :=
      if '0' ≤ c ∧ c ≤ '9' then some (c.toNat - '0'.toNat)
      else if 'a' ≤ c ∧ c ≤ 'f' then some (c.toNat - 'a'.toNat + 10)
      else none
    some (((← digit high) * 16 + (← digit low)) :: (← unhex rest))
  | [_] => none

structure Event where
  run : String
  seq : Nat
  wall : Int
  elapsed : Int
  kind : String
  payload : Json

structure Projection where
  run : String
  root : String
  resultOutcome : String
  outputs : Json
  events : Nat
  activities : Nat
  outputLines : Nat
  complete : Bool
  cancelled : Bool
  recorderError : Bool
  timedOut : Bool
  resultSuccess : Bool
  hasResult : Bool
  workerError : Bool
  exited : Bool
  exitCode : Int

def Projection.empty : Projection :=
  ⟨"", "", "", .arr [], 0, 0, 0, false, false, false, false, false, false, false, false, -1⟩

/-- The summary that a run's row keeps. -/
structure Summary where
  run : String
  drv : String
  events : Nat
  activities : Nat
  outputLines : Nat
  complete : Bool
  outcome : String
  outputs : Json

def Projection.apply (q : Projection) (e : Event) : Option Projection :=
  let q := { q with events := q.events + 1, run := e.run }
  if e.kind = "run.requested" then do some { q with root := ← (← e.payload.at_ "drv").getString }
  else if e.kind = "nix.activity-started" then some { q with activities := q.activities + 1 }
  else if e.kind = "nix.result" then do
    if ← (← e.payload.value "build_output" (.bool false)).getBool then some { q with outputLines := q.outputLines + 1 } else some q
  else if e.kind = "run.cancel-requested" then some { q with cancelled := true }
  else if e.kind = "run.limit-reached" then some { q with timedOut := true }
  else if e.kind = "run.recorder-error" then some { q with recorderError := true }
  else if e.kind = "worker.error" then some { q with workerError := true }
  else if e.kind = "nix.build-result" then do
    some { q with
      hasResult := true
      resultSuccess := ← (← e.payload.at_ "success").getBool
      resultOutcome := ← (← e.payload.at_ "outcome").getString
      outputs := ← e.payload.at_ "outputs" }
  else if e.kind = "run.finished" then do
    some { q with
      complete := true
      exited := ← (← e.payload.at_ "exited").getBool
      exitCode := ← (← e.payload.at_ "exit_code").getInt }
  else some q

def Projection.outcome (q : Projection) : String :=
  if q.complete then
    if q.recorderError then "recorder-error"
    else if q.hasResult && q.resultSuccess && q.exited && q.exitCode = 0 then q.resultOutcome
    else if q.timedOut then "timed-out"
    else if q.cancelled then "cancelled"
    else if q.hasResult && !q.resultSuccess then "failed"
    else if q.workerError then "worker-error"
    else "interrupted"
  else "incomplete"

def Projection.summary (q : Projection) : Summary :=
  ⟨q.run, q.root, q.events, q.activities, q.outputLines, q.complete, q.outcome, q.outputs⟩

/-- An event counts itself, whatever else it changes. -/
theorem Projection.apply_events {q q' : Projection} {e : Event} (applied : q.apply e = some q') : q'.events = q.events + 1 := by
  have branch : ∀ {c : Prop} [Decidable c] {a b : Option Projection}, (a = some q' → q'.events = q.events + 1) →
      (b = some q' → q'.events = q.events + 1) → (if c then a else b) = some q' → q'.events = q.events + 1 :=
    fun first second => iteInduction (motive := fun x => x = some q' → _) (fun _ => first) (fun _ => second)
  revert applied
  unfold Projection.apply
  refine branch (fun applied => ?_) ?_
  · obtain ⟨_, -, applied⟩ := bind_eq_some_iff.1 applied
    obtain ⟨_, -, applied⟩ := bind_eq_some_iff.1 applied
    cases applied
    rfl
  refine branch (fun applied => ?_) ?_
  · cases applied
    rfl
  refine branch (fun applied => ?_) ?_
  · obtain ⟨_, -, applied⟩ := bind_eq_some_iff.1 applied
    obtain ⟨_, -, applied⟩ := bind_eq_some_iff.1 applied
    split at applied <;> (cases applied; rfl)
  refine branch (fun applied => ?_) ?_
  · cases applied
    rfl
  refine branch (fun applied => ?_) ?_
  · cases applied
    rfl
  refine branch (fun applied => ?_) ?_
  · cases applied
    rfl
  refine branch (fun applied => ?_) ?_
  · cases applied
    rfl
  refine branch (fun applied => ?_) ?_
  · obtain ⟨_, -, applied⟩ := bind_eq_some_iff.1 applied
    obtain ⟨_, -, applied⟩ := bind_eq_some_iff.1 applied
    obtain ⟨_, -, applied⟩ := bind_eq_some_iff.1 applied
    obtain ⟨_, -, applied⟩ := bind_eq_some_iff.1 applied
    obtain ⟨_, -, applied⟩ := bind_eq_some_iff.1 applied
    cases applied
    rfl
  refine branch (fun applied => ?_) ?_
  · obtain ⟨_, -, applied⟩ := bind_eq_some_iff.1 applied
    obtain ⟨_, -, applied⟩ := bind_eq_some_iff.1 applied
    obtain ⟨_, -, applied⟩ := bind_eq_some_iff.1 applied
    obtain ⟨_, -, applied⟩ := bind_eq_some_iff.1 applied
    cases applied
    rfl
  intro applied
  cases applied
  rfl

end Recordings
