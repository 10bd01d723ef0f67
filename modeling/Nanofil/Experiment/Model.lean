import Nanofil.Lib.Closures
import Mathlib.Data.List.Sort
import Mathlib.Data.String.Basic

/-! `model.py`: the tables that the controller reads and writes, each the list of its rows in
the order they were inserted, and the states of candidates as the facts give them. -/
namespace Experiment
open Closures

abbrev Drv := String
abbrev StorePath := String

/-- A random uuid, as one that no earlier one is. -/
abbrev Uuid := Nat

inductive Scheduling
  | batched | rolling
deriving DecidableEq, Repr

inductive Location
  | local_ | remote
deriving DecidableEq, Repr

/-- A campaign's policy, absent settings at their defaults; `cpus` as the ranges it lists. -/
structure Policy where
  maxJobs : Int
  cores : Int
  batchSize : Nat
  buildLanes : Nat
  planAhead : Nat
  scheduling : Scheduling
  cpus : List (Int × Int)
deriving DecidableEq, Repr

inductive Mode
  | paused | running
deriving DecidableEq, Repr

structure Campaign where
  id : Uuid
  created : Int
  mode : Mode
  source : String
  revision : String
  policy : Policy
  hold : String
deriving DecidableEq, Repr

inductive CandidateState
  | unplanned | evaluationError | queued | running | available | failed | blocked
  | inconclusive | excluded
deriving DecidableEq, Repr

structure Recipe where
  source : String
  revision : String
  planAttempt : Uuid
  drv : Drv
deriving DecidableEq, Repr

/-- A candidate; `kernel` is what `kernel_metadata` says of its selection. -/
structure Candidate where
  id : Nat
  campaign : Uuid
  label : String
  kernel : Bool
  state : CandidateState
  drv : Option Drv
  recipe : Option Recipe
  error : Option String
deriving DecidableEq, Repr

inductive BuildOrigin
  | unknown | preExisting | local_
deriving DecidableEq, Repr

structure Metadata where
  system : Option String
  features : List String
  localOnly : Bool
deriving DecidableEq, Repr

abbrev Outputs := List (String × Option StorePath)

structure Derivation where
  drv : Drv
  name : String
  outputs : Outputs
  available : Bool
  origin : BuildOrigin
  failure : Option String
  evidenceAttempt : Option Uuid
  exclusion : Option String
  metadata : Option Metadata
deriving DecidableEq, Repr

/-- A dependency with the names of the outputs it requires. -/
structure Dependency where
  parent : Drv
  child : Drv
  outputs : List String
deriving DecidableEq, Repr

structure Replan where
  candidate : Nat
  source : String
  revision : String
  request : Uuid
  created : Int
deriving DecidableEq, Repr

/-- What an attempt works on: the candidates of a plan, or the roots of a build. -/
inductive Targets
  | plan (ids : List Nat)
  | build (drvs : List Drv)
deriving DecidableEq, Repr

structure Origin where
  source : String
  revision : String
deriving DecidableEq, Repr

structure Previous where
  id : Nat
  state : CandidateState
  drv : Option Drv
  recipe : Option Recipe
  error : Option String
deriving DecidableEq, Repr

/-- The immutable part of an attempt. -/
structure Spec where
  targets : Targets
  policy : Policy
  source : String
  revision : String
  outputPaths : List StorePath
  derivations : List Drv
  recipeSources : List (Drv × List Origin)
  buildLocation : Option Location
  admissionAvailable : Option (List StorePath)
  replanRequests : List Replan
  previousCandidates : List Previous
deriving DecidableEq, Repr

inductive Outcome
  | tested | built | failed | unknown
deriving DecidableEq, Repr

structure Result where
  reason : String
  workerReason : Option String
  error : Option String
  buildOutcomes : List (Drv × Outcome)
deriving DecidableEq, Repr

inductive AttemptState
  | intended | running | finished
deriving DecidableEq, Repr

structure Attempt where
  id : Uuid
  campaign : Uuid
  state : AttemptState
  spec : Spec
  result : Option Result
  cancelRequested : Bool
deriving DecidableEq, Repr

/-- A build activity of an attempt's log. -/
structure Activity where
  attempt : Uuid
  activity : String
  drv : Drv
  phase : Option String
  checks : List String
deriving DecidableEq, Repr

structure TestRow where
  attempt : Uuid
  drv : Drv
  phase : String
deriving DecidableEq, Repr

structure Schedule where
  batchSize : Nat
  planAhead : Nat
  buildLanes : Nat
  scheduling : Scheduling
deriving DecidableEq, Repr

structure Skipped where
  candidate : Nat
  request : Uuid
  state : CandidateState
  drv : Option Drv
  error : Option String
deriving DecidableEq, Repr

inductive Event
  | imported (campaign : Uuid) (count : Nat)
  | attemptIntended (campaign attempt : Uuid) (targets : Targets)
  | attemptFinished (campaign attempt : Uuid) (reason : String)
  | replanQueued (campaign request : Uuid) (ids : List Nat) (source revision : String)
  | replanSkipped (campaign : Uuid) (candidates : List Skipped)
  | schedulingUpdated (campaign : Uuid) (before after : Schedule)
  | kernelsExcluded (campaign : Uuid) (attempt : Option Uuid) (excluded : List Nat)
  | toolchainsExcluded (campaign : Uuid) (derivations : List Drv)
  | retried (campaign : Uuid) (ids : List Nat)
  | derivationRetried (campaign : Uuid) (drv : Drv)
  | moded (campaign : Uuid) (mode : Mode)
deriving DecidableEq, Repr

structure Db where
  campaigns : List Campaign
  candidates : List Candidate
  derivations : List Derivation
  dependencies : List Dependency
  attempts : List Attempt
  activities : List Activity
  tests : List TestRow
  events : List Event
  replans : List Replan
deriving DecidableEq, Repr

/-! ### Reading -/

def Db.campaign? (db : Db) (cid : Uuid) : Option Campaign := db.campaigns.find? (·.id = cid)

def Db.candidate? (db : Db) (id : Nat) : Option Candidate := db.candidates.find? (·.id = id)

def Db.derivation? (db : Db) (drv : Drv) : Option Derivation := db.derivations.find? (·.drv = drv)

def Db.downward (db : Db) : List (Drv × Drv) := db.dependencies.map (fun e => (e.parent, e.child))

def Db.upward (db : Db) : List (Drv × Drv) := db.dependencies.map (fun e => (e.child, e.parent))

def Db.closure (db : Db) (drv : Drv) : List Drv := Closures.closure db.downward [drv]

def AttemptState.active : AttemptState → Bool
  | .intended | .running => true
  | .finished => false

def Db.activeAttempts (db : Db) : List Attempt := db.attempts.filter (·.state.active)

def Targets.ids : Targets → List Nat
  | .plan ids => ids
  | .build _ => []

def Targets.roots : Targets → List Drv
  | .plan _ => []
  | .build drvs => drvs

def Attempt.isPlan (a : Attempt) : Bool :=
  match a.spec.targets with
  | .plan _ => true
  | .build _ => false

def Attempt.isBuild (a : Attempt) : Bool := !a.isPlan

def Db.activeBuilds (db : Db) : List Attempt := db.activeAttempts.filter (·.isBuild)

/-! ### Writing -/

def Db.event (db : Db) (e : Event) : Db := { db with events := db.events ++ [e] }

def Db.updateCandidates (db : Db) (p : Candidate → Bool) (f : Candidate → Candidate) : Db :=
  { db with candidates := db.candidates.map (fun c => if p c then f c else c) }

def Db.updateDerivations (db : Db) (p : Derivation → Bool) (f : Derivation → Derivation) : Db :=
  { db with derivations := db.derivations.map (fun d => if p d then f d else d) }

def Db.updateAttempts (db : Db) (p : Attempt → Bool) (f : Attempt → Attempt) : Db :=
  { db with attempts := db.attempts.map (fun a => if p a then f a else a) }

def Db.updateCampaign (db : Db) (cid : Uuid) (f : Campaign → Campaign) : Db :=
  { db with campaigns := db.campaigns.map (fun c => if c.id = cid then f c else c) }

/-! ### Candidates -/

def reason : String := "Linux kernel; outside the Fil-C userspace runtime"

def toolchainReason : String := "Compiler toolchain (rustc, GCC, LLVM, Go) built for or targeting Fil-C; " ++
  "outside the experiment, since filcc is the Fil-C compiler"

def inherited : String := "Depends on a derivation outside the experiment's scope"

def Candidate.settled (c : Candidate) : Bool :=
  c.state = .running || c.state = .inconclusive || c.state = .excluded

/-- A candidate's state as its derivation's facts give it. -/
def Db.observedState (db : Db) (c : Candidate) : CandidateState :=
  if db.derivations.any (fun d => c.drv = some d.drv && d.available) then .available
  else if db.derivations.any (fun d => c.drv = some d.drv && d.failure.isSome) then .failed
  else .queued

def Db.refreshObserved (db : Db) (cid : Uuid) : Db :=
  db.updateCandidates (fun c => c.campaign = cid && c.drv.isSome && !c.settled)
    (fun c => { c with state := db.observedState c })

/-- Failed derivations in scope, and what depends on them. -/
def Db.bad (db : Db) : List Drv :=
  Closures.closure db.upward
    ((db.derivations.filter (fun d => d.failure.isSome && d.exclusion.isNone)).map (·.drv))

def Db.refreshBlocked (db : Db) (cid : Uuid) : Db :=
  db.updateCandidates (fun c => c.campaign = cid && c.state = .queued && c.drv.any (· ∈ db.bad))
    (fun c => { c with state := .blocked })

def Db.exclusionOf (db : Db) (drv : Drv) : Option String := (db.derivation? drv).bind (·.exclusion)

def Db.refreshExcluded (db : Db) (cid : Uuid) : Db :=
  db.updateCandidates
    (fun c => c.campaign = cid && c.drv.any (fun drv => db.derivations.any (fun d => d.drv = drv && d.exclusion.isSome)))
    (fun c => { c with state := .excluded, error := c.drv.bind db.exclusionOf })

/-- Excluded derivations, and what depends on them. -/
def Db.outside (db : Db) : List Drv :=
  Closures.closure db.upward ((db.derivations.filter (·.exclusion.isSome)).map (·.drv))

def Db.refreshInherited (db : Db) (cid : Uuid) : Db :=
  db.updateCandidates
    (fun c => c.campaign = cid && (c.state = .queued || c.state = .blocked) && c.drv.any (· ∈ db.outside))
    (fun c => { c with state := .excluded, error := some inherited })

def Db.refreshCandidates (db : Db) (cid : Uuid) : Db :=
  (((db.refreshObserved cid).refreshBlocked cid).refreshExcluded cid).refreshInherited cid

/-- A campaign as it is imported: its candidates unplanned, its kernels excluded. -/
def Db.importCampaign (db : Db) (created : Int) (source revision : String) (policy : Policy)
    (selections : List (String × Bool)) : Db :=
  let cid := db.campaigns.length
  let first := db.candidates.length
  let imported : Db := { db with
    campaigns := db.campaigns ++ [⟨cid, created, .paused, source, revision, policy, ""⟩]
    candidates := db.candidates ++ selections.zipIdx.map (fun s =>
      { id := first + s.2, campaign := cid, label := s.1.1, kernel := s.1.2,
        state := if s.1.2 then .excluded else .unplanned, drv := none, recipe := none,
        error := if s.1.2 then some reason else none }) }
  imported.event (.imported cid selections.length)

end Experiment
