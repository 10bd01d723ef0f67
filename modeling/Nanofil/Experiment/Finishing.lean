import Nanofil.Experiment.Scheduling

/-! What the controller makes of an attempt's log and of its end. -/
namespace Experiment

inductive Error
  | value (message : String)
  | type
deriving DecidableEq, Repr

/-! ### Logs -/

/-- The log records that `observe` keeps: a build's start and its phases. -/
inductive Record
  | start (activity : String) (drv : Drv)
  | phase (activity phase : String)
deriving DecidableEq, Repr

def checkPhases : List String := ["checkPhase", "installCheckPhase"]

def Db.observe (db : Db) (aid : Uuid) : Record → Db
  | .start act drv =>
    if db.activities.any (fun a => a.attempt = aid && a.activity = act) then db
    else { db with activities := db.activities ++ [⟨aid, act, drv, none, []⟩] }
  | .phase act phase =>
    { db with activities := db.activities.map (fun a =>
        if a.attempt = aid ∧ a.activity = act then
          { a with phase := some phase, checks := if phase ∈ checkPhases then a.checks ++ [phase] else a.checks }
        else a) }

def Db.ingest (db : Db) (aid : Uuid) (log : List Record) : Db := log.foldl (fun db r => db.observe aid r) db

/-! ### Plans -/

/-- A complete line of a plan: what became of a candidate. -/
inductive Planned
  | error (message : String)
  | recipe (drv : Drv) (graph : Graph)
deriving DecidableEq, Repr

structure PlanRow where
  id : Nat
  planned : Planned
deriving DecidableEq, Repr

def Db.planFailed (db : Db) (id : Nat) (message : String) : Db :=
  db.updateCandidates (·.id = id) (fun c => { c with state := .evaluationError, error := some message })

/-- The first inconclusive candidate of a campaign with a derivation. -/
def Db.heldAlias (db : Db) (cid : Uuid) (drv : Drv) : Option Candidate :=
  db.candidates.find? (fun c => c.campaign = cid && c.drv = some drv && c.state = .inconclusive)

def Db.planRow (a : Attempt) (db : Db) (row : PlanRow) : Db :=
  match row.planned with
  | .error message => db.planFailed row.id message
  | .recipe drv graph =>
    let known := db.addGraph graph
    let held := known.heldAlias a.campaign drv
    known.updateCandidates (·.id = row.id) (fun c =>
      { c with state := if held.isSome then .inconclusive else .queued, drv := some drv,
               recipe := some ⟨a.spec.source, a.spec.revision, a.id, drv⟩, error := held.bind (·.error) })

def Db.activeRoots (db : Db) (cid : Uuid) : List Drv :=
  (db.activeAttempts.filter (·.campaign = cid)).flatMap (·.spec.targets.roots)

/-- An alias that the planner discovered may name an active root. -/
def Db.markRunning (db : Db) (cid : Uuid) : Db :=
  db.updateCandidates (fun c => c.campaign = cid && c.drv.any (· ∈ db.activeRoots cid)) (fun c => { c with state := .running })

def Db.finishPlan (db : Db) (a : Attempt) (rows : List PlanRow) : Db :=
  let planned := rows.foldl (Db.planRow a) db
  let unseen := a.spec.targets.ids.filter (fun id => rows.all (·.id ≠ id))
  let ended := unseen.foldl (fun db id => db.planFailed id "planning interrupted; no completed observation") planned
  (ended.refreshCandidates a.campaign).markRunning a.campaign

/-! ### Builds -/

/-- What is known of a build that ended: Nix's reason and diagnostics, the outputs there were
before it, and those that the store has after it. -/
structure Ended where
  reason : String
  truncated : Bool
  failures : List Drv
  unable : Bool
  before : Option (List StorePath)
  valid : StorePath → Bool

def failureOf : Option String → String
  | some "configurePhase" => "configure"
  | some "buildPhase" => "compile-or-link"
  | some "checkPhase" => "check"
  | some "installCheckPhase" => "check"
  | _ => "build"

def Db.activityOf (db : Db) (aid : Uuid) (drv : Drv) : Option Activity :=
  db.activities.reverse.find? (fun a => a.attempt = aid && a.drv = drv)

/-- The derivation's outputs are known, and all there after the attempt. -/
def complete (a : Attempt) (e : Ended) (d : Derivation) : Bool :=
  d.outputs ≠ [] && d.outputs.all (fun kv => kv.2.any (fun p => p ∈ a.spec.outputPaths && e.valid p))

def buildOrigin (e : Ended) (activity : Option Activity) (d : Derivation) : BuildOrigin :=
  if d.outputs.all (fun kv => kv.2.any (· ∈ e.before.getD [])) then .preExisting
  else if activity.isSome then .local_ else .unknown

def Db.insertTests (db : Db) (aid : Uuid) (drv : Drv) (phases : List String) : Db :=
  phases.foldl (fun db phase =>
    if (⟨aid, drv, phase⟩ : TestRow) ∈ db.tests then db else { db with tests := db.tests ++ [⟨aid, drv, phase⟩] }) db

def Db.finishDerivation (a : Attempt) (e : Ended) (db : Db) (drv : Drv) : Except Error Db :=
  match db.derivation? drv with
  | none => .error .type
  | some d =>
    let activity := db.activityOf a.id drv
    if complete a e d then
      let origin := buildOrigin e activity d
      let known := if origin = .local_ || !d.available then
          db.updateDerivations (·.drv = drv) (fun d =>
            { d with available := true, origin := origin, failure := none, evidenceAttempt := some a.id })
        else db
      .ok (if origin = .local_ && activity.isSome && !e.truncated then
          known.insertTests a.id drv ((activity.map (·.checks)).getD []).dedup
        else known)
    else if e.reason = "build-error" && drv ∈ e.failures then
      .ok (db.updateDerivations (·.drv = drv) (fun d =>
        { d with available := false, failure := some (failureOf (activity.bind (·.phase))), evidenceAttempt := some a.id }))
    else .ok db

/-- A root that a remote builder would not take is routed to this machine. -/
def Db.routeLocally (cid : Uuid) (db : Db) (drv : Drv) : Db :=
  (db.updateDerivations (·.drv = drv) (fun d =>
      { d with metadata := some { d.metadata.getD ⟨none, [], false⟩ with localOnly := true } })).updateCandidates
    (fun c => c.campaign = cid && c.drv = some drv && c.state = .inconclusive)
    (fun c => { c with state := .queued, error := none })

/-- `outcomes.snapshot`: what is now known of each derivation that the attempt built. -/
def Db.snapshot (db : Db) (aid : Uuid) : List (Drv × Outcome) :=
  (((db.activities.filter (·.attempt = aid)).map (·.drv)).dedup).map (fun drv =>
    let d := db.derivation? drv
    let own := d.any (·.evidenceAttempt = some aid)
    (drv, if db.tests.any (fun t => t.attempt = aid && t.drv = drv) then .tested
      else if own && d.any (·.available) then .built
      else if own && d.any (·.failure.isSome) then .failed
      else .unknown))

def Db.releaseRoots (db : Db) (a : Attempt) : Db :=
  db.updateCandidates (fun c => c.campaign = a.campaign && c.drv.any (· ∈ a.spec.targets.roots) && c.state = .running)
    (fun c => { c with state := .queued })

/-- Roots that are still queued after their build are not built again by themselves. -/
def Db.holdRoots (db : Db) (a : Attempt) (reason : String) : Db :=
  db.updateCandidates (fun c => c.campaign = a.campaign && c.drv.any (· ∈ a.spec.targets.roots) && c.state = .queued)
    (fun c => { c with state := .inconclusive, error := some reason })

/-- The roots of a build, by the facts that it left. -/
def Db.settleRoots (db : Db) (a : Attempt) (e : Ended) : Db :=
  let held := ((db.releaseRoots a).refreshCandidates a.campaign).holdRoots a e.reason
  if a.remote && e.reason = "build-error" && e.unable && e.failures = [] then
    a.spec.targets.roots.foldl (Db.routeLocally a.campaign) held
  else held

def Db.finishBuild (db : Db) (a : Attempt) (e : Ended) : Except Error (Db × Result) := do
  let finished ← a.spec.derivations.foldlM (Db.finishDerivation a e) db
  let settled := finished.settleRoots a e
  return (settled, ⟨e.reason, none, none, settled.snapshot a.id⟩)

end Experiment
