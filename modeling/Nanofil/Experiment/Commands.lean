import Nanofil.Experiment.Controller

/-! The commands of `Controller.dispatch`, and the runs of the controller: commands and ticks
from states it comes to rest in, and restarts from any state that it commits. -/
namespace Experiment
open Commits

def paused (s : Controller) (cid : Uuid) : Except Error Campaign := do
  let c ← s.db.campaign cid
  if c.mode = .paused then .ok c else .error (.value "pause the campaign before reclassifying its scope")

/-- A cancelled build of the campaign, whose collateral an exclusion may requeue. -/
def Db.cancelledBuild (db : Db) (cid aid : Uuid) : Except Error Attempt :=
  match db.attempts.find? (fun a => a.id = aid && a.campaign = cid) with
  | none => .error (.value "attempt must be a cancelled build in this campaign")
  | some a =>
    if a.isBuild && a.state = .finished && a.result.any (fun r => r.reason = "cancelled" || r.reason = "excluded") then
      .ok a
    else .error (.value "attempt must be a cancelled build in this campaign")

def linuxName (d : Derivation) : Bool := (d.name.toList.map Char.toLower).take 6 = "linux-".toList

/-- The attempt's result as an exclusion, and its inconclusive roots queued again. -/
def Db.excludeAttempt (db : Db) (cid : Uuid) (a : Attempt) : Except Error Db :=
  if a.spec.targets.roots.all (fun t => (db.exclusionOf t).isNone) then
    .error (.value "cancelled batch has no excluded kernel root")
  else
    let marked := db.updateAttempts (·.id = a.id) (fun a => { a with result := a.result.map (fun r =>
      { r with reason := "excluded", workerReason := some (r.workerReason.getD r.reason), error := some reason }) })
    .ok (marked.updateCandidates
      (fun c => c.campaign = cid && c.drv.any (· ∈ a.spec.targets.roots) && c.state = .inconclusive && c.error = some "cancelled")
      (fun c => { c with state := .queued, error := none }))

def Db.attemptOf (db : Db) (cid : Uuid) : Option Uuid → Except Error (Option Attempt)
  | none => .ok none
  | some aid => (db.cancelledBuild cid aid).map some

def Db.excludeAttempts (db : Db) (cid : Uuid) : Option Attempt → Except Error Db
  | none => .ok db
  | some a => db.excludeAttempt cid a

/-- The campaign's kernels excluded, and their derivations. -/
def Db.markKernels (db : Db) (cid : Uuid) (drvs : List Drv) : Db :=
  (db.updateCandidates (fun c => c.campaign = cid && c.kernel)
    (fun c => { c with state := .excluded, error := some reason })).updateDerivations (fun d => d.drv ∈ drvs)
      (fun d => { d with exclusion := some reason })

def excludeKernels (w : World) (cid : Uuid) (aid : Option Uuid) : Tx Unit :=
  .transaction (fun s => do
    let _ ← paused s cid
    let attempt ← s.db.attemptOf cid aid
    let selected := s.db.candidates.filter (fun c => c.campaign = cid && c.kernel)
    let suspects := ((s.db.derivations.filter linuxName).map (·.drv) ++ selected.filterMap (·.drv)).dedup
    let marked := (s.db.addGraph (w.shown suspects)).markKernels cid (selected.filterMap (·.drv))
    let reclassified ← marked.excludeAttempts cid attempt
    let fresh := reclassified.refreshCandidates cid
    let excluded := (fresh.candidates.filter (fun c => c.campaign = cid && c.state = .excluded)).map (·.id)
    return ({ s with db := fresh.event (.kernelsExcluded cid aid excluded) }, ()))

/-- What `scope.py` says of derivations by their names: its toolchains, its suspected toolchains,
and what else is out of scope. -/
structure Scope where
  toolchain : String → Bool
  suspected : String → Bool
  other : String → Option String

/-- Toolchains excluded, and then what else is out of scope. -/
def Db.markScope (db : Db) (scope : Scope) (named others : List Drv) : Db :=
  (db.updateDerivations (fun d => d.drv ∈ named && d.exclusion.isNone)
    (fun d => { d with exclusion := some toolchainReason })).updateDerivations
      (fun d => d.drv ∈ others && d.exclusion.isNone) (fun d => { d with exclusion := scope.other d.name })

/-- Blocked candidates become queued again, then excluded if they depend on an exclusion. -/
def Db.requeueBlocked (db : Db) (cid : Uuid) : Db :=
  db.updateCandidates (fun c => c.campaign = cid && c.state = .blocked) (fun c => { c with state := .queued })

def excludeToolchains (w : World) (scope : Scope) (cid : Uuid) : Tx Unit :=
  .transaction (fun s => do
    let _ ← paused s cid
    let rows := s.db.derivations.filter (·.exclusion.isNone)
    let suspects := (rows.filter (fun d => scope.suspected d.name && w.onDisk d.drv)).map (·.drv)
    let named := (rows.filter (fun d => scope.toolchain d.name)).map (·.drv) ++
      ((w.shown suspects).filter (·.2.toolchain)).map (·.1)
    let others := rows.filter (fun d => (scope.other d.name).isSome)
    let fresh := ((s.db.markScope scope named (others.map (·.drv))).requeueBlocked cid).refreshCandidates cid
    return ({ s with db := fresh.event (.toolchainsExcluded cid (named ++ others.map (·.drv))) }, ()))

structure ScheduleRequest where
  batchSize : Option Nat
  planAhead : Option Nat
  buildLanes : Option Nat
  scheduling : Option Scheduling

def Policy.schedule (p : Policy) : Schedule := ⟨p.batchSize, p.planAhead, p.buildLanes, p.scheduling⟩

def Policy.reschedule (p : Policy) (x : Schedule) : Policy :=
  { p with batchSize := x.batchSize, planAhead := x.planAhead, buildLanes := x.buildLanes, scheduling := x.scheduling }

def bounded (key : String) (low high : Nat) : Option Nat → Except Error Unit
  | none => .ok ()
  | some n =>
    if low ≤ n ∧ n ≤ high then .ok ()
    else .error (.value (key ++ " must be an integer from " ++ toString low ++ " to " ++ toString high))

def schedule (cid : Uuid) (r : ScheduleRequest) : Tx Unit :=
  .transaction (fun s => do
    let c ← s.db.campaign cid
    bounded "batch_size" 1 64 r.batchSize
    bounded "plan_ahead" 0 256 r.planAhead
    bounded "build_lanes" 1 2 r.buildLanes
    let old := c.policy.schedule
    let new : Schedule := ⟨r.batchSize.getD old.batchSize, r.planAhead.getD old.planAhead,
      r.buildLanes.getD old.buildLanes, r.scheduling.getD old.scheduling⟩
    if new.scheduling = .rolling && new.planAhead = 0 then
      .error (.value "rolling scheduling requires nonzero plan_ahead")
    else
      let updated := s.db.updateCampaign cid (fun c => { c with policy := c.policy.reschedule new })
      return ({ s with db := if new = old then s.db else updated.event (.schedulingUpdated cid old new) }, ()))

/-- The derivation of a candidate that is ready to be built. -/
def Db.ready (db : Db) (cid : Uuid) (id : Nat) : Except Error Drv :=
  match db.candidates.find? (fun x => x.campaign = cid && x.id = id) with
  | some { drv := some drv, state := .queued, .. } | some { drv := some drv, state := .available, .. } => .ok drv
  | _ => .error (.value "candidate must be planned and ready; explicitly retry failures first")

def Db.onceTargets (db : Db) (hold : String) (cid : Uuid) (ids : List Nat) : Except Error (Campaign × List Drv) := do
  let c ← db.campaign cid
  if hold ≠ "" then .error (.value hold)
  else if c.mode ≠ .paused then .error (.value "pause the campaign before submitting a bounded batch")
  else if ids = [] ∨ c.policy.batchSize < ids.length then .error (.value "batch exceeds campaign size budget")
  else do
    let targets ← ids.mapM (db.ready cid)
    return (c, targets.dedup)

def buildOnce (w : World) (cid : Uuid) (ids : List Nat) : Tx Uuid := do
  let s ← .get
  let it ← .liftExcept (s.db.onceTargets w.hold cid ids)
  buildTargets w it.1 it.2 none none

def retryDerivation (cid : Uuid) (drv : Drv) : Tx Unit :=
  .transaction (fun s => do
    let _ ← s.db.campaign cid
    let roots := (s.db.candidates.filter (·.campaign = cid)).filterMap (·.drv)
    if drv ∉ Closures.closure s.db.downward roots then
      .error (.value "derivation does not belong to the planned campaign graph")
    else do
      s.db.checkScope [drv]
      let cleared := s.db.updateDerivations (·.drv = drv) (fun d => { d with failure := none })
      return ({ s with db := (cleared.refreshCandidates cid).event (.derivationRetried cid drv) }, ()))

def Db.retryCandidate (cid : Uuid) (db : Db) (id : Nat) : Except Error Db :=
  match db.candidates.find? (fun x => x.campaign = cid && x.id = id) with
  | some { drv := some drv, state := state, .. } =>
    if state = .running || state = .excluded then .error (.value "retry requires a planned, inactive candidate")
    else do
      db.checkScope [drv]
      let cleared := db.updateDerivations (·.drv = drv) (fun d => { d with failure := none })
      return cleared.updateCandidates (fun c => c.campaign = cid && c.drv = some drv)
        (fun c => { c with state := .queued, error := none })
  | _ => .error (.value "retry requires a planned, inactive candidate")

def retry (cid : Uuid) (ids : List Nat) : Tx Unit :=
  .transaction (fun s => do
    let _ ← s.db.campaign cid
    let retried ← ids.foldlM (Db.retryCandidate cid) s.db
    return ({ s with db := (retried.refreshCandidates cid).event (.retried cid ids) }, ()))

def setMode (cid : Uuid) (mode : Mode) : Tx Unit :=
  .transaction (fun s => do
    let _ ← s.db.campaign cid
    let moded := s.db.updateCampaign cid (fun c => { c with mode := mode, hold := "" })
    return ({ s with db := moded.event (.moded cid mode) }, ()))

def cancel (aid : Uuid) : Tx Unit :=
  .transaction (fun s =>
    match s.db.activeAttempts.find? (·.id = aid) with
    | none => .error (.value "attempt is not active")
    | some a =>
      let marked := s.db.updateAttempts (·.id = aid) (fun a => { a with cancelRequested := true })
      .ok ({ s with db := marked.updateCampaign a.campaign (fun c => { c with mode := .paused }) }, ()))

inductive Request
  | excludeKernels (campaign : Uuid) (attempt : Option Uuid)
  | excludeToolchains (campaign : Uuid) (scope : Scope)
  | schedule (campaign : Uuid) (request : ScheduleRequest)
  | plan (campaign : Uuid) (ids : List Nat) (revised : Option Origin)
  | queueReplan (campaign : Uuid) (ids : List Nat) (origin : Origin)
  | buildOnce (campaign : Uuid) (ids : List Nat)
  | retryDerivation (campaign : Uuid) (drv : Drv)
  | run (campaign : Uuid)
  | pause (campaign : Uuid)
  | cancel (attempt : Uuid)
  | retry (campaign : Uuid) (ids : List Nat)

def dispatch (w : World) : Request → Tx Unit
  | .excludeKernels cid aid => Experiment.excludeKernels w cid aid
  | .excludeToolchains cid scope => Experiment.excludeToolchains w scope cid
  | .schedule cid r => Experiment.schedule cid r
  | .plan cid ids revised => do
    let _ ← Experiment.plan w cid ids revised
    pure ()
  | .queueReplan cid ids o => Experiment.queueReplan w cid ids o
  | .buildOnce cid ids => do
    let _ ← Experiment.buildOnce w cid ids
    pure ()
  | .retryDerivation cid drv => Experiment.retryDerivation cid drv
  | .run cid => setMode cid .running
  | .pause cid => setMode cid .paused
  | .cancel aid => Experiment.cancel aid
  | .retry cid ids => Experiment.retry cid ids

/-! ### Runs -/

inductive Op
  | import_ (created : Int) (source revision : String) (policy : Policy) (selections : List (String × Bool))
  | command (request : Request)
  | tick

def Op.run (w : World) : Op → Tx Unit
  | .import_ created source revision policy selections =>
    write (·.importCampaign created source revision policy selections)
  | .command request => dispatch w request
  | .tick => Experiment.tick w

def Db.empty : Db := ⟨[], [], [], [], [], [], [], [], []⟩

/-- A world in which nothing happens. -/
def World.idle : World where
  now := 0
  machines := []
  hold := ""
  before _ := none
  valid _ _ := false
  worker _ := ⟨[], none, false, false, [], [], false⟩
  shown _ := []
  onDisk _ := false

/-- A controller as it starts, on the database that it finds. -/
def started (db : Db) : Controller := ⟨db, [], 0, []⟩

/-- A command's error is its answer; one that a tick throws ends the controller. -/
def Op.survives (w : World) (op : Op) (s : Controller) : Prop :=
  match op with
  | .tick => (Experiment.tick w s).2 = .ok ()
  | _ => True

/-- The controller when an operation has ended. -/
def Op.after (w : World) (op : Op) (s : Controller) : Controller := (op.run w).last s

def Request.after (r : Request) (s : Controller) : Controller := Op.after .idle (.command r) s

theorem tick_survives {w : World} {s : Controller} (ok : (tick w s).2.isOk = true) : Op.tick.survives w s := by
  rw [Op.survives]
  cases ran : (tick w s).2 with
  | ok u => rfl
  | error e =>
    rw [ran] at ok
    cases ok

/-- The controllers at rest between operations. One that has died is started again on the
database as some commit left it. -/
inductive AtRest (allowed : World → Op → Controller → Prop) : Controller → Prop
  | start : AtRest allowed (started .empty)
  | after {s : Controller} {w : World} {op : Op} : AtRest allowed s → allowed w op s → op.survives w s →
      AtRest allowed ((op.run w).last s)
  | restart {s t : Controller} {w : World} {op : Op} : AtRest allowed s → allowed w op s →
      t = s ∨ t ∈ (op.run w s).1 → AtRest allowed (started t.db)

/-- A state that is committed after another, by an operation of a controller at rest. -/
def Follows (allowed : World → Op → Controller → Prop) (s t : Controller) : Prop :=
  ∃ r w op, AtRest allowed r ∧ allowed w op r ∧ ∃ before after, r :: (op.run w r).1 = before ++ s :: t :: after

/-- The states of a run: those at rest, and those committed on the way. -/
def Reached (allowed : World → Op → Controller → Prop) (t : Controller) : Prop :=
  AtRest allowed t ∨ ∃ s, Follows allowed s t

def anyOp (_ : World) (_ : Op) (_ : Controller) : Prop := True

end Experiment
