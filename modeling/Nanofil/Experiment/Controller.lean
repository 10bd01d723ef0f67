import Nanofil.Experiment.Finishing
import Nanofil.Lib.Commits

/-! `controller.py`: admission, reconciliation and commands. What the controller asks of Nix,
systemd, its clock and its files is what the world answers; each transaction is one commit. -/
namespace Experiment
open Commits

structure Controller where
  db : Db
  machines : List Machine
  machinesObserved : Int
  inspected : List Drv
deriving DecidableEq, Repr

/-- A worker's `exit.json`, with the log that is drained before it is read; a `backlog` is left
when the rest of the log is too long for one pass. -/
structure Exit where
  log : List Record
  backlog : Bool
  reason : String
  truncated : Bool
deriving DecidableEq, Repr

/-- What a pass of `reconcile` finds of an attempt. -/
structure Report where
  log : List Record
  exit : Option Exit
  active : Bool
  started : Bool
  rows : List PlanRow
  failures : List Drv
  unable : Bool

/-- Where the store is asked which outputs are valid. -/
inductive Probe
  | reserved | required | inspected | admitting | submitting
  | ended (attempt : Uuid)
deriving DecidableEq, Repr

structure World where
  now : Int
  machines : List Machine
  hold : String
  before : Uuid → Option (List StorePath)
  valid : Probe → StorePath → Bool
  worker : Uuid → Report
  shown : List Drv → Graph
  onDisk : String → Bool

abbrev Tx := Commits.Tx Controller Error

def write (f : Db → Db) : Tx Unit := .commit (fun s => { s with db := f s.db })

def refuse {α : Type} (message : String) : Tx α := .throw (.value message)

/-! ### Intents -/

structure BuildIntent where
  targets : List Drv
  outputPaths : List StorePath
  derivations : List Drv
  recipeSources : List (Drv × List Origin)
  location : Option Location
  observation : Option Reservation

structure PlanIntent where
  ids : List Nat
  revised : Option Origin
  previous : List Previous

/-- The first excluded derivation among a target's dependencies. -/
def Db.excludedDependency (db : Db) (target : Drv) : Option Derivation :=
  (db.closure target).findSome? (fun drv => (db.derivation? drv).filter (·.exclusion.isSome))

def Db.checkScope (db : Db) (targets : List Drv) : Except Error Unit :=
  match targets.findSome? db.excludedDependency with
  | none => .ok ()
  | some d => .error (.value ("excluded: " ++ d.name ++ ": " ++ d.exclusion.getD ""))

/-- The lanes that are free for an attempt of a campaign. -/
def Db.checkLanes (db : Db) (c : Campaign) (plan : Bool) : Except Error Unit :=
  if db.activeAttempts.any (·.campaign ≠ c.id) then .error (.value "another campaign is active")
  else if plan && db.activeAttempts.any (·.isPlan) then .error (.value "planner already occupied")
  else if db.activeAttempts ≠ [] && c.policy.planAhead = 0 then
    .error (.value "an attempt is already active; planning ahead is disabled")
  else .ok ()

def baseSpec (c : Campaign) (targets : Targets) (policy : Policy) : Spec :=
  { targets := targets, policy := policy, source := c.source, revision := c.revision, outputPaths := [],
    derivations := [], recipeSources := [], buildLocation := none, admissionAvailable := none,
    replanRequests := [], previousCandidates := [] }

def effectivePolicy (c : Campaign) (location : Location) (s : Controller) : Except Error Policy :=
  match buildPolicy c.policy s.db.activeBuilds location s.machines with
  | none => .error (.value "build lanes or requested CPU budget occupied")
  | some effective => .ok effective

/-- The outputs that a build counts on, where what it needs is its own. -/
def admissionAvailable (c : Campaign) (it : BuildIntent) (r : Reservation) (s : Controller) :
    Except Error (Option (List StorePath)) :=
  let needed := s.db.needed it.targets r.available
  if it.observation.isSome || c.policy.buildLanes > 1 || s.db.activeBuilds ≠ [] || c.policy.rolling then
    if s.db.overlap needed r.held then .error (.value "build dependencies are owned by another attempt")
    else if it.location = some .remote && !s.db.remoteEligible needed s.machines then
      .error (.value "build dependencies require a local builder")
    else .ok (some r.available)
  else .ok none

/-- The spec of a build, where its policy and its ownership allow one. -/
def buildSpec (w : World) (c : Campaign) (it : BuildIntent) (s : Controller) : Except Error Spec := do
  s.db.checkLanes c false
  s.db.checkScope it.targets
  let location := it.location.getD .local_
  let effective ← effectivePolicy c location s
  let r := it.observation.getD (s.db.reservations w.before (w.valid .submitting) s.db.activeBuilds [])
  let available ← admissionAvailable c it r s
  return { baseSpec c (.build it.targets) effective with
    outputPaths := it.outputPaths, derivations := it.derivations, recipeSources := it.recipeSources,
    buildLocation := if c.policy.rolling then some location else it.location
    admissionAvailable := available }

def planSpec (c : Campaign) (it : PlanIntent) (s : Controller) : Except Error Spec := do
  s.db.checkLanes c true
  let origin := it.revised.getD ⟨c.source, c.revision⟩
  return { baseSpec c (.plan it.ids) c.policy with
    source := origin.source, revision := origin.revision, previousCandidates := it.previous
    replanRequests := it.ids.flatMap (fun id => s.db.replans.filter (·.candidate = id)) }

/-- The commit of an intent: the attempt, its roots running or its candidates detached, and the
replans that it consumes. -/
def Db.intend (db : Db) (c : Campaign) (spec : Spec) : Db :=
  let aid := db.attempts.length
  let added : Db := { db with attempts := db.attempts ++ [⟨aid, c.id, .intended, spec, none, false⟩] }
  let marked := match spec.targets with
    | .build drvs => added.updateCandidates (fun x => x.campaign = c.id && x.drv.any (· ∈ drvs))
        (fun x => { x with state := .running })
    | .plan ids =>
      let detached := if spec.previousCandidates = [] then added
        else added.updateCandidates (fun x => x.campaign = c.id && x.id ∈ ids)
          (fun x => { x with state := .unplanned, drv := none, recipe := none, error := none })
      { detached with replans := detached.replans.filter (fun r => r.candidate ∉ ids) }
  marked.event (.attemptIntended c.id aid spec.targets)

def intent (c : Campaign) (spec : Controller → Except Error Spec) : Tx Uuid :=
  .transaction (fun s => do
    let spec ← spec s
    return ({ s with db := s.db.intend c spec }, s.db.attempts.length))

def Db.sourcesOf (db : Db) (c : Campaign) (target : Drv) : List Origin :=
  let origins := ((db.candidates.filter (fun x => x.campaign = c.id && x.drv = some target)).map (fun x =>
    (x.recipe.map (fun r => (⟨r.source, r.revision⟩ : Origin))).getD ⟨c.source, c.revision⟩)).dedup
  if origins = [] then [⟨c.source, c.revision⟩] else origins

def buildTargets (w : World) (c : Campaign) (targets : List Drv) (location : Option Location)
    (observation : Option Reservation) : Tx Uuid :=
  intent c (fun s =>
    let drvs := (targets.flatMap s.db.closure).dedup
    buildSpec w c ⟨targets, (s.db.paths drvs).dedup, drvs, targets.map (fun t => (t, s.db.sourcesOf c t)), location,
      observation⟩ s)

/-! ### Plans -/

def Db.campaign (db : Db) (cid : Uuid) : Except Error Campaign :=
  match db.campaign? cid with
  | some c => .ok c
  | none => .error (.value "unknown campaign")

def storeChar (c : Char) : Bool := c.isDigit || c.isLower

def hexChar (c : Char) : Bool := c.isDigit || c = 'a' || c = 'b' || c = 'c' || c = 'd' || c = 'e' || c = 'f'

/-- A frozen source in the store, at a commit. -/
def sourceName (source revision : String) : Bool :=
  let hash := source.toList.drop "/nix/store/".length
  source.toList.take "/nix/store/".length = "/nix/store/".toList && (hash.take 32).length = 32 &&
    (hash.take 32).all storeChar && hash.drop 32 = "-filnix-campaign-source".toList &&
    revision.toList.length = 40 && revision.toList.all hexChar

def validateSource (w : World) (o : Origin) : Except Error Unit :=
  if sourceName o.source o.revision && w.onDisk (o.source ++ "/flake.nix") && w.onDisk (o.source ++ "/flake.lock") then
    .ok ()
  else .error (.value "revision planning requires a frozen committed flake")

def replanEligible (state : CandidateState) (drv : Option Drv) (error : Option String) : Bool :=
  if drv.isNone then state = .unplanned || state = .evaluationError
  else state = .failed || state = .blocked || state = .inconclusive || state = .excluded && error = some inherited

def Candidate.eligible (c : Candidate) : Bool := replanEligible c.state c.drv c.error

/-- The derivations of the active builds. -/
def Db.activeDrvs (db : Db) : List Drv := db.activeBuilds.flatMap (·.spec.derivations)

def replannable (state : CandidateState) : Bool :=
  state = .queued || state = .failed || state = .blocked || state = .inconclusive || state = .excluded

def Db.checkPlan (db : Db) (cid : Uuid) (revised : Bool) (id : Nat) : Except Error Candidate :=
  match db.candidates.find? (fun x => x.id = id && x.campaign = cid) with
  | none => .error (.value "candidate absent or already planned")
  | some x =>
    if x.state = .excluded && !(revised && x.eligible) then .error (.value "candidate absent or already planned")
    else if !revised && db.replans.any (·.candidate = id) then
      .error (.value "candidate has a queued replan; use an explicit revision")
    else if x.drv.isSome && !(revised && replannable x.state) then
      .error (.value "candidate absent or already planned")
    else if x.drv.any (· ∈ db.activeDrvs) then .error (.value "candidate is a dependency of an active build")
    else .ok x

def planIntent (w : World) (cid : Uuid) (ids : List Nat) (revised : Option Origin) (s : Controller) :
    Except Error (Campaign × PlanIntent) := do
  let c ← s.db.campaign cid
  if ids = [] ∨ 64 < ids.length ∨ ¬ ids.Nodup then .error (.value "plan requires 1–64 candidate IDs")
  else match revised with
    | none => do
      let _ ← ids.mapM (s.db.checkPlan cid false)
      return (c, ⟨ids, none, []⟩)
    | some o => do
      validateSource w o
      let rows ← ids.mapM (s.db.checkPlan cid true)
      return (c, ⟨ids, some o, rows.map (fun x => ⟨x.id, x.state, x.drv, x.recipe, x.error⟩)⟩)

def plan (w : World) (cid : Uuid) (ids : List Nat) (revised : Option Origin) : Tx Uuid := do
  let s ← .get
  let it ← .liftExcept (planIntent w cid ids revised s)
  intent it.1 (planSpec it.1 it.2)

def notInactive (id : Nat) : Error :=
  .value ("candidate " ++ toString id ++ " must be an inactive revision-replan candidate")

/-- The candidates of a request that are not queued for its revision yet. -/
def Db.pendingReplans (db : Db) (cid : Uuid) (o : Origin) : List Nat → Except Error (List Nat)
  | [] => .ok []
  | id :: ids =>
    match db.candidates.find? (fun x => x.id = id && x.campaign = cid) with
    | none => .error (notInactive id)
    | some x =>
      if !x.eligible || id ∈ (db.activeAttempts.flatMap (·.spec.targets.ids)) || x.drv.any (· ∈ db.activeDrvs) then
        .error (notInactive id)
      else match db.replans.find? (·.candidate = id) with
        | none => (db.pendingReplans cid o ids).map (id :: ·)
        | some r =>
          if r.source = o.source && r.revision = o.revision then db.pendingReplans cid o ids
          else .error (.value ("candidate " ++ toString id ++ " already has a different revision queued"))

def queueReplan (w : World) (cid : Uuid) (ids : List Nat) (o : Origin) : Tx Unit :=
  .transaction (fun s => do
    let c ← s.db.campaign cid
    validateSource w o
    if ids = [] ∨ 8192 < ids.length ∨ ¬ ids.Nodup then .error (.value "queue-replan requires 1–8192 distinct candidate IDs")
    else do
      let pending ← s.db.pendingReplans cid o ids
      let request := s.db.events.length
      let queued : Db := { s.db with
        replans := s.db.replans ++ pending.map (fun id => ⟨id, o.source, o.revision, request, w.now⟩) }
      return ({ s with db := if pending = [] then s.db
                             else queued.event (.replanQueued c.id request pending o.source o.revision) }, ()))

/-! ### Reconciliation -/

/-- Commits what an attempt's end leaves, as it is found in the row that was read. -/
def finishAttempt (w : World) (a : Attempt) (reason : String) (truncated : Bool) : Tx Unit :=
  .transaction (fun s => do
    let report := w.worker a.id
    let ended ← match a.spec.targets with
      | .plan _ => .ok (s.db.finishPlan a report.rows, ⟨reason, none, none, []⟩)
      | .build _ => s.db.finishBuild a ⟨reason, truncated, report.failures, report.unable, w.before a.id,
          w.valid (.ended a.id)⟩
    let db := ended.1.updateAttempts (·.id = a.id) (fun a => { a with state := .finished, result := some ended.2 })
    return ({ s with db := db.event (.attemptFinished a.campaign a.id reason) }, ()))

/-- A pass over one attempt: its log, and its end when its worker has left. -/
def reconcileAttempt (w : World) (a : Attempt) : Tx Unit := do
  let report := w.worker a.id
  write (·.ingest a.id report.log)
  match report.exit with
  | some exit =>
    if exit.backlog then pure ()
    else do
      write (·.ingest a.id exit.log)
      finishAttempt w a exit.reason exit.truncated
  | none =>
    if report.active then write (·.updateAttempts (·.id = a.id) (fun a => { a with state := .running }))
    else if !report.started && a.state = .intended then
      if a.cancelRequested then finishAttempt w a "cancelled" false else pure ()
    else finishAttempt w a (if a.cancelRequested then "cancelled" else "interrupted") false

def reconcile (w : World) : Tx Unit := do
  let s ← .get
  .each (reconcileAttempt w) s.db.activeAttempts

/-! ### Admission -/

/-- The queued derivations of a campaign, in the order of their first labels. -/
def Db.queuedDrvs (db : Db) (cid : Uuid) : List Drv :=
  ((((db.candidates.filter (fun x => x.campaign = cid && x.state = .queued)).insertionSort
    (fun x y => x.label ≤ y.label)).filterMap (·.drv)).reverse.dedup).reverse

/-- Derivations whose scheduling metadata is missing, those with unknown outputs first. -/
def Db.uninspected (db : Db) (needed : List Drv) (rolling : Bool) : List Drv :=
  let unknown := fun d : Derivation => d.outputs.any (·.2.isNone)
  let rows := db.derivations.filter (fun d => d.drv ∈ needed && (rolling && d.metadata.isNone || unknown d))
  (rows.filter unknown ++ rows.filter (fun d => !unknown d)).map (·.drv)

def prepareGraph (w : World) (targets : List Drv) (rolling : Bool) : Tx (List StorePath) := do
  let s ← .get
  let r := s.db.reservations w.before (w.valid .reserved) s.db.activeBuilds []
  let required := s.db.needed targets r.available
  let available := r.available ++ (s.db.paths required).filter (w.valid .required)
  let needed := s.db.needed targets available
  let drvs := ((s.db.uninspected needed rolling).filter (fun d => d ∉ s.inspected && w.onDisk d)).take 64
  if drvs = [] then pure available
  else do
    write (·.addGraph (w.shown drvs))
    .commit (fun s => { s with inspected := s.inspected ++ drvs })
    let s ← .get
    pure (available ++ (s.db.paths needed).filter (w.valid .inspected))

/-- Where a build of some derivations goes, of where there is room for it. -/
def Controller.place (s : Controller) (needed : List Drv) (remote local_ : Bool) : Option Location :=
  if remote && s.db.remoteEligible needed s.machines then some .remote
  else if local_ then some .local_ else none

/-- The rolling loop: a build for each candidate that owns nothing of another's. -/
def admitRolling (w : World) (c : Campaign) (available : List StorePath) : List Drv → List Drv → Bool → Tx Bool
  | [], _, admitted => pure admitted
  | drv :: drvs, held, admitted => do
    let s ← .get
    let remote := buildPolicy c.policy s.db.activeBuilds .remote s.machines
    let local_ := buildPolicy c.policy s.db.activeBuilds .local_ s.machines
    if remote.isNone && local_.isNone then pure admitted
    else
      let needed := s.db.needed [drv] available
      if s.db.overlap needed held then admitRolling w c available drvs held admitted
      else match s.place needed remote.isSome local_.isSome with
        | none => admitRolling w c available drvs held admitted
        | some location => do
          let _ ← buildTargets w c [drv] (some location) (some ⟨held, available⟩)
          admitRolling w c available drvs (held ++ needed) true

/-- The batch of the batched loop. -/
def Db.batch (db : Db) (r : Reservation) (limit : Nat) : List Drv → List Drv → List Drv
  | [], targets => targets
  | drv :: drvs, targets =>
    if db.overlap (db.needed [drv] r.available) r.held then db.batch r limit drvs targets
    else if limit ≤ targets.length + 1 then targets ++ [drv]
    else db.batch r limit drvs (targets ++ [drv])

def admitBuilds (w : World) (c : Campaign) : Tx Bool := do
  let s ← .get
  let rolling := c.policy.rolling
  let candidates := (s.db.queuedDrvs c.id).take (max c.policy.batchSize (min 256 c.policy.planAhead))
  let observed ← prepareGraph w (candidates ++ s.db.activeBuilds.flatMap (·.spec.targets.roots)) rolling
  let s ← .get
  let r := s.db.reservations w.before (w.valid .admitting) s.db.activeBuilds observed
  if rolling then admitRolling w c r.available candidates r.held false
  else
    let targets := s.db.batch r c.policy.batchSize candidates []
    if targets = [] then pure false
    else do
      let _ ← buildTargets w c targets none (some r)
      pure true

def Db.campaignReplans (db : Db) (cid : Uuid) : List (Replan × Candidate) :=
  db.replans.filterMap (fun r => (db.candidates.find? (fun x => x.id = r.candidate && x.campaign = cid)).map (r, ·))

/-- Drops the requests whose candidates an intervening result has taken, given the derivations
of the builds that admission takes for active. -/
def Db.skipReplans (db : Db) (cid : Uuid) (activeDrvs : List Drv) : Db :=
  let skipped := (db.campaignReplans cid).filter (fun rc => !rc.2.eligible || rc.2.drv.any (· ∈ activeDrvs))
  if skipped = [] then db
  else
    let kept : Db := { db with replans := db.replans.filter (fun r => skipped.all (·.1.candidate ≠ r.candidate)) }
    kept.event (.replanSkipped cid
      (skipped.map (fun rc => ⟨rc.1.candidate, rc.1.request, rc.2.state, rc.2.drv, rc.2.error⟩)))

/-- The first request of a campaign, by its time and its candidate. -/
def Db.nextReplan (db : Db) (cid : Uuid) : Option Replan :=
  (((db.campaignReplans cid).map (·.1)).insertionSort
    (fun r r' => r.created < r'.created ∨ r.created = r'.created ∧ r.candidate ≤ r'.candidate)).head?

def Db.requested (db : Db) (request : Uuid) : List Nat :=
  ((db.replans.filter (·.request = request)).map (·.candidate)).insertionSort (· ≤ ·)

def Db.unplanned (db : Db) (cid : Uuid) : List Nat :=
  ((db.candidates.filter (fun x => x.campaign = cid && x.state = .unplanned)).insertionSort
    (fun x y => x.label ≤ y.label)).map (·.id)

def quota (ahead queued : Nat) : Nat := if ahead = 0 then 32 else min 32 (ahead - queued)

/-- Planning, given the builds that admission takes for active. -/
def admitPlans (w : World) (c : Campaign) (builds : List Attempt) : Tx Unit := do
  let s ← .get
  let quota := quota c.policy.planAhead (s.db.queuedDrvs c.id).length
  if quota = 0 then pure ()
  else do
    write (·.skipReplans c.id (builds.flatMap (·.spec.derivations)))
    let s ← .get
    match s.db.nextReplan c.id with
    | some r => do
      let _ ← plan w c.id ((s.db.requested r.request).take quota) (some ⟨r.source, r.revision⟩)
      pure ()
    | none =>
      let ids := (s.db.unplanned c.id).take quota
      if ids = [] then pure ()
      else do
        let _ ← plan w c.id ids none
        pure ()

/-- The builders that Nix is configured with, asked for again after a minute. -/
def refreshMachines (w : World) (c : Campaign) : Tx Unit := do
  let s ← .get
  if c.policy.rolling && 60 ≤ w.now - s.machinesObserved then
    .commit (fun s => { s with machines := w.machines, machinesObserved := w.now })
  else pure ()

def canBuild (c : Campaign) (s : Controller) : Bool :=
  (buildPolicy c.policy s.db.activeBuilds .local_ s.machines).isSome ||
    (c.policy.rolling && (buildPolicy c.policy s.db.activeBuilds .remote s.machines).isSome)

def buildsIf (w : World) (c : Campaign) (can : Bool) : Tx Bool := if can then admitBuilds w c else pure false

/-- Plans beside the builds. A batch that was just admitted is not among them. -/
def plansBeside (w : World) (c : Campaign) (builds : List Attempt) (planning admitted : Bool) : Tx Unit :=
  if planning || (admitted || builds ≠ []) && c.policy.planAhead = 0 then pure ()
  else do
    let s ← .get
    admitPlans w c (if c.policy.rolling then s.db.activeBuilds else builds)

/-- `admit/1`. -/
def admitCampaign (w : World) (c : Campaign) : Tx Unit := do
  refreshMachines w c
  let s ← .get
  let active := s.db.activeAttempts
  let planning := active.any (·.isPlan)
  if active.any (·.campaign ≠ c.id) then pure ()
  else if active ≠ [] && (c.policy.planAhead = 0 || !canBuild c s && planning) then pure ()
  else do
    write (·.updateCampaign c.id (fun c => { c with hold := w.hold }))
    if w.hold ≠ "" then pure ()
    else do
      let admitted ← buildsIf w c (canBuild c s)
      plansBeside w c s.db.activeBuilds planning admitted

def tick (w : World) : Tx Unit := do
  reconcile w
  let s ← .get
  .each (fun c => if c.mode = .running then admitCampaign w c else pure ())
    (s.db.campaigns.insertionSort (fun c c' => c.created ≤ c'.created))

end Experiment
