import Mathlib.Algebra.Ring.Int.Defs
import Mathlib.Algebra.Ring.Nat
import Nanofil.Experiment.Model

/-! `nix.py`: what Nix shows of derivations, added to the tables. -/
namespace Experiment

/-- A derivation as Nix shows it, with full store paths. `exclusion` is what `scope.py` says of
its name and definition, `toolchain` whether it takes it for a toolchain, and `listed` the one
output that the store lists for it, where the derivation is in the store. -/
structure Info where
  name : String
  outputs : Outputs
  inputDrvs : List (Drv × List String)
  system : Option String
  features : List String
  exclusion : Option String
  toolchain : Bool
  listed : Option StorePath
deriving DecidableEq, Repr

abbrev Graph := List (Drv × Info)

structure Machine where
  systems : List String
  maxJobs : Nat
  supported : List String
  mandatory : List String
deriving DecidableEq, Repr

def Outputs.path (outputs : Outputs) (name : String) : Option StorePath :=
  (outputs.find? (·.1 = name)).bind (·.2)

/-- A fixed output's path, where neither Nix's answer nor the table has it. -/
def shownOutputs (old : Option Derivation) (info : Info) : Outputs :=
  if info.outputs = [("out", none)] then
    match old.bind (fun d => d.outputs.path "out") with
    | some known => [("out", some known)]
    | none => [("out", info.listed)]
  else info.outputs

/-- A dictionary's entries with those of another put over them. -/
def Outputs.merge (old new : Outputs) : Outputs :=
  old.filter (fun kv => new.all (fun kv' => kv'.1 ≠ kv.1)) ++ new

def mergedOutputs (old : Option Derivation) (outputs : Outputs) : Outputs :=
  match old with
  | some d => d.outputs.merge (outputs.filter (·.2.isSome))
  | none => outputs

def Db.insertDerivation (db : Db) (drv : Drv) (name : String) (outputs : Outputs) : Db :=
  if (db.derivation? drv).isSome then db
  else { db with derivations := db.derivations ++ [⟨drv, name, outputs, false, .unknown, none, none, none, none⟩] }

def Db.insertDependency (db : Db) (e : Dependency) : Db :=
  if db.dependencies.any (fun e' => e'.parent = e.parent && e'.child = e.child) then db
  else { db with dependencies := db.dependencies ++ [e] }

def Db.fillDerivation (db : Db) (drv : Drv) (outputs : Outputs) (metadata : Metadata) : Db :=
  db.updateDerivations (·.drv = drv) (fun d => { d with outputs := outputs, metadata := some (d.metadata.getD metadata) })

def Db.judgeDerivation (db : Db) (drv : Drv) (reason : Option String) : Db :=
  db.updateDerivations (fun d => d.drv = drv && d.exclusion.isNone) (fun d => { d with exclusion := reason })

def Db.insertDependencies (db : Db) (parent : Drv) (children : List (Drv × List String)) : Db :=
  children.foldl (fun db child => db.insertDependency ⟨parent, child.1, child.2⟩) db

def Db.addDerivation (db : Db) (shown : Drv × Info) : Db :=
  let old := db.derivation? shown.1
  let outputs := shownOutputs old shown.2
  let inserted := db.insertDerivation shown.1 shown.2.name outputs
  let filled := inserted.fillDerivation shown.1 (mergedOutputs old outputs) ⟨shown.2.system, shown.2.features, false⟩
  (filled.judgeDerivation shown.1 shown.2.exclusion).insertDependencies shown.1 shown.2.inputDrvs

/-- `add_graph/2`: missing facts are filled in, observed ones kept. -/
def Db.addGraph (db : Db) (data : Graph) : Db := data.foldl Db.addDerivation db

/-- `DEFAULT_POLICY`, of campaigns as they are imported. -/
def Policy.default : Policy where
  maxJobs := 4
  cores := 7
  batchSize := 8
  buildLanes := 1
  planAhead := 0
  scheduling := .batched
  cpus := [(1, 15), (17, 31)]

/-- The processors that a policy's ranges name. -/
def cpuSet (ranges : List (Int × Int)) : List Int :=
  (ranges.flatMap (fun r => (List.range (r.2 - r.1 + 1).toNat).map (fun n => r.1 + Int.ofNat n))).dedup

/-! `scheduling.py`: bounded build clients, and the unrealized derivations that each owns. -/

/-! ### Capacity -/

def Attempt.remote (a : Attempt) : Bool := a.spec.buildLocation = some .remote

def machineSlots (machines : List Machine) : Nat := (machines.map (·.maxJobs)).sum

def remoteBuilds (active : List Attempt) : Nat := (active.filter (·.remote)).length

def localBuilds (active : List Attempt) : List Attempt := active.filter (fun a => !a.remote)

def threads (a : Attempt) : Int := a.spec.policy.maxJobs * a.spec.policy.cores

def Policy.rolling (policy : Policy) : Bool := policy.scheduling = .rolling

/-- How many clients there may be. -/
def Policy.lanes (policy : Policy) : Int :=
  if policy.rolling then policy.maxJobs else if policy.planAhead ≠ 0 then policy.buildLanes else 1

/-- The jobs that a client may have. -/
def Policy.jobs (policy : Policy) : Int := if policy.rolling then 1 else max 1 (policy.maxJobs / policy.lanes)

/-- The jobs and cores that a client may use beside the active ones, if any. -/
def clientLimits (policy : Policy) (active : List Attempt) : Option (Int × Int) :=
  let remaining := (cpuSet policy.cpus).length - (active.map threads).sum
  let remainingJobs := policy.maxJobs - (active.map (·.spec.policy.maxJobs)).sum
  if policy.lanes ≤ active.length then none
  else if active.any (fun a => a.spec.policy.maxJobs ≤ 0 || a.spec.policy.cores ≤ 0) then none
  else if policy.rolling && (remainingJobs < 1 || remaining < policy.cores) then none
  else if remaining < 1 || policy.cores < 1 then none
  else
    let jobs := min policy.jobs (max 1 (remaining / policy.cores))
    some (jobs, min policy.cores (remaining / jobs))

/-- `build_policy/4`: a client's limits beside the active builds, none when it must wait. -/
def buildPolicy (policy : Policy) (active : List Attempt) (location : Location) (machines : List Machine) :
    Option Policy :=
  if policy.rolling && location = .remote then
    if machineSlots machines ≤ remoteBuilds active then none else some { policy with maxJobs := 0 }
  else
    let active := if policy.rolling then localBuilds active else active
    (clientLimits policy active).map (fun limits => { policy with maxJobs := limits.1, cores := limits.2 })

/-! ### Ownership -/

def Db.outputs (db : Db) (drv : Drv) : Outputs := ((db.derivation? drv).map (·.outputs)).getD []

def Db.paths (db : Db) (drvs : List Drv) : List StorePath :=
  drvs.flatMap (fun d => (db.outputs d).filterMap (·.2))

/-- The outputs required of a derivation are known, and available. -/
def Db.realized (db : Db) (available : List StorePath) (drv : Drv) (required : List String) : Bool :=
  required ≠ [] && required.all (fun k => ((db.outputs drv).path k).any (· ∈ available))

abbrev Todo := List (Drv × List String)

def Db.requirements (db : Db) (drv : Drv) : Todo :=
  (db.dependencies.filter (·.parent = drv)).map (fun e => (e.child, e.outputs))

/-- The loop of `needed`, the last item of its stack first. -/
def Db.neededLoop (db : Db) (available : List StorePath) : Nat → Todo → List Drv → List Drv
  | 0, _, needed => needed
  | _ + 1, [], needed => needed
  | n + 1, (drv, required) :: todo, needed =>
    if db.realized available drv required || drv ∈ needed then db.neededLoop available n todo needed
    else db.neededLoop available n ((db.requirements drv).reverse ++ todo) (drv :: needed)

def Db.roots (db : Db) (targets : List Drv) : Todo :=
  (targets.map (fun d => (d, (db.outputs d).map (·.1)))).reverse

/-- `BuildGraph.needed`: what is not available of the targets and their requirements. -/
def Db.needed (db : Db) (targets : List Drv) (available : List StorePath) : List Drv :=
  db.neededLoop available (targets.length + db.dependencies.length + 1) (db.roots targets) []

def Machine.builds (m : Machine) (meta_ : Metadata) : Bool :=
  meta_.system.any (· ∈ m.systems) && meta_.features.all (· ∈ m.supported) && m.mandatory.all (· ∈ meta_.features)

def Db.remoteEligible (db : Db) (drvs : List Drv) (machines : List Machine) : Bool :=
  drvs.all (fun drv =>
    let info := ((db.derivation? drv).bind (·.metadata)).getD ⟨none, [], false⟩
    !info.localOnly && machines.any (·.builds info))

/-- What the active builds own, and the outputs seen to be available. -/
structure Reservation where
  held : List Drv
  available : List StorePath
deriving DecidableEq, Repr

def Db.recorded (db : Db) : List StorePath :=
  (db.derivations.filter (·.available)).flatMap (fun d => d.outputs.filterMap (·.2))

/-- What an attempt's outputs had when it began, or was admitted. -/
def before (files : Uuid → Option (List StorePath)) (a : Attempt) : List StorePath :=
  (files a.id).getD (a.spec.admissionAvailable.getD [])

def Db.reservations (db : Db) (files : Uuid → Option (List StorePath)) (valid : StorePath → Bool)
    (active : List Attempt) (observed : List StorePath) : Reservation :=
  let held := active.flatMap (fun a => db.needed a.spec.targets.roots (before files a))
  let available := observed ++ db.recorded ++ active.flatMap (before files) ++ (db.paths held).filter valid
  { held := active.flatMap (fun a => db.needed a.spec.targets.roots available), available := available }

/-- Some derivation, or output path, is in both. -/
def Db.overlap (db : Db) (needed held : List Drv) : Bool :=
  needed.any (· ∈ held) || (db.paths needed).any (· ∈ db.paths held)

end Experiment
