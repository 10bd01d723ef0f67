import Mathlib.Data.List.Basic
import Mathlib.Data.String.Basic

/-! `main.cc`: campaigns and their roots as the scheduler's lanes and the operator's commands see
them. A lane is at one of its awaits; what it does up to its next await is one step. Times are
nanoseconds of the monotonic clock. -/
namespace Campaigns

/-- A policy, as `merge_policy` bounds it; the budget and the timeout in seconds. -/
structure Policy where
  parallelRoots : Nat
  budget : Nat
  rootTimeout : Nat
  retryInfrastructure : Nat
  lanes : 1 ≤ parallelRoots ∧ parallelRoots ≤ 32
  budgeted : 1 ≤ budget ∧ budget ≤ 7 * 86400
  timed : 1 ≤ rootTimeout ∧ rootTimeout ≤ 7 * 86400
  retries : retryInfrastructure ≤ 5

def minutePolicy : Policy := ⟨1, 60, 3600, 1, by decide, by decide, by decide, by decide⟩

inductive RootState
  | pending | running | settled
deriving DecidableEq, Repr

structure Root where
  name : String
  drv : String
  needs : List String
  state : RootState
  outcome : String
  attempts : Nat
deriving DecidableEq, Repr

inductive CampaignState
  | queued | running | paused | finished | cancelled
deriving DecidableEq, Repr

/-- A campaign of the service; `runningSince` is 0 unless it is running. -/
structure Campaign where
  id : String
  policy : Policy
  state : CampaignState
  priority : Int
  created : Int
  used : Int
  runningSince : Int
  roots : List Root
  inFlight : Nat

/-- What a run's monitor does to its worker, first: it signals it on a cancel, or at a limit. -/
inductive Signal
  | cancelRequested | limitReached
deriving DecidableEq, Repr

/-- A session, and what `run_root` read of its campaign when it computed the deadline. -/
structure Session where
  since : Int
  used : Int
  start : Int
  cancel : Bool
  signalled : Option Signal
deriving DecidableEq, Repr

/-- Where a lane awaits. -/
inductive At
  | top
  | opening (c : Nat)
  | promoted (c : Nat)
  | looked (c : Nat)
  | finishing (c : Nat)
  | admitting (c : Nat)
  | skipping (c : Nat) (rest : List Nat) (k : Option Nat)
  | claimed (c k : Nat)
  | inserting (c k : Nat)
  | requesting (c k : Nat) (s : Session)
  | recording (c k : Nat) (s : Session)
  | recorded (c k : Nat) (stopping operatorCancel : Bool)
  | settling (c k : Nat) (next : RootState) (outcome : String)
  | pausing (c : Nat)
  | sleeping
  | left
deriving DecidableEq, Repr

/-- What the service holds in memory. A campaign is named by its position, which it keeps. -/
structure Deck where
  now : Int
  stop : Bool
  promoting : Bool
  campaigns : List Campaign
  lanes : List At
  cancelling : List Nat

/-- One commit of the catalog. -/
inductive Write
  | insertCampaign (c : Campaign)
  | updateCampaign (c : Nat) (state : CampaignState) (used : Option Int)
  | updatePriority (c : Nat) (p : Int)
  | insertAttempt (c k attempt : Nat) (outcome : Option String)
  | setRootState (c k : Nat) (state : RootState)
  | finishAttempt (c k attempt : Nat) (outcome : String) (settles : Bool)

/-! ### Manifests -/

structure ManifestRoot where
  name : String
  drv : String
  needs : List String

def startsWith (s : String) (start : List Char) : Bool := s.toList.take start.length = start

def endsWith (s : String) (ending : List Char) : Bool :=
  s.toList.drop (s.toList.length - ending.length) = ending

/-- The roots after some names, each with requirements among the earlier ones. -/
def rootsAfter (names : List String) : List ManifestRoot → Option (List Root)
  | [] => some []
  | r :: rs =>
    if r.name = "" || !startsWith r.drv "/".toList || !endsWith r.drv ".drv".toList || r.name ∈ names then none
    else if r.needs.all (· ∈ names) then
      (rootsAfter (names ++ [r.name]) rs).map (⟨r.name, r.drv, r.needs, .pending, "", 0⟩ :: ·)
    else none

def manifestRoots (manifest : List ManifestRoot) : Option (List Root) :=
  if manifest = [] ∨ 1024 < manifest.length then none else rootsAfter [] manifest

/-! ### Campaigns -/

def second : Int := 1000000000

def isSuccess (outcome : String) : Bool :=
  outcome = "built" || outcome = "already-valid" || outcome = "substituted" || outcome = "resolves-to-already-valid"

/-- The running time of a campaign, up to now. -/
def Campaign.ran (now : Int) (c : Campaign) : Int :=
  c.used + if c.runningSince = 0 then 0 else now - c.runningSince

def Campaign.limit (c : Campaign) : Int := c.policy.budget * second

def Campaign.budgetExhausted (now : Int) (c : Campaign) : Bool := c.limit ≤ c.ran now

def Campaign.leaveRunning (now : Int) (state : CampaignState) (c : Campaign) : Campaign :=
  { c with used := c.ran now, runningSince := 0, state := state }

def Campaign.setRoot (k : Nat) (f : Root → Root) (c : Campaign) : Campaign := { c with roots := c.roots.modify k f }

/-- The state and outcome of a required root. -/
def requirement (roots : List Root) (name : String) : Option (RootState × String) :=
  (roots.find? (·.name = name)).map (fun r => (r.state, r.outcome))

def waiting (roots : List Root) (r : Root) : Bool :=
  r.needs.any (fun name => (requirement roots name).any (·.1 ≠ .settled))

def blocked (roots : List Root) (r : Root) : Bool :=
  r.needs.any (fun name => (requirement roots name).any (fun q => q.1 = .settled && !isSuccess q.2))

def Root.skip (r : Root) : Root := { r with state := .settled, outcome := "skipped", attempts := r.attempts + 1 }

def Root.claim (r : Root) : Root := { r with state := .running, attempts := r.attempts + 1 }

/-- `next_root`, from the root at a position on: the roots it skips, and the one it claims. -/
def nextRoot (roots : List Root) : List Nat → List Root × List Nat × Option Nat
  | [] => (roots, [], none)
  | k :: ks =>
    match roots[k]? with
    | none => nextRoot roots ks
    | some r =>
      if r.state ≠ .pending then nextRoot roots ks
      else if blocked roots r then
        let rest := nextRoot (roots.modify k Root.skip) ks
        (rest.1, k :: rest.2.1, rest.2.2)
      else if waiting roots r then nextRoot roots ks
      else (roots.modify k Root.claim, [], some k)

/-! ### Lanes -/

def Deck.update (d : Deck) (c : Nat) (f : Campaign → Campaign) : Deck := { d with campaigns := d.campaigns.modify c f }

def Deck.move (d : Deck) (i : Nat) (at_ : At) : Deck := { d with lanes := d.lanes.set i at_ }

def Deck.runs (d : Deck) (c : Nat) : Bool := (d.campaigns[c]?).any (fun x => x.state = .running)

/-- The campaign that is running. -/
def Deck.running (d : Deck) : Option Nat := (List.range d.campaigns.length).find? d.runs

/-- Whether a queued campaign goes before another, by priority, age and identity. -/
def Campaign.before (c c' : Campaign) : Bool :=
  c'.priority < c.priority || c.priority = c'.priority && (c.created < c'.created || c.created = c'.created && c.id < c'.id)

def Deck.better (d : Deck) (best : Option Nat) (c : Nat) : Option Nat :=
  match d.campaigns[c]?, best.bind (d.campaigns[·]?) with
  | some queued, none => if queued.state = .queued then some c else best
  | some queued, some old => if queued.state = .queued && queued.before old then some c else best
  | none, _ => best

def Deck.best (d : Deck) : Option Nat := (List.range d.campaigns.length).foldl d.better none

def skipWrites (c : Nat) (roots : List Root) (k : Nat) : List Write :=
  [.insertAttempt c k ((roots[k]?.map (·.attempts)).getD 0) (some "skipped"), .setRootState c k .settled]

/-- Goes on with the roots that are skipped, and then with the one that is claimed. -/
def Deck.skips (d : Deck) (i c : Nat) (roots : List Root) (k : Option Nat) : List Nat → Deck × List Write
  | j :: rest => (d.move i (.skipping c rest k), skipWrites c roots j)
  | [] =>
    match k with
    | some k => (d.move i (.claimed c k), [])
    | none => (d.move i .sleeping, [])

/-- What becomes of a root whose attempt has an outcome. -/
def nextState (policy : Policy) (attempt : Nat) (stopping operatorCancel : Bool) (outcome : String) : RootState :=
  if stopping && (outcome = "cancelled" || outcome = "incomplete") then .pending
  else if operatorCancel && outcome = "cancelled" then .settled
  else if outcome = "worker-error" && attempt ≤ policy.retryInfrastructure then .pending
  else .settled

def Session.deadline (policy : Policy) (s : Session) : Int :=
  min (s.since + (policy.budget * second - s.used)) (s.start + policy.rootTimeout * second)

/-- The monitor's look at the clock and at what was asked of it. -/
def Session.check (policy : Policy) (now : Int) (stop : Bool) (s : Session) : Session :=
  let due := s.deadline policy ≠ 0 && s.deadline policy ≤ now
  if s.signalled = none && (stop || s.cancel || due) then
    { s with signalled := some (if stop || s.cancel then .cancelRequested else .limitReached) }
  else s

/-- A lane goes on from its await. -/
def Deck.goes (d : Deck) (i : Nat) : At → Option (Deck × List Write)
  | .top =>
    if d.stop then some (d.move i .left, [])
    else match d.running with
      | some c => some (d.move i (.looked c), [])
      | none =>
        if d.promoting then some (d.move i .sleeping, [])
        else match d.best with
          | none => some (d.move i .sleeping, [])
          | some c => some ({ d with promoting := true }.move i (.opening c), [])
  | .opening c =>
    (d.campaigns[c]?).map fun (best : Campaign) =>
      if best.state = .queued then
        ((d.update c (fun x => { x with state := .running, runningSince := d.now })).move i (.promoted c),
          [.updateCampaign c .running none])
      else ({ d with promoting := false }.move i .sleeping, [])
  | .promoted c =>
    (d.campaigns[c]?).map fun (best : Campaign) =>
      ({ d with promoting := false }.move i (if best.state = CampaignState.running then .looked c else .sleeping), [])
  | .looked c =>
    (d.campaigns[c]?).map fun (x : Campaign) =>
      if x.state ≠ .running ∨ x.inFlight ≠ 0 then (d.move i (.admitting c), [])
      else if x.roots.any (·.state = .pending) && !x.budgetExhausted d.now then (d.move i (.admitting c), [])
      else ((d.update c (Campaign.leaveRunning d.now .finished)).move i (.finishing c),
        [.updateCampaign c .finished (some (x.ran d.now))])
  | .finishing _ => some (d.move i .sleeping, [])
  | .admitting c =>
    (d.campaigns[c]?).map fun (x : Campaign) =>
      if i < x.policy.parallelRoots && !x.budgetExhausted d.now then
        let (roots, skipped, k) := nextRoot x.roots (List.range x.roots.length)
        let claimed := d.update c (fun x => { x with roots := roots, inFlight := x.inFlight + k.toList.length })
        claimed.skips i c roots k skipped
      else (d.move i .sleeping, [])
  | .skipping c rest k =>
    (d.campaigns[c]?).map fun (x : Campaign) => d.skips i c x.roots k rest
  | .claimed c k =>
    (d.campaigns[c]?).bind fun (x : Campaign) => (x.roots[k]?).map fun r =>
      (d.move i (.inserting c k), [.insertAttempt c k r.attempts none, .setRootState c k .running])
  | .inserting c k =>
    (d.campaigns[c]?).map fun (x : Campaign) =>
      (d.move i (.requesting c k ⟨x.runningSince, x.used, d.now, false, none⟩), [])
  | .requesting c k s => some (d.move i (.recording c k s), [])
  | .recording .. => none
  | .recorded .. => none
  | .settling c k next outcome =>
    (d.campaigns[c]?).map fun (x : Campaign) =>
      let settled := d.update c (fun x =>
        { x.setRoot k (fun r => { r with state := next, outcome := outcome }) with inFlight := x.inFlight - 1 })
      if outcome = "recorder-error" && x.state = .running then
        ((settled.update c (Campaign.leaveRunning d.now .paused)).move i (.pausing c),
          [.updateCampaign c .paused (some (x.ran d.now))])
      else (settled.move i .top, [])
  | .pausing _ => some (d.move i .top, [])
  | .sleeping => some (d.move i .top, [])
  | .left => none

/-- The await of a lane throws. -/
def Deck.throws (d : Deck) (i : Nat) : At → Option Deck
  | .opening _ | .promoted _ => some ({ d with promoting := false }.move i .sleeping)
  | .finishing _ | .skipping .. | .inserting .. | .settling .. | .pausing _ => some (d.move i .sleeping)
  | .claimed c k =>
    some ((d.update c (fun x => { x.setRoot k (fun r => { r with state := .pending, attempts := r.attempts - 1 }) with
      inFlight := x.inFlight - 1 })).move i .sleeping)
  | .requesting c k _ =>
    (d.campaigns[c]?).map fun (x : Campaign) => d.move i (.recorded c k d.stop (x.state = .cancelled))
  | _ => none

/-! ### Steps -/

inductive Command
  | create (id : String) (policy : Policy) (priority created : Int) (manifest : List ManifestRoot)
  | pause (c : Nat)
  | resume (c : Nat)
  | cancel (c : Nat)
  | priority (c : Nat) (p : Int)

def Deck.command (d : Deck) : Command → Option (Deck × List Write)
  | .create id policy priority created manifest =>
    if d.campaigns.any (·.id = id) then none
    else (manifestRoots manifest).map fun roots =>
      let c : Campaign := ⟨id, policy, .queued, priority, created, 0, 0, roots, 0⟩
      ({ d with campaigns := d.campaigns ++ [c] }, [.insertCampaign c])
  | .pause c =>
    (d.campaigns[c]?).bind fun (x : Campaign) =>
      if x.state = .running ∨ x.state = .queued then
        some (d.update c (Campaign.leaveRunning d.now .paused), [.updateCampaign c .paused (some (x.ran d.now))])
      else none
  | .resume c =>
    (d.campaigns[c]?).bind fun (x : Campaign) =>
      if x.state = .paused then
        some (d.update c (fun x => { x with state := .queued }), [.updateCampaign c .queued none])
      else none
  | .cancel c =>
    (d.campaigns[c]?).bind fun (x : Campaign) =>
      if x.state = .finished ∨ x.state = .cancelled then none
      else some ({ d.update c (Campaign.leaveRunning d.now .cancelled) with cancelling := c :: d.cancelling },
        [.updateCampaign c .cancelled (some (x.ran d.now))])
  | .priority c p =>
    (d.campaigns[c]?).map fun _ => (d.update c (fun x => { x with priority := p }), [.updatePriority c p])

/-- Cancels the sessions that are registered for a campaign. -/
def At.flagged (c : Nat) : At → At
  | .recording c' k s => .recording c' k (if c' = c then { s with cancel := true } else s)
  | at_ => at_

inductive Label
  | goes (i : Nat)
  | throws (i : Nat)
  | checks (i : Nat)
  | ends (i : Nat)
  | analyzed (i : Nat) (outcome : String)
  | passes (time : Nat)
  | stops
  | command (c : Command)
  | flags (c : Nat)

def Deck.step (d : Deck) : Label → Option (Deck × List Write)
  | .goes i => (d.lanes[i]?).bind (d.goes i)
  | .throws i => ((d.lanes[i]?).bind (d.throws i)).map (·, [])
  | .checks i =>
    match d.lanes[i]? with
    | some (.recording c k s) =>
      (d.campaigns[c]?).map fun (x : Campaign) => (d.move i (.recording c k (s.check x.policy d.now d.stop)), [])
    | _ => none
  | .ends i =>
    match d.lanes[i]? with
    | some (.recording c k _) =>
      (d.campaigns[c]?).map fun (x : Campaign) => (d.move i (.recorded c k d.stop (x.state = .cancelled)), [])
    | _ => none
  | .analyzed i outcome =>
    match d.lanes[i]? with
    | some (.recorded c k stopping operatorCancel) =>
      (d.campaigns[c]?).bind fun (x : Campaign) => (x.roots[k]?).map fun r =>
        let next := nextState x.policy r.attempts stopping operatorCancel outcome
        (d.move i (.settling c k next outcome),
          [.finishAttempt c k r.attempts outcome (next = .settled), .setRootState c k next])
    | _ => none
  | .passes time => some ({ d with now := d.now + time }, [])
  | .stops => some ({ d with stop := true }, [])
  | .command op => d.command op
  | .flags c =>
    if c ∈ d.cancelling then
      some ({ d with lanes := d.lanes.map (At.flagged c), cancelling := d.cancelling.erase c }, [])
    else none

/-- The deck as the service starts: its clock runs, its lanes have not looked for work yet. -/
def Deck.initial (now : Int) (campaigns : List Campaign) : Deck :=
  ⟨now, false, false, campaigns, List.replicate 32 .top, []⟩

end Campaigns
