import Nanofil.Experiment.Commands

/-! What one commit may change of the tables. -/
namespace Experiment
open List

/-! ### Candidates -/

/-- The states of a candidate without a derivation. -/
def CandidateState.bare (s : CandidateState) : Prop := s = .unplanned ∨ s = .evaluationError ∨ s = .excluded

/-- How a candidate may turn where `runs` says what may have been set running. -/
structure Turns (runs : Uuid → Option Drv → Prop) (c c' : Candidate) : Prop where
  id : c'.id = c.id
  campaign : c'.campaign = c.campaign
  running : c'.state = .running → c.state = .running ∧ c'.drv = c.drv ∨ runs c'.campaign c'.drv
  bare : c'.drv = none → c'.state.bare ∨ c.drv = none ∧ (c.state.bare → c'.state.bare)
  unplanned : c'.state = .unplanned → c'.drv = none ∨ c.state = .unplanned ∧ c'.drv = c.drv

def noRuns (_ : Uuid) (_ : Option Drv) : Prop := False

variable {runs runs' : Uuid → Option Drv → Prop} {c c' c'' : Candidate} {db db' db'' : Db}

theorem Turns.refl (c : Candidate) : Turns runs c c where
  id := rfl
  campaign := rfl
  running run := .inl ⟨run, rfl⟩
  bare none_ := .inr ⟨none_, fun bare => bare⟩
  unplanned new := .inr ⟨new, rfl⟩

theorem Turns.trans (first : Turns runs c c') (next : Turns runs c' c'') : Turns runs c c'' where
  id := next.id.trans first.id
  campaign := next.campaign.trans first.campaign
  running run := by
    rcases next.running run with ⟨run', same⟩ | allowed
    · rcases first.running run' with ⟨run, same'⟩ | allowed
      · exact .inl ⟨run, same.trans same'⟩
      · rw [next.campaign, same]
        exact .inr allowed
    · exact .inr allowed
  bare none_ := by
    rcases next.bare none_ with bare | ⟨none', kept⟩
    · exact .inl bare
    · exact (first.bare none').imp kept fun ⟨none_, kept'⟩ => ⟨none_, fun bare => kept (kept' bare)⟩
  unplanned new := by
    rcases next.unplanned new with none_ | ⟨new', same⟩
    · exact .inl none_
    · rcases first.unplanned new' with none_ | ⟨new, same'⟩
      · exact .inl (same.trans none_)
      · exact .inr ⟨new, same.trans same'⟩

theorem Turns.mono (turns : Turns runs c c') (sub : ∀ cid drv, runs cid drv → runs' cid drv) : Turns runs' c c' :=
  { turns with running := fun run => (turns.running run).imp_right (sub _ _) }

/-- A candidate that keeps its derivation, in a state that is neither running nor unplanned. -/
theorem Turns.calm (id : c'.id = c.id) (campaign : c'.campaign = c.campaign) (drv : c'.drv = c.drv)
    (run : c'.state ≠ .running) (new : c'.state ≠ .unplanned) (bare : c.drv = none → c.state.bare → c'.state.bare) :
    Turns runs c c' where
  id := id
  campaign := campaign
  running h := absurd h run
  bare none_ := .inr ⟨drv ▸ none_, bare (drv ▸ none_)⟩
  unplanned h := absurd h new

/-! ### Attempts and events -/

structure SameAttempt (a a' : Attempt) : Prop where
  id : a'.id = a.id
  campaign : a'.campaign = a.campaign
  spec : a'.spec = a.spec
  active : a'.state.active = a.state.active

theorem SameAttempt.refl (a : Attempt) : SameAttempt a a := ⟨rfl, rfl, rfl, rfl⟩

theorem SameAttempt.trans {a a' a'' : Attempt} (first : SameAttempt a a') (next : SameAttempt a' a'') : SameAttempt a a'' :=
  ⟨next.id.trans first.id, next.campaign.trans first.campaign, next.spec.trans first.spec, next.active.trans first.active⟩

/-- The replan requests that an event queues, each with its candidate. -/
def Event.asked : Event → List (Uuid × Nat)
  | .replanQueued _ request ids _ _ => ids.map (request, ·)
  | _ => []

/-- The replan requests that an event lists as skipped. -/
def Event.skips : Event → List (Uuid × Nat)
  | .replanSkipped _ rows => rows.map (fun r => (r.request, r.candidate))
  | _ => []

def Event.quiet (e : Event) : Prop := e.asked = [] ∧ e.skips = []

/-! ### Tables -/

/-- A change of derivations and of what is observed of attempts, and of nothing else. -/
structure SameTables (db db' : Db) : Prop where
  campaigns : db'.campaigns = db.campaigns
  candidates : db'.candidates = db.candidates
  attempts : db'.attempts = db.attempts
  events : db'.events = db.events
  replans : db'.replans = db.replans

/-- A change that neither begins nor ends an attempt, nor queues, consumes or skips a replan,
nor sets a policy. -/
structure Kept (runs : Uuid → Option Drv → Prop) (db db' : Db) : Prop where
  campaigns : db'.campaigns.map (fun c => (c.id, c.policy)) = db.campaigns.map (fun c => (c.id, c.policy))
  candidates : List.Forall₂ (Turns runs) db.candidates db'.candidates
  attempts : List.Forall₂ SameAttempt db.attempts db'.attempts
  events : ∃ es, db'.events = db.events ++ es ∧ ∀ e ∈ es, e.quiet
  replans : db'.replans = db.replans

theorem SameTables.refl (db : Db) : SameTables db db := ⟨rfl, rfl, rfl, rfl, rfl⟩

theorem SameTables.trans (first : SameTables db db') (next : SameTables db' db'') : SameTables db db'' :=
  ⟨next.campaigns.trans first.campaigns, next.candidates.trans first.candidates, next.attempts.trans first.attempts,
    next.events.trans first.events, next.replans.trans first.replans⟩

theorem turns_refl (cs : List Candidate) : List.Forall₂ (Turns runs) cs cs :=
  forall₂_same.2 fun c _ => .refl c

theorem attempts_refl (as : List Attempt) : List.Forall₂ SameAttempt as as :=
  forall₂_same.2 fun a _ => .refl a

theorem forall₂_trans {α : Type*} {R : α → α → Prop} (trans : ∀ a b c, R a b → R b c → R a c) {as bs cs : List α}
    (first : List.Forall₂ R as bs) (next : List.Forall₂ R bs cs) : List.Forall₂ R as cs := by
  induction first generalizing cs with
  | nil => exact next
  | cons head _ ih =>
    cases next with
    | cons head' tail' => exact .cons (trans _ _ _ head head') (ih tail')

theorem SameTables.kept (same : SameTables db db') : Kept runs db db' where
  campaigns := by rw [same.campaigns]
  candidates := same.candidates ▸ turns_refl _
  attempts := same.attempts ▸ attempts_refl _
  events := ⟨[], by simp [same.events], by simp⟩
  replans := same.replans

theorem Kept.refl (db : Db) : Kept runs db db := (SameTables.refl db).kept

theorem Kept.trans (first : Kept runs db db') (next : Kept runs db' db'') : Kept runs db db'' where
  campaigns := next.campaigns.trans first.campaigns
  candidates := forall₂_trans (R := Turns runs) (fun _ _ _ => Turns.trans) first.candidates next.candidates
  attempts := forall₂_trans (R := SameAttempt) (fun _ _ _ => SameAttempt.trans) first.attempts next.attempts
  events := by
    obtain ⟨es, same, quiet⟩ := first.events
    obtain ⟨es', same', quiet'⟩ := next.events
    refine ⟨es ++ es', by rw [same', same, append_assoc], fun e mem => ?_⟩
    rcases mem_append.1 mem with mem | mem
    exacts [quiet e mem, quiet' e mem]
  replans := next.replans.trans first.replans

theorem kept_candidates {p : Candidate → Bool} {f : Candidate → Candidate}
    (turns : ∀ c ∈ db.candidates, p c → Turns runs c (f c)) : Kept runs db (db.updateCandidates p f) where
  campaigns := rfl
  candidates := by
    refine forall₂_map_right_iff.2 (forall₂_same.2 fun c mem => ?_)
    split
    · exact turns c mem ‹_›
    · exact .refl c
  attempts := attempts_refl _
  events := ⟨[], by simp [Db.updateCandidates], by simp⟩
  replans := rfl

theorem kept_attempts {p : Attempt → Bool} {f : Attempt → Attempt} (same : ∀ a ∈ db.attempts, p a → SameAttempt a (f a)) :
    Kept runs db (db.updateAttempts p f) where
  campaigns := rfl
  candidates := turns_refl _
  attempts := by
    refine forall₂_map_right_iff.2 (forall₂_same.2 fun a mem => ?_)
    split
    · exact same a mem ‹_›
    · exact .refl a
  events := ⟨[], by simp [Db.updateAttempts], by simp⟩
  replans := rfl

theorem kept_event {e : Event} (quiet : e.quiet) : Kept runs db (db.event e) :=
  ⟨rfl, turns_refl _, attempts_refl _, ⟨[e], rfl, by simpa using quiet⟩, rfl⟩

theorem kept_campaign {cid : Uuid} {f : Campaign → Campaign} (same : ∀ c, (f c).id = c.id ∧ (f c).policy = c.policy) :
    Kept runs db (db.updateCampaign cid f) where
  campaigns := by
    simp only [Db.updateCampaign, map_map]
    refine map_congr_left fun c _ => ?_
    simp only [Function.comp]
    split
    · rw [(same c).1, (same c).2]
    · rfl
  candidates := turns_refl _
  attempts := attempts_refl _
  events := ⟨[], by simp [Db.updateCampaign], by simp⟩
  replans := rfl

theorem same_derivations {p : Derivation → Bool} {f : Derivation → Derivation} : SameTables db (db.updateDerivations p f) :=
  ⟨rfl, rfl, rfl, rfl, rfl⟩

theorem foldl_same {α : Type*} {f : Db → α → Db} (same : ∀ db a, SameTables db (f db a)) (as : List α) (db : Db) :
    SameTables db (as.foldl f db) := by
  induction as generalizing db with
  | nil => exact .refl db
  | cons a as ih => exact (same db a).trans (ih (f db a))

theorem same_addDerivation (db : Db) (shown : Drv × Info) : SameTables db (db.addDerivation shown) := by
  have inserted : SameTables db (db.insertDerivation shown.1 shown.2.name (shownOutputs (db.derivation? shown.1) shown.2)) := by
    rw [Db.insertDerivation]
    split
    exacts [.refl db, ⟨rfl, rfl, rfl, rfl, rfl⟩]
  have edge : ∀ (db : Db) (child : Drv × List String), SameTables db (db.insertDependency ⟨shown.1, child.1, child.2⟩) := by
    intro db child
    rw [Db.insertDependency]
    split
    exacts [.refl db, ⟨rfl, rfl, rfl, rfl, rfl⟩]
  exact ((inserted.trans same_derivations).trans same_derivations).trans (foldl_same edge _ _)

theorem same_addGraph (db : Db) (data : Graph) : SameTables db (db.addGraph data) := foldl_same same_addDerivation data db

theorem same_ingest (db : Db) (aid : Uuid) (log : List Record) : SameTables db (db.ingest aid log) := by
  refine foldl_same (fun db r => ?_) log db
  cases r with
  | start act drv =>
    rw [Db.observe]
    split
    exacts [.refl db, ⟨rfl, rfl, rfl, rfl, rfl⟩]
  | phase => exact ⟨rfl, rfl, rfl, rfl, rfl⟩

theorem same_insertTests (db : Db) (aid : Uuid) (drv : Drv) (phases : List String) :
    SameTables db (db.insertTests aid drv phases) := by
  refine foldl_same (fun db phase => ?_) phases db
  split
  exacts [.refl db, ⟨rfl, rfl, rfl, rfl, rfl⟩]

/-! ### Writes -/

/-- What is written within one commit, by the world's answers: candidates that keep their
derivations, derivations that keep their exclusions, what Nix shows of derivations that are known,
and what a planner has found. -/
inductive Written (w : World) (runs : Uuid → Option Drv → Prop) : Db → Db → Prop
  | refl (db : Db) : Written w runs db db
  | trans {db db' db'' : Db} : Written w runs db db' → Written w runs db' db'' → Written w runs db db''
  | candidates {db : Db} {p : Candidate → Bool} {f : Candidate → Candidate}
      (turns : ∀ c ∈ db.candidates, p c → Turns runs c (f c)) (drv : ∀ c, (f c).drv = c.drv) :
      Written w runs db (db.updateCandidates p f)
  | derivations {db : Db} {p : Derivation → Bool} {f : Derivation → Derivation}
      (same : ∀ d, p d → (f d).drv = d.drv ∧ (d.exclusion.isSome → (f d).exclusion.isSome)) :
      Written w runs db (db.updateDerivations p f)
  | attempts {db : Db} {p : Attempt → Bool} {f : Attempt → Attempt} (same : ∀ a ∈ db.attempts, p a → SameAttempt a (f a)) :
      Written w runs db (db.updateAttempts p f)
  | campaign {db : Db} {cid : Uuid} {f : Campaign → Campaign} (same : ∀ c, (f c).id = c.id ∧ (f c).policy = c.policy) :
      Written w runs db (db.updateCampaign cid f)
  | event {db : Db} {e : Event} (quiet : e.quiet) : Written w runs db (db.event e)
  | shown {db : Db} {drvs : List Drv} (known : ∀ d ∈ drvs, d ∈ db.derivations.map (·.drv) ∨ ∃ c ∈ db.candidates, c.drv = some d) :
      Written w runs db (db.addGraph (w.shown drvs))
  | planned {db : Db} {a : Attempt} {row : PlanRow} (found : row ∈ (w.worker a.id).rows) : Written w runs db (db.planRow a row)
  | ingested {db : Db} {aid : Uuid} {log : List Record} : Written w runs db (db.ingest aid log)
  | tested {db : Db} {aid : Uuid} {drv : Drv} {phases : List String} : Written w runs db (db.insertTests aid drv phases)

variable {w : World}

theorem kept_planRow (a : Attempt) (db : Db) (row : PlanRow) : Kept runs db (db.planRow a row) := by
  rw [Db.planRow]
  cases row.planned with
  | error message => exact kept_candidates fun _ _ _ => .calm rfl rfl rfl (by simp) (by simp) fun _ _ => .inr (.inl rfl)
  | recipe drv graph =>
    refine (same_addGraph db graph).kept.trans (kept_candidates fun c _ _ => ?_)
    refine ⟨rfl, rfl, fun run => ?_, nofun, fun new => ?_⟩
    · simp only at run
      split at run <;> cases run
    · simp only at new
      split at new <;> cases new

theorem Written.kept (written : Written w runs db db') : Kept runs db db' := by
  induction written with
  | refl db => exact .refl db
  | trans _ _ first next => exact first.trans next
  | candidates turns drv => exact kept_candidates turns
  | derivations same => exact same_derivations.kept
  | attempts same => exact kept_attempts same
  | campaign same => exact kept_campaign same
  | event quiet => exact kept_event quiet
  | shown known => exact (same_addGraph _ _).kept
  | planned found => exact kept_planRow _ _ _
  | ingested => exact (same_ingest _ _ _).kept
  | tested => exact (same_insertTests _ _ _ _).kept

theorem Written.mono (written : Written w runs db db') (sub : ∀ cid drv, runs cid drv → runs' cid drv) :
    Written w runs' db db' := by
  induction written with
  | refl db => exact .refl db
  | trans _ _ first next => exact first.trans next
  | candidates turns drv => exact .candidates (fun c mem chosen => (turns c mem chosen).mono sub) drv
  | derivations same => exact .derivations same
  | attempts same => exact .attempts same
  | campaign same => exact .campaign same
  | event quiet => exact .event quiet
  | shown known => exact .shown known
  | planned found => exact .planned found
  | ingested => exact .ingested
  | tested => exact .tested

theorem foldl_written {α : Type*} {f : Db → α → Db} {l : List α} (written : ∀ a ∈ l, ∀ db, Written w runs db (f db a))
    (db : Db) : Written w runs db (l.foldl f db) := by
  induction l generalizing db with
  | nil => exact .refl db
  | cons a l ih =>
    exact (written a mem_cons_self db).trans (ih (fun b mem => written b (mem_cons_of_mem _ mem)) (f db a))

/-! ### Refreshing -/

theorem observedState_cases (db : Db) (c : Candidate) :
    db.observedState c = .available ∨ db.observedState c = .failed ∨ db.observedState c = .queued := by
  rw [Db.observedState]
  split
  · exact .inl rfl
  · split
    exacts [.inr (.inl rfl), .inr (.inr rfl)]

theorem written_refreshObserved (db : Db) (cid : Uuid) : Written w runs db (db.refreshObserved cid) := by
  refine .candidates (fun c _ chosen => ?_) fun _ => rfl
  simp only [Bool.and_eq_true] at chosen
  have planned : c.drv ≠ none := fun none_ => by simp [none_] at chosen
  refine .calm rfl rfl rfl ?_ ?_ (fun none_ _ => absurd none_ planned) <;>
  · rcases observedState_cases db c with eq | eq | eq <;> simp [eq]

theorem written_refreshBlocked (db : Db) (cid : Uuid) : Written w runs db (db.refreshBlocked cid) := by
  refine .candidates (fun c _ chosen => ?_) fun _ => rfl
  simp only [Bool.and_eq_true] at chosen
  exact .calm rfl rfl rfl (by simp) (by simp) fun none_ _ => by simp [none_] at chosen

theorem written_refreshExcluded (db : Db) (cid : Uuid) : Written w runs db (db.refreshExcluded cid) :=
  .candidates (fun _ _ _ => .calm rfl rfl rfl (by simp) (by simp) fun _ _ => .inr (.inr rfl)) fun _ => rfl

theorem written_refreshInherited (db : Db) (cid : Uuid) : Written w runs db (db.refreshInherited cid) :=
  .candidates (fun _ _ _ => .calm rfl rfl rfl (by simp) (by simp) fun _ _ => .inr (.inr rfl)) fun _ => rfl

theorem written_refresh (db : Db) (cid : Uuid) : Written w runs db (db.refreshCandidates cid) :=
  (((written_refreshObserved db cid).trans (written_refreshBlocked _ cid)).trans (written_refreshExcluded _ cid)).trans
    (written_refreshInherited _ cid)

end Experiment
