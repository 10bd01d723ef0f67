import Nanofil.Experiment.Knowledge

/-! When a tick returns. -/
namespace Experiment
open List Option Closures Commits

variable {nix : Facts} {w : World} {op : Op} {db db' : Db} {s t : Controller} {c : Campaign} {a : Attempt} {cs : List Campaign}
  {as : List Attempt} {P : Controller → Prop}

def Never (_ : Error) (_ : Controller) : Prop := False

/-- Of any commits. -/
def Any (_ _ : Controller) : Prop := True

theorem any_commits {α : Type} {R : Controller → Controller → Prop} {m : Tx α} {Q : α → Controller → Prop}
    {E : Error → Controller → Prop} (holds : Holds R P m Q E) : Holds Any P m Q E :=
  holds.mono (fun _ _ _ => trivial) (fun _ h => h) (fun _ _ h => h) fun _ _ h => h

/-! ### Reconciliation -/

theorem finishDerivation_ok {e : Ended} {drv : Drv} (row : drv ∈ db.known) :
    ∃ db', Db.finishDerivation a e db drv = .ok db' ∧ db'.known = db.known := by
  obtain ⟨d, found⟩ := isSome_iff_exists.1 (derivation?_known.2 row)
  have tests : ∀ (db : Db) phases, (db.insertTests a.id drv phases).known = db.known := fun db phases => by
    rw [Db.known, (same_insertTests_graph db a.id drv phases).1, Db.known]
  rw [Db.finishDerivation, found]
  simp only
  split
  · refine ⟨_, rfl, ?_⟩
    have filled : ∀ (p : Bool) (origin : BuildOrigin), (if p then db.updateDerivations (·.drv = drv) (fun d =>
        { d with available := true, origin := origin, failure := none, evidenceAttempt := some a.id }) else db).known = db.known := by
      intro p origin
      split
      exacts [known_update fun _ _ => rfl, rfl]
    split
    · exact (tests _ _).trans (filled _ _)
    · exact filled _ _
  · split
    · exact ⟨_, rfl, known_update fun _ _ => rfl⟩
    · exact ⟨_, rfl, rfl⟩

theorem finishDerivations_ok (a : Attempt) (e : Ended) : ∀ {drvs : List Drv} {db : Db}, (∀ d ∈ drvs, d ∈ db.known) →
    ∃ db', drvs.foldlM (Db.finishDerivation a e) db = .ok db' := by
  intro drvs
  induction drvs with
  | nil => exact fun _ => ⟨_, rfl⟩
  | cons drv drvs ih =>
    intro db rows
    obtain ⟨db', done, same⟩ := finishDerivation_ok (a := a) (e := e) (rows drv mem_cons_self)
    have rows' : ∀ d ∈ drvs, d ∈ db'.known := fun d mem => same ▸ rows d (mem_cons_of_mem _ mem)
    obtain ⟨db'', rest⟩ := ih rows'
    refine ⟨db'', ?_⟩
    rw [foldlM_cons, done]
    exact rest

theorem LiveRow.rows (known : Known nix db) (live : LiveRow db a) : ∀ d ∈ a.spec.derivations, d ∈ db.known := by
  obtain ⟨row, mem, -, -, spec, -⟩ := live
  exact fun d work => known.attempts row mem d (spec ▸ work)

theorem finishAttempt_returns {reason : String} {truncated : Bool} :
    Holds Any (fun s => Ready cs (a :: as) s ∧ Known nix s.db) (finishAttempt w a reason truncated) (fun _ _ => True) Never := by
  refine .transaction (fun _ _ _ _ _ => ⟨trivial, trivial⟩) ?_
  rintro s e ⟨ready, known⟩ failed
  cases targets : a.spec.targets with
  | plan ids => simp [targets, bind, Except.bind, pure, Except.pure] at failed
  | build drvs =>
    obtain ⟨mid, done⟩ := finishDerivations_ok a
      ⟨reason, truncated, (w.worker a.id).failures, (w.worker a.id).unable, w.before a.id, w.valid (.ended a.id)⟩
      (LiveRow.rows known (ready.live a mem_cons_self))
    simp [targets, Db.finishBuild, done, bind, Except.bind, pure, Except.pure] at failed

theorem ingest_known {log : List Record} (truthful : Truthful nix w) :
    Holds Any (fun s => Ready cs as s ∧ Known nix s.db) (write (·.ingest a.id log)) (fun _ s => Ready cs as s ∧ Known nix s.db)
      Never := by
  have commits : Holds (Commit w .tick) (Ready cs as) (write (·.ingest a.id log)) (fun _ => Ready cs as) Never := ingest_commits
  have kept := commits.keeps fun _ _ commit => commit.known truthful
  exact any_commits (kept.mono (fun _ _ h => h) (fun _ h => h) (fun _ _ h => h) fun _ _ h => h.1)

/-- A pass over an attempt whose derivations have rows. -/
theorem reconcileAttempt_returns (truthful : Truthful nix w) :
    Holds (Commit w op) (fun s => Ready cs (a :: as) s ∧ Known nix s.db) (reconcileAttempt w a)
      (fun _ s => Ready cs as s ∧ Known nix s.db) Never := by
  have returns : Holds Any (fun s => Ready cs (a :: as) s ∧ Known nix s.db) (reconcileAttempt w a) (fun _ _ => True) Never := by
    refine .bind (ingest_known truthful) fun _ => ?_
    have skips : Holds Any (fun s => Ready cs (a :: as) s ∧ Known nix s.db) (pure () : Tx Unit) (fun _ _ => True) Never :=
      .pure fun _ _ => trivial
    cases (w.worker a.id).exit with
    | some exit =>
      simp only
      split
      · exact skips
      · exact .bind (ingest_known truthful) fun _ => finishAttempt_returns
    | none =>
      simp only
      split
      · exact .commit (fun _ _ => trivial) fun _ _ => trivial
      · split
        · split
          exacts [finishAttempt_returns, skips]
        · exact finishAttempt_returns
  have commits : Holds (Commit w op) (Ready cs (a :: as)) (reconcileAttempt w a) (fun _ => Ready cs as) Rests :=
    reconcileAttempt_commits
  have kept := commits.keeps fun _ _ commit => commit.known truthful
  exact (kept.and returns).mono (fun _ _ h => h) (fun _ h => ⟨h, h⟩) (fun _ _ h => h.1) fun _ _ h => h.2

theorem reconcile_returns (truthful : Truthful nix w) :
    Holds (Commit w op) (fun s => Ready cs [] s ∧ Known nix s.db) (reconcile w) (fun _ s => Ready cs [] s ∧ Known nix s.db) Never := by
  refine .read fun s pre => ?_
  have rounds := Holds.eachRest (R := Commit w op) (f := reconcileAttempt w) (E := Never)
    (P := fun as s => Ready cs as s ∧ Known nix s.db) (fun _ _ => reconcileAttempt_returns truthful) s.db.activeAttempts
  obtain ⟨distinct, live⟩ := activeAttempts_live pre.1.indexed
  exact rounds.from_ ⟨⟨pre.1.indexed, pre.1.rows, distinct, live⟩, pre.2⟩

/-- What a tick keeps, and relies on. -/
structure Sound (nix : Facts) (w : World) (s : Controller) : Prop where
  indexed : Indexed s.db
  standing : Standing nix s.db
  stored : Stored w s.db

theorem Sound.commit (permitted : Permitted nix w .tick r) (sound : Sound nix w s) (commit : Commit w .tick s t) : Sound nix w t :=
  ⟨commit.indexed sound.indexed, commit.standing permitted sound.indexed sound.standing, commit.stored sound.stored⟩

theorem Sound.after {α : Type} {m : Tx α} (permitted : Permitted nix w .tick r) (sound : Sound nix w s)
    (rows : ∀ c ∈ cs, HasRow s.db c) (commits : Holds (Commit w .tick) (Ready cs []) m (fun _ => Ready cs []) Rests) :
    Holds Any (fun t => t = s) m (fun _ t => Sound nix w t ∧ ∀ c ∈ cs, HasRow t.db c) (fun _ _ => True) := by
  have ready : Ready cs [] s := ⟨sound.indexed, rows, nodup_nil, forall_mem_nil _⟩
  exact (any_commits (commits.keeps fun _ _ commit sound => sound.commit permitted commit)).mono (fun _ _ h => h)
    (fun t same => same ▸ ⟨ready, sound⟩) (fun _ t h => ⟨h.2, h.1.rows⟩) fun _ _ _ => trivial

/-! ### What admission finds -/

/-- All that a derivation depends on is in scope. -/
def Db.InScope (db : Db) (d : Drv) : Prop := ∀ x ∈ db.closure d, db.exclusionOf x = none

theorem excludedDependency_none {d : Drv} : db.excludedDependency d = none ↔ db.InScope d := by
  simp only [Db.excludedDependency, findSome?_eq_none_iff, Db.InScope, Db.exclusionOf]
  refine forall₂_congr fun x _ => ?_
  cases db.derivation? x with
  | none => simp
  | some row => simp [filter_eq_none_iff]

theorem checkScope_ok {targets : List Drv} (scope : ∀ d ∈ targets, db.InScope d) : db.checkScope targets = .ok () := by
  have none_ : targets.findSome? db.excludedDependency = none :=
    findSome?_eq_none_iff.2 fun d mem => excludedDependency_none.2 (scope d mem)
  rw [Db.checkScope, none_]

/-- The derivations that admission takes a campaign's builds from. -/
def Db.candidatesOf (db : Db) (c : Campaign) : List Drv :=
  (db.queuedDrvs c.id).take (max c.policy.batchSize (min 256 c.policy.planAhead))

/-- Builds of a campaign may be admitted: nothing holds it, and the active attempts, if any, are
its own, which looks ahead and, where it is batched, has a lane for one more. -/
def Db.open_ (db : Db) (w : World) (c : Campaign) : Bool :=
  w.hold = "" && db.activeAttempts.all (·.campaign = c.id) && (db.activeAttempts = [] || c.policy.planAhead ≠ 0) &&
    (c.policy.rolling || (buildPolicy c.policy db.activeBuilds .local_ []).isSome)

/-- What admission takes for a campaign's builds depends on nothing out of scope, and, where a
batch may be followed by a plan, on no derivation whose candidate is to be planned again. -/
structure Calm (w : World) (c : Campaign) (db : Db) : Prop where
  scope : db.open_ w c → ∀ d ∈ db.candidatesOf c, db.excludedDependency d = none
  apart : db.open_ w c → c.policy.rolling = false → c.policy.planAhead ≠ 0 → db.activeAttempts.all (!·.isPlan) →
    ∀ rc ∈ db.campaignReplans c.id, rc.2.eligible → ∀ d ∈ db.candidatesOf c, rc.2.drv.any (· ∈ db.closure d) = false

/-- A change of what is known of derivations in scope, and of fewer requests. -/
structure Mild (db db' : Db) : Prop where
  scope : SameScope db db'
  candidates : db'.candidates = db.candidates
  attempts : db'.attempts = db.attempts
  replans : ∀ r ∈ db'.replans, r ∈ db.replans

theorem Mild.refl (db : Db) : Mild db db := ⟨.refl db, rfl, rfl, fun _ mem => mem⟩

theorem Mild.trans {db'' : Db} (first : Mild db db') (next : Mild db' db'') : Mild db db'' :=
  ⟨first.scope.trans next.scope, next.candidates.trans first.candidates, next.attempts.trans first.attempts,
    fun r mem => first.replans r (next.replans r mem)⟩

theorem SameScope.inScope (same : SameScope db db') {d : Drv} : db'.InScope d ↔ db.InScope d :=
  forall_congr' fun x => by rw [same.closure, same.exclusionOf]

theorem Mild.active (mild : Mild db db') : db'.activeAttempts = db.activeAttempts := by
  rw [Db.activeAttempts, mild.attempts, Db.activeAttempts]

theorem Mild.builds (mild : Mild db db') : db'.activeBuilds = db.activeBuilds := by
  rw [Db.activeBuilds, mild.active, Db.activeBuilds]

theorem Mild.open_ (mild : Mild db db') : db'.open_ w c = db.open_ w c := by
  rw [Db.open_, mild.active, mild.builds, Db.open_]

theorem Mild.candidatesOf (mild : Mild db db') : db'.candidatesOf c = db.candidatesOf c := by
  rw [Db.candidatesOf, Db.queuedDrvs, mild.candidates, Db.candidatesOf, Db.queuedDrvs]

variable {cid : Uuid} {rc : Replan × Candidate} {drvs : List Drv} {x : Candidate}

theorem mem_campaignReplans : rc ∈ db.campaignReplans cid ↔
    rc.1 ∈ db.replans ∧ db.candidates.find? (fun x => x.id = rc.1.candidate && x.campaign = cid) = some rc.2 := by
  obtain ⟨r, x⟩ := rc
  simp only [Db.campaignReplans, mem_filterMap, map_eq_some_iff, Prod.mk.injEq]
  constructor
  · rintro ⟨r', mem, x', found, rfl, rfl⟩
    exact ⟨mem, found⟩
  · rintro ⟨mem, found⟩
    exact ⟨r, mem, x, found, rfl, rfl⟩

theorem Mild.campaignReplans (mild : Mild db db') : ∀ rc ∈ db'.campaignReplans cid, rc ∈ db.campaignReplans cid := by
  intro rc mem
  obtain ⟨mem, found⟩ := mem_campaignReplans.1 mem
  exact mem_campaignReplans.2 ⟨mild.replans rc.1 mem, mild.candidates ▸ found⟩

theorem Calm.mild (calm : Calm w c db) (mild : Mild db db') : Calm w c db' := by
  constructor
  · rw [mild.open_, mild.candidatesOf]
    exact fun open_ d mem => excludedDependency_none.2 (mild.scope.inScope.2 (excludedDependency_none.1 (calm.scope open_ d mem)))
  · rw [mild.open_, mild.candidatesOf, mild.active]
    intro open_ batched ahead planless rc mem eligible d mem'
    have apart := calm.apart open_ batched ahead planless rc (mild.campaignReplans rc mem) eligible d mem'
    cases planned : rc.2.drv with
    | none => rfl
    | some drv => simpa [planned, mild.scope.closure] using apart

/-! ### Graphs -/

theorem shown_mild (truthful : Truthful nix w) (known : Known nix db) (rows : ∀ d ∈ drvs, d ∈ db.known) :
    Mild db (db.addGraph (w.shown drvs)) := by
  have tables := same_addGraph db (w.shown drvs)
  refine ⟨addGraph_again known.agrees fun e mem => ?_, tables.candidates, tables.attempts, fun r mem => tables.replans ▸ mem⟩
  obtain ⟨asked, tells⟩ := truthful.shown drvs e mem
  exact ⟨rows e.1 asked, tells⟩

theorem prepareGraph_returns {targets : List Drv} {rolling : Bool} (truthful : Truthful nix w) (known : Known nix s.db) :
    Holds Any (fun t => t = s) (prepareGraph w targets rolling) (fun _ t => Mild s.db t.db) Never := by
  refine .read fun s' here => ?_
  subst here
  simp only
  split
  · exact .pure fun t same => same ▸ .refl _
  · refine .bind (Q := fun _ t => Mild s'.db t.db) ?_ fun _ => .bind (Q := fun _ t => Mild s'.db t.db) ?_ fun _ => ?_
    · refine .commit (fun _ _ => trivial) fun t same => ?_
      subst same
      exact shown_mild truthful known fun d mem => uninspected_known mem
    · exact .commit (fun _ _ => trivial) fun t mild => mild
    · exact .read fun t mild => .pure fun t' same => same ▸ mild

/-! ### Builds -/

theorem lanes_ok {plan : Bool} (own : ∀ a ∈ db.activeAttempts, a.campaign = c.id)
    (planless : plan → ∀ a ∈ db.activeAttempts, a.isPlan = false) (ahead : db.activeAttempts = [] ∨ c.policy.planAhead ≠ 0) :
    db.checkLanes c plan = .ok () := by
  rw [Db.checkLanes, if_neg, if_neg, if_neg]
  · simp only [Bool.and_eq_true, decide_eq_true_eq, not_and]
    exact fun some_ none_ => ahead.elim some_ fun ahead => ahead none_
  · simp only [Bool.and_eq_true, List.any_eq_true, not_and, not_exists]
    intro plans a mem is
    rw [planless plans a mem] at is
    cases is
  · simpa using own

theorem buildSpec_grants {it : BuildIntent} {r : Reservation} (observed : it.observation = some r)
    (lanes : s.db.checkLanes c false = .ok ()) (scope : ∀ d ∈ it.targets, s.db.InScope d)
    (policy : (buildPolicy c.policy s.db.activeBuilds (it.location.getD .local_) s.machines).isSome)
    (apart : s.db.overlap (s.db.needed it.targets r.available) r.held = false)
    (remote : it.location = some .remote → s.db.remoteEligible (s.db.needed it.targets r.available) s.machines) :
    ∃ spec, buildSpec w c it s = .ok spec := by
  obtain ⟨effective, granted⟩ := isSome_iff_exists.1 policy
  have policy' : effectivePolicy c (it.location.getD .local_) s = .ok effective := by rw [effectivePolicy, granted]
  have available : admissionAvailable c it r s = .ok (some r.available) := by
    rw [admissionAvailable, observed]
    simp only [isSome_some, Bool.true_or, if_true, apart, Bool.false_eq_true, if_false]
    rw [if_neg]
    simp only [Bool.and_eq_true, decide_eq_true_eq, Bool.not_eq_true', not_and, Bool.not_eq_false]
    exact remote
  rw [buildSpec, lanes, checkScope_ok scope]
  simp only [bind, Except.bind, policy', observed, getD_some, available]
  exact ⟨_, rfl⟩

theorem buildTargets_returns {targets : List Drv} {location : Option Location} {observation : Option Reservation}
    (granted : ∃ spec, buildSpec w c (s.db.buildIntent c targets location observation) s = .ok spec) :
    Holds Any (fun t => t = s) (buildTargets w c targets location observation) (fun _ t => ∃ spec,
      buildSpec w c (s.db.buildIntent c targets location observation) s = .ok spec ∧ t = { s with db := s.db.intend c spec }) Never := by
  obtain ⟨spec, granted⟩ := granted
  refine .transaction (fun s' t aid here done => ⟨trivial, spec, granted, ?_⟩) fun s' e here failed => ?_
  · subst here
    change (buildSpec w c (s'.db.buildIntent c targets location observation) s' >>= _) = _ at done
    rw [granted] at done
    cases done
    rfl
  · subst here
    change (buildSpec w c (s'.db.buildIntent c targets location observation) s' >>= _) = _ at failed
    rw [granted] at failed
    cases failed

/-- What the admission of a campaign's builds may change. -/
structure Extends (c : Campaign) (db db' : Db) : Prop where
  stay : ∀ a ∈ db.activeAttempts, a ∈ db'.activeAttempts
  added : ∀ a ∈ db'.activeAttempts, a ∈ db.activeAttempts ∨ a.campaign = c.id ∧ a.isPlan = false
  replans : ∀ r ∈ db'.replans, r ∈ db.replans
  requests : ∀ cid, ∀ rc ∈ db'.campaignReplans cid, rc.2.eligible → rc ∈ db.campaignReplans cid
  onward : Mild db db' ∨ ∃ a ∈ db'.activeAttempts, a.campaign = c.id

theorem Mild.extends_ (mild : Mild db db') : Extends c db db' where
  stay _ mem := mild.active ▸ mem
  added _ mem := .inl (mild.active ▸ mem)
  replans := mild.replans
  requests _ rc mem _ := mild.campaignReplans rc mem
  onward := .inl mild

theorem Extends.trans {db'' : Db} (first : Extends c db db') (next : Extends c db' db'') : Extends c db db'' where
  stay a mem := next.stay a (first.stay a mem)
  added a mem := (next.added a mem).elim (first.added a) .inr
  replans r mem := first.replans r (next.replans r mem)
  requests cid rc mem eligible := first.requests cid rc (next.requests cid rc mem eligible) eligible
  onward := by
    rcases first.onward with mild | ⟨a, mem, own⟩
    · exact next.onward.imp mild.trans id
    · exact .inr ⟨a, next.stay a mem, own⟩

theorem Extends.own (extends_ : Extends c db db') (own : ∀ a ∈ db.activeAttempts, a.campaign = c.id) :
    ∀ a ∈ db'.activeAttempts, a.campaign = c.id := fun a mem => (extends_.added a mem).elim (own a) And.left

theorem running_ineligible (x : Candidate) {drv : Drv} (planned : x.drv = some drv) :
    ({ x with state := .running } : Candidate).eligible = false := by
  simp [Candidate.eligible, replanEligible, planned]

/-- Its candidates become running, so that no request for one of them stays eligible. -/
theorem build_extends {spec : Spec} (targets : spec.targets = .build drvs) : Extends c db (db.intend c spec) where
  stay a mem := by
    rw [intend_active]
    exact mem_append_left _ mem
  added a mem := by
    rw [intend_active] at mem
    refine (mem_append.1 mem).imp id fun new => ?_
    rw [mem_singleton.1 new]
    simp [Attempt.isPlan, targets]
  replans r mem := by
    rw [intend_replans] at mem
    exact mem_of_mem_filter mem
  requests cid rc mem eligible := by
    obtain ⟨mem, found⟩ := mem_campaignReplans.1 mem
    rw [intend_replans] at mem
    refine mem_campaignReplans.2 ⟨mem_of_mem_filter mem, ?_⟩
    simp only [Db.intend, targets, Db.event, Db.updateCandidates, find?_map, map_eq_some_iff] at found
    obtain ⟨x, found, turned⟩ := found
    have same : ((fun x : Candidate => x.id = rc.1.candidate && x.campaign = cid : Candidate → Bool) ∘ fun x : Candidate =>
        if (x.campaign = c.id && x.drv.any (· ∈ drvs)) = true then { x with state := .running } else x) =
        fun x => x.id = rc.1.candidate && x.campaign = cid := by
      funext x
      simp only [Function.comp]
      split <;> rfl
    split at turned
    · rename_i root
      simp only [Bool.and_eq_true, Option.any_eq_true] at root
      obtain ⟨-, d, planned, -⟩ := root
      rw [← turned, running_ineligible x planned] at eligible
      cases eligible
    · rw [← turned, ← found]
      exact congrArg (List.find? · db.candidates) same.symm
  onward := by
    right
    rw [intend_active]
    exact ⟨_, mem_append_right _ mem_cons_self, rfl⟩

theorem place_ok {s : Controller} {needed : List Drv} {remote local_ : Bool} {location : Location}
    (placed : s.place needed remote local_ = some location) :
    location = .remote ∧ remote ∧ s.db.remoteEligible needed s.machines ∨ location = .local_ ∧ local_ := by
  rw [Controller.place] at placed
  split at placed
  · rename_i takes
    rw [Bool.and_eq_true] at takes
    exact .inl ⟨(Option.some.inj placed).symm, takes⟩
  · split at placed
    · exact .inr ⟨(Option.some.inj placed).symm, ‹_›⟩
    · cases placed

/-- Each candidate of the rolling loop is given a build only where one may be. -/
theorem admitRolling_returns {available : List StorePath} (own : ∀ a ∈ s.db.activeAttempts, a.campaign = c.id)
    (ahead : c.policy.planAhead ≠ 0) : ∀ {drvs held : List Drv} {admitted : Bool},
    Holds Any (fun t => Extends c s.db t.db ∧ ∀ d ∈ drvs, t.db.InScope d) (admitRolling w c available drvs held admitted)
      (fun _ t => Extends c s.db t.db) Never := by
  intro drvs
  induction drvs with
  | nil => exact .pure fun t pre => pre.1
  | cons drv drvs ih =>
    intro held admitted
    refine .read fun t pre => ?_
    have rest : ∀ d ∈ drvs, t.db.InScope d := fun d mem => pre.2 d (mem_cons_of_mem _ mem)
    simp only
    split
    · exact .pure fun t' same => same ▸ pre.1
    · split
      · exact ih.from_ ⟨pre.1, rest⟩
      · rename_i apart
        split
        · exact ih.from_ ⟨pre.1, rest⟩
        · rename_i location placed
          have granted : ∃ spec, buildSpec w c (t.db.buildIntent c [drv] (some location) (some ⟨held, available⟩)) t = .ok spec := by
            refine buildSpec_grants rfl (lanes_ok (pre.1.own own) nofun (.inr ahead)) (fun d mem => ?_) ?_
              (Bool.not_eq_true _ ▸ apart) fun same => ?_
            · rw [mem_singleton.1 mem]
              exact pre.2 drv mem_cons_self
            · rcases place_ok placed with ⟨rfl, remote, -⟩ | ⟨rfl, local_⟩
              exacts [remote, local_]
            · cases same
              rcases place_ok placed with ⟨-, -, takes⟩ | ⟨never, -⟩
              exacts [takes, nomatch never]
          refine .bind (buildTargets_returns granted) fun _ => ih.mono (fun _ _ h => h) ?_ (fun _ _ h => h) fun _ _ h => h
          rintro t' ⟨spec, submitted, rfl⟩
          exact ⟨pre.1.trans (build_extends (buildSpec_targets submitted)), fun d mem =>
            (intend_graph t.db c spec).scope.inScope.2 (rest d mem)⟩

theorem buildPolicy_local {policy : Policy} {active : List Attempt} (machines machines' : List Machine) :
    buildPolicy policy active .local_ machines = buildPolicy policy active .local_ machines' := by
  simp [buildPolicy]

/-- A batch overlaps what one of its targets does. -/
theorem overlap_flat {targets held : List Drv} {available : List StorePath}
    (each : ∀ d ∈ targets, db.overlap (db.needed [d] available) held = false) :
    db.overlap (db.needed targets available) held = false := by
  rw [Db.overlap, Bool.or_eq_false_iff, List.any_eq_false, List.any_eq_false]
  have parts := fun d mem => Bool.or_eq_false_iff.1 (each d mem)
  constructor
  · intro x mem
    obtain ⟨d, target, need⟩ := needed_flat.1 mem
    exact List.any_eq_false.1 (parts d target).1 x need
  · intro path mem
    obtain ⟨x, mem, output⟩ := mem_flatMap.1 mem
    obtain ⟨d, target, need⟩ := needed_flat.1 mem
    exact List.any_eq_false.1 (parts d target).2 path (mem_flatMap.2 ⟨x, need, output⟩)

theorem intend_activeDrvs {spec : Spec} (targets : spec.targets = .build drvs) :
    (db.intend c spec).activeDrvs = db.activeDrvs ++ spec.derivations := by
  simp [Db.activeDrvs, Db.activeBuilds, intend_active, filter_append, Attempt.isBuild, Attempt.isPlan, targets]

/-- A batch whose targets are in scope and overlap nothing that is held, where a lane is free. -/
theorem buildBatch_returns {targets : List Drv} {r : Reservation} (own : ∀ a ∈ s.db.activeAttempts, a.campaign = c.id)
    (ahead : s.db.activeAttempts = [] ∨ c.policy.planAhead ≠ 0)
    (lane : (buildPolicy c.policy s.db.activeBuilds .local_ s.machines).isSome)
    (each : ∀ d ∈ targets, s.db.InScope d ∧ s.db.overlap (s.db.needed [d] r.available) r.held = false) :
    Holds Any (fun t => t = s) (buildTargets w c targets none (some r)) (fun _ t => Extends c s.db t.db ∧
      ∀ d ∈ t.db.activeDrvs, d ∈ s.db.activeDrvs ∨ ∃ q ∈ targets, d ∈ s.db.closure q) Never := by
  have granted : ∃ spec, buildSpec w c (s.db.buildIntent c targets none (some r)) s = .ok spec :=
    buildSpec_grants rfl (lanes_ok own nofun ahead) (fun d mem => (each d mem).1) lane
      (overlap_flat fun d mem => (each d mem).2) nofun
  refine (buildTargets_returns granted).mono (fun _ _ h => h) (fun _ h => h) ?_ fun _ _ h => h
  rintro - t ⟨spec, submitted, rfl⟩
  have spec_targets := buildSpec_targets submitted
  refine ⟨build_extends spec_targets, fun d mem => ?_⟩
  rw [intend_activeDrvs spec_targets, buildSpec_derivations submitted] at mem
  refine (mem_append.1 mem).imp id fun new => ?_
  simpa only [Db.buildIntent, mem_dedup, mem_flatMap] using new

theorem Mild.activeDrvs (mild : Mild db db') : db'.activeDrvs = db.activeDrvs := by rw [Db.activeDrvs, mild.builds, Db.activeDrvs]

/-- What is built of a batch, if one is admitted, is what the candidates that it was taken from
depend on. -/
structure Batched (c : Campaign) (admitted : Bool) (db db' : Db) : Prop where
  none_ : admitted = false → Mild db db'
  drvs : ∀ d ∈ db'.activeDrvs, d ∈ db.activeDrvs ∨ ∃ q ∈ db.candidatesOf c, d ∈ db.closure q

theorem Mild.batched (mild : Mild db db') : Batched c false db db' := ⟨fun _ => mild, fun _ mem => .inl (mild.activeDrvs ▸ mem)⟩

theorem admitBuilds_returns (truthful : Truthful nix w) (known : Known nix s.db) (own : ∀ a ∈ s.db.activeAttempts, a.campaign = c.id)
    (ahead : s.db.activeAttempts = [] ∨ c.policy.planAhead ≠ 0) (lookahead : c.policy.rolling → c.policy.planAhead ≠ 0)
    (lane : c.policy.rolling = false → (buildPolicy c.policy s.db.activeBuilds .local_ s.machines).isSome)
    (scope : ∀ d ∈ s.db.candidatesOf c, s.db.InScope d) :
    Holds Any (fun t => t = s) (admitBuilds w c)
      (fun admitted t => Extends c s.db t.db ∧ (c.policy.rolling = false → Batched c admitted s.db t.db)) Never := by
  refine .read fun s' here => ?_
  subst here
  refine .bind (prepareGraph_returns truthful known) fun observed => .read fun t mild => ?_
  have scope' : ∀ d ∈ s'.db.candidatesOf c, t.db.InScope d := fun d mem => mild.scope.inScope.2 (scope d mem)
  have own' := mild.extends_.own (c := c) own
  simp only
  split
  · rename_i rolling
    refine ((admitRolling_returns own' (lookahead rolling)).mono (fun _ _ h => h) ?_ ?_ fun _ _ h => h)
    · rintro t' rfl
      exact ⟨(Mild.refl _).extends_, scope'⟩
    · exact fun _ t' extends_ => ⟨mild.extends_.trans extends_, fun batched => by simp [rolling] at batched⟩
  · rename_i batched
    rw [Bool.not_eq_true] at batched
    split
    · exact .pure fun t' same => same ▸ ⟨mild.extends_, fun _ => mild.batched⟩
    · have lane' : (buildPolicy c.policy t.db.activeBuilds .local_ t.machines).isSome := by
        rw [mild.builds, buildPolicy_local t.machines s'.machines]
        exact lane batched
      refine .bind ((buildBatch_returns own' (mild.active ▸ ahead) lane' (batch_all (forall_mem_nil _)
        fun d mem apart => ⟨scope' d mem, apart⟩)).mono (fun _ _ h => h) (fun _ h => h) (fun _ _ h => h) fun _ _ h => h)
          fun _ => .pure ?_
      rintro t' ⟨extends_, drvs⟩
      refine ⟨mild.extends_.trans extends_, fun _ => ⟨nofun, fun d mem => ?_⟩⟩
      rcases drvs d mem with old | ⟨q, target, below⟩
      · exact .inl (mild.activeDrvs ▸ old)
      · have asked := batch_all (P := fun q => q ∈ s'.db.candidatesOf c) (forall_mem_nil _) (fun d mem _ => mem) q target
        exact .inr ⟨q, asked, mild.scope.closure.1 below⟩

/-! ### Plans -/

theorem candidate_found (indexed : Indexed db) (mem : x ∈ db.candidates) :
    db.candidates.find? (fun y => y.id = x.id && y.campaign = x.campaign) = some x := by
  have distinct : (db.candidates.map (·.id)).Nodup := indexed.candidates ▸ nodup_range
  cases found : db.candidates.find? (fun y => y.id = x.id && y.campaign = x.campaign) with
  | none => simpa using find?_eq_none.1 found x mem
  | some y =>
    have same := find?_some found
    simp only [Bool.and_eq_true, decide_eq_true_eq] at same
    rw [inj_on_of_nodup_map distinct (mem_of_find?_eq_some found) mem same.1]

theorem campaign_found (indexed : Indexed db) (row : HasRow db c) :
    ∃ c', db.campaign c.id = .ok c' ∧ c'.id = c.id ∧ c'.policy = c.policy := by
  obtain ⟨row, mem, id, policy⟩ := row
  have distinct : (db.campaigns.map (·.id)).Nodup := indexed.campaigns ▸ nodup_range
  cases found : db.campaign? c.id with
  | none => simpa [id] using find?_eq_none.1 found row mem
  | some c' =>
    have same : c'.id = c.id := by simpa using find?_some found
    have eq := inj_on_of_nodup_map distinct (mem_of_find?_eq_some found) mem (same.trans id.symm)
    exact ⟨c', by rw [Db.campaign, found], same, eq ▸ policy⟩

theorem mapM_ok {α β : Type} {f : α → Except Error β} : ∀ {l : List α}, (∀ a ∈ l, ∃ b, f a = .ok b) → ∃ bs, l.mapM f = .ok bs := by
  intro l
  induction l with
  | nil => exact fun _ => ⟨[], rfl⟩
  | cons a l ih =>
    intro each
    obtain ⟨b, first⟩ := each a mem_cons_self
    obtain ⟨bs, rest⟩ := ih fun a' mem => each a' (mem_cons_of_mem _ mem)
    exact ⟨b :: bs, by rw [mapM_cons, first, rest]; rfl⟩

/-- A plan of candidates that may be planned, where the planner is free. -/
theorem plan_returns {ids : List Nat} {revised : Option Origin} (indexed : Indexed s.db) (row : HasRow s.db c)
    (lanes : s.db.checkLanes c true = .ok ()) (some_ : ids ≠ []) (few : ids.length ≤ 64) (distinct : ids.Nodup)
    (source : ∀ o, revised = some o → validateSource w o = .ok ())
    (each : ∀ id ∈ ids, ∃ x, s.db.checkPlan c.id revised.isSome id = .ok x) :
    Holds Any (fun t => t = s) (plan w c.id ids revised) (fun _ t => ∃ a ∈ t.db.activeAttempts, a.campaign = c.id) Never := by
  obtain ⟨c', found, id, policy⟩ := campaign_found indexed row
  have lanes' : s.db.checkLanes c' true = .ok () := by rw [← lanes, Db.checkLanes, Db.checkLanes, id, policy]
  obtain ⟨xs, checked⟩ := mapM_ok each
  have fits : ¬ (ids = [] ∨ 64 < ids.length ∨ ¬ ids.Nodup) := by simp [some_, few, distinct]
  have made : ∃ it, planIntent w c.id ids revised s = .ok (c', it) := by
    rw [planIntent, found]
    simp only [bind, Except.bind, if_neg fits]
    cases revised with
    | none =>
      simp only [isSome_none] at checked
      simp only [checked]
      exact ⟨_, rfl⟩
    | some o =>
      simp only [isSome_some] at checked
      simp only [checked, source o rfl]
      exact ⟨_, rfl⟩
  obtain ⟨it, made⟩ := made
  refine .read fun s' here => ?_
  subst here
  rw [made]
  refine .bind (Q := fun it' t => t = s' ∧ it' = (c', it)) (.pure fun t same => ⟨same, rfl⟩) fun it' => ?_
  refine .transaction ?_ ?_
  · rintro s t aid ⟨rfl, rfl⟩ done
    rw [planSpec, lanes'] at done
    cases done
    refine ⟨trivial, ?_⟩
    simp only [intend_active]
    exact ⟨_, mem_append_right _ mem_cons_self, id⟩
  · rintro s e ⟨rfl, rfl⟩ failed
    rw [planSpec, lanes'] at failed
    cases failed

theorem quota_few (ahead queued : Nat) : quota ahead queued ≤ 32 := by
  rw [quota]
  split
  · exact le_rfl
  · exact min_le_left _ _

/-- The requests that are not dropped can be planned, but for the derivations of builds that the
admission does not take for active. -/
theorem skipReplans_clear
    (mem : rc ∈ (db.skipReplans cid drvs).campaignReplans cid) : rc.2.eligible ∧ rc.2.drv.any (· ∈ drvs) = false := by
  obtain ⟨row, found⟩ := mem_campaignReplans.1 mem
  rw [(skipReplans_rows db cid drvs).2.1] at found
  have old := mem_campaignReplans.2 ⟨skipReplans_sub db cid drvs rc.1 row, found⟩
  by_contra bad
  have bad' : rc ∈ (db.campaignReplans cid).filter (fun rc => !rc.2.eligible || rc.2.drv.any (· ∈ drvs)) := by
    refine mem_filter.2 ⟨old, ?_⟩
    rw [not_and_or, Bool.not_eq_true, Bool.not_eq_false] at bad
    rcases bad with bad | bad <;> simp [bad]
  rw [Db.skipReplans] at row
  simp only at row
  rw [if_neg (ne_nil_of_mem bad')] at row
  simpa using List.all_eq_true.1 (mem_filter.1 row).2 rc bad'

theorem skip_mild (db : Db) (cid : Uuid) (drvs : List Drv) : Mild db (db.skipReplans cid drvs) := by
  obtain ⟨-, candidates, attempts⟩ := skipReplans_rows db cid drvs
  have graph : SameGraph db (db.skipReplans cid drvs) := by
    rw [Db.skipReplans]
    simp only
    split <;> exact ⟨rfl, rfl⟩
  exact ⟨graph.scope, candidates, attempts, skipReplans_sub db cid drvs⟩

/-- The requests beside one of a campaign are the campaign's too. -/
theorem requested_rows (indexed : Indexed db) (owned : db.Owned)
    (mem : rc ∈ db.campaignReplans cid) {id : Nat} (asked : id ∈ db.requested rc.1.request) :
    ∃ rc' ∈ db.campaignReplans cid, rc'.1.candidate = id := by
  obtain ⟨owner, owns⟩ := owned
  obtain ⟨row, found⟩ := mem_campaignReplans.1 mem
  obtain ⟨x, mem_x, id_x, own_x⟩ := owns rc.1 row
  have here := find?_some found
  simp only [Bool.and_eq_true, decide_eq_true_eq] at here
  have distinct : (db.candidates.map (·.id)).Nodup := indexed.candidates ▸ nodup_range
  have same := inj_on_of_nodup_map distinct (mem_of_find?_eq_some found) mem_x (here.1.trans id_x.symm)
  simp only [Db.requested, mem_insertionSort, List.mem_map, mem_filter, decide_eq_true_eq] at asked
  obtain ⟨r', ⟨row', request⟩, rfl⟩ := asked
  obtain ⟨x', mem_x', id_x', own_x'⟩ := owns r' row'
  have cid' : x'.campaign = cid := by rw [own_x', request, ← own_x, ← same, here.2]
  exact ⟨(r', x'), mem_campaignReplans.2 ⟨row', by rw [← id_x', ← cid']; exact candidate_found indexed mem_x'⟩, rfl⟩

theorem eligible_replannable (eligible : x.eligible) : x.drv.isSome → replannable x.state := by
  intro planned
  rw [Candidate.eligible, replanEligible, if_neg (by simpa [isNone_iff_eq_none, isSome_iff_ne_none] using planned)]
    at eligible
  simp only [Bool.or_eq_true, Bool.and_eq_true, decide_eq_true_eq] at eligible
  rcases eligible with ((state | state) | state) | ⟨state, -⟩ <;> simp [replannable, state]

/-- A request that stays can be planned. -/
theorem checkPlan_revised (mem : rc ∈ db.campaignReplans cid) (eligible : rc.2.eligible)
    (free : rc.2.drv.any (· ∈ db.activeDrvs) = false) : db.checkPlan cid true rc.1.candidate = .ok rc.2 := by
  rw [Db.checkPlan, (mem_campaignReplans.1 mem).2]
  simp only [eligible, Bool.and_self, Bool.not_true, Bool.and_false, Bool.false_eq_true, if_false, Bool.false_and, Bool.true_and, free]
  rw [if_neg]
  cases planned : rc.2.drv with
  | none => simp
  | some drv => simp [eligible_replannable eligible (by simp [planned])]

theorem checkPlan_unplanned (indexed : Indexed db) (mem : x ∈ db.candidates) (state : x.state = .unplanned)
    (none_ : x.drv = none) (unasked : db.campaignReplans x.campaign = []) : db.checkPlan x.campaign false x.id = .ok x := by
  have found := candidate_found indexed mem
  have free : db.replans.any (·.candidate = x.id) = false := by
    rw [List.any_eq_false]
    intro r row same
    have queued : (r, x) ∈ db.campaignReplans x.campaign :=
      mem_campaignReplans.2 ⟨row, by rw [of_decide_eq_true same]; exact found⟩
    rw [unasked] at queued
    cases queued
  rw [Db.checkPlan, found]
  simp [state, none_, free]

theorem nextReplan_cases (db : Db) (cid : Uuid) :
    (∃ rc ∈ db.campaignReplans cid, db.nextReplan cid = some rc.1) ∨ db.campaignReplans cid = [] ∧ db.nextReplan cid = none := by
  rw [Db.nextReplan]
  cases first : (((db.campaignReplans cid).map (·.1)).insertionSort
      (fun r r' => r.created < r'.created ∨ r.created = r'.created ∧ r.candidate ≤ r'.candidate)).head? with
  | none =>
    have empty := perm_insertionSort (fun r r' : Replan => r.created < r'.created ∨ r.created = r'.created ∧
      r.candidate ≤ r'.candidate) ((db.campaignReplans cid).map (·.1))
    rw [head?_eq_none_iff.1 first] at empty
    exact .inr ⟨map_eq_nil_iff.1 empty.nil_eq.symm, rfl⟩
  | some r =>
    obtain ⟨rc, mem, rfl⟩ := List.mem_map.1 ((mem_insertionSort _).1 (mem_of_head? first))
    exact .inl ⟨rc, mem, rfl⟩

theorem admitPlans_returns {builds : List Attempt} (permitted : Permitted nix w .tick r) (sound : Sound nix w s)
    (row : HasRow s.db c)
    (own : ∀ a ∈ s.db.activeAttempts, a.campaign = c.id) (planless : ∀ a ∈ s.db.activeAttempts, a.isPlan = false)
    (ahead : s.db.activeAttempts = [] ∨ c.policy.planAhead ≠ 0)
    (apart : ∀ rc ∈ s.db.campaignReplans c.id, rc.2.eligible →
      rc.2.drv.any (· ∈ builds.flatMap (·.spec.derivations)) = false → rc.2.drv.any (· ∈ s.db.activeDrvs) = false) :
    Holds Any (fun t => t = s) (admitPlans w c builds)
      (fun _ t => Mild s.db t.db ∨ ∃ a ∈ t.db.activeAttempts, a.campaign = c.id) Never := by
  refine .read fun s' here => ?_
  subst here
  simp only
  split
  · exact .pure fun t same => same ▸ .inl (.refl _)
  rename_i room
  have few := quota_few c.policy.planAhead (s'.db.queuedDrvs c.id).length
  generalize quota c.policy.planAhead (s'.db.queuedDrvs c.id).length = quota at few room
  set drvs := builds.flatMap (·.spec.derivations) with drvs_eq
  have mild := skip_mild s'.db c.id drvs
  set t : Controller := { s' with db := s'.db.skipReplans c.id drvs } with t_eq
  have commit : Commit w .tick s' t := .skipped c.id drvs rfl
  obtain ⟨indexed', standing', stored'⟩ := sound.commit permitted commit
  have row' : HasRow t.db c := by rwa [HasRow, t_eq, (skipReplans_rows s'.db c.id drvs).1]
  have lanes : t.db.checkLanes c true = .ok () :=
    lanes_ok (fun a mem => own a (mild.active ▸ mem)) (fun _ a mem => planless a (mild.active ▸ mem)) (mild.active ▸ ahead)
  have clear : ∀ rc ∈ t.db.campaignReplans c.id, rc.2.eligible ∧ rc.2.drv.any (· ∈ t.db.activeDrvs) = false := by
    intro rc mem
    obtain ⟨eligible, free⟩ := skipReplans_clear mem
    have builds' : t.db.activeDrvs = s'.db.activeDrvs := by rw [Db.activeDrvs, mild.builds, Db.activeDrvs]
    exact ⟨eligible, builds' ▸ apart rc (mild.campaignReplans rc mem) eligible free⟩
  refine .bind (Q := fun _ t' => t' = t) (.commit (fun _ _ => trivial) fun t' same => by rw [same]) fun _ => .read fun t' here => ?_
  subst here
  have later : ∀ {m : Tx Uuid}, Holds Any (fun t' => t' = t) m (fun _ t' => ∃ a ∈ t'.db.activeAttempts, a.campaign = c.id) Never →
      Holds Any (fun t' => t' = t) (m >>= fun _ => pure ())
        (fun _ t' => Mild s'.db t'.db ∨ ∃ a ∈ t'.db.activeAttempts, a.campaign = c.id) Never := fun holds =>
    holds.bind fun _ => .pure fun _ taken => .inr taken
  rcases nextReplan_cases t.db c.id with ⟨rc, mem, next⟩ | ⟨none_, next⟩
  · rw [next]
    obtain ⟨queued, -⟩ := mem_campaignReplans.1 mem
    obtain ⟨flake, lock⟩ := stored' rc.1 queued
    refine later (plan_returns indexed' row' lanes ?_ ?_ ?_ ?_ fun id asked => ?_)
    · have here : rc.1.candidate ∈ t.db.requested rc.1.request := by
        simp only [Db.requested, mem_insertionSort, List.mem_map, mem_filter, decide_eq_true_eq]
        exact ⟨rc.1, ⟨queued, rfl⟩, rfl⟩
      rw [Ne, take_eq_nil_iff, not_or]
      exact ⟨room, ne_nil_of_mem here⟩
    · exact (length_take_le _ _).trans (by omega)
    · refine List.Nodup.sublist (take_sublist _ _) ((perm_insertionSort _ _).nodup_iff.2 ?_)
      exact standing'.books.ledger.single.sublist (filter_sublist.map _)
    · rintro o same
      cases same
      rw [validateSource, if_pos (by simp [standing'.sources rc.1 queued, flake, lock])]
    · obtain ⟨rc', mem', rfl⟩ := requested_rows indexed' standing'.owned mem (mem_of_mem_take asked)
      obtain ⟨eligible, free⟩ := clear rc' mem'
      exact ⟨_, checkPlan_revised mem' eligible free⟩
  · rw [next]
    simp only
    split
    · exact .pure fun t' same => same ▸ .inl mild
    · rename_i some_
      refine later (plan_returns indexed' row' lanes some_ ((length_take_le _ _).trans (by omega)) ?_ (fun _ same => by cases same) fun id asked => ?_)
      · refine List.Nodup.sublist (take_sublist _ _) ?_
        have distinct : (t.db.candidates.map (·.id)).Nodup := indexed'.candidates ▸ nodup_range
        rw [Db.unplanned, ((perm_insertionSort _ _).map _).nodup_iff]
        exact distinct.sublist (filter_sublist.map _)
      · have unplanned := mem_of_mem_take asked
        simp only [Db.unplanned, List.mem_map, mem_insertionSort, mem_filter, Bool.and_eq_true, decide_eq_true_eq]
          at unplanned
        obtain ⟨x, ⟨mem, here, state⟩, rfl⟩ := unplanned
        rw [← here] at none_ ⊢
        exact ⟨x, checkPlan_unplanned indexed' mem state (standing'.unplanned x mem state) none_⟩

/-! ### A campaign -/

/-- What a campaign's admission leaves: nothing but a mild change, or an attempt of its own. -/
def Left (c : Campaign) (db db' : Db) : Prop := Mild db db' ∨ ∃ a ∈ db'.activeAttempts, a.campaign = c.id

theorem Left.after {db'' : Db} (first : Left c db db') (next : Left c db' db'') : Left c db db'' := by
  rcases next with mild | taken
  · rcases first with mild' | ⟨a, mem, own⟩
    exacts [.inl (mild'.trans mild), .inr ⟨a, mild.active ▸ mem, own⟩]
  · exact .inr taken

theorem plansBeside_returns {admitted : Bool} (permitted : Permitted nix w .tick r) (sound : Sound nix w t) (row : HasRow t.db c)
    (calm : Calm w c s.db) (open_ : s.db.open_ w c ∨ t.db = s.db) (own : ∀ a ∈ s.db.activeAttempts, a.campaign = c.id)
    (extends_ : Extends c s.db t.db) (batched : c.policy.rolling = false → Batched c admitted s.db t.db)
    (lookahead : c.policy.rolling → c.policy.planAhead ≠ 0) :
    Holds Any (fun t' => t' = t) (plansBeside w c s.db.activeBuilds (s.db.activeAttempts.any (·.isPlan)) admitted)
      (fun _ t' => Left c s.db t'.db) Never := by
  rw [plansBeside]
  split
  · exact .pure fun t' same => same ▸ extends_.onward
  rename_i goes
  simp only [Bool.or_eq_true, Bool.and_eq_true, decide_eq_true_eq, not_or, not_and, Bool.not_eq_true, List.any_eq_false] at goes
  obtain ⟨planless, ahead⟩ := goes
  have planless' : ∀ a ∈ t.db.activeAttempts, a.isPlan = false := fun a mem =>
    (extends_.added a mem).elim (fun old => Bool.not_eq_true _ ▸ planless a old) And.right
  have ahead' : t.db.activeAttempts = [] ∨ c.policy.planAhead ≠ 0 := by
    by_cases none_ : c.policy.planAhead = 0
    · have idle : ¬ (admitted = true ∨ s.db.activeBuilds ≠ []) := fun h => ahead h none_
      rw [not_or, Bool.not_eq_true, not_not] at idle
      have batch : c.policy.rolling = false := Bool.eq_false_iff.2 fun rolling => lookahead rolling none_
      refine .inl (((batched batch).none_ idle.1).active.trans (eq_nil_iff_forall_not_mem.2 fun a mem => ?_))
      have build : a ∈ s.db.activeBuilds := mem_filter.2 ⟨mem, by simpa [Attempt.isBuild] using planless a mem⟩
      rw [idle.2] at build
      cases build
    · exact .inr none_
  refine .read fun t' here => ?_
  subst here
  refine (admitPlans_returns permitted sound row (extends_.own own) planless' ahead' fun rc mem eligible free => ?_).mono (fun _ _ h => h) (fun _ h => h) (fun _ _ left => Left.after extends_.onward left) fun _ _ h => h
  by_cases rolling : c.policy.rolling = true
  · rwa [if_pos rolling] at free
  rw [if_neg rolling] at free
  rw [Bool.not_eq_true] at rolling
  cases planned : rc.2.drv with
  | none => rfl
  | some drv =>
    simp only [planned, any_some, decide_eq_false_iff_not] at free ⊢
    intro busy
    rcases (batched rolling).drvs drv busy with old | ⟨q, asked, below⟩
    · exact free old
    · rcases open_ with open_ | same
      · rcases ahead' with none_ | ahead'
        · simp [Db.activeDrvs, Db.activeBuilds, none_] at busy
        · have planless : s.db.activeAttempts.all (!·.isPlan) := by simpa using planless
          have apart := calm.apart open_ rolling ahead' planless rc (extends_.requests c.id rc mem eligible) eligible q asked
          simp [planned, below] at apart
      · exact free (by rwa [same] at busy)

theorem hold_mild (db : Db) (cid : Uuid) (hold : String) : Mild db (db.updateCampaign cid (fun c => { c with hold := hold })) :=
  ⟨SameGraph.scope ⟨rfl, rfl⟩, rfl, rfl, fun _ mem => mem⟩

theorem canBuild_local (can : canBuild c s) : c.policy.rolling = false → (buildPolicy c.policy s.db.activeBuilds .local_ s.machines).isSome := by
  intro batched
  simpa [canBuild, batched] using can

/-- Builds, and then plans beside them. -/
theorem admitBeside_returns (permitted : Permitted nix w .tick r) (sound : Sound nix w s) (row : HasRow s.db c) (calm : Calm w c s.db)
    (free : w.hold = "") (own : ∀ a ∈ s.db.activeAttempts, a.campaign = c.id)
    (ahead : s.db.activeAttempts = [] ∨ c.policy.planAhead ≠ 0) (lookahead : c.policy.rolling → c.policy.planAhead ≠ 0) :
    Holds Any (fun t => t = s) (do
      let admitted ← buildsIf w c (canBuild c s)
      plansBeside w c s.db.activeBuilds (s.db.activeAttempts.any (·.isPlan)) admitted) (fun _ t => Left c s.db t.db) Never := by
  have mild : Mild s.db s.db := .refl s.db
  rw [buildsIf]
  split
  · rename_i can
    have open_ : s.db.open_ w c := by
      have lane := canBuild_local can
      have room : c.policy.rolling || (buildPolicy c.policy s.db.activeBuilds .local_ []).isSome := by
        cases rolling : c.policy.rolling with
        | true => rfl
        | false => rw [buildPolicy_local [] s.machines, lane rolling]; rfl
      simpa [Db.open_, free, room] using ⟨own, ahead⟩
    have returns := admitBuilds_returns permitted.truthful sound.standing.known own ahead lookahead (canBuild_local can)
      fun d mem => excludedDependency_none.1 (calm.scope open_ d mem)
    have rows : ∀ c' ∈ [c], HasRow s.db c' := forall_mem_singleton.2 row
    have commits := sound.after permitted rows (admitBuilds_commits mem_cons_self)
    refine .bind ((returns.and commits).mono (fun _ _ h => h) (fun _ h => ⟨h, h⟩) (fun _ _ h => h) fun _ _ h => h.1) fun admitted => ?_
    rintro t ⟨⟨extends_, batched⟩, sound, rows⟩
    exact plansBeside_returns permitted sound (rows c mem_cons_self) calm (.inl open_) own extends_ batched lookahead t rfl
  · refine .bind (Q := fun admitted t => admitted = false ∧ t = s) (.pure fun t here => ⟨rfl, here⟩) fun admitted => ?_
    rintro t ⟨rfl, rfl⟩
    exact plansBeside_returns permitted sound row calm (.inr rfl) own mild.extends_ (fun _ => mild.batched) lookahead t rfl

/-- A campaign's admission, from where it is calm. -/
theorem admitCampaign_returns (permitted : Permitted nix w .tick r) (sound : Sound nix w s) (row : HasRow s.db c)
    (calm : Calm w c s.db) : Holds Any (fun t => t = s) (admitCampaign w c) (fun _ t => Left c s.db t.db) Never := by
  have lookahead : c.policy.rolling → c.policy.planAhead ≠ 0 := by
    obtain ⟨row, mem, -, policy⟩ := row
    exact policy ▸ sound.standing.lookahead row mem
  refine .bind (Q := fun _ t => t.db = s.db) ?_ fun _ => .read fun s1 same => ?_
  · refine .read fun s' here => ?_
    subst here
    split
    · exact .commit (fun _ _ => trivial) fun t same => by rw [same]
    · exact .pure fun t same => by rw [same]
  have stays : Holds Any (fun t => t = s1) (pure () : Tx Unit) (fun _ t => Left c s.db t.db) Never :=
    .pure fun t here => .inl (by rw [here, same]; exact .refl _)
  simp only
  split
  · exact stays
  rename_i own
  split
  · exact stays
  rename_i room
  simp only [List.any_eq_true, decide_eq_true_eq, not_exists, not_and, not_not] at own
  have sound1 : Sound nix w s1 := ⟨same ▸ sound.indexed, same ▸ sound.standing, by rw [Stored, same]; exact sound.stored⟩
  have row1 : HasRow s1.db c := by rw [HasRow, same]; exact row
  have written : Written w noRuns s1.db (s1.db.updateCampaign c.id (fun c => { c with hold := w.hold })) :=
    .campaign fun _ => ⟨rfl, rfl⟩
  have mild : Mild s.db (s1.db.updateCampaign c.id (fun c => { c with hold := w.hold })) := same ▸ hold_mild s1.db c.id w.hold
  generalize held : ({ s1 with db := s1.db.updateCampaign c.id (fun c => { c with hold := w.hold }) } : Controller) = s2
  have db2 : s1.db.updateCampaign c.id (fun c => { c with hold := w.hold }) = s2.db := held ▸ rfl
  rw [db2] at written mild
  refine .bind (Q := fun _ t => t = s2) (.commit (fun _ _ => trivial) fun t here => by rw [here, ← held]) fun _ => ?_
  split
  · exact .pure fun t here => here ▸ .inl mild
  rename_i free
  rw [not_not] at free
  have active : s1.db.activeAttempts = s2.db.activeAttempts := held ▸ rfl
  have can : canBuild c s1 = canBuild c s2 := held ▸ rfl
  have builds : s1.db.activeBuilds = s2.db.activeBuilds := held ▸ rfl
  rw [active] at own room
  rw [can, builds, active]
  have ahead : s2.db.activeAttempts = [] ∨ c.policy.planAhead ≠ 0 := by
    by_contra none_
    rw [not_or, not_not] at none_
    simp [none_.1, none_.2] at room
  refine (admitBeside_returns permitted (sound1.commit permitted (.written written)) (written.kept.hasRow row1) (calm.mild mild) free own
    ahead lookahead).mono (fun _ _ h => h) (fun _ h => h) (fun _ t left => ?_) fun _ _ h => h
  exact Left.after (.inl mild) left

/-! ### Ticks -/

theorem Left.calm {c' : Campaign} (left : Left c db db') (other : c'.id ≠ c.id) (calm : Calm w c' db) : Calm w c' db' := by
  rcases left with mild | ⟨a, mem, own⟩
  · exact calm.mild mild
  · have closed : db'.open_ w c' = false := by
      have foreign : db'.activeAttempts.all (·.campaign = c'.id) = false :=
        List.all_eq_false.2 ⟨a, mem, by simpa [own] using other.symm⟩
      simp [Db.open_, foreign]
    exact ⟨fun open_ => absurd (closed.symm.trans open_) nofun, fun open_ => absurd (closed.symm.trans open_) nofun⟩

/-- What the admission of the campaigns that are left begins with. -/
structure Admitting (nix : Facts) (w : World) (cs : List Campaign) (s : Controller) : Prop where
  sound : Sound nix w s
  distinct : (cs.map (·.id)).Nodup
  rows : ∀ c ∈ cs, HasRow s.db c
  calm : ∀ c ∈ cs, c.mode = .running → Calm w c s.db

theorem Admitting.rest (admitting : Admitting nix w (c :: cs) s) : Admitting nix w cs s :=
  ⟨admitting.sound, (nodup_cons.1 admitting.distinct).2, fun c' mem => admitting.rows c' (mem_cons_of_mem _ mem),
    fun c' mem => admitting.calm c' (mem_cons_of_mem _ mem)⟩

theorem admitCampaigns_returns (permitted : Permitted nix w .tick r) : Holds Any (Admitting nix w cs)
    (.each (fun c => if c.mode = .running then admitCampaign w c else pure ()) cs) (fun _ _ => True) Never := by
  have rounds := Holds.eachRest (R := Any) (P := Admitting nix w) (E := Never)
    (f := fun c => if c.mode = .running then admitCampaign w c else pure ()) fun c cs => ?_
  · exact (rounds cs).mono (fun _ _ h => h) (fun _ h => h) (fun _ _ _ => trivial) fun _ _ h => h
  · intro s admitting
    split
    · rename_i running
      have returns := admitCampaign_returns permitted admitting.sound (admitting.rows c mem_cons_self)
        (admitting.calm c mem_cons_self running)
      have commits := admitting.sound.after permitted admitting.rows (admitCampaign_commits (w := w) mem_cons_self)
      refine ((returns.and commits).mono (fun _ _ h => h) (fun _ h => ⟨h, h⟩) (fun _ t h => ?_) fun _ _ h => h.1) s rfl
      obtain ⟨left, sound, rows⟩ := h
      have rest := admitting.rest
      refine ⟨sound, rest.distinct, fun c' mem => rows c' (mem_cons_of_mem _ mem), fun c' mem running' => ?_⟩
      have other : c'.id ≠ c.id := fun same => (nodup_cons.1 admitting.distinct).1 (List.mem_map.2 ⟨c', mem, same⟩)
      exact left.calm other (rest.calm c' mem running')
    · exact ⟨.singleton s, admitting.rest⟩

/-- Nix, where one derivation depends on another. -/
def paired : Facts := ⟨fun d => if d = "/nix/store/b.drv" then ["/nix/store/a.drv"] else [], fun _ => none⟩

def below : Drv × Info := ("/nix/store/a.drv", ⟨"a", [("out", some "/nix/store/a")], [], some "x86_64-linux", [], none, false, none⟩)

def above : Drv × Info := ("/nix/store/b.drv",
  ⟨"b", [("out", some "/nix/store/b")], [("/nix/store/a.drv", ["out"])], some "x86_64-linux", [], none, false, none⟩)

/-- A world in which an attempt has ended, where sources stay. -/
def ending (aid : Uuid) (reason : String) (rows : List PlanRow) : World := { World.idle with
  onDisk := fun _ => true
  worker := fun id => if id = aid then ⟨[], some ⟨[], false, reason, false⟩, false, true, rows, [], false⟩
    else ⟨[], none, true, true, [], [], false⟩ }

def pairRows : List PlanRow := [⟨0, .recipe "/nix/store/a.drv" [below]⟩, ⟨1, .recipe "/nix/store/b.drv" [above, below]⟩]

theorem below_tells : paired.Tells below := ⟨fun _ => .rfl, rfl⟩

theorem above_tells : paired.Tells above := ⟨fun _ => .rfl, rfl⟩

theorem ending_truthful {aid : Uuid} {reason : String} {rows : List PlanRow} (sub : rows ⊆ pairRows) :
    Truthful paired (ending aid reason rows) := by
  have here : paired.Whole "/nix/store/a.drv" [below] ∧ paired.Whole "/nix/store/b.drv" [above, below] := by
    refine ⟨⟨forall_mem_singleton.2 below_tells, by decide, by decide⟩, ⟨?_, by decide, by decide⟩⟩
    exact forall_mem_cons.2 ⟨above_tells, forall_mem_singleton.2 below_tells⟩
  refine ⟨fun _ => forall_mem_nil _, fun id row mem drv graph planned => ?_⟩
  have found : row ∈ pairRows := by
    simp only [ending] at mem
    split at mem
    exacts [sub mem, absurd mem not_mem_nil]
  rcases mem_pair.1 found with rfl | rfl
  · cases planned
    exact here.1
  · cases planned
    exact here.2

theorem permitted_command {r : Request} (truthful : Truthful nix w) : Permitted nix w (.command r) s := ⟨truthful, nofun, nofun⟩

theorem idle_truthful : Truthful nix .idle := ⟨fun _ => forall_mem_nil _, fun _ => forall_mem_nil _⟩

theorem atRest_request {r : Request} (rest : AtRest (Permitted nix) s) : AtRest (Permitted nix) (r.after s) :=
  .after rest (permitted_command idle_truthful) trivial

theorem atRest_import {created : Int} {source revision : String} {selections : List (String × Bool)}
    (rest : AtRest (Permitted nix) s) :
    AtRest (Permitted nix) (Op.after .idle (.import_ created source revision .default selections) s) := by
  refine .after rest ⟨idle_truthful, fun _ _ _ _ _ same => ?_, nofun⟩ trivial
  cases same
  rfl

theorem permitted_tick (truthful : Truthful nix w) (stored : Stored w s.db) : Permitted nix w .tick s := ⟨truthful, nofun, fun _ => stored⟩

/-- Two candidates are to be planned, in a campaign that looks ahead. -/
def pairScheduled : Controller :=
  (Request.run 0).after ((Request.schedule 0 ⟨none, some 4, none, none⟩).after
    (Op.after .idle (.import_ 0 "source" "revision" .default [("a", false), ("b", false)]) (started .empty)))

/-- Two candidates are being planned, in a campaign that looks ahead. -/
def pairPlanning : Controller :=
  (Request.pause 0).after (Op.after .idle .tick ((Request.run 0).after ((Request.schedule 0 ⟨none, some 4, none, none⟩).after
    (Op.after .idle (.import_ 0 "source" "revision" .default [("a", false), ("b", false)]) (started .empty)))))

/-- They are planned, the one's derivation among the dependencies of the other's. -/
def pairQueued : Controller := Op.after (ending 0 "success" pairRows) .tick pairPlanning

def frozen : Origin :=
  ⟨"/nix/store/00000000000000000000000000000000-filnix-campaign-source", "0000000000000000000000000000000000000000"⟩

def timedOut : World := ending 1 "timeout" []

theorem timedOut_truthful : Truthful paired timedOut := ending_truthful (nil_subset _)

/-- The one was built, without an outcome, and is to be planned again; the other is queued. -/
def pairReplanned : Controller :=
  (Request.run 0).after (Op.after timedOut (.command (.queueReplan 0 [0] frozen))
    (Op.after timedOut .tick ((Request.buildOnce 0 [0]).after pairQueued)))

/-- What the one is built of is found out of scope, by a command of another campaign. -/
def pairExcluded : Controller :=
  (Request.run 0).after ((Request.excludeToolchains 1 ⟨fun name => name = "a", fun _ => false, fun _ => none⟩).after
    (Op.after .idle (.import_ 0 "source" "revision" .default [("c", false)]) pairQueued))

/-- How the ticks of these runs end, as they are evaluated. -/
structure PairTicks : Prop where
  stored : Stored .idle pairScheduled.db
  planning : (tick .idle pairScheduled).2.isOk = true
  planned : (tick (ending 0 "success" pairRows) pairPlanning).2.isOk = true
  ended : (tick timedOut ((Request.buildOnce 0 [0]).after pairQueued)).2.isOk = true
  replanned : (tick timedOut pairReplanned).2 = .error (.value "candidate is a dependency of an active build")
  excluded : (tick timedOut pairExcluded).2 = .error (.value ("excluded: a: " ++ toolchainReason))
  scope : ∀ c ∈ ((reconcile timedOut).last ((Request.run 0).after pairQueued)).db.campaigns,
    (∀ d ∈ ((reconcile timedOut).last ((Request.run 0).after pairQueued)).db.candidatesOf c,
      ((reconcile timedOut).last ((Request.run 0).after pairQueued)).db.excludedDependency d = none) ∧
    ((reconcile timedOut).last ((Request.run 0).after pairQueued)).db.campaignReplans c.id = []

theorem pair_ticks : PairTicks where
  stored := by unfold Stored; decide +kernel
  planning := by decide +kernel
  planned := by decide +kernel
  ended := by decide +kernel
  replanned := by decide +kernel
  excluded := by decide +kernel
  scope := by decide +kernel

theorem pairPlanning_atRest : AtRest (Permitted paired) pairPlanning := by
  refine atRest_request (.after (atRest_request (atRest_request (atRest_import .start))) ?_ (tick_survives (PairTicks.planning pair_ticks)))
  exact permitted_tick idle_truthful (PairTicks.stored pair_ticks)

theorem pairQueued_atRest : AtRest (Permitted paired) pairQueued := by
  refine .after pairPlanning_atRest ?_ (tick_survives (PairTicks.planned pair_ticks))
  exact permitted_tick (ending_truthful (List.Subset.refl _)) fun _ _ => ⟨rfl, rfl⟩

theorem pairReplanned_atRest : AtRest (Permitted paired) pairReplanned := by
  have ended : AtRest (Permitted paired) (Op.after timedOut .tick ((Request.buildOnce 0 [0]).after pairQueued)) := by
    refine .after (atRest_request pairQueued_atRest) ?_ (tick_survives (PairTicks.ended pair_ticks))
    exact permitted_tick timedOut_truthful fun _ _ => ⟨rfl, rfl⟩
  exact atRest_request (.after ended (permitted_command timedOut_truthful) trivial)

end Experiment
