import Nanofil.Experiment.Operations

/-! The books of a campaign: its lanes, its running candidates, and its replan requests. -/
namespace Experiment
open List Option Commits

/-! ### What is kept -/

/-- The active attempts are of one campaign, and at most one is a plan. -/
structure Lanes (db : Db) : Prop where
  together : ∀ a ∈ db.activeAttempts, ∀ b ∈ db.activeAttempts, a.campaign = b.campaign
  planner : (db.activeAttempts.filter (·.isPlan)).length ≤ 1

/-- A derivation is a target of an active build of its campaign. -/
def Db.building (db : Db) (cid : Uuid) (drv : Option Drv) : Prop :=
  ∃ a ∈ db.activeBuilds, a.campaign = cid ∧ ∃ d ∈ a.spec.targets.roots, drv = some d

def Db.asked (db : Db) : List (Uuid × Nat) := db.events.flatMap Event.asked

def Db.skips (db : Db) : List (Uuid × Nat) := db.events.flatMap Event.skips

def Replan.key (r : Replan) : Uuid × Nat := (r.request, r.candidate)

/-- The replan requests that the specs of attempts record. -/
def recordedRequests (attempts : List Attempt) : List (Uuid × Nat) :=
  attempts.flatMap (fun a => a.spec.replanRequests.map Replan.key)

/-- Each replan request that was queued is, once, pending, recorded or skipped. -/
structure Ledger (db : Db) : Prop where
  once : db.asked.Nodup
  accounted : db.asked.Perm (db.replans.map Replan.key ++ recordedRequests db.attempts ++ db.skips)
  targeted : ∀ a ∈ db.attempts, ∀ r ∈ a.spec.replanRequests, a.isPlan ∧ r.candidate ∈ a.spec.targets.ids
  single : (db.replans.map (·.candidate)).Nodup
  issued : ∀ p ∈ db.asked, p.1 < db.events.length

structure Bookkept (db : Db) : Prop where
  lanes : Lanes db
  running : ∀ c ∈ db.candidates, c.state = .running → db.building c.campaign c.drv
  bare : ∀ c ∈ db.candidates, c.drv = none → c.state.bare
  detached : ∀ r ∈ db.replans, ∀ a ∈ db.activeAttempts, r.candidate ∉ a.spec.targets.ids
  ledger : Ledger db

/-! ### Attempts of the kinds -/

variable {runs : Uuid → Option Drv → Prop} {db db' : Db} {w : World} {op : Op} {s t : Controller} {c : Campaign} {a : Attempt}

theorem active_same {as as' : List Attempt} (same : List.Forall₂ SameAttempt as as') :
    List.Forall₂ SameAttempt (as.filter (·.state.active)) (as'.filter (·.state.active)) := by
  induction same with
  | nil => exact .nil
  | cons head _ ih =>
    simp only [filter_cons, head.active]
    split
    exacts [.cons head ih, ih]

theorem Kept.active (kept : Kept runs db db') : List.Forall₂ SameAttempt db.activeAttempts db'.activeAttempts :=
  active_same kept.attempts

theorem SameAttempt.isPlan {a a' : Attempt} (same : SameAttempt a a') : a'.isPlan = a.isPlan := by
  rw [Attempt.isPlan, Attempt.isPlan, same.spec]

theorem SameAttempt.isBuild {a a' : Attempt} (same : SameAttempt a a') : a'.isBuild = a.isBuild := by
  rw [Attempt.isBuild, Attempt.isBuild, same.isPlan]

theorem plans_same {as as' : List Attempt} (same : List.Forall₂ SameAttempt as as') :
    (as'.filter (·.isPlan)).length = (as.filter (·.isPlan)).length := by
  induction same with
  | nil => rfl
  | cons head _ ih =>
    simp only [filter_cons, head.isPlan]
    split
    · simp only [length_cons, ih]
    · exact ih

theorem Lanes.same {l : List Attempt} (lanes : Lanes db) (same : List.Forall₂ SameAttempt l db'.activeAttempts)
    (sub : l.Sublist db.activeAttempts) : Lanes db' where
  together a mem b mem' := by
    obtain ⟨a', mem, here⟩ := mem_right same mem
    obtain ⟨b', mem', here'⟩ := mem_right same mem'
    rw [here.campaign, here'.campaign]
    exact lanes.together a' (sub.subset mem) b' (sub.subset mem')
  planner := by
    rw [plans_same same]
    exact le_trans (sub.filter _).length_le lanes.planner

theorem intend_active (db : Db) (c : Campaign) (spec : Spec) : (db.intend c spec).activeAttempts =
    db.activeAttempts ++ [⟨db.attempts.length, c.id, .intended, spec, none, false⟩] := by
  simp [Db.activeAttempts, intend_attempts, AttemptState.active]

theorem checkLanes_ok {plan : Bool} (checked : db.checkLanes c plan = .ok ()) :
    (∀ a ∈ db.activeAttempts, a.campaign = c.id) ∧ (plan → ∀ a ∈ db.activeAttempts, a.isPlan = false) ∧
      (db.activeAttempts ≠ [] → c.policy.planAhead ≠ 0) := by
  rw [Db.checkLanes] at checked
  split at checked
  · cases checked
  · rename_i here
    split at checked
    · cases checked
    · rename_i free
      split at checked
      · cases checked
      · rename_i ahead
        simp only [List.any_eq_true, decide_eq_true_eq, not_exists, not_and, not_not, Bool.and_eq_true,
          Bool.not_eq_true] at here free ahead
        exact ⟨here, free, ahead⟩

variable {spec : Spec} {cid : Uuid} {drv : Option Drv}

theorem Lanes.intend {plan : Bool} (lanes : Lanes db) (checked : db.checkLanes c plan = .ok ())
    (kind : plan = false → ∃ drvs, spec.targets = .build drvs) : Lanes (db.intend c spec) := by
  obtain ⟨here, free, -⟩ := checkLanes_ok checked
  have campaign : ∀ a ∈ (db.intend c spec).activeAttempts, a.campaign = c.id := by
    intro a mem
    rw [intend_active] at mem
    rcases mem_append.1 mem with mem | mem
    · exact here a mem
    · rw [mem_singleton.1 mem]
  refine ⟨fun a mem b mem' => (campaign a mem).trans (campaign b mem').symm, ?_⟩
  rw [intend_active, filter_append, length_append]
  cases plan with
  | true =>
    have none_ : db.activeAttempts.filter (·.isPlan) = [] := filter_eq_nil_iff.2 fun a mem => by simp [free rfl a mem]
    have one := length_filter_le (·.isPlan) [(⟨db.attempts.length, c.id, .intended, spec, none, false⟩ : Attempt)]
    simp only [none_, length_nil, length_singleton] at one ⊢
    omega
  | false =>
    obtain ⟨drvs, targets⟩ := kind rfl
    have build : [(⟨db.attempts.length, c.id, .intended, spec, none, false⟩ : Attempt)].filter (·.isPlan) = [] := by
      simp [Attempt.isPlan, targets]
    rw [build]
    exact lanes.planner

theorem buildSpec_lanes {it : BuildIntent} (submitted : buildSpec w c it s = .ok spec) : s.db.checkLanes c false = .ok () := by
  obtain ⟨⟨⟩, checked, -⟩ := bind_ok submitted
  exact checked

theorem planSpec_ok {it : PlanIntent} (submitted : planSpec c it s = .ok spec) :
    s.db.checkLanes c true = .ok () ∧ spec.targets = .plan it.ids ∧
      spec.replanRequests = it.ids.flatMap (fun id => s.db.replans.filter (·.candidate = id)) := by
  obtain ⟨⟨⟩, checked, submitted⟩ := bind_ok submitted
  cases submitted
  exact ⟨checked, rfl, rfl⟩

/-- The active attempts but the one that ends, as a finish leaves them. -/
theorem active_finish (db : Db) (id : Uuid) (f : Attempt → Attempt) (ends : ∀ a, (f a).state = .finished) :
    (db.updateAttempts (·.id = id) f).activeAttempts = db.activeAttempts.filter (·.id ≠ id) := by
  simp only [Db.activeAttempts, Db.updateAttempts]
  induction db.attempts with
  | nil => rfl
  | cons a as ih =>
    by_cases same : a.id = id
    · have done : (f a).state.active = false := by rw [ends a]; rfl
      cases active : a.state.active <;> simpa [filter_cons, same, done, active] using ih
    · cases active : a.state.active <;> simpa [filter_cons, same, active] using ih

theorem skipReplans_rows (db : Db) (cid : Uuid) (drvs : List Drv) : (db.skipReplans cid drvs).campaigns = db.campaigns ∧
    (db.skipReplans cid drvs).candidates = db.candidates ∧ (db.skipReplans cid drvs).attempts = db.attempts := by
  rw [Db.skipReplans]
  split <;> exact ⟨rfl, rfl, rfl⟩

theorem skipReplans_active (db : Db) (cid : Uuid) (drvs : List Drv) :
    (db.skipReplans cid drvs).activeAttempts = db.activeAttempts := by
  rw [Db.activeAttempts, (skipReplans_rows db cid drvs).2.2, Db.activeAttempts]

theorem Commit.lanes (commit : Commit w op s t) (lanes : Lanes s.db) : Lanes t.db := by
  cases commit with
  | written written => exact lanes.same written.kept.active (.refl _)
  | imported created source revision policy selections asked db => exact db ▸ lanes.same (attempts_refl _) (.refl _)
  | scheduled cid old new ahead db => exact db ▸ lanes.same (attempts_refl _) (.refl _)
  | built c it spec row submitted covers derivations rooted db =>
    exact db ▸ lanes.intend (buildSpec_lanes submitted) fun _ => ⟨it.targets, buildSpec_targets submitted⟩
  | planned c it spec row submitted ids db => exact db ▸ lanes.intend (planSpec_ok submitted).1 nofun
  | finished a mid reason result live written released db =>
    have kept := written.kept
    have ended := active_finish mid a.id (fun a => { a with state := .finished, result := some result }) fun _ => rfl
    have lanes' : Lanes mid := lanes.same kept.active (.refl _)
    refine lanes'.same (l := mid.activeAttempts.filter (·.id ≠ a.id)) ?_ filter_sublist
    rw [db, ← ended]
    exact attempts_refl _
  | queued c o ids pending now command distinct source found db => exact db ▸ lanes.same (attempts_refl _) (.refl _)
  | skipped cid drvs db =>
    refine lanes.same (l := s.db.activeAttempts) ?_ (.refl _)
    rw [db, skipReplans_active]
    exact attempts_refl _

/-! ### Running candidates -/

def Running (db : Db) : Prop := ∀ c ∈ db.candidates, c.state = .running → db.building c.campaign c.drv

def Bare (db : Db) : Prop := ∀ c ∈ db.candidates, c.drv = none → c.state.bare

theorem Kept.building (kept : Kept runs db db') (building : db.building cid drv) : db'.building cid drv := by
  obtain ⟨a, mem, campaign, d, root, planned⟩ := building
  obtain ⟨mem, build⟩ := mem_filter.1 mem
  obtain ⟨a', mem, same⟩ := mem_left kept.active mem
  exact ⟨a', mem_filter.2 ⟨mem, same.isBuild.trans build⟩, same.campaign.trans campaign, d, same.spec ▸ root, planned⟩

theorem Kept.running (kept : Kept runs db db') (allowed : ∀ cid drv, runs cid drv → db.building cid drv)
    (running : Running db) : Running db' := by
  intro c' mem run
  obtain ⟨c, mem, turns⟩ := mem_right kept.candidates mem
  rcases turns.running run with ⟨run, same⟩ | reason
  · rw [turns.campaign, same]
    exact kept.building (running c mem run)
  · exact kept.building (allowed _ _ reason)

theorem Turns.keepsBare {c c' : Candidate} (turns : Turns runs c c') (bare : c.drv = none → c.state.bare) :
    c'.drv = none → c'.state.bare := by
  intro none_
  rcases turns.bare none_ with bare' | ⟨none', kept⟩
  exacts [bare', kept (bare none')]

theorem bare_turns {cs cs' : List Candidate} (turns : List.Forall₂ (Turns runs) cs cs')
    (bare : ∀ c ∈ cs, c.drv = none → c.state.bare) : ∀ c ∈ cs', c.drv = none → c.state.bare := by
  intro c' mem
  obtain ⟨c, mem, turns⟩ := mem_right turns mem
  exact turns.keepsBare (bare c mem)

theorem aliased_building {c : Uuid} (aliased : db.aliased cid c drv) : db.building c drv := by
  obtain ⟨rfl, d, mem, planned⟩ := aliased
  obtain ⟨a, mem, root⟩ := mem_flatMap.1 mem
  obtain ⟨mem, campaign⟩ := mem_filter.1 mem
  refine ⟨a, mem_filter.2 ⟨mem, ?_⟩, of_decide_eq_true campaign, d, root, planned⟩
  rw [Attempt.isBuild, Attempt.isPlan]
  cases targets : a.spec.targets with
  | plan ids => simp [targets, Targets.roots] at root
  | build drvs => rfl

/-- Why an intent sets a candidate running: it is a root. -/
def rooted (c : Campaign) (spec : Spec) (cid : Uuid) (drv : Option Drv) : Prop :=
  cid = c.id ∧ ∃ d ∈ spec.targets.roots, drv = some d

theorem intend_turns (db : Db) (c : Campaign) (spec : Spec) :
    List.Forall₂ (Turns (rooted c spec)) db.candidates (db.intend c spec).candidates := by
  rw [Db.intend]
  cases targets : spec.targets with
  | build drvs =>
    refine forall₂_map_right_iff.2 (forall₂_same.2 fun x _ => ?_)
    split
    · rename_i chosen
      simp only [Bool.and_eq_true, decide_eq_true_eq, Option.any_eq_true] at chosen
      obtain ⟨here, d, planned, root⟩ := chosen
      exact ⟨rfl, rfl, fun _ => .inr ⟨here, d, by rw [targets]; exact root, planned⟩, fun none_ => by simp [planned] at none_,
        fun state => by cases state⟩
    · exact .refl x
  | plan ids =>
    simp only [Db.event]
    split
    · exact turns_refl _
    · refine forall₂_map_right_iff.2 (forall₂_same.2 fun x _ => ?_)
      split
      · exact ⟨rfl, rfl, (fun state => by cases state), fun _ => .inl (.inl rfl), fun _ => .inl rfl⟩
      · exact .refl x

theorem intend_building (building : db.building cid drv) : (db.intend c spec).building cid drv := by
  obtain ⟨a, mem, rest⟩ := building
  refine ⟨a, ?_, rest⟩
  rw [Db.activeBuilds, intend_active, filter_append]
  exact mem_append_left _ mem

theorem rooted_building (reason : rooted c spec cid drv) : (db.intend c spec).building cid drv := by
  obtain ⟨rfl, d, root, planned⟩ := reason
  refine ⟨⟨db.attempts.length, c.id, .intended, spec, none, false⟩, ?_, rfl, d, root, planned⟩
  rw [Db.activeBuilds, intend_active, filter_append]
  refine mem_append_right _ (mem_filter.2 ⟨mem_singleton_self _, ?_⟩)
  rw [Attempt.isBuild, Attempt.isPlan]
  cases targets : spec.targets with
  | plan ids => simp [targets, Targets.roots] at root
  | build drvs => rfl

theorem Running.intend (running : Running db) : Running (db.intend c spec) := by
  intro x' mem run
  obtain ⟨x, mem, turns⟩ := mem_right (intend_turns db c spec) mem
  rcases turns.running run with ⟨run, same⟩ | reason
  · rw [turns.campaign, same]
    exact intend_building (running x mem run)
  · exact rooted_building reason

/-- An attempt with the id of a live one is that one. -/
theorem LiveRow.unique {mid : Db} (live : LiveRow db a) (kept : Kept runs db mid) (indexed : Indexed db) {b : Attempt}
    (mem : b ∈ mid.activeBuilds) (same : b.id = a.id) : b.spec = a.spec ∧ b.campaign = a.campaign := by
  obtain ⟨row, mem', id, campaign, spec, -⟩ := kept.liveRow live
  have distinct : (mid.attempts.map (·.id)).Nodup := (kept.indexed indexed).attempts ▸ nodup_range
  have mem := (mem_filter.1 (mem_filter.1 mem).1).1
  have eq : b = row := inj_on_of_nodup_map distinct mem mem' (same.trans id.symm)
  exact eq ▸ ⟨spec, campaign⟩

theorem Commit.running (indexed : Indexed s.db) (commit : Commit w op s t) (running : Running s.db) : Running t.db := by
  cases commit with
  | written written => exact written.kept.running (fun _ _ never => never.elim) running
  | imported created source revision policy selections asked db =>
    rw [db]
    intro c mem run
    rcases mem_append.1 mem with mem | mem
    · exact running c mem run
    · obtain ⟨sel, -, rfl⟩ := List.mem_map.1 mem
      simp only at run
      split at run <;> cases run
  | scheduled cid old new ahead db => exact db ▸ running
  | built c it spec row submitted covers derivations rooted db => exact db ▸ running.intend
  | planned c it spec row submitted ids db => exact db ▸ running.intend
  | finished a mid reason result live written released db =>
    have kept := written.kept
    have running' := kept.running (fun _ _ aliased => aliased_building aliased) running
    rw [db]
    intro c mem run
    obtain ⟨b, mem', campaign, d, root, planned⟩ := running' c mem run
    obtain ⟨active, build⟩ := mem_filter.1 mem'
    by_cases same : b.id = a.id
    · obtain ⟨spec, campaign'⟩ := live.unique kept indexed mem' same
      have build' : a.isBuild := by rwa [Attempt.isBuild, Attempt.isPlan, ← spec]
      exact absurd run (released build' c mem (campaign.symm.trans campaign') d (spec ▸ root) planned)
    · refine ⟨b, mem_filter.2 ⟨?_, build⟩, campaign, d, root, planned⟩
      have ended := active_finish mid a.id (fun a => { a with state := .finished, result := some result }) fun _ => rfl
      exact ended ▸ mem_filter.2 ⟨active, by simpa using same⟩
  | queued c o ids pending now command distinct source found db => exact db ▸ running
  | skipped cid drvs db =>
    obtain ⟨-, candidates, attempts⟩ := skipReplans_rows s.db cid drvs
    intro c mem run
    rw [db, candidates] at mem
    have building := running c mem run
    rwa [Db.building, db, Db.activeBuilds, skipReplans_active]

def always (_ : Uuid) (_ : Option Drv) : Prop := True

/-- A commit turns the candidates there were, and adds bare ones. -/
theorem Commit.turns (commit : Commit w op s t) : ∃ cs new, List.Forall₂ (Turns always) s.db.candidates cs ∧
    t.db.candidates = cs ++ new ∧ ∀ c ∈ new, c.drv = none ∧ c.state.bare := by
  have turned : ∀ {runs cs}, List.Forall₂ (Turns runs) s.db.candidates cs → t.db.candidates = cs →
      ∃ cs new, List.Forall₂ (Turns always) s.db.candidates cs ∧ t.db.candidates = cs ++ new ∧
        ∀ c ∈ new, c.drv = none ∧ c.state.bare := fun turns same =>
    ⟨_, [], turns.imp fun _ _ turn => turn.mono fun _ _ _ => trivial, same.trans (append_nil _).symm, forall_mem_nil _⟩
  have same : List.Forall₂ (Turns always) s.db.candidates s.db.candidates := turns_refl _
  have stays : t.db.candidates = s.db.candidates → _ := turned same
  cases commit with
  | written written => exact turned written.kept.candidates rfl
  | imported created source revision policy selections asked db =>
    refine ⟨s.db.candidates, _, turns_refl _, congrArg Db.candidates db, fun c mem => ?_⟩
    obtain ⟨sel, -, rfl⟩ := List.mem_map.1 mem
    refine ⟨rfl, ?_⟩
    simp only
    split
    exacts [.inr (.inr rfl), .inl rfl]
  | scheduled cid old new ahead db => exact stays (db ▸ rfl)
  | built c it spec row submitted covers derivations rooted db => exact turned (intend_turns s.db c spec) (db ▸ rfl)
  | planned c it spec row submitted ids db => exact turned (intend_turns s.db c spec) (db ▸ rfl)
  | finished a mid reason result live written released db => exact turned written.kept.candidates (db ▸ rfl)
  | queued c o ids pending now command distinct source found db => exact stays (db ▸ rfl)
  | skipped cid drvs db => exact stays (db ▸ (skipReplans_rows s.db cid drvs).2.1)

theorem Commit.bare (commit : Commit w op s t) (bare : Bare s.db) : Bare t.db := by
  obtain ⟨cs, new, turns, same, added⟩ := commit.turns
  intro c mem none_
  rcases mem_append.1 (same ▸ mem) with mem | mem
  exacts [bare_turns turns bare c mem none_, (added c mem).2]

/-! ### Replan requests -/

theorem intend_replans (db : Db) (c : Campaign) (spec : Spec) :
    (db.intend c spec).replans = db.replans.filter (fun r => r.candidate ∉ spec.targets.ids) := by
  rw [Db.intend]
  cases spec.targets with
  | build drvs => exact (filter_eq_self.2 fun r _ => by simp [Targets.ids]).symm
  | plan ids =>
    simp only [Db.event]
    split <;> rfl

theorem intend_events (db : Db) (c : Campaign) (spec : Spec) :
    (db.intend c spec).events = db.events ++ [.attemptIntended c.id db.attempts.length spec.targets] := by
  rw [Db.intend]
  cases spec.targets with
  | build drvs => rfl
  | plan ids =>
    simp only [Db.event]
    split <;> rfl

/-- A candidate that a request is queued for. -/
structure Pending (db : Db) (cid : Uuid) (id : Nat) : Prop where
  inactive : ∀ a ∈ db.activeAttempts, id ∉ a.spec.targets.ids
  unqueued : ∀ r ∈ db.replans, r.candidate ≠ id
  found : ∃ x ∈ db.candidates, x.id = id ∧ x.campaign = cid

theorem pendingReplans_ok {o : Origin} : ∀ {ids pending : List Nat}, db.pendingReplans cid o ids = .ok pending →
    pending.Sublist ids ∧ ∀ id ∈ pending, Pending db cid id := by
  intro ids
  induction ids with
  | nil =>
    intro pending found
    cases found
    exact ⟨.slnil, forall_mem_nil _⟩
  | cons id ids ih =>
    intro pending found
    rw [Db.pendingReplans] at found
    cases row : db.candidates.find? (fun x => x.id = id && x.campaign = cid) with
    | none => simp [row] at found
    | some x =>
      simp only [row] at found
      split at found
      · cases found
      · rename_i free
        cases queued : db.replans.find? (·.candidate = id) with
        | some r =>
          simp only [queued] at found
          split at found
          · exact ⟨(ih found).1.cons id, (ih found).2⟩
          · cases found
        | none =>
          simp only [queued] at found
          cases rest : db.pendingReplans cid o ids with
          | error e => simp [rest, Except.map] at found
          | ok more =>
            simp only [rest, Except.map, Except.ok.injEq] at found
            subst found
            obtain ⟨sub, all⟩ := ih rest
            refine ⟨sub.cons_cons id, fun id' mem => ?_⟩
            rcases mem_cons.1 mem with rfl | mem
            · simp only [Bool.or_eq_true, Bool.not_eq_true', decide_eq_true_eq, not_or, mem_flatMap, not_exists, not_and] at free
              have is := find?_some row
              simp only [Bool.and_eq_true, decide_eq_true_eq] at is
              refine ⟨fun a mem => free.1.2 a mem, fun r mem same => ?_, x, mem_of_find?_eq_some row, is⟩
              have none_ := find?_eq_none.1 queued r mem
              exact none_ (by simpa using same)
            · exact all id' mem

def Detached (db : Db) : Prop := ∀ r ∈ db.replans, ∀ a ∈ db.activeAttempts, r.candidate ∉ a.spec.targets.ids

theorem Detached.same {l : List Attempt} (detached : Detached db) (replans : ∀ r ∈ db'.replans, r ∈ db.replans)
    (same : List.Forall₂ SameAttempt l db'.activeAttempts) (sub : ∀ a ∈ l, a ∈ db.activeAttempts) : Detached db' := by
  intro r mem a mem'
  obtain ⟨a', mem', same⟩ := mem_right same mem'
  rw [same.spec]
  exact detached r (replans r mem) a' (sub a' mem')

theorem Detached.intend (detached : Detached db) : Detached (db.intend c spec) := by
  intro r mem a mem'
  rw [intend_replans] at mem
  obtain ⟨mem, free⟩ := mem_filter.1 mem
  rw [intend_active] at mem'
  rcases mem_append.1 mem' with mem' | new
  · exact detached r mem a mem'
  · rw [mem_singleton.1 new]
    simpa using free

theorem skipReplans_sub (db : Db) (cid : Uuid) (drvs : List Drv) : ∀ r ∈ (db.skipReplans cid drvs).replans, r ∈ db.replans := by
  intro r mem
  rw [Db.skipReplans] at mem
  split at mem
  · exact mem
  · exact mem_of_mem_filter mem

theorem Commit.detached (commit : Commit w op s t) (detached : Detached s.db) : Detached t.db := by
  cases commit with
  | written written => exact detached.same (fun r mem => written.kept.replans ▸ mem) written.kept.active fun _ mem => mem
  | imported created source revision policy selections asked db => exact db ▸ detached
  | scheduled cid old new ahead db => exact db ▸ detached
  | built c it spec row submitted covers derivations rooted db => exact db ▸ detached.intend
  | planned c it spec row submitted ids db => exact db ▸ detached.intend
  | finished a mid reason result live written released db =>
    have kept := written.kept
    have ended := active_finish mid a.id (fun a => { a with state := .finished, result := some result }) fun _ => rfl
    have detached' : Detached mid := detached.same (fun r mem => kept.replans ▸ mem) kept.active fun _ mem => mem
    refine detached'.same (l := mid.activeAttempts.filter (·.id ≠ a.id)) (fun r mem => by rw [db] at mem; exact mem) ?_
      fun _ mem => mem_of_mem_filter mem
    rw [db, ← ended]
    exact attempts_refl _
  | queued c o ids pending now command distinct source found db =>
    rw [db]
    intro r mem a mem'
    rcases mem_append.1 mem with mem | mem
    · exact detached r mem a mem'
    · obtain ⟨id, asked, rfl⟩ := List.mem_map.1 mem
      exact ((pendingReplans_ok found).2 id asked).inactive a mem'
  | skipped cid drvs db =>
    refine detached.same (l := s.db.activeAttempts) (fun r mem => ?_) ?_ fun _ mem => mem
    · rw [db] at mem
      exact skipReplans_sub s.db cid drvs r mem
    · rw [db, skipReplans_active]
      exact attempts_refl _

/-! ### The ledger -/

theorem Kept.asked (kept : Kept runs db db') : db'.asked = db.asked ∧ db'.skips = db.skips ∧
    db.events.length ≤ db'.events.length := by
  obtain ⟨es, same, quiet⟩ := kept.events
  have none_ : es.flatMap Event.asked = [] ∧ es.flatMap Event.skips = [] :=
    ⟨flatMap_eq_nil_iff.2 fun e mem => (quiet e mem).1, flatMap_eq_nil_iff.2 fun e mem => (quiet e mem).2⟩
  simp only [Db.asked, Db.skips, same, flatMap_append, none_.1, none_.2, append_nil, length_append]
  exact ⟨trivial, trivial, by omega⟩

theorem recorded_specs (as : List Attempt) :
    recordedRequests as = (as.map (·.spec)).flatMap (fun spec => spec.replanRequests.map Replan.key) := by
  rw [recordedRequests, flatMap_map]

theorem Ledger.same (ledger : Ledger db) (asked : db'.asked = db.asked) (skips : db'.skips = db.skips)
    (longer : db.events.length ≤ db'.events.length) (replans : db'.replans = db.replans)
    (specs : db'.attempts.map (·.spec) = db.attempts.map (·.spec)) : Ledger db' where
  once := asked ▸ ledger.once
  accounted := by
    rw [asked, skips, replans, recorded_specs, specs, ← recorded_specs]
    exact ledger.accounted
  targeted a mem r mem' := by
    obtain ⟨a', mem, same⟩ := List.mem_map.1 (specs ▸ List.mem_map_of_mem (f := fun a : Attempt => a.spec) mem)
    rw [Attempt.isPlan, ← same]
    exact ledger.targeted a' mem r (same ▸ mem')
  single := replans ▸ ledger.single
  issued p mem := lt_of_lt_of_le (ledger.issued p (asked ▸ mem)) longer

theorem Ledger.kept (ledger : Ledger db) (kept : Kept runs db db') : Ledger db' :=
  ledger.same kept.asked.1 kept.asked.2.1 kept.asked.2.2 kept.replans (map_same (fun _ _ same => same.spec) kept.attempts)

/-- Rows by the values of a list without repetition, in its order. -/
theorem filter_perm {α β : Type*} [DecidableEq β] (f : α → β) (l : List α) : ∀ {is : List β}, is.Nodup →
    (l.filter (fun a => f a ∈ is)).Perm (is.flatMap fun i => l.filter (fun a => f a = i)) := by
  intro is
  induction is with
  | nil => intro _; simp
  | cons i is ih =>
    intro distinct
    obtain ⟨new, distinct⟩ := nodup_cons.1 distinct
    rw [flatMap_cons]
    refine List.Perm.trans ?_ ((List.Perm.refl _).append (ih distinct))
    have first : l.filter (fun a => f a = i) = (l.filter (fun a => f a ∈ i :: is)).filter (fun a => f a = i) := by
      rw [List.filter_filter]
      refine filter_congr fun a _ => ?_
      by_cases same : f a = i <;> simp [same]
    have rest : l.filter (fun a => f a ∈ is) = (l.filter (fun a => f a ∈ i :: is)).filter (fun a => !decide (f a = i)) := by
      rw [List.filter_filter]
      refine filter_congr fun a _ => ?_
      by_cases same : f a = i
      · simp [same, new]
      · simp [same]
    rw [first, rest]
    exact (filter_append_perm _ _).symm

theorem Ledger.intend {ids : List Nat} (ledger : Ledger db) (targets : spec.targets = .plan ids) (distinct : ids.Nodup)
    (requests : spec.replanRequests = ids.flatMap (fun id => db.replans.filter (·.candidate = id))) :
    Ledger (db.intend c spec) := by
  have asked : (db.intend c spec).asked = db.asked := by simp [Db.asked, intend_events, Event.asked]
  have skips : (db.intend c spec).skips = db.skips := by simp [Db.skips, intend_events, Event.skips]
  have replans : (db.intend c spec).replans = db.replans.filter (fun r => r.candidate ∉ ids) := by
    rw [intend_replans, targets]
    rfl
  have consumed : db.replans.Perm ((db.intend c spec).replans ++ spec.replanRequests) := by
    rw [replans, requests]
    refine List.Perm.trans ?_ ((List.Perm.refl _).append (filter_perm Replan.candidate db.replans distinct))
    have parts := filter_append_perm (fun r : Replan => r.candidate ∉ ids) db.replans
    simp only [decide_not, Bool.not_not] at parts ⊢
    exact parts.symm
  refine ⟨asked ▸ ledger.once, ?_, fun a mem r mem' => ?_, ?_, fun p mem => ?_⟩
  · rw [asked, skips, intend_attempts]
    refine ledger.accounted.trans ((List.Perm.append ?_ (.refl _)))
    simp only [recordedRequests, flatMap_append, flatMap_cons, flatMap_nil, append_nil]
    have keys := consumed.map Replan.key
    rw [map_append] at keys
    refine (keys.append_right _).trans ?_
    rw [append_assoc]
    exact (List.Perm.refl _).append perm_append_comm
  · rw [intend_attempts] at mem
    rcases mem_append.1 mem with mem | new
    · exact ledger.targeted a mem r mem'
    · rw [mem_singleton.1 new] at mem' ⊢
      simp only [requests, mem_flatMap, mem_filter, decide_eq_true_eq] at mem'
      obtain ⟨id, target, -, rfl⟩ := mem'
      simp only [Attempt.isPlan, targets]
      exact ⟨trivial, target⟩
  · rw [replans]
    exact ledger.single.sublist (filter_sublist.map _)
  · rw [intend_events, length_append]
    exact lt_of_lt_of_le (ledger.issued p (asked ▸ mem)) (Nat.le_add_right _ _)

theorem buildSpec_requests {it : BuildIntent} (submitted : buildSpec w c it s = .ok spec) : spec.replanRequests = [] := by
  obtain ⟨-, -, submitted⟩ := bind_ok submitted
  obtain ⟨-, -, submitted⟩ := bind_ok submitted
  obtain ⟨effective, -, submitted⟩ := bind_ok submitted
  obtain ⟨available, -, submitted⟩ := bind_ok submitted
  cases submitted
  rfl

theorem Ledger.build {drvs : List Drv} (ledger : Ledger db) (targets : spec.targets = .build drvs)
    (requests : spec.replanRequests = []) : Ledger (db.intend c spec) := by
  have asked : (db.intend c spec).asked = db.asked := by simp [Db.asked, intend_events, Event.asked]
  have skips : (db.intend c spec).skips = db.skips := by simp [Db.skips, intend_events, Event.skips]
  have replans : (db.intend c spec).replans = db.replans := by
    rw [intend_replans, targets]
    exact filter_eq_self.2 fun r _ => by simp [Targets.ids]
  refine ⟨asked ▸ ledger.once, ?_, fun a mem r mem' => ?_, replans ▸ ledger.single, fun p mem => ?_⟩
  · rw [asked, skips, replans, intend_attempts]
    simpa [recordedRequests, requests] using ledger.accounted
  · rw [intend_attempts] at mem
    rcases mem_append.1 mem with mem | new
    · exact ledger.targeted a mem r mem'
    · rw [mem_singleton.1 new] at mem'
      simp [requests] at mem'
  · rw [intend_events, length_append]
    exact lt_of_lt_of_le (ledger.issued p (asked ▸ mem)) (Nat.le_add_right _ _)

theorem Ledger.queue {o : Origin} {ids pending : List Nat} {now : Int} (ledger : Ledger db) (distinct : ids.Nodup)
    (found : db.pendingReplans cid o ids = .ok pending) : Ledger { db with
      replans := db.replans ++ pending.map (fun id => ⟨id, o.source, o.revision, db.events.length, now⟩)
      events := db.events ++ [.replanQueued cid db.events.length pending o.source o.revision] } := by
  obtain ⟨sub, fresh⟩ := pendingReplans_ok found
  have distinct := distinct.sublist sub
  have pairs : (pending.map (db.events.length, ·)).Nodup := distinct.map fun _ _ same => (Prod.mk.inj same).2
  have asked : ({ db with
      replans := db.replans ++ pending.map (fun id => ⟨id, o.source, o.revision, db.events.length, now⟩)
      events := db.events ++ [.replanQueued cid db.events.length pending o.source o.revision] } : Db).asked =
      db.asked ++ pending.map (db.events.length, ·) := by simp [Db.asked, Event.asked]
  have skips : ({ db with
      replans := db.replans ++ pending.map (fun id => ⟨id, o.source, o.revision, db.events.length, now⟩)
      events := db.events ++ [.replanQueued cid db.events.length pending o.source o.revision] } : Db).skips = db.skips := by
    simp [Db.skips, Event.skips]
  refine ⟨?_, ?_, ledger.targeted, ?_, fun p mem => ?_⟩
  · rw [asked]
    refine nodup_append'.2 ⟨ledger.once, pairs, fun p old new => ?_⟩
    obtain ⟨id, -, rfl⟩ := List.mem_map.1 new
    exact absurd (ledger.issued _ old) (lt_irrefl _)
  · rw [asked, skips]
    have keys : (pending.map (fun id => (⟨id, o.source, o.revision, db.events.length, now⟩ : Replan))).map Replan.key =
        pending.map (db.events.length, ·) := by simp [Function.comp_def, Replan.key]
    rw [map_append, keys, append_assoc, append_assoc]
    refine (ledger.accounted.append_right _).trans ?_
    rw [append_assoc, append_assoc]
    refine (List.Perm.refl _).append ?_
    rw [← append_assoc]
    exact perm_append_comm
  · rw [map_append]
    refine nodup_append'.2 ⟨ledger.single, by simpa [Function.comp_def] using distinct, fun id old new => ?_⟩
    obtain ⟨r, mem, rfl⟩ := List.mem_map.1 old
    simp only [List.map_map, Function.comp_def, List.map_id'] at new
    exact (fresh _ new).unqueued r mem rfl
  · rw [asked] at mem
    simp only [length_append, length_singleton]
    rcases mem_append.1 mem with mem | mem
    · exact lt_of_lt_of_le (ledger.issued p mem) (Nat.le_add_right _ _)
    · obtain ⟨id, -, rfl⟩ := List.mem_map.1 mem
      exact Nat.lt_succ_self _

/-- The rows of a filtered join, and their requests. -/
theorem join_filter {α β : Type*} (g : α → Option β) (q : α × β → Bool) (l : List α) :
    ((l.filterMap (fun a => (g a).map (a, ·))).filter q).map (·.1) = l.filter (fun a => (g a).any (fun b => q (a, b))) := by
  induction l with
  | nil => rfl
  | cons a l ih =>
    cases found : g a with
    | none => simp [found, ih]
    | some b => cases q' : q (a, b) <;> simp [found, q', ih]

theorem Ledger.skip {cid : Uuid} {drvs : List Drv} (ledger : Ledger db) : Ledger (db.skipReplans cid drvs) := by
  rw [Db.skipReplans]
  split
  · exact ledger
  · generalize chosen : (db.campaignReplans cid).filter
      (fun rc => !rc.2.eligible || rc.2.drv.any (· ∈ drvs)) = skipped
    have rows := join_filter (fun r => db.candidates.find? (fun x => x.id = r.candidate && x.campaign = cid))
      (fun rc => !rc.2.eligible || rc.2.drv.any (· ∈ drvs)) db.replans
    rw [← Db.campaignReplans, chosen] at rows
    revert rows
    generalize (fun r : Replan => (db.candidates.find? (fun x => x.id = r.candidate && x.campaign = cid)).any
      (fun x => !x.eligible || x.drv.any (· ∈ drvs))) = taken
    intro rows
    have kept : db.replans.filter (fun r => skipped.all (·.1.candidate ≠ r.candidate)) = db.replans.filter (!taken ·) := by
      refine filter_congr fun r mem => ?_
      cases took : taken r with
      | true =>
        obtain ⟨rc, mem', rfl⟩ := List.mem_map.1 (rows ▸ mem_filter.2 ⟨mem, took⟩)
        rw [Bool.not_true, List.all_eq_false]
        exact ⟨rc, mem', by simp⟩
      | false =>
        rw [Bool.not_false, List.all_eq_true]
        intro rc mem'
        obtain ⟨mem'', took'⟩ := mem_filter.1 (rows ▸ List.mem_map_of_mem (f := Prod.fst) mem')
        rw [decide_eq_true_eq]
        intro same
        have eq := inj_on_of_nodup_map ledger.single mem'' mem same
        rw [eq, took] at took'
        cases took'
    have asked : (Db.event { db with replans := db.replans.filter (!taken ·) } (.replanSkipped cid
        (skipped.map (fun rc => ⟨rc.1.candidate, rc.1.request, rc.2.state, rc.2.drv, rc.2.error⟩)))).asked = db.asked := by
      simp [Db.asked, Db.event, Event.asked]
    have skips : (Db.event { db with replans := db.replans.filter (!taken ·) } (.replanSkipped cid
        (skipped.map (fun rc => ⟨rc.1.candidate, rc.1.request, rc.2.state, rc.2.drv, rc.2.error⟩)))).skips =
        db.skips ++ (db.replans.filter taken).map Replan.key := by
      simp [Db.skips, Db.event, Event.skips, ← rows, Function.comp_def, Replan.key]
    rw [kept]
    refine ⟨asked ▸ ledger.once, ?_, ledger.targeted, ledger.single.sublist (filter_sublist.map _), fun p mem => ?_⟩
    · rw [asked, skips]
      refine ledger.accounted.trans ?_
      have parts := ((filter_append_perm taken db.replans).map Replan.key).symm
      rw [map_append] at parts
      refine ((parts.append_right _).append_right _).trans ?_
      rw [append_assoc, append_assoc]
      refine (perm_append_comm).trans ?_
      rw [append_assoc, append_assoc, append_assoc]
      exact .refl _
    · simp only [Db.event, length_append]
      exact lt_of_lt_of_le (ledger.issued p (asked ▸ mem)) (Nat.le_add_right _ _)

theorem Commit.ledger (commit : Commit w op s t) (ledger : Ledger s.db) : Ledger t.db := by
  cases commit with
  | written written => exact ledger.kept written.kept
  | imported created source revision policy selections asked db =>
    refine db ▸ ledger.same ?_ ?_ ?_ rfl rfl <;>
    simp [Db.asked, Db.skips, Db.importCampaign, Db.event, Event.asked, Event.skips]
  | scheduled cid old new ahead db =>
    refine db ▸ ledger.same ?_ ?_ ?_ rfl rfl <;>
    simp [Db.asked, Db.skips, Db.updateCampaign, Db.event, Event.asked, Event.skips]
  | built c it spec row submitted covers derivations rooted db =>
    exact db ▸ ledger.build (buildSpec_targets submitted) (buildSpec_requests submitted)
  | planned c it spec row submitted ids db =>
    obtain ⟨-, targets, requests⟩ := planSpec_ok submitted
    exact db ▸ ledger.intend targets ids requests
  | finished a mid reason result live written released db =>
    have kept := written.kept
    have ledger' := ledger.kept kept
    refine db ▸ ledger'.same ?_ ?_ ?_ rfl ?_
    · simp [Db.asked, Db.updateAttempts, Db.event, Event.asked]
    · simp [Db.skips, Db.updateAttempts, Db.event, Event.skips]
    · simp [Db.updateAttempts, Db.event]
    · simp only [Db.event, Db.updateAttempts, List.map_map]
      refine map_congr_left fun b _ => ?_
      simp only [Function.comp]
      split <;> rfl
  | queued c o ids pending now command distinct source found db => exact db ▸ ledger.queue distinct found
  | skipped cid drvs db => exact db ▸ ledger.skip

theorem bookkept_empty : Bookkept .empty where
  lanes := ⟨forall_mem_nil _, Nat.zero_le _⟩
  running := forall_mem_nil _
  bare := forall_mem_nil _
  detached := forall_mem_nil _
  ledger := ⟨nodup_nil, .refl _, forall_mem_nil _, nodup_nil, forall_mem_nil _⟩

theorem Commit.bookkept (indexed : Indexed s.db) (commit : Commit w op s t) (books : Bookkept s.db) : Bookkept t.db :=
  ⟨commit.lanes books.lanes, commit.running indexed books.running, commit.bare books.bare, commit.detached books.detached,
    commit.ledger books.ledger⟩

end Experiment
