import Nanofil.Experiment.Changes

/-! What the end of an attempt changes of the tables. -/
namespace Experiment
open List Option

variable {α β : Type*} {s : Controller} {spec : Spec}

section
variable {runs : Uuid → Option Drv → Prop} {w : World} {db db' : Db} {a : Attempt}

/-! ### Active attempts -/

theorem activeRoots_same {as as' : List Attempt} (same : List.Forall₂ SameAttempt as as') (cid : Uuid) :
    ((as'.filter (·.state.active)).filter (·.campaign = cid)).flatMap (·.spec.targets.roots) =
      ((as.filter (·.state.active)).filter (·.campaign = cid)).flatMap (·.spec.targets.roots) := by
  induction same with
  | nil => rfl
  | cons head _ ih =>
    simp only [filter_cons, head.active]
    split
    · simp only [filter_cons, head.campaign]
      split
      · simp only [flatMap_cons, head.spec, ih]
      · exact ih
    · exact ih

theorem Kept.activeRoots (kept : Kept runs db db') (cid : Uuid) : db'.activeRoots cid = db.activeRoots cid :=
  activeRoots_same kept.attempts cid

/-! ### Plans -/

theorem written_planFailed (db : Db) (id : Nat) (message : String) : Written w runs db (db.planFailed id message) :=
  .candidates (fun _ _ _ => .calm rfl rfl rfl (by simp) (by simp) fun _ _ => .inr (.inl rfl)) fun _ => rfl

/-- Why the end of a plan sets a candidate running: its derivation is an active root. -/
def Db.aliased (db : Db) (cid : Uuid) (c : Uuid) (drv : Option Drv) : Prop :=
  c = cid ∧ ∃ d ∈ db.activeRoots cid, drv = some d

theorem written_markRunning (db : Db) (cid : Uuid) : Written w (db.aliased cid) db (db.markRunning cid) := by
  refine .candidates (fun c _ chosen => ?_) fun _ => rfl
  simp only [Bool.and_eq_true, decide_eq_true_eq, Option.any_eq_true] at chosen
  obtain ⟨here, d, planned, root⟩ := chosen
  exact ⟨rfl, rfl, fun _ => .inr ⟨here, d, root, planned⟩, fun none_ => by simp [planned] at none_, nofun⟩

theorem written_finishPlan (db : Db) (a : Attempt) :
    Written w (db.aliased a.campaign) db (db.finishPlan a (w.worker a.id).rows) := by
  have planned : Written w (db.aliased a.campaign) db ((w.worker a.id).rows.foldl (Db.planRow a) db) :=
    foldl_written (fun row mem db => .planned mem) db
  have ended := planned.trans (foldl_written
    (l := a.spec.targets.ids.filter (fun id => (w.worker a.id).rows.all (·.id ≠ id)))
    (fun id _ db => written_planFailed db id "planning interrupted; no completed observation") _)
  have fresh := ended.trans (written_refresh _ a.campaign)
  refine fresh.trans ((written_markRunning _ a.campaign).mono fun cid drv => ?_)
  rintro ⟨here, d, root, planned⟩
  exact ⟨here, d, fresh.kept.activeRoots _ ▸ root, planned⟩

/-! ### Builds -/

variable {e : Ended}

theorem written_finishDerivation {drv : Drv} (finished : Db.finishDerivation a e db drv = .ok db') : Written w runs db db' := by
  rw [Db.finishDerivation] at finished
  cases found : db.derivation? drv with
  | none => simp [found] at finished
  | some d =>
    simp only [found] at finished
    split at finished
    · simp only [Except.ok.injEq] at finished
      subst finished
      have known : ∀ {p : Bool} {origin : BuildOrigin}, Written w runs db (if p then db.updateDerivations (·.drv = drv) (fun d =>
          { d with available := true, origin := origin, failure := none, evidenceAttempt := some a.id }) else db) := by
        intro p origin
        split
        exacts [.derivations fun _ _ => ⟨rfl, fun excluded => excluded⟩, .refl db]
      split
      · exact known.trans .tested
      · exact known
    · split at finished
      · simp only [Except.ok.injEq] at finished
        exact finished ▸ .derivations fun _ _ => ⟨rfl, fun excluded => excluded⟩
      · simp only [Except.ok.injEq] at finished
        exact finished ▸ .refl db

theorem written_finishDerivations {drvs : List Drv} (finished : drvs.foldlM (Db.finishDerivation a e) db = .ok db') :
    Written w runs db db' := by
  induction drvs generalizing db with
  | nil =>
    cases finished
    exact .refl _
  | cons drv drvs ih =>
    rw [foldlM_cons] at finished
    cases first : Db.finishDerivation a e db drv with
    | error err =>
      rw [first] at finished
      cases finished
    | ok mid =>
      rw [first] at finished
      exact (written_finishDerivation first).trans (ih finished)

/-- No candidate of a campaign with one of some derivations is running. -/
def Released (cid : Uuid) (drvs : List Drv) (db : Db) : Prop :=
  ∀ c ∈ db.candidates, c.campaign = cid → ∀ d ∈ drvs, c.drv = some d → c.state ≠ .running

theorem mem_right {R : α → β → Prop} {as : List α} {bs : List β} (all : List.Forall₂ R as bs) {b : β}
    (mem : b ∈ bs) : ∃ a ∈ as, R a b := by
  induction all with
  | nil => cases mem
  | cons head _ ih =>
    rcases mem_cons.1 mem with rfl | mem
    · exact ⟨_, mem_cons_self, head⟩
    · obtain ⟨a, mem, rel⟩ := ih mem
      exact ⟨a, mem_cons_of_mem _ mem, rel⟩

theorem Kept.released (kept : Kept noRuns db db') {cid : Uuid} {drvs : List Drv} (released : Released cid drvs db) :
    Released cid drvs db' := by
  intro c' mem here d root planned run
  obtain ⟨c, mem, turns⟩ := mem_right kept.candidates mem
  rcases turns.running run with ⟨run, same⟩ | never
  · exact released c mem (turns.campaign ▸ here) d root (same ▸ planned) run
  · exact never

theorem written_routeLocally (cid : Uuid) (db : Db) (drv : Drv) : Written w runs db (db.routeLocally cid drv) := by
  refine .trans (.derivations (p := (·.drv = drv)) (f := fun d =>
      { d with metadata := some { d.metadata.getD ⟨none, [], false⟩ with localOnly := true } })
    fun _ _ => ⟨rfl, fun excluded => excluded⟩) (.candidates (fun c _ chosen => ?_) fun _ => rfl)
  simp only [Bool.and_eq_true, decide_eq_true_eq] at chosen
  exact .calm rfl rfl rfl (by simp) (by simp) fun none_ _ => by simp [none_] at chosen

theorem written_releaseRoots (db : Db) (a : Attempt) : Written w runs db (db.releaseRoots a) := by
  refine .candidates (fun c _ chosen => ?_) fun _ => rfl
  simp only [Bool.and_eq_true] at chosen
  exact .calm rfl rfl rfl (by simp) (by simp) fun none_ _ => by simp [none_] at chosen

theorem written_holdRoots (db : Db) (a : Attempt) (reason : String) : Written w runs db (db.holdRoots a reason) := by
  refine .candidates (fun c _ chosen => ?_) fun _ => rfl
  simp only [Bool.and_eq_true] at chosen
  exact .calm rfl rfl rfl (by simp) (by simp) fun none_ _ => by simp [none_] at chosen

theorem releaseRoots_released (db : Db) (a : Attempt) : Released a.campaign a.spec.targets.roots (db.releaseRoots a) := by
  intro c' mem here d root planned run
  obtain ⟨c, -, rfl⟩ := List.mem_map.1 mem
  split at run
  · cases run
  · rename_i out
    rw [if_neg out] at here planned
    simp [here, planned, root, run] at out

theorem settleRoots_ok (db : Db) (a : Attempt) (e : Ended) :
    Written w noRuns db (db.settleRoots a e) ∧ Released a.campaign a.spec.targets.roots (db.settleRoots a e) := by
  have held : Written w noRuns (db.releaseRoots a) (((db.releaseRoots a).refreshCandidates a.campaign).holdRoots a e.reason) :=
    (written_refresh _ _).trans (written_holdRoots _ _ _)
  have settled : Written w noRuns (db.releaseRoots a) (db.settleRoots a e) := by
    rw [Db.settleRoots]
    split
    · exact held.trans (foldl_written (fun drv _ db => written_routeLocally a.campaign db drv) _)
    · exact held
  exact ⟨(written_releaseRoots db a).trans settled, settled.kept.released (releaseRoots_released db a)⟩

theorem finishBuild_ok {r : Result} (finished : db.finishBuild a e = .ok (db', r)) :
    Written w noRuns db db' ∧ Released a.campaign a.spec.targets.roots db' := by
  rw [Db.finishBuild] at finished
  cases ended : a.spec.derivations.foldlM (Db.finishDerivation a e) db with
  | error err =>
    rw [ended] at finished
    cases finished
  | ok mid =>
    rw [ended] at finished
    simp only [bind, Except.bind, pure, Except.pure, Except.ok.injEq, Prod.mk.injEq] at finished
    obtain ⟨rfl, -⟩ := finished
    obtain ⟨written, released⟩ := settleRoots_ok (w := w) mid a e
    exact ⟨(written_finishDerivations ended).trans written, released⟩

end

/-! Every commit of an operation, as one of a few kinds. -/

open Commits

/-! ### Kinds -/

/-- Rows are identified by their places. -/
structure Indexed (db : Db) : Prop where
  campaigns : db.campaigns.map (·.id) = List.range db.campaigns.length
  candidates : db.candidates.map (·.id) = List.range db.candidates.length
  attempts : db.attempts.map (·.id) = List.range db.attempts.length

/-- The row of a campaign has the policy that it was read with. -/
def HasRow (db : Db) (c : Campaign) : Prop := ∃ row ∈ db.campaigns, row.id = c.id ∧ row.policy = c.policy

/-- The row of an attempt that is still active. -/
def LiveRow (db : Db) (a : Attempt) : Prop :=
  ∃ row ∈ db.attempts, row.id = a.id ∧ row.campaign = a.campaign ∧ row.spec = a.spec ∧ row.state.active

/-- A reservation that holds what each active build needs. -/
def Db.Covers (db : Db) (r : Reservation) : Prop :=
  ∀ b ∈ db.activeBuilds, ∀ d ∈ db.needed b.spec.targets.roots r.available, d ∈ r.held

/-- Derivations of candidates. -/
def Db.Rooted (db : Db) (drvs : List Drv) : Prop := ∀ d ∈ drvs, ∃ x ∈ db.candidates, x.drv = some d

/-- What a commit of an operation may do, in the world that it ran in. -/
inductive Commit (w : World) (op : Op) (s t : Controller) : Prop
  | written (written : Written w noRuns s.db t.db)
  | imported (created : Int) (source revision : String) (policy : Policy) (selections : List (String × Bool))
      (asked : op = .import_ created source revision policy selections)
      (db : t.db = s.db.importCampaign created source revision policy selections)
  | scheduled (cid : Uuid) (old new : Schedule) (ahead : ¬ (new.scheduling = .rolling ∧ new.planAhead = 0))
      (db : t.db = (s.db.updateCampaign cid (fun c => { c with policy := c.policy.reschedule new })).event
        (.schedulingUpdated cid old new))
  | built (c : Campaign) (it : BuildIntent) (spec : Spec) (row : HasRow s.db c) (submitted : buildSpec w c it s = .ok spec)
      (covers : ∀ r, it.observation = some r → s.db.Covers r)
      (derivations : it.derivations = (it.targets.flatMap s.db.closure).dedup)
      (rooted : s.db.Rooted it.targets) (db : t.db = s.db.intend c spec)
  | planned (c : Campaign) (it : PlanIntent) (spec : Spec) (row : HasRow s.db c) (submitted : planSpec c it s = .ok spec)
      (ids : it.ids.Nodup) (db : t.db = s.db.intend c spec)
  | finished (a : Attempt) (mid : Db) (reason : String) (result : Result) (live : LiveRow s.db a)
      (written : Written w (s.db.aliased a.campaign) s.db mid)
      (released : a.isBuild → Released a.campaign a.spec.targets.roots mid)
      (db : t.db = (mid.updateAttempts (·.id = a.id) (fun a => { a with state := .finished, result := some result })).event
        (.attemptFinished a.campaign a.id reason))
  | queued (c : Campaign) (o : Origin) (ids pending : List Nat) (now : Int) (command : op ≠ .tick) (distinct : ids.Nodup)
      (source : sourceName o.source o.revision) (found : s.db.pendingReplans c.id o ids = .ok pending)
      (db : t.db = { s.db with
        replans := s.db.replans ++ pending.map (fun id => ⟨id, o.source, o.revision, s.db.events.length, now⟩)
        events := s.db.events ++ [.replanQueued c.id s.db.events.length pending o.source o.revision] })
  | skipped (cid : Uuid) (drvs : List Drv) (db : t.db = s.db.skipReplans cid drvs)

/-! ### What the rows keep -/

variable {runs : Uuid → Option Drv → Prop} {db db' : Db} {w : World} {c : Campaign} {a : Attempt} {cs : List Campaign}
  {as : List Attempt}

theorem map_same {R : α → α → Prop} {f : α → β} (same : ∀ a b, R a b → f b = f a) {as bs : List α}
    (all : List.Forall₂ R as bs) : bs.map f = as.map f := by
  induction all with
  | nil => rfl
  | cons head _ ih => rw [map_cons, map_cons, same _ _ head, ih]

theorem Kept.campaignIds (kept : Kept runs db db') : db'.campaigns.map (·.id) = db.campaigns.map (·.id) := by
  have := congrArg (List.map Prod.fst) kept.campaigns
  simpa only [List.map_map, Function.comp_def] using this

theorem Kept.indexed (kept : Kept runs db db') (indexed : Indexed db) : Indexed db' where
  campaigns := by
    have same := congrArg List.length kept.campaignIds
    simp only [length_map] at same
    rw [kept.campaignIds, indexed.campaigns, same]
  candidates := by
    rw [map_same (fun _ _ turns => turns.id) kept.candidates, indexed.candidates, kept.candidates.length_eq]
  attempts := by
    rw [map_same (fun _ _ same => same.id) kept.attempts, indexed.attempts, kept.attempts.length_eq]

theorem Kept.hasRow (kept : Kept runs db db') (row : HasRow db c) : HasRow db' c := by
  obtain ⟨row, mem, id, policy⟩ := row
  have mem : (c.id, c.policy) ∈ db.campaigns.map (fun c => (c.id, c.policy)) :=
    List.mem_map.2 ⟨row, mem, by rw [id, policy]⟩
  obtain ⟨row', mem, same⟩ := List.mem_map.1 (kept.campaigns ▸ mem)
  exact ⟨row', mem, (Prod.mk.inj same).1, (Prod.mk.inj same).2⟩

theorem mem_left {R : α → β → Prop} {as : List α} {bs : List β} (all : List.Forall₂ R as bs) {a : α}
    (mem : a ∈ as) : ∃ b ∈ bs, R a b := by
  obtain ⟨b, mem, rel⟩ := mem_right all.flip mem
  exact ⟨b, mem, rel⟩

theorem Kept.liveRow (kept : Kept runs db db') (live : LiveRow db a) : LiveRow db' a := by
  obtain ⟨row, mem, id, campaign, spec, active⟩ := live
  obtain ⟨row', mem, same⟩ := mem_left kept.attempts mem
  exact ⟨row', mem, same.id.trans id, same.campaign.trans campaign, same.spec.trans spec, same.active.trans active⟩

theorem LiveRow.finish {p : Attempt → Bool} {f : Attempt → Attempt} (live : LiveRow db a)
    (other : ∀ row, row.id = a.id → p row = false) : LiveRow (db.updateAttempts p f) a := by
  obtain ⟨row, mem, same⟩ := live
  exact ⟨row, List.mem_map.2 ⟨row, mem, by rw [other row same.1]; rfl⟩, same⟩

/-- What reconciliation and admission rely on while they run: the campaigns and the attempts that
they have read and have not come to yet. -/
structure Ready (cs : List Campaign) (as : List Attempt) (s : Controller) : Prop where
  indexed : Indexed s.db
  rows : ∀ c ∈ cs, HasRow s.db c
  distinct : (as.map (·.id)).Nodup
  live : ∀ a ∈ as, LiveRow s.db a

theorem Ready.kept {t : Controller} (ready : Ready cs as s) (kept : Kept runs s.db t.db) : Ready cs as t :=
  ⟨kept.indexed ready.indexed, fun c mem => kept.hasRow (ready.rows c mem), ready.distinct,
    fun a mem => kept.liveRow (ready.live a mem)⟩

theorem Ready.rest (ready : Ready cs (a :: as) s) : Ready cs as s :=
  ⟨ready.indexed, ready.rows, (nodup_cons.1 ready.distinct).2, fun b mem => ready.live b (mem_cons_of_mem _ mem)⟩

theorem indexed_event {e : Event} (indexed : Indexed db) : Indexed (db.event e) :=
  ⟨indexed.campaigns, indexed.candidates, indexed.attempts⟩

theorem indexed_candidates {p : Candidate → Bool} {f : Candidate → Candidate} (same : ∀ c, (f c).id = c.id)
    (indexed : Indexed db) : Indexed (db.updateCandidates p f) := by
  refine ⟨indexed.campaigns, ?_, indexed.attempts⟩
  rw [Db.updateCandidates, length_map, ← indexed.candidates, List.map_map]
  refine map_congr_left fun c _ => ?_
  simp only [Function.comp]
  split
  exacts [same c, rfl]

theorem indexed_attempts {p : Attempt → Bool} {f : Attempt → Attempt} (same : ∀ a, (f a).id = a.id) (indexed : Indexed db) :
    Indexed (db.updateAttempts p f) := by
  refine ⟨indexed.campaigns, indexed.candidates, ?_⟩
  rw [Db.updateAttempts, length_map, ← indexed.attempts, List.map_map]
  refine map_congr_left fun a _ => ?_
  simp only [Function.comp]
  split
  exacts [same a, rfl]

theorem indexed_intend (indexed : Indexed db) : Indexed (db.intend c spec) := by
  have added : Indexed { db with attempts := db.attempts ++ [⟨db.attempts.length, c.id, .intended, spec, none, false⟩] } := by
    refine ⟨indexed.campaigns, indexed.candidates, ?_⟩
    simp [indexed.attempts, range_succ]
  refine indexed_event ?_
  cases spec.targets with
  | build drvs => exact indexed_candidates (fun _ => rfl) added
  | plan ids =>
    have detached : Indexed (if spec.previousCandidates = [] then
        { db with attempts := db.attempts ++ [⟨db.attempts.length, c.id, .intended, spec, none, false⟩] }
        else Db.updateCandidates
          { db with attempts := db.attempts ++ [⟨db.attempts.length, c.id, .intended, spec, none, false⟩] }
          (fun x => x.campaign = c.id && x.id ∈ ids)
          (fun x => { x with state := .unplanned, drv := none, recipe := none, error := none })) := by
      split
      exacts [added, indexed_candidates (fun _ => rfl) added]
    exact ⟨detached.campaigns, detached.candidates, detached.attempts⟩

theorem intend_campaigns : (db.intend c spec).campaigns = db.campaigns := by
  rw [Db.intend]
  cases spec.targets with
  | build drvs => rfl
  | plan ids =>
    simp only [Db.event]
    split <;> rfl

theorem Ready.intend {t : Controller} (ready : Ready cs [] s) (db : t.db = s.db.intend c spec) : Ready cs [] t := by
  refine ⟨db ▸ indexed_intend ready.indexed, fun c mem => ?_, nodup_nil, forall_mem_nil _⟩
  rw [HasRow, db, intend_campaigns]
  exact ready.rows c mem

theorem Ready.skip {s t : Controller} {cid : Uuid} {drvs : List Drv} (ready : Ready cs [] s)
    (db : t.db = s.db.skipReplans cid drvs) : Ready cs [] t := by
  rw [Db.skipReplans] at db
  split at db
  · have same : SameTables s.db t.db := db ▸ .refl _
    exact ready.kept (same.kept : Kept noRuns s.db t.db)
  · refine ⟨db ▸ ⟨ready.indexed.campaigns, ready.indexed.candidates, ready.indexed.attempts⟩, fun c mem => ?_,
      nodup_nil, forall_mem_nil _⟩
    rw [HasRow, db]
    exact ready.rows c mem

end Experiment
