import Nanofil.Experiment.Outcomes

/-! The outcomes that are stored with an attempt stay, whatever is done after it. -/
namespace Experiment
open List Option Logs Commits

variable {db db' db'' : Db} {by_ : Option Uuid} {w : World} {op : Op} {a : Attempt} {c : Campaign} {cs : List Campaign} {as : List Attempt}
  {s t : Controller}

/-! ### What is stored -/

/-- Finished attempts stay finished, with their outcomes. -/
def Retained (db db' : Db) : Prop := ∀ a ∈ db.attempts, a.state = .finished →
  ∃ a' ∈ db'.attempts, a'.id = a.id ∧ a'.state = .finished ∧ a'.result.map (·.buildOutcomes) = a.result.map (·.buildOutcomes)

/-- New evidence and new tests are of no other attempt. -/
structure Marks (by_ : Option Uuid) (db db' : Db) : Prop where
  attempts : Retained db db'
  evidence : ∀ d' ∈ db'.derivations, ∀ aid, d'.evidenceAttempt = some aid →
    by_ = some aid ∨ ∃ d ∈ db.derivations, d.evidenceAttempt = some aid
  tests : ∀ t ∈ db'.tests, by_ = some t.attempt ∨ t ∈ db.tests

def Finished (db : Db) (aid : Uuid) : Prop := ∃ a ∈ db.attempts, a.id = aid ∧ a.state = .finished

/-- What is stored of builds is of attempts that are finished. -/
structure Owned (db : Db) : Prop where
  evidence : ∀ d ∈ db.derivations, ∀ aid, d.evidenceAttempt = some aid → Finished db aid
  tests : ∀ t ∈ db.tests, Finished db t.attempt

theorem Retained.refl (db : Db) : Retained db db := fun a mem finished => ⟨a, mem, rfl, finished, rfl⟩

theorem Retained.trans (first : Retained db db') (rest : Retained db' db'') : Retained db db'' := by
  intro a mem finished
  obtain ⟨a', mem', id, finished', outcomes⟩ := first a mem finished
  obtain ⟨a'', mem'', id', finished'', outcomes'⟩ := rest a' mem' finished'
  exact ⟨a'', mem'', id'.trans id, finished'', outcomes'.trans outcomes⟩

theorem Marks.of_same (attempts : db'.attempts = db.attempts) (derivations : db'.derivations = db.derivations) (tests : db'.tests = db.tests) :
    Marks by_ db db' where
  attempts a mem finished := ⟨a, attempts ▸ mem, rfl, finished, rfl⟩
  evidence d mem _ evidence := .inr ⟨d, derivations ▸ mem, evidence⟩
  tests _ mem := .inr (tests ▸ mem)

theorem Marks.refl (db : Db) : Marks by_ db db := .of_same rfl rfl rfl

theorem Marks.trans (first : Marks by_ db db') (rest : Marks by_ db' db'') : Marks by_ db db'' where
  attempts := first.attempts.trans rest.attempts
  evidence d mem aid evidence := by
    obtain own | ⟨d', mem', evidence'⟩ := rest.evidence d mem aid evidence
    exacts [.inl own, first.evidence d' mem' aid evidence']
  tests t mem := (rest.tests t mem).elim .inl (first.tests t)

theorem Marks.by_any (marks : Marks none db db') : Marks by_ db db' where
  attempts := marks.attempts
  evidence d mem aid evidence := .inr ((marks.evidence d mem aid evidence).resolve_left nofun)
  tests t mem := .inr ((marks.tests t mem).resolve_left nofun)

theorem Marks.foldl {α : Type*} {f : Db → α → Db} (each : ∀ db x, Marks by_ db (f db x)) (xs : List α) (db : Db) :
    Marks by_ db (xs.foldl f db) := by
  induction xs generalizing db with
  | nil => exact .refl db
  | cons x xs ih => exact (each db x).trans (ih _)

theorem Marks.foldlM {α : Type*} {f : Db → α → Except Error Db} (each : ∀ db x db', f db x = .ok db' → Marks by_ db db') {xs : List α} {db : Db}
    (done : xs.foldlM f db = .ok db') : Marks by_ db db' := by
  induction xs generalizing db with
  | nil =>
    cases done
    exact .refl _
  | cons x xs ih =>
    rw [foldlM_cons] at done
    obtain ⟨mid, first, rest⟩ := bind_ok done
    exact (each _ _ _ first).trans (ih rest)

theorem marks_derivations {p : Derivation → Bool} {f : Derivation → Derivation}
    (evidence : ∀ d, (f d).evidenceAttempt = d.evidenceAttempt ∨ (f d).evidenceAttempt = by_) : Marks by_ db (db.updateDerivations p f) where
  attempts := .refl db
  evidence d' mem aid some_ := by
    obtain ⟨d, there, rfl⟩ := List.mem_map.1 mem
    split at some_
    · obtain same | own := evidence d
      · exact .inr ⟨d, there, same ▸ some_⟩
      · exact .inl (own ▸ some_)
    · exact .inr ⟨d, there, some_⟩
  tests t mem := .inr mem

theorem marks_attempts {p : Attempt → Bool} {f : Attempt → Attempt} (kept : ∀ a ∈ db.attempts, a.state = .finished → p a = true →
    (f a).id = a.id ∧ (f a).state = .finished ∧ (f a).result.map (·.buildOutcomes) = a.result.map (·.buildOutcomes)) :
    Marks by_ db (db.updateAttempts p f) where
  attempts a mem finished := by
    refine ⟨_, List.mem_map_of_mem mem, ?_⟩
    split_ifs with chosen
    exacts [kept a mem finished chosen, ⟨rfl, finished, rfl⟩]
  evidence d mem aid evidence := .inr ⟨d, mem, evidence⟩
  tests t mem := .inr mem

theorem marks_addDerivation (db : Db) (shown : Drv × Info) : Marks none db (db.addDerivation shown) := by
  have inserted : Marks none db (db.insertDerivation shown.1 shown.2.name (shownOutputs (db.derivation? shown.1) shown.2)) := by
    rw [Db.insertDerivation]
    split_ifs
    · exact .refl db
    · refine ⟨.refl db, fun d mem aid evidence => ?_, fun t mem => .inr mem⟩
      rcases mem_append.1 mem with old | new
      · exact .inr ⟨d, old, evidence⟩
      · rw [mem_singleton.1 new] at evidence
        cases evidence
  have edge (db : Db) (child : Drv × List String) : Marks none db (db.insertDependency ⟨shown.1, child.1, child.2⟩) := by
    rw [Db.insertDependency]
    split_ifs
    exacts [.refl db, .of_same rfl rfl rfl]
  have filled (db : Db) (outputs : Outputs) (metadata : Metadata) : Marks none db (db.fillDerivation shown.1 outputs metadata) :=
    marks_derivations fun _ => .inl rfl
  have excluded (db : Db) (reason : Option String) : Marks none db (db.judgeDerivation shown.1 reason) := marks_derivations fun _ => .inl rfl
  exact ((inserted.trans (filled _ _ _)).trans (excluded _ _)).trans (.foldl edge _ _)

theorem marks_addGraph (db : Db) (data : Graph) : Marks none db (db.addGraph data) := .foldl marks_addDerivation data db

theorem marks_ingest (db : Db) (aid : Uuid) (log : List Record) : Marks none db (db.ingest aid log) := by
  refine .foldl (fun db record => ?_) log db
  cases record with
  | start activity drv =>
    rw [Db.observe]
    split_ifs
    exacts [.refl db, .of_same rfl rfl rfl]
  | phase => exact .of_same rfl rfl rfl

theorem marks_planRow (a : Attempt) (db : Db) (row : PlanRow) : Marks none db (db.planRow a row) := by
  rw [Db.planRow]
  cases row.planned with
  | error message => exact .of_same rfl rfl rfl
  | recipe drv graph => exact (marks_addGraph db graph).trans (.of_same rfl rfl rfl)

theorem marks_finishPlan (db : Db) (a : Attempt) (rows : List PlanRow) : Marks none db (db.finishPlan a rows) := by
  have planned : Marks none db (rows.foldl (Db.planRow a) db) := .foldl (marks_planRow a) rows db
  have failed (db : Db) (id : Nat) : Marks none db (db.planFailed id "planning interrupted; no completed observation") := .of_same rfl rfl rfl
  have ended : Marks none db ((a.spec.targets.ids.filter (fun id => rows.all (·.id ≠ id))).foldl
      (fun db id => db.planFailed id "planning interrupted; no completed observation") (rows.foldl (Db.planRow a) db)) :=
    planned.trans (.foldl failed _ _)
  exact ended.trans (.of_same rfl rfl rfl)

theorem marks_intend (db : Db) (c : Campaign) (spec : Spec) : Marks none db (db.intend c spec) := by
  have attempts := intend_attempts db c spec
  refine ⟨fun a mem finished => ⟨a, attempts ▸ mem_append_left _ mem, rfl, finished, rfl⟩, fun d mem aid evidence => .inr ⟨d, ?_, evidence⟩,
    fun t mem => .inr ?_⟩
  · rw [Db.intend] at mem
    cases kind : spec.targets <;> rw [kind] at mem
    · simp only [Db.event] at mem
      split_ifs at mem <;> exact mem
    · exact mem
  · rw [Db.intend] at mem
    cases kind : spec.targets <;> rw [kind] at mem
    · simp only [Db.event] at mem
      split_ifs at mem <;> exact mem
    · exact mem

/-! ### Ends -/

theorem marks_finishDerivation {e : Ended} {drv : Drv} (done : Db.finishDerivation a e db drv = .ok db') : Marks (some a.id) db db' := by
  rw [Db.finishDerivation] at done
  cases found : db.derivation? drv with
  | none => simp [found] at done
  | some d =>
    simp only [found] at done
    have tests (db : Db) (phases : List String) : Marks (some a.id) db (db.insertTests a.id drv phases) := by
      refine ⟨fun b mem finished => ⟨b, (same_insertTests db a.id drv phases).attempts ▸ mem, rfl, finished, rfl⟩,
        fun d mem aid evidence => .inr ⟨d, (insertTests_same phases db).1 ▸ mem, evidence⟩, fun t mem => ?_⟩
      exact ((mem_insertTests phases db).1 mem).elim .inr fun new => .inl (congrArg some new.1.symm)
    split_ifs at done
    all_goals simp only [Except.ok.injEq] at done; subst done
    · refine .trans ?_ (tests _ _)
      exact marks_derivations fun _ => .inr rfl
    · exact tests _ _
    · exact marks_derivations fun _ => .inr rfl
    · exact .refl _
    · exact marks_derivations fun _ => .inr rfl
    · exact .refl _

theorem marks_settleRoots (db : Db) (a : Attempt) (e : Ended) : Marks none db (db.settleRoots a e) := by
  have held : Marks none db (((db.releaseRoots a).refreshCandidates a.campaign).holdRoots a e.reason) := .of_same rfl rfl rfl
  have routed (cid : Uuid) (db : Db) (drv : Drv) : Marks none db (db.routeLocally cid drv) := by
    have marked : Marks none db (db.updateDerivations (·.drv = drv) (fun d =>
        { d with metadata := some { d.metadata.getD ⟨none, [], false⟩ with localOnly := true } })) := marks_derivations fun _ => .inl rfl
    exact marked.trans (.of_same rfl rfl rfl)
  rw [Db.settleRoots]
  split_ifs
  exacts [held.trans (.foldl (routed a.campaign) _ _), held]

theorem marks_finishBuild {e : Ended} {r : Result} (done : db.finishBuild a e = .ok (db', r)) : Marks (some a.id) db db' := by
  rw [Db.finishBuild] at done
  obtain ⟨mid, ended, done⟩ := bind_ok done
  cases done
  exact (Marks.foldlM (fun _ _ _ => marks_finishDerivation) ended).trans (marks_settleRoots mid a e).by_any

/-! ### Commits -/

/-- A commit stores of builds what is of one attempt at most, which it has finished. -/
def Stores (s t : Controller) : Prop := ∃ by_, Marks by_ s.db t.db ∧ ∀ aid, by_ = some aid → Finished t.db aid

theorem Marks.stores (marks : Marks none s.db t.db) : Stores s t := ⟨none, marks, nofun⟩

variable {aid cid : Uuid}

theorem Finished.kept (finished : Finished db aid) (retained : Retained db db') : Finished db' aid := by
  obtain ⟨a, mem, rfl, done⟩ := finished
  obtain ⟨a', mem', id, done', -⟩ := retained a mem done
  exact ⟨a', mem', id, done'⟩

theorem Stores.retained (stores : Stores s t) : Retained s.db t.db := stores.elim fun _ both => both.1.attempts

theorem Stores.owned (stores : Stores s t) (owned : Owned s.db) : Owned t.db := by
  obtain ⟨by_, marks, own⟩ := stores
  refine ⟨fun d mem aid evidence => ?_, fun row mem => ?_⟩
  · obtain new | ⟨d', mem', evidence'⟩ := marks.evidence d mem aid evidence
    exacts [own aid new, (owned.evidence d' mem' aid evidence').kept marks.attempts]
  · obtain new | old := marks.tests row mem
    exacts [own _ new, (owned.tests row old).kept marks.attempts]

/-- From any state, a computation stores nothing of builds. -/
def Quiet {α : Type} (m : Tx α) : Prop := Holds (fun s t => Marks none s.db t.db) (fun _ => True) m (fun _ _ => True) (fun _ _ => True)

section
variable {α β : Type} {m : Tx α}

theorem quiet_pure (a : α) : Quiet (pure a : Tx α) := .pure fun _ _ => trivial

theorem Quiet.bind {f : α → Tx β} (first : Quiet m) (next : ∀ a, Quiet (f a)) : Quiet (m >>= f) := Holds.bind first next

theorem quiet_read {f : Controller → Tx β} (next : ∀ s, Quiet (f s)) : Quiet (.get >>= f) :=
  .read fun s _ => (next s).mono (fun _ _ h => h) (fun _ _ => trivial) (fun _ _ h => h) fun _ _ h => h

theorem quiet_write {f : Db → Db} (marks : ∀ db, Marks none db (f db)) : Quiet (write f) :=
  .commit (fun s _ => marks s.db) fun _ _ => trivial

theorem quiet_transaction {body : Controller → Except Error (Controller × α)}
    (marks : ∀ s t a, body s = .ok (t, a) → Marks none s.db t.db) : Quiet (.transaction body) :=
  .transaction (fun s t a _ done => ⟨marks s t a done, trivial⟩) fun _ _ _ _ => trivial

theorem quiet_lift (x : Except Error α) : Quiet (.liftExcept x) := .liftExcept (fun _ _ _ _ => trivial) fun _ _ _ _ => trivial

theorem quiet_each {f : α → Tx Unit} {as : List α} (round : ∀ a, Quiet (f a)) : Quiet (.each f as) := .each fun a _ => round a

end

theorem quiet_intent (c : Campaign) (spec : Controller → Except Error Spec) : Quiet (intent c spec) := by
  refine quiet_transaction fun s t aid done => ?_
  obtain ⟨sp, -, done⟩ := bind_ok done
  cases done
  exact marks_intend s.db c sp

theorem quiet_plan {ids : List Nat} {revised : Option Origin} : Quiet (plan w cid ids revised) :=
  quiet_read fun _ => (quiet_lift _).bind fun _ => quiet_intent _ _

/-! ### Commands -/

theorem marks_excludeAttempt (done : db.excludeAttempt cid a = .ok db') : Marks none db db' := by
  rw [Db.excludeAttempt] at done
  split_ifs at done
  cases done
  refine Marks.trans (marks_attempts ?_) (.of_same rfl rfl rfl)
  intro b _ finished _
  refine ⟨rfl, finished, ?_⟩
  rw [Option.map_map]
  rfl

theorem quiet_excludeKernels {aid : Option Uuid} : Quiet (excludeKernels w cid aid) := by
  refine quiet_transaction fun s t u done => ?_
  obtain ⟨-, -, done⟩ := bind_ok done
  obtain ⟨attempt, -, done⟩ := bind_ok done
  obtain ⟨reclassified, found, done⟩ := bind_ok done
  cases done
  have excluded (db : Db) (drvs : List Drv) : Marks none db (db.markKernels cid drvs) :=
    (Marks.of_same rfl rfl rfl : Marks none db (db.updateCandidates _ _)).trans (marks_derivations fun _ => .inl rfl)
  suffices marked : Marks none s.db reclassified from marked.trans (.of_same rfl rfl rfl)
  cases attempt with
  | none =>
    cases found
    exact (marks_addGraph _ _).trans (excluded _ _)
  | some a => exact ((marks_addGraph _ _).trans (excluded _ _)).trans (marks_excludeAttempt found)

theorem quiet_excludeToolchains {scope : Scope} : Quiet (excludeToolchains w scope cid) := by
  refine quiet_transaction fun s t u done => ?_
  obtain ⟨-, -, done⟩ := bind_ok done
  cases done
  have named (db : Db) (drvs others : List Drv) : Marks none db (db.markScope scope drvs others) := by
    refine Marks.trans (marks_derivations ?_) (marks_derivations ?_)
    exacts [fun _ => .inl rfl, fun _ => .inl rfl]
  exact (named _ _ _).trans (.of_same rfl rfl rfl)

theorem quiet_schedule {r : ScheduleRequest} : Quiet (schedule cid r) := by
  refine quiet_transaction fun s t u done => ?_
  obtain ⟨c, -, done⟩ := bind_ok done
  obtain ⟨-, -, done⟩ := bind_ok done
  obtain ⟨-, -, done⟩ := bind_ok done
  obtain ⟨-, -, done⟩ := bind_ok done
  simp only at done
  split_ifs at done
  · cases done
    exact .refl _
  · cases done
    exact .of_same rfl rfl rfl

theorem quiet_queueReplan {ids : List Nat} {o : Origin} : Quiet (queueReplan w cid ids o) := by
  refine quiet_transaction fun s t u done => ?_
  obtain ⟨c, -, done⟩ := bind_ok done
  obtain ⟨-, -, done⟩ := bind_ok done
  split at done
  · cases done
  · obtain ⟨pending, -, done⟩ := bind_ok done
    cases done
    split_ifs
    exacts [.refl _, .of_same rfl rfl rfl]

theorem marks_cleared (db : Db) (drv : Drv) : Marks none db (db.updateDerivations (·.drv = drv) (fun d => { d with failure := none })) :=
  marks_derivations fun _ => .inl rfl

theorem quiet_retryDerivation {drv : Drv} : Quiet (retryDerivation cid drv) := by
  refine quiet_transaction fun s t u done => ?_
  obtain ⟨-, -, done⟩ := bind_ok done
  simp only at done
  split_ifs at done
  obtain ⟨-, -, done⟩ := bind_ok done
  cases done
  exact (marks_cleared s.db drv).trans (.of_same rfl rfl rfl)

theorem marks_retryCandidate {id : Nat} (done : Db.retryCandidate cid db id = .ok db') : Marks none db db' := by
  rw [Db.retryCandidate] at done
  split at done
  · split_ifs at done
    obtain ⟨-, -, done⟩ := bind_ok done
    cases done
    exact (marks_cleared db _).trans (.of_same rfl rfl rfl)
  · cases done

theorem quiet_retry {ids : List Nat} : Quiet (retry cid ids) := by
  refine quiet_transaction fun s t u done => ?_
  obtain ⟨-, -, done⟩ := bind_ok done
  obtain ⟨retried, found, done⟩ := bind_ok done
  cases done
  exact (Marks.foldlM (fun _ _ _ => marks_retryCandidate) found).trans (.of_same rfl rfl rfl)

theorem quiet_setMode {mode : Mode} : Quiet (setMode cid mode) := by
  refine quiet_transaction fun s t u done => ?_
  obtain ⟨-, -, done⟩ := bind_ok done
  cases done
  exact .of_same rfl rfl rfl

theorem quiet_cancel : Quiet (cancel aid) := by
  refine quiet_transaction fun s t u done => ?_
  split at done
  · cases done
  · cases done
    refine Marks.trans (marks_attempts ?_) (.of_same rfl rfl rfl)
    exact fun b _ finished _ => ⟨rfl, finished, rfl⟩

theorem quiet_dispatch {r : Request} : Quiet (dispatch w r) := by
  cases r with
  | excludeKernels cid aid => exact quiet_excludeKernels
  | excludeToolchains cid scope => exact quiet_excludeToolchains
  | schedule cid r => exact quiet_schedule
  | plan cid ids revised => exact quiet_plan.bind fun _ => quiet_pure ()
  | queueReplan cid ids o => exact quiet_queueReplan
  | buildOnce cid ids =>
    exact (quiet_read fun _ => (quiet_lift _).bind fun _ => quiet_intent _ _).bind fun _ => quiet_pure ()
  | retryDerivation cid drv => exact quiet_retryDerivation
  | run cid => exact quiet_setMode
  | pause cid => exact quiet_setMode
  | cancel aid => exact quiet_cancel
  | retry cid ids => exact quiet_retry

/-! ### Admission -/

theorem quiet_prepareGraph {targets : List Drv} {rolling : Bool} : Quiet (prepareGraph w targets rolling) := by
  refine quiet_read fun s => ?_
  simp only
  split
  · exact quiet_pure _
  · refine (quiet_write fun db => marks_addGraph db _).bind fun _ => Quiet.bind ?_ fun _ => quiet_read fun _ => quiet_pure _
    exact .commit (fun _ _ => .refl _) fun _ _ => trivial

theorem quiet_admitRolling {available : List StorePath} {drvs held : List Drv} {admitted : Bool} :
    Quiet (admitRolling w c available drvs held admitted) := by
  induction drvs generalizing held admitted with
  | nil => exact quiet_pure _
  | cons drv drvs ih =>
    refine quiet_read fun s => ?_
    simp only
    split
    · exact quiet_pure _
    · split
      · exact ih
      · split
        · exact ih
        · exact (quiet_intent _ _).bind fun _ => ih

theorem quiet_admitBuilds : Quiet (admitBuilds w c) := by
  refine quiet_read fun s => quiet_prepareGraph.bind fun observed => quiet_read fun s' => ?_
  simp only
  split
  · exact quiet_admitRolling
  · split
    · exact quiet_pure _
    · exact (quiet_intent _ _).bind fun _ => quiet_pure _

theorem quiet_admitPlans {builds : List Attempt} : Quiet (admitPlans w c builds) := by
  refine quiet_read fun s => ?_
  simp only
  split
  · exact quiet_pure _
  · refine (quiet_write fun db => ?_).bind fun _ => quiet_read fun s' => ?_
    · rw [Db.skipReplans]
      split
      exacts [.refl db, .of_same rfl rfl rfl]
    · split
      · exact quiet_plan.bind fun _ => quiet_pure _
      · split
        · exact quiet_pure _
        · exact quiet_plan.bind fun _ => quiet_pure _

theorem quiet_refreshMachines : Quiet (refreshMachines w c) := by
  refine quiet_read fun s => ?_
  split
  · exact .commit (fun _ _ => .refl _) fun _ _ => trivial
  · exact quiet_pure _

theorem quiet_plansBeside {builds : List Attempt} {planning admitted : Bool} : Quiet (plansBeside w c builds planning admitted) := by
  rw [plansBeside]
  split
  · exact quiet_pure _
  · exact quiet_read fun s => quiet_admitPlans

theorem quiet_admitCampaign : Quiet (admitCampaign w c) := by
  refine quiet_refreshMachines.bind fun _ => quiet_read fun s => ?_
  simp only
  split
  · exact quiet_pure _
  · split
    · exact quiet_pure _
    · refine Quiet.bind ?_ fun _ => ?_
      · exact quiet_write fun _ => .of_same rfl rfl rfl
      · split
        · exact quiet_pure _
        · refine Quiet.bind ?_ fun _ => quiet_plansBeside
          rw [buildsIf]
          split
          exacts [quiet_admitBuilds, quiet_pure _]

/-! ### Reconciliation -/

/-- A finished row is not one that is still active. -/
theorem live_unfinished (indexed : Indexed db) (live : LiveRow db a) {b : Attempt} (mem : b ∈ db.attempts) (finished : b.state = .finished) :
    b.id ≠ a.id := by
  obtain ⟨row, mem', id, -, -, active⟩ := live
  have distinct : (db.attempts.map (·.id)).Nodup := indexed.attempts ▸ nodup_range
  intro same
  have same : b = row := inj_on_of_nodup_map distinct mem mem' (same.trans id.symm)
  rw [← same, finished] at active
  cases active

theorem marks_live {f : Attempt → Attempt} (indexed : Indexed db) (live : LiveRow db a) :
    Marks none db (db.updateAttempts (·.id = a.id) f) :=
  marks_attempts fun _ mem finished chosen => absurd (of_decide_eq_true chosen) (live_unfinished indexed live mem finished)

/-- The end of an attempt. -/
def Db.ended (db : Db) (a : Attempt) (result : Result) (reason : String) : Db :=
  (db.updateAttempts (·.id = a.id) (fun a => { a with state := .finished, result := some result })).event
    (.attemptFinished a.campaign a.id reason)

theorem marks_ended {result : Result} {reason : String} (indexed : Indexed db) (live : LiveRow db a) :
    Marks none db (db.ended a result reason) ∧ Finished (db.ended a result reason) a.id := by
  refine ⟨(marks_live indexed live).trans (.of_same rfl rfl rfl), ?_⟩
  obtain ⟨row, mem, id, -⟩ := live
  refine ⟨_, List.mem_map_of_mem mem, ?_⟩
  rw [if_pos (decide_eq_true id)]
  exact ⟨id, rfl⟩

theorem finishAttempt_stores {reason : String} {truncated : Bool} :
    Holds Stores (Ready cs (a :: as)) (finishAttempt w a reason truncated) (fun _ _ => True) (fun _ _ => True) := by
  refine .transaction (fun s t u ready done => ⟨?_, trivial⟩) (fun _ _ _ _ => trivial)
  have live := ready.live a mem_cons_self
  cases targets : a.spec.targets with
  | plan ids =>
    simp only [targets, bind, Except.bind, pure, Except.pure, Except.ok.injEq, Prod.mk.injEq] at done
    obtain ⟨rfl, -⟩ := done
    have kept := (written_finishPlan (w := w) s.db a).kept
    obtain ⟨marks, -⟩ := marks_ended (kept.indexed ready.indexed) (kept.liveRow live)
    exact ((marks_finishPlan s.db a _).trans marks).stores
  | build drvs =>
    simp only [targets] at done
    cases ended : s.db.finishBuild a ⟨reason, truncated, (w.worker a.id).failures, (w.worker a.id).unable, w.before a.id,
        w.valid (.ended a.id)⟩ with
    | error e =>
      rw [ended] at done
      cases done
    | ok r =>
      obtain ⟨mid, result⟩ := r
      rw [ended] at done
      simp only [bind, Except.bind, pure, Except.pure, Except.ok.injEq, Prod.mk.injEq] at done
      obtain ⟨rfl, -⟩ := done
      have kept := (finishBuild_ok (w := w) ended).1.kept
      obtain ⟨marks, finished⟩ := marks_ended (kept.indexed ready.indexed) (kept.liveRow live)
      refine ⟨some a.id, (marks_finishBuild ended).trans marks.by_any, fun aid own => ?_⟩
      cases own
      exact finished

/-- What a computation stores, where its commits are known to leave what reconciliation relies on. -/
theorem stores_ready (w : World) (op : Op) {α : Type} {m : Tx α} {P : Controller → Prop} {Q : α → Controller → Prop} {E : Error → Controller → Prop}
    (stores : Holds Stores P m (fun _ _ => True) (fun _ _ => True)) (commits : Holds (Commit w op) P m Q E) : Holds Stores P m Q E :=
  (stores.and commits).mono (fun _ _ h => h) (fun _ pre => ⟨pre, pre⟩) (fun _ _ both => both.2) fun _ _ both => both.2

theorem Quiet.stores {α : Type} {m : Tx α} {P : Controller → Prop} (quiet : Quiet m) :
    Holds Stores P m (fun _ _ => True) (fun _ _ => True) :=
  quiet.mono (fun _ _ marks => marks.stores) (fun _ _ => trivial) (fun _ _ h => h) fun _ _ h => h

theorem reconcileAttempt_stores : Holds Stores (Ready cs (a :: as)) (reconcileAttempt w a) (fun _ => Ready cs as) Rests := by
  have ingests (log : List Record) : Holds Stores (Ready cs (a :: as)) (write (·.ingest a.id log)) (fun _ => Ready cs (a :: as)) Rests :=
    stores_ready w .tick (quiet_write fun db => marks_ingest db a.id log).stores ingest_commits
  have ends (reason : String) (truncated : Bool) :
      Holds Stores (Ready cs (a :: as)) (finishAttempt w a reason truncated) (fun _ => Ready cs as) Rests :=
    stores_ready w .tick finishAttempt_stores finishAttempt_commits
  have skips : Holds Stores (Ready cs (a :: as)) (pure () : Tx Unit) (fun _ => Ready cs as) Rests := .pure fun s ready => ready.rest
  refine .bind (ingests _) fun _ => ?_
  cases (w.worker a.id).exit with
  | some exit =>
    simp only
    split
    · exact skips
    · exact .bind (ingests _) fun _ => ends _ _
  | none =>
    simp only
    split
    · refine .commit (fun s ready => Marks.stores ?_) fun s ready => (ready.kept (updateAttempts_same (w := w) ready).kept).rest
      exact marks_live ready.indexed (ready.live a mem_cons_self)
    · split
      · split
        exacts [ends _ _, skips]
      · exact ends _ _

theorem reconcile_stores : Holds Stores (Ready cs []) (reconcile w) (fun _ => Ready cs []) Rests := by
  refine .read fun s ready => ?_
  have rounds := Holds.eachRest (f := reconcileAttempt w) (P := Ready cs) (fun _ _ => reconcileAttempt_stores) s.db.activeAttempts
  refine rounds.mono (fun _ _ h => h) (fun t same => ?_) (fun _ _ h => h) fun _ _ h => h
  subst same
  obtain ⟨distinct, live⟩ := activeAttempts_live ready.indexed
  exact ⟨ready.indexed, ready.rows, distinct, live⟩

theorem tick_stores : Holds Stores (fun s => Indexed s.db) (tick w) (fun _ _ => True) (fun _ _ => True) := by
  have start (s : Controller) (indexed : Indexed s.db) : Ready [] [] s := ⟨indexed, forall_mem_nil _, nodup_nil, forall_mem_nil _⟩
  refine .bind (Q := fun _ _ => True) (reconcile_stores.mono (fun _ _ h => h) start (fun _ _ _ => trivial) fun _ _ _ => trivial) fun _ => ?_
  refine (quiet_read fun s => quiet_each fun c => ?_).stores
  split
  exacts [quiet_admitCampaign, quiet_pure _]

theorem op_stores : Holds Stores (fun s => Indexed s.db) (op.run w) (fun _ _ => True) (fun _ _ => True) := by
  cases op with
  | import_ created source revision policy selections =>
    refine (quiet_write fun db => .of_same ?_ ?_ ?_).stores
    exacts [rfl, rfl, rfl]
  | command r => exact quiet_dispatch.stores
  | tick => exact tick_stores

/-! ### Runs -/

variable {allowed : World → Op → Controller → Prop} {bare : List Uuid}

theorem op_indexed (indexed : Indexed s.db) (mem : t ∈ (op.run w s).1) : Indexed t.db :=
  (op_keeps (I := fun _ => True) (fun _ _ _ => trivial) indexed trivial t mem).1

theorem op_retained (indexed : Indexed s.db) (mem : t ∈ (op.run w s).1) : Retained s.db t.db :=
  chain_keeps (I := fun u => Retained s.db u.db) (op_stores s indexed).1 (fun _ _ stores kept => kept.trans stores.retained) (.refl s.db) t mem

theorem op_owned (indexed : Indexed s.db) (owned : Owned s.db) (mem : t ∈ (op.run w s).1) : Owned t.db :=
  chain_keeps (I := fun u => Owned u.db) (op_stores s indexed).1 (fun _ _ => Stores.owned) owned t mem

theorem atRest_owned (rest : AtRest allowed s) : Indexed s.db ∧ Owned s.db := by
  induction rest with
  | start => exact ⟨indexed_empty, ⟨forall_mem_nil _, forall_mem_nil _⟩⟩
  | @after s w op _ _ _ ih =>
    rcases final_mem s (op.run w s).1 with same | mem
    · rw [Tx.last, same]
      exact ih
    · exact ⟨op_indexed ih.1 mem, op_owned ih.1 ih.2 mem⟩
  | restart _ _ found ih =>
    rcases found with rfl | mem
    · exact ih
    · have indexed := op_indexed ih.1 mem
      have owned := op_owned ih.1 ih.2 mem
      exact ⟨indexed, owned⟩

theorem reached_owned (reached : Reached allowed t) : Indexed t.db ∧ Owned t.db := by
  rcases reached with rest | ⟨s, r, w, op, rest, -, before, after, commits⟩
  · exact atRest_owned rest
  · obtain ⟨indexed, owned⟩ := atRest_owned rest
    have mem : t ∈ r :: (op.run w r).1 := commits ▸ mem_append_right _ (mem_cons_of_mem _ mem_cons_self)
    rcases mem_cons.1 mem with rfl | mem
    exacts [⟨indexed, owned⟩, ⟨op_indexed indexed mem, op_owned indexed owned mem⟩]

/-- Nothing is stored of an attempt that is still active. -/
theorem live_unjudged (indexed : Indexed db) (owned : Owned db) (live : LiveRow db a) : Unjudged db a.id := by
  have unfinished : ¬Finished db a.id := fun ⟨_, mem, same, finished⟩ => live_unfinished indexed live mem finished same
  exact ⟨fun d mem evidence => unfinished (owned.evidence d mem _ evidence), fun row mem own => unfinished (own ▸ owned.tests row mem)⟩

/-- What the end of an attempt's build reads, but for the tables. -/
def World.ended (w : World) (a : Attempt) (reason : String) (truncated : Bool) : Ended :=
  ⟨reason, truncated, (w.worker a.id).failures, (w.worker a.id).unable, w.before a.id, w.valid (.ended a.id)⟩

/-- A finished attempt has stored outcomes. -/
def Filed (db : Db) (aid : Uuid) (outcomes : List (Drv × Outcome)) : Prop :=
  ∃ a ∈ db.attempts, a.id = aid ∧ a.state = .finished ∧ a.result.map (·.buildOutcomes) = some outcomes

theorem finishAttempt_filed {drvs : List Drv} {reason : String} {truncated : Bool} (indexed : Indexed s.db) (owned : Owned s.db)
    (live : LiveRow s.db a) (build : a.spec.targets = .build drvs) (mem : t ∈ (finishAttempt w a reason truncated s).1) :
    Filed t.db a.id ((((s.db.activities.filter (·.attempt = a.id)).map (·.drv)).dedup).map fun drv =>
      (drv, s.db.classified a (w.ended a reason truncated) drv)) := by
  rw [finishAttempt, Tx.transaction] at mem
  simp only [build] at mem
  cases ended : s.db.finishBuild a ⟨reason, truncated, (w.worker a.id).failures, (w.worker a.id).unable, w.before a.id,
      w.valid (.ended a.id)⟩ with
  | error e =>
    rw [ended] at mem
    cases mem
  | ok r =>
    obtain ⟨mid, result⟩ := r
    rw [ended] at mem
    simp only [bind, Except.bind, pure, Except.pure, mem_singleton] at mem
    obtain ⟨row, there, id, -⟩ := (finishBuild_ok (w := w) ended).1.kept.liveRow live
    subst mem
    refine ⟨_, List.mem_map_of_mem there, ?_⟩
    rw [if_pos (decide_eq_true id)]
    exact ⟨id, rfl, congrArg some (snapshot_classified (live_unjudged indexed owned live) ended)⟩

/-- `outcomes.backfill`, of the builds whose stored result has no outcomes. -/
def Db.backfill (db : Db) (bare : List Uuid) : Db :=
  db.updateAttempts (fun a => a.isBuild && a.state = .finished && a.id ∈ bare)
    (fun a => { a with result := a.result.map fun r => { r with buildOutcomes := db.snapshot a.id } })

/-- What may come after a state, where the results of some attempts were stored without outcomes:
operations, which may stop at any commit, and restarts. -/
inductive Later (bare : List Uuid) (s : Controller) : Controller → Prop
  | here : Later bare s s
  | ran {t u : Controller} {w : World} {op : Op} : Later bare s t → u ∈ (op.run w t).1 → Later bare s u
  | restarted {t : Controller} {fills : List Uuid} : Later bare s t → fills ⊆ bare → Later bare s (started (t.db.backfill fills))

theorem backfill_filed {outcomes : List (Drv × Outcome)} {fills : List Uuid} (own : aid ∉ fills) (stored : Filed db aid outcomes) :
    Filed (db.backfill fills) aid outcomes := by
  obtain ⟨a, mem, rfl, finished, result⟩ := stored
  refine ⟨_, List.mem_map_of_mem mem, ?_⟩
  rw [if_neg (by simp [own])]
  exact ⟨rfl, finished, result⟩

/-- Outcomes that are stored with an attempt stay with it. -/
theorem later_filed {outcomes : List (Drv × Outcome)} (own : aid ∉ bare) (later : Later bare s t) :
    Indexed s.db → Filed s.db aid outcomes → Indexed t.db ∧ Filed t.db aid outcomes := by
  intro indexed stored
  induction later with
  | here => exact ⟨indexed, stored⟩
  | ran _ mem ih =>
    obtain ⟨indexed, a, there, rfl, finished, result⟩ := ih
    obtain ⟨a', there', id, finished', result'⟩ := op_retained indexed mem a there finished
    exact ⟨op_indexed indexed mem, a', there', id, finished', result'.trans result⟩
  | restarted _ fills ih => exact ⟨indexed_attempts (fun _ => rfl) ih.1, backfill_filed (fun mem => own (fills mem)) ih.2⟩

def lostDrv : Drv := "/nix/store/00000000000000000000000000000000-a.drv"

def lostPolicy : Policy := ⟨0, 0, 1, 1, 0, .batched, []⟩

def lostBuild : Attempt where
  id := 1
  campaign := 0
  state := .running
  spec := ⟨.build [lostDrv], lostPolicy, "", "", ["/nix/store/a"], [lostDrv], [], none, none, [], []⟩
  result := none
  cancelRequested := false

/-- A derivation that another attempt built, whose output the store has lost. -/
def lostDb : Db := { Db.empty with
  attempts := [{ lostBuild with id := 0, state := .finished, result := some ⟨"completed", none, none, [(lostDrv, .built)]⟩ }, lostBuild]
  derivations := [⟨lostDrv, "a", [("out", some "/nix/store/a")], true, .local_, none, some 0, none, none⟩] }

def lostRaw : Bytes :=
  "@nix \x7b\"action\":\"msg\",\"msg\":\"builder for '/nix/store/00000000000000000000000000000000-a.drv' failed\"\x7d".toList.map fun c =>
    UInt8.ofNat c.toNat

/-- What `json.loads` makes of the log's one line. -/
def lostLoads (_ : Bytes) : Option Json :=
  some (.object [("action", .string "msg"), ("msg", .string "builder for '/nix/store/00000000000000000000000000000000-a.drv' failed")])

end Experiment
