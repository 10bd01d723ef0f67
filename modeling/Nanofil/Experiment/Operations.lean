import Nanofil.Experiment.Transactions
import Nanofil.Experiment.Ownership

/-! Every operation commits only what the kinds allow. -/
namespace Experiment
open List Option Commits

variable {w : World} {op : Op} {c : Campaign} {a : Attempt} {cs : List Campaign} {as : List Attempt} {P : Controller → Prop}
  {E : Error → Controller → Prop}

def Rests (_ : Error) (s : Controller) : Prop := Indexed s.db

theorem holds_ready {f : Db → Db} (written : ∀ s, Ready cs as s → Written w noRuns s.db (f s.db)) :
    Holds (Commit w op) (Ready cs as) (write f) (fun _ => Ready cs as) E :=
  .commit (fun s pre => .written (written s pre)) fun s pre => pre.kept (written s pre).kept

/-! ### Reconciliation -/

theorem distinct_rest {s : Controller} (ready : Ready cs (a :: as) s) {b : Attempt} (mem : b ∈ as) : b.id ≠ a.id :=
  fun same => (nodup_cons.1 ready.distinct).1 (List.mem_map.2 ⟨b, mem, same⟩)

theorem Ready.finished {s t : Controller} {mid : Db} {reason : String} {result : Result} (ready : Ready cs (a :: as) s)
    (kept : Kept runs s.db mid)
    (db : t.db = (mid.updateAttempts (·.id = a.id) (fun a => { a with state := .finished, result := some result })).event
      (.attemptFinished a.campaign a.id reason)) : Ready cs as t := by
  refine ⟨?_, fun c mem => ?_, ready.rest.distinct, fun b mem => ?_⟩
  · rw [db]
    exact indexed_event (indexed_attempts (fun _ => rfl) (kept.indexed ready.indexed))
  · rw [HasRow, db]
    exact kept.hasRow (ready.rows c mem)
  · have live : LiveRow (mid.updateAttempts (·.id = a.id) (fun a => { a with state := .finished, result := some result })) b := by
      refine (kept.liveRow (ready.rest.live b mem)).finish fun row same => ?_
      have other := distinct_rest ready mem
      simpa [same] using other
    rw [LiveRow, db]
    exact live

theorem finishAttempt_commits {reason : String} {truncated : Bool} :
    Holds (Commit w op) (Ready cs (a :: as)) (finishAttempt w a reason truncated) (fun _ => Ready cs as) Rests := by
  refine .transaction (fun s t u ready done => ?_) (fun s e ready _ => ready.indexed)
  have live := ready.live a mem_cons_self
  cases targets : a.spec.targets with
  | plan ids =>
    simp only [targets, bind, Except.bind, pure, Except.pure, Except.ok.injEq, Prod.mk.injEq] at done
    obtain ⟨rfl, -⟩ := done
    have written := written_finishPlan (w := w) s.db a
    refine ⟨.finished a _ reason _ live written (fun build => ?_) rfl, ready.finished written.kept rfl⟩
    simp [Attempt.isBuild, Attempt.isPlan, targets] at build
  | build drvs =>
    simp only [targets] at done
    cases ended : s.db.finishBuild a ⟨reason, truncated, (w.worker a.id).failures, (w.worker a.id).unable, w.before a.id,
        w.valid (.ended a.id)⟩ with
    | error e =>
      rw [ended] at done
      cases done
    | ok r =>
      obtain ⟨mid, result⟩ := r
      rw [ended] at done
      simp only [bind, Except.bind, pure, Except.pure, Except.ok.injEq, Prod.mk.injEq] at done
      obtain ⟨rfl, -⟩ := done
      obtain ⟨written, released⟩ := finishBuild_ok (w := w) ended
      exact ⟨.finished a mid reason result live (written.mono fun _ _ never => never.elim) (fun _ => released) rfl,
        ready.finished written.kept rfl⟩

theorem ingest_commits {log : List Record} :
    Holds (Commit w op) (Ready cs as) (write (·.ingest a.id log)) (fun _ => Ready cs as) E :=
  holds_ready fun _ _ => .ingested

theorem updateAttempts_same {s : Controller} (ready : Ready cs (a :: as) s) :
    Written w noRuns s.db (s.db.updateAttempts (·.id = a.id) (fun a => { a with state := .running })) := by
  refine .attempts fun b mem chosen => ⟨rfl, rfl, rfl, ?_⟩
  obtain ⟨row, mem', id, -, -, active⟩ := ready.live a mem_cons_self
  have distinct : (s.db.attempts.map (·.id)).Nodup := ready.indexed.attempts ▸ nodup_range
  have same : b = row := inj_on_of_nodup_map distinct mem mem' ((of_decide_eq_true chosen).trans id.symm)
  exact same ▸ active.symm

theorem reconcileAttempt_commits :
    Holds (Commit w op) (Ready cs (a :: as)) (reconcileAttempt w a) (fun _ => Ready cs as) Rests := by
  refine .bind ingest_commits fun _ => ?_
  have skips : Holds (Commit w op) (Ready cs (a :: as)) (pure () : Tx Unit) (fun _ => Ready cs as) Rests :=
    .pure fun s ready => ready.rest
  cases (w.worker a.id).exit with
  | some exit =>
    simp only
    split
    · exact skips
    · exact .bind ingest_commits fun _ => finishAttempt_commits
  | none =>
    simp only
    split
    · exact (holds_ready fun s ready => updateAttempts_same ready).mono (fun _ _ h => h) (fun _ h => h)
        (fun _ _ ready => ready.rest) fun _ _ h => h
    · split
      · split
        exacts [finishAttempt_commits, skips]
      · exact finishAttempt_commits

variable {db : Db} {cid : Uuid} {spec : Spec}

theorem activeAttempts_live (indexed : Indexed db) :
    (db.activeAttempts.map (·.id)).Nodup ∧ ∀ a ∈ db.activeAttempts, LiveRow db a := by
  refine ⟨?_, fun a mem => ?_⟩
  · have distinct : (db.attempts.map (·.id)).Nodup := indexed.attempts ▸ nodup_range
    exact distinct.sublist ((filter_sublist (p := fun a : Attempt => a.state.active)).map _)
  · obtain ⟨mem, active⟩ := mem_filter.1 mem
    exact ⟨a, mem, rfl, rfl, rfl, active⟩

theorem reconcile_commits :
    Holds (Commit w op) (Ready cs []) (reconcile w) (fun _ => Ready cs []) Rests := by
  refine .read fun s ready => ?_
  have rounds := Holds.eachRest (R := Commit w op) (f := reconcileAttempt w) (E := Rests) (P := Ready cs)
    (fun a as => reconcileAttempt_commits) s.db.activeAttempts
  refine rounds.mono (fun _ _ h => h) (fun t same => ?_) (fun _ _ h => h) (fun _ _ h => h)
  subst same
  obtain ⟨distinct, live⟩ := activeAttempts_live ready.indexed
  exact ⟨ready.indexed, ready.rows, distinct, live⟩

/-! ### Admission -/

theorem reservations_covers (db : Db) (files : Uuid → Option (List StorePath)) (valid : StorePath → Bool)
    (observed : List StorePath) : db.Covers (db.reservations files valid db.activeBuilds observed) :=
  fun b mem _ need => mem_flatMap.2 ⟨b, mem, need⟩

theorem holds_intent {spec : Controller → Except Error Spec} {Q : Uuid → Controller → Prop}
    (done : ∀ s sp, P s → spec s = .ok sp →
      Commit w op s { s with db := s.db.intend c sp } ∧ Q s.db.attempts.length { s with db := s.db.intend c sp })
    (failed : ∀ s e, P s → spec s = .error e → E e s) : Holds (Commit w op) P (intent c spec) Q E := by
  refine .transaction (fun s t aid pre ended => ?_) (fun s e pre ended => ?_) <;>
  · cases submitted : spec s with
    | error e' =>
      simp only [submitted, bind, Except.bind, Except.error.injEq, reduceCtorEq] at ended
      try exact ended ▸ failed s e' pre submitted
    | ok sp =>
      simp only [submitted, bind, Except.bind, pure, Except.pure, Except.ok.injEq, Prod.mk.injEq, reduceCtorEq] at ended
      try exact ended.1 ▸ ended.2 ▸ done s sp pre submitted

theorem campaign_row (found : db.campaign cid = .ok c) : HasRow db c ∧ c.id = cid := by
  rw [Db.campaign] at found
  cases row : db.campaign? cid with
  | none => simp [row] at found
  | some c' =>
    simp only [row, Except.ok.injEq] at found
    subst found
    exact ⟨⟨c', mem_of_find?_eq_some row, rfl, rfl⟩, by simpa using find?_some row⟩

/-- What `buildTargets` submits. -/
def Db.buildIntent (db : Db) (c : Campaign) (targets : List Drv) (location : Option Location)
    (observation : Option Reservation) : BuildIntent :=
  let drvs := (targets.flatMap db.closure).dedup
  ⟨targets, (db.paths drvs).dedup, drvs, targets.map (fun t => (t, db.sourcesOf c t)), location, observation⟩

theorem buildTargets_commits (cs : List Campaign) {targets : List Drv} {location : Option Location} {observation : Option Reservation}
    {Q : Uuid → Controller → Prop} (ready : ∀ s, P s → Ready cs [] s) (row : ∀ s, P s → HasRow s.db c)
    (covers : ∀ s, P s → ∀ r, observation = some r → s.db.Covers r) (rooted : ∀ s, P s → s.db.Rooted targets)
    (post : ∀ s spec, P s → buildSpec w c (s.db.buildIntent c targets location observation) s = .ok spec →
      Ready cs [] { s with db := s.db.intend c spec } → Q s.db.attempts.length { s with db := s.db.intend c spec }) :
    Holds (Commit w op) P (buildTargets w c targets location observation) Q Rests := by
  refine holds_intent (fun s spec pre submitted => ?_) (fun s e pre _ => (ready s pre).indexed)
  exact ⟨.built c (s.db.buildIntent c targets location observation) spec (row s pre) submitted (covers s pre) rfl
      (rooted s pre) rfl, post s spec pre submitted ((ready s pre).intend rfl)⟩

theorem plan_commits {ids : List Nat} {revised : Option Origin} (ready : ∀ s, P s → Ready cs [] s) :
    Holds (Commit w op) P (plan w cid ids revised) (fun _ => Ready cs []) Rests := by
  refine .read fun s pre => .bind (Q := fun it t => t = s ∧ HasRow s.db it.1 ∧ it.2.ids.Nodup) (.liftExcept ?_ ?_) fun it => ?_
  · intro it found t same
    refine ⟨same, ?_⟩
    simp only [planIntent, bind, Except.bind] at found
    cases row : s.db.campaign cid with
    | error e => simp [row] at found
    | ok c =>
      simp only [row] at found
      have kept := (campaign_row row).1
      split at found
      · cases found
      · rename_i distinct
        simp only [not_or, not_not] at distinct
        cases revised with
        | none =>
          simp only at found
          split at found
          · cases found
          · cases found
            exact ⟨kept, distinct.2.2⟩
        | some o =>
          simp only at found
          split at found
          · cases found
          · split at found
            · cases found
            · cases found
              exact ⟨kept, distinct.2.2⟩
  · rintro e - t rfl
    exact (ready t pre).indexed
  · refine holds_intent ?_ ?_
    · rintro t sp ⟨rfl, kept, distinct⟩ submitted
      exact ⟨.planned it.1 it.2 sp kept submitted distinct rfl, (ready t pre).intend rfl⟩
    · rintro t e ⟨rfl, -⟩ -
      exact (ready t pre).indexed

theorem uninspected_known {needed : List Drv} {rolling : Bool} {p : Drv → Bool} {n : Nat} {d : Drv}
    (mem : d ∈ ((db.uninspected needed rolling).filter p).take n) : d ∈ db.derivations.map (·.drv) := by
  have inside := (mem_filter.1 (mem_of_mem_take mem)).1
  simp only [Db.uninspected, map_append, mem_append, List.mem_map, mem_filter] at inside
  rcases inside with ⟨r, ⟨⟨row, -⟩, -⟩, rfl⟩ | ⟨r, ⟨⟨row, -⟩, -⟩, rfl⟩ <;> exact List.mem_map.2 ⟨r, row, rfl⟩

theorem shown_commits {s : Controller} {drvs : List Drv} (ready : Ready cs as s)
    (known : ∀ d ∈ drvs, d ∈ s.db.derivations.map (·.drv)) :
    Holds (Commit w op) (fun t => t = s) (write (·.addGraph (w.shown drvs)))
      (fun _ t => Ready cs as t ∧ t.db.candidates = s.db.candidates) E := by
  have written : Written w noRuns s.db (s.db.addGraph (w.shown drvs)) := .shown fun d mem => .inl (known d mem)
  refine .commit (fun t same => same ▸ .written written) fun t same => ?_
  subst same
  exact ⟨ready.kept written.kept, (same_addGraph t.db _).candidates⟩

theorem prepareGraph_commits {targets : List Drv} {rolling : Bool} {s : Controller} (ready : Ready cs [] s) :
    Holds (Commit w op) (fun t => t = s) (prepareGraph w targets rolling)
      (fun _ t => Ready cs [] t ∧ t.db.candidates = s.db.candidates) Rests := by
  refine .read fun s' here => ?_
  subst here
  simp only
  split
  · exact .pure fun t same => by subst same; exact ⟨ready, rfl⟩
  · refine .bind (Q := fun _ t => Ready cs [] t ∧ t.db.candidates = s'.db.candidates) ?_ fun _ =>
      .bind (Q := fun _ t => Ready cs [] t ∧ t.db.candidates = s'.db.candidates) ?_ fun _ => ?_
    · exact shown_commits ready fun d mem => uninspected_known mem
    · exact .commit (fun s _ => .written (.refl _)) fun t ready =>
        ⟨⟨ready.1.indexed, ready.1.rows, ready.1.distinct, ready.1.live⟩, ready.2⟩
    · exact .read fun t ready' => .pure fun t' same => same ▸ ready'

/-! ### The rolling loop -/

theorem intend_graph (db : Db) (c : Campaign) (spec : Spec) : SameGraph db (db.intend c spec) := by
  rw [Db.intend]
  cases spec.targets with
  | build drvs => exact ⟨rfl, rfl⟩
  | plan ids =>
    simp only [Db.event]
    split <;> exact ⟨rfl, rfl⟩

theorem intend_attempts (db : Db) (c : Campaign) (spec : Spec) :
    (db.intend c spec).attempts = db.attempts ++ [⟨db.attempts.length, c.id, .intended, spec, none, false⟩] := by
  rw [Db.intend]
  cases spec.targets with
  | build drvs => rfl
  | plan ids =>
    simp only [Db.event]
    split <;> rfl

theorem mem_intend_builds {b : Attempt} (mem : b ∈ (db.intend c spec).activeBuilds) :
    b ∈ db.activeBuilds ∨ b.spec = spec ∧ b.campaign = c.id := by
  simp only [Db.activeBuilds, Db.activeAttempts, intend_attempts, filter_append, mem_append] at mem ⊢
  refine mem.imp_right fun new => ?_
  obtain ⟨new, -⟩ := mem_filter.1 new
  obtain ⟨new, -⟩ := mem_filter.1 new
  rw [mem_singleton.1 new]
  exact ⟨rfl, rfl⟩

theorem bind_ok {α β : Type} {x : Except Error α} {f : α → Except Error β} {b : β} (done : (x >>= f) = .ok b) :
    ∃ a, x = .ok a ∧ f a = .ok b := by
  cases x with
  | error e => cases done
  | ok a => exact ⟨a, rfl, done⟩

theorem buildSpec_targets {it : BuildIntent} {s : Controller} (submitted : buildSpec w c it s = .ok spec) :
    spec.targets = .build it.targets := by
  obtain ⟨-, -, submitted⟩ := bind_ok submitted
  obtain ⟨-, -, submitted⟩ := bind_ok submitted
  obtain ⟨effective, -, submitted⟩ := bind_ok submitted
  obtain ⟨available, -, submitted⟩ := bind_ok submitted
  cases submitted
  rfl

theorem covers_intend {drv : Drv} {held : List Drv} {available : List StorePath}
    (covers : db.Covers ⟨held, available⟩) (targets : spec.targets = .build [drv]) :
    (db.intend c spec).Covers ⟨held ++ db.needed [drv] available, available⟩ := by
  intro b mem d need
  rw [(intend_graph db c spec).mem_needed] at need
  rcases mem_intend_builds mem with old | ⟨new, -⟩
  · exact mem_append_left _ (covers b old d need)
  · rw [new, targets] at need
    exact mem_append_right _ need

theorem rooted_intend {drvs drvs' : List Drv} (rooted : db.Rooted drvs)
    (targets : spec.targets = .build drvs') : (db.intend c spec).Rooted drvs := by
  intro d mem
  obtain ⟨x, mem, planned⟩ := rooted d mem
  simp only [Db.intend, targets]
  refine ⟨_, List.mem_map_of_mem mem, ?_⟩
  split
  exacts [planned, planned]

theorem admitRolling_commits {available : List StorePath} (mem : c ∈ cs) : ∀ {drvs held : List Drv} {admitted : Bool},
    Holds (Commit w op) (fun s => Ready cs [] s ∧ s.db.Covers ⟨held, available⟩ ∧ s.db.Rooted drvs)
      (admitRolling w c available drvs held admitted) (fun _ => Ready cs []) Rests := by
  intro drvs
  induction drvs with
  | nil => exact .pure fun s pre => pre.1
  | cons drv drvs ih =>
    intro held admitted
    refine .read fun s pre => ?_
    simp only
    split
    · exact .pure fun t same => same ▸ pre.1
    · have rest : s.db.Rooted drvs := fun d mem => pre.2.2 d (mem_cons_of_mem _ mem)
      split
      · exact ih.from_ ⟨pre.1, pre.2.1, rest⟩
      · split
        · exact ih.from_ ⟨pre.1, pre.2.1, rest⟩
        · refine .bind (Q := fun _ t => Ready cs [] t ∧
              t.db.Covers ⟨held ++ s.db.needed [drv] available, available⟩ ∧ t.db.Rooted drvs) ?_ fun _ => ih
          refine buildTargets_commits cs (fun t same => same ▸ pre.1) (fun t same => same ▸ pre.1.rows c mem) ?_ ?_ ?_
          · rintro t rfl r same
            cases same
            exact pre.2.1
          · rintro t rfl d mem
            rw [mem_singleton.1 mem]
            exact pre.2.2 drv mem_cons_self
          · rintro t spec rfl submitted ready
            have targets := buildSpec_targets submitted
            exact ⟨ready, covers_intend pre.2.1 targets, rooted_intend rest targets⟩

theorem mem_queuedDrvs {d : Drv} :
    d ∈ db.queuedDrvs cid ↔ ∃ x ∈ db.candidates, x.campaign = cid ∧ x.state = .queued ∧ x.drv = some d := by
  simp only [Db.queuedDrvs, mem_reverse, mem_dedup, mem_filterMap, mem_insertionSort, mem_filter,
    Bool.and_eq_true, decide_eq_true_eq, and_assoc]

/-- What holds of the derivations of a batch: each was asked for, and overlaps nothing that is held. -/
theorem batch_all {r : Reservation} {limit : Nat} {P : Drv → Prop} : ∀ {drvs targets : List Drv},
    (∀ d ∈ targets, P d) → (∀ d ∈ drvs, db.overlap (db.needed [d] r.available) r.held = false → P d) →
    ∀ d ∈ db.batch r limit drvs targets, P d := by
  intro drvs
  induction drvs with
  | nil => exact fun start _ => start
  | cons drv drvs ih =>
    intro targets start each
    have later : ∀ d ∈ drvs, db.overlap (db.needed [d] r.available) r.held = false → P d :=
      fun d mem => each d (mem_cons_of_mem _ mem)
    have next : db.overlap (db.needed [drv] r.available) r.held = false → ∀ d ∈ targets ++ [drv], P d := by
      intro apart d mem
      rcases mem_append.1 mem with mem | mem
      · exact start d mem
      · rw [mem_singleton.1 mem]
        exact each drv mem_cons_self apart
    rw [Db.batch]
    split
    · exact ih start later
    · rename_i apart
      rw [Bool.not_eq_true] at apart
      split
      exacts [next apart, ih (next apart) later]

theorem admitBuilds_commits (mem : c ∈ cs) :
    Holds (Commit w op) (Ready cs []) (admitBuilds w c) (fun _ => Ready cs []) Rests := by
  refine .read fun s ready => .bind (prepareGraph_commits ready) fun observed => .read fun s' ready' => ?_
  have covers := reservations_covers s'.db w.before (w.valid .admitting) observed
  have rooted : ∀ n, s'.db.Rooted ((s.db.queuedDrvs c.id).take n) := by
    intro n d queued
    obtain ⟨x, mem, -, -, planned⟩ := mem_queuedDrvs.1 (mem_of_mem_take queued)
    exact ⟨x, ready'.2 ▸ mem, planned⟩
  simp only
  split
  · exact (admitRolling_commits mem).from_ ⟨ready'.1, covers, rooted _⟩
  · split
    · exact .pure fun t same => same ▸ ready'.1
    · refine .bind (Q := fun _ => Ready cs []) ?_ fun _ => .pure fun _ ready => ready
      refine buildTargets_commits cs (fun t same => same ▸ ready'.1) (fun t same => same ▸ ready'.1.rows c mem) ?_ ?_
        fun _ _ _ _ ready => ready
      · rintro t rfl r same
        cases same
        exact covers
      · rintro t rfl
        exact batch_all (forall_mem_nil _) fun d mem _ => rooted _ d mem

/-! ### Ticks -/

theorem admitPlans_commits {builds : List Attempt} :
    Holds (Commit w op) (Ready cs []) (admitPlans w c builds) (fun _ => Ready cs []) Rests := by
  refine .read fun s ready => ?_
  simp only
  split
  · exact .pure fun t same => same ▸ ready
  · refine .bind (Q := fun _ => Ready cs []) ?_ fun _ => .read fun s' ready' => ?_
    · refine .commit (fun t _ => .skipped c.id _ rfl) fun t same => ?_
      subst same
      exact ready.skip rfl
    · have here : ∀ t, t = s' → Ready cs [] t := fun t same => same ▸ ready'
      split
      · exact .bind (plan_commits here) fun _ => .pure fun _ ready => ready
      · split
        · exact .pure here
        · exact .bind (plan_commits here) fun _ => .pure fun _ ready => ready

theorem refreshMachines_commits : Holds (Commit w op) (Ready cs []) (refreshMachines w c) (fun _ => Ready cs []) Rests := by
  refine .read fun s ready => ?_
  split
  · refine .commit (fun t _ => .written (.refl _)) fun t same => ?_
    subst same
    exact ⟨ready.indexed, ready.rows, ready.distinct, ready.live⟩
  · exact .pure fun t same => same ▸ ready

theorem plansBeside_commits {builds : List Attempt} {planning admitted : Bool} :
    Holds (Commit w op) (Ready cs []) (plansBeside w c builds planning admitted) (fun _ => Ready cs []) Rests := by
  rw [plansBeside]
  split
  · exact .pure fun _ ready => ready
  · exact .read fun s ready => admitPlans_commits.from_ ready

theorem admitCampaign_commits (mem : c ∈ cs) : Holds (Commit w op) (Ready cs []) (admitCampaign w c) (fun _ => Ready cs []) Rests := by
  refine .bind (Q := fun _ => Ready cs []) refreshMachines_commits fun _ => .read fun s ready => ?_
  have here : ∀ t, t = s → Ready cs [] t := fun t same => same ▸ ready
  simp only
  split
  · exact .pure here
  · split
    · exact .pure here
    · refine .bind (Q := fun _ => Ready cs []) ?_ fun _ => ?_
      · refine (holds_ready fun s _ => ?_).from_ ready
        exact .campaign fun c => ⟨rfl, rfl⟩
      · split
        · exact .pure fun _ ready => ready
        · refine .bind (Q := fun _ => Ready cs []) ?_ fun _ => plansBeside_commits
          rw [buildsIf]
          split
          exacts [admitBuilds_commits mem, .pure fun _ ready => ready]

theorem tick_commits : Holds (Commit w op) (fun s => Indexed s.db) (tick w) (fun _ s => Indexed s.db) Rests := by
  refine .bind (Q := fun _ => Ready [] []) ?_ fun _ => .read fun s ready => ?_
  · exact reconcile_commits.mono (fun _ _ h => h)
      (fun s indexed => ⟨indexed, forall_mem_nil _, nodup_nil, forall_mem_nil _⟩) (fun _ _ h => h) fun _ _ h => h
  · refine (Holds.each (P := Ready s.db.campaigns []) fun c mem => ?_).mono (fun _ _ h => h) ?_
      (fun _ _ ready => ready.indexed) fun _ _ h => h
    · split
      · exact admitCampaign_commits ((mem_insertionSort _).1 mem)
      · exact .pure fun _ ready => ready
    · rintro t rfl
      exact ⟨ready.indexed, fun c mem => ⟨c, mem, rfl, rfl⟩, nodup_nil, forall_mem_nil _⟩

/-! ### Commands -/

theorem holds_command {α : Type} {body : Controller → Except Error (Controller × α)}
    (written : ∀ s t a, body s = .ok (t, a) → Written w noRuns s.db t.db) :
    Holds (Commit w op) (fun s => Indexed s.db) (.transaction body) (fun _ s => Indexed s.db) Rests :=
  .transaction (fun s t a indexed done => ⟨.written (written s t a done), (written s t a done).kept.indexed indexed⟩) fun _ _ indexed _ => indexed

variable {db' : Db}

theorem written_excludeAttempt (done : db.excludeAttempt cid a = .ok db') : Written w noRuns db db' := by
  rw [Db.excludeAttempt] at done
  split at done
  · cases done
  · cases done
    refine Written.trans (.attempts ?_) (.candidates ?_ fun _ => rfl)
    · exact fun b _ _ => ⟨rfl, rfl, rfl, rfl⟩
    · intro c _ chosen
      simp only [Bool.and_eq_true] at chosen
      exact .calm rfl rfl rfl (by simp) (by simp) fun none_ _ => by simp [none_] at chosen

theorem written_markKernels (db : Db) (cid : Uuid) (drvs : List Drv) : Written w noRuns db (db.markKernels cid drvs) := by
  refine Written.trans (.candidates ?_ ?_) (.derivations ?_)
  · exact fun c _ _ => .calm rfl rfl rfl (by simp) (by simp) fun _ _ => .inr (.inr rfl)
  · exact fun _ => rfl
  · exact fun _ _ => ⟨rfl, fun _ => rfl⟩

theorem written_markScope (db : Db) (scope : Scope) (named others : List Drv) :
    Written w noRuns db (db.markScope scope named others) := by
  refine Written.trans (.derivations ?_) (.derivations ?_)
  · exact fun _ _ => ⟨rfl, fun _ => rfl⟩
  · intro d chosen
    simp only [Bool.and_eq_true, isNone_iff_eq_none] at chosen
    exact ⟨rfl, fun excluded => by simp [chosen.2] at excluded⟩

theorem written_requeueBlocked (db : Db) (cid : Uuid) : Written w noRuns db (db.requeueBlocked cid) := by
  refine .candidates (fun c _ chosen => ?_) fun _ => rfl
  simp only [Bool.and_eq_true, decide_eq_true_eq] at chosen
  exact .calm rfl rfl rfl (by simp) (by simp) fun _ bare => by simp [CandidateState.bare, chosen.2] at bare

/-- What may be a kernel by its name or by its candidate is known. -/
theorem suspects_known (db : Db) (cid : Uuid) : ∀ d ∈ ((db.derivations.filter linuxName).map (·.drv) ++
      (db.candidates.filter (fun c => c.campaign = cid && c.kernel)).filterMap (·.drv)).dedup,
    d ∈ db.derivations.map (·.drv) ∨ ∃ c ∈ db.candidates, c.drv = some d := by
  intro d mem
  rcases mem_append.1 (mem_dedup.1 mem) with row | selected
  · obtain ⟨r, named, rfl⟩ := List.mem_map.1 row
    exact .inl (List.mem_map.2 ⟨r, (mem_filter.1 named).1, rfl⟩)
  · obtain ⟨c, chosen, planned⟩ := mem_filterMap.1 selected
    exact .inr ⟨c, (mem_filter.1 chosen).1, planned⟩

theorem excludeKernels_commits {aid : Option Uuid} :
    Holds (Commit w op) (fun s => Indexed s.db) (excludeKernels w cid aid) (fun _ s => Indexed s.db) Rests := by
  refine holds_command fun s t u done => ?_
  obtain ⟨-, -, done⟩ := bind_ok done
  obtain ⟨attempt, -, done⟩ := bind_ok done
  obtain ⟨reclassified, found, done⟩ := bind_ok done
  cases done
  have shown : Written w noRuns s.db _ := .shown (suspects_known s.db cid)
  have marked := fun drvs => shown.trans (written_markKernels _ cid drvs)
  refine Written.trans ?_ ((written_refresh reclassified cid).trans (.event ⟨rfl, rfl⟩))
  cases attempt with
  | none =>
    cases found
    exact marked _
  | some a => exact (marked _).trans (written_excludeAttempt found)

theorem excludeToolchains_commits {scope : Scope} :
    Holds (Commit w op) (fun s => Indexed s.db) (excludeToolchains w scope cid) (fun _ s => Indexed s.db) Rests := by
  refine holds_command fun s t u done => ?_
  obtain ⟨-, -, done⟩ := bind_ok done
  cases done
  exact ((written_markScope _ scope _ _).trans (written_requeueBlocked _ cid)).trans
    ((written_refresh _ cid).trans (.event ⟨rfl, rfl⟩))

theorem schedule_commits {r : ScheduleRequest} :
    Holds (Commit w op) (fun s => Indexed s.db) (schedule cid r) (fun _ s => Indexed s.db) Rests := by
  refine .transaction (fun s t u indexed done => ?_) fun _ _ indexed _ => indexed
  obtain ⟨c, -, done⟩ := bind_ok done
  obtain ⟨-, -, done⟩ := bind_ok done
  obtain ⟨-, -, done⟩ := bind_ok done
  obtain ⟨-, -, done⟩ := bind_ok done
  simp only at done
  split at done
  · cases done
  · rename_i ahead
    simp only [Bool.and_eq_true, decide_eq_true_eq] at ahead
    cases done
    split
    · exact ⟨.written (.refl _), indexed⟩
    · refine ⟨.scheduled cid _ _ ahead rfl, indexed_event ⟨?_, indexed.candidates, indexed.attempts⟩⟩
      rw [Db.updateCampaign, length_map, ← indexed.campaigns, List.map_map]
      refine map_congr_left fun c _ => ?_
      simp only [Function.comp]
      split <;> rfl

theorem validSource_name {o : Origin} (valid : validateSource w o = .ok ()) : sourceName o.source o.revision := by
  rw [validateSource] at valid
  split at valid
  · rename_i ok
    simp only [Bool.and_eq_true] at ok
    exact ok.1.1
  · cases valid

theorem queueReplan_commits {ids : List Nat} {o : Origin} (command : op ≠ .tick) :
    Holds (Commit w op) (fun s => Indexed s.db) (queueReplan w cid ids o) (fun _ s => Indexed s.db) Rests := by
  refine .transaction (fun s t u indexed done => ?_) fun _ _ indexed _ => indexed
  obtain ⟨c, row, done⟩ := bind_ok done
  obtain ⟨⟨⟩, source, done⟩ := bind_ok done
  split at done
  · cases done
  · rename_i distinct
    simp only [not_or, not_not] at distinct
    obtain ⟨pending, found, done⟩ := bind_ok done
    cases done
    split
    · exact ⟨.written (.refl _), indexed⟩
    · rw [← (campaign_row row).2] at found
      exact ⟨.queued c o ids pending w.now command distinct.2.2 (validSource_name source) found rfl, indexed_event ⟨indexed.campaigns, indexed.candidates,
        indexed.attempts⟩⟩

theorem ready_rooted : ∀ {ids : List Nat} {targets : List Drv}, ids.mapM (db.ready cid) = .ok targets → db.Rooted targets := by
  intro ids
  induction ids with
  | nil =>
    intro targets done
    cases done
    exact forall_mem_nil _
  | cons id ids ih =>
    intro targets done
    rw [mapM_cons] at done
    obtain ⟨d, first, done⟩ := bind_ok done
    obtain ⟨ds, rest, done⟩ := bind_ok done
    cases done
    refine forall_mem_cons.2 ⟨?_, ih rest⟩
    rw [Db.ready] at first
    split at first
    · rename_i found
      cases first
      exact ⟨_, mem_of_find?_eq_some found, rfl⟩
    · rename_i found
      cases first
      exact ⟨_, mem_of_find?_eq_some found, rfl⟩
    · cases first

theorem buildOnce_commits {ids : List Nat} :
    Holds (Commit w op) (fun s => Indexed s.db) (buildOnce w cid ids) (fun _ s => Indexed s.db) Rests := by
  have ready : ∀ s : Controller, Indexed s.db → Ready [] [] s := fun s indexed =>
    ⟨indexed, forall_mem_nil _, nodup_nil, forall_mem_nil _⟩
  refine .read fun s indexed => .bind (Q := fun it t => t = s ∧ HasRow s.db it.1 ∧ s.db.Rooted it.2) (.liftExcept ?_ ?_) fun it => ?_
  · intro it found t same
    refine ⟨same, ?_⟩
    obtain ⟨c, row, found⟩ := bind_ok found
    split at found
    · cases found
    · split at found
      · cases found
      · split at found
        · cases found
        · obtain ⟨targets, each, found⟩ := bind_ok found
          cases found
          exact ⟨(campaign_row row).1, fun d mem => ready_rooted each d (mem_dedup.1 mem)⟩
  · rintro e - t rfl
    exact indexed
  · refine buildTargets_commits [] ?_ ?_ nofun ?_ fun _ _ _ _ ready => ready.indexed
    · rintro t ⟨rfl, -⟩
      exact ready t indexed
    · rintro t ⟨rfl, row, -⟩
      exact row
    · rintro t ⟨rfl, -, rooted⟩
      exact rooted

theorem written_cleared (db : Db) (drv : Drv) :
    Written w noRuns db (db.updateDerivations (·.drv = drv) (fun d => { d with failure := none })) :=
  .derivations fun _ _ => ⟨rfl, fun excluded => excluded⟩

theorem retryDerivation_commits {drv : Drv} :
    Holds (Commit w op) (fun s => Indexed s.db) (retryDerivation cid drv) (fun _ s => Indexed s.db) Rests := by
  refine holds_command fun s t u done => ?_
  obtain ⟨-, -, done⟩ := bind_ok done
  simp only at done
  split at done
  · cases done
  · obtain ⟨-, -, done⟩ := bind_ok done
    cases done
    exact (written_cleared _ drv).trans ((written_refresh _ cid).trans (.event ⟨rfl, rfl⟩))

theorem written_retryCandidate {id : Nat} (done : Db.retryCandidate cid db id = .ok db') : Written w noRuns db db' := by
  rw [Db.retryCandidate] at done
  split at done
  · split at done
    · cases done
    · obtain ⟨-, -, done⟩ := bind_ok done
      cases done
      refine (written_cleared db _).trans (.candidates (fun c _ chosen => ?_) fun _ => rfl)
      simp only [Bool.and_eq_true, decide_eq_true_eq] at chosen
      exact .calm rfl rfl rfl (by simp) (by simp) fun none_ _ => by simp [none_] at chosen
  · cases done

theorem written_retryCandidates {ids : List Nat}
    (done : ids.foldlM (Db.retryCandidate cid) db = .ok db') : Written w noRuns db db' := by
  induction ids generalizing db with
  | nil =>
    cases done
    exact .refl _
  | cons id ids ih =>
    rw [foldlM_cons] at done
    obtain ⟨mid, first, rest⟩ := bind_ok done
    exact (written_retryCandidate first).trans (ih rest)

theorem retry_commits {ids : List Nat} :
    Holds (Commit w op) (fun s => Indexed s.db) (retry cid ids) (fun _ s => Indexed s.db) Rests := by
  refine holds_command fun s t u done => ?_
  obtain ⟨-, -, done⟩ := bind_ok done
  obtain ⟨retried, found, done⟩ := bind_ok done
  cases done
  exact (written_retryCandidates found).trans ((written_refresh _ cid).trans (.event ⟨rfl, rfl⟩))

theorem setMode_commits {mode : Mode} :
    Holds (Commit w op) (fun s => Indexed s.db) (setMode cid mode) (fun _ s => Indexed s.db) Rests := by
  refine holds_command fun s t u done => ?_
  obtain ⟨-, -, done⟩ := bind_ok done
  cases done
  refine Written.trans (.campaign ?_) (.event ⟨rfl, rfl⟩)
  exact fun c => ⟨rfl, rfl⟩

theorem cancel_commits {aid : Uuid} :
    Holds (Commit w op) (fun s => Indexed s.db) (cancel aid) (fun _ s => Indexed s.db) Rests := by
  refine holds_command fun s t u done => ?_
  split at done
  · cases done
  · cases done
    refine Written.trans (.attempts ?_) (.campaign ?_)
    · exact fun b _ _ => ⟨rfl, rfl, rfl, rfl⟩
    · exact fun c => ⟨rfl, rfl⟩

theorem dispatch_commits {r : Request} (command : op ≠ .tick) :
    Holds (Commit w op) (fun s => Indexed s.db) (dispatch w r) (fun _ s => Indexed s.db) Rests := by
  cases r with
  | excludeKernels cid aid => exact excludeKernels_commits
  | excludeToolchains cid scope => exact excludeToolchains_commits
  | schedule cid r => exact schedule_commits
  | plan cid ids revised =>
    refine .bind (Q := fun _ => Ready [] []) (plan_commits ?_) fun _ => .pure fun _ ready => ready.indexed
    exact fun s indexed => ⟨indexed, forall_mem_nil _, nodup_nil, forall_mem_nil _⟩
  | queueReplan cid ids o => exact queueReplan_commits command
  | buildOnce cid ids => exact .bind buildOnce_commits fun _ => .pure fun _ indexed => indexed
  | retryDerivation cid drv => exact retryDerivation_commits
  | run cid => exact setMode_commits
  | pause cid => exact setMode_commits
  | cancel aid => exact cancel_commits
  | retry cid ids => exact retry_commits

theorem indexed_import {created : Int} {source revision : String} {policy : Policy}
    {selections : List (String × Bool)} (indexed : Indexed db) :
    Indexed (db.importCampaign created source revision policy selections) := by
  refine indexed_event ⟨?_, ?_, indexed.attempts⟩
  · simp [indexed.campaigns, range_succ]
  · simp only [map_append, indexed.candidates, length_append, length_map, length_zipIdx,
      range_add, List.map_map]
    congr 1
    refine ext_getElem (by simp) fun n _ _ => by simp

/-- Every operation commits as the kinds allow, and leaves rows identified by their places. -/
theorem op_commits :
    Holds (Commit w op) (fun s => Indexed s.db) (op.run w) (fun _ s => Indexed s.db) Rests := by
  cases op with
  | import_ created source revision policy selections =>
    exact .commit (fun s _ => .imported created source revision policy selections rfl rfl) fun s indexed => indexed_import indexed
  | command r => exact dispatch_commits nofun
  | tick => exact tick_commits

/-! ### Runs -/

variable {allowed : World → Op → Controller → Prop} {I : Db → Prop} {s t : Controller}

theorem indexed_scheduled {f : Campaign → Campaign} (same : ∀ c, (f c).id = c.id) (indexed : Indexed db) :
    Indexed (db.updateCampaign cid f) := by
  refine ⟨?_, indexed.candidates, indexed.attempts⟩
  rw [Db.updateCampaign, length_map, ← indexed.campaigns, List.map_map]
  refine map_congr_left fun c _ => ?_
  simp only [Function.comp]
  split
  exacts [same c, rfl]

theorem Commit.indexed (commit : Commit w op s t) (indexed : Indexed s.db) : Indexed t.db := by
  cases commit with
  | written written => exact written.kept.indexed indexed
  | imported created source revision policy selections asked db => exact db ▸ indexed_import indexed
  | scheduled cid old new ahead db => exact db ▸ indexed_event (indexed_scheduled (fun _ => rfl) indexed)
  | built c it spec row submitted covers derivations rooted db => exact db ▸ indexed_intend indexed
  | planned c it spec row submitted ids db => exact db ▸ indexed_intend indexed
  | finished a mid reason result live written released db =>
    exact db ▸ indexed_event (indexed_attempts (fun _ => rfl) (written.kept.indexed indexed))
  | queued c o ids pending now command distinct source found db =>
    exact db ▸ ⟨indexed.campaigns, indexed.candidates, indexed.attempts⟩
  | skipped cid drvs db =>
    have ready : Ready [] [] s := ⟨indexed, forall_mem_nil _, nodup_nil, forall_mem_nil _⟩
    exact (ready.skip db).indexed

theorem indexed_empty : Indexed .empty := ⟨rfl, rfl, rfl⟩

/-- What every commit keeps holds of each commit of an operation. -/
theorem op_keeps (kept : ∀ {s t}, Indexed s.db → Commit w op s t → I s.db → I t.db) (indexed : Indexed s.db)
    (start : I s.db) : ∀ t ∈ (op.run w s).1, Indexed t.db ∧ I t.db :=
  chain_keeps (op_commits s indexed).1
    (fun _ _ commit holds => ⟨commit.indexed holds.1, kept holds.1 commit holds.2⟩) ⟨indexed, start⟩

/-- What the commits of the operations of a run keep. -/
def Keeps (allowed : World → Op → Controller → Prop) (I : Db → Prop) : Prop :=
  ∀ {w op r s t}, allowed w op r → Indexed s.db → Commit w op s t → I s.db → I t.db

theorem atRest_keeps (start : I .empty) (kept : Keeps allowed I) (rest : AtRest allowed s) : Indexed s.db ∧ I s.db := by
  induction rest with
  | start => exact ⟨indexed_empty, start⟩
  | @after s w op _ allowed _ ih =>
    rcases final_mem s (op.run w s).1 with same | mem
    · rw [Tx.last, same]
      exact ih
    · exact op_keeps (kept allowed) ih.1 ih.2 _ mem
  | restart _ allowed found ih =>
    rcases found with rfl | mem
    · exact ih
    · have holds := op_keeps (kept allowed) ih.1 ih.2 _ mem
      exact holds

/-- Between two commits in a row, what every commit keeps holds, and the second is of a kind. -/
theorem follows_commit (start : I .empty) (kept : Keeps allowed I) (follows : Follows allowed s t) :
    ∃ w op r, allowed w op r ∧ Commit w op s t ∧ Indexed s.db ∧ I s.db := by
  obtain ⟨r, w, op, rest, may, before, after, commits⟩ := follows
  obtain ⟨indexed, holds⟩ := atRest_keeps start kept rest
  have chain : List.IsChain (Commit w op) _ := (op_commits r indexed).1
  rw [commits] at chain
  refine ⟨w, op, r, may, (isChain_append_cons_cons.1 chain).2.1, ?_⟩
  have mem : s ∈ r :: (op.run w r).1 := commits ▸ mem_append_right _ mem_cons_self
  rcases mem_cons.1 mem with rfl | mem
  exacts [⟨indexed, holds⟩, op_keeps (kept may) indexed holds s mem]

/-- What the empty tables satisfy and every commit keeps holds in each state of a run. -/
theorem reached_keeps (start : I .empty) (kept : Keeps allowed I) (reached : Reached allowed t) : I t.db := by
  rcases reached with rest | ⟨s, follows⟩
  · exact (atRest_keeps start kept rest).2
  · obtain ⟨w, op, r, may, commit, indexed, holds⟩ := follows_commit start kept follows
    exact kept may indexed commit holds

end Experiment
