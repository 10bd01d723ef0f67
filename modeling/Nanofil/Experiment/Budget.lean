import Mathlib.Algebra.Ring.Int.Defs
import Nanofil.Experiment.Bookkeeping

/-! Builds that run at once: the processors and slots they have, and what each of them owns. -/
namespace Experiment
open List Option Commits

variable {policy effective : Policy} {active : List Attempt} {db db' : Db} {w : World} {op : Op} {s t : Controller} {c : Campaign}
  {a : Attempt}

/-! ### Limits -/

/-- What a client's limits leave to the others, and they to it. -/
structure Limits (policy : Policy) (active : List Attempt) (jobs cores : Int) : Prop where
  positive : 0 < jobs ∧ 0 < cores
  others : ∀ a ∈ active, 0 < a.spec.policy.maxJobs ∧ 0 < a.spec.policy.cores
  processors : (active.map threads).sum + jobs * cores ≤ (cpuSet policy.cpus).length
  rolling : policy.rolling → (active.map (·.spec.policy.maxJobs)).sum + jobs ≤ policy.maxJobs

/-- Jobs that fit in what remains, with the cores that are left for each. -/
theorem shares_fit {remaining cores wanted : Int} (left : 1 ≤ remaining) (some_ : 1 ≤ cores) (jobs : 1 ≤ wanted) :
    0 < min wanted (max 1 (remaining / cores)) ∧ 0 < min cores (remaining / min wanted (max 1 (remaining / cores))) ∧
      min wanted (max 1 (remaining / cores)) * min cores (remaining / min wanted (max 1 (remaining / cores))) ≤ remaining := by
  have fits : max 1 (remaining / cores) ≤ remaining := max_le left (Int.ediv_le_self cores (by omega))
  generalize shares : min wanted (max 1 (remaining / cores)) = share
  have positive : 0 < share := by rw [← shares]; exact lt_min (by omega) (lt_max_of_lt_left one_pos)
  have small : share ≤ remaining := shares ▸ le_trans (min_le_right _ _) fits
  have each : 1 ≤ remaining / share := (Int.le_ediv_iff_mul_le positive).2 (by omega)
  refine ⟨positive, lt_min (by omega) (by omega), ?_⟩
  calc share * min cores (remaining / share)
    _ ≤ share * (remaining / share) := Int.mul_le_mul_of_nonneg_left (min_le_right _ _) (le_of_lt positive)
    _ ≤ remaining := Int.mul_ediv_self_le (ne_of_gt positive)

theorem clientLimits_ok {limits : Int × Int} (found : clientLimits policy active = some limits) :
    Limits policy active limits.1 limits.2 := by
  simp only [clientLimits] at found
  split at found
  · cases found
  · split at found
    · cases found
    · rename_i others
      split at found
      · cases found
      · rename_i room
        split at found
        · cases found
        · rename_i left
          simp only [Option.some.injEq] at found
          subst found
          simp only [List.any_eq_true, Bool.or_eq_true, decide_eq_true_eq, not_exists, not_and, not_or, not_le, not_lt,
            Bool.and_eq_true, decide_eq_true_eq] at others room left
          have wanted : 1 ≤ policy.jobs := by
            rw [Policy.jobs]
            split
            exacts [le_refl _, le_max_left _ _]
          obtain ⟨jobs, cores, fit⟩ := shares_fit left.1 left.2 wanted
          refine ⟨⟨jobs, cores⟩, others, (Int.add_comm _ _).trans_le (Int.add_le_of_le_sub_right fit), fun rolling => ?_⟩
          have room := (room rolling).1
          have one : policy.jobs = 1 := if_pos rolling
          have least := min_le_left policy.jobs (max 1 (((cpuSet policy.cpus).length - (active.map threads).sum) / policy.cores))
          rw [one] at least ⊢
          omega

/-- What `buildPolicy` grants. -/
inductive Grant (policy effective : Policy) (active : List Attempt) (location : Location) (machines : List Machine) : Prop
  | remote (rolling : policy.rolling) (location : location = .remote) (slots : remoteBuilds active < machineSlots machines)
  | local_ (rolling : policy.rolling) (location : location = .local_)
      (limits : Limits policy (localBuilds active) effective.maxJobs effective.cores)
  | batched (batched : policy.rolling = false) (limits : Limits policy active effective.maxJobs effective.cores)

theorem buildPolicy_ok {location : Location} {machines : List Machine}
    (granted : buildPolicy policy active location machines = some effective) :
    Grant policy effective active location machines := by
  rw [buildPolicy] at granted
  cases rolling : policy.rolling with
  | true =>
    cases location with
    | remote =>
      simp only [rolling, decide_true, Bool.and_self, if_true] at granted
      split at granted
      · cases granted
      · exact .remote rolling rfl (by omega)
    | local_ =>
      simp only [rolling, reduceCtorEq, decide_false, Bool.and_false, Bool.false_eq_true, if_false, if_true] at granted
      obtain ⟨limits, found, same⟩ := map_eq_some_iff.1 granted
      subst same
      exact .local_ rolling rfl (clientLimits_ok found)
  | false =>
    simp only [rolling, Bool.false_and, Bool.false_eq_true, if_false] at granted
    obtain ⟨limits, found, same⟩ := map_eq_some_iff.1 granted
    subst same
    exact .batched rolling (clientLimits_ok found)

/-! ### Submissions -/

/-- What an admitted build owns beside the others. -/
structure Disjoint (db : Db) (targets : List Drv) (available : List StorePath) : Prop where
  derivations : ∀ b ∈ db.activeBuilds, ∀ d ∈ db.needed targets available, d ∉ db.needed b.spec.targets.roots available
  paths : ∀ b ∈ db.activeBuilds, ∀ p ∈ db.paths (db.needed targets available),
    p ∉ db.paths (db.needed b.spec.targets.roots available)

theorem paths_sub {drvs drvs' : List Drv} (sub : ∀ d ∈ drvs, d ∈ drvs') : ∀ p ∈ db.paths drvs, p ∈ db.paths drvs' := by
  intro p mem
  obtain ⟨d, mem, path⟩ := mem_flatMap.1 mem
  exact mem_flatMap.2 ⟨d, sub d mem, path⟩

/-- What is disjoint stays so as more becomes available. -/
theorem Disjoint.mono {targets : List Drv} {available available' : List StorePath} (disjoint : Disjoint db targets available)
    (sub : ∀ p ∈ available, p ∈ available') : Disjoint db targets available' where
  derivations b mem d need owned := disjoint.derivations b mem d (needed_anti sub need) (needed_anti sub owned)
  paths b mem p need owned := disjoint.paths b mem p (paths_sub (fun _ => needed_anti sub) p need)
    (paths_sub (fun _ => needed_anti sub) p owned)

theorem overlap_disjoint {r : Reservation} {targets : List Drv} (covers : db.Covers r)
    (free : db.overlap (db.needed targets r.available) r.held = false) : Disjoint db targets r.available := by
  simp only [Db.overlap, Bool.or_eq_false_iff, List.any_eq_false, decide_eq_true_eq] at free
  refine ⟨fun b mem d need owned => free.1 d need (covers b mem d owned), fun b mem p need owned => ?_⟩
  exact free.2 p need (paths_sub (covers b mem) p owned)

/-- What the spec of a submitted build says. -/
structure Submitted (c : Campaign) (spec : Spec) (s : Controller) : Prop where
  lanes : s.db.checkLanes c false = .ok ()
  granted : Grant c.policy spec.policy s.db.activeBuilds (spec.buildLocation.getD .local_) s.machines
  owned : s.db.activeBuilds ≠ [] → ∃ available, spec.admissionAvailable = some available ∧
    Disjoint s.db spec.targets.roots available

variable {spec : Spec} {as : List Attempt}

theorem buildSpec_ok {it : BuildIntent} (submitted : buildSpec w c it s = .ok spec)
    (covers : ∀ r, it.observation = some r → s.db.Covers r) : Submitted c spec s := by
  obtain ⟨⟨⟩, lanes, submitted⟩ := bind_ok submitted
  obtain ⟨⟨⟩, -, submitted⟩ := bind_ok submitted
  obtain ⟨effective, granted, submitted⟩ := bind_ok submitted
  obtain ⟨available, owned, submitted⟩ := bind_ok submitted
  cases submitted
  refine ⟨lanes, ?_, fun others => ?_⟩
  · rw [effectivePolicy] at granted
    cases policy : buildPolicy c.policy s.db.activeBuilds (it.location.getD .local_) s.machines with
    | none => simp [policy] at granted
    | some p =>
      simp only [policy, Except.ok.injEq] at granted
      subst granted
      have place : (if c.policy.rolling = true then some (it.location.getD .local_) else it.location).getD .local_ =
          it.location.getD .local_ := by split <;> rfl
      simp only [place]
      exact buildPolicy_ok policy
  · simp only [admissionAvailable] at owned
    have covered : s.db.Covers
        (it.observation.getD (s.db.reservations w.before (w.valid .submitting) s.db.activeBuilds [])) := by
      cases observed : it.observation with
      | none => exact reservations_covers s.db _ _ _
      | some r => exact covers r observed
    split at owned
    · split at owned
      · cases owned
      · rename_i free
        split at owned
        · cases owned
        · cases owned
          exact ⟨_, rfl, overlap_disjoint covered (Bool.eq_false_iff.2 free)⟩
    · rename_i alone
      simp [others] at alone

/-! ### Processors -/

/-- Each attempt's campaign has a row, and each local build has threads. -/
structure Placed (db : Db) : Prop where
  rows : ∀ a ∈ db.attempts, a.campaign < db.campaigns.length
  threads : ∀ a ∈ db.activeBuilds, a.remote = false → 0 ≤ threads a

/-- The active local builds stay within the processors of the policy of the campaign that builds. -/
def Within (db : Db) : Prop := ∀ c ∈ db.campaigns, ∀ a ∈ db.activeBuilds, a.campaign = c.id →
  ((localBuilds db.activeBuilds).map threads).sum ≤ (cpuSet c.policy.cpus).length

structure Budgeted (db : Db) : Prop where
  placed : Placed db
  within : Within db

theorem builds_same {as' : List Attempt} (same : List.Forall₂ SameAttempt as as') :
    List.Forall₂ SameAttempt (as.filter (·.isBuild)) (as'.filter (·.isBuild)) := by
  induction same with
  | nil => exact .nil
  | cons head _ ih =>
    simp only [filter_cons, head.isBuild]
    split
    exacts [.cons head ih, ih]

theorem SameAttempt.remote {a a' : Attempt} (same : SameAttempt a a') : a'.remote = a.remote := by
  rw [Attempt.remote, Attempt.remote, same.spec]

theorem SameAttempt.threads {a a' : Attempt} (same : SameAttempt a a') : Experiment.threads a' = Experiment.threads a := by
  rw [Experiment.threads, Experiment.threads, same.spec]

theorem threads_same {as' : List Attempt} (same : List.Forall₂ SameAttempt as as') :
    ((localBuilds as').map threads).sum = ((localBuilds as).map threads).sum := by
  induction same with
  | nil => rfl
  | cons head _ ih =>
    simp only [localBuilds, filter_cons, head.remote] at ih ⊢
    split
    · simp only [map_cons, sum_cons, head.threads, ih]
    · exact ih

/-- A part of the builds has no more threads than all of them. -/
theorem threads_sublist {bs : List Attempt} (sub : as.Sublist bs) (positive : ∀ a ∈ bs, a.remote = false → 0 ≤ threads a) :
    ((localBuilds as).map threads).sum ≤ ((localBuilds bs).map threads).sum := by
  induction sub with
  | slnil => exact le_refl _
  | cons b _ ih =>
    have rest := ih fun a mem => positive a (mem_cons_of_mem _ mem)
    simp only [localBuilds, filter_cons] at rest ⊢
    split
    · rename_i own
      have here := positive b mem_cons_self (by simpa using own)
      simp only [map_cons, sum_cons]
      omega
    · exact rest
  | cons_cons b _ ih =>
    have rest := ih fun a mem => positive a (mem_cons_of_mem _ mem)
    simp only [localBuilds, filter_cons] at rest ⊢
    split
    · simp only [map_cons, sum_cons]
      omega
    · exact rest

/-- A change that leaves the processors and starts no build. -/
theorem Budgeted.same {l : List Attempt} (budgeted : Budgeted db)
    (campaigns : db'.campaigns.map (fun c => (c.id, c.policy.cpus)) = db.campaigns.map (fun c => (c.id, c.policy.cpus)))
    (attempts : db'.attempts.map (·.campaign) = db.attempts.map (·.campaign))
    (same : List.Forall₂ SameAttempt l db'.activeBuilds) (sub : l.Sublist db.activeBuilds) : Budgeted db' := by
  refine ⟨⟨fun a mem => ?_, fun a mem own => ?_⟩, fun c mem a mem' campaign => ?_⟩
  · obtain ⟨a', mem', same'⟩ := List.mem_map.1 (attempts ▸ List.mem_map_of_mem (f := fun a : Attempt => a.campaign) mem)
    have length := congrArg List.length campaigns
    simp only [length_map] at length
    rw [length, ← same']
    exact budgeted.placed.rows a' mem'
  · obtain ⟨a', mem', same'⟩ := mem_right same mem
    rw [same'.threads]
    exact budgeted.placed.threads a' (sub.subset mem') (same'.remote ▸ own)
  · obtain ⟨c', row, eq⟩ := List.mem_map.1 (campaigns ▸ List.mem_map_of_mem (f := fun c : Campaign => (c.id, c.policy.cpus)) mem)
    obtain ⟨a', old, same'⟩ := mem_right same mem'
    obtain ⟨id, cpus⟩ := Prod.mk.inj eq
    rw [threads_same same, ← cpus]
    refine le_trans (threads_sublist sub budgeted.placed.threads) (budgeted.within c' row a' (sub.subset old) ?_)
    rw [id, ← campaign, same'.campaign]

theorem Kept.builds (kept : Kept runs db db') : List.Forall₂ SameAttempt db.activeBuilds db'.activeBuilds :=
  builds_same kept.active

theorem Kept.cpus (kept : Kept runs db db') :
    db'.campaigns.map (fun c => (c.id, c.policy.cpus)) = db.campaigns.map (fun c => (c.id, c.policy.cpus)) := by
  have := congrArg (List.map (fun p : Uuid × Policy => (p.1, p.2.cpus))) kept.campaigns
  simpa only [List.map_map, Function.comp_def] using this

theorem Budgeted.kept (budgeted : Budgeted db) (kept : Kept runs db db') : Budgeted db' :=
  budgeted.same kept.cpus (map_same (fun _ _ same => same.campaign) kept.attempts) kept.builds (.refl _)

/-- The active builds, and a new one when a build is intended. -/
theorem intend_builds (db : Db) (c : Campaign) (spec : Spec) : (db.intend c spec).activeBuilds =
    db.activeBuilds ++ [(⟨db.attempts.length, c.id, .intended, spec, none, false⟩ : Attempt)].filter (·.isBuild) := by
  rw [Db.activeBuilds, intend_active, filter_append, Db.activeBuilds]

theorem local_le_all (positive : ∀ a ∈ as, 0 ≤ threads a) : ((localBuilds as).map threads).sum ≤ (as.map threads).sum := by
  induction as with
  | nil => exact le_refl _
  | cons a as ih =>
    have here := positive a mem_cons_self
    have rest := ih fun b mem => positive b (mem_cons_of_mem _ mem)
    simp only [localBuilds, filter_cons] at rest ⊢
    split <;> simp only [map_cons, sum_cons] <;> omega

theorem sum_local {f : Attempt → Int} : ((localBuilds (as ++ [a])).map f).sum =
    ((localBuilds as).map f).sum + if a.remote then 0 else f a := by
  cases own : a.remote <;> simp [localBuilds, filter_append, own]

/-- The threads that the active local builds have once another is admitted. -/
theorem admitted_threads {machines : List Machine} (budgeted : Budgeted db)
    (granted : Grant c.policy spec.policy db.activeBuilds (spec.buildLocation.getD .local_) machines)
    (row : HasRow db c) (here : ∀ b ∈ db.activeBuilds, b.campaign = c.id) (new : a.spec = spec) :
    ((localBuilds (db.activeBuilds ++ [a])).map threads).sum ≤ (cpuSet c.policy.cpus).length ∧
      (a.remote = false → 0 ≤ threads a) := by
  have share : threads a = spec.policy.maxJobs * spec.policy.cores := by rw [threads, new]
  rw [sum_local]
  cases granted with
  | remote rolling location slots =>
    have away : a.remote = true := by
      cases place : spec.buildLocation with
      | none => simp [place] at location
      | some l => simpa [Attempt.remote, new, place] using location
    simp only [away, if_true, Int.add_zero]
    refine ⟨?_, nofun⟩
    cases builds : db.activeBuilds with
    | nil => exact Int.natCast_nonneg _
    | cons b bs =>
      obtain ⟨row, mem, id, policy⟩ := row
      have mem' : b ∈ db.activeBuilds := builds ▸ mem_cons_self
      rw [← builds, ← policy]
      exact budgeted.within row mem b mem' ((here b mem').trans id.symm)
  | local_ rolling location limits =>
    have fit := limits.processors
    have positive := Int.mul_nonneg (le_of_lt limits.positive.1) (le_of_lt limits.positive.2)
    refine ⟨?_, fun _ => share ▸ positive⟩
    split <;> omega
  | batched batched limits =>
    have fit := limits.processors
    have positive := Int.mul_nonneg (le_of_lt limits.positive.1) (le_of_lt limits.positive.2)
    have others := local_le_all fun b mem =>
      Int.mul_nonneg (le_of_lt (limits.others b mem).1) (le_of_lt (limits.others b mem).2)
    refine ⟨?_, fun _ => share ▸ positive⟩
    split <;> omega

theorem row_below {cid : Uuid} (indexed : Indexed db) (row : ∃ row ∈ db.campaigns, row.id = cid) : cid < db.campaigns.length := by
  obtain ⟨row, mem, id⟩ := row
  have mem' := List.mem_map_of_mem (f := fun c : Campaign => c.id) mem
  rw [indexed.campaigns, id] at mem'
  exact mem_range.1 mem'

theorem row_unique (indexed : Indexed db) (row : HasRow db c) {c' : Campaign} (mem : c' ∈ db.campaigns) (same : c'.id = c.id) :
    c'.policy = c.policy := by
  obtain ⟨row, mem', id, policy⟩ := row
  have distinct : (db.campaigns.map (·.id)).Nodup := indexed.campaigns ▸ nodup_range
  rw [inj_on_of_nodup_map distinct mem mem' (same.trans id.symm), policy]

theorem Budgeted.intend (budgeted : Budgeted db) (machines : List Machine) (indexed : Indexed db)
    (row : HasRow db c) (here : ∀ b ∈ db.activeBuilds, b.campaign = c.id)
    (granted : ∀ drvs, spec.targets = .build drvs →
      Grant c.policy spec.policy db.activeBuilds (spec.buildLocation.getD .local_) machines) : Budgeted (db.intend c spec) := by
  have rows : ∀ a ∈ (db.intend c spec).attempts, a.campaign < (db.intend c spec).campaigns.length := by
    rw [intend_campaigns, intend_attempts]
    intro a mem
    rcases mem_append.1 mem with mem | new
    · exact budgeted.placed.rows a mem
    · rw [mem_singleton.1 new]
      obtain ⟨row, mem, id, -⟩ := row
      exact row_below indexed ⟨row, mem, id⟩
  cases targets : spec.targets with
  | plan ids =>
    have none_ : [(⟨db.attempts.length, c.id, .intended, spec, none, false⟩ : Attempt)].filter (·.isBuild) = [] := by
      simp [Attempt.isBuild, Attempt.isPlan, targets]
    refine ⟨⟨rows, ?_⟩, ?_⟩
    · rw [intend_builds, none_, append_nil]
      exact budgeted.placed.threads
    · rw [Within, intend_builds, none_, append_nil, intend_campaigns]
      exact budgeted.within
  | build drvs =>
    have one : [(⟨db.attempts.length, c.id, .intended, spec, none, false⟩ : Attempt)].filter (·.isBuild) =
        [⟨db.attempts.length, c.id, .intended, spec, none, false⟩] := by simp [Attempt.isBuild, Attempt.isPlan, targets]
    obtain ⟨sum, positive⟩ := admitted_threads (a := ⟨db.attempts.length, c.id, .intended, spec, none, false⟩) budgeted
      (granted drvs targets) row here rfl
    refine ⟨⟨rows, ?_⟩, ?_⟩
    · rw [intend_builds, one]
      intro a mem own
      rcases mem_append.1 mem with mem | new
      · exact budgeted.placed.threads a mem own
      · rw [mem_singleton.1 new] at own ⊢
        exact positive own
    · rw [Within, intend_builds, one, intend_campaigns]
      intro c' mem a mem' campaign
      have same : a.campaign = c.id := by
        rcases mem_append.1 mem' with mem' | new
        · exact here a mem'
        · rw [mem_singleton.1 new]
      rw [row_unique indexed row mem (campaign.symm.trans same)]
      exact sum

theorem builds_campaign {plan : Bool} (checked : db.checkLanes c plan = .ok ()) : ∀ b ∈ db.activeBuilds, b.campaign = c.id :=
  fun b mem => (checkLanes_ok checked).1 b (mem_of_mem_filter mem)

theorem Commit.budgeted (indexed : Indexed s.db) (commit : Commit w op s t) (budgeted : Budgeted s.db) : Budgeted t.db := by
  cases commit with
  | written written => exact budgeted.kept written.kept
  | imported created source revision policy selections asked db =>
    rw [db]
    refine ⟨⟨fun a mem => ?_, budgeted.placed.threads⟩, fun c mem a mem' campaign => ?_⟩
    · simp only [Db.importCampaign, Db.event, length_append, length_singleton]
      exact Nat.lt_succ_of_lt (budgeted.placed.rows a mem)
    · rcases mem_append.1 mem with mem | new
      · exact budgeted.within c mem a mem' campaign
      · rw [mem_singleton.1 new] at campaign
        have below := budgeted.placed.rows a (mem_of_mem_filter (mem_of_mem_filter mem'))
        exact absurd campaign (Nat.ne_of_lt below)
  | scheduled cid old new ahead db =>
    refine db ▸ budgeted.same ?_ rfl (attempts_refl _) (.refl _)
    simp only [Db.event, Db.updateCampaign, List.map_map]
    refine map_congr_left fun c _ => ?_
    simp only [Function.comp]
    split <;> rfl
  | built c it spec row submitted covers derivations rooted db =>
    have ok := buildSpec_ok submitted covers
    exact db ▸ budgeted.intend s.machines indexed row (builds_campaign ok.lanes) fun _ _ => ok.granted
  | planned c it spec row submitted ids db =>
    obtain ⟨lanes, targets, -⟩ := planSpec_ok submitted
    refine db ▸ budgeted.intend [] indexed row (builds_campaign lanes) fun drvs build => ?_
    rw [targets] at build
    cases build
  | finished a mid reason result live written released db =>
    have kept := written.kept
    have ended := active_finish mid a.id (fun a => { a with state := .finished, result := some result }) fun _ => rfl
    have budgeted' : Budgeted mid := budgeted.kept kept
    refine budgeted'.same (l := mid.activeBuilds.filter (·.id ≠ a.id)) ?_ ?_ ?_ filter_sublist
    · rw [db]
      rfl
    · rw [db]
      simp only [Db.event, Db.updateAttempts, List.map_map]
      refine map_congr_left fun b _ => ?_
      simp only [Function.comp]
      split <;> rfl
    · have builds : t.db.activeBuilds = mid.activeBuilds.filter (·.id ≠ a.id) := by
        have active : t.db.activeAttempts = mid.activeAttempts.filter (·.id ≠ a.id) := by rw [db, ← ended]; rfl
        rw [Db.activeBuilds, active, Db.activeBuilds, List.filter_filter, List.filter_filter]
        exact filter_congr fun b _ => Bool.and_comm _ _
      rw [builds]
      exact attempts_refl _
  | queued c o ids pending now command distinct source found db => exact db ▸ budgeted.same rfl rfl (attempts_refl _) (.refl _)
  | skipped cid drvs db =>
    obtain ⟨campaigns, -, attempts⟩ := skipReplans_rows s.db cid drvs
    refine budgeted.same (l := s.db.activeBuilds) ?_ ?_ ?_ (.refl _)
    · rw [db, campaigns]
    · rw [db, attempts]
    · simp only [db, Db.activeBuilds, skipReplans_active]
      exact attempts_refl _

theorem budgeted_empty : Budgeted .empty :=
  ⟨⟨forall_mem_nil _, forall_mem_nil _⟩, forall_mem_nil _⟩

/-! ### Admissions -/

/-- A build attempt is admitted. -/
structure Admits (s t : Controller) (a : Attempt) : Prop where
  build : a.isBuild
  added : t.db.attempts = s.db.attempts ++ [a]

/-- A build that is admitted owns what it needs, also as more becomes available; in rolling mode
it is within the jobs of its policy where it is local, within the machines' slots where it is
remote. -/
structure Apart (s t : Controller) (a : Attempt) : Prop where
  owned : s.db.activeBuilds ≠ [] → ∃ available, a.spec.admissionAvailable = some available ∧
    ∀ available', (∀ p ∈ available, p ∈ available') → Disjoint s.db a.spec.targets.roots available'
  jobs : ∀ c ∈ s.db.campaigns, c.id = a.campaign → c.policy.rolling → a.remote = false →
    ((localBuilds t.db.activeBuilds).map (·.spec.policy.maxJobs)).sum ≤ c.policy.maxJobs
  slots : ∀ c ∈ s.db.campaigns, c.id = a.campaign → c.policy.rolling → a.remote →
    remoteBuilds t.db.activeBuilds ≤ machineSlots s.machines

theorem Admits.built (admits : Admits s t a) (commit : Commit w op s t) : ∃ c it spec, HasRow s.db c ∧
    buildSpec w c it s = .ok spec ∧ (∀ r, it.observation = some r → s.db.Covers r) ∧ t.db = s.db.intend c spec ∧
    a = ⟨s.db.attempts.length, c.id, .intended, spec, none, false⟩ := by
  have longer : t.db.attempts.length = s.db.attempts.length + 1 := by rw [admits.added, length_append]; rfl
  have other : t.db.attempts.length ≠ s.db.attempts.length := by omega
  have added : ∀ (c : Campaign) (spec : Spec), t.db = s.db.intend c spec →
      a = ⟨s.db.attempts.length, c.id, .intended, spec, none, false⟩ := by
    intro c spec db
    have same := admits.added
    rw [db, intend_attempts, append_cancel_left_eq] at same
    exact (List.cons.inj same).1.symm
  cases commit with
  | written written => exact absurd written.kept.attempts.length_eq.symm other
  | imported created source revision policy selections asked db => exact absurd (by rw [db]; rfl) other
  | scheduled cid old new ahead db => exact absurd (by rw [db]; rfl) other
  | built c it spec row submitted covers derivations rooted db => exact ⟨c, it, spec, row, submitted, covers, db, added c spec db⟩
  | planned c it spec row submitted ids db =>
    have build := admits.build
    rw [added c spec db, Attempt.isBuild, Attempt.isPlan, (planSpec_ok submitted).2.1] at build
    cases build
  | finished a' mid reason result live written released db =>
    have kept := written.kept
    refine absurd ?_ other
    rw [db]
    simp only [Db.event, Db.updateAttempts, length_map]
    exact kept.attempts.length_eq.symm
  | queued c o ids pending now command distinct source found db => exact absurd (by rw [db]) other
  | skipped cid drvs db => exact absurd (by rw [db, (skipReplans_rows s.db cid drvs).2.2]) other

theorem Admits.apart (admits : Admits s t a) (indexed : Indexed s.db) (commit : Commit w op s t) : Apart s t a := by
  obtain ⟨c, it, spec, row, submitted, covers, db, rfl⟩ := admits.built commit
  have ok := buildSpec_ok submitted covers
  have builds : t.db.activeBuilds = s.db.activeBuilds ++ [⟨s.db.attempts.length, c.id, .intended, spec, none, false⟩] := by
    have build := admits.build
    rw [db, intend_builds, filter_cons, if_pos build]
    rfl
  refine ⟨fun others => ?_, fun c' mem same rolling own => ?_, fun c' mem same rolling away => ?_⟩
  · obtain ⟨available, recorded, disjoint⟩ := ok.owned others
    exact ⟨available, recorded, fun available' sub => disjoint.mono sub⟩
  · have policy := row_unique indexed row mem same
    rw [policy] at rolling ⊢
    rw [builds, sum_local, own, if_neg Bool.false_ne_true]
    cases ok.granted with
    | remote _ location slots =>
      cases place : spec.buildLocation with
      | none => simp [place] at location
      | some l =>
        simp only [place, getD_some] at location
        simp [Attempt.remote, place, location] at own
    | local_ _ location limits => exact limits.rolling rolling
    | batched batched limits => simp [rolling] at batched
  · have policy := row_unique indexed row mem same
    rw [policy] at rolling
    have one : remoteBuilds t.db.activeBuilds = remoteBuilds s.db.activeBuilds + 1 := by
      rw [builds, remoteBuilds, filter_append, length_append, filter_cons, if_pos away]
      rfl
    cases ok.granted with
    | remote _ location slots => omega
    | local_ _ location limits =>
      have place : spec.buildLocation = some .remote := by simpa [Attempt.remote] using away
      simp [place] at location
    | batched batched limits => simp [rolling] at batched

/-- In every run the active local builds stay within the processors, and each build that is
admitted is apart from the others. -/
theorem builds_apart : (∀ t, Reached anyOp t → Within t.db) ∧
    ∀ s t a, Follows anyOp s t → Admits s t a → Apart s t a := by
  refine ⟨fun t reached => (reached_keeps budgeted_empty (fun _ indexed commit => commit.budgeted indexed) reached).within, ?_⟩
  intro s t a follows admits
  obtain ⟨w, op, -, -, commit, indexed, -⟩ := follows_commit (I := fun _ => True) trivial (fun _ _ _ _ => trivial) follows
  exact admits.apart indexed commit

/-! ### Two runs -/

/-- A derivation that a remote builder takes, without dependencies. -/
def leaf (name path : String) : Info := ⟨name, [("out", some path)], [], some "x86_64-linux", [], none, false, none⟩

/-- A world with one remote slot, in which a planner has finished and builds are at work. -/
def threePlanned : World := { World.idle with
  now := 100
  machines := [⟨["x86_64-linux"], 1, [], []⟩]
  worker := fun aid =>
    if aid = 0 then ⟨[], some ⟨[], false, "success", false⟩, false, true,
      [⟨0, .recipe "/nix/store/a.drv" [("/nix/store/a.drv", leaf "a" "/nix/store/a")]⟩,
       ⟨1, .recipe "/nix/store/b.drv" [("/nix/store/b.drv", leaf "b" "/nix/store/b")]⟩,
       ⟨2, .recipe "/nix/store/c.drv" [("/nix/store/c.drv", leaf "c" "/nix/store/c")]⟩], [], false⟩
    else ⟨[], none, true, true, [], [], false⟩ }

def threeImported : Controller :=
  Op.after .idle (.import_ 0 "source" "revision" .default [("a", false), ("b", false), ("c", false)]) (started .empty)

theorem atRest_command {r : Request} {s : Controller} (rest : AtRest anyOp s) : AtRest anyOp (r.after s) :=
  .after rest trivial trivial

theorem atRest_tick {w : World} {s : Controller} (rest : AtRest anyOp s) (ok : (tick w s).2.isOk = true) :
    AtRest anyOp (Op.after w .tick s) := .after rest trivial (tick_survives ok)

theorem threeImported_atRest : AtRest anyOp threeImported := .after .start trivial trivial

/-- The state after some commits of an operation. -/
def Op.upto (w : World) (op : Op) (s : Controller) (n : Nat) : Controller := (op.run w s).1.getD n s

theorem upto_mem {w : World} {op : Op} {s : Controller} {n : Nat} (long : n < (op.run w s).1.length) :
    op.upto w s n ∈ (op.run w s).1 := by
  rw [Op.upto, getD_eq_getElem?_getD, getElem?_eq_getElem long]
  exact getElem_mem long

theorem upto_follows {w : World} {op : Op} {s : Controller} {n : Nat} (rest : AtRest anyOp s)
    (long : n + 1 < (op.run w s).1.length) : Follows anyOp (op.upto w s n) (op.upto w s (n + 1)) := by
  refine ⟨s, w, op, rest, trivial, s :: (op.run w s).1.take n, (op.run w s).1.drop (n + 2), ?_⟩
  have first : op.upto w s n = (op.run w s).1[n] := by
    rw [Op.upto, getD_eq_getElem?_getD, getElem?_eq_getElem (by omega), getD_some]
  have second : op.upto w s (n + 1) = (op.run w s).1[n + 1] := by
    rw [Op.upto, getD_eq_getElem?_getD, getElem?_eq_getElem long, getD_some]
  rw [first, second, ← drop_eq_getElem_cons long, ← drop_eq_getElem_cons (by omega), cons_append,
    take_append_drop]

/-- Rolling, the controller has admitted a remote build when it is started again; the machines are
not known to it, and it is asked for another build. -/
def restarted : Controller :=
  started (Op.tick.upto threePlanned
    (Op.after .idle .tick ((Request.run 0).after ((Request.schedule 0 ⟨none, some 8, none, some .rolling⟩).after threeImported))) 5).db

def beforeOnce : Controller := (Request.pause 0).after restarted

def afterOnce : Controller := Op.upto .idle (.command (.buildOnce 0 [1])) beforeOnce 0

theorem beforeOnce_atRest : AtRest anyOp beforeOnce := by
  refine atRest_command (@AtRest.restart anyOp _ _ threePlanned .tick ?_ trivial (.inr (upto_mem (by decide +kernel))))
  exact atRest_tick (atRest_command (atRest_command threeImported_atRest)) (by decide +kernel)

theorem afterOnce_follows : Follows anyOp beforeOnce afterOnce := by
  refine ⟨beforeOnce, .idle, .command (.buildOnce 0 [1]), beforeOnce_atRest, trivial, [], [], ?_⟩
  have one : ((Op.command (.buildOnce 0 [1])).run .idle beforeOnce).1 = [afterOnce] := by decide +kernel
  rw [one]
  rfl

def localBuild : Attempt := afterOnce.db.attempts.getLast (by decide +kernel)

theorem localBuild_admitted : Admits beforeOnce afterOnce localBuild := ⟨by decide +kernel, by decide +kernel⟩

/-- The local build is apart from the remote one beside it. -/
theorem builds_apart_once : Apart beforeOnce afterOnce localBuild :=
  builds_apart.2 beforeOnce afterOnce localBuild afterOnce_follows localBuild_admitted

/-- Two batched builds hold more jobs than the policy has when rolling begins. -/
def crowded : Controller :=
  (Request.run 0).after ((Request.schedule 0 ⟨none, none, none, some .rolling⟩).after
    ((Request.buildOnce 0 [1]).after ((Request.schedule 0 ⟨none, some 8, some 2, none⟩).after
      ((Request.buildOnce 0 [0]).after (Op.after threePlanned .tick ((Request.pause 0).after
        (Op.after .idle .tick ((Request.run 0).after threeImported))))))))

theorem crowded_atRest : AtRest anyOp crowded := by
  refine atRest_command (atRest_command (atRest_command (atRest_command (atRest_command (atRest_tick (atRest_command ?_) ?_)))))
  · exact atRest_tick (atRest_command threeImported_atRest) (by decide +kernel)
  · decide +kernel

def remoteBuild : Attempt := (Op.tick.upto threePlanned crowded 6).db.attempts.getLast (by decide +kernel)

theorem remoteBuild_admitted : Admits (Op.tick.upto threePlanned crowded 5) (Op.tick.upto threePlanned crowded 6) remoteBuild :=
  ⟨by decide +kernel, by decide +kernel⟩

/-- Neither limit is checked of a build of the other kind: a remote one is admitted beside local
jobs beyond the policy's, and a local one beside remote ones beyond the slots. -/
theorem limits_exceeded :
    (¬ ∀ s t a, Follows anyOp s t → Admits s t a → ∀ c ∈ s.db.campaigns, c.id = a.campaign → c.policy.rolling →
      ((localBuilds t.db.activeBuilds).map (·.spec.policy.maxJobs)).sum ≤ c.policy.maxJobs) ∧
    ¬ ∀ s t a, Follows anyOp s t → Admits s t a → ∀ c ∈ s.db.campaigns, c.id = a.campaign → c.policy.rolling →
      remoteBuilds t.db.activeBuilds ≤ machineSlots s.machines := by
  constructor
  · intro claimed
    have row : ∃ c ∈ (Op.tick.upto threePlanned crowded 5).db.campaigns, c.id = remoteBuild.campaign ∧ c.policy.rolling ∧
        c.policy.maxJobs < ((localBuilds (Op.tick.upto threePlanned crowded 6).db.activeBuilds).map (·.spec.policy.maxJobs)).sum := by
      decide +kernel
    obtain ⟨c, mem, same, rolling, beyond⟩ := row
    have within := claimed _ _ _ (upto_follows crowded_atRest (by decide +kernel)) remoteBuild_admitted c mem same rolling
    exact absurd within (not_le_of_gt beyond)
  · intro claimed
    have row : ∃ c ∈ beforeOnce.db.campaigns, c.id = localBuild.campaign ∧ c.policy.rolling := by decide +kernel
    obtain ⟨c, mem, same, rolling⟩ := row
    have within := claimed _ _ _ afterOnce_follows localBuild_admitted c mem same rolling
    have beyond : machineSlots beforeOnce.machines < remoteBuilds afterOnce.db.activeBuilds := by decide +kernel
    omega

end Experiment
