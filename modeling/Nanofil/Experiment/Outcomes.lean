import Nanofil.Experiment.Knowledge
import Nanofil.Experiment.Diagnostics

/-! What the end of a build says of its derivations: no more than the store, the log and its own activities show. -/
namespace Experiment
open List Logs Commits

variable {db db' after : Db} {a : Attempt} {e : Ended} {drv x : Drv} {drvs : List Drv} {activity : Option Activity} {d d' : Derivation} {r : Result}

/-! ### One derivation -/

/-- A derivation as the end of an attempt leaves it, given its activity. -/
def judged (a : Attempt) (e : Ended) (activity : Option Activity) (d : Derivation) : Derivation :=
  if complete a e d then
    if buildOrigin e activity d = .local_ ∨ d.available = false then
      { d with available := true, origin := buildOrigin e activity d, failure := none, evidenceAttempt := some a.id }
    else d
  else if e.reason = "build-error" ∧ d.drv ∈ e.failures then
    { d with available := false, failure := some (failureOf (activity.bind (·.phase))), evidenceAttempt := some a.id }
  else d

/-- The phases that are recorded as tested. -/
def testedPhases (a : Attempt) (e : Ended) (activity : Option Activity) (d : Derivation) : List String :=
  if complete a e d ∧ buildOrigin e activity d = .local_ ∧ e.truncated = false then (activity.map (·.checks)).getD [] else []

theorem judged_made (whole : complete a e d = true) (chosen : buildOrigin e activity d = .local_ ∨ d.available = false) :
    judged a e activity d =
      { d with available := true, origin := buildOrigin e activity d, failure := none, evidenceAttempt := some a.id } := by
  rw [judged, if_pos whole, if_pos chosen]

theorem judged_failed (partial_ : ¬complete a e d = true) (reason : e.reason = "build-error") (failed : d.drv ∈ e.failures) :
    judged a e activity d = { d with
      available := false, failure := some (failureOf (activity.bind (·.phase))), evidenceAttempt := some a.id } := by
  rw [judged, if_neg partial_, if_pos ⟨reason, failed⟩]

theorem judged_outputs : (judged a e activity d).outputs = d.outputs := by
  rw [judged]
  split_ifs <;> rfl

theorem judged_drv : (judged a e activity d).drv = d.drv := by
  rw [judged]
  split_ifs <;> rfl

theorem complete_same (same : d'.outputs = d.outputs) : complete a e d' = complete a e d := by rw [complete, complete, same]

theorem buildOrigin_same (same : d'.outputs = d.outputs) : buildOrigin e activity d' = buildOrigin e activity d := by
  rw [buildOrigin, buildOrigin, same]

theorem judged_judged : judged a e activity (judged a e activity d) = judged a e activity d := by
  have whole : complete a e (judged a e activity d) = complete a e d := complete_same judged_outputs
  have origin : buildOrigin e activity (judged a e activity d) = buildOrigin e activity d := buildOrigin_same judged_outputs
  have same : (judged a e activity d).drv = d.drv := judged_drv
  rw [judged, whole, origin, same]
  rw [judged]
  split_ifs <;> simp_all

/-! ### One end -/

theorem insertTests_same (phases : List String) (db : Db) : (db.insertTests a.id drv phases).derivations = db.derivations ∧
    (db.insertTests a.id drv phases).activities = db.activities := by
  rw [Db.insertTests]
  induction phases generalizing db with
  | nil => exact ⟨rfl, rfl⟩
  | cons phase phases ih =>
    rw [foldl_cons]
    refine ⟨(ih _).1.trans ?_, (ih _).2.trans ?_⟩ <;> split_ifs <;> rfl

theorem mem_insertTests {t : TestRow} (phases : List String) (db : Db) :
    t ∈ (db.insertTests a.id drv phases).tests ↔ t ∈ db.tests ∨ t.attempt = a.id ∧ t.drv = drv ∧ t.phase ∈ phases := by
  rw [Db.insertTests]
  induction phases generalizing db with
  | nil => simp
  | cons phase phases ih =>
    have one : t ∈ (if (⟨a.id, drv, phase⟩ : TestRow) ∈ db.tests then db else { db with tests := db.tests ++ [⟨a.id, drv, phase⟩] }).tests ↔
        t ∈ db.tests ∨ t.attempt = a.id ∧ t.drv = drv ∧ t.phase = phase := by
      have row : t = ⟨a.id, drv, phase⟩ ↔ t.attempt = a.id ∧ t.drv = drv ∧ t.phase = phase := by cases t; simp
      split_ifs with there
      · refine ⟨.inl, fun found => found.elim id fun same => ?_⟩
        rwa [row.2 same]
      · rw [mem_append, mem_singleton, row]
    rw [foldl_cons, ih, one, mem_cons, or_assoc]
    refine or_congr_right ⟨fun found => found.elim (fun same => ⟨same.1, same.2.1, .inl same.2.2⟩) fun more => ⟨more.1, more.2.1, .inr more.2.2⟩, ?_⟩
    rintro ⟨attempt, named, same | more⟩
    · exact .inl ⟨attempt, named, same⟩
    · exact .inr ⟨attempt, named, more⟩

/-- What a pass over derivations leaves: the rows and the tests that their activities and their outputs give. -/
structure Passed (a : Attempt) (e : Ended) (drvs : List Drv) (db after : Db) : Prop where
  rows : ∀ x, after.derivation? x = (db.derivation? x).map fun d => if x ∈ drvs then judged a e (db.activityOf a.id x) d else d
  tests : ∀ t, t ∈ after.tests ↔ t ∈ db.tests ∨ t.attempt = a.id ∧ t.drv ∈ drvs ∧
    ∃ d, db.derivation? t.drv = some d ∧ t.phase ∈ testedPhases a e (db.activityOf a.id t.drv) d
  activities : after.activities = db.activities

theorem named {db : Db} (row : db.derivation? drv = some d) : d.drv = drv := by simpa using find?_some row

theorem local_activity (origin : buildOrigin e activity d = .local_) : activity.isSome = true := by
  rw [buildOrigin] at origin
  split_ifs at origin with before some_
  exact some_

theorem derivation?_named {f : Derivation → Derivation} (row : db.derivation? drv = some d) (x : Drv) (same : ∀ d, (f d).drv = d.drv) :
    (db.updateDerivations (·.drv = drv) f).derivation? x = if x = drv then some (f d) else db.derivation? x := by
  rw [derivation?_update fun d _ => same d]
  split_ifs with here
  · subst here
    simp [row, named row]
  · cases there : db.derivation? x with
    | none => rfl
    | some d' => simp [named there, here]

/-- A pass over one derivation, by its row and the phases that it records. -/
theorem Passed.one {phases : List String} (row : db.derivation? drv = some d)
    (rows : ∀ x, after.derivation? x = if x = drv then some (judged a e (db.activityOf a.id drv) d) else db.derivation? x)
    (recorded : ∀ p, p ∈ phases ↔ p ∈ testedPhases a e (db.activityOf a.id drv) d) (tests : after.tests = db.tests) (activities : after.activities = db.activities) :
    Passed a e [drv] db (after.insertTests a.id drv phases) where
  rows x := by
    rw [Db.derivation?, (insertTests_same phases after).1, ← Db.derivation?, rows]
    by_cases here : x = drv
    · subst here
      simp [row]
    · simp [here]
  tests t := by
    rw [mem_insertTests, tests, mem_singleton]
    refine or_congr_right (and_congr_right fun _ => and_congr_right fun here => ?_)
    rw [here, row, recorded]
    refine ⟨fun phase => ⟨d, rfl, phase⟩, ?_⟩
    rintro ⟨d', same, phase⟩
    exact Option.some.inj same ▸ phase
  activities := (insertTests_same phases after).2.trans activities

theorem Passed.untested (row : db.derivation? drv = some d)
    (rows : ∀ x, after.derivation? x = if x = drv then some (judged a e (db.activityOf a.id drv) d) else db.derivation? x)
    (none_ : testedPhases a e (db.activityOf a.id drv) d = []) (tests : after.tests = db.tests) (activities : after.activities = db.activities) :
    Passed a e [drv] db after := by
  have passed : Passed a e [drv] db (after.insertTests a.id drv []) := .one row rows (fun p => by rw [none_]) tests activities
  exact passed

theorem finishDerivation_passed (finished : Db.finishDerivation a e db drv = .ok db') : Passed a e [drv] db db' := by
  rw [Db.finishDerivation] at finished
  cases found : db.derivation? drv with
  | none => simp [found] at finished
  | some d =>
    simp only [found] at finished
    have own := named found
    have unchanged (same : judged a e (db.activityOf a.id drv) d = d) (x : Drv) :
        db.derivation? x = if x = drv then some (judged a e (db.activityOf a.id drv) d) else db.derivation? x := by
      rw [same]
      split_ifs with here
      · rw [here, found]
      · rfl
    split_ifs at finished with whole fresh observed observed failed
    all_goals simp only [Except.ok.injEq] at finished; subst finished
    · simp only [Bool.and_eq_true, decide_eq_true_eq, Bool.not_eq_true'] at fresh
      refine .one found (fun x => ?_) (fun p => ?_) rfl rfl
      · rw [judged_made whole (.inl fresh.1.1)]
        exact derivation?_named found x fun _ => rfl
      · rw [testedPhases, if_pos ⟨whole, fresh.1.1, fresh.2⟩, mem_dedup]
    · simp_all
    · simp only [Bool.or_eq_true, decide_eq_true_eq, Bool.not_eq_true'] at observed
      refine .untested found (fun x => ?_) (if_neg fun tested => fresh ?_) rfl rfl
      · rw [judged_made whole observed]
        exact derivation?_named found x fun _ => rfl
      · simp [tested.2.1, tested.2.2, local_activity tested.2.1]
    · simp only [Bool.or_eq_true, decide_eq_true_eq, Bool.not_eq_true'] at observed
      refine .untested found (unchanged ?_) (if_neg fun tested => observed (.inl tested.2.1)) rfl rfl
      rw [judged, if_pos whole, if_neg observed]
    · simp only [Bool.and_eq_true, decide_eq_true_eq] at failed
      refine .untested found (fun x => ?_) (if_neg fun tested => whole tested.1) rfl rfl
      rw [judged_failed whole failed.1 (own.symm ▸ failed.2)]
      exact derivation?_named found x fun _ => rfl
    · simp only [Bool.and_eq_true, decide_eq_true_eq] at failed
      refine .untested found (unchanged ?_) (if_neg fun tested => whole tested.1) rfl rfl
      rw [judged, if_neg whole, own, if_neg failed]

theorem activityOf_same (activities : after.activities = db.activities) (aid : Uuid) (drv : Drv) :
    after.activityOf aid drv = db.activityOf aid drv := by rw [Db.activityOf, Db.activityOf, activities]

theorem testedPhases_same (same : d'.outputs = d.outputs) : testedPhases a e activity d' = testedPhases a e activity d := by
  rw [testedPhases, testedPhases, complete_same same, buildOrigin_same same]

theorem Passed.then {mid : Db} (first : Passed a e [drv] db mid) (rest : Passed a e drvs mid after) : Passed a e (drv :: drvs) db after where
  rows x := by
    rw [rest.rows, first.rows, activityOf_same first.activities]
    cases db.derivation? x with
    | none => rfl
    | some d =>
      simp only [Option.map_some, mem_cons, not_mem_nil, or_false]
      by_cases here : x = drv
      · simp [here, judged_judged]
      · simp [here]
  tests t := by
    have phases (p : String) : (∃ d, (db.derivation? t.drv).map (fun d => if t.drv ∈ [drv] then judged a e (db.activityOf a.id t.drv) d else d) = some d ∧
        p ∈ testedPhases a e (db.activityOf a.id t.drv) d) ↔
        ∃ d, db.derivation? t.drv = some d ∧ p ∈ testedPhases a e (db.activityOf a.id t.drv) d := by
      cases db.derivation? t.drv with
      | none => simp
      | some d =>
        have same : (if t.drv ∈ [drv] then judged a e (db.activityOf a.id t.drv) d else d).outputs = d.outputs := by
          split_ifs
          exacts [judged_outputs, rfl]
        simp only [Option.map_some, Option.some.injEq, exists_eq_left', testedPhases_same same]
    rw [rest.tests, first.tests, activityOf_same first.activities, first.rows, phases, mem_singleton, mem_cons, or_assoc]
    exact or_congr_right ⟨fun found => found.elim (fun one => ⟨one.1, .inl one.2.1, one.2.2⟩) fun more => ⟨more.1, .inr more.2.1, more.2.2⟩,
      fun ⟨attempt, which, phase⟩ => which.elim (fun here => .inl ⟨attempt, here, phase⟩) fun more => .inr ⟨attempt, more, phase⟩⟩
  activities := rest.activities.trans first.activities

theorem finishDerivations_passed (finished : drvs.foldlM (Db.finishDerivation a e) db = .ok after) : Passed a e drvs db after := by
  induction drvs generalizing db with
  | nil =>
    cases finished
    exact ⟨fun x => by simp, fun t => by simp, rfl⟩
  | cons drv drvs ih =>
    rw [foldlM_cons] at finished
    obtain ⟨mid, first, rest⟩ := bind_ok finished
    exact (finishDerivation_passed first).then (ih rest)

/-! ### Roots -/

/-- What a row says of its derivation's build. -/
def Derivation.standing (d : Derivation) : Bool × BuildOrigin × Option String × Option Uuid :=
  (d.available, d.origin, d.failure, d.evidenceAttempt)

/-- Two states of the tables say the same of builds. -/
structure SameStanding (db after : Db) : Prop where
  rows : ∀ x, (after.derivation? x).map (·.standing) = (db.derivation? x).map (·.standing)
  tests : after.tests = db.tests
  activities : after.activities = db.activities

theorem SameStanding.refl (db : Db) : SameStanding db db := ⟨fun _ => rfl, rfl, rfl⟩

theorem SameStanding.trans {mid : Db} (first : SameStanding db mid) (rest : SameStanding mid after) : SameStanding db after :=
  ⟨fun x => (rest.rows x).trans (first.rows x), rest.tests.trans first.tests, rest.activities.trans first.activities⟩

theorem standing_update {p : Derivation → Bool} {f : Derivation → Derivation} (same : ∀ d, (f d).drv = d.drv)
    (agrees : ∀ d, (f d).standing = d.standing) : SameStanding db (db.updateDerivations p f) := by
  refine ⟨fun x => ?_, rfl, rfl⟩
  rw [derivation?_update fun d _ => same d]
  cases db.derivation? x with
  | none => rfl
  | some d =>
    simp only [Option.map_some]
    split_ifs
    · rw [agrees]
    · rfl

theorem routeLocally_standing (cid : Uuid) (db : Db) (drv : Drv) : SameStanding db (db.routeLocally cid drv) := by
  have routed : SameStanding db (db.updateDerivations (·.drv = drv) (fun d =>
      { d with metadata := some { d.metadata.getD ⟨none, [], false⟩ with localOnly := true } })) :=
    standing_update (fun _ => rfl) fun _ => rfl
  exact ⟨routed.rows, routed.tests, routed.activities⟩

theorem routeLocally_all (cid : Uuid) (drvs : List Drv) (db : Db) : SameStanding db (drvs.foldl (Db.routeLocally cid) db) := by
  induction drvs generalizing db with
  | nil => exact .refl db
  | cons drv drvs ih => exact (routeLocally_standing cid db drv).trans (ih _)

theorem settleRoots_standing (db : Db) (a : Attempt) (e : Ended) : SameStanding db (db.settleRoots a e) := by
  have held : SameStanding db (((db.releaseRoots a).refreshCandidates a.campaign).holdRoots a e.reason) := ⟨fun _ => rfl, rfl, rfl⟩
  rw [Db.settleRoots]
  split_ifs
  exacts [held.trans (routeLocally_all _ _ _), held]

theorem finishBuild_passed (finished : db.finishBuild a e = .ok (after, r)) :
    ∃ mid, Passed a e a.spec.derivations db mid ∧ SameStanding mid after ∧ r.buildOutcomes = after.snapshot a.id := by
  rw [Db.finishBuild] at finished
  obtain ⟨mid, ended, done⟩ := bind_ok finished
  cases done
  exact ⟨mid, finishDerivations_passed ended, settleRoots_standing mid a e, rfl⟩

/-! ### Classification -/

/-- What the end of an attempt makes of a derivation that it worked on. -/
def Db.classified (db : Db) (a : Attempt) (e : Ended) (drv : Drv) : Outcome :=
  match db.derivation? drv with
  | none => .unknown
  | some d =>
    let activity := db.activityOf a.id drv
    if drv ∉ a.spec.derivations then .unknown
    else if testedPhases a e activity d ≠ [] then .tested
    else if complete a e d then if buildOrigin e activity d = .local_ ∨ d.available = false then .built else .unknown
    else if e.reason = "build-error" ∧ drv ∈ e.failures then .failed
    else .unknown

/-- No row is of an attempt yet. -/
structure Unjudged (db : Db) (aid : Uuid) : Prop where
  evidence : ∀ d ∈ db.derivations, d.evidenceAttempt ≠ some aid
  tests : ∀ t ∈ db.tests, t.attempt ≠ aid

theorem snapshot_classified (fresh : Unjudged db a.id) (finished : db.finishBuild a e = .ok (after, r)) :
    r.buildOutcomes = (((db.activities.filter (·.attempt = a.id)).map (·.drv)).dedup).map fun drv => (drv, db.classified a e drv) := by
  obtain ⟨mid, passed, same, outcomes⟩ := finishBuild_passed finished
  rw [outcomes, Db.snapshot, same.activities, passed.activities]
  refine map_congr_left fun drv _ => Prod.ext rfl ?_
  have own := activityOf_same passed.activities a.id drv
  have tested : (after.tests.any fun t => t.attempt = a.id && t.drv = drv) = true ↔
      drv ∈ a.spec.derivations ∧ ∃ d, db.derivation? drv = some d ∧ testedPhases a e (db.activityOf a.id drv) d ≠ [] := by
    rw [any_eq_true, same.tests]
    constructor
    · rintro ⟨t, mem, of⟩
      simp only [Bool.and_eq_true, decide_eq_true_eq] at of
      obtain old | ⟨-, listed, d, row, phase⟩ := (passed.tests t).1 mem
      · exact absurd of.1 (fresh.tests t old)
      · exact of.2 ▸ ⟨listed, d, row, ne_nil_of_mem phase⟩
    · rintro ⟨listed, d, row, some_⟩
      obtain ⟨p, phase⟩ := exists_mem_of_ne_nil _ some_
      exact ⟨⟨a.id, drv, p⟩, (passed.tests _).2 (.inr ⟨rfl, listed, d, row, phase⟩), by simp⟩
  have row : (after.derivation? drv).map (·.standing) = (db.derivation? drv).map fun d =>
      (if drv ∈ a.spec.derivations then judged a e (db.activityOf a.id drv) d else d).standing := by
    rw [same.rows, passed.rows, Option.map_map]
    rfl
  rw [Db.classified]
  cases there : db.derivation? drv with
  | none =>
    rw [there, Option.map_none, Option.map_eq_none_iff] at row
    rw [there] at tested
    simp_all
  | some d =>
    rw [there, Option.map_some, Option.map_eq_some_iff] at row
    obtain ⟨d', there', stands⟩ := row
    have old : d.evidenceAttempt ≠ some a.id := fresh.evidence d (mem_of_find?_eq_some there)
    have name := named there
    simp only [there, Option.some.injEq, exists_eq_left'] at tested
    simp only [Derivation.standing, Prod.mk.injEq] at stands
    obtain ⟨available, -, failure, evidence⟩ := stands
    simp only [there', Option.any_some]
    by_cases listed : drv ∈ a.spec.derivations
    · by_cases phases : testedPhases a e (db.activityOf a.id drv) d = []
      · have untested := mt tested.1 fun both => both.2 phases
        rw [if_pos listed] at available failure evidence
        by_cases whole : complete a e d = true
        · by_cases chosen : buildOrigin e (db.activityOf a.id drv) d = .local_ ∨ d.available = false
          · rw [judged_made whole chosen] at available failure evidence
            simp [untested, listed, phases, whole, chosen, available, evidence]
          · have kept : judged a e (db.activityOf a.id drv) d = d := by rw [judged, if_pos whole, if_neg chosen]
            rw [kept] at evidence
            simp [untested, listed, phases, whole, chosen, evidence, old]
        · by_cases failed : e.reason = "build-error" ∧ drv ∈ e.failures
          · rw [judged_failed whole failed.1 (name.symm ▸ failed.2)] at available failure evidence
            simp [untested, listed, phases, whole, failed, available, failure, evidence]
          · have kept : judged a e (db.activityOf a.id drv) d = d := by rw [judged, if_neg whole, name, if_neg failed]
            rw [kept] at evidence
            simp [untested, listed, phases, whole, failed, evidence, old]
      · simp [tested.2 ⟨listed, phases⟩, listed, phases]
    · have untested := mt tested.1 fun both => listed both.1
      rw [if_neg listed] at evidence
      simp [untested, listed, evidence, old]

/-! ### Evidence -/

/-- A derivation's outputs are known, and the store has them all after the attempt. -/
def Realized (a : Attempt) (e : Ended) (d : Derivation) : Prop :=
  d.outputs ≠ [] ∧ ∀ kv ∈ d.outputs, ∃ p, kv.2 = some p ∧ p ∈ a.spec.outputPaths ∧ e.valid p = true

/-- An output that was not there before the attempt. -/
def Missing (e : Ended) (d : Derivation) : Prop := ∃ kv ∈ d.outputs, ∀ p, kv.2 = some p → p ∉ e.before.getD []

theorem complete_realized : complete a e d = true ↔ Realized a e d := by
  simp only [complete, Realized, Bool.and_eq_true, decide_eq_true_eq, all_eq_true, Option.any_eq_true]

theorem local_missing (origin : buildOrigin e activity d = .local_) : Missing e d := by
  rw [buildOrigin] at origin
  split_ifs at origin with before some_
  rw [all_eq_true] at before
  obtain ⟨kv, absent⟩ := not_forall.1 before
  obtain ⟨mem, absent⟩ := Classical.not_imp.1 absent
  refine ⟨kv, mem, fun p known there => absent ?_⟩
  rw [known, Option.any_some, decide_eq_true there]

/-- A line of the log tells that a derivation's builder failed: none that tells of failed dependencies. -/
def RootFailed (loads : Bytes → Option Json) (raw : Bytes) (drv : Drv) : Prop :=
  ∃ line ∈ splitlines raw, ∃ event msg, decoded loads line = some event ∧ (event.get "action").any (·.isString "msg") = true ∧
    event.get "msg" = some (.string msg) ∧ rootFailure (unstyled 0 msg.toList) = true ∧ findDrv (unstyled 0 msg.toList) = some drv ∧
    ∀ name count one outputs, spaceless name = true → spaceless count = true → (∀ o ∈ outputs, spaceless o = true) →
      unstyled 0 msg.toList ≠ dependentLine name count one outputs

theorem failureMessages_root {loads : Bytes → Option Json} {raw : Bytes} (failed : drv ∈ failureMessages loads raw) : RootFailed loads raw drv := by
  obtain ⟨line, mem, found⟩ := mem_filterMap.1 failed
  obtain ⟨event, reads, found⟩ := Option.bind_eq_some_iff.1 found
  rw [failureOfMessage] at found
  split at found
  · rename_i msg text
    simp only at found
    split_ifs at found with root
    rw [Bool.and_eq_true] at root
    refine ⟨line, mem, event, msg, reads, root.1, text, root.2, found, fun name count one outputs plain number paths same => ?_⟩
    have quiet : rootFailure (dependentLine name count one outputs) = false := dependent_quiet plain number paths
    rw [← same, root.2] at quiet
    cases quiet
  · cases found

theorem ended_root {loads : Bytes → Option Json} {raw : Bytes} {reason : String} {truncated : Bool} {before : Option (List StorePath)}
    {valid : StorePath → Bool} (failed : drv ∈ (Ended.of loads raw reason truncated before valid).failures) : RootFailed loads raw drv := by
  rw [Ended.of] at failed
  split_ifs at failed
  · exact failureMessages_root failed
  · cases failed

/-- What lines show of the activities of an attempt. -/
def Witnessed (loads : Bytes → Option Json) (str : Json → String) (lines : List Bytes) (db : Db) (aid : Uuid) : Prop :=
  ∀ act ∈ db.activities, act.attempt = aid →
    (∃ l ∈ lines, recordOf loads str l = some (.start act.activity act.drv)) ∧
      ∀ p ∈ act.checks, p ∈ checkPhases ∧ ∃ l ∈ lines, recordOf loads str l = some (.phase act.activity p)

variable {aid : Uuid} {str : Json → String}

theorem observe_witnessed {loads : Bytes → Option Json} {lines : List Bytes} {line : Bytes}
    (witnessed : Witnessed loads str lines db aid) {record : Record} (reads : recordOf loads str line = some record) :
    Witnessed loads str (lines ++ [line]) (db.observe aid record) aid := by
  have old (act : Activity) (mem : act ∈ db.activities) (own : act.attempt = aid) :
      (∃ l ∈ lines ++ [line], recordOf loads str l = some (.start act.activity act.drv)) ∧
        ∀ p ∈ act.checks, p ∈ checkPhases ∧ ∃ l ∈ lines ++ [line], recordOf loads str l = some (.phase act.activity p) := by
    obtain ⟨⟨l, there, starts⟩, phases⟩ := witnessed act mem own
    refine ⟨⟨l, mem_append_left _ there, starts⟩, fun p check => ?_⟩
    obtain ⟨kind, l, there, phase⟩ := phases p check
    exact ⟨kind, l, mem_append_left _ there, phase⟩
  intro act mem own
  cases record with
  | start activity drv =>
    rw [Db.observe] at mem
    split_ifs at mem with known
    · exact old act mem own
    · rcases mem_append.1 mem with mem | mem
      · exact old act mem own
      · rw [mem_singleton.1 mem]
        exact ⟨⟨line, by simp, reads⟩, forall_mem_nil _⟩
  | phase activity phase =>
    obtain ⟨was, there, rfl⟩ := mem_map.1 mem
    split_ifs at own ⊢ with chosen kind
    · obtain ⟨starts, phases⟩ := old was there chosen.1
      refine ⟨starts, fun p check => ?_⟩
      rcases mem_append.1 check with check | check
      · exact phases p check
      · rw [mem_singleton.1 check]
        exact ⟨kind, line, by simp, chosen.2 ▸ reads⟩
    · exact old was there chosen.1
    · exact old was there own

theorem Witnessed.more {loads : Bytes → Option Json} {lines : List Bytes}
    (witnessed : Witnessed loads str lines db aid) (line : Bytes) : Witnessed loads str (lines ++ [line]) db aid := by
  intro act mem own
  obtain ⟨⟨l, there, starts⟩, phases⟩ := witnessed act mem own
  refine ⟨⟨l, mem_append_left _ there, starts⟩, fun p check => ?_⟩
  obtain ⟨kind, l, there, phase⟩ := phases p check
  exact ⟨kind, l, mem_append_left _ there, phase⟩

/-- Whatever lines are ingested next, the activities of an attempt are what its lines show. -/
theorem ingest_witnessed {loads : Bytes → Option Json} {lines : List Bytes} (more : List Bytes)
    (witnessed : Witnessed loads str lines db aid) :
    Witnessed loads str (lines ++ more) (db.ingest aid (more.filterMap (recordOf loads str))) aid := by
  induction more generalizing lines db with
  | nil => rwa [append_nil]
  | cons line more ih =>
    rw [append_cons]
    cases reads : recordOf loads str line with
    | none =>
      rw [filterMap_cons_none reads]
      exact ih (witnessed.more line)
    | some record =>
      rw [filterMap_cons_some reads]
      exact ih (observe_witnessed witnessed reads)

theorem observe_other {other : Uuid} (apart : other ≠ aid) (record : Record) {act : Activity} (mem : act ∈ (db.observe other record).activities)
    (own : act.attempt = aid) : act ∈ db.activities := by
  cases record with
  | start activity drv =>
    rw [Db.observe] at mem
    split_ifs at mem
    · exact mem
    · rcases mem_append.1 mem with mem | mem
      · exact mem
      · rw [mem_singleton.1 mem] at own
        exact absurd own apart
  | phase activity phase =>
    obtain ⟨was, there, rfl⟩ := mem_map.1 mem
    split_ifs at own ⊢ with chosen
    · exact absurd (chosen.1.symm.trans own) apart
    · exact absurd (chosen.1.symm.trans own) apart
    · exact there

theorem ingest_other {loads : Bytes → Option Json} {lines : List Bytes} {other : Uuid} (apart : other ≠ aid)
    (log : List Record) (witnessed : Witnessed loads str lines db aid) : Witnessed loads str lines (db.ingest other log) aid := by
  induction log generalizing db with
  | nil => exact witnessed
  | cons record log ih => exact ih fun act mem own => witnessed act (observe_other apart record mem own) own

/-- What the end of a build changes, each change with its evidence. -/
structure Evidenced (loads : Bytes → Option Json) (raw : Bytes) (a : Attempt) (e : Ended) (db after : Db) : Prop where
  available : ∀ x d', after.derivation? x = some d' → d'.available = true →
    ∃ d, db.derivation? x = some d ∧ (d.available = true ∨ Realized a e d)
  tests : ∀ t ∈ after.tests, t ∈ db.tests ∨ t.attempt = a.id ∧ e.truncated = false ∧
    (∃ act ∈ db.activities, act.attempt = a.id ∧ act.drv = t.drv ∧ t.phase ∈ act.checks) ∧
    ∃ d, db.derivation? t.drv = some d ∧ Realized a e d ∧ Missing e d
  failures : ∀ x d', after.derivation? x = some d' → d'.failure.isSome → ∃ d, db.derivation? x = some d ∧
    (d'.failure = d.failure ∧ d'.evidenceAttempt = d.evidenceAttempt ∨
      e.reason = "build-error" ∧ ¬Realized a e d ∧ RootFailed loads raw x)
  kept : ∀ x d, db.derivation? x = some d → d.available = true → ∃ d', after.derivation? x = some d' ∧
    ((∃ act ∈ db.activities, act.attempt = a.id ∧ act.drv = x) ∧ Realized a e d ∧ Missing e d ∨
      d'.origin = d.origin ∧ (d'.evidenceAttempt = d.evidenceAttempt ∨
        d'.failure.isSome ∧ e.reason = "build-error" ∧ ¬Realized a e d ∧ RootFailed loads raw x))

theorem activityOf_mem {act : Activity} (found : db.activityOf aid drv = some act) :
    act ∈ db.activities ∧ act.attempt = aid ∧ act.drv = drv := by
  have own := find?_some found
  simp only [Bool.and_eq_true, decide_eq_true_eq] at own
  exact ⟨mem_reverse.1 (mem_of_find?_eq_some found), own⟩

/-- A row after the end of a build, by the row before it. -/
theorem finished_row (finished : db.finishBuild a e = .ok (after, r)) (x : Drv) : (after.derivation? x).map (·.standing) =
    (db.derivation? x).map fun d => (if x ∈ a.spec.derivations then judged a e (db.activityOf a.id x) d else d).standing := by
  obtain ⟨mid, passed, same, -⟩ := finishBuild_passed finished
  rw [same.rows, passed.rows, Option.map_map]
  rfl

/-- The end of a build leaves a row, takes it as made, or as failed. -/
inductive Judgement (a : Attempt) (e : Ended) (activity : Option Activity) (d d' : Derivation) : Prop
  | left (same : d'.standing = d.standing)
  | made (whole : Realized a e d) (chosen : buildOrigin e activity d = .local_ ∨ d.available = false)
      (stands : d'.standing = (true, buildOrigin e activity d, none, some a.id))
  | failed (partial_ : ¬Realized a e d) (reason : e.reason = "build-error") (named : d.drv ∈ e.failures) (failure : String)
      (stands : d'.standing = (false, d.origin, some failure, some a.id))

theorem judged_judgement {listed : Prop} [Decidable listed] (stands : (if listed then judged a e activity d else d).standing = d'.standing) :
    Judgement a e activity d d' := by
  split_ifs at stands with listed
  · by_cases whole : complete a e d = true
    · by_cases chosen : buildOrigin e activity d = .local_ ∨ d.available = false
      · rw [judged_made whole chosen] at stands
        exact .made (complete_realized.1 whole) chosen stands.symm
      · rw [judged, if_pos whole, if_neg chosen] at stands
        exact .left stands.symm
    · by_cases failed : e.reason = "build-error" ∧ d.drv ∈ e.failures
      · rw [judged_failed whole failed.1 failed.2] at stands
        exact .failed (mt complete_realized.2 whole) failed.1 failed.2 _ stands.symm
      · rw [judged, if_neg whole, if_neg failed] at stands
        exact .left stands.symm
  · exact .left stands.symm

theorem finished_judgement (finished : db.finishBuild a e = .ok (after, r)) (there : after.derivation? x = some d') :
    ∃ d, db.derivation? x = some d ∧ Judgement a e (db.activityOf a.id x) d d' := by
  have row := finished_row finished x
  rw [there, Option.map_some] at row
  obtain ⟨d, was, stands⟩ := Option.map_eq_some_iff.1 row.symm
  exact ⟨d, was, judged_judgement stands⟩

theorem finishBuild_evidenced {loads : Bytes → Option Json} {raw : Bytes} {reason : String} {truncated : Bool}
    {before : Option (List StorePath)} {valid : StorePath → Bool}
    (finished : db.finishBuild a (.of loads raw reason truncated before valid) = .ok (after, r)) :
    Evidenced loads raw a (.of loads raw reason truncated before valid) db after where
  available x d' there avail := by
    obtain ⟨d, was, judgement⟩ := finished_judgement finished there
    refine ⟨d, was, ?_⟩
    cases judgement with
    | left same => exact .inl ((congrArg Prod.fst same).symm.trans avail)
    | made whole chosen stands => exact .inr whole
    | failed partial_ reason failed failure stands => exact absurd ((congrArg Prod.fst stands).symm.trans avail) Bool.false_ne_true
  tests t mem := by
    obtain ⟨mid, passed, same, -⟩ := finishBuild_passed finished
    obtain old | ⟨attempt, -, d, row, phase⟩ := (passed.tests t).1 (same.tests ▸ mem)
    · exact .inl old
    · rw [testedPhases] at phase
      split_ifs at phase with tested
      · obtain ⟨whole, origin, complete_⟩ := tested
        obtain ⟨act, found⟩ := Option.isSome_iff_exists.1 (local_activity origin)
        obtain ⟨there, own, named⟩ := activityOf_mem found
        rw [found] at phase
        exact .inr ⟨attempt, complete_, ⟨act, there, own, named, phase⟩, d, row, complete_realized.1 whole, local_missing origin⟩
      · cases phase
  failures x d' there some_ := by
    obtain ⟨d, was, judgement⟩ := finished_judgement finished there
    refine ⟨d, was, ?_⟩
    cases judgement with
    | left same =>
      simp only [Derivation.standing, Prod.mk.injEq] at same
      exact .inl same.2.2
    | made whole chosen stands =>
      simp only [Derivation.standing, Prod.mk.injEq] at stands
      rw [stands.2.2.1] at some_
      cases some_
    | failed partial_ reason failed failure stands => exact .inr ⟨reason, partial_, ended_root (named was ▸ failed)⟩
  kept x d was avail := by
    have row := finished_row finished x
    rw [was, Option.map_some] at row
    obtain ⟨d', there, stands⟩ := Option.map_eq_some_iff.1 row
    refine ⟨d', there, ?_⟩
    cases judged_judgement stands.symm with
    | left same =>
      simp only [Derivation.standing, Prod.mk.injEq] at same
      exact .inr ⟨same.2.1, .inl same.2.2.2⟩
    | made whole chosen stands =>
      have origin := chosen.resolve_right (by simp [avail])
      obtain ⟨act, found⟩ := Option.isSome_iff_exists.1 (local_activity origin)
      exact .inl ⟨⟨act, activityOf_mem found⟩, whole, local_missing origin⟩
    | failed partial_ reason failed failure stands =>
      simp only [Derivation.standing, Prod.mk.injEq] at stands
      exact .inr ⟨stands.2.1, .inr ⟨by simp [stands.2.2.1], reason, partial_, ended_root (named was ▸ failed)⟩⟩

end Experiment
