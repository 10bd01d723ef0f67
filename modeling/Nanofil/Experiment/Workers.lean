import Mathlib.Algebra.Ring.Nat
import Mathlib.Logic.Function.Basic
import Nanofil.Experiment.Model

/-! `attempt.py` beside `Controller.reconcile`: the durable steps of workers, and the looks that the
controller takes at their files and units while they move. -/
namespace Experiment.Workers
open List Option

/-! ### Logs -/

/-- What one pass reads of a log. -/
def limit : Nat := 4 * 1024 ^ 2

/-- How many of some lines end within a number of bytes. -/
def ending (bytes : Nat) : List Nat → Nat
  | [] => 0
  | line :: lines => if line ≤ bytes then ending (bytes - line) lines + 1 else 0

/-- What `ingest` consumes of the lines that are left: those that end within one read, or a single
line that is longer. -/
def consumed (lines : List Nat) (torn : Nat) : Nat :=
  if ending limit lines = 0 ∧ limit ≤ lines.sum + torn then min 1 lines.length else ending limit lines

/-! ### States -/

structure Row where
  state : AttemptState
  cancelRequested : Bool
  offset : Nat
  reason : Option String
  finishes : Nat
deriving DecidableEq, Repr

/-- The process of a unit, as far as it has come in `run`. -/
inductive Process
  | none | launched | locked | working | ended
deriving DecidableEq, Repr

/-- An attempt's files, unit and row. Lines are given by their bytes, and the offset of its log in
lines; `works` and `finishes` count what was done. -/
structure Place where
  spec : Bool
  started : Bool
  log : List Nat
  torn : Nat
  exit : Option String
  job : Bool
  process : Process
  works : Nat
  row : Option Row
deriving DecidableEq, Repr

/-- How far a pass has come with an attempt. -/
inductive Stage
  | entered | ingested | absent | inactive
  | found (reason : String)
  | ending (reason : String)
deriving DecidableEq, Repr

inductive Pc
  | idle
  | intending (aid : Uuid)
  | between (rows : List (Uuid × Row))
  | visiting (stage : Stage) (aid : Uuid) (row : Row) (rows : List (Uuid × Row))
deriving DecidableEq, Repr

structure System where
  place : Uuid → Place
  ids : List Uuid
  pc : Pc

def Place.new : Place := ⟨false, false, [], 0, .none, false, .none, 0, .none⟩

def System.start : System := ⟨fun _ => .new, [], .idle⟩

def System.put (s : System) (aid : Uuid) (p : Place) : System := { s with place := Function.update s.place aid p }

def System.at_ (s : System) (pc : Pc) : System := { s with pc := pc }

/-! ### Workers -/

inductive WorkerStep
  | fire | lock | begin_
  | line (bytes : Nat)
  | tear (bytes : Nat)
  | exit (reason : String)
  | leave
deriving DecidableEq, Repr

/-- A worker's step: the unit's start job, the lock, `started.json`, the log, `exit.json`, and its
end, which may come at any time. -/
def Place.step (p : Place) : WorkerStep → Option Place
  | .fire =>
    if p.job then some { p with job := false, process := if p.process = .none then .launched else p.process } else .none
  | .lock => if p.process = .launched then some { p with process := .locked } else .none
  | .begin_ =>
    if p.process = .locked ∧ !p.started ∧ p.spec then
      some { p with started := true, works := p.works + 1, process := .working }
    else .none
  | .line bytes =>
    if p.process = .working ∧ 0 < bytes then some { p with log := p.log ++ [p.torn + bytes], torn := 0 } else .none
  | .tear bytes => if p.process = .working then some { p with torn := p.torn + bytes } else .none
  | .exit reason => if p.process = .working then some { p with exit := some reason, process := .ended } else .none
  | .leave => if p.process = .none then .none else some { p with process := .none }

/-! ### The controller -/

def Row.intended : Row := ⟨.intended, false, 0, .none, 0⟩

/-- The active rows, as a pass reads them when it begins. -/
def System.activeRows (s : System) : List (Uuid × Row) :=
  s.ids.filterMap (fun aid => ((s.place aid).row.filter (·.state.active)).map (aid, ·))

def Place.ingest (p : Place) : Place :=
  { p with row := p.row.map (fun r => { r with offset := r.offset + consumed (p.log.drop r.offset) p.torn }) }

/-- The bytes that are left of the log. -/
def Place.backlog (p : Place) : Nat := (p.log.drop ((p.row.map (·.offset)).getD 0)).sum + p.torn

def Place.run (p : Place) : Place := { p with row := p.row.map (fun r => { r with state := .running }) }

def Place.finish (p : Place) (reason : String) : Place :=
  { p with row := p.row.map (fun r => { r with state := .finished, reason := some reason, finishes := r.finishes + 1 }) }

def ended (row : Row) : String := if row.cancelRequested then "cancelled" else "interrupted"

/-- A step of a pass over an attempt: the look at `exit.json`, the query of its unit, the look at
`started.json`, or the commit that the stage has come to. -/
def System.visit (s : System) (stage : Stage) (aid : Uuid) (row : Row) (rows : List (Uuid × Row)) : System :=
  let p := s.place aid
  match stage with
  | .entered => (s.put aid p.ingest).at_ (.visiting .ingested aid row rows)
  | .ingested => match p.exit with
    | some reason => s.at_ (.visiting (.found reason) aid row rows)
    | .none => s.at_ (.visiting .absent aid row rows)
  | .found reason =>
    if limit < p.backlog then s.at_ (.between rows)
    else (s.put aid p.ingest).at_ (.visiting (.ending reason) aid row rows)
  | .absent =>
    if p.process = .none then s.at_ (.visiting .inactive aid row rows) else (s.put aid p.run).at_ (.between rows)
  | .inactive =>
    if !p.started ∧ row.state = .intended then
      if row.cancelRequested then s.at_ (.visiting (.ending "cancelled") aid row rows)
      else (s.put aid { p with job := true }).at_ (.between rows)
    else s.at_ (.visiting (.ending (ended row)) aid row rows)
  | .ending reason => (s.put aid (p.finish reason)).at_ (.between rows)

inductive Label
  | worker (aid : Uuid) (step : WorkerStep)
  | prepare (aid : Uuid)
  | cancel (aid : Uuid)
  | move | crash
deriving DecidableEq, Repr

/-- The controller's next step: the commit of an intent, the next attempt of a pass, or a step of
its visit. An idle controller begins a pass. -/
def System.move (s : System) : System :=
  match s.pc with
  | .idle => s.at_ (.between s.activeRows)
  | .intending aid => { s.put aid { s.place aid with row := some .intended } with ids := s.ids ++ [aid], pc := .idle }
  | .between [] => s.at_ .idle
  | .between ((aid, row) :: rows) => (s.put aid { s.place aid with spec := true }).at_ (.visiting .entered aid row rows)
  | .visiting stage aid row rows => s.visit stage aid row rows

def System.step (s : System) : Label → Option System
  | .worker aid step => ((s.place aid).step step).map (s.put aid)
  | .prepare aid =>
    if s.pc = .idle ∧ s.place aid = .new ∧ aid ∉ s.ids then
      some ((s.put aid { s.place aid with spec := true }).at_ (.intending aid))
    else .none
  | .cancel aid =>
    if s.pc = .idle ∧ (s.place aid).row.any (·.state.active) then
      some (s.put aid { s.place aid with row := (s.place aid).row.map (fun r => { r with cancelRequested := true }) })
    else .none
  | .move => some s.move
  | .crash => some (s.at_ .idle)

/-- A run of workers and controller, whose steps all meet a condition. -/
inductive Run (allowed : System → Label → Bool) : System → Prop
  | start : Run allowed .start
  | step {s t : System} {l : Label} : Run allowed s → allowed s l → s.step l = some t → Run allowed t

def System.steps (allowed : System → Label → Bool) (s : System) : List Label → Option System
  | [] => some s
  | l :: ls => if allowed s l then (s.step l).bind (fun t => t.steps allowed ls) else .none

theorem Run.steps {allowed : System → Label → Bool} {ls : List Label} : ∀ {s t : System}, Run allowed s →
    s.steps allowed ls = some t → Run allowed t := by
  induction ls with
  | nil =>
    intro s t run ended
    cases ended
    exact run
  | cons l ls ih =>
    intro s t run ended
    simp only [System.steps, ite_none_right_eq_some, bind_eq_some_iff] at ended
    obtain ⟨met, mid, stepped, rest⟩ := ended
    exact ih (run.step met stepped) rest

/-! ### What a place keeps -/

variable {s t : System} {place : Uuid → Place} {p p' : Place} {w : WorkerStep} {aid : Uuid} {row r : Row} {rows : List (Uuid × Row)}

/-- A row was finished once when it is, and the log was read no further than it goes. -/
structure RowKept (log : List Nat) (r : Row) : Prop where
  finishes : r.finishes = if r.state = .finished then 1 else 0
  read : r.offset ≤ log.length

/-- The work was begun once when it has started. -/
structure Kept (p : Place) : Prop where
  works : p.works = if p.started then 1 else 0
  exit : p.exit ≠ .none → p.started
  working : p.process = .working → p.started ∧ p.exit = .none
  row : ∀ r, p.row = some r → RowKept p.log r

/-- The worker is gone without `exit.json`, and will not come to write one. -/
structure Stopped (p : Place) : Prop where
  exit : p.exit = .none
  idle : p.process ≠ .working
  ended : p.started ∨ p.process = .none ∧ p.job = false

/-- What a finished attempt's row records. -/
def Recorded (p : Place) (r : Row) : Prop :=
  (∃ reason, p.exit = some reason ∧ r.reason = some reason ∧ r.offset = p.log.length) ∨
    Stopped p ∧ (r.reason = some "cancelled" ∨ r.reason = some "interrupted")

/-- The steps of a worker, with what they need and leave. -/
theorem step_cases (stepped : p.step w = some p') :
    (p.job ∧ p' = { p with job := false, process := if p.process = .none then .launched else p.process }) ∨
    (p.process = .launched ∧ p' = { p with process := .locked }) ∨
    (w = .begin_ ∧ p.process = .locked ∧ p.started = false ∧ p' = { p with started := true, works := p.works + 1, process := .working }) ∨
    (p.process = .working ∧ ∃ more torn, p' = { p with log := p.log ++ more, torn := torn }) ∨
    (p.process = .working ∧ ∃ reason, p' = { p with exit := some reason, process := .ended }) ∨
    (p' = { p with process := .none }) := by
  cases w <;> simp only [Place.step, ite_none_right_eq_some, ite_none_left_eq_some, Option.some.injEq,
    Bool.not_eq_true'] at stepped <;> obtain ⟨ready, rfl⟩ := stepped
  · exact .inl ⟨ready, rfl⟩
  · exact .inr (.inl ⟨ready, rfl⟩)
  · exact .inr (.inr (.inl ⟨rfl, ready.1, ready.2.1, rfl⟩))
  · exact .inr (.inr (.inr (.inl ⟨ready.1, _, _, rfl⟩)))
  · exact .inr (.inr (.inr (.inl ⟨ready, [], _, by rw [append_nil]⟩)))
  · exact .inr (.inr (.inr (.inr (.inl ⟨ready, _, rfl⟩))))
  · exact .inr (.inr (.inr (.inr (.inr rfl))))

theorem step_row (stepped : p.step w = some p') : p'.row = p.row := by
  rcases step_cases stepped with ⟨-, rfl⟩ | ⟨-, rfl⟩ | ⟨-, -, -, rfl⟩ | ⟨-, _, _, rfl⟩ | ⟨-, _, rfl⟩ | rfl <;> rfl

theorem Kept.step (kept : Kept p) (stepped : p.step w = some p') : Kept p' := by
  have row := step_row stepped
  rcases step_cases stepped with ⟨-, rfl⟩ | ⟨-, rfl⟩ | ⟨-, -, new, rfl⟩ | ⟨work, _, _, rfl⟩ | ⟨work, _, rfl⟩ | rfl
  · refine ⟨kept.works, kept.exit, fun work => ?_, kept.row⟩
    simp only at work
    split at work
    · cases work
    · exact kept.working work
  · exact ⟨kept.works, kept.exit, nofun, kept.row⟩
  · have none_ : p.exit = .none := by
      by_contra written
      rw [kept.exit written] at new
      cases new
    have works := kept.works
    rw [new, if_neg Bool.false_ne_true] at works
    exact ⟨by simp [works], fun _ => rfl, fun _ => ⟨rfl, none_⟩, kept.row⟩
  · refine ⟨kept.works, kept.exit, kept.working, fun r here => ⟨(kept.row r here).finishes, ?_⟩⟩
    rw [length_append]
    exact le_trans (kept.row r here).read (Nat.le_add_right _ _)
  · exact ⟨kept.works, fun _ => (kept.working work).1, nofun, kept.row⟩
  · exact ⟨kept.works, kept.exit, nofun, kept.row⟩

theorem Stopped.step (stopped : Stopped p) (stepped : p.step w = some p') : Stopped p' := by
  rcases step_cases stepped with ⟨job, rfl⟩ | ⟨launched, rfl⟩ | ⟨-, locked, new, rfl⟩ | ⟨work, -⟩ | ⟨work, -⟩ | rfl
  · rcases stopped.ended with started | ⟨-, none_⟩
    · refine ⟨stopped.exit, ?_, .inl started⟩
      simp only
      split
      exacts [nofun, stopped.idle]
    · rw [none_] at job
      cases job
  · refine ⟨stopped.exit, nofun, stopped.ended.imp_right fun gone => ?_⟩
    rw [gone.1] at launched
    cases launched
  · rcases stopped.ended with started | ⟨gone, -⟩
    · rw [started] at new
      cases new
    · rw [gone] at locked
      cases locked
  · exact absurd work stopped.idle
  · exact absurd work stopped.idle
  · exact ⟨stopped.exit, nofun, stopped.ended.imp_right fun gone => ⟨rfl, gone.2⟩⟩

/-- Once `exit.json` is written, neither it nor the log changes. -/
theorem step_exited (kept : Kept p) {reason : String} (written : p.exit = some reason) (stepped : p.step w = some p') :
    p'.exit = some reason ∧ p'.log = p.log := by
  have ended : p.process ≠ .working := fun work => by
    rw [(kept.working work).2] at written
    cases written
  rcases step_cases stepped with ⟨-, rfl⟩ | ⟨-, rfl⟩ | ⟨-, -, -, rfl⟩ | ⟨work, -⟩ | ⟨work, -⟩ | rfl
  · exact ⟨written, rfl⟩
  · exact ⟨written, rfl⟩
  · exact ⟨written, rfl⟩
  · exact absurd work ended
  · exact absurd work ended
  · exact ⟨written, rfl⟩

theorem Recorded.step (kept : Kept p) (recorded : Recorded p r) (stepped : p.step w = some p') : Recorded p' r := by
  rcases recorded with ⟨reason, written, same, read⟩ | ⟨stopped, same⟩
  · obtain ⟨written', log⟩ := step_exited kept written stepped
    exact .inl ⟨reason, written', same, log ▸ read⟩
  · exact .inr ⟨stopped.step stepped, same⟩

theorem step_started (stepped : p.step w = some p') (other : w ≠ .begin_) : p'.started = p.started := by
  rcases step_cases stepped with ⟨-, rfl⟩ | ⟨-, rfl⟩ | ⟨begin_, -⟩ | ⟨-, _, _, rfl⟩ | ⟨-, _, rfl⟩ | rfl
  · rfl
  · rfl
  · exact absurd begin_ other
  · rfl
  · rfl
  · rfl

/-! ### Passes -/

/-- The row of an attempt is active, and as the pass has read it but for its offset. -/
def Entry (place : Uuid → Place) (aid : Uuid) (row : Row) : Prop :=
  ∃ r, (place aid).row = some r ∧ r.state = row.state ∧ r.cancelRequested = row.cancelRequested ∧ r.state.active

/-- The attempts that a pass has still to visit. -/
structure Visits (place : Uuid → Place) (rows : List (Uuid × Row)) : Prop where
  distinct : (rows.map (·.1)).Nodup
  entries : ∀ e ∈ rows, Entry place e.1 e.2

def Passing (place : Uuid → Place) (ids : List Uuid) : Pc → Prop
  | .idle => True
  | .intending aid => (place aid).row = .none ∧ aid ∉ ids
  | .between rows => Visits place rows
  | .visiting _ aid row rows => Visits place ((aid, row) :: rows)

/-- In every run: what each place keeps, and what the controller's pass relies on. -/
structure Sound (s : System) : Prop where
  kept : ∀ aid, Kept (s.place aid)
  ids : s.ids.Nodup
  passing : Passing s.place s.ids s.pc

theorem put_all {P : Uuid → Place → Prop} (others : ∀ aid', P aid' (place aid')) (here : P aid p) :
    ∀ aid', P aid' (Function.update place aid p aid') := by
  intro aid'
  by_cases same : aid' = aid
  · subst same
    rw [Function.update_self]
    exact here
  · rw [Function.update_of_ne same]
    exact others aid'

theorem Entry.put {aid' : Uuid} (entry : Entry place aid' row) (same : aid' = aid → p.row = (place aid).row) :
    Entry (Function.update place aid p) aid' row := by
  obtain ⟨r, here, rest⟩ := entry
  refine ⟨r, ?_, rest⟩
  by_cases eq : aid' = aid
  · rw [eq, Function.update_self, same eq, ← eq]
    exact here
  · rw [Function.update_of_ne eq]
    exact here

theorem Visits.put (visits : Visits place rows) (same : aid ∈ rows.map (·.1) → p.row = (place aid).row) :
    Visits (Function.update place aid p) rows :=
  ⟨visits.distinct, fun _ mem => (visits.entries _ mem).put fun eq => same (eq ▸ List.mem_map_of_mem mem)⟩

theorem Visits.rest (visits : Visits place ((aid, row) :: rows)) : Visits place rows :=
  ⟨(nodup_cons.1 visits.distinct).2, fun e mem => visits.entries e (mem_cons_of_mem _ mem)⟩

theorem Visits.apart (visits : Visits place ((aid, row) :: rows)) : aid ∉ rows.map (·.1) :=
  (nodup_cons.1 visits.distinct).1

theorem Visits.here (visits : Visits place ((aid, row) :: rows)) : Entry place aid row :=
  visits.entries (aid, row) mem_cons_self

theorem Visits.putRest (visits : Visits place ((aid, row) :: rows)) : Visits (Function.update place aid p) rows :=
  visits.rest.put fun mem => absurd mem visits.apart

/-- A change of a row that the pass is visiting, other than of its state. -/
theorem Visits.putRow (visits : Visits place ((aid, row) :: rows)) {f : Row → Row} (rowed : p.row = (place aid).row.map f)
    (state : ∀ r, (f r).state = r.state) (cancel : ∀ r, (f r).cancelRequested = r.cancelRequested) :
    Visits (Function.update place aid p) ((aid, row) :: rows) := by
  refine ⟨visits.distinct, fun e mem => ?_⟩
  rcases mem_cons.1 mem with rfl | mem
  · obtain ⟨r, here, state', cancel', active⟩ := visits.here
    refine ⟨f r, ?_, (state r).trans state', (cancel r).trans cancel', (state r).symm ▸ active⟩
    rw [Function.update_self, rowed, here]
    rfl
  · exact visits.putRest.entries e mem

theorem activeRows_visits (ids : s.ids.Nodup) : Visits s.place s.activeRows := by
  rw [System.activeRows]
  constructor
  · refine ids.sublist ?_
    induction s.ids with
    | nil => exact .slnil
    | cons aid ids ih =>
      cases found : (s.place aid).row.filter (·.state.active) with
      | none => simpa [filterMap_cons, found] using ih.cons aid
      | some r => simpa [filterMap_cons, found] using ih
  · intro e mem
    obtain ⟨aid, -, found⟩ := mem_filterMap.1 mem
    obtain ⟨r, rowed, rfl⟩ := map_eq_some_iff.1 found
    obtain ⟨here, active⟩ := filter_eq_some_iff.1 rowed
    exact ⟨r, here, rfl, rfl, active⟩

theorem Kept.setRow (kept : Kept p) {f : Row → Row} (rows : ∀ r, RowKept p.log r → p.row = some r → RowKept p.log (f r)) :
    Kept { p with row := p.row.map f } := by
  refine ⟨kept.works, kept.exit, kept.working, fun r' here => ?_⟩
  obtain ⟨r, here', rfl⟩ := map_eq_some_iff.1 here
  exact rows r (kept.row r here') here'

theorem ending_le (bytes : Nat) (lines : List Nat) : ending bytes lines ≤ lines.length := by
  induction lines generalizing bytes with
  | nil => exact le_refl _
  | cons line lines ih =>
    rw [ending]
    split
    · exact Nat.succ_le_succ (ih _)
    · exact Nat.zero_le _

theorem ending_all {bytes : Nat} {lines : List Nat} (fits : lines.sum ≤ bytes) : ending bytes lines = lines.length := by
  induction lines generalizing bytes with
  | nil => rfl
  | cons line lines ih =>
    rw [sum_cons] at fits
    rw [ending, if_pos (by omega), ih (by omega), length_cons]

theorem consumed_le (lines : List Nat) (torn : Nat) : consumed lines torn ≤ lines.length := by
  rw [consumed]
  split
  exacts [min_le_right _ _, ending_le _ _]

/-- A rest of the log that is no longer than one read is consumed. -/
theorem consumed_all {lines : List Nat} {torn : Nat} (short : lines.sum + torn ≤ limit) :
    consumed lines torn = lines.length := by
  have all : ending limit lines = lines.length := ending_all (by omega)
  rw [consumed, all]
  split
  · rename_i none_
    rw [none_.1, min_eq_right (Nat.zero_le 1)]
  · rfl

theorem Kept.ingest (kept : Kept p) : Kept p.ingest := by
  refine kept.setRow fun r same _ => ⟨same.finishes, ?_⟩
  have more := consumed_le (p.log.drop r.offset) p.torn
  have read := same.read
  rw [length_drop] at more
  simp only
  omega

/-- A place with other files and another job of its unit. -/
theorem Kept.setFiles (kept : Kept p) {spec job : Bool} : Kept { p with spec := spec, job := job } :=
  ⟨kept.works, kept.exit, kept.working, kept.row⟩

theorem active_not_finished {state : AttemptState} (active : state.active) : state ≠ .finished := by
  rintro rfl
  cases active

theorem visits_ingest (visits : Visits place ((aid, row) :: rows)) :
    Visits (Function.update place aid (place aid).ingest) ((aid, row) :: rows) :=
  visits.putRow (f := fun r => { r with offset := r.offset + consumed ((place aid).log.drop r.offset) (place aid).torn }) rfl
    (fun _ => rfl) fun _ => rfl

theorem Sound.visit {stage : Stage} (sound : Sound s) (visits : Visits s.place ((aid, row) :: rows)) :
    Sound (s.visit stage aid row rows) := by
  obtain ⟨r, here, -, -, active⟩ := visits.here
  have one : ∀ r', (s.place aid).row = some r' → r' = r := fun r' here' => Option.some.inj (here'.symm.trans here)
  cases stage with
  | entered => exact ⟨put_all sound.kept (sound.kept aid).ingest, sound.ids, visits_ingest visits⟩
  | ingested =>
    simp only [System.visit]
    split <;> exact ⟨sound.kept, sound.ids, visits⟩
  | found reason =>
    simp only [System.visit]
    split
    · exact ⟨sound.kept, sound.ids, visits.rest⟩
    · exact ⟨put_all sound.kept (sound.kept aid).ingest, sound.ids, visits_ingest visits⟩
  | absent =>
    simp only [System.visit]
    split
    · exact ⟨sound.kept, sound.ids, visits⟩
    · refine ⟨put_all sound.kept ((sound.kept aid).setRow fun r' same here' => ⟨?_, same.read⟩), sound.ids, visits.putRest⟩
      have finishes := same.finishes
      rwa [one r' here', if_neg (active_not_finished active), ← one r' here'] at finishes
  | inactive =>
    simp only [System.visit]
    split
    · split
      · exact ⟨sound.kept, sound.ids, visits⟩
      · exact ⟨put_all sound.kept (sound.kept aid).setFiles, sound.ids, visits.putRest⟩
    · exact ⟨sound.kept, sound.ids, visits⟩
  | ending reason =>
    refine ⟨put_all sound.kept ((sound.kept aid).setRow fun r' same here' => ⟨?_, same.read⟩), sound.ids, visits.putRest⟩
    have finishes := same.finishes
    rw [one r' here', if_neg (active_not_finished active), ← one r' here'] at finishes
    simp [finishes]

theorem Sound.move (sound : Sound s) : Sound s.move := by
  have passing := sound.passing
  rw [System.move]
  cases pc : s.pc with
  | idle => exact ⟨sound.kept, sound.ids, activeRows_visits sound.ids⟩
  | intending aid =>
    rw [pc] at passing
    have kept := sound.kept aid
    refine ⟨put_all sound.kept ⟨kept.works, kept.exit, kept.working, fun r here => ?_⟩, ?_, trivial⟩
    · cases here
      exact ⟨rfl, Nat.zero_le _⟩
    · exact nodup_append'.2 ⟨sound.ids, nodup_singleton aid, disjoint_singleton.2 passing.2⟩
  | between rows =>
    rw [pc] at passing
    match rows with
    | [] => exact ⟨sound.kept, sound.ids, trivial⟩
    | (aid, row) :: rows => exact ⟨put_all sound.kept (sound.kept aid).setFiles, sound.ids, Visits.put passing fun _ => rfl⟩
  | visiting stage aid row rows =>
    rw [pc] at passing
    exact sound.visit passing

theorem Passing.put {ids : List Uuid} {pc : Pc} (passing : Passing place ids pc) (same : p.row = (place aid).row) :
    Passing (Function.update place aid p) ids pc := by
  cases pc with
  | idle => trivial
  | intending aid' =>
    refine ⟨?_, passing.2⟩
    by_cases eq : aid' = aid
    · rw [eq, Function.update_self, same, ← eq]
      exact passing.1
    · rw [Function.update_of_ne eq]
      exact passing.1
  | between rows => exact Visits.put passing fun _ => same
  | visiting stage aid' row rows => exact Visits.put passing fun _ => same

theorem Sound.step {l : Label} (sound : Sound s) (stepped : s.step l = some t) : Sound t := by
  cases l with
  | worker aid w =>
    obtain ⟨p', moved, rfl⟩ := map_eq_some_iff.1 stepped
    exact ⟨put_all sound.kept ((sound.kept aid).step moved), sound.ids, sound.passing.put (step_row moved)⟩
  | prepare aid =>
    simp only [System.step, ite_none_right_eq_some, Option.some.injEq] at stepped
    obtain ⟨⟨-, new, fresh⟩, rfl⟩ := stepped
    refine ⟨put_all sound.kept (sound.kept aid).setFiles, sound.ids, ?_, fresh⟩
    simp [System.put, System.at_, new, Place.new]
  | cancel aid =>
    simp only [System.step, ite_none_right_eq_some, Option.some.injEq] at stepped
    obtain ⟨⟨idle, -⟩, rfl⟩ := stepped
    refine ⟨put_all sound.kept ((sound.kept aid).setRow fun _ same _ => ⟨same.finishes, same.read⟩), sound.ids, ?_⟩
    simp only [System.put, idle]
    trivial
  | move =>
    cases stepped
    exact sound.move
  | crash =>
    cases stepped
    exact ⟨sound.kept, sound.ids, trivial⟩

theorem start_sound : Sound .start :=
  ⟨fun _ => ⟨rfl, fun written => absurd rfl written, nofun, nofun⟩, nodup_nil, trivial⟩

theorem run_sound {allowed : System → Label → Bool} (run : Run allowed s) : Sound s := by
  induction run with
  | start => exact start_sound
  | step _ _ stepped ih => exact ih.step stepped

/-! ### What is recorded -/

/-- A worker writes no `started.json` between the query of its unit and the look at that file; and a
unit that the query finds inactive has left no `exit.json` since the look at it, and is not about to
start work that is to be given up. -/
def Orderly (s : System) : Label → Bool
  | .worker aid .begin_ => match s.pc with
    | .visiting .inactive aid' _ _ => aid' ≠ aid
    | _ => true
  | .move => match s.pc with
    | .visiting .absent aid row _ =>
      let p := s.place aid
      p.process ≠ .none || p.exit.isNone && (!p.job || p.started || row.state = .intended && !row.cancelRequested)
    | _ => true
  | _ => true

theorem orderly_begin (orderly : Orderly s (.worker aid .begin_)) : s.pc ≠ .visiting .inactive aid row rows := by
  intro pc
  simp [Orderly, pc] at orderly

theorem orderly_query (orderly : Orderly s .move) (pc : s.pc = .visiting .absent aid row rows)
    (gone : (s.place aid).process = .none) : (s.place aid).exit = .none ∧
      ((s.place aid).job → (s.place aid).started ∨ row.state = .intended ∧ row.cancelRequested = false) := by
  simp only [Orderly, pc, gone, ne_eq, not_true, decide_false, Bool.false_or, Bool.and_eq_true, isNone_iff_eq_none,
    Bool.or_eq_true, Bool.not_eq_true', decide_eq_true_eq] at orderly
  refine ⟨orderly.1, fun job => ?_⟩
  rcases orderly.2 with (idle | started) | wanted
  · rw [idle] at job
    cases job
  · exact .inl started
  · exact .inr wanted

/-- A finished attempt's row records its worker's end. -/
def Honest (p : Place) : Prop := ∀ r, p.row = some r → r.state = .finished → Recorded p r

/-- What a stage of a pass knows of the place. -/
def Decided (p : Place) (row : Row) : Stage → Prop
  | .inactive => p.started ∨ row.cancelRequested ∨ row.state ≠ .intended → Stopped p
  | .found reason => p.exit = some reason
  | .ending reason => (p.exit = some reason ∧ ∀ r, p.row = some r → r.offset = p.log.length) ∨
      Stopped p ∧ (reason = "cancelled" ∨ reason = "interrupted")
  | _ => True

def Deciding (place : Uuid → Place) : Pc → Prop
  | .visiting stage aid row _ => Decided (place aid) row stage
  | _ => True

structure Faithful (s : System) : Prop where
  honest : ∀ aid, Honest (s.place aid)
  deciding : Deciding s.place s.pc

theorem Honest.step (kept : Kept p) (honest : Honest p) (stepped : p.step w = some p') : Honest p' :=
  fun r here done => (honest r (step_row stepped ▸ here) done).step kept stepped

theorem Decided.step {stage : Stage} (kept : Kept p) (decided : Decided p row stage) (stepped : p.step w = some p')
    (orderly : stage = .inactive → w ≠ .begin_) : Decided p' row stage := by
  cases stage with
  | entered => trivial
  | ingested => trivial
  | absent => trivial
  | inactive =>
    intro ended
    rw [step_started stepped (orderly rfl)] at ended
    exact (decided ended).step stepped
  | found reason => exact (step_exited kept decided stepped).1
  | ending reason =>
    rcases decided with ⟨written, read⟩ | ⟨stopped, same⟩
    · obtain ⟨written', log⟩ := step_exited kept written stepped
      exact .inl ⟨written', fun r here => log ▸ read r (step_row stepped ▸ here)⟩
    · exact .inr ⟨stopped.step stepped, same⟩

/-- A place whose row is active has nothing to be honest of. -/
theorem honest_active {r : Row} (here : p.row = some r) (active : r.state.active) : Honest p := by
  intro r' here' done
  have same : r' = r := Option.some.inj (here'.symm.trans here)
  rw [same] at done
  exact absurd done (active_not_finished active)

theorem Faithful.visit {stage : Stage} (faithful : Faithful s) (sound : Sound s) (pc : s.pc = .visiting stage aid row rows)
    (orderly : Orderly s .move) : Faithful (s.visit stage aid row rows) := by
  have visits : Visits s.place ((aid, row) :: rows) := by
    have passing := sound.passing
    rw [pc] at passing
    exact passing
  have decided : Decided (s.place aid) row stage := by
    have deciding := faithful.deciding
    rw [pc] at deciding
    exact deciding
  obtain ⟨r, here, -, -, active⟩ := visits.here
  have ingested : ∀ aid', Honest (Function.update s.place aid (s.place aid).ingest aid') := by
    have row' : (s.place aid).ingest.row = (some r).map _ := congrArg (Option.map _) here
    exact put_all faithful.honest (honest_active row' active)
  cases stage with
  | entered => exact ⟨ingested, trivial⟩
  | ingested =>
    simp only [System.visit]
    split
    · exact ⟨faithful.honest, ‹_›⟩
    · exact ⟨faithful.honest, trivial⟩
  | found reason =>
    simp only [System.visit]
    split
    · exact ⟨faithful.honest, trivial⟩
    · rename_i short
      refine ⟨ingested, ?_⟩
      simp only [Deciding, System.at_, System.put, Function.update_self]
      refine .inl ⟨decided, fun r' here' => ?_⟩
      simp only [Place.ingest, here, map_some, Option.some.injEq] at here'
      subst here'
      have read := ((sound.kept aid).row r here).read
      simp only [Place.backlog, here, map_some, getD_some, not_lt] at short
      rw [consumed_all short, length_drop]
      simp only [Place.ingest]
      omega
  | absent =>
    simp only [System.visit]
    split
    · rename_i gone
      obtain ⟨none_, pending⟩ := orderly_query orderly pc gone
      have idle : (s.place aid).process ≠ .working := by rw [gone]; nofun
      refine ⟨faithful.honest, fun ended => ⟨none_, idle, ?_⟩⟩
      by_cases started : (s.place aid).started
      · exact .inl started
      · refine .inr ⟨gone, Bool.eq_false_iff.2 fun job => ?_⟩
        rcases pending job with started' | ⟨intended, wanted⟩
        · exact started started'
        · rcases ended with started' | cancelled | running
          · exact started started'
          · rw [wanted] at cancelled
            cases cancelled
          · exact running intended
    · have row' : (s.place aid).run.row = some { r with state := .running } := by rw [Place.run, here]; rfl
      exact ⟨put_all faithful.honest (honest_active row' rfl), trivial⟩
  | inactive =>
    simp only [System.visit]
    split
    · split
      · rename_i cancelled
        exact ⟨faithful.honest, .inr ⟨decided (.inr (.inl cancelled)), .inl rfl⟩⟩
      · exact ⟨put_all faithful.honest (honest_active here active), trivial⟩
    · rename_i still
      refine ⟨faithful.honest, .inr ⟨decided ?_, ?_⟩⟩
      · by_cases started : (s.place aid).started
        · exact .inl started
        · exact .inr (.inr fun intended => still ⟨by simpa using started, intended⟩)
      · rw [ended]
        split
        exacts [.inl rfl, .inr rfl]
  | ending reason =>
    refine ⟨put_all faithful.honest fun r' here' _ => ?_, trivial⟩
    simp only [Place.finish, here, map_some, Option.some.injEq] at here'
    subst here'
    rcases decided with ⟨written, read⟩ | ⟨stopped, same⟩
    · exact .inl ⟨reason, written, rfl, read r here⟩
    · refine .inr ⟨⟨stopped.exit, stopped.idle, stopped.ended⟩, ?_⟩
      rcases same with rfl | rfl
      exacts [.inl rfl, .inr rfl]

theorem Faithful.step {l : Label} (faithful : Faithful s) (sound : Sound s) (orderly : Orderly s l)
    (stepped : s.step l = some t) : Faithful t := by
  cases l with
  | worker aid w =>
    obtain ⟨p', moved, rfl⟩ := map_eq_some_iff.1 stepped
    refine ⟨put_all faithful.honest ((faithful.honest aid).step (sound.kept aid) moved), ?_⟩
    have deciding := faithful.deciding
    simp only [System.put]
    cases pc : s.pc with
    | idle => trivial
    | intending aid' => trivial
    | between rows => trivial
    | visiting stage aid' row rows =>
      rw [pc] at deciding
      simp only [Deciding] at deciding ⊢
      by_cases same : aid' = aid
      · subst same
        rw [Function.update_self]
        refine deciding.step (sound.kept aid') moved fun inactive begins => ?_
        subst begins inactive
        exact orderly_begin orderly pc
      · rw [Function.update_of_ne same]
        exact deciding
  | prepare aid =>
    simp only [System.step, ite_none_right_eq_some, Option.some.injEq] at stepped
    obtain ⟨⟨-, new, -⟩, rfl⟩ := stepped
    refine ⟨put_all faithful.honest fun r here => ?_, trivial⟩
    rw [new] at here
    cases here
  | cancel aid =>
    simp only [System.step, ite_none_right_eq_some, Option.some.injEq] at stepped
    obtain ⟨⟨idle, active⟩, rfl⟩ := stepped
    obtain ⟨r, here, active⟩ := (Option.any_eq_true _ _).1 active
    refine ⟨put_all faithful.honest (honest_active (r := { r with cancelRequested := true }) (by simp [here]) active), ?_⟩
    simp only [System.put, idle]
    trivial
  | move =>
    cases stepped
    rw [System.move]
    cases pc : s.pc with
    | idle => exact ⟨faithful.honest, trivial⟩
    | intending aid => exact ⟨put_all faithful.honest (honest_active rfl rfl), trivial⟩
    | between rows =>
      match rows with
      | [] => exact ⟨faithful.honest, trivial⟩
      | (aid, row) :: rows =>
        have visits : Visits s.place ((aid, row) :: rows) := by
          have passing := sound.passing
          rw [pc] at passing
          exact passing
        obtain ⟨r, here, -, -, active⟩ := visits.here
        exact ⟨put_all faithful.honest (honest_active here active), trivial⟩
    | visiting stage aid row rows => exact faithful.visit sound pc orderly
  | crash =>
    cases stepped
    exact ⟨faithful.honest, trivial⟩

theorem run_faithful_places (run : Run Orderly s) : Faithful s := by
  induction run with
  | start => exact ⟨fun _ => nofun, trivial⟩
  | step before orderly stepped ih => exact ih.step (run_sound before) orderly stepped

/-- What the books say of an attempt. -/
structure Account (p : Place) : Prop where
  once : p.works ≤ 1
  finishes : ∀ r, p.row = some r → r.finishes = if r.state = .finished then 1 else 0
  written : ∀ r reason, p.row = some r → r.state = .finished → p.exit = some reason →
    r.reason = some reason ∧ r.offset = p.log.length
  given : ∀ r, p.row = some r → r.state = .finished → (∀ reason, p.exit = some reason → r.reason ≠ some reason) →
    Stopped p ∧ (r.reason = some "cancelled" ∨ r.reason = some "interrupted")

/-- In a run whose steps are orderly, each attempt is worked on once and finished once, and its
row records the `exit.json` of its worker where there is one. -/
theorem run_accounts (run : Run Orderly s) (aid : Uuid) : Account (s.place aid) := by
  have kept := (run_sound run).kept aid
  have honest := (run_faithful_places run).honest aid
  refine ⟨?_, fun r here => (kept.row r here).finishes, fun r reason here done written => ?_, fun r here done other => ?_⟩
  · rw [kept.works]
    split <;> omega
  · rcases honest r here done with ⟨reason', written', same, read⟩ | ⟨stopped, -⟩
    · rw [written] at written'
      cases written'
      exact ⟨same, read⟩
    · rw [stopped.exit] at written
      cases written
  · rcases honest r here done with ⟨reason, written, same, -⟩ | recorded
    · exact absurd same (other reason written)
    · exact recorded

/-- An attempt is intended, started by a pass, and works. -/
def working : List Label :=
  [.prepare 0, .move, .move, .move, .move, .move, .move, .move, .move, .worker 0 .fire, .worker 0 .lock, .worker 0 .begin_,
    .worker 0 (.line 10)]

/-- It ends, and a pass reads what it has written. -/
def read : List Label :=
  [.worker 0 (.line 20), .worker 0 (.exit "completed"), .worker 0 .leave, .move, .move, .move, .move, .move, .move]

/-- The account of an attempt that has completed. -/
theorem run_accounts_read : ∃ s, System.start.steps Orderly (working ++ read) = some s ∧
    ((s.place 0).row.bind (·.reason)) = some "completed" ∧ Account (s.place 0) := by
  have ran : ((System.start.steps Orderly (working ++ read)).map (fun s => (s.place 0).row.bind (·.reason))) =
      some (some "completed") := by decide +kernel
  obtain ⟨s, ended, reason⟩ := map_eq_some_iff.1 ran
  exact ⟨s, ended, reason, run_accounts (Run.start.steps ended) 0⟩

/-- A pass looks for `exit.json`, and the worker writes it and leaves before the pass has queried
its unit. -/
def overtaken : List Label :=
  [.move, .move, .move, .move, .worker 0 (.line 20), .worker 0 (.exit "completed"), .worker 0 .leave, .move, .move, .move]

theorem completed_interrupted : ¬ ∀ s, Run (fun _ _ => true) s → ∀ aid, Account (s.place aid) := by
  intro claimed
  have ran : ((System.start.steps (fun _ _ => true) (working ++ overtaken)).map (fun s => ((s.place 0).exit, (s.place 0).row))) =
      some (some "completed", some ⟨.finished, false, 1, some "interrupted", 1⟩) := by decide +kernel
  obtain ⟨s, ended, same⟩ := map_eq_some_iff.1 ran
  obtain ⟨written, row⟩ := Prod.mk.inj same
  have recorded := ((claimed s (Run.start.steps ended) 0).written _ _ row rfl written).1
  exact absurd recorded (by decide)

end Experiment.Workers
