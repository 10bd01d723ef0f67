import Mathlib.Logic.Function.Basic
import Nanofil.Recording.Events
import Nanofil.Lib.Aggregates

/-! `dataset.cc`: the tables of a recording, and the statements that an append executes. -/
namespace Recordings

structure Run where
  run : String
  drv : String
  store : String
  name : String
  system : String
  startWall : Int
  lastOffset : Nat
  summary : Option Summary

structure Info where
  run : String
  duration : Option Int
  request : Option Json
  cause : Option String
  nativeStatus : Option String
  finished : Option Json

structure Recipe where
  run : String
  drv : String
  name : String
  system : String

structure Edge where
  run : String
  parent : String
  child : String
  outputs : Json
  dynamic : Bool

structure Activity where
  run : String
  id : Nat
  parent : Nat
  type : Int
  text : List Nat
  drv : String
  machine : String
  phase : List Nat
  status : String
  start : Int
  stop : Option Int

structure Log where
  offset : Nat
  run : String
  seq : Nat
  activity : Option Nat
  elapsed : Int
  bytes : List Nat
  kind : String

/-- An event has its offset; `run_info` is a temporary table. -/
structure Tables where
  events : List (Nat × Event)
  runs : List Run
  runInfo : List Info
  recipes : List Recipe
  edges : List Edge
  activities : List Activity
  logs : List Log

def Tables.empty : Tables := ⟨[], [], [], [], [], [], []⟩

inductive Statement
  | insertEvent (offset : Nat) (e : Event)
  | insertRun (row : Run)
  | insertInfo (row : Info)
  | setRecipe (run name system : String)
  | insertRecipe (row : Recipe)
  | insertEdge (row : Edge)
  | insertActivity (row : Activity)
  | stopActivity (run : String) (id : Nat) (elapsed : Int)
  | setPhase (run : String) (id : Nat) (phase : List Nat)
  | setCause (run cause : String)
  | setStatus (run : String) (status : Option String)
  | setFinished (run : String) (payload : Json)
  | insertLog (row : Log)
  | setSummary (run : String) (summary : Summary) (offset : Nat)
  | setDuration (run : String) (elapsed : Int)

/-- `UPDATE .. WHERE`. -/
def update {α : Type} (p : α → Bool) (f : α → α) (rows : List α) : List α := rows.map (fun x => if p x then f x else x)

/-- `INSERT INTO`, which fails when the primary key is there. -/
def insert {α : Type} (same : α → α → Bool) (row : α) (rows : List α) : Option (List α) :=
  if rows.any (same row) then none else some (rows ++ [row])

def Statement.exec (t : Tables) : Statement → Option Tables
  | .insertEvent offset e => some { t with events := t.events ++ [(offset, e)] }
  | .insertRun row => (insert (fun x y => x.run = y.run) row t.runs).map fun rows => { t with runs := rows }
  | .insertInfo row => (insert (fun x y => x.run = y.run) row t.runInfo).map fun rows => { t with runInfo := rows }
  | .setRecipe run name system =>
    some { t with runs := update (·.run = run) (fun r => { r with name := name, system := system }) t.runs }
  | .insertRecipe row =>
    (insert (fun x y => x.run = y.run && x.drv = y.drv) row t.recipes).map fun rows => { t with recipes := rows }
  | .insertEdge row =>
    (insert (fun x y => x.run = y.run && x.parent = y.parent && x.child = y.child) row t.edges).map
      fun rows => { t with edges := rows }
  | .insertActivity row =>
    (insert (fun x y => x.run = y.run && x.id = y.id) row t.activities).map fun rows => { t with activities := rows }
  | .stopActivity run id elapsed =>
    let stopped (a : Activity) : Activity := { a with status := "awaiting-result", stop := some elapsed }
    some { t with activities := update (fun a => a.run = run && a.id = id) stopped t.activities }
  | .setPhase run id phase =>
    some { t with activities := update (fun a => a.run = run && a.id = id) (fun a => { a with phase := phase }) t.activities }
  | .setCause run cause =>
    some { t with runInfo := update (fun i => i.run = run && i.cause.isNone) (fun i => { i with cause := some cause }) t.runInfo }
  | .setStatus run status =>
    some { t with runInfo := update (·.run = run) (fun i => { i with nativeStatus := status }) t.runInfo }
  | .setFinished run payload =>
    some { t with runInfo := update (·.run = run) (fun i => { i with finished := some payload }) t.runInfo }
  | .insertLog row => some { t with logs := t.logs ++ [row] }
  | .setSummary run summary offset =>
    some { t with runs := update (·.run = run) (fun r => { r with summary := some summary, lastOffset := offset }) t.runs }
  | .setDuration run elapsed =>
    some { t with runInfo := update (·.run = run) (fun i => { i with duration := some elapsed }) t.runInfo }

/-- A text in a statement; a zero byte in it throws. -/
def quote (s : String) : Option String := if s.toList.contains '\x00' then none else some s

def Json.getQuoted (p : Json) : Option String := p.getString.bind quote

def Json.getBlob (p : Json) : Option (List Nat) := p.getString.bind (fun s => unhex s.toList)

/-- One input of a discovered recipe. -/
def edgeOf (run drv : String) (input : Json) : Option Statement := do
  some (.insertEdge ⟨run, drv, ← (← input.at_ "drv").getQuoted, ← input.at_ "outputs", ← (← input.at_ "dynamic").getBool⟩)

/-- What an event does to the tables of runs, recipes and activities. -/
def Event.rows (offset : Nat) (e : Event) : Option (List Statement) :=
  let p := e.payload
  if e.kind = "run.requested" then do
    some [.insertRun ⟨e.run, ← (← p.at_ "drv").getQuoted, ← (← p.at_ "store").getQuoted,
        ← (← p.value "name" (.str "")).getQuoted, "", e.wall, offset, none⟩,
      .insertInfo ⟨e.run, some e.elapsed, some p, none, none, none⟩]
  else if e.kind = "recipe.resolved" then do
    some [.setRecipe e.run (← (← p.at_ "name").getQuoted) (← (← p.at_ "system").getQuoted)]
  else if e.kind = "recipe.discovered" then do
    let drv ← (← p.at_ "drv").getQuoted
    let row : Recipe := ⟨e.run, drv, ← (← p.at_ "name").getQuoted, ← (← p.at_ "system").getQuoted⟩
    some (.insertRecipe row :: (← (← (← p.at_ "inputs").getItems).mapM (edgeOf e.run drv)))
  else if e.kind = "nix.activity-started" then do
    some [.insertActivity ⟨e.run, ← (← p.at_ "id").getId, ← (← p.at_ "parent").getId, ← (← p.at_ "type").getInt,
      ← (← p.at_ "text_hex").getBlob, ← (← p.value "drv" (.str "")).getQuoted,
      ← (← p.value "machine" (.str "")).getQuoted, [], "running", e.elapsed, none⟩]
  else if e.kind = "nix.activity-stopped" then do
    some [.stopActivity e.run (← (← p.at_ "id").getId) e.elapsed]
  else if e.kind = "nix.result" then do
    let type ← p.at_ "type"
    if type.getInt = some 104 then
      let fields ← p.at_ "fields"
      if fields.isEmpty then some []
      else
        let field ← (← fields.getItems).head?
        match field.find "string_hex" with
        -- Nix's resSetPhase
        | some phase => some [.setPhase e.run (← (← p.at_ "id").getId) (← phase.getBlob)]
        | none => some []
    else some []
  else some []

/-- What an event does to `run_info`. -/
def Event.infos (e : Event) : Option (List Statement) :=
  let p := e.payload
  if e.kind = "nix.message" then do
    if (← (← p.value "level" (.num (-1))).getInt) = 0 then some [.setCause e.run (← (← p.at_ "text_hex").getQuoted)]
    else some []
  else if e.kind = "nix.build-result" then do
    match ← (← p.value "result" (.obj [])).value "status" .null with
    | .null => some [.setStatus e.run none]
    | status => some [.setStatus e.run (some (← status.getQuoted))]
  else if e.kind = "cohort.finished" then some [.setFinished e.run p]
  else some []

/-- Output that an event carries. -/
def Event.output (e : Event) : Option (Option Json) :=
  let p := e.payload
  if (p.find "text_hex").isSome &&
      (e.kind = "nix.message" || e.kind = "nix.error" || e.kind = "nix.stdout" || e.kind = "worker.error") then
    some (p.find "text_hex")
  else if e.kind = "nix.result" then do
    if ← (← p.value "build_output" (.bool false)).getBool then
      some (some (← (← (← (← p.at_ "fields").getItems).head?).at_ "string_hex"))
    else some none
  else some none

def Event.logs (offset : Nat) (e : Event) : Option (List Statement) := do
  match ← e.output with
  | some bytes =>
    let activity ← match e.payload.find "id" with
      | some id => id.getId.map some
      | none => some none
    some [.insertLog ⟨offset, e.run, e.seq, activity, e.elapsed, ← bytes.getBlob, e.kind⟩]
  | none => some []

/-- The statements of one event of an append. -/
def Event.statements (offset : Nat) (e : Event) : Option (List Statement) := do
  let _ ← quote e.run
  let _ ← quote e.kind
  some (.insertEvent offset e :: (← e.rows offset) ++ (← e.infos) ++ (← e.logs offset))

/-! `Dataset::append` and the opening of a dataset. -/

open Aggregates

/-- The statements after the last event of an append. -/
def finals (run : String) (summary : Summary) (offset : Nat) (elapsed : Int) : List Statement :=
  [.setSummary run summary offset, .setDuration run elapsed]

/-- Statements one after the other and the commit, where the database may fail at any of them. -/
def execAll : Option Nat → Tables → List Statement → Option Tables
  | some 0, _, _ => none
  | _, t, [] => some t
  | fault, t, s :: rest => (s.exec t).bind (fun t => execAll (fault.map (· - 1)) t rest)

/-- The loop of an append over its batch. -/
structure Batch where
  projection : Projection
  seq : Nat
  offset : Nat
  statements : List Statement

def Batch.event (run : String) (b : Batch) (e : Event) : Option Batch :=
  if e.run ≠ run ∨ e.seq ≠ b.seq ∨ e.seq = 1 ∧ e.kind ≠ "run.requested" then none
  else do
    let statements ← e.statements (b.offset + 1)
    some ⟨← b.projection.apply e, b.seq + 1, b.offset + 1, b.statements ++ statements⟩

/-- A dataset that is open; a run without a projection has the empty one. -/
structure Dataset where
  tables : Tables
  projections : String → Projection
  watermark : Nat

def Dataset.create : Dataset := ⟨.empty, fun _ => .empty, 0⟩

/-- An append throws at an event it cannot read or order, or when the database fails; then the
transaction is rolled back. -/
def Dataset.append (d : Dataset) (fault : Option Nat) : List Event → Dataset × Bool
  | [] => (d, true)
  | first :: rest =>
    let q := d.projections first.run
    match (first :: rest).foldlM (Batch.event first.run) ⟨q, q.summary.events + 1, d.watermark, []⟩ with
    | none => (d, false)
    | some b =>
      let last := (rest.getLastD first).elapsed
      match execAll fault d.tables (b.statements ++ finals first.run b.projection.summary b.offset last) with
      | none => (d, false)
      | some t => (⟨t, Function.update d.projections first.run b.projection, b.offset⟩, true)

/-! ### `run_info` as it is rebuilt -/

/-- `json_extract_string`; what is no string has a text that only the database knows. -/
def Json.extractString (text : Json → String) : Json → Option String
  | .null => none
  | .str s => some s
  | p => some (text p)

def Json.isZero : Json → Bool
  | .num 0 => true
  | _ => false

def Event.cause (text : Json → String) (e : Event) : Option String :=
  if e.kind = "nix.message" && (e.payload.find "level").any Json.isZero then
    (e.payload.find "text_hex").bind (Json.extractString text)
  else none

def Event.status (text : Json → String) (e : Event) : Option String :=
  ((e.payload.find "result").bind (·.find "status")).bind (Json.extractString text)

/-- The events of one run. -/
def Tables.journal (t : Tables) (run : String) : List Event := (t.events.map Prod.snd).filter (·.run = run)

def infoOf (text : Json → String) (run : String) (es : List Event) : Info :=
  ⟨run, argMax (es.map (fun e => (e.seq, e.elapsed))),
    argMin ((es.filter (·.kind = "run.requested")).map (fun e => (e.seq, e.payload))),
    argMin (es.filterMap (fun e => (e.cause text).map (fun c => (e.seq, c)))),
    (argMax ((es.filter (·.kind = "nix.build-result")).map (fun e => (e.seq, e.status text)))).join,
    argMax ((es.filter (·.kind = "cohort.finished")).map (fun e => (e.seq, e.payload)))⟩

def Tables.rebuilt (text : Json → String) (t : Tables) : List Info := t.runs.map (fun r => infoOf text r.run (t.journal r.run))

/-- The dataset is closed, and opened again. -/
def Dataset.reopen (text : Json → String) (d : Dataset) : Dataset :=
  ⟨{ d.tables with runInfo := d.tables.rebuilt text }, fun _ => .empty, (d.tables.events.map Prod.fst).foldl max 0⟩

inductive Op
  | appends (fault : Option Nat) (batch : List Event)
  | reopens

def Dataset.step (text : Json → String) (d : Dataset) : Op → Dataset
  | .appends fault batch => (d.append fault batch).1
  | .reopens => d.reopen text

/-- What becomes of a new dataset. -/
def Dataset.after (text : Json → String) (ops : List Op) : Dataset := ops.foldl (Dataset.step text) .create

/-! ### The fold of the journal -/

def projectionOf (es : List Event) : Option Projection := es.foldlM Projection.apply .empty

/-- One event recorded by itself. -/
def Tables.record (t : Tables) (row : Nat × Event) : Option Tables := do
  let statements ← row.2.statements row.1
  let q ← projectionOf (t.journal row.2.run ++ [row.2])
  execAll none t (statements ++ finals row.2.run q.summary row.1 row.2.elapsed)

def replay (rows : List (Nat × Event)) : Option Tables := rows.foldlM Tables.record .empty

/-! ### Executions -/

theorem execAll_nil (t : Tables) : execAll none t [] = some t := rfl

theorem execAll_cons (t : Tables) (s : Statement) (ss : List Statement) :
    execAll none t (s :: ss) = (s.exec t).bind (fun t => execAll none t ss) := rfl

theorem execAll_append (t : Tables) (ss us : List Statement) :
    execAll none t (ss ++ us) = (execAll none t ss).bind (fun t => execAll none t us) := by
  induction ss generalizing t with
  | nil => rfl
  | cons s ss ih =>
    rw [List.cons_append, execAll_cons, execAll_cons, Option.bind_assoc]
    exact Option.bind_congr (fun u _ => ih u)

/-- Statements that succeed do so without a fault. -/
theorem execAll_none {fault : Option Nat} {t t' : Tables} {ss : List Statement} (done : execAll fault t ss = some t') :
    execAll none t ss = some t' := by
  induction ss generalizing t fault with
  | nil =>
    cases fault with
    | none => exact done
    | some n =>
      cases n with
      | zero => cases done
      | succ n => exact done
  | cons s ss ih =>
    cases fault with
    | none => exact done
    | some n =>
      cases n with
      | zero => cases done
      | succ n =>
        obtain ⟨u, first, rest⟩ := Option.bind_eq_some_iff.1 done
        rw [execAll_cons, first, Option.bind_some]
        exact ih rest

/-! ### Statements that finish an append -/

/-- What an append writes at its end: the summary, its offset and the duration. -/
structure Touch where
  summary : Summary
  offset : Nat
  elapsed : Int

def Run.touch (a : Touch) (r : Run) : Run := { r with summary := some a.summary, lastOffset := a.offset }

def Info.touch (a : Touch) (i : Info) : Info := { i with duration := some a.elapsed }

def Tables.touch (t : Tables) (run : String) (a : Touch) : Tables :=
  { t with runs := update (·.run = run) (Run.touch a) t.runs, runInfo := update (·.run = run) (Info.touch a) t.runInfo }

theorem finals_exec (t : Tables) (run : String) (a : Touch) :
    execAll none t (finals run a.summary a.offset a.elapsed) = some (t.touch run a) := rfl

/-- What is updated last counts. -/
theorem update_twice {α : Type} {p : α → Bool} {f h : α → α} (xs : List α) (keeps : ∀ x, p (f x) = p x)
    (after : ∀ x, h (f x) = h x) : update p h (update p f xs) = update p h xs := by
  simp only [update, List.map_map]
  refine List.map_congr_left (fun x _ => ?_)
  by_cases here : p x = true
  · simp [here, keeps, after]
  · simp [here]

end Recordings
