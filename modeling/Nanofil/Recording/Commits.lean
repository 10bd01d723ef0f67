import Nanofil.Recording.Tables

/-! An append is the fold of its events: what is written at its end does not depend on where it ends. -/
namespace Recordings
open List Option

/-- A statement of an event of the run. -/
def Statement.Of (run : String) : Statement → Prop
  | .insertRun row => row.run = run
  | .insertInfo row => row.run = run
  | .setRecipe run' .. | .setCause run' _ | .setStatus run' _ | .setFinished run' _ => run' = run
  | .setSummary .. | .setDuration .. => False
  | _ => True

theorem runs_twice (run : String) (a b : Touch) (rows : List Run) :
    update (·.run = run) (Run.touch b) (update (·.run = run) (Run.touch a) rows) = update (·.run = run) (Run.touch b) rows :=
  update_twice rows (fun _ => rfl) (fun _ => rfl)

theorem infos_twice (run : String) (a b : Touch) (rows : List Info) :
    update (·.run = run) (Info.touch b) (update (·.run = run) (Info.touch a) rows) = update (·.run = run) (Info.touch b) rows :=
  update_twice rows (fun _ => rfl) (fun _ => rfl)

theorem touch_twice (t : Tables) (run : String) (a b : Touch) : (t.touch run a).touch run b = t.touch run b := by
  simp only [Tables.touch, runs_twice, infos_twice]

variable {α : Type} {ss : List Statement} {e : Event} {offset : Nat} {p : Json}

/-- A row that is inserted finds the keys that were there before an update. -/
theorem insert_update {same : α → α → Bool} {p : α → Bool} {f : α → α} (row : α) (rows : List α)
    (keeps : ∀ x, same row (f x) = same row x) :
    insert same row (update p f rows) = (insert same row rows).map (fun _ => update p f rows ++ [row]) := by
  have keys : (update p f rows).any (same row) = rows.any (same row) := by
    rw [update, List.any_map]
    congr 1
    funext x
    by_cases here : p x = true
    · simp [here, keeps]
    · simp [here]
  rw [insert, insert, keys]
  split_ifs <;> rfl

theorem update_append (p : α → Bool) (f : α → α) (xs ys : List α) :
    update p f (xs ++ ys) = update p f xs ++ update p f ys := map_append ..

theorem update_between {p q : α → Bool} {f g h : α → α} (rows : List α) (key : ∀ x, p (f x) = p x)
    (other : ∀ x, p (g x) = p x) (condition : ∀ x, q (f x) = q x) (last : ∀ x, h (f x) = h x) (apart : ∀ x, h (g (f x)) = h (g x)) :
    update p h (update q g (update p f rows)) = update p h (update q g rows) := by
  simp only [update, List.map_map]
  refine map_congr_left (fun x _ => ?_)
  by_cases here : p x = true <;> by_cases there : q x = true <;> simp [here, there, key, other, condition, last, apart]

/-- A statement of the run's events has the same effect, but for what an append writes at its end. -/
theorem touch_exec {run : String} {s : Statement} (of : s.Of run) (t : Tables) (a b : Touch) :
    (s.exec (t.touch run a)).map (·.touch run b) = (s.exec t).map (·.touch run b) := by
  cases s with
  | insertRun row =>
    simp only [Statement.exec, Tables.touch]
    rw [insert_update row t.runs (fun _ => by rfl)]
    cases found : insert (fun x y => decide (x.run = y.run)) row t.runs with
    | none => rfl
    | some rows =>
      have rows_ : rows = t.runs ++ [row] := by
        rw [insert] at found
        split_ifs at found
        exact (Option.some.inj found).symm
      simp only [map_some, rows_, update_append, runs_twice, infos_twice]
  | insertInfo row =>
    simp only [Statement.exec, Tables.touch]
    rw [insert_update row t.runInfo (fun _ => by rfl)]
    cases found : insert (fun x y => decide (x.run = y.run)) row t.runInfo with
    | none => rfl
    | some rows =>
      have rows_ : rows = t.runInfo ++ [row] := by
        rw [insert] at found
        split_ifs at found
        exact (Option.some.inj found).symm
      simp only [map_some, rows_, update_append, runs_twice, infos_twice]
  | setRecipe run' name system =>
    simp only [Statement.exec, Tables.touch, map_some, infos_twice]
    rw [update_between t.runs (fun _ => by rfl) (fun _ => by rfl) (fun _ => by rfl) (fun _ => by rfl) (fun _ => by rfl)]
  | setCause run' cause =>
    simp only [Statement.exec, Tables.touch, map_some, runs_twice]
    rw [update_between t.runInfo (fun _ => by rfl) (fun _ => by rfl) (fun _ => by rfl) (fun _ => by rfl) (fun _ => by rfl)]
  | setStatus run' status =>
    simp only [Statement.exec, Tables.touch, map_some, runs_twice]
    rw [update_between t.runInfo (fun _ => by rfl) (fun _ => by rfl) (fun _ => by rfl) (fun _ => by rfl) (fun _ => by rfl)]
  | setFinished run' payload =>
    simp only [Statement.exec, Tables.touch, map_some, runs_twice]
    rw [update_between t.runInfo (fun _ => by rfl) (fun _ => by rfl) (fun _ => by rfl) (fun _ => by rfl) (fun _ => by rfl)]
  | setSummary | setDuration => cases of
  | insertRecipe | insertEdge | insertActivity =>
    simp only [Statement.exec, Tables.touch, Option.map_map, Function.comp_def, runs_twice, infos_twice]
  | insertEvent | insertLog | stopActivity | setPhase =>
    simp only [Statement.exec, Tables.touch, map_some, runs_twice, infos_twice]

/-- Tables that an append makes the same at its end. -/
def Alike (run : String) (t u : Tables) : Prop := ∀ b, t.touch run b = u.touch run b

theorem Alike.exec {run : String} {s : Statement} {t u : Tables} (alike : Alike run t u) (of : s.Of run) (b : Touch) :
    (s.exec t).map (·.touch run b) = (s.exec u).map (·.touch run b) := by
  rw [← touch_exec of t b b, alike b, touch_exec of u b b]

theorem Alike.execAll {run : String} {t u : Tables} (alike : Alike run t u) (of : ∀ s ∈ ss, s.Of run)
    (b : Touch) : (execAll none t ss).map (·.touch run b) = (execAll none u ss).map (·.touch run b) := by
  induction ss generalizing t u with
  | nil => exact congrArg some (alike b)
  | cons s ss ih =>
    have first := alike.exec (of s (mem_cons_self ..))
    rw [execAll_cons, execAll_cons]
    cases done : s.exec t with
    | none =>
      have gone := first b
      rw [done, map_none] at gone
      rw [map_eq_none_iff.1 gone.symm]
    | some t' =>
      obtain ⟨u', done', -⟩ : ∃ u', s.exec u = some u' ∧ True := by
        have there := first b
        rw [done, map_some] at there
        obtain ⟨u', done', -⟩ := map_eq_some_iff.1 there.symm
        exact ⟨u', done', trivial⟩
      rw [done', bind_some, bind_some]
      refine ih (fun c => ?_) (fun s member => of s (mem_cons_of_mem _ member))
      have same := first c
      rw [done, done', map_some, map_some] at same
      exact Option.some.inj same

/-! ### The statements of an event -/

theorem edges_of {run drv : String} {inputs : List Json} (found : inputs.mapM (edgeOf run drv) = some ss) :
    ∀ s ∈ ss, ∃ row, s = .insertEdge row := by
  induction inputs generalizing ss with
  | nil =>
    obtain rfl : [] = ss := by simpa using found
    simp
  | cons input inputs ih =>
    rw [mapM_cons] at found
    obtain ⟨s, first, found⟩ := bind_eq_some_iff.1 found
    obtain ⟨rest, later, found⟩ := bind_eq_some_iff.1 found
    cases found
    intro s' member
    rcases mem_cons.1 member with rfl | member
    · simp only [edgeOf, bind_eq_bind, bind_eq_some_iff] at first
      obtain ⟨_, -, _, -, _, -, _, -, _, -, same⟩ := first
      exact ⟨_, (Option.some.inj same).symm⟩
    · exact ih later s' member

/-- A statement that leaves events, the names of runs and `run_info` as they are. -/
def Statement.Plain (run : String) : Statement → Prop
  | .setRecipe run' .. => run' = run
  | .insertRecipe _ | .insertEdge _ | .insertActivity _ | .stopActivity .. | .setPhase .. | .insertLog _ => True
  | _ => False

theorem Statement.Plain.of {run : String} {s : Statement} (plain : s.Plain run) : s.Of run := by
  cases s with
  | setRecipe => exact plain
  | insertRecipe | insertEdge | insertActivity | stopActivity | setPhase | insertLog => trivial
  | _ => cases plain

theorem rows_requested (rows : e.rows offset = some ss) (kind : e.kind = "run.requested") : ∃ row : Run, row.run = e.run ∧
      ss = [.insertRun row, .insertInfo ⟨e.run, some e.elapsed, some e.payload, none, none, none⟩] := by
  rw [Event.rows, if_pos kind] at rows
  simp only [bind_eq_bind, bind_eq_some_iff] at rows
  obtain ⟨_, -, _, -, _, -, _, -, _, -, _, -, same⟩ := rows
  exact ⟨_, rfl, (Option.some.inj same).symm⟩

theorem rows_plain (rows : e.rows offset = some ss) (kind : e.kind ≠ "run.requested") : ∀ s ∈ ss, s.Plain e.run := by
  have branch : ∀ {c : Prop} [Decidable c] {a b : Option (List Statement)}, (a = some ss → ∀ s ∈ ss, s.Plain e.run) →
      (b = some ss → ∀ s ∈ ss, s.Plain e.run) → (if c then a else b) = some ss → ∀ s ∈ ss, s.Plain e.run :=
    fun first second => iteInduction (motive := fun x => x = some ss → _) (fun _ => first) (fun _ => second)
  have none_ : some [] = some ss → ∀ s ∈ ss, s.Plain e.run := by
    intro same
    cases same
    simp
  have one : ∀ s : Statement, some [s] = some ss → s.Plain e.run → ∀ s ∈ ss, s.Plain e.run := by
    intro s same plain s' member
    cases same
    exact mem_singleton.1 member ▸ plain
  revert rows
  unfold Event.rows
  rw [if_neg kind]
  simp only [bind_eq_bind]
  refine branch (fun rows => ?_) ?_
  · simp only [bind_eq_some_iff] at rows
    obtain ⟨_, -, _, -, _, -, _, -, same⟩ := rows
    exact one _ same rfl
  refine branch (fun rows => ?_) ?_
  · simp only [bind_eq_some_iff] at rows
    obtain ⟨_, -, _, -, _, -, _, -, _, -, _, -, _, -, _, -, edges, found, same⟩ := rows
    cases same
    intro s member
    rcases mem_cons.1 member with rfl | member
    · trivial
    · obtain ⟨row, rfl⟩ := edges_of found s member
      trivial
  refine branch (fun rows => ?_) ?_
  · simp only [bind_eq_some_iff] at rows
    obtain ⟨_, -, _, -, _, -, _, -, _, -, _, -, _, -, _, -, _, -, _, -, _, -, _, -, same⟩ := rows
    exact one _ same trivial
  refine branch (fun rows => ?_) ?_
  · simp only [bind_eq_some_iff] at rows
    obtain ⟨_, -, _, -, same⟩ := rows
    exact one _ same trivial
  refine branch (fun rows => ?_) none_
  obtain ⟨type, -, rows⟩ := bind_eq_some_iff.1 rows
  revert rows
  refine branch (fun rows => ?_) none_
  obtain ⟨fields, -, rows⟩ := bind_eq_some_iff.1 rows
  revert rows
  refine branch none_ (fun rows => ?_)
  obtain ⟨items, -, rows⟩ := bind_eq_some_iff.1 rows
  obtain ⟨field, -, rows⟩ := bind_eq_some_iff.1 rows
  split at rows
  · simp only [bind_eq_some_iff] at rows
    obtain ⟨_, -, _, -, _, -, same⟩ := rows
    exact one _ same trivial
  · exact none_ rows

theorem logs_plain (logs : e.logs offset = some ss) : ∀ s ∈ ss, s.Plain e.run := by
  unfold Event.logs at logs
  obtain ⟨output, -, logs⟩ := bind_eq_some_iff.1 logs
  cases output with
  | none => cases logs; simp
  | some bytes =>
    have one : ∀ activity, (bytes.getBlob).bind (fun blob => some [Statement.insertLog ⟨offset, e.run, e.seq, activity, e.elapsed,
        blob, e.kind⟩]) = some ss → ∀ s ∈ ss, s.Plain e.run := by
      intro activity found s member
      obtain ⟨blob, -, same⟩ := bind_eq_some_iff.1 found
      cases same
      rw [mem_singleton.1 member]
      trivial
    simp only at logs
    split at logs
    · obtain ⟨activity, -, logs⟩ := bind_eq_some_iff.1 logs
      exact one activity logs
    · exact one none logs

/-! What one event does to the journal, the runs and `run_info`. -/

open Aggregates

theorem value_find {v d : Json} {key : String} (found : p.value key d = some v) : v = (p.find key).getD d := by
  cases p with
  | obj fields => exact (Option.some.inj found).symm
  | _ => cases found

theorem getInt_num {n : Int} (found : p.getInt = some n) : p = .num n := by
  cases p with
  | num m => rw [Option.some.inj found]
  | _ => cases found

theorem getQuoted_str {s : String} (found : p.getQuoted = some s) : p = .str s := by
  obtain ⟨r, string, quoted⟩ := bind_eq_some_iff.1 found
  cases p with
  | str m =>
    cases string
    rw [quote] at quoted
    split_ifs at quoted
    rw [Option.some.inj quoted]
  | _ => cases string

theorem isZero_num {n : Int} (other : n ≠ 0) : Json.isZero (.num n) = false := by
  unfold Json.isZero
  split
  · rename_i same
    cases same
    exact absurd rfl other
  · rfl

section
variable (text : Json → String)

/-- What an event adds to its run's row of `run_info`, but for the duration. -/
def Info.learn (e : Event) (i : Info) : Info :=
  { i with
    cause := i.cause.or (e.cause text)
    nativeStatus := if e.kind = "nix.build-result" then e.status text else i.nativeStatus
    finished := if e.kind = "cohort.finished" then some e.payload else i.finished }

theorem update_congr {p q : α → Bool} {f g : α → α} (rows : List α)
    (same : ∀ x, (if p x then f x else x) = if q x then g x else x) : update p f rows = update q g rows :=
  map_congr_left (fun x _ => same x)

theorem update_same {p : α → Bool} {f : α → α} (rows : List α) (same : ∀ x, f x = x) : update p f rows = rows := by
  refine (map_congr_left (fun x _ => ?_)).trans (List.map_id rows)
  rw [same]
  exact ite_self x

/-- An event of a kind that `run_info` does not know adds nothing. -/
theorem learn_other (cause : e.cause text = none) (result : e.kind ≠ "nix.build-result")
    (finished : e.kind ≠ "cohort.finished") (i : Info) : i.learn text e = i := by
  simp [Info.learn, cause, result, finished]

theorem cause_other (kind : e.kind ≠ "nix.message") : e.cause text = none := by simp [Event.cause, kind]

/-- The first fatal message stays the cause. -/
theorem infos_exec (infos : e.infos = some ss) (t : Tables) :
    execAll none t ss = some { t with runInfo := update (·.run = e.run) (Info.learn text e) t.runInfo } := by
  have nothing : (∀ i, Info.learn text e i = i) →
      execAll none t [] = some { t with runInfo := update (·.run = e.run) (Info.learn text e) t.runInfo } := by
    intro same
    rw [update_same _ same]
    rfl
  unfold Event.infos at infos
  simp only [bind_eq_bind] at infos
  by_cases message : e.kind = "nix.message"
  · rw [if_pos message] at infos
    obtain ⟨level, found, infos⟩ := bind_eq_some_iff.1 infos
    obtain ⟨n, number, rest⟩ := bind_eq_some_iff.1 infos
    obtain rfl := getInt_num number
    have known := value_find found
    by_cases zero : n = 0
    · subst zero
      rw [if_pos rfl] at rest
      obtain ⟨bytes, there, rest⟩ := bind_eq_some_iff.1 rest
      obtain ⟨cause, quoted, last⟩ := bind_eq_some_iff.1 rest
      obtain rfl := getQuoted_str quoted
      cases last
      have fatal : e.payload.find "level" = some (.num 0) := by
        cases here : e.payload.find "level" with
        | none => simp [here] at known
        | some v => simpa [here] using known.symm
      have caused : e.cause text = some cause := by
        have there' : e.payload.find "text_hex" = some (.str cause) := there
        simp [Event.cause, message, fatal, Json.isZero, there', Json.extractString]
      simp only [execAll_cons, execAll_nil, Statement.exec, bind_some, Option.some.injEq]
      congr 1
      refine update_congr _ (fun i => ?_)
      by_cases mine : i.run = e.run
      · cases known_ : i.cause with
        | none => simp [mine, known_, Info.learn, caused, message]
        | some c =>
          obtain ⟨run, duration, request, cause', status, finished⟩ := i
          obtain rfl : cause' = some c := known_
          simp [Info.learn, message]
      · simp [mine]
    · rw [if_neg zero] at rest
      cases rest
      refine nothing (learn_other text ?_ (by simp [message]) (by simp [message]))
      cases here : e.payload.find "level" with
      | none => simp [Event.cause, here]
      | some v =>
        obtain rfl : v = .num n := by simpa [here] using known.symm
        simp [Event.cause, here, isZero_num zero]
  · rw [if_neg message] at infos
    by_cases result : e.kind = "nix.build-result"
    · rw [if_pos result] at infos
      obtain ⟨r, found, infos⟩ := bind_eq_some_iff.1 infos
      obtain ⟨s, status, infos⟩ := bind_eq_some_iff.1 infos
      have known := value_find found
      have stated := value_find status
      have statuses : e.status text = s.extractString text := by
        cases here : e.payload.find "result" with
        | none =>
          obtain rfl : r = .obj [] := by simpa [here] using known
          obtain rfl : s = .null := by simpa [Json.find] using stated
          simp [Event.status, here, Json.extractString]
        | some r' =>
          obtain rfl : r = r' := by simpa [here] using known
          cases inner : r.find "status" with
          | none =>
            obtain rfl : s = .null := by simpa [inner] using stated
            simp [Event.status, here, inner, Json.extractString]
          | some s' =>
            obtain rfl : s = s' := by simpa [inner] using stated
            simp [Event.status, here, inner]
      have one : ∀ known : Option String, e.status text = known → execAll none t [.setStatus e.run known] =
          some { t with runInfo := update (·.run = e.run) (Info.learn text e) t.runInfo } := by
        intro known same
        simp only [execAll_cons, execAll_nil, Statement.exec, bind_some, Option.some.injEq]
        congr 1
        refine update_congr _ (fun i => ?_)
        simp [Info.learn, cause_other text message, result, same]
      split at infos
      · cases infos
        exact one none (statuses.trans rfl)
      · obtain ⟨c, quoted, last⟩ := bind_eq_some_iff.1 infos
        obtain rfl := getQuoted_str quoted
        cases last
        exact one (some c) (statuses.trans rfl)
    · rw [if_neg result] at infos
      by_cases finished : e.kind = "cohort.finished"
      · rw [if_pos finished] at infos
        cases infos
        simp only [execAll_cons, execAll_nil, Statement.exec, bind_some, Option.some.injEq]
        congr 1
        refine update_congr _ (fun i => ?_)
        simp [Info.learn, cause_other text message, finished]
      · rw [if_neg finished] at infos
        cases infos
        exact nothing (learn_other text (cause_other text message) result finished)

/-! ### The aggregates of a longer journal -/

/-- The row of a run, as an event leaves it. -/
def Info.add (e : Event) (i : Info) : Info :=
  { i.learn text e with
    duration := some e.elapsed
    request := i.request.or (if e.kind = "run.requested" then some e.payload else none) }

theorem later_map {es : List Event} (later : ∀ x ∈ es, x.seq < e.seq) (p : Event → Bool) (f : Event → α) :
    ∀ y ∈ (es.filter p).map (fun x => (x.seq, f x)), y.1 < e.seq := by
  intro y member
  obtain ⟨x, there, rfl⟩ := List.mem_map.1 member
  exact later x (mem_filter.1 there).1

theorem infoOf_append (run : String) {es : List Event} (later : ∀ x ∈ es, x.seq < e.seq) :
    infoOf text run (es ++ [e]) = (infoOf text run es).add text e := by
  have duration : argMax ((es ++ [e]).map (fun x => (x.seq, x.elapsed))) = some e.elapsed := by
    rw [map_append]
    refine argMax_append (x := (e.seq, e.elapsed)) (fun y member => ?_)
    obtain ⟨x, there, rfl⟩ := List.mem_map.1 member
    exact later x there
  have last : ∀ {α : Type} (kind : String) (f : Event → α),
      argMax (((es ++ [e]).filter (·.kind = kind)).map (fun x => (x.seq, f x))) =
        if e.kind = kind then some (f e) else argMax ((es.filter (·.kind = kind)).map (fun x => (x.seq, f x))) := by
    intro α kind f
    rw [filter_append, map_append]
    by_cases here : e.kind = kind
    · simp only [filter_cons, here, decide_true, ite_true, filter_nil, map_cons, map_nil]
      exact argMax_append (x := (e.seq, f e)) (later_map later _ f)
    · simp [here]
  have request : argMin (((es ++ [e]).filter (·.kind = "run.requested")).map (fun x => (x.seq, x.payload))) =
      (argMin ((es.filter (·.kind = "run.requested")).map (fun x => (x.seq, x.payload)))).or
        (if e.kind = "run.requested" then some e.payload else none) := by
    rw [filter_append, map_append]
    by_cases here : e.kind = "run.requested"
    · simp only [filter_cons, here, decide_true, ite_true, filter_nil, map_cons, map_nil]
      exact argMin_append (x := (e.seq, e.payload)) (later_map later _ (·.payload))
    · simp [here]
  have cause : argMin ((es ++ [e]).filterMap (fun x => (x.cause text).map (fun c => (x.seq, c)))) =
      (argMin (es.filterMap (fun x => (x.cause text).map (fun c => (x.seq, c))))).or (e.cause text) := by
    rw [filterMap_append]
    cases here : e.cause text with
    | none => simp [here]
    | some c =>
      simp only [filterMap_cons, here, map_some, filterMap_nil]
      refine argMin_append (x := (e.seq, c)) (fun y member => ?_)
      obtain ⟨x, there, caused⟩ := mem_filterMap.1 member
      obtain ⟨c', -, rfl⟩ := map_eq_some_iff.1 caused
      exact later x there
  simp only [infoOf, duration, last, request, cause, Info.add, Info.learn]
  congr 1
  split_ifs <;> rfl

end

end Recordings
