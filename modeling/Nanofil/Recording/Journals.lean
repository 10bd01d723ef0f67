import Nanofil.Recording.Commits
import Nanofil.Lib.Results

/-! The tables of a journal that has been recorded event by event. -/
namespace Recordings
open Results List Option

open Aggregates

theorem mem_update {α : Type} {p : α → Bool} {f : α → α} {rows : List α} {y : α} (member : y ∈ update p f rows)
    (keeps : ∀ x, p (f x) = p x) (other : p y = false) : y ∈ rows := by
  obtain ⟨x, there, same⟩ := List.mem_map.1 member
  by_cases here : p x = true
  · rw [if_pos here] at same
    rw [← same, keeps, here] at other
    cases other
  · rw [if_neg here] at same
    exact same ▸ there

theorem update_names {p : Run → Bool} {f : Run → Run} (keeps : ∀ r, (f r).run = r.run) (rows : List Run) :
    (update p f rows).map Run.run = rows.map Run.run := by
  simp only [update, List.map_map]
  refine map_congr_left (fun r _ => ?_)
  by_cases here : p r = true <;> simp [here, keeps]

/-! ### The statements of one event -/

structure Plainly (run : String) (t u : Tables) : Prop where
  events : u.events = t.events
  names : u.runs.map Run.run = t.runs.map Run.run
  info : u.runInfo = t.runInfo
  others : ∀ r ∈ u.runs, r.run ≠ run → r ∈ t.runs

theorem Statement.Plain.exec {run : String} {s : Statement} (plain : s.Plain run) {t u : Tables} (done : s.exec t = some u) :
    Plainly run t u := by
  cases s with
  | setRecipe run' name system =>
    obtain rfl : run' = run := plain
    cases done
    exact ⟨rfl, update_names (fun _ => by rfl) _, rfl, fun r member other => mem_update member (fun _ => by rfl) (by simpa using other)⟩
  | insertRecipe | insertEdge | insertActivity =>
    obtain ⟨rows, -, rfl⟩ := map_eq_some_iff.1 done
    exact ⟨rfl, rfl, rfl, fun r member _ => member⟩
  | stopActivity | setPhase | insertLog =>
    cases done
    exact ⟨rfl, rfl, rfl, fun r member _ => member⟩
  | _ => cases plain

variable {ss : List Statement} {offset : Nat}

theorem plain_execAll {run : String} (plain : ∀ s ∈ ss, s.Plain run) {t u : Tables}
    (done : execAll none t ss = some u) : Plainly run t u := by
  induction ss generalizing t with
  | nil =>
    cases done
    exact ⟨rfl, rfl, rfl, fun r member _ => member⟩
  | cons s ss ih =>
    rw [execAll_cons] at done
    obtain ⟨v, first, done⟩ := bind_eq_some_iff.1 done
    have one := (plain s (mem_cons_self ..)).exec first
    have rest := ih (fun s member => plain s (mem_cons_of_mem _ member)) done
    exact ⟨rest.events.trans one.events, rest.names.trans one.names, rest.info.trans one.info,
      fun r member other => one.others r (rest.others r member other) other⟩

/-- What the statements of an event make of the tables. -/
structure Takes (text : Json → String) (offset : Nat) (e : Event) (t u : Tables) : Prop where
  events : u.events = t.events ++ [(offset, e)]
  others : ∀ r ∈ u.runs, r.run ≠ e.run → r ∈ t.runs
  first : e.kind = "run.requested" → (∀ r ∈ t.runs, r.run ≠ e.run) ∧ u.runs.map Run.run = t.runs.map Run.run ++ [e.run] ∧
    u.runInfo = t.runInfo ++ [⟨e.run, some e.elapsed, some e.payload, none, none, none⟩]
  later : e.kind ≠ "run.requested" → u.runs.map Run.run = t.runs.map Run.run ∧
    u.runInfo = update (·.run = e.run) (Info.learn text e) t.runInfo

theorem insert_some {α : Type} {same : α → α → Bool} {row : α} {rows rows' : List α} (done : insert same row rows = some rows') :
    rows' = rows ++ [row] ∧ ∀ x ∈ rows, same row x = false := by
  rw [insert] at done
  split_ifs at done with there
  refine ⟨(Option.some.inj done).symm, fun x member => ?_⟩
  by_contra equal
  exact there (List.any_eq_true.2 ⟨x, member, by simpa using equal⟩)

theorem event_exec (text : Json → String) {e : Event}
    (found : e.statements offset = some ss) {t u : Tables} (done : execAll none t ss = some u) : Takes text offset e t u := by
  simp only [Event.statements, bind_found] at found
  obtain ⟨_, -, _, -, rows, found, infos, informs, logs, logged, same⟩ := found
  cases same
  rw [cons_append, cons_append, execAll_cons, Statement.exec, bind_some, execAll_append, execAll_append] at done
  obtain ⟨w, done, ends⟩ := bind_eq_some_iff.1 done
  obtain ⟨v, begins, learns⟩ := bind_eq_some_iff.1 done
  rw [infos_exec text informs] at learns
  cases learns
  have last := plain_execAll (logs_plain logged) ends
  by_cases kind : e.kind = "run.requested"
  · obtain ⟨row, named, rfl⟩ := rows_requested found kind
    rw [execAll_cons] at begins
    obtain ⟨v1, first, begins⟩ := bind_eq_some_iff.1 begins
    rw [execAll_cons] at begins
    obtain ⟨v2, second, begins⟩ := bind_eq_some_iff.1 begins
    cases begins
    obtain ⟨runs, inserted, rfl⟩ := map_eq_some_iff.1 first
    obtain ⟨info, informed, rfl⟩ := map_eq_some_iff.1 second
    obtain ⟨rfl, fresh⟩ := insert_some inserted
    obtain ⟨rfl, -⟩ := insert_some informed
    have idle : ∀ i, Info.learn text e i = i :=
      learn_other text (cause_other text (by simp [kind])) (by simp [kind]) (by simp [kind])
    refine ⟨last.events, fun r member other => ?_, fun _ => ⟨fun r member same => ?_, ?_, ?_⟩, fun wrong => absurd kind wrong⟩
    · rcases mem_append.1 (last.others r member other) with old | new
      · exact old
      · exact absurd (mem_singleton.1 new ▸ named) other
    · have apart := fresh r member
      simp [named, same] at apart
    · rw [last.names, map_append, map_cons, map_nil, named]
    · rw [last.info]
      exact update_same _ idle
  · have begun := plain_execAll (rows_plain found kind) begins
    refine ⟨last.events.trans begun.events, fun r member other => begun.others r (last.others r member other) other,
      fun wrong => absurd wrong kind, fun _ => ⟨last.names.trans begun.names, ?_⟩⟩
    rw [last.info]
    exact congrArg _ begun.info

theorem infos_of {e : Event} (infos : e.infos = some ss) : ∀ s ∈ ss, s.Of e.run := by
  have one : ∀ s : Statement, some [s] = some ss → s.Of e.run → ∀ s ∈ ss, s.Of e.run := by
    intro s same of s' member
    cases same
    exact mem_singleton.1 member ▸ of
  have none_ : some [] = some ss → ∀ s ∈ ss, s.Of e.run := by
    intro same
    cases same
    simp
  unfold Event.infos at infos
  simp only [bind_eq_bind] at infos
  by_cases message : e.kind = "nix.message"
  · rw [if_pos message] at infos
    obtain ⟨level, -, infos⟩ := bind_eq_some_iff.1 infos
    obtain ⟨n, -, infos⟩ := bind_eq_some_iff.1 infos
    by_cases zero : n = 0
    · rw [if_pos zero] at infos
      obtain ⟨_, -, infos⟩ := bind_eq_some_iff.1 infos
      obtain ⟨_, -, infos⟩ := bind_eq_some_iff.1 infos
      exact one _ infos rfl
    · rw [if_neg zero] at infos
      exact none_ infos
  · rw [if_neg message] at infos
    by_cases result : e.kind = "nix.build-result"
    · rw [if_pos result] at infos
      obtain ⟨_, -, infos⟩ := bind_eq_some_iff.1 infos
      obtain ⟨_, -, infos⟩ := bind_eq_some_iff.1 infos
      split at infos
      · exact one _ infos rfl
      · obtain ⟨_, -, infos⟩ := bind_eq_some_iff.1 infos
        exact one _ infos rfl
    · rw [if_neg result] at infos
      by_cases finished : e.kind = "cohort.finished"
      · rw [if_pos finished] at infos
        exact one _ infos rfl
      · rw [if_neg finished] at infos
        exact none_ infos

theorem statements_of {e : Event} (found : e.statements offset = some ss) : ∀ s ∈ ss, s.Of e.run := by
  simp only [Event.statements, bind_found] at found
  obtain ⟨_, -, _, -, rows, found, infos, informs, logs, logged, same⟩ := found
  cases same
  have requested : ∀ s ∈ rows, s.Of e.run := by
    by_cases kind : e.kind = "run.requested"
    · obtain ⟨row, named, rfl⟩ := rows_requested found kind
      intro s member
      simp only [mem_cons, not_mem_nil, or_false] at member
      rcases member with rfl | rfl
      · exact named
      · rfl
    · exact fun s member => (rows_plain found kind s member).of
  intro s member
  rcases mem_append.1 member with member | member
  · rcases mem_append.1 member with member | member
    · rcases mem_cons.1 member with rfl | member
      · trivial
      · exact requested s member
    · exact infos_of informs s member
  · exact (logs_plain logged s member).of

/-! ### Journals -/

/-- Offsets from 1 on, and the events of each run numbered from a request on. -/
inductive Journal : List (Nat × Event) → Prop
  | nil : Journal []
  | snoc {rows : List (Nat × Event)} (journal : Journal rows) (e : Event)
      (seq : e.seq = ((rows.map Prod.snd).filter (·.run = e.run)).length + 1) (first : e.seq = 1 → e.kind = "run.requested") :
      Journal (rows ++ [(rows.length + 1, e)])

theorem filter_run (es : List Event) (e : Event) (run : String) :
    (es ++ [e]).filter (·.run = run) = es.filter (·.run = run) ++ if e.run = run then [e] else [] := by
  rw [filter_append]
  by_cases here : e.run = run <;> simp [here]

theorem Journal.offsets {rows : List (Nat × Event)} (journal : Journal rows) : rows.map Prod.fst = List.range' 1 rows.length := by
  induction journal with
  | nil => rfl
  | snoc journal e seq first ih =>
    rw [map_append, ih, length_append, length_singleton, range'_concat]
    simp [Nat.add_comm]

theorem Journal.seqs {rows : List (Nat × Event)} (journal : Journal rows) (run : String) :
    ((rows.map Prod.snd).filter (·.run = run)).map Event.seq =
      List.range' 1 ((rows.map Prod.snd).filter (·.run = run)).length := by
  induction journal with
  | nil => rfl
  | snoc journal e seq first ih =>
    rw [map_append, map_cons, map_nil, filter_run]
    by_cases here : e.run = run
    · subst here
      rw [if_pos rfl, map_append, ih, length_append, length_singleton, range'_concat]
      simp [seq, Nat.add_comm]
    · rw [if_neg here, append_nil, ih]

theorem Journal.requested {rows : List (Nat × Event)} (journal : Journal rows) (run : String) (e : Event)
    (head : ((rows.map Prod.snd).filter (·.run = run)).head? = some e) : e.kind = "run.requested" := by
  induction journal with
  | nil => cases head
  | @snoc rows journal e' seq first ih =>
    rw [map_append, map_cons, map_nil, filter_run] at head
    cases before : (rows.map Prod.snd).filter (·.run = run) with
    | cons x xs =>
      rw [before] at head ih
      exact ih head
    | nil =>
      rw [before, nil_append] at head
      by_cases here : e'.run = run
      · subst here
        rw [if_pos rfl] at head
        cases head
        exact first (by rw [seq, before]; rfl)
      · rw [if_neg here] at head
        cases head

/-- Tables that are the fold of their journal. -/
structure Tables.Folded (text : Json → String) (t : Tables) : Prop where
  journal : Journal t.events
  replayed : replay t.events = some t
  known : ∀ run, run ∈ t.runs.map Run.run ↔ t.journal run ≠ []
  info : t.runInfo = t.rebuilt text
  projected : ∀ run, ∃ q, projectionOf (t.journal run) = some q ∧ q.events = (t.journal run).length
  summaries : ∀ r ∈ t.runs, ∃ q, projectionOf (t.journal r.run) = some q ∧ r.summary = some q.summary

theorem projectionOf_append (es : List Event) (e : Event) :
    projectionOf (es ++ [e]) = (projectionOf es).bind (fun q => q.apply e) := by
  rw [projectionOf, foldlM_append]
  cases h : es.foldlM Projection.apply Projection.empty with
  | none => simp [projectionOf, h]
  | some q => simp [projectionOf, h]

theorem replay_append (rows : List (Nat × Event)) (row : Nat × Event) :
    replay (rows ++ [row]) = (replay rows).bind (fun t => t.record row) := by
  rw [replay, foldlM_append]
  cases h : rows.foldlM Tables.record Tables.empty with
  | none => simp [replay, h]
  | some t => simp [replay, h]

section
variable {text : Json → String} {t u : Tables} {e : Event}

theorem Takes.journal (takes : Takes text offset e t u) (run : String) :
    u.journal run = t.journal run ++ if e.run = run then [e] else [] := by
  rw [Tables.journal, takes.events, map_append, map_cons, map_nil, filter_run]
  rfl

/-- One more event, recorded by itself. -/
theorem Tables.Folded.record (folded : t.Folded text) (seq : e.seq = (t.journal e.run).length + 1)
    (first : e.seq = 1 → e.kind = "run.requested") (done : t.record (t.events.length + 1, e) = some u) : u.Folded text := by
  have recorded := done
  simp only [Tables.record, bind_found] at done
  obtain ⟨ss, found, q, projected, done⟩ := done
  rw [execAll_append] at done
  obtain ⟨v, executed, finished⟩ := bind_eq_some_iff.1 done
  have same := Option.some.inj ((finals_exec v e.run ⟨q.summary, t.events.length + 1, e.elapsed⟩).symm.trans finished)
  subst same
  have takes := event_exec text found executed
  have journals : ∀ run, (v.touch e.run ⟨q.summary, t.events.length + 1, e.elapsed⟩).journal run =
      t.journal run ++ if e.run = run then [e] else [] := takes.journal
  have names : (v.touch e.run ⟨q.summary, t.events.length + 1, e.elapsed⟩).runs.map Run.run = v.runs.map Run.run :=
    update_names (fun _ => by rfl) _
  have seqs : (t.journal e.run).map Event.seq = List.range' 1 (t.journal e.run).length := folded.journal.seqs e.run
  have later : ∀ x ∈ t.journal e.run, x.seq < e.seq := by
    intro x member
    have place : x.seq ∈ List.range' 1 (t.journal e.run).length := by
      rw [← seqs]
      exact List.mem_map.2 ⟨x, member, rfl⟩
    rw [mem_range'_1] at place
    omega
  have old : e.kind ≠ "run.requested" → t.journal e.run ≠ [] := by
    intro other empty
    rw [empty] at seq
    exact other (first seq)
  refine ⟨?_, ?_, fun run => ?_, ?_, fun run => ?_, fun r member => ?_⟩
  · have events : (v.touch e.run ⟨q.summary, t.events.length + 1, e.elapsed⟩).events = t.events ++ [(t.events.length + 1, e)] :=
      takes.events
    rw [events]
    exact .snoc folded.journal e seq first
  · have events : (v.touch e.run ⟨q.summary, t.events.length + 1, e.elapsed⟩).events = t.events ++ [(t.events.length + 1, e)] :=
      takes.events
    rw [events, replay_append, folded.replayed, bind_some, recorded]
  · rw [names, journals]
    by_cases kind : e.kind = "run.requested"
    · rw [(takes.first kind).2.1, mem_append, mem_singleton, folded.known run]
      by_cases here : e.run = run
      · simp [here]
      · simp [here, Ne.symm here]
    · rw [(takes.later kind).1, folded.known run]
      by_cases here : e.run = run
      · subst here
        simp [old kind]
      · simp [here]
  · -- the row of the event's run learns it, the others have the journals they had
    have row : ∀ run : String, infoOf text run ((v.touch e.run ⟨q.summary, t.events.length + 1, e.elapsed⟩).journal run) =
        if run = e.run then (infoOf text run (t.journal run)).add text e else infoOf text run (t.journal run) := by
      intro run
      rw [journals]
      by_cases here : run = e.run
      · subst here
        rw [if_pos rfl, if_pos rfl]
        exact infoOf_append text e.run later
      · rw [if_neg (Ne.symm here), if_neg here, append_nil]
    have rebuilt : (v.touch e.run ⟨q.summary, t.events.length + 1, e.elapsed⟩).rebuilt text = (v.runs.map Run.run).map (fun run =>
        if run = e.run then (infoOf text run (t.journal run)).add text e else infoOf text run (t.journal run)) := by
      rw [← names, List.map_map, Tables.rebuilt]
      exact map_congr_left (fun r _ => row r.run)
    rw [rebuilt]
    have known : t.runInfo = (t.runs.map Run.run).map (fun run => infoOf text run (t.journal run)) := by
      rw [folded.info, Tables.rebuilt, List.map_map]
      rfl
    by_cases kind : e.kind = "run.requested"
    · obtain ⟨fresh, named, informed⟩ := takes.first kind
      have unknown : t.journal e.run = [] := by
        by_contra some_
        obtain ⟨r, there, same⟩ := List.mem_map.1 ((folded.known e.run).2 some_)
        exact fresh r there same
      have info : (v.touch e.run ⟨q.summary, t.events.length + 1, e.elapsed⟩).runInfo =
          update (·.run = e.run) (Info.touch ⟨q.summary, t.events.length + 1, e.elapsed⟩) v.runInfo := rfl
      rw [info, informed, named, update_append, known, map_append]
      congr 1
      · rw [update, List.map_map]
        refine map_congr_left (fun run member => ?_)
        have other : run ≠ e.run := by
          obtain ⟨r, there, rfl⟩ := List.mem_map.1 member
          exact fresh r there
        simp [infoOf, other]
      · simp [update, Info.touch, Info.add, Info.learn, unknown, infoOf, argMin, argMax, best, kind, cause_other]
    · obtain ⟨named, informed⟩ := takes.later kind
      have info : (v.touch e.run ⟨q.summary, t.events.length + 1, e.elapsed⟩).runInfo =
          update (·.run = e.run) (Info.touch ⟨q.summary, t.events.length + 1, e.elapsed⟩) v.runInfo := rfl
      rw [info, informed, named, known]
      rw [update, update, List.map_map, List.map_map]
      refine map_congr_left (fun run _ => ?_)
      by_cases here : run = e.run
      · simp [infoOf, here, Info.learn, Info.touch, Info.add, kind]
      · simp [infoOf, here]
  · rw [journals]
    by_cases here : e.run = run
    · subst here
      obtain ⟨q0, before, counted⟩ := folded.projected e.run
      refine ⟨q, by rw [if_pos rfl]; exact projected, ?_⟩
      rw [projectionOf_append, before, bind_some] at projected
      rw [if_pos rfl, Projection.apply_events projected, counted, length_append, length_singleton]
    · rw [if_neg here, append_nil]
      exact folded.projected run
  · rw [journals]
    by_cases here : e.run = r.run
    · obtain ⟨r0, there, same⟩ := List.mem_map.1 member
      refine ⟨q, by rw [if_pos here, ← here]; exact projected, ?_⟩
      by_cases mine : r0.run = e.run
      · simp only [mine, decide_true, ite_true] at same
        rw [← same]
        rfl
      · simp only [mine, decide_false, Bool.false_eq_true, ite_false] at same
        exact absurd (same ▸ here).symm mine
    · rw [if_neg here, append_nil]
      have there : r ∈ v.runs := mem_update member (fun _ => by rfl) (by simpa using Ne.symm here)
      exact folded.summaries r (takes.others r there (Ne.symm here))

end

end Recordings
