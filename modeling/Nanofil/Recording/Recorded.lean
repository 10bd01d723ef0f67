import Nanofil.Recording.Journals

/-! The tables of a dataset are the fold of its journal, however it was appended and reopened. -/
namespace Recordings
open List Option

section
variable {text : Json → String}

/-- What is kept of a dataset: an empty projection is one that was lost when it was closed. -/
structure Dataset.Kept (text : Json → String) (d : Dataset) : Prop where
  folded : d.tables.Folded text
  watermark : d.watermark = d.tables.events.length
  projections : ∀ run, d.projections run = .empty ∨ projectionOf (d.tables.journal run) = some (d.projections run)

/-- The loop of an append after an event: the tables in its transaction, and the fold so far. -/
structure Looped (text : Json → String) (run : String) (t0 : Tables) (b : Batch) (mid t : Tables) (last : Event) : Prop where
  executed : execAll none t0 b.statements = some mid
  folded : t.Folded text
  touched : t = mid.touch run ⟨b.projection.summary, b.offset, last.elapsed⟩
  projection : projectionOf (t.journal run) = some b.projection
  seq : b.seq = (t.journal run).length + 1
  offset : b.offset = t.events.length
  others : ∀ run', run' ≠ run → t.journal run' = t0.journal run'

variable {b b' : Batch} {mid' t t0 : Tables}

theorem event_cases {run : String} {e : Event} (step : b.event run e = some b') :
    e.run = run ∧ e.seq = b.seq ∧ (e.seq = 1 → e.kind = "run.requested") ∧ ∃ ss q, e.statements (b.offset + 1) = some ss ∧
      b.projection.apply e = some q ∧ b' = ⟨q, b.seq + 1, b.offset + 1, b.statements ++ ss⟩ := by
  rw [Batch.event] at step
  split_ifs at step with bad
  simp only [not_or, not_and, ne_eq, not_not] at bad
  simp only [bind_eq_bind, bind_eq_some_iff] at step
  obtain ⟨ss, found, q, applied, same⟩ := step
  exact ⟨bad.1, bad.2.1, bad.2.2, ss, q, found, applied, (Option.some.inj same).symm⟩

/-- One event of an append is recorded as by itself, if the statements so far are executed. -/
theorem Looped.of {run : String} {mid : Tables} {e : Event}
    (executed : execAll none t0 b.statements = some mid) (alike : Alike run mid t) (folded : t.Folded text)
    (projection : projectionOf (t.journal run) = some b.projection) (seq : b.seq = (t.journal run).length + 1)
    (offset : b.offset = t.events.length) (others : ∀ run', run' ≠ run → t.journal run' = t0.journal run')
    (step : b.event run e = some b') (executed' : execAll none t0 b'.statements = some mid') :
    ∃ t', Looped text run t0 b' mid' t' e ∧ t'.events = t.events ++ [(t.events.length + 1, e)] := by
  obtain ⟨rfl, numbered, first, ss, q, found, applied, rfl⟩ := event_cases step
  have onward : execAll none mid ss = some mid' := by
    rw [execAll_append, executed, bind_some] at executed'
    exact executed'
  have projected : projectionOf (t.journal e.run ++ [e]) = some q := by
    rw [projectionOf_append, projection, bind_some, applied]
  have recorded : t.record (t.events.length + 1, e) =
      some (mid'.touch e.run ⟨q.summary, b.offset + 1, e.elapsed⟩) := by
    have same := alike.execAll (statements_of found) ⟨q.summary, b.offset + 1, e.elapsed⟩
    rw [onward, map_some] at same
    obtain ⟨v, done, touched⟩ := map_eq_some_iff.1 same.symm
    rw [offset] at found touched ⊢
    simp only [Tables.record, bind_eq_bind, found, bind_some, projected, execAll_append, done]
    rw [← touched]
    exact finals_exec v e.run ⟨q.summary, t.events.length + 1, e.elapsed⟩
  have next := folded.record (by rw [numbered, seq]) first recorded
  have takes : (mid'.touch e.run ⟨q.summary, b.offset + 1, e.elapsed⟩).events = t.events ++ [(t.events.length + 1, e)] := by
    have replayed := next.replayed
    simp only [Tables.record, bind_eq_bind, bind_eq_some_iff] at recorded
    obtain ⟨ss', found', q', -, done⟩ := recorded
    rw [execAll_append] at done
    obtain ⟨v, executed1, finished⟩ := bind_eq_some_iff.1 done
    have same := Option.some.inj ((finals_exec v e.run ⟨q'.summary, t.events.length + 1, e.elapsed⟩).symm.trans finished)
    rw [← same]
    exact (event_exec text found' executed1).events
  have journals : ∀ run', (mid'.touch e.run ⟨q.summary, b.offset + 1, e.elapsed⟩).journal run' =
      t.journal run' ++ if e.run = run' then [e] else [] := by
    intro run'
    rw [Tables.journal, takes, map_append, map_cons, map_nil, filter_run]
    rfl
  refine ⟨_, ⟨executed', next, rfl, ?_, ?_, ?_, fun run' other => ?_⟩, takes⟩
  · rw [journals, if_pos rfl, projected]
  · rw [journals, if_pos rfl, length_append, length_singleton, seq]
  · rw [takes, length_append, length_singleton, offset]
  · rw [journals, if_neg (Ne.symm other), append_nil, others run' other]

theorem events_more {run : String} {es : List Event} (steps : es.foldlM (Batch.event run) b = some b') :
    ∃ more, b'.statements = b.statements ++ more := by
  induction es generalizing b with
  | nil => exact ⟨[], by rw [append_nil, Option.some.inj steps]⟩
  | cons e es ih =>
    rw [foldlM_cons] at steps
    obtain ⟨c, step, steps⟩ := bind_eq_some_iff.1 steps
    obtain ⟨-, -, -, ss, q, -, -, rfl⟩ := event_cases step
    obtain ⟨more, same⟩ := ih steps
    exact ⟨ss ++ more, by rw [same, append_assoc]⟩

theorem executed_before {first more : List Statement} (executed : execAll none t0 (first ++ more) = some mid') :
    ∃ mid, execAll none t0 first = some mid := by
  rw [execAll_append] at executed
  obtain ⟨mid, done, -⟩ := bind_eq_some_iff.1 executed
  exact ⟨mid, done⟩

/-- Events with the offsets they get. -/
def numbered (start : Nat) : List Event → List (Nat × Event)
  | [] => []
  | e :: es => (start + 1, e) :: numbered (start + 1) es

theorem Looped.rest {run : String} {es : List Event} {mid : Tables} {last : Event}
    (looped : Looped text run t0 b mid t last) (steps : es.foldlM (Batch.event run) b = some b')
    (executed : execAll none t0 b'.statements = some mid') :
    ∃ t', Looped text run t0 b' mid' t' (es.getLastD last) ∧ t'.events = t.events ++ numbered t.events.length es := by
  induction es generalizing b mid t last with
  | nil =>
    cases steps
    obtain rfl := Option.some.inj (looped.executed.symm.trans executed)
    exact ⟨t, looped, by simp [numbered]⟩
  | cons e es ih =>
    rw [foldlM_cons] at steps
    obtain ⟨c, step, steps⟩ := bind_eq_some_iff.1 steps
    obtain ⟨more, same⟩ := events_more steps
    obtain ⟨midc, between⟩ := executed_before (same ▸ executed)
    have alike : Alike run mid t := fun a => by rw [looped.touched, touch_twice]
    obtain ⟨t1, next, events⟩ := Looped.of looped.executed alike looped.folded looped.projection looped.seq looped.offset
      looped.others step between
    obtain ⟨t', done, events'⟩ := ih next steps
    refine ⟨t', by rw [getLastD_cons]; exact done, ?_⟩
    rw [events', events, append_assoc, length_append, length_singleton]
    rfl

theorem projected_empty {text : Json → String} (folded : t.Folded text) {run : String}
    {q : Projection} (known : projectionOf (t.journal run) = some q) : q.events = (t.journal run).length := by
  obtain ⟨q', known', counted⟩ := folded.projected run
  obtain rfl := Option.some.inj (known.symm.trans known')
  exact counted

/-- An append that succeeds records its batch, one that throws changes nothing. -/
theorem Dataset.Kept.append {d : Dataset} (kept : d.Kept text) (fault : Option Nat) (batch : List Event) :
    ((d.append fault batch).2 = false ∧ (d.append fault batch).1 = d) ∨
      (d.append fault batch).2 = true ∧ (d.append fault batch).1.Kept text ∧
        (d.append fault batch).1.tables.events = d.tables.events ++ numbered d.watermark batch := by
  cases batch with
  | nil => exact .inr ⟨rfl, kept, by simp [Dataset.append, numbered]⟩
  | cons first rest =>
    unfold Dataset.append
    simp only
    split
    · exact .inl ⟨rfl, rfl⟩
    · rename_i b steps
      split
      · exact .inl ⟨rfl, rfl⟩
      · rename_i t done
        refine .inr ⟨rfl, ?_⟩
        have all := execAll_none done
        rw [execAll_append] at all
        obtain ⟨mid, executed, finished⟩ := bind_eq_some_iff.1 all
        obtain rfl := Option.some.inj ((finals_exec mid first.run ⟨b.projection.summary, b.offset,
          (rest.getLastD first).elapsed⟩).symm.trans finished)
        rw [foldlM_cons] at steps
        obtain ⟨c, step, steps⟩ := bind_eq_some_iff.1 steps
        obtain ⟨more, same⟩ := events_more steps
        obtain ⟨midc, between⟩ := executed_before (same ▸ executed)
        -- a projection that was lost is that of a run that has no events
        have projection : projectionOf (d.tables.journal first.run) = some (d.projections first.run) := by
          rcases kept.projections first.run with empty | known
          · obtain ⟨-, numbered, requested, ss, q, found, -, rfl⟩ := event_cases step
            have kind := requested (by rw [numbered, empty]; rfl)
            rw [nil_append] at between
            have fresh := ((event_exec text found between).first kind).1
            have unknown : d.tables.journal first.run = [] := by
              by_contra some_
              obtain ⟨r, there, named⟩ := List.mem_map.1 ((kept.folded.known first.run).2 some_)
              exact fresh r there named
            rw [unknown, empty]
            rfl
          · exact known
        have seq : (d.projections first.run).summary.events + 1 = (d.tables.journal first.run).length + 1 :=
          congrArg (· + 1) (projected_empty kept.folded projection)
        obtain ⟨t1, looped, events1⟩ := Looped.of (by rfl : execAll none d.tables [] = some d.tables)
          (fun _ => rfl : Alike first.run d.tables d.tables) kept.folded projection seq kept.watermark (fun _ _ => rfl) step between
        obtain ⟨t', ended, events'⟩ := looped.rest steps executed
        rw [← ended.touched]
        refine ⟨⟨ended.folded, ended.offset, fun run => ?_⟩, ?_⟩
        · dsimp only
          by_cases here : run = first.run
          · subst here
            exact .inr (by rw [Function.update_self]; exact ended.projection)
          · rw [Function.update_of_ne here]
            exact (kept.projections run).imp id (fun known => by simp only [ended.others run here, known])
        · rw [events', events1, append_assoc, length_append, length_singleton, ← kept.watermark]
          rfl

theorem foldl_max_range (n : Nat) : (List.range' 1 n).foldl max 0 = n := by
  induction n with
  | zero => rfl
  | succ n ih =>
    rw [range'_concat, foldl_append, ih]
    simp
    omega

/-- What is rebuilt is what was there. -/
theorem Dataset.Kept.reopen {d : Dataset} (kept : d.Kept text) : (d.reopen text).Kept text ∧ (d.reopen text).tables = d.tables := by
  have same : (d.reopen text).tables = d.tables := by
    rw [Dataset.reopen, ← kept.folded.info]
  refine ⟨⟨same ▸ kept.folded, ?_, fun _ => .inl rfl⟩, same⟩
  rw [same, Dataset.reopen, kept.folded.journal.offsets, foldl_max_range]

theorem Dataset.create_kept : Dataset.create.Kept text :=
  ⟨⟨.nil, rfl, by simp [Dataset.create, Tables.empty, Tables.journal], rfl, fun _ => ⟨.empty, rfl, rfl⟩,
    by simp [Dataset.create, Tables.empty]⟩, rfl, fun _ => .inl rfl⟩

theorem Dataset.after_kept (ops : List Op) : (Dataset.after text ops).Kept text := by
  induction ops using List.reverseRecOn with
  | nil => exact create_kept
  | append_singleton ops op ih =>
    rw [Dataset.after, foldl_append, foldl_cons, foldl_nil]
    cases op with
    | appends fault batch =>
      rcases ih.append fault batch with ⟨-, same⟩ | ⟨-, kept, -⟩
      · have unchanged : (Dataset.after text ops).step text (.appends fault batch) = Dataset.after text ops := same
        rw [Dataset.after] at unchanged
        rw [unchanged]
        exact ih
      · exact kept
    | reopens => exact ih.reopen.1

end

/-- A run is requested, a message is fatal and the worker reports a result. -/
example : (Dataset.create.append none [⟨"r", 1, 5, 0, "run.requested", .obj [("drv", .str "/a.drv"), ("store", .str "/nix")]⟩,
    ⟨"r", 2, 6, 1, "nix.message", .obj [("level", .num 0), ("text_hex", .str "6f")]⟩]).1.watermark = 2 := by decide

end Recordings
