import Nanofil.Publishing.Generations

/-! Generations one after another: what they show of the source, and what a checkpoint knows. -/
namespace Publishing
open List Option Observations

section
variable {δ : Type} [DecidableEq δ]

/-! ### The source as it changes -/

/-- Events are only appended, with numbers that rise. -/
def Appended (table table' : Table) : Prop :=
  table'.primary = table.primary ∧ ∃ more, table'.rows = table.rows ++ more ∧
    ∀ row ∈ more, ∀ before ∈ table.rows, table.seq before < table.seq row

/-- What a call meets after others: a new uuid, logs that have grown, and a database as the controller
changes it, which appends events and ends an attempt for good. -/
structure Meets (ws : List (World δ)) (w : World δ) : Prop where
  fresh : ∀ v ∈ ws, v.uuid ≠ w.uuid
  grown : ∀ v ∈ ws, Grown v.files w.files
  ended : ∀ v ∈ ws, StayEnded v.source.attempts w.source.attempts
  appended : ∀ v ∈ ws, Appended (v.source.table .events) (w.source.table .events)
  numbered : ∀ row ∈ (w.source.table .events).rows, 0 < (w.source.table .events).seq row

omit [DecidableEq δ] in
theorem Meets.earlier {ws : List (World δ)} {v w : World δ} (met : Meets (v :: ws) w) : Meets ws w :=
  ⟨fun u there => met.fresh u (mem_cons_of_mem v there), fun u there => met.grown u (mem_cons_of_mem v there),
    fun u there => met.ended u (mem_cons_of_mem v there), fun u there => met.appended u (mem_cons_of_mem v there),
    met.numbered⟩

/-- What is appended comes after the last event. -/
theorem Appended.behind {table table' : Table} {seq : Int} (appended : Appended table table')
    (numbered : ∀ row ∈ table'.rows, 0 < table'.seq row) (last : LastSeq table seq) {os : List (Observation Key Row)}
    (shown : ∀ k, current os k = table.row? k) : Behind table' seq os := by
  obtain ⟨primary, more, rows, later⟩ := appended
  have keys : table'.key = table.key := funext fun row => by rw [Table.key, Table.key, primary]
  have seqs : table'.seq = table.seq := funext fun row => by rw [Table.seq, Table.seq, keys]
  have before : table'.rows.filter (fun row => table'.seq row ≤ seq) = table.rows := by
    have kept : table.rows.filter (fun row => table.seq row ≤ seq) = table.rows :=
      filter_eq_self.2 (fun row there => decide_eq_true (last.1 row there))
    have dropped : more.filter (fun row => table.seq row ≤ seq) = [] := by
      rw [filter_eq_nil_iff]
      intro row there
      rw [decide_eq_true_iff, not_le]
      rcases last.2 with none_ | ⟨row', there', reached⟩
      · have above := numbered row (rows ▸ mem_append_right _ there)
        rw [seqs] at above
        omega
      · have above := later row there row' there'
        omega
    rw [rows, seqs, filter_append, kept, dropped, append_nil]
  intro k
  rw [shown k, before, keys, Table.row?]

/-! ### Generations -/

/-- A manifest with the files that it stands for. -/
structure Generation (δ : Type) where
  manifest : Manifest δ
  parts : List Part

/-- What some generations observed of a table. -/
def seen (gens : List (Generation δ)) (t : TableName) : List (Observation Key Row) :=
  (gens.flatMap (fun g => recordsIn g.parts t)).map Record.observation

def logsIn (parts : List Part) : List LogRecord := (parts.filter (·.place.isLogs)).flatMap (·.file.logRecords)

/-- What some generations captured of a stream. -/
def streams (gens : List (Generation δ)) (attempt : String) (stream : Stream) : List LogRecord :=
  logsOf attempt stream (gens.flatMap (fun g => logsIn g.parts))

omit [DecidableEq δ] in
theorem seen_append (gens : List (Generation δ)) (g : Generation δ) (t : TableName) :
    seen (gens ++ [g]) t = seen gens t ++ (recordsIn g.parts t).map Record.observation := by
  rw [seen, flatMap_append, map_append, flatMap_singleton]
  rfl

omit [DecidableEq δ] in
theorem streams_append (gens : List (Generation δ)) (g : Generation δ) (attempt : String) (stream : Stream) :
    streams (gens ++ [g]) attempt stream = streams gens attempt stream ++ logsOf attempt stream (logsIn g.parts) := by
  rw [streams, flatMap_append, logsOf_append, flatMap_singleton]
  rfl

/-- Generations show a source: each table's rows, and a part of each stream. -/
structure Shows (gens : List (Generation δ)) (w : World δ) : Prop where
  tables : ∀ t k, current (seen gens t) k = (w.source.table t).row? k
  logs : ∃ cursors, Streamed w.files w.source.attempts (streams gens) cursors

/-- What a checkpoint knows of the generations before it, in the calls that made them. -/
structure Kept (sha : Digests δ) (ws : List (World δ)) (gens : List (Generation δ)) (index : Index δ) (cursors : Cursors)
    (eventsSeq : Option Int) (revision : Nat) : Prop where
  indexed : ∀ t, Indexed sha t index (seen gens t)
  older : ∀ t, ∀ o ∈ seen gens t, o.revision ≤ revision
  revisions : gens.Pairwise (fun g g' => g.manifest.revision < g'.manifest.revision)
  latest : ∀ g ∈ gens, g.manifest.revision ≤ revision
  once : (gens.map (·.manifest.generation)).Nodup
  drawn : ∀ g ∈ gens, ∃ v ∈ ws, v.uuid = g.manifest.generation
  ahead : ∀ w, Meets ws w → Behind (w.source.table .events) (eventsSeq.getD 0) (seen gens .events) ∧
    Streamed w.files w.source.attempts (streams gens) cursors
  last : ∀ g, gens.getLast? = some g → ∃ v ∈ ws, v.uuid = g.manifest.generation ∧ Shows gens v

variable {sha : Digests δ} {ws : List (World δ)} {gens : List (Generation δ)} {index : Index δ} {cursors : Cursors}
  {eventsSeq : Option Int} {revision : Nat}

omit [DecidableEq δ] in
theorem Kept.start : Kept sha ws ([] : List (Generation δ)) ∅ ∅ none 0 := by
  refine ⟨fun _ _ => rfl, by simp [seen], .nil, by simp, by simp, by simp, fun w met => ⟨fun k => ?_, ?_⟩, by simp⟩
  · have none_ : (w.source.table .events).rows.filter (fun row => (w.source.table .events).seq row ≤ 0) = [] := by
      rw [filter_eq_nil_iff]
      intro row there
      have above := met.numbered row there
      simp only [decide_eq_true_eq]
      omega
    rw [getD_none, none_]
    rfl
  · exact Streamed.start

omit [DecidableEq δ] in
/-- A call that makes no generation. -/
theorem Kept.more (kept : Kept sha ws gens index cursors eventsSeq revision) (w : World δ) :
    Kept sha (w :: ws) gens index cursors eventsSeq revision := by
  refine ⟨kept.indexed, kept.older, kept.revisions, kept.latest, kept.once, fun g there => ?_,
    fun w' met => kept.ahead w' met.earlier, fun g ends => ?_⟩
  · obtain ⟨v, there, same⟩ := kept.drawn g there
    exact ⟨v, mem_cons_of_mem w there, same⟩
  · obtain ⟨v, there, same⟩ := kept.last g ends
    exact ⟨v, mem_cons_of_mem w there, same⟩

theorem mem_tableNames (t : TableName) : t ∈ tableNames := by cases t <;> decide

/-- A generation that is scanned. -/
theorem Kept.scan (kept : Kept sha ws gens index cursors eventsSeq revision) {w : World δ} (met : Meets ws w)
    {scanned : Scanned δ} {captured : Captured} {stamp : Stamp} (next : stamp.revision = revision + 1)
    (tables : tableNames.foldlM (scanTable sha stamp w.source index) ⟨[], ∅, eventsSeq⟩ = .ok scanned)
    (logs : Publishing.logs stamp w.logBytes w.files w.source.attempts ⟨scanned.output, cursors, 0⟩ = .ok captured)
    {m : Manifest δ} (generation : m.generation = w.uuid) (numbered : m.revision = revision + 1) :
    Kept sha (w :: ws) (gens ++ [⟨m, captured.output⟩]) (patched index scanned.changes) captured.cursors scanned.eventsSeq
      (revision + 1) := by
  obtain ⟨behind, streamed⟩ := kept.ahead w met
  have older : ∀ t, ∀ o ∈ seen gens t, o.revision < stamp.revision := fun t o there => by
    have before := kept.older t o there
    omega
  obtain ⟨parts, output, placed, each, -, -, seq⟩ := scanTables_delta (by decide : tableNames.Nodup) kept.indexed older
    (fun _ _ _ => AList.lookup_empty _) (fun _ => behind) met.numbered tables
  obtain ⟨parts', output', placed', streamed'⟩ := Streamed.logs (x := ⟨scanned.output, cursors, 0⟩) streamed logs
  rw [output, nil_append] at output'
  have records : ∀ t, recordsIn captured.output t = recordsIn parts t := by
    intro t
    have none_ : recordsIn parts' t = [] := recordsIn_other fun p there same => by
      have isLogs := placed' p there
      rw [same] at isLogs
      cases isLogs
    rw [output', recordsIn_append, none_, append_nil]
  have shown : ∀ t k, current (seen (gens ++ [⟨m, captured.output⟩]) t) k = (w.source.table t).row? k := by
    intro t k
    rw [seen_append, records]
    exact (each t (mem_tableNames t)).current k
  have captures : logsIn captured.output = parts'.flatMap (·.file.logRecords) := by
    rw [output', logsIn, filter_append, filter_eq_self.2 placed', filter_eq_nil_iff.2, nil_append]
    intro p there
    obtain ⟨t, -, place⟩ := placed p there
    rw [place]
    exact Bool.false_ne_true
  have streamed'' : Streamed w.files w.source.attempts (streams (gens ++ [⟨m, captured.output⟩])) captured.cursors := by
    have same : streams (gens ++ [⟨m, captured.output⟩]) = fun attempt stream => streams gens attempt stream ++
        logsOf attempt stream (parts'.flatMap (·.file.logRecords)) :=
      funext fun attempt => funext fun stream => by rw [streams_append, captures]
    rw [same]
    exact streamed'
  refine ⟨fun t k => ?_, fun t o there => ?_, ?_, fun g there => ?_, ?_, fun g there => ?_, fun w' met' => ⟨?_, ?_⟩, fun g ends => ?_⟩
  · rw [lookup_patched, (each t (mem_tableNames t)).changes k, shown]
  · rw [seen_append, mem_append, records] at there
    rcases there with there | there
    · exact Nat.le_succ_of_le (kept.older t o there)
    · obtain ⟨r, written, rfl⟩ := List.mem_map.1 there
      have same : r.observation.revision = stamp.revision := (each t (mem_tableNames t)).revision r written
      omega
  · rw [pairwise_append]
    refine ⟨kept.revisions, pairwise_singleton _ _, fun g there g' there' => ?_⟩
    rw [mem_singleton.1 there', numbered]
    exact Nat.lt_succ_of_le (kept.latest g there)
  · rcases mem_append.1 there with there | there
    · exact Nat.le_succ_of_le (kept.latest g there)
    · rw [mem_singleton.1 there, numbered]
  · rw [map_append, nodup_append]
    refine ⟨kept.once, nodup_singleton _, ?_⟩
    intro id there id' there' same
    subst same
    obtain ⟨g, before, rfl⟩ := List.mem_map.1 there
    obtain ⟨v, drawn, uuid⟩ := kept.drawn g before
    simp only [map_cons, map_nil, mem_singleton] at there'
    exact met.fresh v drawn (uuid.trans (there'.trans generation))
  · rcases mem_append.1 there with there | there
    · obtain ⟨v, drawn, same⟩ := kept.drawn g there
      exact ⟨v, mem_cons_of_mem w drawn, same⟩
    · rw [mem_singleton.1 there]
      exact ⟨w, mem_cons_self, generation.symm⟩
  · exact (met'.appended w mem_cons_self).behind met'.numbered (seq (mem_tableNames _)) (shown .events)
  · exact streamed''.grow (met'.grown w mem_cons_self) (met'.ended w mem_cons_self)
  · rw [getLast?_concat] at ends
    cases ends
    exact ⟨w, mem_cons_self, generation.symm, shown, _, streamed''⟩

end

/-! The checkpoint and the destination between the commits of calls: at rest, with a generation that
is pending, or with one that the pointer already names. -/

open Observations Commits

variable {δ : Type} [DecidableEq δ] {sha : Digests δ}

/-- A generation whose manifest and files are at the destination. -/
structure Stored (sha : Digests δ) (r : Remote δ) (g : Generation δ) : Prop where
  files : g.manifest.files = g.parts.map (Part.item sha)
  objects : ∀ p ∈ g.parts, r.objects.lookup (p.place, sha.file p.file) = some p.file
  manifest : r.manifests.lookup g.manifest.generation = some g.manifest

/-- The pointer to the last of some generations. -/
def tip (gens : List (Generation δ)) : Option Pointer :=
  gens.getLast?.map (fun g => ⟨g.manifest.generation, g.manifest.revision⟩)

/-- Every manifest names the one before it as its parent. -/
inductive Chained : List (Generation δ) → Prop
  | nil : Chained []
  | snoc {gens : List (Generation δ)} {g : Generation δ} : Chained gens →
      g.manifest.parent = (tip gens).map (·.generation) → Chained (gens ++ [g])

/-- What is only added to. -/
structure Remote.Grows (r r' : Remote δ) : Prop where
  objects : ∀ key file, r.objects.lookup key = some file → r'.objects.lookup key = some file
  manifests : ∀ id m, r.manifests.lookup id = some m → r'.manifests.lookup id = some m

omit [DecidableEq δ] in
@[simp] theorem tip_concat (gens : List (Generation δ)) (g : Generation δ) :
    tip (gens ++ [g]) = some ⟨g.manifest.generation, g.manifest.revision⟩ := by
  rw [tip, getLast?_concat]
  rfl

theorem Stored.grow {r r' : Remote δ} {g : Generation δ} (stored : Stored sha r g) (grows : r.Grows r') : Stored sha r' g :=
  ⟨stored.files, fun p there => grows.objects _ _ (stored.objects p there), grows.manifests _ _ stored.manifest⟩

theorem putObject_grows {r r' : Remote δ} {key : ObjectKey δ} {file : File} (put : r.putObject sha key file = .ok r') :
    r.Grows r' ∧ r'.latest = r.latest ∧ r'.objects.lookup key = some file := by
  rw [Remote.putObject] at put
  cases there : r.objects.lookup key with
  | none =>
    rw [there] at put
    cases put
    refine ⟨⟨fun key' file' before => ?_, fun _ _ before => before⟩, rfl, AList.lookup_insert _⟩
    have other : key' ≠ key := by
      rintro rfl
      rw [there] at before
      cases before
    exact (AList.lookup_insert_ne other).trans before
  | some file' =>
    rw [there] at put
    dsimp only at put
    split_ifs at put with same
    cases put
    exact ⟨⟨fun _ _ before => before, fun _ _ before => before⟩, rfl, by rw [there, sha.file_injective same]⟩

theorem putManifest_grows {r r' : Remote δ} {m : Manifest δ} (put : r.putManifest m = .ok r') :
    r.Grows r' ∧ r'.latest = r.latest ∧ r'.manifests.lookup m.generation = some m := by
  rw [Remote.putManifest] at put
  cases there : r.manifests.lookup m.generation with
  | none =>
    rw [there] at put
    cases put
    refine ⟨⟨fun _ _ before => before, fun id m' before => ?_⟩, rfl, AList.lookup_insert _⟩
    have other : id ≠ m.generation := by
      rintro rfl
      rw [there] at before
      cases before
    exact (AList.lookup_insert_ne other).trans before
  | some m' =>
    rw [there] at put
    dsimp only at put
    split_ifs at put with same
    cases put
    exact ⟨⟨fun _ _ before => before, fun _ _ before => before⟩, rfl, by rw [there, same]⟩

/-! ### Phases -/

/-- Nothing is pending. -/
structure Idle (sha : Digests δ) (ws : List (World δ)) (gens : List (Generation δ)) (s : Publisher δ) : Prop where
  pending : s.checkpoint.pending = none
  changes : s.checkpoint.changes = ∅
  kept : Kept sha ws gens s.checkpoint.index s.checkpoint.cursors s.checkpoint.eventsSeq (s.checkpoint.revision.getD 0)
  latest : s.remote.latest = tip gens
  stored : ∀ g ∈ gens, Stored sha s.remote g
  chained : Chained gens

/-- A generation is pending after others; the checkpoint knows it when its changes are made. -/
structure Waiting (sha : Digests δ) (ws : List (World δ)) (gens : List (Generation δ)) (g : Generation δ) (p : Pending δ)
    (s : Publisher δ) : Prop where
  pending : s.checkpoint.pending = some p
  manifest : p.manifest = g.manifest
  id : p.id = g.manifest.generation
  revision : p.revision = g.manifest.revision
  base : p.base = tip gens
  files : g.manifest.files = g.parts.map (Part.item sha)
  kept : Kept sha ws (gens ++ [g]) (patched s.checkpoint.index s.checkpoint.changes) s.checkpoint.cursors
    s.checkpoint.eventsSeq (s.checkpoint.revision.getD 0)
  stored : ∀ g ∈ gens, Stored sha s.remote g
  chained : Chained (gens ++ [g])

/-- The generations that the pointer leads to, in each phase. -/
inductive Phase (sha : Digests δ) (ws : List (World δ)) (s : Publisher δ) : List (Generation δ) → Prop
  | idle {gens : List (Generation δ)} : Idle sha ws gens s → Phase sha ws s gens
  | waiting {gens : List (Generation δ)} {g : Generation δ} {p : Pending δ} : Waiting sha ws gens g p s →
      s.remote.latest = tip gens → Phase sha ws s gens
  | sent {gens : List (Generation δ)} {g : Generation δ} {p : Pending δ} : Waiting sha ws gens g p s →
      s.remote.latest = tip (gens ++ [g]) → Stored sha s.remote g → Phase sha ws s (gens ++ [g])

variable {ws : List (World δ)} {gens : List (Generation δ)} {g : Generation δ} {p : Pending δ} {s : Publisher δ}

theorem Phase.created : Phase sha ws (.created : Publisher δ) [] := by
  refine .idle ⟨rfl, rfl, ?_, rfl, by simp, .nil⟩
  induction ws with
  | nil => exact Kept.start
  | cons w ws ih => exact ih.more w

theorem Phase.more (phase : Phase sha ws s gens) (w : World δ) : Phase sha (w :: ws) s gens := by
  cases phase with
  | idle idle => exact .idle { idle with kept := idle.kept.more w }
  | waiting waiting latest => exact .waiting { waiting with kept := waiting.kept.more w } latest
  | sent waiting latest stored => exact .sent { waiting with kept := waiting.kept.more w } latest stored

/-- A phase is that of the checkpoint and the destination. -/
theorem Phase.of_same {t : Publisher δ} (phase : Phase sha ws s gens) (checkpoint : t.checkpoint = s.checkpoint)
    (remote : t.remote = s.remote) : Phase sha ws t gens := by
  obtain ⟨c, r, etag⟩ := t
  obtain ⟨c', r', etag'⟩ := s
  cases checkpoint
  cases remote
  cases phase with
  | idle idle => exact .idle ⟨idle.pending, idle.changes, idle.kept, idle.latest, idle.stored, idle.chained⟩
  | waiting waiting latest => exact .waiting ⟨waiting.pending, waiting.manifest, waiting.id, waiting.revision, waiting.base,
      waiting.files, waiting.kept, waiting.stored, waiting.chained⟩ latest
  | sent waiting latest stored => exact .sent ⟨waiting.pending, waiting.manifest, waiting.id, waiting.revision, waiting.base,
      waiting.files, waiting.kept, waiting.stored, waiting.chained⟩ latest stored

omit [DecidableEq δ] in
theorem opened_same {c : Checkpoint δ} {r : Remote δ} {t : Publisher δ} (done : opened c r = .ok t) :
    t.checkpoint = c ∧ t.remote = r := by
  rw [opened] at done
  split_ifs at done
  cases done
  exact ⟨rfl, rfl⟩

/-- The pointer and the pending generation are told apart by the pending generation's uuid. -/
theorem Waiting.unsent (waiting : Waiting sha ws gens g p s) : ((tip gens).any (fun q => q.generation = p.id)) = false := by
  rw [Option.any_eq_false]
  intro q there
  rw [decide_eq_false_iff_not]
  intro same
  rw [tip, map_eq_some_iff] at there
  obtain ⟨g', last, rfl⟩ := there
  have once := waiting.kept.once
  rw [map_append, nodup_append] at once
  refine once.2.2 g'.manifest.generation (List.mem_map.2 ⟨g', mem_of_getLast? last, rfl⟩) g.manifest.generation
    (by simp) ?_
  rw [← waiting.id]
  exact same

/-- The end of a generation that the pointer names. -/
theorem Waiting.finalize (waiting : Waiting sha ws gens g p s) (latest : s.remote.latest = tip (gens ++ [g]))
    (stored : Stored sha s.remote g) :
    Idle sha ws (gens ++ [g]) { s with checkpoint := s.checkpoint.finalize p.id } := by
  refine ⟨rfl, rfl, waiting.kept, latest, fun g' there => ?_, waiting.chained⟩
  rcases mem_append.1 there with there | there
  · exact waiting.stored g' there
  · rw [mem_singleton.1 there]
    exact stored

/-- More at the destination. -/
theorem Waiting.grow (waiting : Waiting sha ws gens g p s) {r : Remote δ} (grows : s.remote.Grows r) :
    Waiting sha ws gens g p { s with remote := r } :=
  ⟨waiting.pending, waiting.manifest, waiting.id, waiting.revision, waiting.base, waiting.files, waiting.kept,
    fun g' there => (waiting.stored g' there).grow grows, waiting.chained⟩

end Publishing
