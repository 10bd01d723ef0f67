import Nanofil.Publishing.Differences
import Nanofil.Publishing.Publisher

/-! A scan of a table is the delta between what has been observed of it and the source. -/
namespace Publishing
open List Option Observations

variable {δ : Type} [DecidableEq δ] {sha : Digests δ} {t : TableName} {stamp : Stamp} {table : Table} {index : Index δ}

/-- The index holds the digests of the newest rows. -/
def Indexed (sha : Digests δ) (t : TableName) (index : Index δ) (os : List (Observation Key Row)) : Prop :=
  ∀ k, index.lookup (t, k) = (current os k).map sha.row

@[simp] theorem record_observation (deleted : Bool) (r : Key × Row) :
    (stamp.record deleted r).observation = ⟨r.1, stamp.revision, if deleted then none else some r.2⟩ := rfl

/-- What a scan of a table adds to a run: its records and its changes are the difference between
what was observed and the source. -/
structure Delta (sha : Digests δ) (stamp : Stamp) (t : TableName) (table : Table) (index : Index δ)
    (os : List (Observation Key Row)) (x y : Scanned δ) (new : List Record) : Prop where
  written : Written t x.output y.output [] new
  revision : ∀ r ∈ new, r.revision = stamp.revision
  current : ∀ k, current (os ++ new.map Record.observation) k = table.row? k
  changes : ∀ k, ((y.changes.lookup (t, k)).getD (index.lookup (t, k))) = (table.row? k).map sha.row
  others : ∀ t' k, t' ≠ t → y.changes.lookup (t', k) = x.changes.lookup (t', k)

variable {os : List (Observation Key Row)} {ks : List Key}

omit [DecidableEq δ] in
/-- A row that was not changed is the one observed. -/
theorem Indexed.unchanged (indexed : Indexed sha t index os) {k : Key} {row : Row}
    (same : index.lookup (t, k) = some (sha.row row)) : current os k = some row := by
  rw [indexed k] at same
  obtain ⟨row', there, digest⟩ := map_eq_some_iff.1 same
  rw [there, sha.row_injective digest]

omit [DecidableEq δ] in
theorem Indexed.empty (indexed : Indexed sha t index os) {k : Key}
    (absent : index.lookup (t, k) = none) : current os k = none := by
  rw [indexed k] at absent
  exact map_eq_none_iff.1 absent

/-- The records of changed rows, and of keys that are gone, in the order that they are written. -/
def differences (sha : Digests δ) (t : TableName) (table : Table) (index : Index δ) (stamp : Stamp) (rows : List Row)
    (ks : List Key) : List Record :=
  (changed sha t table index rows).map (stamp.record false) ++ ks.map (fun k => stamp.record true (k, tombstone table k))

theorem differences_revision {rows : List Row} :
    ∀ r ∈ differences sha t table index stamp rows ks, r.revision = stamp.revision := by
  intro r there
  rcases mem_append.1 there with there | there
  · obtain ⟨_, -, rfl⟩ := List.mem_map.1 there
    rfl
  · obtain ⟨_, -, rfl⟩ := List.mem_map.1 there
    rfl

theorem differences_once {rows : List Row} (once : (rows.map table.key).Nodup) (distinct : ks.Nodup)
    (unseen : ∀ k ∈ ks, k ∉ rows.map table.key) :
    (((differences sha t table index stamp rows ks).map Record.observation).map (·.key)).Nodup := by
  rw [differences, map_append, map_append, nodup_append]
  simp only [List.map_map]
  refine ⟨changed_keys once, by simpa [Function.comp_def] using distinct, ?_⟩
  intro k there k' there' same
  subst same
  obtain ⟨r, taken, rfl⟩ := List.mem_map.1 there
  obtain ⟨row, kept, rfl⟩ := List.mem_map.1 taken
  obtain ⟨k', gone_, same⟩ := List.mem_map.1 there'
  refine unseen k' gone_ (List.mem_map.2 ⟨row, mem_of_mem_filter kept, same.symm⟩)

theorem differences_found {rows : List Row} (once : (rows.map table.key).Nodup) (k : Key) :
    ((differences sha t table index stamp rows ks).map Record.observation).find? (·.key = k) =
      (((rows.find? (fun row => table.key row = k)).bind
        (fun row => if index.lookup (t, k) = some (sha.row row) then none
          else some (⟨k, stamp.revision, some row⟩ : Observation Key Row))).or
        (if k ∈ ks then some ⟨k, stamp.revision, none⟩ else none)) := by
  have live : (((changed sha t table index rows).map (stamp.record false)).map Record.observation).find? (·.key = k) =
      ((changed sha t table index rows).find? (fun r => r.1 = k)).map (fun r => ⟨r.1, stamp.revision, some r.2⟩) := by
    rw [List.map_map, find?_map]
    rfl
  have dead : ((ks.map (fun k => stamp.record true (k, tombstone table k))).map Record.observation).find? (·.key = k) =
      if k ∈ ks then some ⟨k, stamp.revision, none⟩ else none := by
    rw [List.map_map, find?_map]
    by_cases there : k ∈ ks
    · have found : ks.find? (fun k' => k' = k) = some k := by
        cases seen : ks.find? (fun k' => decide (k' = k)) with
        | none =>
          rw [find?_eq_none] at seen
          exact absurd (decide_eq_true rfl) (seen k there)
        | some k' =>
          have same := find?_some seen
          rw [of_decide_eq_true same]
      rw [if_pos there]
      exact congrArg (Option.map _) found
    · have none_ : ks.find? (fun k' => k' = k) = none := by
        rw [find?_eq_none]
        intro k' there'
        simp only [decide_eq_true_eq]
        rintro rfl
        exact there there'
      rw [if_neg there]
      exact congrArg (Option.map _) none_
  rw [differences, map_append, find?_append, live, dead, changed_found once]
  congr 1
  cases rows.find? (fun row => decide (table.key row = k)) with
  | none => rfl
  | some row =>
    simp only [bind_some]
    split_ifs <;> rfl

theorem differences_current {rows : List Row}
    (older : ∀ o ∈ os, o.revision < stamp.revision) (once : (rows.map table.key).Nodup) (distinct : ks.Nodup)
    (unseen : ∀ k ∈ ks, k ∉ rows.map table.key) (k : Key) :
    current (os ++ (differences sha t table index stamp rows ks).map Record.observation) k =
      match rows.find? (fun row => table.key row = k) with
      | some row => if index.lookup (t, k) = some (sha.row row) then current os k else some row
      | none => if k ∈ ks then none else current os k := by
  have all : ∀ o ∈ (differences sha t table index stamp rows ks).map Record.observation, o.revision = stamp.revision := by
    intro o there
    obtain ⟨r, written, rfl⟩ := List.mem_map.1 there
    exact differences_revision r written
  rw [current_append older all (differences_once once distinct unseen), differences_found once]
  cases found : rows.find? (fun row => decide (table.key row = k)) with
  | none =>
    simp only [bind_none, none_or]
    split_ifs <;> rfl
  | some row =>
    simp only [bind_some]
    by_cases same : index.lookup (t, k) = some (sha.row row)
    · have absent : k ∉ ks := by
        intro there
        refine unseen k there (List.mem_map.2 ⟨row, mem_of_find?_eq_some found, ?_⟩)
        simpa using find?_some found
      rw [if_pos same, if_pos same, if_neg absent]
      rfl
    · rw [if_neg same, if_neg same]
      rfl

theorem scanRows_changes (x : Scanned δ) (t' : TableName) (k : Key) :
    (scanRows sha t stamp table index x).changes.lookup (t', k) =
      if t' = t ∧ k ∈ gone t table index then some none
      else if t' = t then
        match (changed sha t table index table.rows).find? (fun r => r.1 = k) with
        | some r => some (some (sha.row r.2))
        | none => x.changes.lookup (t', k)
      else x.changes.lookup (t', k) := by
  refine (gone_changes _ _ t' k).trans ?_
  exact congrArg (fun found => if t' = t ∧ k ∈ gone t table index then some none else found)
    (rows_changes table.distinct _ t' k)

/-- A table that is scanned whole. -/
theorem scanRows_delta {x : Scanned δ} (indexed : Indexed sha t index os)
    (older : ∀ o ∈ os, o.revision < stamp.revision) (untouched : ∀ k, x.changes.lookup (t, k) = none) :
    Delta sha stamp t table index os x (scanRows sha t stamp table index x)
      (differences sha t table index stamp table.rows (gone t table index)) := by
  have once : (table.rows.map table.key).Nodup := table.distinct
  have unseen : ∀ k ∈ gone t table index, k ∉ table.rows.map table.key := by
    intro k there seen
    obtain ⟨row, here, key⟩ := List.mem_map.1 seen
    have none_ := (mem_gone.1 there).2
    rw [Table.row?, find?_eq_none] at none_
    exact none_ row here (decide_eq_true key)
  refine ⟨?_, differences_revision, fun k => ?_, fun k => ?_, fun t' k other => ?_⟩
  · have live := (@rows_written δ _ sha t stamp table index _ table.rows ⟨⟨[], 0, x.output⟩, x.changes, 0⟩ _ Written.nil).write
    exact live.trans (@gone_written δ t stamp table _ (gone t table index) ⟨⟨[], 0, _⟩, _, 0⟩ _ Written.nil).write
  · rw [differences_current older once gone_once unseen, Table.row?]
    cases found : table.rows.find? (fun row => decide (table.key row = k)) with
    | none =>
      dsimp only
      split_ifs with there
      · rfl
      · cases known : index.lookup (t, k) with
        | none => exact indexed.empty known
        | some h => exact absurd (mem_gone.2 ⟨by rw [known]; rfl, found⟩) there
    | some row =>
      dsimp only
      split_ifs with same
      · exact indexed.unchanged same
      · rfl
  · rw [scanRows_changes, if_pos rfl, changed_found once, untouched, Table.row?]
    cases found : table.rows.find? (fun row => decide (table.key row = k)) with
    | none =>
      simp only [bind_none, true_and, map_none]
      split_ifs with there
      · rfl
      · cases known : index.lookup (t, k) with
        | none => rfl
        | some h => exact absurd (mem_gone.2 ⟨by rw [known]; rfl, found⟩) there
    | some row =>
      have absent : k ∉ gone t table index := fun there => by
        have none_ := (mem_gone.1 there).2
        rw [Table.row?, found] at none_
        cases none_
      simp only [bind_some, true_and, if_neg absent, map_some]
      split_ifs with same
      · exact same
      · rfl
  · rw [scanRows_changes, if_neg (fun same => other same.1), if_neg other]

/-! ### Events -/

/-- The events up to a number have been observed. -/
def Behind (table : Table) (seq : Int) (os : List (Observation Key Row)) : Prop :=
  ∀ k, current os k = (table.rows.filter (fun row => table.seq row ≤ seq)).find? (fun row => table.key row = k)

theorem seq_of_key {row row' : Row} (same : table.key row = table.key row') : table.seq row = table.seq row' := by
  rw [Table.seq, Table.seq, same]

theorem foldl_max_bounds (xs : List Int) (a : Int) :
    a ≤ xs.foldl max a ∧ (∀ x ∈ xs, x ≤ xs.foldl max a) ∧ (xs.foldl max a = a ∨ xs.foldl max a ∈ xs) := by
  induction xs generalizing a with
  | nil => exact ⟨le_refl a, by simp, .inl rfl⟩
  | cons x xs ih =>
    obtain ⟨least, all, there⟩ := ih (max a x)
    rw [foldl_cons]
    refine ⟨le_trans (le_max_left a x) least, ?_, ?_⟩
    · intro y seen
      rcases mem_cons.1 seen with rfl | seen
      · exact le_trans (le_max_right a y) least
      · exact all y seen
    · rcases there with same | there
      · rcases le_total x a with less | less
        · exact .inl (same.trans (max_eq_left less))
        · exact .inr (mem_cons.2 (.inl (same.trans (max_eq_right less))))
      · exact .inr (mem_cons_of_mem x there)

/-- The events after a number, in their order. -/
def Table.after (table : Table) (seq : Int) : List Row :=
  (table.rows.filter (fun row => seq < table.seq row)).insertionSort (fun r r' => table.seq r ≤ table.seq r')

theorem mem_after {seq : Int} {row : Row} : row ∈ table.after seq ↔ row ∈ table.rows ∧ seq < table.seq row := by
  rw [Table.after, mem_insertionSort, mem_filter, decide_eq_true_iff]

theorem after_once (seq : Int) : ((table.after seq).map table.key).Nodup := by
  have kept : ((table.rows.filter (fun row => seq < table.seq row)).map table.key).Nodup :=
    List.Nodup.sublist (filter_sublist.map _) table.distinct
  exact ((perm_insertionSort _ _).map table.key).nodup_iff.2 kept

/-- A row that is found after a number was not observed, and any other was. -/
theorem Behind.row {seq : Int} (behind : Behind table seq os) (k : Key) :
    (∀ row, (table.after seq).find? (fun row => table.key row = k) = some row →
      table.row? k = some row ∧ current os k = none) ∧
    ((table.after seq).find? (fun row => table.key row = k) = none → table.row? k = current os k) := by
  have before_once : ((table.rows.filter (fun row => table.seq row ≤ seq)).map table.key).Nodup :=
    List.Nodup.sublist (filter_sublist.map _) table.distinct
  constructor
  · intro row found
    obtain ⟨there, key⟩ := (find_once (after_once seq)).1 found
    obtain ⟨there, later⟩ := mem_after.1 there
    refine ⟨(find_once table.distinct).2 ⟨there, key⟩, ?_⟩
    rw [behind k, find?_eq_none]
    intro row' there' same
    have earlier := (mem_filter.1 there').2
    rw [decide_eq_true_iff] at same earlier
    rw [seq_of_key (same.trans key.symm)] at earlier
    omega
  · intro none_
    rw [behind k]
    refine Option.ext fun row => ?_
    rw [Table.row?, find_once before_once, mem_filter, decide_eq_true_iff]
    refine (find_once table.distinct).trans ⟨fun found => ⟨⟨found.1, ?_⟩, found.2⟩, fun found => ⟨found.1.1, found.2⟩⟩
    by_contra later
    rw [find?_eq_none] at none_
    exact none_ row (mem_after.2 ⟨found.1, by omega⟩) (decide_eq_true found.2)

theorem scanEvents_ok {x y : Scanned δ} (scanned : scanEvents sha stamp table index x = .ok y) :
    x.eventsSeq.getD 0 ≤ table.watermark ∧
      let s := (table.after (x.eventsSeq.getD 0)).foldl (Scan.row sha .events stamp table index)
        ⟨⟨[], 0, x.output⟩, x.changes, 0⟩
      y = ⟨s.batch.output ++ write .events stamp false s.batch.records, s.changes,
        if s.maxseq = 0 then x.eventsSeq else some s.maxseq⟩ := by
  rw [scanEvents] at scanned
  dsimp only at scanned
  by_cases rewound : table.watermark < x.eventsSeq.getD 0
  · rw [if_pos rewound] at scanned
    cases scanned
  · rw [if_neg rewound] at scanned
    exact ⟨not_lt.1 rewound, (Except.ok.inj scanned).symm⟩

/-- Events after the last that was observed. -/
theorem scanEvents_delta {x y : Scanned δ} (indexed : Indexed sha .events index os)
    (older : ∀ o ∈ os, o.revision < stamp.revision) (untouched : ∀ k, x.changes.lookup (.events, k) = none)
    (behind : Behind table (x.eventsSeq.getD 0) os) (scanned : scanEvents sha stamp table index x = .ok y) :
    Delta sha stamp .events table index os x y
      (differences sha .events table index stamp (table.after (x.eventsSeq.getD 0)) []) := by
  obtain ⟨-, rfl⟩ := scanEvents_ok scanned
  have once : ((table.after (x.eventsSeq.getD 0)).map table.key).Nodup := after_once _
  refine ⟨?_, differences_revision, fun k => ?_, fun k => ?_, fun t' k other => ?_⟩
  · rw [differences, map_nil, append_nil]
    exact (@rows_written δ _ sha .events stamp table index _ (table.after (x.eventsSeq.getD 0))
      ⟨⟨[], 0, x.output⟩, x.changes, 0⟩ _ Written.nil).write
  · rw [differences_current older once nodup_nil (by simp)]
    obtain ⟨later, earlier⟩ := behind.row k
    cases found : (table.after (x.eventsSeq.getD 0)).find? (fun row => decide (table.key row = k)) with
    | none =>
      rw [earlier found]
      simp
    | some row =>
      obtain ⟨there, new⟩ := later row found
      have unknown := indexed k
      rw [new] at unknown
      rw [there, unknown]
      simp
  · refine (congrArg (fun c => Option.getD c (index.lookup (.events, k))) (rows_changes once _ .events k)).trans ?_
    rw [if_pos rfl, changed_found once, untouched]
    obtain ⟨later, earlier⟩ := behind.row k
    cases found : (table.after (x.eventsSeq.getD 0)).find? (fun row => decide (table.key row = k)) with
    | none =>
      rw [earlier found]
      exact indexed k
    | some row =>
      obtain ⟨there, new⟩ := later row found
      have unknown := indexed k
      rw [new] at unknown
      rw [there, unknown]
      simp
  · exact (rows_changes once _ t' k).trans (if_neg other)

/-- The number that a scan of the events leaves is that of the last. -/
theorem scanEvents_seq {x y : Scanned δ} (positive : ∀ row ∈ table.rows, 0 < table.seq row)
    (scanned : scanEvents sha stamp table index x = .ok y) :
    (∀ row ∈ table.rows, table.seq row ≤ y.eventsSeq.getD 0) ∧
      (y.eventsSeq.getD 0 ≤ 0 ∨ ∃ row ∈ table.rows, y.eventsSeq.getD 0 ≤ table.seq row) := by
  obtain ⟨rewound, rfl⟩ := scanEvents_ok scanned
  have same : ((table.after (x.eventsSeq.getD 0)).foldl (Scan.row sha .events stamp table index)
      ⟨⟨[], 0, x.output⟩, x.changes, 0⟩).maxseq =
        ((table.after (x.eventsSeq.getD 0)).map table.seq).foldl max 0 := rows_maxseq _
  obtain ⟨least, all, there⟩ := foldl_max_bounds ((table.after (x.eventsSeq.getD 0)).map table.seq) 0
  dsimp only
  rw [same]
  split_ifs with zero
  · constructor
    · intro row there
      by_contra later
      have greater := all _ (List.mem_map_of_mem (mem_after.2 ⟨there, not_le.1 later⟩))
      have above := positive row there
      omega
    · obtain ⟨-, -, reached⟩ := foldl_max_bounds (table.rows.map table.seq) 0
      rw [Table.watermark] at rewound
      rcases reached with none_ | reached
      · exact .inl (by omega)
      · obtain ⟨row, there, seq⟩ := List.mem_map.1 reached
        exact .inr ⟨row, there, by omega⟩
  · rw [getD_some]
    rcases there with none_ | there
    · exact absurd none_ zero
    · obtain ⟨last, there, seq⟩ := List.mem_map.1 there
      obtain ⟨there, later⟩ := mem_after.1 there
      refine ⟨fun row there => ?_, .inr ⟨last, there, by omega⟩⟩
      by_cases new : x.eventsSeq.getD 0 < table.seq row
      · exact all _ (List.mem_map_of_mem (mem_after.2 ⟨there, new⟩))
      · omega

end Publishing
