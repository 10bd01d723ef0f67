import Nanofil.Publishing.Scans

/-! What a scan writes of a table, and what it leaves to be changed in the index. -/
namespace Publishing
open List Option Observations

variable {δ : Type} [DecidableEq δ]

/-- Files of a table that were added to an output, and what they hold with the batch of the next. -/
def Written (t : TableName) (before after : List Part) (rest rs : List Record) : Prop :=
  ∃ more, after = before ++ more ∧ (∀ p ∈ more, p.place = .table t) ∧
    more.flatMap (·.file.records) ++ rest = rs

theorem Written.nil {t : TableName} {output : List Part} : Written t output output [] [] :=
  ⟨[], (append_nil output).symm, by simp, rfl⟩

theorem Written.write {t : TableName} {stamp : Stamp} {deleted : Bool} {before after : List Part}
    {records : List (Key × Row)} {rs : List Record}
    (written : Written t before after (records.map (stamp.record deleted)) rs) :
    Written t before (after ++ Publishing.write t stamp deleted records) [] rs := by
  obtain ⟨more, rfl, placed, holds⟩ := written
  rw [Publishing.write]
  by_cases none_ : records = []
  · subst none_
    exact ⟨more, by simp, placed, holds⟩
  · refine ⟨more ++ [⟨.table t, .table (records.map (stamp.record deleted))⟩], ?_, ?_, ?_⟩
    · rw [if_neg none_, append_assoc]
    · intro p there
      rcases mem_append.1 there with there | there
      · exact placed p there
      · rw [mem_singleton.1 there]
    · rw [← holds]
      simp [File.records]

theorem Written.trans {t : TableName} {a b c : List Part} {rs rs' : List Record} (first : Written t a b [] rs)
    (next : Written t b c [] rs') : Written t a c [] (rs ++ rs') := by
  obtain ⟨more, rfl, placed, holds⟩ := first
  obtain ⟨more', rfl, placed', holds'⟩ := next
  rw [append_nil] at holds holds'
  refine ⟨more ++ more', by rw [append_assoc], ?_, by rw [append_nil, flatMap_append, holds, holds']⟩
  intro p there
  exact (mem_append.1 there).elim (placed p) (placed' p)

theorem Written.add {t : TableName} {stamp : Stamp} {before : List Part} {b : Batch} {rs : List Record}
    (written : Written t before b.output (b.records.map (stamp.record false)) rs) (r : Key × Row) (size : Nat) :
    Written t before (b.add t stamp r size).output ((b.add t stamp r size).records.map (stamp.record false))
      (rs ++ [stamp.record false r]) := by
  rw [Batch.add]
  split_ifs
  · obtain ⟨more, same, placed, holds⟩ := written.write
    exact ⟨more, same, placed, by rw [← holds]; simp⟩
  · obtain ⟨more, same, placed, holds⟩ := written
    exact ⟨more, same, placed, by rw [← holds]; simp⟩

/-! ### Rows -/

/-- The rows that differ from what the index says of them. -/
def changed (sha : Digests δ) (t : TableName) (table : Table) (index : Index δ) (rows : List Row) : List (Key × Row) :=
  (rows.filter (fun row => index.lookup (t, table.key row) ≠ some (sha.row row))).map (fun row => (table.key row, row))

variable {sha : Digests δ} {t : TableName} {stamp : Stamp} {table : Table} {index : Index δ}

theorem changed_same {row : Row} {rows : List Row} (same : index.lookup (t, table.key row) = some (sha.row row)) :
    changed sha t table index (row :: rows) = changed sha t table index rows := by
  rw [changed, filter_cons_of_neg (by simpa using same)]
  rfl

theorem changed_differs {row : Row} {rows : List Row} (differs : index.lookup (t, table.key row) ≠ some (sha.row row)) :
    changed sha t table index (row :: rows) = (table.key row, row) :: changed sha t table index rows := by
  rw [changed, filter_cons_of_pos (by simpa using differs)]
  rfl

omit [DecidableEq δ] in
theorem find_unseen {k : Key} {rows : List Row} (unseen : k ∉ rows.map table.key) :
    rows.find? (fun row => table.key row = k) = none := by
  rw [find?_eq_none]
  intro row there
  simp only [decide_eq_true_eq]
  exact fun same => unseen (List.mem_map.2 ⟨row, there, same⟩)

theorem changed_found {rows : List Row} (once : (rows.map table.key).Nodup) (k : Key) :
    (changed sha t table index rows).find? (fun r => r.1 = k) = (rows.find? (fun row => table.key row = k)).bind
      (fun row => if index.lookup (t, k) = some (sha.row row) then none else some (k, row)) := by
  induction rows with
  | nil => rfl
  | cons row rows ih =>
    rw [map_cons, nodup_cons] at once
    by_cases same : index.lookup (t, table.key row) = some (sha.row row)
    · rw [changed_same same]
      by_cases here : table.key row = k
      · have rest := ih once.2
        rw [find_unseen (here ▸ once.1)] at rest
        rw [find?_cons_of_pos (by simpa using here), rest, bind_some, ← here, if_pos same]
        rfl
      · rw [find?_cons_of_neg (by simpa using here)]
        exact ih once.2
    · rw [changed_differs same]
      by_cases here : table.key row = k
      · subst here
        rw [find?_cons_of_pos (by simp), find?_cons_of_pos (by simp), bind_some, if_neg same]
      · rw [find?_cons_of_neg (by simpa using here), find?_cons_of_neg (by simpa using here)]
        exact ih once.2

theorem rows_written {before : List Part} {rows : List Row} {s : Scan δ} {rs : List Record}
    (written : Written t before s.batch.output (s.batch.records.map (stamp.record false)) rs) :
    Written t before (rows.foldl (Scan.row sha t stamp table index) s).batch.output
      ((rows.foldl (Scan.row sha t stamp table index) s).batch.records.map (stamp.record false))
      (rs ++ (changed sha t table index rows).map (stamp.record false)) := by
  induction rows generalizing s rs with
  | nil => rwa [changed, filter_nil, map_nil, map_nil, append_nil]
  | cons row rows ih =>
    rw [foldl_cons]
    by_cases same : index.lookup (t, table.key row) = some (sha.row row)
    · rw [changed_same same]
      refine ih ?_
      rw [Scan.row]
      simp only [if_pos same]
      exact written
    · rw [changed_differs same, map_cons, append_cons]
      refine ih ?_
      rw [Scan.row]
      simp only [if_neg same]
      exact written.add _ _

theorem changed_keys {rows : List Row} (once : (rows.map table.key).Nodup) :
    ((changed sha t table index rows).map Prod.fst).Nodup := by
  rw [changed, List.map_map]
  exact once.sublist (filter_sublist.map _)

theorem rows_changes {rows : List Row} (once : (rows.map table.key).Nodup) (s : Scan δ) (t' : TableName) (k : Key) :
    (rows.foldl (Scan.row sha t stamp table index) s).changes.lookup (t', k) =
      if t' = t then match (changed sha t table index rows).find? (fun r => r.1 = k) with
        | some r => some (some (sha.row r.2))
        | none => s.changes.lookup (t', k)
      else s.changes.lookup (t', k) := by
  induction rows generalizing s with
  | nil => simp [changed]
  | cons row rows ih =>
    rw [map_cons, nodup_cons] at once
    rw [foldl_cons, ih once.2]
    by_cases same : index.lookup (t, table.key row) = some (sha.row row)
    · rw [changed_same same, Scan.row]
      simp only [if_pos same]
    · rw [changed_differs same, Scan.row]
      simp only [if_neg same]
      by_cases here : t' = t
      · subst here
        by_cases key : table.key row = k
        · subst key
          have absent : (changed sha t' table index rows).find? (fun r => r.1 = table.key row) = none := by
            rw [changed_found once.2, find_unseen once.1]
            rfl
          rw [absent, find?_cons_of_pos (by simp)]
          simp
        · rw [find?_cons_of_neg (by simpa using key)]
          simp [Ne.symm key]
      · simp [here]

theorem rows_maxseq {rows : List Row} (s : Scan δ) :
    (rows.foldl (Scan.row sha .events stamp table index) s).maxseq = (rows.map table.seq).foldl max s.maxseq := by
  induction rows generalizing s with
  | nil => rfl
  | cons row rows ih =>
    rw [foldl_cons, ih, map_cons, foldl_cons, Scan.row]
    simp only
    split_ifs <;> rfl

/-! ### Rows that are gone -/

omit [DecidableEq δ] in
theorem gone_written {before : List Part} {ks : List Key} {s : Scan δ} {rs : List Record}
    (written : Written t before s.batch.output (s.batch.records.map (stamp.record true)) rs) :
    Written t before (ks.foldl (Scan.gone t stamp table) s).batch.output
      ((ks.foldl (Scan.gone t stamp table) s).batch.records.map (stamp.record true))
      (rs ++ ks.map (fun k => stamp.record true (k, tombstone table k))) := by
  induction ks generalizing s rs with
  | nil => rwa [map_nil, append_nil]
  | cons k ks ih =>
    rw [foldl_cons, map_cons, append_cons]
    refine ih ?_
    obtain ⟨more, same, placed, holds⟩ := written
    have added : Written t before s.batch.output
        ((s.batch.records ++ [(k, tombstone table k)]).map (stamp.record true))
        (rs ++ [stamp.record true (k, tombstone table k)]) := ⟨more, same, placed, by rw [← holds]; simp⟩
    rw [Scan.gone]
    split_ifs
    · exact added.write
    · exact added

omit [DecidableEq δ] in
theorem gone_changes (ks : List Key) (s : Scan δ) (t' : TableName) (k : Key) :
    (ks.foldl (Scan.gone t stamp table) s).changes.lookup (t', k) =
      if t' = t ∧ k ∈ ks then some none else s.changes.lookup (t', k) := by
  induction ks generalizing s with
  | nil => simp
  | cons k' ks ih =>
    have step : (Scan.gone t stamp table s k').changes = s.changes.insert (t, k') none := by
      rw [Scan.gone]
      split_ifs <;> rfl
    rw [foldl_cons, ih, step]
    by_cases here : t' = t ∧ k ∈ ks
    · rw [if_pos here, if_pos ⟨here.1, mem_cons_of_mem _ here.2⟩]
    · rw [if_neg here]
      by_cases key : t' = t ∧ k = k'
      · obtain ⟨rfl, rfl⟩ := key
        simp
      · rw [AList.lookup_insert_ne (fun same => key ⟨congrArg Prod.fst same, congrArg Prod.snd same⟩), if_neg]
        rintro ⟨same, there⟩
        rcases mem_cons.1 there with there | there
        · exact key ⟨same, there⟩
        · exact here ⟨same, there⟩

omit [DecidableEq δ] in
theorem mem_gone {k : Key} : k ∈ gone t table index ↔ (index.lookup (t, k)).isSome ∧ table.row? k = none := by
  rw [gone, List.mem_map, AList.lookup_isSome, AList.mem_keys, Table.row?, find?_eq_none]
  constructor
  · rintro ⟨⟨t', k'⟩, there, rfl⟩
    simp only [mem_filter, Bool.and_eq_true, decide_eq_true_eq, Bool.not_eq_true', contains_eq_mem,
      decide_eq_false_iff_not, List.mem_map, not_exists, not_and] at there
    obtain ⟨known, rfl, unseen⟩ := there
    exact ⟨known, by simpa using unseen⟩
  · rintro ⟨known, unseen⟩
    refine ⟨(t, k), mem_filter.2 ⟨known, ?_⟩, rfl⟩
    simpa using unseen

omit [DecidableEq δ] in
theorem gone_once : (gone t table index).Nodup := by
  rw [gone]
  refine List.Nodup.map_on ?_ (index.keys_nodup.filter _)
  intro x there y there' same
  simp only [mem_filter, Bool.and_eq_true, decide_eq_true_eq] at there there'
  exact Prod.ext (there.2.1.trans there'.2.1.symm) same

end Publishing
