import Nanofil.Publishing.Deltas
import Nanofil.Publishing.Ranges

/-! A generation that is scanned is the delta between all that was observed and the source. -/
namespace Publishing
open List Observations

variable {δ : Type} [DecidableEq δ] {sha : Digests δ}

/-! ### The tables of a run -/

def recordsIn (parts : List Part) (t : TableName) : List Record :=
  (parts.filter (fun p => p.place = .table t)).flatMap (·.file.records)

theorem recordsIn_append (parts parts' : List Part) (t : TableName) :
    recordsIn (parts ++ parts') t = recordsIn parts t ++ recordsIn parts' t := by
  rw [recordsIn, filter_append, flatMap_append]
  rfl

variable {t : TableName}

theorem recordsIn_own {parts : List Part} (placed : ∀ p ∈ parts, p.place = .table t) :
    recordsIn parts t = parts.flatMap (·.file.records) := by
  rw [recordsIn, filter_eq_self.2 (fun p there => decide_eq_true (placed p there))]

theorem recordsIn_other {parts : List Part} (placed : ∀ p ∈ parts, p.place ≠ .table t) : recordsIn parts t = [] := by
  rw [recordsIn, filter_eq_nil_iff.2 (fun p there => by simpa using placed p there)]
  rfl

/-- What a scan of one table leaves, given what was observed of it. -/
structure TableScanned (sha : Digests δ) (stamp : Stamp) (t : TableName) (table : Table) (index : Index δ)
    (os : List (Observation Key Row)) (more : List Part) (y : Scanned δ) : Prop where
  revision : ∀ r ∈ recordsIn more t, r.revision = stamp.revision
  current : ∀ k, current (os ++ (recordsIn more t).map Record.observation) k = table.row? k
  changes : ∀ k, ((y.changes.lookup (t, k)).getD (index.lookup (t, k))) = (table.row? k).map sha.row

/-- The number of the last event of a table, unless there is none. -/
def LastSeq (table : Table) (seq : Int) : Prop :=
  (∀ row ∈ table.rows, table.seq row ≤ seq) ∧ (seq ≤ 0 ∨ ∃ row ∈ table.rows, seq ≤ table.seq row)

variable {stamp : Stamp} {source : Snapshot} {index : Index δ} {os : TableName → List (Observation Key Row)}

theorem scanTable_ok {x y : Scanned δ} (done : scanTable sha stamp source index x t = .ok y) :
    t = .events ∧ scanEvents sha stamp (source.table t) index x = .ok y ∨
      t ≠ .events ∧ y = scanRows sha t stamp (source.table t) index x := by
  rw [scanTable] at done
  split_ifs at done with keyless events
  · exact .inl ⟨events, done⟩
  · exact .inr ⟨events, (Except.ok.inj done).symm⟩

theorem scanTable_delta {x y : Scanned δ} (indexed : Indexed sha t index (os t))
    (older : ∀ o ∈ os t, o.revision < stamp.revision) (untouched : ∀ k, x.changes.lookup (t, k) = none)
    (behind : t = .events → Behind (source.table t) (x.eventsSeq.getD 0) (os t))
    (done : scanTable sha stamp source index x t = .ok y) :
    ∃ new, Delta sha stamp t (source.table t) index (os t) x y new := by
  rcases scanTable_ok done with ⟨rfl, scanned⟩ | ⟨-, rfl⟩
  · exact ⟨_, scanEvents_delta indexed older untouched (behind rfl) scanned⟩
  · exact ⟨_, scanRows_delta indexed older untouched⟩

theorem scanTable_seq {x y : Scanned δ} (done : scanTable sha stamp source index x t = .ok y) :
    (t ≠ .events → y.eventsSeq = x.eventsSeq) ∧
      (t = .events → (∀ row ∈ (source.table t).rows, 0 < (source.table t).seq row) →
        LastSeq (source.table t) (y.eventsSeq.getD 0)) := by
  rcases scanTable_ok done with ⟨rfl, scanned⟩ | ⟨other, rfl⟩
  · exact ⟨fun other => absurd rfl other, fun _ positive => scanEvents_seq positive scanned⟩
  · exact ⟨fun _ => rfl, fun same => absurd same other⟩

/-- The scans of some tables in turn. -/
theorem scanTables_delta {ts : List TableName} (once : ts.Nodup) {x y : Scanned δ}
    (indexed : ∀ t, Indexed sha t index (os t)) (older : ∀ t, ∀ o ∈ os t, o.revision < stamp.revision)
    (untouched : ∀ t ∈ ts, ∀ k, x.changes.lookup (t, k) = none)
    (behind : .events ∈ ts → Behind (source.table .events) (x.eventsSeq.getD 0) (os .events))
    (positive : ∀ row ∈ (source.table .events).rows, 0 < (source.table .events).seq row)
    (done : ts.foldlM (scanTable sha stamp source index) x = .ok y) :
    ∃ more, y.output = x.output ++ more ∧ (∀ p ∈ more, ∃ t ∈ ts, p.place = .table t) ∧
      (∀ t ∈ ts, TableScanned sha stamp t (source.table t) index (os t) more y) ∧
      (∀ t ∉ ts, ∀ k, y.changes.lookup (t, k) = x.changes.lookup (t, k)) ∧
      (.events ∉ ts → y.eventsSeq = x.eventsSeq) ∧ (.events ∈ ts → LastSeq (source.table .events) (y.eventsSeq.getD 0)) := by
  induction ts generalizing x with
  | nil =>
    cases done
    exact ⟨[], (append_nil _).symm, by simp, by simp, fun _ _ _ => rfl, fun _ => rfl, by simp⟩
  | cons t ts ih =>
    rw [nodup_cons] at once
    rw [foldlM_cons] at done
    cases first : scanTable sha stamp source index x t with
    | error e =>
      rw [first] at done
      cases done
    | ok x1 =>
      rw [first] at done
      obtain ⟨new, delta⟩ := scanTable_delta (indexed t) (older t) (untouched t mem_cons_self)
        (fun same => by subst same; exact behind mem_cons_self) first
      obtain ⟨other, seq⟩ := scanTable_seq first
      obtain ⟨more1, output1, placed1, holds1⟩ := delta.written
      rw [append_nil] at holds1
      obtain ⟨more2, output2, placed2, scanned2, others2, kept2, seq2⟩ := ih once.2
        (fun t' later k => by
          rw [delta.others t' k (fun same => once.1 (same ▸ later))]
          exact untouched t' (mem_cons_of_mem t later) k)
        (fun later => by
          rw [other (fun same => once.1 (same ▸ later))]
          exact behind (mem_cons_of_mem t later)) done
      have not_here : ∀ p ∈ more2, p.place ≠ .table t := by
        intro p there same
        obtain ⟨t', later, place⟩ := placed2 p there
        rw [same] at place
        cases place
        exact once.1 later
      refine ⟨more1 ++ more2, by rw [output2, output1, append_assoc], ?_, ?_, ?_, ?_, ?_⟩
      · intro p there
        rcases mem_append.1 there with there | there
        · exact ⟨t, mem_cons_self, placed1 p there⟩
        · obtain ⟨t', later, place⟩ := placed2 p there
          exact ⟨t', mem_cons_of_mem t later, place⟩
      · intro t' there
        by_cases here : t' = t
        · subst here
          have records : recordsIn (more1 ++ more2) t' = new := by
            rw [recordsIn_append, recordsIn_own placed1, recordsIn_other not_here, append_nil, holds1]
          exact ⟨by rw [records]; exact delta.revision, by rw [records]; exact delta.current,
            fun k => by rw [others2 t' once.1]; exact delta.changes k⟩
        · have later : t' ∈ ts := (mem_cons.1 there).resolve_left here
          have records : recordsIn (more1 ++ more2) t' = recordsIn more2 t' := by
            rw [recordsIn_append, recordsIn_other (fun p first => ?_), nil_append]
            rw [placed1 p first]
            exact fun same => here (Place.table.inj same).symm
          have scanned := scanned2 t' later
          exact ⟨by rw [records]; exact scanned.revision, by rw [records]; exact scanned.current, scanned.changes⟩
      · intro t' absent k
        rw [mem_cons, not_or] at absent
        rw [others2 t' absent.2, delta.others t' k absent.1]
      · intro absent
        rw [mem_cons, not_or] at absent
        rw [kept2 absent.2, other (Ne.symm absent.1)]
      · intro there
        by_cases later : TableName.events ∈ ts
        · exact seq2 later
        · have same : t = .events := ((mem_cons.1 there).resolve_right later).symm
          rw [kept2 later]
          subst same
          exact seq rfl positive

end Publishing
