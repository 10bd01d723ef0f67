import Nanofil.Publishing.Scans

/-! The records of a captured stream are its file's bytes, range after range. -/
namespace Publishing
open List Option

def bytesOf (rs : List LogRecord) : List Nat := rs.flatMap (·.raw)

/-- Ranges of bytes from an offset on, with no gap between them and no overlap. -/
def Consecutive : Nat → List LogRecord → Prop
  | _, [] => True
  | n, r :: rs => r.start = n ∧ r.stop = n + r.raw.length ∧ Consecutive r.stop rs

/-- An offset of a file that is not inside a line without an end. -/
def Whole (file : List Nat) (n : Nat) : Prop := n = 0 ∨ ∃ i, n ≤ i + 1 ∧ file[i]? = some newline

@[simp] theorem bytesOf_nil : bytesOf [] = [] := rfl

@[simp] theorem bytesOf_append (rs rs' : List LogRecord) : bytesOf (rs ++ rs') = bytesOf rs ++ bytesOf rs' :=
  flatMap_append

theorem consecutive_append (n : Nat) (rs rs' : List LogRecord) :
    Consecutive n (rs ++ rs') ↔ Consecutive n rs ∧ Consecutive (n + (bytesOf rs).length) rs' := by
  induction rs generalizing n with
  | nil => simp [Consecutive]
  | cons r rs ih =>
    rw [cons_append, Consecutive, Consecutive, ih]
    have lengths : (bytesOf (r :: rs)).length = r.raw.length + (bytesOf rs).length := by simp [bytesOf]
    rw [lengths]
    constructor
    · rintro ⟨start, stop, first, next⟩
      exact ⟨⟨start, stop, first⟩, by rwa [stop, Nat.add_assoc] at next⟩
    · rintro ⟨⟨start, stop, first⟩, next⟩
      exact ⟨start, stop, first, by rwa [stop, Nat.add_assoc]⟩

/-! ### Lines -/

theorem readline_begins (bs : List Nat) (n : Nat) : readline bs n <+: bs := by
  induction bs generalizing n with
  | nil => exact prefix_refl []
  | cons b bs ih =>
    cases n with
    | zero => exact nil_prefix
    | succ n =>
      rw [readline]
      split_ifs
      · exact ⟨bs, rfl⟩
      · exact prefix_cons_inj b |>.2 (ih n)

/-- The last byte of what is read at an offset is the file's. -/
theorem prefix_last {file raw : List Nat} {pos : Nat} (read : raw <+: file.drop pos) (ends : complete raw = true) :
    file[pos + raw.length - 1]? = some newline ∧ 0 < raw.length := by
  rw [complete, decide_eq_true_iff] at ends
  have some_ : 0 < raw.length := by
    rcases Nat.eq_zero_or_pos raw.length with none_ | some_
    · rw [eq_nil_of_length_eq_zero none_] at ends
      cases ends
    · exact some_
  obtain ⟨rest, same⟩ := read
  rw [getLast?_eq_getElem?] at ends
  have there : (file.drop pos)[raw.length - 1]? = some newline := by
    rw [← same, getElem?_append_left (by omega)]
    exact ends
  rw [getElem?_drop] at there
  exact ⟨by rw [← there]; congr 1; omega, some_⟩

theorem lineEnd_newline {file : List Nat} {limit n scan stop : Nat} (found : lineEnd file limit n scan = some stop) :
    scan < stop ∧ file[stop - 1]? = some newline := by
  induction n generalizing scan with
  | zero => cases found
  | succ n ih =>
    rw [lineEnd] at found
    by_cases more : scan < limit
    · rw [if_pos more] at found
      by_cases none_ : readline (file.drop scan) (min FRAGMENT (limit - scan)) = []
      · rw [if_pos none_] at found
        cases found
      · rw [if_neg none_] at found
        by_cases ends : complete (readline (file.drop scan) (min FRAGMENT (limit - scan))) = true
        · rw [if_pos ends] at found
          cases found
          have last := prefix_last (readline_begins (file.drop scan) (min FRAGMENT (limit - scan))) ends
          exact ⟨by omega, last.1⟩
        · rw [if_neg ends] at found
          have later := ih found
          exact ⟨by omega, later.2⟩
    · rw [if_neg more] at found
      cases found

/-! ### One file -/

/-- What has been read of a file from an offset on. -/
structure Reads (a : AttemptRow) (stream : Stream) (file : List Nat) (start : Nat) (rs : List LogRecord)
    (pos : Nat) : Prop where
  consecutive : Consecutive start rs
  bytes : bytesOf rs = (file.drop start).take (pos - start)
  within : start ≤ pos ∧ pos ≤ file.length
  whose : ∀ x ∈ rs, x.attempt = a.id ∧ x.stream = stream
  whole : a.live = true → pos = start ∨ Whole file pos

/-- The records of a reading: those in its files, and its batch. -/
structure Progress (a : AttemptRow) (stream : Stream) (file : List Nat) (start : Nat) (before : List Part)
    (r : Reading) (more : List Part) : Prop where
  output : r.output = before ++ more
  placed : ∀ p ∈ more, p.place = .logs a.id stream
  reads : Reads a stream file start (more.flatMap (·.file.logRecords) ++ r.records) r.pos
  lineEnd : r.lineEnd = 0 ∨ file[r.lineEnd - 1]? = some newline

variable {x : Captured}

section
variable {stamp : Stamp} {a : AttemptRow} {stream : Stream} {file : List Nat} {start : Nat} {before : List Part}

theorem take_more {bs raw : List Nat} {n : Nat} (read : raw <+: bs.drop n) :
    bs.take (n + raw.length) = bs.take n ++ raw := by
  obtain ⟨rest, same⟩ := read
  rw [take_add, ← same, take_left]

/-- A record more. -/
theorem Reads.add {rs : List LogRecord} {pos : Nat} (reads : Reads a stream file start rs pos) {raw : List Nat}
    (read : raw <+: file.drop pos) (whole : a.live = true → Whole file (pos + raw.length)) (x : LogRecord)
    (range : x.start = pos ∧ x.stop = pos + raw.length ∧ x.raw = raw) (whose : x.attempt = a.id ∧ x.stream = stream) :
    Reads a stream file start (rs ++ [x]) (pos + raw.length) := by
  obtain ⟨starts, stops, rfl⟩ := range
  obtain ⟨low, high⟩ := reads.within
  have length : (bytesOf rs).length = pos - start := by
    rw [reads.bytes, length_take, length_drop]
    omega
  have fits : x.raw.length ≤ file.length - pos := by
    have shorter := read.length_le
    rwa [length_drop] at shorter
  refine ⟨?_, ?_, ⟨by omega, by omega⟩, ?_, fun live => .inr (whole live)⟩
  · rw [consecutive_append, length]
    exact ⟨reads.consecutive, by rw [starts]; omega, by rw [stops]; omega, trivial⟩
  · have onward : x.raw <+: (file.drop start).drop (pos - start) := by
      rwa [drop_drop, show start + (pos - start) = pos by omega]
    rw [bytesOf_append, reads.bytes, show pos + x.raw.length - start = (pos - start) + x.raw.length by omega, take_more onward]
    simp [bytesOf]
  · intro y there
    rcases mem_append.1 there with there | there
    · exact reads.whose y there
    · rw [mem_singleton.1 there]
      exact whose

variable {r : Reading}

theorem committed_whole {limit : Nat} {raw : List Nat} {stop : Nat} (some_ : raw ≠ [])
    (line : r.lineEnd = 0 ∨ file[r.lineEnd - 1]? = some newline) (read : raw <+: file.drop r.pos)
    (committed : r.committed a file limit raw = some stop) :
    (stop = 0 ∨ file[stop - 1]? = some newline) ∧ (a.live = true → Whole file (r.pos + raw.length)) := by
  have longer : 0 < raw.length := length_pos_iff.2 some_
  rw [Reading.committed] at committed
  split_ifs at committed with probes
  · obtain ⟨later, ends⟩ := lineEnd_newline committed
    exact ⟨.inr ends, fun _ => .inr ⟨stop - 1, by omega, ends⟩⟩
  · cases committed
    refine ⟨line, fun live => .inr ?_⟩
    by_cases ends : complete raw = true
    · exact ⟨r.pos + raw.length - 1, by omega, (prefix_last read ends).1⟩
    · have before : r.pos + raw.length ≤ r.lineEnd := by
        simpa [live, ends] using probes
      rcases line with zero | ends
      · omega
      · exact ⟨r.lineEnd - 1, by omega, ends⟩

theorem add_full {stop : Nat} {x : LogRecord}
    (full : r.records ≠ [] ∧ (BATCH ≤ r.records.length ∨ PART_BYTES < r.bytes + x.raw.length)) :
    r.add a stream stop x = ⟨x.stop, r.processed + x.raw.length, stop, [x], x.raw.length,
      r.output ++ logPart a stream r.records⟩ := by
  simp only [Reading.add, if_pos full]

theorem add_room {stop : Nat} {x : LogRecord}
    (room : ¬(r.records ≠ [] ∧ (BATCH ≤ r.records.length ∨ PART_BYTES < r.bytes + x.raw.length))) :
    r.add a stream stop x = ⟨x.stop, r.processed + x.raw.length, stop, r.records ++ [x], r.bytes + x.raw.length, r.output⟩ := by
  simp only [Reading.add, if_neg room]

theorem Progress.add {more : List Part} (progress : Progress a stream file start before r more)
    {limit : Nat} {raw : List Nat} {stop : Nat} (some_ : raw ≠ []) (read : raw <+: file.drop r.pos)
    (committed : r.committed a file limit raw = some stop) (x : LogRecord)
    (range : x.start = r.pos ∧ x.stop = r.pos + raw.length ∧ x.raw = raw) (whose : x.attempt = a.id ∧ x.stream = stream) :
    ∃ more', Progress a stream file start before (r.add a stream stop x) more' := by
  obtain ⟨line, whole⟩ := committed_whole some_ progress.lineEnd read committed
  have reads := progress.reads.add read whole x range whose
  rw [append_assoc] at reads
  by_cases full : r.records ≠ [] ∧ (BATCH ≤ r.records.length ∨ PART_BYTES < r.bytes + x.raw.length)
  · rw [add_full full]
    refine ⟨more ++ logPart a stream r.records, ?_, ?_, ?_, line⟩
    · rw [progress.output, append_assoc]
    · intro p there
      rcases mem_append.1 there with there | there
      · exact progress.placed p there
      · rw [mem_singleton.1 there]
    · have same : (more ++ logPart a stream r.records).flatMap (·.file.logRecords) =
          more.flatMap (·.file.logRecords) ++ r.records := by simp [logPart, File.logRecords]
      rw [same, append_assoc, range.2.1]
      exact reads
  · rw [add_room full]
    exact ⟨more, progress.output, progress.placed, by rw [range.2.1]; exact reads, line⟩

theorem Progress.loop {limit budget n : Nat} {r : Reading} {more : List Part}
    (progress : Progress a stream file start before r more) :
    ∃ more', Progress a stream file start before (Reading.loop stamp a stream file limit budget n r) more' := by
  induction n generalizing r more with
  | zero => exact ⟨more, progress⟩
  | succ n ih =>
    rw [Reading.loop]
    dsimp only
    split_ifs with goes none_
    · exact ⟨more, progress⟩
    · split
      · exact ⟨more, progress⟩
      · rename_i stop committed
        obtain ⟨more', next⟩ := progress.add none_ (readline_begins _ _) committed
          ⟨a.id, a.campaign, stream, r.pos, r.pos + _, _, _, stamp.revision, stamp.observedAt⟩ ⟨rfl, rfl, rfl⟩ ⟨rfl, rfl⟩
        exact ih next
    · exact ⟨more, progress⟩

/-- A file from where it was left. -/
theorem capture_reads (stamp : Stamp) (budget : Nat) (left : (x.cursors.lookup (a.id, stream)).getD 0 ≤ file.length) :
    ∃ more, (capture stamp budget a stream file x).output = x.output ++ more ∧ (∀ p ∈ more, p.place = .logs a.id stream) ∧
      ∃ pos, (capture stamp budget a stream file x).cursors = x.cursors.insert (a.id, stream) pos ∧
        Reads a stream file ((x.cursors.lookup (a.id, stream)).getD 0) (more.flatMap (·.file.logRecords)) pos := by
  have begins : Progress a stream file ((x.cursors.lookup (a.id, stream)).getD 0) x.output
      ⟨(x.cursors.lookup (a.id, stream)).getD 0, x.processed, 0, [], 0, x.output⟩ [] := by
    refine ⟨(append_nil _).symm, by simp, ⟨trivial, ?_, ⟨le_refl _, left⟩, by simp, fun _ => .inl rfl⟩, .inl rfl⟩
    simp
  obtain ⟨more, ends⟩ := @Progress.loop stamp a stream file ((x.cursors.lookup (a.id, stream)).getD 0) x.output
    (limitOf a stream file) budget (limitOf a stream file - (x.cursors.lookup (a.id, stream)).getD 0) _ _ begins
  rw [capture]
  dsimp only
  split_ifs with none_
  · refine ⟨more, ends.output, ends.placed, _, rfl, ?_⟩
    have reads := ends.reads
    rwa [none_, append_nil] at reads
  · refine ⟨more ++ logPart a stream _, by rw [ends.output, append_assoc], ?_, _, rfl, ?_⟩
    · intro p there
      rcases mem_append.1 there with there | there
      · exact ends.placed p there
      · rw [mem_singleton.1 there]
    · have reads := ends.reads
      simpa [logPart, File.logRecords] using reads

end

/-! The streams of all attempts, as one run captures them and as files grow. -/

def logsOf (attempt : String) (stream : Stream) (rs : List LogRecord) : List LogRecord :=
  rs.filter (fun x => x.attempt = attempt && x.stream = stream)

/-- The records of every stream are its file's bytes up to its cursor, which is not inside a line
without an end while no row says that the attempt has ended. -/
structure Streamed (files : String → Stream → Option (List Nat)) (attempts : List AttemptRow)
    (rs : String → Stream → List LogRecord) (cursors : Cursors) : Prop where
  consecutive : ∀ attempt stream, Consecutive 0 (rs attempt stream)
  bytes : ∀ attempt stream, bytesOf (rs attempt stream) =
    ((files attempt stream).getD []).take ((cursors.lookup (attempt, stream)).getD 0)
  within : ∀ attempt stream, (cursors.lookup (attempt, stream)).getD 0 ≤ ((files attempt stream).getD []).length
  whole : ∀ attempt stream, (∀ a ∈ attempts, a.id = attempt → a.live = true) →
    Whole ((files attempt stream).getD []) ((cursors.lookup (attempt, stream)).getD 0)

variable {files : String → Stream → Option (List Nat)} {attempts : List AttemptRow}
  {rs : String → Stream → List LogRecord} {cursors : Cursors}

theorem Streamed.start : Streamed files attempts (fun _ _ => []) ∅ :=
  ⟨fun _ _ => trivial, fun _ _ => by simp, fun _ _ => Nat.zero_le _, fun _ _ _ => .inl rfl⟩

theorem logsOf_append (attempt : String) (stream : Stream) (rs rs' : List LogRecord) :
    logsOf attempt stream (rs ++ rs') = logsOf attempt stream rs ++ logsOf attempt stream rs' := filter_append ..

theorem logsOf_own {attempt : String} {stream : Stream} {rs : List LogRecord}
    (whose : ∀ x ∈ rs, x.attempt = attempt ∧ x.stream = stream) : logsOf attempt stream rs = rs :=
  filter_eq_self.2 (fun x there => by simpa using whose x there)

theorem logsOf_other {attempt attempt' : String} {stream stream' : Stream} {rs : List LogRecord}
    (whose : ∀ x ∈ rs, x.attempt = attempt ∧ x.stream = stream) (other : ¬(attempt', stream') = (attempt, stream)) :
    logsOf attempt' stream' rs = [] := by
  rw [logsOf, filter_eq_nil_iff]
  intro x there same
  obtain ⟨rfl, rfl⟩ := whose x there
  simp only [Bool.and_eq_true, decide_eq_true_eq] at same
  exact other (by rw [same.1, same.2])

/-- One stream of an attempt. -/
theorem Streamed.capture {a : AttemptRow} {stream : Stream} {file : List Nat}
    (streamed : Streamed files attempts rs x.cursors) (stamp : Stamp) (budget : Nat) (row : a ∈ attempts)
    (there : files a.id stream = some file) :
    ∃ more, (Publishing.capture stamp budget a stream file x).output = x.output ++ more ∧ (∀ p ∈ more, p.place.isLogs = true) ∧
      Streamed files attempts (fun attempt stream => rs attempt stream ++
        logsOf attempt stream (more.flatMap (·.file.logRecords))) (Publishing.capture stamp budget a stream file x).cursors := by
  have left := streamed.within a.id stream
  rw [there, getD_some] at left
  obtain ⟨more, output, placed, pos, moved, reads⟩ := capture_reads stamp budget left
  obtain ⟨low, high⟩ := reads.within
  have bytes := streamed.bytes a.id stream
  rw [there, getD_some] at bytes
  refine ⟨more, output, fun p new => by rw [placed p new]; rfl, ?_⟩
  rw [moved]
  constructor
  · intro attempt stream'
    by_cases here : (attempt, stream') = (a.id, stream)
    · cases here
      rw [logsOf_own reads.whose, consecutive_append, bytes, length_take, Nat.min_eq_left left, Nat.zero_add]
      exact ⟨streamed.consecutive a.id stream, reads.consecutive⟩
    · rw [logsOf_other reads.whose here, append_nil]
      exact streamed.consecutive attempt stream'
  · intro attempt stream'
    by_cases here : (attempt, stream') = (a.id, stream)
    · cases here
      rw [logsOf_own reads.whose, bytesOf_append, bytes, reads.bytes, AList.lookup_insert, there, getD_some,
        getD_some, ← take_add, Nat.add_sub_cancel' low]
    · rw [logsOf_other reads.whose here, append_nil, AList.lookup_insert_ne here]
      exact streamed.bytes attempt stream'
  · intro attempt stream'
    by_cases here : (attempt, stream') = (a.id, stream)
    · cases here
      rw [AList.lookup_insert, there]
      exact high
    · rw [AList.lookup_insert_ne here]
      exact streamed.within attempt stream'
  · intro attempt stream' running
    by_cases here : (attempt, stream') = (a.id, stream)
    · cases here
      have whole := streamed.whole a.id stream running
      rw [there, getD_some] at whole
      rw [AList.lookup_insert, there, getD_some, getD_some]
      rcases reads.whole (running a row rfl) with same | whole'
      · rw [same]
        exact whole
      · exact whole'
    · rw [AList.lookup_insert_ne here]
      exact streamed.whole attempt stream' running

theorem Streamed.captureAll {stamp : Stamp} {budget : Nat} {turns : List (AttemptRow × Stream)} {y : Captured}
    (streamed : Streamed files attempts rs x.cursors) (rows : ∀ turn ∈ turns, turn.1 ∈ attempts)
    (done : Publishing.captureAll stamp budget files turns x = .ok y) :
    ∃ more, y.output = x.output ++ more ∧ (∀ p ∈ more, p.place.isLogs = true) ∧
      Streamed files attempts (fun attempt stream => rs attempt stream ++
        logsOf attempt stream (more.flatMap (·.file.logRecords))) y.cursors := by
  have nothing : ∀ {z : Captured}, Streamed files attempts rs z.cursors → ∃ more, z.output = z.output ++ more ∧
      (∀ p ∈ more, p.place.isLogs = true) ∧ Streamed files attempts (fun attempt stream => rs attempt stream ++
        logsOf attempt stream (more.flatMap (·.file.logRecords))) z.cursors :=
    fun kept => ⟨[], (append_nil _).symm, by simp, by simpa [logsOf] using kept⟩
  induction turns generalizing x rs with
  | nil =>
    cases done
    exact nothing streamed
  | cons turn turns ih =>
    obtain ⟨a, stream⟩ := turn
    have rest : ∀ turn ∈ turns, turn.1 ∈ attempts := fun turn later => rows turn (mem_cons_of_mem _ later)
    rw [Publishing.captureAll] at done
    cases there : files a.id stream with
    | none =>
      rw [there] at done
      exact ih streamed rest done nothing
    | some file =>
      rw [there] at done
      dsimp only at done
      split_ifs at done with shrank spent
      · cases done
        exact streamed.capture stamp budget (rows _ mem_cons_self) there
      · obtain ⟨more, output, placed, next⟩ := streamed.capture stamp budget (rows _ mem_cons_self) there
        obtain ⟨more', output', placed', ends⟩ := ih next rest done
          (fun kept => ⟨[], (append_nil _).symm, by simp, by simpa [logsOf] using kept⟩)
        refine ⟨more ++ more', by rw [output', output, append_assoc], ?_, ?_⟩
        · intro p new
          exact (mem_append.1 new).elim (placed p) (placed' p)
        · simpa only [flatMap_append, logsOf_append, append_assoc] using ends

theorem Streamed.logs {stamp : Stamp} {budget : Nat} {y : Captured} (streamed : Streamed files attempts rs x.cursors)
    (done : Publishing.logs stamp budget files attempts x = .ok y) :
    ∃ more, y.output = x.output ++ more ∧ (∀ p ∈ more, p.place.isLogs = true) ∧
      Streamed files attempts (fun attempt stream => rs attempt stream ++
        logsOf attempt stream (more.flatMap (·.file.logRecords))) y.cursors := by
  refine streamed.captureAll ?_ done
  intro turn there
  obtain ⟨a, sorted, there⟩ := mem_flatMap.1 there
  have row : a ∈ attempts := (mem_insertionSort _).1 sorted
  simp only [mem_cons, not_mem_nil, or_false] at there
  rcases there with rfl | rfl <;> exact row

/-- Files that only grow. -/
def Grown (files files' : String → Stream → Option (List Nat)) : Prop :=
  ∀ attempt stream file, files attempt stream = some file → ∃ more, files' attempt stream = some (file ++ more)

/-- An attempt that has ended stays so. -/
def StayEnded (attempts attempts' : List AttemptRow) : Prop :=
  ∀ a ∈ attempts, a.live = false → ∃ a' ∈ attempts', a'.id = a.id ∧ a'.live = false

theorem Grown.begins {files' : String → Stream → Option (List Nat)} (grown : Grown files files') (attempt : String)
    (stream : Stream) : (files attempt stream).getD [] <+: (files' attempt stream).getD [] := by
  cases there : files attempt stream with
  | none => exact nil_prefix
  | some file =>
    obtain ⟨more, there'⟩ := grown attempt stream file there
    rw [there']
    exact prefix_append file more

theorem Streamed.grow {files' : String → Stream → Option (List Nat)} {attempts' : List AttemptRow}
    (streamed : Streamed files attempts rs cursors) (grown : Grown files files') (ended : StayEnded attempts attempts') :
    Streamed files' attempts' rs cursors := by
  refine ⟨streamed.consecutive, fun attempt stream => ?_, fun attempt stream => ?_, fun attempt stream running => ?_⟩
  · obtain ⟨more, same⟩ := grown.begins attempt stream
    rw [streamed.bytes, ← same, take_append_of_le_length (streamed.within attempt stream)]
  · exact le_trans (streamed.within attempt stream) (grown.begins attempt stream).length_le
  · have before : ∀ a ∈ attempts, a.id = attempt → a.live = true := by
      intro a there same
      by_contra ends
      obtain ⟨a', there', same', ends'⟩ := ended a there (by simpa using ends)
      rw [running a' there' (same'.trans same)] at ends'
      cases ends'
    rcases streamed.whole attempt stream before with zero | ⟨i, later, ends⟩
    · exact .inl zero
    · obtain ⟨more, same⟩ := grown.begins attempt stream
      refine .inr ⟨i, later, ?_⟩
      rw [← same, getElem?_append_left (List.getElem?_eq_some_iff.1 ends).1]
      exact ends

end Publishing
