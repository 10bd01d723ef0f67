import Nanofil.Logs.Capture
import Mathlib.Data.List.Infix

/-! `Controller.ingest`: a growing log is observed line by line, by rows of its attempt that may be old. -/
namespace Experiment.Logs
open List Lines

def carriage : UInt8 := 13

def chunk : Nat := 4194304

/-- `bytes.splitlines`: at `\n`, `\r` and `\r\n`. -/
def splitlines : Bytes → List Bytes
  | [] => []
  | x :: xs =>
    if x = carriage ∧ xs.head? = some newline then splitlines xs
    else if x = newline ∨ x = carriage then [] :: splitlines xs
    else
      match splitlines xs with
      | [] => [[x]]
      | l :: ls => (x :: l) :: ls

/-- Where a scan for the end of a line stops, and whether it is there. -/
def scan (file : Bytes) : Nat → Nat → Nat × Bool
  | 0, pos => (pos, false)
  | fuel + 1, pos =>
    let fragment := readline newline maxLine (file.drop pos)
    if ended newline fragment then (pos + fragment.length, true)
    else if fragment = [] then (pos, false)
    else scan file fuel (pos + fragment.length)

/-- What an attempt's row and its events hold: how far its log is read, the lines that `nix.observe` got, the lines that the
update moved over, and those that an event tells of. -/
structure Intake where
  offset : Nat
  observed : List Bytes
  skipped : List (Nat × Nat)
  events : List (Nat × Nat)
deriving DecidableEq, Repr

/-- A row reads the log; `later` is the log at the end of a scan, and `exits` whether there is an exit after that. -/
structure Reading where
  row : Nat
  log : Bytes
  later : Bytes
  exits : Bool
deriving DecidableEq, Repr

def Reading.data (r : Reading) : Bytes := (r.log.drop r.row).take chunk

/-- A chunk in which no line ends. -/
def Reading.full (r : Reading) : Bool := lastEnd newline r.data = 0 && r.data.length = chunk

def Reading.scanned (r : Reading) : Nat × Bool := scan r.later (r.later.length + 1) r.row

def Intake.ingest (a : Intake) (r : Reading) : Intake :=
  let end_ := lastEnd newline r.data
  if r.full then
    let (pos, found) := r.scanned
    if !found && !r.exits then a
    else
      let line := (r.row, pos - r.row)
      if a.offset = r.row then { a with offset := pos, skipped := a.skipped ++ [line], events := a.events ++ [line] }
      else { a with events := a.events ++ [line] }
  else if end_ = 0 ∨ a.offset ≠ r.row then a
  else { a with offset := a.offset + end_, observed := a.observed ++ splitlines (r.data.take end_) }

/-! ### A run -/

/-- The log, whether the worker has left its exit, the row, the offsets that rows were read with, and whether the attempt is
finished. -/
structure State where
  log : Bytes
  exited : Bool
  intake : Intake
  rows : List Nat
  finished : Bool
deriving DecidableEq, Repr

def State.initial : State := ⟨[], false, ⟨0, [], [], []⟩, [0], false⟩

inductive Action
  | write (data : Bytes)
  | exit
  | ingest (r : Reading)
  | finish
deriving DecidableEq, Repr

/-- How `reconcile` drains the log once there is an exit. -/
def State.drain (s : State) : Reading := ⟨s.intake.offset, s.log, s.log, true⟩

/-- A reading may have begun long ago; the attempt is finished once a chunk holds the rest of its log. -/
def State.Enabled (s : State) : Action → Prop
  | .write _ => s.exited = false
  | .exit => True
  | .ingest r => r.row ∈ s.rows ∧ r.log <+: r.later ∧ r.later <+: s.log ∧ (r.exits = true → s.exited = true)
  | .finish => s.exited = true ∧ s.log.length - s.intake.offset ≤ chunk

/-- Another row of the attempt, which later readings may have. -/
def State.set (s : State) (a : Intake) : State := { s with intake := a, rows := a.offset :: s.rows }

def State.take (s : State) (r : Reading) : State := s.set (s.intake.ingest r)

def State.next (s : State) : Action → State
  | .write data => { s with log := s.log ++ data }
  | .exit => { s with exited := true }
  | .ingest r => s.take r
  | .finish => { s.take s.drain with finished := true }

def State.Runs : State → List Action → Prop
  | _, [] => True
  | s, a :: as => s.Enabled a ∧ (s.next a).Runs as

def State.run : State → List Action → State
  | s, [] => s
  | s, a :: as => (s.next a).run as

/-! ### What is ingested -/

/-- A line without its end. -/
def content (l : Bytes) : Bytes := if l.dropLast.getLast? = some carriage then l.dropLast.dropLast else l.dropLast

/-- A line that no chunk holds. -/
def long (l : Bytes) : Bool := if ended newline l then chunk < l.length else chunk ≤ l.length

def longLines (log : Bytes) : List (Nat × Nat) :=
  ((numbered 0 (lines newline log)).filter fun line => long line.2).map fun line => (line.1, line.2.length)

def shortLines (log : Bytes) : List Bytes := ((lines newline log).filter fun l => !long l).map content

/-- The log is read up to a place between two lines, or to its end: all complete lines that a chunk holds are observed, in
their order and each once; the others are skipped, each once and whole. Nothing is left to read in a finished attempt but a
line that is not complete. -/
structure State.Ingested (s : State) (done rest : Bytes) : Prop where
  split : s.log = done ++ rest
  reached : s.intake.offset = done.length
  whole : ∀ l ∈ lines newline done, long l = false → ended newline l = true
  place : Closed newline done ∨ s.exited = true ∧ rest = []
  observed : s.intake.observed = shortLines done
  skipped : s.intake.skipped = longLines done
  told : ∀ line, line ∈ s.intake.events ↔ line ∈ longLines done
  drained : s.finished = true → s.exited = true ∧ newline ∉ rest

/-- Lines in which `\r` is at the end only. -/
def Plain (data : Bytes) : Prop := ∀ l ∈ lines newline data, ended newline l = true → carriage ∉ content l

/-- What a reading observes is plain, and an exit that it finds after its scan is of the log that it scanned. -/
def State.Sound (s : State) (r : Reading) : Prop :=
  (r.full = false → s.intake.offset = r.row → Plain r.data) ∧
    (r.full = true → r.exits = true → r.scanned.2 = false → r.later = s.log)

def State.Clear (s : State) : Action → Prop
  | .ingest r => s.Sound r
  | .finish => s.Sound s.drain
  | _ => True

def State.Clean : State → List Action → Prop
  | _, [] => True
  | s, a :: as => s.Clear a ∧ (s.next a).Clean as

section
variable {file u v rest x z done : Bytes} {ls : List Bytes} {fuel pos : Nat} {a : Intake} {r : Reading} {s : State}

/-! ### Reading -/

/-- A scan stops after the line that it begins in. -/
theorem scan_line (enough : file.length - pos < fuel) : scan file fuel pos =
    (pos + (line newline (file.drop pos)).length, ended newline (line newline (file.drop pos))) := by
  induction fuel generalizing pos with
  | zero => exact absurd enough (Nat.not_lt_zero _)
  | succ fuel ih =>
    rw [scan]
    have form := readline_cases newline maxLine (file.drop pos)
    obtain ⟨w, same⟩ := @readline_begins _ _ newline (file.drop pos) maxLine
    generalize readline newline maxLine (file.drop pos) = fragment at form same ⊢
    split_ifs with complete none_
    · rcases form with whole | ⟨free, -⟩
      · rw [← whole, complete]
      · exact absurd (ended_mem complete) free
    · rcases form with whole | ⟨-, size⟩
      · rw [← whole, none_]
        rfl
      · rw [none_] at size
        cases size
    · have free : newline ∉ fragment := by
        rcases form with whole | ⟨free, -⟩
        · rw [whole] at complete ⊢
          exact fun there => line_open (Bool.eq_false_iff.2 complete) (line_begins.subset there)
        · exact free
      have ahead : file.drop (pos + fragment.length) = w := by rw [← drop_drop, ← same, drop_left]
      have more := congrArg List.length same
      rw [length_append, length_drop] at more
      have some_ := length_pos_iff.2 none_
      rw [ih (by omega), ahead, ← same, line_apart free, length_append, Nat.add_assoc]
      by_cases last : line newline w = []
      · rw [last, append_nil, ended_fragment free]
        rfl
      · rw [ended_of_append last]

theorem splitlines_apart (free : newline ∉ v) (plain : carriage ∉ v) (next : splitlines x = [] :: ls) : splitlines (v ++ x) = v :: ls := by
  induction v with
  | nil => exact next
  | cons y v ih =>
    rw [mem_cons, not_or] at free plain
    rw [cons_append, splitlines, ih free.2 plain.2, if_neg fun both => plain.1 both.1.symm,
      if_neg (not_or_intro (Ne.symm free.1) (Ne.symm plain.1))]

theorem splitlines_newline : splitlines (newline :: rest) = [] :: splitlines rest := by
  rw [splitlines, if_neg fun both => absurd both.1 (by decide), if_pos (.inl rfl)]

theorem splitlines_carriage : splitlines (carriage :: newline :: rest) = [] :: splitlines rest := by
  rw [splitlines, if_pos ⟨rfl, rfl⟩, splitlines_newline]

theorem content_line : content (u ++ [newline]) = if u.getLast? = some carriage then u.dropLast else u := by
  rw [content, dropLast_concat]

/-- A plain line is one of `splitlines`, without its end. -/
theorem splitlines_line (free : newline ∉ u) (plain : carriage ∉ content (u ++ [newline])) :
    splitlines (u ++ newline :: rest) = content (u ++ [newline]) :: splitlines rest := by
  rw [content_line] at plain ⊢
  split_ifs at plain ⊢ with returns
  · obtain ⟨v, rfl⟩ := getLast?_eq_some_iff.1 returns
    rw [dropLast_concat] at plain ⊢
    rw [append_assoc]
    exact splitlines_apart (fun there => free (mem_append_left _ there)) plain splitlines_carriage
  · exact splitlines_apart free plain splitlines_newline

theorem splitlines_closed (closed : Closed newline u) (plain : Plain u) : splitlines u = (lines newline u).map content := by
  induction u using lines_induction newline with
  | none_ => rfl
  | fragment u apart some_ =>
    rcases closed with none_ | complete
    · exact absurd none_ some_
    · exact absurd (ended_mem complete) apart
  | complete u rest apart ih =>
    rw [Plain, lines_complete apart] at plain
    rw [lines_complete apart, splitlines_line apart (plain _ mem_cons_self ended_append),
      ih closed.rest fun l mem => plain l (mem_cons_of_mem _ mem), map_cons]

/-- A reading observes the complete lines of a chunk, or moves over a line that goes on after it; it does nothing without
either, or if its row is old and there is nothing to tell. -/
theorem ingest_cases (a : Intake) (r : Reading) :
    (a.ingest r = a ∧ (a.offset = r.row → newline ∉ r.data ∧
      (r.data.length = chunk → r.exits = false ∧ newline ∉ r.later.drop r.row))) ∨
    (∃ u b, r.full = false ∧ u ≠ [] ∧ r.data = u ++ b ∧ Closed newline u ∧ newline ∉ b ∧ a.offset = r.row ∧
      a.ingest r = { a with offset := a.offset + u.length, observed := a.observed ++ splitlines u }) ∨
    (∃ l, r.full = true ∧ newline ∉ r.data ∧ l = line newline (r.later.drop r.row) ∧ r.scanned.2 = ended newline l ∧
      (ended newline l = false → r.exits = true) ∧
      a.ingest r =
        if a.offset = r.row then
          { a with offset := a.offset + l.length, skipped := a.skipped ++ [(r.row, l.length)], events := a.events ++ [(r.row, l.length)] }
        else { a with events := a.events ++ [(r.row, l.length)] }) := by
  obtain ⟨u, b, parts, closed, apart, -, -⟩ := complete_part newline r.data
  have end_ : lastEnd newline r.data = u.length := by rw [parts, lastEnd_append closed apart]
  have scanned : r.scanned = _ := @scan_line r.later (r.later.length + 1) r.row (by omega)
  have full : r.full = true ↔ u = [] ∧ r.data.length = chunk := by
    rw [Reading.full, end_, Bool.and_eq_true, decide_eq_true_eq, decide_eq_true_eq, length_eq_zero_iff]
  rw [Intake.ingest, end_]
  dsimp only
  by_cases scans : r.full = true
  · obtain ⟨none_, size⟩ := full.1 scans
    subst none_
    rw [if_pos scans, scanned]
    have free : newline ∉ r.data := by rwa [parts]
    by_cases open_ : ended newline (line newline (r.later.drop r.row)) = false ∧ r.exits = false
    · refine .inl ⟨by rw [open_.1, open_.2]; rfl, fun _ => ⟨free, fun _ => ⟨open_.2, line_open open_.1⟩⟩⟩
    · refine .inr (.inr ⟨_, scans, free, rfl, rfl, fun ends => ?_, ?_⟩)
      · exact Bool.of_not_eq_false fun stays => open_ ⟨ends, stays⟩
      · have found : (!ended newline (line newline (r.later.drop r.row)) && !r.exits) = false := by
          rw [not_and_or, Bool.not_eq_false, Bool.not_eq_false] at open_
          rcases open_ with ends | exits
          · rw [ends]
            rfl
          · rw [exits, Bool.not_true, Bool.and_false]
        rw [found, if_neg Bool.false_ne_true, Nat.add_sub_cancel_left]
        split_ifs with fresh
        · rw [fresh]
        · rfl
  · rw [if_neg scans]
    by_cases idle : u.length = 0 ∨ a.offset ≠ r.row
    · rw [if_pos idle]
      refine .inl ⟨rfl, fun fresh => ?_⟩
      have none_ := length_eq_zero_iff.1 (idle.resolve_right (not_not_intro fresh))
      refine ⟨by rwa [parts, none_], fun size => ?_⟩
      exact absurd (full.2 ⟨none_, size⟩) scans
    · rw [if_neg idle]
      rw [not_or, not_not] at idle
      have some_ : u ≠ [] := fun none_ => idle.1 (congrArg List.length none_)
      refine .inr (.inl ⟨u, b, Bool.eq_false_iff.2 scans, some_, parts, closed, apart, idle.2, ?_⟩)
      rw [parts, take_left]

/-! ### Steps -/

theorem longLines_append (closed : Closed newline done) : longLines (done ++ u) =
    longLines done ++ ((numbered done.length (lines newline u)).filter fun line => long line.2).map fun line => (line.1, line.2.length) := by
  rw [longLines, numbered_lines closed, filter_append, map_append, ← longLines, Nat.zero_add]

theorem shortLines_append (closed : Closed newline done) : shortLines (done ++ u) = shortLines done ++ shortLines u := by
  rw [shortLines, lines_append closed, filter_append, map_append, ← shortLines, ← shortLines]

theorem longLines_short (closed : Closed newline done) (short : ∀ l ∈ lines newline u, long l = false) :
    longLines (done ++ u) = longLines done := by
  have none_ : (numbered done.length (lines newline u)).filter (fun line => long line.2) = [] := by
    refine filter_eq_nil_iff.2 fun line mem => ?_
    rw [short _ (mem_of_numbered mem)]
    decide
  rw [longLines_append closed, none_, map_nil, append_nil]

/-- A row's reading is of what follows its offset. -/
theorem Reading.data_begins (within : r.log <+: r.later) : r.data <+: r.later.drop r.row :=
  List.IsPrefix.trans ( take_prefix chunk _) (List.IsPrefix.drop within r.row)

theorem later_begins (within : r.later <+: x ++ z) (row : r.row = x.length) : r.later.drop r.row <+: z := by
  have ahead := List.IsPrefix.drop within r.row
  rwa [row, drop_left, ← row] at ahead

/-- A line that a reading moves over is too long for a chunk, and read as it is in the log. -/
theorem full_line (full : r.full = true) (free : newline ∉ r.data) (within : r.log <+: r.later) (whole : r.later <+: x ++ z)
    (row : r.row = x.length) (ends : ended newline (line newline (r.later.drop r.row)) = false → r.later = x ++ z) :
    line newline (r.later.drop r.row) = line newline z ∧ z ≠ [] ∧ long (line newline z) = true ∧
      (ended newline (line newline z) = true ∨ line newline z = z) := by
  rw [Reading.full, Bool.and_eq_true, decide_eq_true_eq, decide_eq_true_eq] at full
  obtain ⟨more, ahead⟩ := r.data_begins within
  obtain ⟨rest, behind⟩ := later_begins whole row
  have same : line newline (r.later.drop r.row) = r.data ++ line newline more := by rw [← ahead, line_apart free]
  have some_ : z ≠ [] := by
    rintro rfl
    rw [append_eq_nil_iff] at behind
    rw [behind.1, append_eq_nil_iff] at ahead
    rw [ahead.1] at full
    exact absurd full.2 (by decide)
  cases complete : ended newline (line newline (r.later.drop r.row)) with
  | true =>
    have mem := line_begins.subset (ended_mem complete)
    have here : line newline (r.later.drop r.row) = line newline z := by rw [← behind, line_append mem]
    refine ⟨here, some_, ?_, .inl (here ▸ complete)⟩
    have next : line newline more ≠ [] := by
      intro none_
      rw [same, none_, append_nil] at complete
      exact free (ended_mem complete)
    have pos := length_pos_iff.2 next
    rw [← here, long, if_pos complete, same, length_append, decide_eq_true_eq]
    omega
  | false =>
    have all : r.later.drop r.row = z := by rw [ends complete, row, drop_left]
    have open_ := line_fragment (line_open complete)
    rw [all] at open_ same complete ⊢
    refine ⟨rfl, some_, ?_, .inr open_⟩
    rw [long, if_neg (by rw [complete]; decide), same, length_append, decide_eq_true_eq]
    omega

theorem set_log (s : State) (a : Intake) : (s.set a).log = s.log := rfl

theorem set_intake (s : State) (a : Intake) : (s.set a).intake = a := rfl

/-- A row was read with the length of what is now done, or was done then. -/
def Row (done rest : Bytes) (exited : Bool) (row : Nat) : Prop :=
  ∃ x y, done = x ++ y ∧ row = x.length ∧ (Closed newline x ∨ exited = true ∧ y ++ rest = [])

theorem State.Ingested.closed (ingested : s.Ingested done rest) (more : rest ≠ []) : Closed newline done :=
  ingested.place.resolve_right fun last => more last.2

/-- More complete lines, all of which a chunk holds. -/
theorem State.Ingested.observe (ingested : s.Ingested done (u ++ rest)) (some_ : u ≠ []) (closed : Closed newline u)
    (short : u.length ≤ chunk) (plain : Plain u) :
    (s.set { s.intake with offset := s.intake.offset + u.length, observed := s.intake.observed ++ splitlines u }).Ingested
      (done ++ u) rest := by
  have before := ingested.closed (append_ne_nil_of_left_ne_nil some_ rest)
  have small : ∀ l ∈ lines newline u, long l = false := by
    intro l mem
    have size : l.length ≤ u.length := by
      rw [← @flatten_lines _ _ newline u]
      exact (sublist_flatten_of_mem mem).length_le
    rw [long, if_pos (ended_of_mem_lines mem closed), decide_eq_false_iff_not]
    omega
  have none_ := longLines_short before small
  constructor
  · rw [set_log, ingested.split, append_assoc]
  · rw [set_intake, length_append, ← ingested.reached]
  · intro l mem held
    rw [lines_append before] at mem
    exact (mem_append.1 mem).elim (fun there => ingested.whole l there held) fun there => ended_of_mem_lines there closed
  · exact .inl (before.append closed)
  · have all : (lines newline u).filter (fun l => !long l) = lines newline u :=
      filter_eq_self.2 fun l mem => by rw [small l mem]; rfl
    rw [set_intake, shortLines_append before, ← ingested.observed, shortLines, all, splitlines_closed closed plain]
  · rw [none_]
    exact ingested.skipped
  · rw [none_]
    exact ingested.told
  · intro finished
    obtain ⟨exited, free⟩ := ingested.drained finished
    exact ⟨exited, fun there => free (mem_append_right _ there)⟩

/-- The line that comes next is one that no chunk holds. -/
theorem State.Ingested.skip {l : Bytes} (ingested : s.Ingested done (l ++ rest)) (one : lines newline l = [l]) (some_ : l ≠ [])
    (large : long l = true) (place : ended newline l = true ∨ s.exited = true ∧ rest = []) :
    (s.set ⟨s.intake.offset + l.length, s.intake.observed, s.intake.skipped ++ [(s.intake.offset, l.length)],
      s.intake.events ++ [(s.intake.offset, l.length)]⟩).Ingested (done ++ l) rest := by
  have before := ingested.closed (append_ne_nil_of_left_ne_nil some_ rest)
  have next : longLines (done ++ l) = longLines done ++ [(s.intake.offset, l.length)] := by
    rw [longLines_append before, one, ingested.reached, numbered, numbered, filter_singleton, large]
    rfl
  constructor
  · rw [set_log, ingested.split, append_assoc]
  · rw [set_intake, length_append, ← ingested.reached]
  · intro m mem held
    rw [lines_append before, one] at mem
    rcases mem_append.1 mem with there | there
    · exact ingested.whole m there held
    · rw [mem_singleton.1 there, large] at held
      cases held
  · exact place.imp (fun ends => before.append (.inr ends)) id
  · have none_ : shortLines l = [] := by
      rw [shortLines, one, filter_singleton, large]
      rfl
    rw [shortLines_append before, none_, append_nil]
    exact ingested.observed
  · rw [set_intake, next, ← ingested.skipped]
  · intro line
    rw [set_intake, next, mem_append, mem_append, ingested.told]
  · intro finished
    obtain ⟨exited, free⟩ := ingested.drained finished
    exact ⟨exited, fun there => free (mem_append_right _ there)⟩

/-- An old row tells again of a line that is skipped already. -/
theorem State.Ingested.tell {line : Nat × Nat} (ingested : s.Ingested done rest) (known : line ∈ longLines done) :
    (s.set { s.intake with events := s.intake.events ++ [line] }).Ingested done rest where
  split := ingested.split
  reached := ingested.reached
  whole := ingested.whole
  place := ingested.place
  observed := ingested.observed
  skipped := ingested.skipped
  told other := by
    rw [set_intake, mem_append, ingested.told, mem_singleton, or_iff_left_of_imp]
    rintro rfl
    exact known
  drained := ingested.drained

theorem Plain.first (plain : Plain (u ++ v)) (closed : Closed newline u) : Plain u := by
  intro l mem
  refine plain l ?_
  rw [lines_append closed]
  exact mem_append_left _ mem

/-- The data of a reading that drains the log is all that is left of it. -/
theorem State.Ingested.drain_data (ingested : s.Ingested done rest) (left : rest.length ≤ chunk) : s.drain.data = rest := by
  have ahead : s.drain.log.drop s.drain.row = rest := by
    rw [State.drain]
    dsimp only
    rw [ingested.split, ingested.reached, drop_left]
  rw [Reading.data, ahead, take_of_length_le left]

/-- An old row's line is one of those before the offset. -/
theorem State.Ingested.known {y : Bytes} (ingested : s.Ingested (x ++ y) rest) (some_ : y ≠ [])
    (closed : Closed newline x) (large : long (line newline (y ++ rest)) = true) :
    (x.length, (line newline (y ++ rest)).length) ∈ longLines (x ++ y) := by
  have here : line newline (y ++ rest) = line newline y := by
    rcases ingested.place with done | ⟨-, last⟩
    · rw [Closed, ended_of_append some_] at done
      exact line_append (ended_mem (done.resolve_left fun none_ => some_ (append_eq_nil_iff.1 none_).2)) rest
    · rw [last, append_nil]
  obtain ⟨more, -, first⟩ := @lines_cons _ _ newline y some_
  rw [here] at large ⊢
  have mem : (x.length, line newline y) ∈ numbered x.length (lines newline y) := by
    rw [first]
    exact mem_cons_self
  rw [longLines_append closed]
  exact mem_append_right _ (mem_map.2 ⟨_, mem_filter.2 ⟨mem, large⟩, rfl⟩)

/-- What a reading takes of the rest is done then; one that drains the log leaves no complete line. -/
theorem State.Ingested.take (ingested : s.Ingested done rest) (row : Row done rest s.exited r.row) (within : r.log <+: r.later)
    (whole : r.later <+: s.log) (exits : r.exits = true → s.exited = true) (sound : s.Sound r) :
    ∃ u w, rest = u ++ w ∧ (s.take r).Ingested (done ++ u) w ∧ (r = s.drain → rest.length ≤ chunk → newline ∉ w) := by
  obtain ⟨x, y, rfl, start, place⟩ := row
  have split : s.log = x ++ (y ++ rest) := by rw [ingested.split, append_assoc]
  have current : s.intake.offset = r.row → y = [] := by
    rw [ingested.reached, start, length_append]
    intro same
    exact length_eq_zero_iff.1 (by omega)
  rw [split] at whole
  rw [State.take]
  rcases ingest_cases s.intake r with ⟨same, idle⟩ | ⟨u, b, full, some_, data, closed, free, fresh, taken⟩ |
    ⟨l, full, free, rfl, found, stays, moved⟩
  · refine ⟨[], rest, rfl, ?_, fun drain left => ?_⟩
    · rw [same, append_nil]
      exact { ingested with }
    · subst drain
      rw [← ingested.drain_data left]
      exact (idle rfl).1
  · have none_ := current fresh
    subst none_
    rw [append_nil] at ingested ⊢
    obtain ⟨w, ahead⟩ := (r.data_begins within).trans (later_begins whole start)
    rw [data, nil_append, append_assoc] at ahead
    have plain : Plain u := Plain.first (data ▸ sound.1 full fresh) closed
    have short : u.length ≤ chunk := by
      have size : r.data.length ≤ chunk := length_take_le chunk _
      rw [data, length_append] at size
      omega
    subst ahead
    refine ⟨u, b ++ w, rfl, ?_, fun drain left => ?_⟩
    · rw [taken]
      exact ingested.observe some_ closed short plain
    · subst drain
      rw [ingested.drain_data left, append_cancel_left_eq] at data
      rwa [data]
  · obtain ⟨same, more, large, last⟩ := full_line full free within whole start fun open_ => by
      rw [← split]
      exact sound.2 full (stays open_) (found.trans open_)
    rw [same] at moved stays
    by_cases fresh : s.intake.offset = r.row
    · have none_ := current fresh
      subst none_
      rw [append_nil] at ingested ⊢
      rw [nil_append] at moved stays more large last
      obtain ⟨w, parts, -⟩ := @lines_cons _ _ newline rest more
      refine ⟨line newline rest, w, parts, ?_, fun drain left there => ?_⟩
      · have ahead : s.Ingested x (line newline rest ++ w) := by rwa [← parts]
        have next : line newline rest ≠ [] := by
          intro none_
          rw [none_] at large
          exact absurd large (by decide)
        rw [moved, if_pos fresh, ← fresh]
        refine ahead.skip (lines_line more) next large ?_
        cases complete : ended newline (line newline rest) with
        | true => exact .inl rfl
        | false =>
          have all := last.resolve_left (by rw [complete]; decide)
          rw [all, self_eq_append_right] at parts
          exact .inr ⟨exits (stays complete), parts⟩
      · subst drain
        rw [ingested.drain_data left, parts] at free
        exact free (mem_append_right _ there)
    · have some_ : y ≠ [] := by
        rintro rfl
        exact fresh (by rw [ingested.reached, start, append_nil])
      have known := ingested.known some_ (place.resolve_right fun none_ => more none_.2) large
      refine ⟨[], rest, rfl, ?_, fun drain => ?_⟩
      · rw [moved, if_neg fresh, start, append_nil]
        exact ingested.tell known
      · subst drain
        exact absurd rfl fresh

theorem Row.more {u w : Bytes} {exited : Bool} {row : Nat} (known : Row done (u ++ w) exited row) : Row (done ++ u) w exited row := by
  obtain ⟨x, y, rfl, start, place⟩ := known
  exact ⟨x, y ++ u, append_assoc x y u, start, by rwa [append_assoc]⟩

theorem State.Ingested.row (ingested : s.Ingested done rest) : Row done rest s.exited s.intake.offset :=
  ⟨done, [], (append_nil done).symm, ingested.reached, ingested.place⟩

/-- An action keeps what is ingested, and the offsets that rows have. -/
theorem State.Ingested.step {action : Action} (ingested : s.Ingested done rest) (rows : ∀ row ∈ s.rows, Row done rest s.exited row)
    (enabled : s.Enabled action) (clear : s.Clear action) : ∃ done' rest', (s.next action).Ingested done' rest' ∧
      ∀ row ∈ (s.next action).rows, Row done' rest' (s.next action).exited row := by
  have kept : ∀ {r : Reading} {u w : Bytes}, rest = u ++ w → (s.take r).Ingested (done ++ u) w →
      ∀ row ∈ (s.take r).rows, Row (done ++ u) w s.exited row := by
    intro r u w parts taken row mem
    rcases mem_cons.1 mem with rfl | mem
    · exact taken.row
    · exact (parts ▸ rows row mem).more
  cases action with
  | write data =>
    have closed : Closed newline done := ingested.place.resolve_right fun last => by
      rw [enabled] at last
      cases last.1
    refine ⟨done, rest ++ data, ?_, fun row mem => ?_⟩
    · have open_ : s.finished = true → s.exited = true ∧ newline ∉ rest ++ data := fun finished => by
        have exited := (ingested.drained finished).1
        rw [enabled] at exited
        cases exited
      exact { ingested with split := by rw [State.next, ingested.split, append_assoc], place := .inl closed, drained := open_ }
    · obtain ⟨x, y, parts, start, place⟩ := rows row mem
      refine ⟨x, y, parts, start, .inl (place.resolve_right fun last => ?_)⟩
      rw [enabled] at last
      cases last.1
  | exit =>
    refine ⟨done, rest, ?_, fun row mem => ?_⟩
    · exact { ingested with
        place := ingested.place.imp id fun last => ⟨rfl, last.2⟩
        drained := fun finished => ⟨rfl, (ingested.drained finished).2⟩ }
    · obtain ⟨x, y, parts, start, place⟩ := rows row mem
      exact ⟨x, y, parts, start, place.imp id fun last => ⟨rfl, last.2⟩⟩
  | ingest r =>
    obtain ⟨u, w, parts, taken, -⟩ := ingested.take (rows _ enabled.1) enabled.2.1 enabled.2.2.1 enabled.2.2.2 clear
    exact ⟨done ++ u, w, taken, kept parts taken⟩
  | finish =>
    obtain ⟨u, w, parts, taken, drained⟩ := @State.Ingested.take _ _ s.drain _ ingested ingested.row prefix_rfl prefix_rfl
      (fun _ => enabled.1) clear
    have left : rest.length ≤ chunk := by
      have size := enabled.2
      rw [ingested.split, length_append, ingested.reached, Nat.add_sub_cancel_left] at size
      exact size
    refine ⟨done ++ u, w, ?_, kept parts taken⟩
    exact { taken with drained := fun _ => ⟨enabled.1, drained rfl left⟩ }

theorem initial_ingested : State.initial.Ingested [] [] :=
  ⟨rfl, rfl, nofun, .inl (.inl rfl), rfl, rfl, fun _ => Iff.rfl, nofun⟩

theorem State.Ingested.run {actions : List Action} (ingested : s.Ingested done rest) (rows : ∀ row ∈ s.rows, Row done rest s.exited row)
    (runs : s.Runs actions) (clean : s.Clean actions) : ∃ done' rest', (s.run actions).Ingested done' rest' := by
  induction actions generalizing s done rest with
  | nil => exact ⟨done, rest, ingested⟩
  | cons action actions ih =>
    obtain ⟨_, _, next, later⟩ := ingested.step rows runs.1 clean.1
    exact ih next later runs.2 clean.2

/-! ### Any chunks, any run -/

end

end Experiment.Logs
