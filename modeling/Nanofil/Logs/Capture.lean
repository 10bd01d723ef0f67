import Nanofil.Logs.Windows

/-! `capture.py`: a captured stream without its progress records, whatever chunks it is read in. -/
namespace Experiment.Logs
open List Lines

/-- What `json.loads` gives; a float is the integer that it equals, if any. -/
inductive Json
  | null
  | bool (b : Bool)
  | int (n : Int)
  | float (n : Option Int)
  | string (s : String)
  | array (xs : List Json)
  | object (fields : List (String × Json))

def Json.get (j : Json) (key : String) : Option Json :=
  match j with
  | .object fields => fields.lookup key
  | _ => none

def Json.isInt : Json → Bool
  | .int _ => true
  | _ => false

/-- Whether it equals an integer, as Python compares them. -/
def Json.equals (j : Json) (n : Int) : Bool :=
  match j with
  | .int m => m = n
  | .float m => m = some n
  | .bool b => n = if b then 1 else 0
  | _ => false

def Json.isString (j : Json) (s : String) : Bool :=
  match j with
  | .string t => t = s
  | _ => false

/-- A download's progress: the result of type 105 with four counts. -/
def Json.progress (event : Json) : Bool :=
  (event.get "action").any (·.isString "result") && (event.get "type").any (·.equals 105) &&
    (match event.get "fields" with
    | some (.array values) => values.length = 4 && values.all (·.isInt)
    | _ => false)

/-- `@nix ` -/
def marker : Bytes := [64, 110, 105, 120, 32]

def overlong : Nat := 1048576

structure Filter where
  pending : Bytes
  passthrough : Bool
  omittedRecords : Nat
  omittedBytes : Nat
deriving DecidableEq, Repr

def Filter.initial : Filter := ⟨[], false, 0, 0⟩

section
-- `loads` gives nothing where `json.loads` finds no value.
variable (loads : Bytes → Option Json)

def isProgress (line : Bytes) : Bool := marker.isPrefixOf line && (loads (line.drop 5)).any (·.progress)

def Filter.keep (f : Filter) (line : Bytes) : Filter × Bytes :=
  if isProgress loads line then ({ f with omittedRecords := f.omittedRecords + 1, omittedBytes := f.omittedBytes + line.length }, [])
  else (f, line)

/-- The complete lines; the first is passed on if its beginning was. -/
def Filter.feedLines : Filter → List Bytes → Filter × Bytes
  | f, [] => (f, [])
  | f, line :: rest =>
    let (next, out) := if f.passthrough then (f, line) else f.keep loads line
    let (last, later) := Filter.feedLines { next with passthrough := false } rest
    (last, out ++ later)

def Filter.feed (f : Filter) (data : Bytes) : Filter × Bytes :=
  let pieces := lines newline (f.pending ++ data)
  let (next, out) := f.feedLines loads (pieces.filter (ended newline))
  let pending := (pieces.filter (fun l => !ended newline l)).flatten
  if overlong < pending.length then ({ next with pending := [], passthrough := true }, out ++ pending)
  else ({ next with pending := pending }, out)

end

def Filter.finish (f : Filter) : Filter × Bytes := ({ f with pending := [] }, f.pending)

/-- A stream arrives in reads; what is pending may be flushed. -/
inductive Turn
  | read (data : Bytes)
  | flush
deriving DecidableEq, Repr

section
variable (loads : Bytes → Option Json)

def Filter.turn (f : Filter) : Turn → Filter × Bytes
  | .read data => f.feed loads data
  | .flush => f.finish

def Filter.run : Filter → List Turn → Filter × Bytes
  | f, [] => (f, [])
  | f, t :: ts =>
    let (next, out) := f.turn loads t
    let (last, later) := Filter.run next ts
    (last, out ++ later)

/-- No flush comes within a line that is still pending. -/
def Filter.Steady : Filter → List Turn → Prop
  | _, [] => True
  | f, t :: ts => (t = .flush → f.pending = [] ∨ f.passthrough = true) ∧ Filter.Steady (f.turn loads t).1 ts

def Turn.data : Turn → Bytes
  | .read data => data
  | .flush => []

def stream (ts : List Turn) : Bytes := ts.flatMap Turn.data

/-! ### What is left out -/

/-- The lines of a stream, the output that is left of them, and how many records and bytes are left out. -/
inductive Filtered : List Bytes → Bytes → Nat → Nat → Prop
  | nil : Filtered [] [] 0 0
  | keep {l : Bytes} {ls : List Bytes} {out : Bytes} {n b : Nat} : Filtered ls out n b →
      (ended newline l = true → isProgress loads l = true → overlong < l.length) → Filtered (l :: ls) (l ++ out) n b
  | drop {l : Bytes} {ls : List Bytes} {out : Bytes} {n b : Nat} : Filtered ls out n b → ended newline l = true →
      isProgress loads l = true → Filtered (l :: ls) out (n + 1) (l.length + b)

end

section
variable {loads : Bytes → Option Json} {ls ls' : List Bytes} {out out' done w l : Bytes} {n n' b b' : Nat} {f : Filter}

theorem Filtered.append (first : Filtered loads ls out n b) (second : Filtered loads ls' out' n' b') :
    Filtered loads (ls ++ ls') (out ++ out') (n + n') (b + b') := by
  induction first with
  | nil => simpa using second
  | keep _ long ih =>
    rw [append_assoc]
    exact .keep ih long
  | drop _ complete progress ih =>
    rw [Nat.add_right_comm _ 1, Nat.add_assoc _ _ b']
    exact .drop ih complete progress

theorem Filtered.one_kept (long : ended newline l = true → isProgress loads l = true → overlong < l.length) :
    Filtered loads [l] l 0 0 := by
  have one := Filtered.keep Filtered.nil long
  rwa [append_nil] at one

/-- What has been read is complete lines, as they are filtered, and the part of a line: already passed on, as far as it is
longer than a record may be, or pending. -/
structure Captured (loads : Bytes → Option Json) (read out : Bytes) (f : Filter) (done w out' : Bytes) : Prop where
  split : read = done ++ (w ++ f.pending)
  closed : Closed newline done
  apart : newline ∉ w ++ f.pending
  passed : f.passthrough = true → overlong < w.length
  plain : f.passthrough = false → w = []
  filtered : Filtered loads (lines newline done) out' f.omittedRecords f.omittedBytes
  output : out = out' ++ w

theorem captured_initial : Captured loads [] [] .initial [] [] [] :=
  ⟨rfl, .inl rfl, not_mem_nil, nofun, fun _ => rfl, .nil, rfl⟩

/-- Complete lines are filtered one by one. -/
theorem feedLines_filtered (plain : f.passthrough = false) (each : ∀ l ∈ ls, ended newline l = true) :
    ∃ n b out, Filtered loads ls out n b ∧
      f.feedLines loads ls = (⟨f.pending, false, f.omittedRecords + n, f.omittedBytes + b⟩, out) := by
  induction ls generalizing f with
  | nil =>
    refine ⟨0, 0, [], .nil, ?_⟩
    obtain ⟨pending, passthrough, records, bytes⟩ := f
    cases plain
    rfl
  | cons l ls ih =>
    have later := fun l mem => each l (mem_cons_of_mem _ mem)
    rw [Filter.feedLines, plain, if_neg Bool.false_ne_true, Filter.keep]
    by_cases progress : isProgress loads l = true
    · rw [if_pos progress]
      obtain ⟨n, b, out, rest, fed⟩ := @ih ⟨f.pending, false, f.omittedRecords + 1, f.omittedBytes + l.length⟩ rfl later
      refine ⟨n + 1, l.length + b, out, .drop rest (each l mem_cons_self) progress, ?_⟩
      simp only [fed, nil_append, Prod.mk.injEq, Filter.mk.injEq, true_and, and_true]
      omega
    · rw [if_neg progress]
      obtain ⟨n, b, out, rest, fed⟩ := @ih ⟨f.pending, false, f.omittedRecords, f.omittedBytes⟩ rfl later
      exact ⟨n, b, l ++ out, .keep rest fun _ there => absurd there progress, by simp only [fed]⟩

/-- The first line is passed on with what was passed on of it before. -/
theorem feedLines_first (each : ∀ l' ∈ l :: ls, ended newline l' = true) (passed : f.passthrough = true → overlong < w.length)
    (plain : f.passthrough = false → w = []) : ∃ n b out, Filtered loads ((w ++ l) :: ls) (w ++ out) n b ∧
      f.feedLines loads (l :: ls) = (⟨f.pending, false, f.omittedRecords + n, f.omittedBytes + b⟩, out) := by
  cases through : f.passthrough with
  | false =>
    rw [plain through, nil_append]
    exact feedLines_filtered through each
  | true =>
    rw [Filter.feedLines, through, if_pos rfl]
    obtain ⟨n, b, out, rest, fed⟩ := @feedLines_filtered loads ls ⟨f.pending, false, f.omittedRecords, f.omittedBytes⟩ rfl
      fun l mem => each l (mem_cons_of_mem _ mem)
    have long := passed through
    refine ⟨n, b, l ++ out, ?_, by simp only [fed]⟩
    rw [← append_assoc]
    refine .keep rest fun _ _ => ?_
    rw [length_append]
    omega

/-- A read adds complete lines, and leaves what comes after them pending, unless it is too long for a record. -/
theorem Captured.feed {read out : Bytes} (captured : Captured loads read out f done w out') (data : Bytes) :
    ∃ done' w' out'', Captured loads (read ++ data) (out ++ (f.feed loads data).2) (f.feed loads data).1 done' w' out'' := by
  obtain ⟨a, b, parts, closed, apart, complete, left⟩ := complete_part newline (f.pending ++ data)
  have split : read ++ data = done ++ (w ++ (a ++ b)) := by rw [captured.split, ← parts]; simp
  have free : newline ∉ w := fun there => captured.apart (mem_append_left _ there)
  rw [Filter.feed]
  dsimp only
  rw [complete, left]
  rcases line_forms newline a with none_ | ⟨u, a', clear, rfl⟩
  · have empty : a = [] := closed.resolve_right fun ends => none_ (ended_mem ends)
    subst empty
    rw [nil_append] at split
    have fed : f.feedLines loads (lines newline ([] : Bytes)) = (f, []) := rfl
    rw [fed]
    dsimp only
    have both : newline ∉ w ++ b := by simp [free, apart]
    split_ifs with long
    · refine ⟨done, w ++ b, out', by simpa using split, captured.closed, by simpa using both, fun _ => ?_, nofun, captured.filtered, ?_⟩
      · rw [length_append]
        omega
      · rw [captured.output, nil_append, append_assoc]
    · exact ⟨done, w, out', split, captured.closed, both, captured.passed, captured.plain, captured.filtered,
        by rw [captured.output, append_nil]⟩
  · have each : ∀ l ∈ (u ++ [newline]) :: lines newline a', ended newline l = true := by
      rw [← lines_complete clear]
      exact fun l mem => ended_of_mem_lines mem closed
    obtain ⟨n, bytes, more, filtered, fed⟩ := @feedLines_first loads _ _ _ f each captured.passed captured.plain
    rw [lines_complete clear, fed]
    have whole : Closed newline (done ++ (w ++ (u ++ newline :: a'))) := by
      have ends : Closed newline (w ++ (u ++ newline :: a')) := by
        refine .inr ((ended_of_append (by simp)).trans ?_)
        exact closed.resolve_left (by simp)
      exact captured.closed.append ends
    have together : Filtered loads (lines newline (done ++ (w ++ (u ++ newline :: a')))) (out' ++ (w ++ more)) (f.omittedRecords + n)
        (f.omittedBytes + bytes) := by
      have first : newline ∉ w ++ u := by
        rw [mem_append, not_or]
        exact ⟨free, clear⟩
      rw [lines_append captured.closed, ← append_assoc w, lines_complete first, append_assoc]
      exact captured.filtered.append filtered
    dsimp only
    have split' : read ++ data = done ++ (w ++ (u ++ newline :: a')) ++ b := by rw [split]; simp
    split_ifs with long
    · exact ⟨_, b, _, by simpa using split', whole, by simpa using apart, fun _ => long, nofun, together,
        by rw [captured.output]; simp⟩
    · exact ⟨_, [], _, by simpa using split', whole, by simpa using apart, nofun, fun _ => rfl, together,
        by rw [captured.output]; simp⟩

theorem Captured.finish {read out : Bytes} (captured : Captured loads read out f done w out')
    (steady : f.pending = [] ∨ f.passthrough = true) :
    Captured loads read (out ++ f.finish.2) f.finish.1 done (w ++ f.pending) out' where
  split := by rw [captured.split, Filter.finish, append_nil]
  closed := captured.closed
  apart := by rw [Filter.finish, append_nil]; exact captured.apart
  passed through := by
    have long := captured.passed through
    rw [length_append]
    omega
  plain plain := by
    rcases steady with none_ | through
    · rw [none_, append_nil]
      exact captured.plain plain
    · rw [Filter.finish] at plain
      rw [through] at plain
      cases plain
  filtered := captured.filtered
  output := by rw [captured.output, Filter.finish, append_assoc]

theorem Captured.run {read out : Bytes} {ts : List Turn} (captured : Captured loads read out f done w out') (steady : f.Steady loads ts) :
    ∃ done' w' out'', Captured loads (read ++ stream ts) (out ++ (f.run loads ts).2) (f.run loads ts).1 done' w' out'' := by
  induction ts generalizing f read out done w out' with
  | nil =>
    rw [stream, flatMap_nil, append_nil, Filter.run, append_nil]
    exact ⟨done, w, out', captured⟩
  | cons t ts ih =>
    rw [Filter.run, stream, flatMap_cons, ← stream, ← append_assoc, ← append_assoc]
    cases t with
    | read data =>
      obtain ⟨_, _, _, next⟩ := captured.feed data
      exact ih next steady.2
    | flush =>
      have next := captured.finish (steady.1 rfl)
      rw [Turn.data, append_nil]
      exact ih next steady.2

/-- In whatever chunks a stream is read, all of it is put out but for progress records, which all are left out that are no
longer than a record may be. -/
theorem run_filtered {ts : List Turn} (steady : Filter.initial.Steady loads ts) :
    Filtered loads (lines newline (stream ts))
      ((Filter.initial.run loads ts).2 ++ (Filter.initial.run loads ts).1.finish.2)
      (Filter.initial.run loads ts).1.omittedRecords (Filter.initial.run loads ts).1.omittedBytes := by
  obtain ⟨done, w, out, captured⟩ := captured_initial.run steady
  have split := captured.split
  have output := captured.output
  rw [nil_append] at split output
  rw [split, output, Filter.finish, lines_append captured.closed, append_assoc]
  by_cases none_ : w ++ (Filter.initial.run loads ts).1.pending = []
  · rw [none_, append_nil]
    have filtered := captured.filtered
    simpa [lines] using filtered
  · rw [lines_fragment captured.apart none_]
    refine captured.filtered.append (.one_kept fun complete => ?_)
    exact absurd (ended_mem complete) captured.apart

end

end Experiment.Logs
