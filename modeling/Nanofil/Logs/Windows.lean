import Nanofil.Lib.Lines
import Mathlib.Order.Nat

/-! `logs.py`: bounded windows into a captured log, from one byte offset to another. -/
namespace Experiment.Logs
open List Lines

abbrev Bytes := List UInt8

def newline : UInt8 := 10

def page : Nat := 262144

def maxLine : Nat := 1048576

inductive Direction
  | tail | before | after
deriving DecidableEq, Repr

structure Window where
  start : Nat
  end_ : Nat
  records : List (Nat × Bytes)
  skipped : Bool
deriving DecidableEq, Repr

/-- The records from a position on, where the next read would begin, and whether one was too long. -/
def readRecords (file : Bytes) (stop end_ : Nat) (finished : Bool) : Nat → Nat → List (Nat × Bytes) × Nat × Bool
  | 0, pos => ([], pos, false)
  | fuel + 1, pos =>
    if pos < stop then
      let raw := readline newline (min maxLine (end_ - pos)) (file.drop pos)
      let complete := ended newline raw
      if raw = [] then ([], pos, false)
      else if !complete && pos + raw.length = end_ && !finished then ([], pos, false)
      else if !complete && raw.length = maxLine then ([], pos + raw.length, true)
      else
        let (records, next, skipped) := readRecords file stop end_ finished fuel (pos + raw.length)
        ((pos, raw) :: records, next, skipped)
    else ([], pos, false)

/-- Whether a position is at the beginning of a line. -/
def aligned (file : Bytes) (start : Nat) : Bool := start = 0 || (file.drop (start - 1)).head? = some newline

/-- `window`: a file that is not there has none. -/
def window (file : Option Bytes) (size : Nat) (direction : Direction) (cursor : Nat) (finished : Bool) : Window :=
  match file with
  | none => ⟨0, 0, [], false⟩
  | some file =>
    let cursor := min cursor size
    let end_ := if direction = .before then cursor else size
    let start := if direction = .after then cursor else end_ - page
    let fragment := if aligned file start then [] else readline newline (min maxLine (end_ - start)) (file.drop start)
    if !aligned file start && (!ended newline fragment || end_ ≤ start + fragment.length) then ⟨start, start + fragment.length, [], true⟩
    else
      let start := start + fragment.length
      let stop := if direction = .after then min end_ (start + page) else end_
      let (records, pos, skipped) := readRecords file stop end_ finished (stop - start) start
      ⟨start, pos, records, skipped⟩

/-! ### What is read -/

/-- Complete lines are kept, and a fragment when the log is finished. -/
def kept (finished : Bool) (l : Bytes) : Bool := ended newline l || finished

def recordsOf (finished : Bool) (o : Nat) (xs : Bytes) : List (Nat × Bytes) :=
  (numbered o (lines newline xs)).filter (fun r => kept finished r.2)

/-- The lines that records are made of, up to where no more are begun. -/
def taken (stop : Nat) (finished : Bool) : Nat → List Bytes → List (Nat × Bytes) × Nat
  | pos, [] => ([], pos)
  | pos, l :: ls =>
    if pos < stop && kept finished l then
      let r := taken stop finished (pos + l.length) ls
      ((pos, l) :: r.1, r.2)
    else ([], pos)

section
variable {file later seg u : Bytes} {stop end_ pos n size : Nat} {finished : Bool}

theorem page_less : page < maxLine := by decide

theorem page_pos : 0 < page := by decide

theorem readline_complete {limit : Nat} (apart : newline ∉ u) (rest : Bytes) (room : u.length + 1 ≤ limit) :
    readline newline limit (u ++ newline :: rest) = u ++ [newline] := by
  rw [readline, line_complete apart]
  exact take_of_length_le (by rw [length_append, length_singleton]; omega)

/-- A read that ends within a line gives what it may of it. -/
theorem readline_within {limit : Nat} (apart : newline ∉ u) (rest : Bytes) (short : limit ≤ u.length) :
    readline newline limit (u ++ rest) = u.take limit := by
  rw [readline]
  rcases line_forms newline rest with none_ | ⟨v, rest', free, rfl⟩
  · rw [line_fragment (by simp [apart, none_]), take_append_of_le_length short]
  · rw [← append_assoc, line_complete (by simp [apart, free]), append_assoc, take_append_of_le_length short]

theorem kept_fragment (apart : newline ∉ u) : kept finished u = finished := by rw [kept, ended_fragment apart, Bool.false_or]

theorem kept_complete : kept finished (u ++ [newline]) = true := by rw [kept, ended_append, Bool.true_or]

theorem taken_stopped (past : ¬pos < stop) (ls : List Bytes) : taken stop finished pos ls = ([], pos) := by
  cases ls with
  | nil => rfl
  | cons l ls => rw [taken, decide_eq_false past, Bool.false_and, if_neg Bool.false_ne_true]

/-- The end of the log is not read past. -/
theorem readRecords_end (n : Nat) : readRecords file stop end_ finished n end_ = ([], end_, false) := by
  cases n with
  | zero => rfl
  | succ n => simp [readRecords, readline]

/-- A log's last line that goes on, and is too long to wait for. -/
structure Overlong (finished : Bool) (pos : Nat) (seg : Bytes) (records : List (Nat × Bytes)) (next : Nat) : Prop where
  unfinished : finished = false
  split : ∃ x y, seg = x ++ y ∧ Closed newline x ∧ newline ∉ y ∧ maxLine < y.length ∧
    records = numbered pos (lines newline x) ∧ next = pos + x.length + maxLine

/-- Reading within the log gives its lines, where none that is kept is too long. -/
theorem readRecords_taken (split : file.drop pos = seg ++ later) (ends : pos + seg.length = end_)
    (small : ∀ l ∈ lines newline seg, kept finished l = true → l.length < maxLine) (fuel : stop - pos ≤ n) :
    ∃ next skipped, readRecords file stop end_ finished n pos = ((taken stop finished pos (lines newline seg)).1, next, skipped) ∧
      (next = (taken stop finished pos (lines newline seg)).2 ∧ skipped = false ∨
        skipped = true ∧ Overlong finished pos seg (taken stop finished pos (lines newline seg)).1 next) := by
  induction n generalizing pos seg with
  | zero =>
    rw [readRecords, taken_stopped (by omega)]
    exact ⟨pos, false, rfl, .inl ⟨rfl, rfl⟩⟩
  | succ n ih =>
    by_cases begun : pos < stop
    · have room : end_ - pos = seg.length := by omega
      rw [readRecords, if_pos begun, split, room]
      rcases line_forms newline seg with apart | ⟨u, rest, apart, rfl⟩
      · by_cases none_ : seg = []
        · subst none_
          exact ⟨pos, false, by simp [readline, lines, taken], .inl ⟨rfl, rfl⟩⟩
        · have read := readline_within apart later (Nat.min_le_right maxLine seg.length)
          have open_ : ended newline (seg.take (min maxLine seg.length)) = false :=
            ended_fragment fun there => apart (mem_of_mem_take there)
          have some_ : seg.take (min maxLine seg.length) ≠ [] := by
            have long := length_pos_iff.2 none_
            have limit : 0 < maxLine := by decide
            rw [Ne, take_eq_nil_iff, not_or]
            exact ⟨by omega, none_⟩
          have size : (seg.take (min maxLine seg.length)).length = min maxLine seg.length := by
            rw [length_take, min_assoc, min_self]
          rw [read]
          dsimp only
          rw [if_neg some_, open_, size, lines_fragment apart none_, taken, kept_fragment apart, decide_eq_true begun, Bool.true_and,
            Bool.not_false, Bool.true_and, Bool.true_and]
          cases finished with
          | true =>
            have short : seg.length < maxLine :=
              small seg (by rw [lines_fragment apart none_]; exact mem_cons_self) (by rw [kept, Bool.or_true])
            rw [min_eq_right short.le, take_length, ends, readRecords_end]
            exact ⟨end_, false, by simp [taken, short.ne], .inl ⟨by simp [taken], rfl⟩⟩
          | false =>
            rcases le_or_gt seg.length maxLine with short | long
            · rw [min_eq_right short, ends]
              exact ⟨pos, false, by simp, .inl ⟨rfl, rfl⟩⟩
            · rw [min_eq_left long.le]
              refine ⟨pos + maxLine, true, ?_, .inr ⟨rfl, rfl, [], seg, rfl, .inl rfl, apart, long, rfl, rfl⟩⟩
              rw [if_neg (by simp; omega), if_pos (by simp)]
              rfl
      · have mem : u ++ [newline] ∈ lines newline (u ++ newline :: rest) := by
          rw [lines_complete apart]
          exact mem_cons_self
        have short := small _ mem kept_complete
        rw [length_append, length_singleton] at short
        have long : u.length + 1 ≤ (u ++ newline :: rest).length := by simp
        have read : readline newline (min maxLine (u ++ newline :: rest).length) (u ++ newline :: rest ++ later) = u ++ [newline] := by
          rw [append_assoc, cons_append]
          exact readline_complete apart _ (Nat.le_min.2 ⟨short.le, long⟩)
        have next : file.drop (pos + (u ++ [newline]).length) = rest ++ later := by
          rw [← drop_drop, split]
          simp
        have ends' : pos + (u ++ [newline]).length + rest.length = end_ := by
          rw [← ends]
          simp
          omega
        obtain ⟨next_, skipped, rec_, which⟩ := ih next ends'
          (fun l there => small l (by rw [lines_complete apart]; exact mem_cons_of_mem _ there))
          (by rw [length_append, length_singleton]; omega)
        have some_ : u ++ [newline] ≠ [] := by simp
        simp only [read, ended_append, some_, if_false, Bool.not_true, Bool.false_and, Bool.false_eq_true, rec_]
        rw [lines_complete apart, taken, kept_complete, decide_eq_true begun, Bool.true_and, if_pos rfl]
        refine ⟨next_, skipped, rfl, which.imp id (And.imp id fun passed => ⟨passed.unfinished, ?_⟩)⟩
        obtain ⟨x, y, rfl, closed, free, far, same, rfl⟩ := passed.split
        refine ⟨u ++ newline :: x, y, by simp, ?_, free, far, ?_, by simp; omega⟩
        · have both : Closed newline (u ++ [newline] ++ x) := Closed.append (.inr ended_append) closed
          rwa [append_assoc, singleton_append] at both
        · dsimp only
          rw [same, lines_complete apart, numbered]
    · rw [readRecords, if_neg begun, taken_stopped begun]
      exact ⟨pos, false, rfl, .inl ⟨rfl, rfl⟩⟩

/-- With room for all lines, all that are kept are taken. -/
theorem taken_all (room : pos + seg.length ≤ stop) : (taken stop finished pos (lines newline seg)).1 = recordsOf finished pos seg := by
  induction seg using lines_induction newline generalizing pos with
  | none_ => rfl
  | fragment u apart some_ =>
    have begun : pos < stop := by
      have := length_pos_iff.2 some_
      omega
    rw [recordsOf, lines_fragment apart some_, taken, kept_fragment apart, decide_eq_true begun, Bool.true_and]
    cases finished with
    | false => simp [numbered, kept_fragment apart]
    | true => simp [numbered, kept_fragment apart, taken]
  | complete u rest apart ih =>
    rw [length_append, length_cons] at room
    have later : pos + (u ++ [newline]).length + rest.length ≤ stop := by
      rw [length_append, length_singleton]
      omega
    rw [recordsOf, lines_complete apart, taken, kept_complete, decide_eq_true (show pos < stop by omega), Bool.true_and, if_pos rfl,
      numbered, filter_cons_of_pos (by simp [kept_complete])]
    dsimp only
    rw [ih later, recordsOf]

/-- What is taken is a part up to a line's end; it is none only where there is no line to take. -/
theorem taken_prefix (stop pos : Nat) (finished : Bool) (seg : Bytes) : ∃ a b, seg = a ++ b ∧ taken stop finished pos (lines newline seg) = (numbered pos (lines newline a), pos + a.length) ∧
    (∀ l ∈ lines newline a, kept finished l = true) ∧ (Closed newline a ∨ b = []) ∧
    (a = [] → seg = [] ∨ stop ≤ pos ∨ finished = false ∧ newline ∉ seg) := by
  by_cases begun : pos < stop
  · induction seg using lines_induction newline generalizing pos with
    | none_ => exact ⟨[], [], rfl, rfl, nofun, .inr rfl, fun _ => .inl rfl⟩
    | fragment u apart some_ =>
      rw [lines_fragment apart some_, taken, kept_fragment apart, decide_eq_true begun, Bool.true_and]
      cases finished with
      | false => exact ⟨[], u, rfl, rfl, nofun, .inl (.inl rfl), fun _ => .inr (.inr ⟨rfl, apart⟩)⟩
      | true =>
        refine ⟨u, [], (append_nil u).symm, ?_, fun l mem => ?_, .inr rfl, fun none_ => .inl none_⟩
        · rw [if_pos rfl, lines_fragment apart some_]
          rfl
        · rw [kept, Bool.or_true]
    | complete u rest apart ih =>
      rw [lines_complete apart, taken, kept_complete, decide_eq_true begun, Bool.true_and, if_pos rfl]
      by_cases more : pos + (u ++ [newline]).length < stop
      · obtain ⟨a, b, rfl, same, keeps, ends, -⟩ := ih _ more
        refine ⟨u ++ newline :: a, b, by simp, ?_, fun l mem => ?_, ?_, fun none_ => by simp at none_⟩
        · rw [same, lines_complete apart, numbered]
          simp only [length_append, length_cons, length_nil, Prod.mk.injEq, true_and]
          omega
        · rw [lines_complete apart] at mem
          rcases mem_cons.1 mem with rfl | mem
          · exact kept_complete
          · exact keeps l mem
        · refine ends.imp (fun closed => ?_) id
          have both : Closed newline (u ++ [newline] ++ a) := Closed.append (.inr ended_append) closed
          rwa [append_assoc, singleton_append] at both
      · refine ⟨u ++ [newline], rest, by simp, ?_, fun l mem => ?_, .inl (.inr ended_append), fun none_ => by simp at none_⟩
        · rw [taken_stopped more, lines_complete apart, numbered]
          rfl
        · rw [lines_complete apart] at mem
          rw [mem_singleton.1 mem]
          exact kept_complete
  · exact ⟨[], seg, rfl, taken_stopped begun _, nofun, .inl (.inl rfl), fun _ => .inr (.inl (not_lt.1 begun))⟩

/-! ### Windows -/

variable {a : Bytes} {cursor : Nat} {direction : Direction}

/-- A position is at the beginning of a line where what is before it ends between lines. -/
theorem aligned_iff {rest : Bytes} : aligned (a ++ rest) a.length = true ↔ Closed newline a := by
  by_cases none_ : a = []
  · subst none_
    simp [aligned, Closed]
  · have pos : 0 < a.length := length_pos_iff.2 none_
    have last : ((a ++ rest).drop (a.length - 1)).head? = a.getLast? := by
      rw [head?_drop, getElem?_append_left (by omega), getLast?_eq_getElem?]
    simp [aligned, Closed, none_, last, ended]

theorem length_of_mem_lines {l : Bytes} (mem : l ∈ lines newline seg) : l.length ≤ seg.length := by
  obtain ⟨before, after, same, -⟩ := line_split mem
  rw [same, length_append, length_append]
  omega

/-- Where a window ends, and where it begins to read. -/
def windowEnd (size : Nat) (direction : Direction) (cursor : Nat) : Nat := if direction = .before then min cursor size else size

def windowStart (size : Nat) (direction : Direction) (cursor : Nat) : Nat :=
  if direction = .after then min cursor size else windowEnd size direction cursor - page

theorem window_eq : window (some file) size direction cursor finished = (let start := windowStart size direction cursor
    let end_ := windowEnd size direction cursor
    let fragment := if aligned file start then [] else readline newline (min maxLine (end_ - start)) (file.drop start)
    if !aligned file start && (!ended newline fragment || end_ ≤ start + fragment.length) then ⟨start, start + fragment.length, [], true⟩
    else
      let first := start + fragment.length
      let stop := if direction = .after then min end_ (first + page) else end_
      let read := readRecords file stop end_ finished (stop - first) first
      ⟨first, read.2.1, read.1, read.2.2⟩) := rfl

theorem windowEnd_le : windowEnd size direction cursor ≤ size := by
  rw [windowEnd]
  split_ifs
  · exact Nat.min_le_right _ _
  · exact le_rfl

/-- A window shows nothing from before where it begins to read. -/
theorem windowStart_le {direction : Direction} {cursor : Nat} :
    windowStart size direction cursor ≤ (window (some file) size direction cursor finished).start := by
  rw [window_eq]
  dsimp only
  split_ifs
  all_goals first | exact le_rfl | exact Nat.le_add_right _ _

theorem window_after {b : Bytes} (later : Bytes) (closed : Closed newline a) (small : ∀ l ∈ lines newline b, kept finished l = true → l.length < maxLine) :
    ∃ next skipped, window (some (a ++ b ++ later)) (a ++ b).length .after a.length finished =
        ⟨a.length, next, (taken (min (a ++ b).length (a.length + page)) finished a.length (lines newline b)).1, skipped⟩ ∧
      (next = (taken (min (a ++ b).length (a.length + page)) finished a.length (lines newline b)).2 ∧ skipped = false ∨ skipped = true ∧
        Overlong finished a.length b (taken (min (a ++ b).length (a.length + page)) finished a.length (lines newline b)).1 next) := by
  have here : min a.length (a ++ b).length = a.length := by
    rw [length_append]
    omega
  have begins : aligned (a ++ b ++ later) a.length = true := by
    rw [append_assoc]
    exact aligned_iff.2 closed
  have split : (a ++ b ++ later).drop a.length = b ++ later := by
    rw [append_assoc, drop_left]
  have fuel := Nat.le_refl (min (a ++ b).length (a.length + page) - a.length)
  obtain ⟨next, skipped, read, which⟩ := readRecords_taken split length_append.symm small fuel
  refine ⟨next, skipped, ?_, which⟩
  simp only [window, here, begins, reduceCtorEq, if_true, if_false, Bool.not_true, Bool.false_and, Bool.false_eq_true, length_nil,
    Nat.add_zero, read]

/-- A window that begins and ends within a line that goes on has nothing but skips it. -/
theorem window_within {y : Bytes} {start end_ : Nat} (later : Bytes) (finished : Bool) (apart : newline ∉ y)
    (begins : windowStart size direction cursor = start) (ends : windowEnd size direction cursor = end_) (low : a.length < start)
    (order : start ≤ end_) (high : end_ ≤ (a ++ y).length) :
    window (some (a ++ y ++ later)) size direction cursor finished = ⟨start, start + min maxLine (end_ - start), [], true⟩ := by
  rw [length_append] at high
  obtain ⟨k, rfl⟩ := Nat.exists_eq_add_of_lt low
  have inside : k + 1 ≤ y.length := by omega
  have there : a.length + k + 1 = (a ++ y.take (k + 1)).length := by
    rw [length_append, length_take]
    omega
  have parts : a ++ y ++ later = (a ++ y.take (k + 1)) ++ (y.drop (k + 1) ++ later) := by
    rw [append_assoc a, append_assoc a, ← append_assoc (y.take (k + 1)), take_append_drop]
  have some_ : y.take (k + 1) ≠ [] := by
    rw [← length_pos_iff, length_take]
    omega
  have open_ : aligned (a ++ y ++ later) (a.length + k + 1) = false := by
    rw [there, parts, ← Bool.not_eq_true, aligned_iff]
    rintro (none_ | done)
    · exact some_ (append_eq_nil_iff.1 none_).2
    · rw [ended_of_append some_] at done
      exact apart (mem_of_mem_take (ended_mem done))
  have rest : (a ++ y ++ later).drop (a.length + k + 1) = y.drop (k + 1) ++ later := by
    rw [there, parts, drop_left]
  have free : newline ∉ y.drop (k + 1) := fun mem => apart (mem_of_mem_drop mem)
  have limit : min maxLine (end_ - (a.length + k + 1)) ≤ (y.drop (k + 1)).length := by
    rw [length_drop]
    omega
  have read := readline_within free later limit
  have fragment : ended newline ((y.drop (k + 1)).take (min maxLine (end_ - (a.length + k + 1)))) = false :=
    ended_fragment fun mem => free (mem_of_mem_take mem)
  have length : ((y.drop (k + 1)).take (min maxLine (end_ - (a.length + k + 1)))).length = min maxLine (end_ - (a.length + k + 1)) := by
    rw [length_take]
    omega
  rw [window_eq, begins, ends]
  simp only [open_, rest, read, fragment, length, if_false, Bool.not_false, Bool.true_and, Bool.true_or, Bool.false_eq_true, if_true]

/-- A window to an end with a line's beginning before it, near enough, shows what is kept from some line's beginning on. -/
theorem window_back {x y : Bytes} (later : Bytes) (finished : Bool) (back : direction ≠ .after)
    (ends : windowEnd size direction cursor = (x ++ y).length) (closed : Closed newline x) (some_ : y ≠ [])
    (near : (x ++ y).length ≤ x.length + page) :
    ∃ a b next, x ++ y = a ++ b ∧ Closed newline a ∧ a.length ≤ x.length ∧ (x ++ y).length ≤ a.length + page ∧
      window (some (x ++ y ++ later)) size direction cursor finished = ⟨a.length, next, recordsOf finished a.length b, false⟩ := by
  have pos := length_pos_iff.2 some_
  rw [length_append] at near
  -- From a line's beginning all is read that is kept.
  have reads : ∀ {a b : Bytes}, x ++ y = a ++ b → (x ++ y).length ≤ a.length + page → ∃ next,
      readRecords (x ++ y ++ later) (x ++ y).length (x ++ y).length finished ((x ++ y).length - a.length) a.length =
        (recordsOf finished a.length b, next, false) := by
    intro a b same wide
    rw [same, length_append] at wide
    have short : ∀ l ∈ lines newline b, kept finished l = true → l.length < maxLine := by
      intro l mem _
      have := length_of_mem_lines mem
      have := page_less
      omega
    have split : (x ++ y ++ later).drop a.length = b ++ later := by rw [same, append_assoc, drop_left]
    have length : a.length + b.length = (x ++ y).length := by rw [same, length_append]
    obtain ⟨next, skipped, read, which⟩ := readRecords_taken split length short (Nat.le_refl ((x ++ y).length - a.length))
    rw [taken_all (by rw [same, length_append])] at read
    rcases which with ⟨-, rfl⟩ | ⟨-, passed⟩
    · exact ⟨next, read⟩
    · obtain ⟨u, v, rfl, -, -, far, -⟩ := passed.split
      rw [length_append] at wide
      have := page_less
      omega
  have begins : windowStart size direction cursor = (x ++ y).length - page := by rw [windowStart, if_neg back, ends]
  have first : (x ++ y).length - page ≤ x.length := by
    rw [length_append]
    omega
  obtain ⟨w, hw⟩ : ∃ w, (x ++ y).length - page = w := ⟨_, rfl⟩
  rw [hw] at first begins
  have before : (x.take w).length = w := by rw [length_take, min_eq_left first]
  have parts : x ++ y ++ later = x.take w ++ (x.drop w ++ y ++ later) := by
    rw [← append_assoc, ← append_assoc, take_append_drop]
  have here : aligned (x ++ y ++ later) w = true ↔ Closed newline (x.take w) := by
    have same : aligned (x.take w ++ (x.drop w ++ y ++ later)) (x.take w).length = true ↔ Closed newline (x.take w) := aligned_iff
    rwa [before, ← parts] at same
  rw [window_eq, begins, ends]
  simp only [if_neg back]
  by_cases starts : aligned (x ++ y ++ later) w = true
  · have same : x ++ y = x.take w ++ (x.drop w ++ y) := by rw [← append_assoc, take_append_drop]
    have wide : (x ++ y).length ≤ (x.take w).length + page := by omega
    obtain ⟨next, read⟩ := reads same wide
    rw [before] at read
    refine ⟨x.take w, x.drop w ++ y, next, same, here.1 starts, by omega, wide, ?_⟩
    simp only [starts, Bool.not_true, Bool.false_and, Bool.false_eq_true, if_false, if_true, length_nil, Nat.add_zero, read, before]
  · have open_ : ¬Closed newline (x.take w) := fun closed => starts (here.2 closed)
    have more : x.drop w ≠ [] := by
      intro none_
      rw [← take_append_drop w x, none_, append_nil] at closed
      exact open_ closed
    have done : ended newline (x.drop w) = true := by
      rw [← take_append_drop w x] at closed
      rcases closed with none_ | done
      · exact absurd (append_eq_nil_iff.1 none_).2 more
      · rwa [ended_of_append more] at done
    obtain ⟨u, rest, apart, same⟩ := (line_forms newline (x.drop w)).resolve_left fun none_ => none_ (ended_mem done)
    have lengths := congrArg List.length same
    rw [length_append, length_cons, length_drop] at lengths
    have total : (x ++ y).length = x.length + y.length := length_append
    have fragment : (u ++ [newline]).length = u.length + 1 := length_append
    have full : (x ++ y).length - w = page := by
      rcases Nat.eq_zero_or_pos w with rfl | wpos
      · exact absurd (.inl rfl) open_
      · omega
    have read : readline newline (min maxLine ((x ++ y).length - w)) ((x ++ y ++ later).drop w) = u ++ [newline] := by
      have there : (x ++ y ++ later).drop w = u ++ newline :: (rest ++ y ++ later) := by
        rw [append_assoc, drop_append_of_le_length first, same]
        simp
      have := page_less
      rw [there, full]
      exact readline_complete apart _ (by omega)
    have not_ : ¬(x ++ y).length ≤ w + (u ++ [newline]).length := by omega
    have parts' : x ++ y = (x.take w ++ (u ++ [newline])) ++ (rest ++ y) := by
      have whole : x = x.take w ++ (u ++ newline :: rest) := by rw [← same, take_append_drop]
      conv_lhs => rw [whole]
      simp
    have length : (x.take w ++ (u ++ [newline])).length = w + (u ++ [newline]).length := by rw [length_append, before]
    obtain ⟨next, records⟩ := reads parts' (by omega)
    rw [length] at records
    refine ⟨x.take w ++ (u ++ [newline]), rest ++ y, next, parts', ?_, ?_, by omega, ?_⟩
    · exact .inr ((ended_of_append (by simp)).trans ended_append)
    · rw [length, length_append, length_singleton]
      omega
    · simp only [starts, read, ended_append, not_, decide_false, Bool.not_true, Bool.or_self, Bool.and_false, Bool.false_eq_true,
        if_false, records, length]

end

end Experiment.Logs
