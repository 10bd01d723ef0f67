import Nanofil.Logs.Windows

/-! Windows paged through from the beginning, and back from the tail, of a log that other bytes may follow. -/
namespace Experiment.Logs
open List Option Lines

/-- A window, with the part of the log that it is of. -/
structure Page where
  low : Nat
  high : Nat
  window : Window
deriving DecidableEq, Repr

/-- Each cursor is where the window before it ended. -/
def forward (file : Bytes) (size : Nat) (finished : Bool) : Nat → Nat → Option (List Page)
  | 0, _ => none
  | fuel + 1, cursor =>
    let w := window (some file) size .after cursor finished
    if cursor < w.end_ ∧ w.end_ < size then (forward file size finished fuel w.end_).map (⟨cursor, w.end_, w⟩ :: ·)
    else some [⟨cursor, w.end_, w⟩]

/-- Each cursor is where the window before it began. -/
def backward (file : Bytes) (size : Nat) (finished : Bool) : Nat → Direction → Nat → Option (List Page)
  | 0, _, _ => none
  | fuel + 1, direction, cursor =>
    let w := window (some file) size direction cursor finished
    let page := ⟨w.start, windowEnd size direction cursor, w⟩
    if 0 < w.start then (backward file size finished fuel .before w.start).map (page :: ·) else some [page]

def records (pages : List Page) : List (Nat × Bytes) := pages.flatMap (·.window.records)

/-! ### What the pages show -/

/-- The lines of a log: the complete ones, and what comes after them. -/
def Complete (log : Bytes) (r : Nat × Bytes) : Prop := r ∈ numbered 0 (lines newline log) ∧ ended newline r.2 = true

def Fragment (log : Bytes) (r : Nat × Bytes) : Prop := r ∈ numbered 0 (lines newline log) ∧ ended newline r.2 = false

/-- What is passed over is reported, but for a line that may go on. -/
def Reported (log : Bytes) (finished : Bool) (p : Page) : Prop :=
  p.window.skipped = false → ∀ i, p.low ≤ i → i < p.high →
    (∃ r ∈ p.window.records, r.1 ≤ i ∧ i < r.1 + r.2.length) ∨ finished = false ∧ ∃ r, Fragment log r ∧ r.1 ≤ i

structure Whole (log : Bytes) (finished : Bool) (pages : List Page) : Prop where
  every : ∀ r, Complete log r → r.2.length < maxLine → (records pages).count r = 1
  only : ∀ r ∈ records pages, Complete log r ∨ finished = true ∧ Fragment log r
  reported : ∀ p ∈ pages, Reported log finished p

/-- Both ways of paging end, and show the log as a whole. -/
def Shown (log later : Bytes) (finished : Bool) : Prop :=
  (∃ pages, forward (log ++ later) log.length finished (log.length + 1) 0 = some pages ∧ Whole log finished pages) ∧
    ∃ pages, backward (log ++ later) log.length finished (log.length + 1) .tail 0 = some pages ∧ Whole log finished pages

/-- No line that is shown is longer than a page. -/
def Fits (finished : Bool) (log : Bytes) : Prop := ∀ l ∈ lines newline log, kept finished l = true → l.length ≤ page

section
variable {log later a b x y : Bytes} {finished : Bool} {pages : List Page} {r : Nat × Bytes} {n o size cursor : Nat} {direction : Direction}

theorem recordsOf_append (closed : Closed newline a) :
    recordsOf finished o (a ++ b) = recordsOf finished o a ++ recordsOf finished (o + a.length) b := by
  rw [recordsOf, numbered_lines closed, filter_append]
  rfl

theorem recordsOf_all (keeps : ∀ l ∈ lines newline a, kept finished l = true) : recordsOf finished o a = numbered o (lines newline a) :=
  filter_eq_self.2 fun _ mem => keeps _ (mem_of_numbered mem)

theorem closed_kept (closed : Closed newline a) : ∀ l ∈ lines newline a, kept finished l = true :=
  fun l mem => by rw [kept, ended_of_mem_lines mem closed, Bool.true_or]

theorem Fits.left (fits : Fits finished (a ++ b)) (closed : Closed newline a) : Fits finished a :=
  fun l mem => fits l (by rw [lines_append closed]; exact mem_append_left _ mem)

theorem Fits.right (fits : Fits finished (a ++ b)) (closed : Closed newline a) : Fits finished b :=
  fun l mem => fits l (by rw [lines_append closed]; exact mem_append_right _ mem)

/-- All that is kept of a log is the log as a whole. -/
theorem whole_of_records (all : (records pages).Perm (recordsOf finished 0 log)) (reported : ∀ p ∈ pages, Reported log finished p) :
    Whole log finished pages where
  every r complete _ := by
    have once : (recordsOf finished 0 log).Nodup :=
      (numbered_nodup fun l mem => length_pos_of_mem_lines mem).filter _
    rw [all.count_eq]
    exact count_eq_one_of_mem once (mem_filter.2 ⟨complete.1, by rw [kept, complete.2, Bool.true_or]⟩)
  only r mem := by
    obtain ⟨there, keeps⟩ := mem_filter.1 (all.mem_iff.1 mem)
    rw [kept, Bool.or_eq_true] at keeps
    cases done : ended newline r.2 with
    | true => exact .inl ⟨there, done⟩
    | false => exact .inr ⟨keeps.resolve_left (by simp [done]), there, done⟩
  reported := reported

/-! ### Forward -/

/-- A window whose records are the lines of its part passes over nothing. -/
theorem reported_lines {w : Window} (same : w.records = numbered o (lines newline a)) : Reported log finished ⟨o, o + a.length, w⟩ := by
  intro _ i low high
  dsimp only at low high ⊢
  rw [same]
  exact .inl (numbered_cover low (by rw [flatten_lines]; exact high))

theorem reported_torn (closed : Closed newline a) (apart : newline ∉ y) (some_ : y ≠ []) {p : Page} (low : a.length ≤ p.low) :
    Reported (a ++ y) false p := by
  intro _ i above _
  refine .inr ⟨rfl, (a.length, y), ⟨?_, ended_fragment apart⟩, low.trans above⟩
  rw [numbered_lines closed, lines_fragment apart some_, Nat.zero_add]
  exact mem_append_right _ mem_cons_self

/-- Within a line that goes on there is nothing more. -/
theorem forward_torn (later : Bytes) (closed : Closed newline a) (apart : newline ∉ y) (low : a.length < cursor) (high : cursor ≤ (a ++ y).length)
    (fuel : (a ++ y).length - cursor < n) :
    ∃ pages, forward (a ++ y ++ later) (a ++ y).length false n cursor = some pages ∧ records pages = [] ∧
      ∀ p ∈ pages, Reported (a ++ y) false p := by
  have some_ : y ≠ [] := by
    rintro rfl
    rw [append_nil] at high
    omega
  induction n generalizing cursor with
  | zero => exact absurd fuel (Nat.not_lt_zero _)
  | succ n ih =>
    have begins : windowStart (a ++ y).length .after cursor = cursor := by rw [windowStart, if_pos rfl, min_eq_left high]
    have ends : windowEnd (a ++ y).length .after cursor = (a ++ y).length := if_neg (by decide)
    have shown := window_within later false apart begins ends low high le_rfl
    rw [forward, shown]
    dsimp only
    split_ifs with more
    · obtain ⟨pages, rest, none_, reported⟩ := ih (by omega) more.2.le (by omega)
      refine ⟨_, congrArg (Option.map _) rest, ?_, fun p mem => ?_⟩
      · rw [records, flatMap_cons, nil_append]
        exact none_
      · rcases mem_cons.1 mem with rfl | mem
        · exact reported_torn closed apart some_ low.le
        · exact reported p mem
    · refine ⟨_, rfl, rfl, fun p mem => ?_⟩
      rw [mem_singleton.1 mem]
      exact reported_torn closed apart some_ low.le

theorem forward_whole (later : Bytes) (closed : Closed newline a) (fits : Fits finished b) (fuel : b.length < n) :
    ∃ pages, forward (a ++ b ++ later) (a ++ b).length finished n a.length = some pages ∧ records pages = recordsOf finished a.length b ∧
      ∀ p ∈ pages, Reported (a ++ b) finished p := by
  induction n generalizing a b with
  | zero => exact absurd fuel (Nat.not_lt_zero _)
  | succ n ih =>
    have small : ∀ l ∈ lines newline b, kept finished l = true → l.length < maxLine :=
      fun l mem keeps => (fits l mem keeps).trans_lt page_less
    obtain ⟨next, skipped, shown, which⟩ := window_after later closed small
    obtain ⟨a', b', same, took, keeps, ends, progress⟩ := taken_prefix (min (a ++ b).length (a.length + page)) a.length finished b
    rw [took] at shown which
    dsimp only at shown which
    have size : (a ++ b).length = a.length + a'.length + b'.length := by rw [length_append, same, length_append, Nat.add_assoc]
    rw [forward, shown]
    dsimp only
    rcases which with ⟨rfl, rfl⟩ | ⟨rfl, passed⟩
    · split_ifs with more
      · have closed' : Closed newline a' := ends.resolve_right fun none_ => by
          rw [size, none_, length_nil] at more
          omega
        have both : a ++ b = (a ++ a') ++ b' := by rw [same, append_assoc]
        have length : (a ++ a').length = a.length + a'.length := length_append
        rw [same] at fits fuel
        rw [length_append] at fuel
        obtain ⟨pages, rest, all, reported⟩ := ih (closed.append closed') (fits.right closed') (by omega)
        rw [length, ← both] at rest
        refine ⟨_, congrArg (Option.map _) rest, ?_, fun p mem => ?_⟩
        · rw [records, flatMap_cons, ← records, all, same, recordsOf_append closed', recordsOf_all keeps, length]
        · rcases mem_cons.1 mem with rfl | mem
          · exact reported_lines rfl
          · rw [both]
            exact reported p mem
      · refine ⟨_, rfl, ?_, fun p mem => ?_⟩
        · rw [records, flatMap_singleton, same]
          dsimp only
          by_cases last : b' = []
          · rw [last, append_nil, recordsOf_all keeps]
          · have rest := length_pos_iff.2 last
            have none_ : a' = [] := length_eq_zero_iff.1 (by omega)
            rcases progress none_ with empty | stopped | ⟨rfl, apart⟩
            · rw [empty] at same
              exact absurd (append_eq_nil_iff.1 same.symm).2 last
            · have := page_pos
              omega
            · rw [none_, nil_append] at same
              subst same
              rw [none_, nil_append, recordsOf, lines_fragment apart last]
              simp [numbered, lines, kept_fragment apart]
        · rw [mem_singleton.1 mem]
          exact reported_lines rfl
    · obtain ⟨x, y, same', closed', apart, far, numbers, to_⟩ := passed.split
      have unfinished := passed.unfinished
      subst unfinished
      have both : a ++ b = (a ++ x) ++ y := by rw [same', append_assoc]
      have length : (a ++ x).length = a.length + x.length := length_append
      have total : (a ++ b).length = a.length + x.length + y.length := by rw [both, length_append, length]
      have whole := congrArg List.length same'
      rw [length_append] at whole
      have pos : 0 < maxLine := by decide
      have low : (a ++ x).length < next := by omega
      have room : (a ++ b).length - next < n := by omega
      rw [both] at room
      obtain ⟨pages, rest, none_, reported⟩ := forward_torn later (closed.append closed') apart low (by rw [← both]; omega) room
      rw [if_pos ⟨by omega, by omega⟩]
      rw [← both] at rest reported
      refine ⟨_, congrArg (Option.map _) rest, ?_, fun p mem => ?_⟩
      · have some_ : y ≠ [] := by
          rintro rfl
          cases far
        rw [records, flatMap_cons, ← records, none_, numbers, same', recordsOf_append closed', recordsOf_all (closed_kept closed')]
        rw [recordsOf, lines_fragment apart some_]
        simp [numbered, kept_fragment apart]
      · rcases mem_cons.1 mem with rfl | mem
        · exact fun not_ => by cases not_
        · exact reported p mem

/-! ### Backward -/

theorem Reported.mono {p : Page} (reported : Reported a finished p) (later : ∀ r, Fragment a r → ∃ r', Fragment b r' ∧ r'.1 = r.1) :
    Reported b finished p := by
  intro silent i low high
  rcases reported silent i low high with shown | ⟨open_, r, torn, above⟩
  · exact .inl shown
  · obtain ⟨r', torn', same⟩ := later r torn
    exact .inr ⟨open_, r', torn', same ▸ above⟩

theorem closed_fragment (closed : Closed newline a) : ¬Fragment a r := by
  rintro ⟨mem, open_⟩
  rw [ended_of_mem_lines (mem_of_numbered mem) closed] at open_
  cases open_

theorem window_empty (file : Bytes) (back : direction ≠ .after) (ends : windowEnd size direction cursor = 0) :
    window (some file) size direction cursor finished = ⟨0, 0, [], false⟩ := by
  have begins : windowStart size direction cursor = 0 := by rw [windowStart, if_neg back, ends, Nat.zero_sub]
  rw [window_eq, begins, ends]
  simp [aligned, readRecords]

/-- A line that goes on is no record. -/
theorem recordsOf_torn (closed : Closed newline a) (apart : newline ∉ y) : recordsOf false o (a ++ y) = recordsOf false o a := by
  rw [recordsOf_append closed]
  by_cases none_ : y = []
  · rw [none_]
    simp [recordsOf, lines, numbered]
  · rw [recordsOf.eq_1 false _ y, lines_fragment apart none_]
    simp [numbered, kept_fragment apart]

theorem backward_whole (later : Bytes) (fits : Fits finished a) (back : direction ≠ .after) (ends : windowEnd size direction cursor = a.length)
    (room : a.length ≤ size) (fuel : a.length < n) :
    ∃ pages, backward (a ++ later) size finished n direction cursor = some pages ∧ (records pages).Perm (recordsOf finished 0 a) ∧
      ∀ p ∈ pages, Reported a finished p := by
  induction n generalizing a direction cursor later with
  | zero => exact absurd fuel (Nat.not_lt_zero _)
  | succ n ih =>
    rw [backward]
    by_cases none_ : a = []
    · subst none_
      rw [window_empty _ back ends, ends]
      exact ⟨_, rfl, .refl _, fun p mem => by rw [mem_singleton.1 mem]; exact fun _ i _ high => absurd high (Nat.not_lt_zero i)⟩
    obtain ⟨x, y, rfl, closed, line, some_⟩ := @last_line _ _ newline a none_
    have length : (x ++ y).length = x.length + y.length := length_append
    by_cases near : (x ++ y).length ≤ x.length + page
    · obtain ⟨a, b, next, same, closed', order, wide, shown⟩ := window_back later finished back ends closed some_ near
      have pos := length_pos_iff.2 some_
      rw [shown]
      dsimp only
      have here : Reported (x ++ y) finished ⟨a.length, windowEnd size direction cursor, ⟨a.length, next, recordsOf finished a.length b, false⟩⟩ := by
        intro _ i low high
        rw [ends, same, length_append] at high
        rw [← @flatten_lines _ _ newline b] at high
        obtain ⟨r, mem, range⟩ := numbered_cover low high
        by_cases keeps : kept finished r.2 = true
        · exact .inl ⟨r, mem_filter.2 ⟨mem, keeps⟩, range⟩
        · rw [kept, Bool.or_eq_true, not_or, Bool.not_eq_true, Bool.not_eq_true] at keeps
          refine .inr ⟨keeps.2, r, ⟨?_, keeps.1⟩, range.1⟩
          rw [same, numbered_lines closed', Nat.zero_add]
          exact mem_append_right _ mem
      split_ifs with more
      · have ends' : windowEnd size .before a.length = a.length := by rw [windowEnd, if_pos rfl, min_eq_left (by omega)]
        rw [same] at fits
        have back' : Direction.before ≠ .after := by decide
        obtain ⟨pages, rest, all, reported⟩ := ih (b ++ later) (fits.left closed') back' ends' (by omega) (by omega)
        rw [← append_assoc, ← same] at rest
        refine ⟨_, congrArg (Option.map _) rest, ?_, fun p mem => ?_⟩
        · rw [same, recordsOf_append closed', Nat.zero_add, records, flatMap_cons]
          exact (List.Perm.append_left _ all).trans perm_append_comm
        · rcases mem_cons.1 mem with rfl | mem
          · exact here
          · exact (reported p mem).mono fun r torn => absurd torn (closed_fragment closed')
      · have empty : a = [] := length_eq_zero_iff.1 (by omega)
        subst empty
        rw [nil_append] at same
        refine ⟨_, rfl, ?_, fun p mem => ?_⟩
        · rw [same, records, flatMap_singleton]
          exact .refl _
        · rw [mem_singleton.1 mem]
          exact here
    · have long : page < y.length := by omega
      have open_ : kept finished y = false := by
        rw [← Bool.not_eq_true]
        exact fun keeps => absurd (fits y line keeps) (by omega)
      rw [kept, Bool.or_eq_false_iff] at open_
      obtain ⟨goes, unfinished⟩ := open_
      subst unfinished
      have apart := apart_of_mem_lines line goes
      have pos := page_pos
      obtain ⟨k, total⟩ : ∃ k, y.length = k + 1 + page := ⟨y.length - 1 - page, by omega⟩
      have begins : windowStart size direction cursor = x.length + (k + 1) := by
        rw [windowStart, if_neg back, ends]
        omega
      rw [window_within later false apart begins ends (by omega) (by omega) le_rfl]
      dsimp only
      rw [if_pos (by omega)]
      -- The part of the line that is left goes on too.
      have length' : (x ++ y.take (k + 1)).length = x.length + (k + 1) := by
        rw [length_append, length_take, min_eq_left (by omega)]
      have free : newline ∉ y.take (k + 1) := fun mem => apart (mem_of_mem_take mem)
      have left : y.take (k + 1) ≠ [] := by
        rw [← length_pos_iff, length_take, min_eq_left (by omega)]
        exact Nat.succ_pos k
      have parts : x ++ y ++ later = x ++ y.take (k + 1) ++ (y.drop (k + 1) ++ later) := by
        rw [append_assoc x, append_assoc x, ← append_assoc (y.take _), take_append_drop]
      have fits' : Fits false (x ++ y.take (k + 1)) := by
        intro l mem keeps
        rw [lines_append closed, lines_fragment free left] at mem
        rcases mem_append.1 mem with mem | mem
        · exact fits.left closed l mem keeps
        · rw [mem_singleton.1 mem, kept_fragment free] at keeps
          cases keeps
      have ends' : windowEnd size .before (x.length + (k + 1)) = (x ++ y.take (k + 1)).length := by
        rw [length', windowEnd, if_pos rfl, min_eq_left (by omega)]
      have back' : Direction.before ≠ .after := by decide
      obtain ⟨pages, rest, all, reported⟩ := ih (y.drop (k + 1) ++ later) fits' back' ends' (by omega) (by omega)
      rw [← parts] at rest
      refine ⟨_, congrArg (Option.map _) rest, ?_, fun p mem => ?_⟩
      · rw [recordsOf_torn closed apart, records, flatMap_cons, nil_append]
        rwa [recordsOf_torn closed free] at all
      · rcases mem_cons.1 mem with rfl | mem
        · exact fun not_ => by cases not_
        · refine (reported p mem).mono fun r torn => ⟨(x.length, y), ⟨?_, goes⟩, ?_⟩
          · rw [numbered_lines closed, lines_fragment apart some_, Nat.zero_add]
            exact mem_append_right _ mem_cons_self
          · obtain ⟨mem, open_⟩ := torn
            rw [numbered_lines closed, lines_fragment free left, Nat.zero_add] at mem
            rcases mem_append.1 mem with mem | mem
            · exact absurd ⟨mem, open_⟩ (closed_fragment closed)
            · rw [mem_singleton.1 mem]

/-- Every place of the log is in some window's part. -/
theorem backward_covers {file : Bytes} (i : Nat) (back : direction ≠ .after) (done : backward file size finished n direction cursor = some pages)
    (inside : i < windowEnd size direction cursor) :
    ∃ p ∈ pages, p.low ≤ i ∧ i < p.high ∧ ∃ direction' cursor', direction' ≠ .after ∧ windowEnd size direction' cursor' = p.high ∧
      p.window = window (some file) size direction' cursor' finished ∧ p.low = p.window.start := by
  induction n generalizing direction cursor pages with
  | zero => cases done
  | succ n ih =>
    rw [backward] at done
    by_cases here : (window (some file) size direction cursor finished).start ≤ i
    · refine ⟨⟨_, windowEnd size direction cursor, window (some file) size direction cursor finished⟩, ?_, here, inside, direction, cursor,
        back, rfl, rfl, rfl⟩
      split_ifs at done
      · obtain ⟨rest, -, rfl⟩ := map_eq_some_iff.1 done
        exact mem_cons_self
      · cases done
        exact mem_cons_self
    · rw [if_pos (by omega)] at done
      obtain ⟨rest, before, rfl⟩ := map_eq_some_iff.1 done
      have back' : Direction.before ≠ .after := by decide
      have within : windowEnd size direction cursor ≤ size := windowEnd_le
      have inside' : i < windowEnd size .before (window (some file) size direction cursor finished).start := by
        rw [windowEnd, if_pos rfl]
        omega
      obtain ⟨p, mem, found⟩ := ih back' before inside'
      exact ⟨p, mem_cons_of_mem _ mem, found⟩

/-- Over a line that is longer than a page, going back shows a part of it, or passes over it. -/
theorem backward_fits (done : backward (log ++ later) log.length finished n .tail 0 = some pages) (whole : Whole log finished pages) :
    Fits finished log := by
  intro l line keeps
  by_contra long
  obtain ⟨x, rest, same, closed, some_, inside, last, numbers⟩ := line_split line
  have own : (x.length, l) ∈ numbered 0 (lines newline log) := by
    have there := numbers 0
    rwa [Nat.zero_add] at there
  have total : log.length = x.length + l.length + rest.length := by rw [same, length_append, length_append]
  have pos := length_pos_iff.2 some_
  have back : Direction.tail ≠ .after := by decide
  obtain ⟨p, mem, low, high, direction, cursor, back', ends, shows, starts⟩ := 
    backward_covers x.length back done (by rw [windowEnd, if_neg (by decide)]; omega)
  -- The window ends within the line.
  have near : p.high ≤ x.length + page := by
    have begins := @windowStart_le (log ++ later) log.length finished direction cursor
    rw [← shows, ← starts, windowStart, if_neg back', ends] at begins
    omega
  obtain ⟨k, part⟩ := Nat.exists_eq_add_of_lt high
  have short : k + 1 < l.length := by omega
  have length : (x ++ l.take (k + 1)).length = p.high := by
    rw [length_append, length_take, min_eq_left short.le, part, Nat.add_assoc]
  have left : l.take (k + 1) ≠ [] := by
    rw [← length_pos_iff, length_take, min_eq_left short.le]
    exact Nat.succ_pos k
  have apart : newline ∉ l.take (k + 1) := by
    have prefix_ : l.take (k + 1) = l.dropLast.take (k + 1) := by
      rw [dropLast_eq_take, take_take, min_eq_left (by omega)]
    rw [prefix_]
    exact fun there => inside (mem_of_mem_take there)
  have parts : log ++ later = x ++ l.take (k + 1) ++ (l.drop (k + 1) ++ rest ++ later) := by
    conv_lhs => rw [same, ← take_append_drop (k + 1) l]
    simp only [append_assoc]
  rw [← length] at ends near
  obtain ⟨a, b, next, same', closed', order, -, shown⟩ := window_back (l.drop (k + 1) ++ rest ++ later) finished back' ends closed left near
  rw [← parts, ← shows] at shown
  have torn : (x.length, l.take (k + 1)) ∈ numbered a.length (lines newline b) := by
    have there : (x.length, l.take (k + 1)) ∈ numbered 0 (lines newline (x ++ l.take (k + 1))) := by
      rw [numbered_lines closed, lines_fragment apart left, Nat.zero_add]
      exact mem_append_right _ mem_cons_self
    rw [same', numbered_lines closed', Nat.zero_add] at there
    refine (mem_append.1 there).resolve_left fun before => ?_
    have range := (numbered_range before).2
    rw [flatten_lines] at range
    have pos' := length_pos_iff.2 left
    have past : x.length + (l.take (k + 1)).length ≤ 0 + a.length := range
    omega
  have size : (l.take (k + 1)).length = k + 1 := by rw [length_take, min_eq_left short.le]
  cases finished with
  | true =>
    have record : (x.length, l.take (k + 1)) ∈ records pages := by
      refine mem_flatMap.2 ⟨p, mem, ?_⟩
      rw [shown]
      exact mem_filter.2 ⟨torn, by rw [kept, Bool.or_true]⟩
    have there : (x.length, l.take (k + 1)) ∈ numbered 0 (lines newline log) := by
      rcases whole.only _ record with complete | ⟨-, fragment⟩
      · exact complete.1
      · exact fragment.1
    have one := numbered_unique x.length there own le_rfl (by dsimp only; omega) le_rfl (by dsimp only; omega)
    have lengths := congrArg (fun r => r.2.length) one
    dsimp only at lengths
    omega
  | false =>
    rw [kept, Bool.or_false] at keeps
    have silent : p.window.skipped = false := by rw [shown]
    rcases whole.reported p mem silent x.length low high with ⟨r, record, range⟩ | ⟨-, r, ⟨there, open_⟩, before⟩
    · rw [shown] at record
      obtain ⟨there, kept_⟩ := mem_filter.1 record
      have one := numbered_unique x.length there torn range.1 range.2 le_rfl (by dsimp only; omega)
      rw [one, kept_fragment apart] at kept_
      cases kept_
    · have to_end := fragment_end there open_
      have one := numbered_unique x.length there own before (by omega) le_rfl (by dsimp only; omega)
      rw [one, keeps] at open_
      cases open_

/-! ### Both ways -/

/-- Paging either way shows the log as a whole just where no line that is shown is longer than a page. -/
theorem paging_whole (log later : Bytes) (finished : Bool) : Shown log later finished ↔ Fits finished log := by
  constructor
  · rintro ⟨-, pages, done, whole⟩
    exact backward_fits done whole
  · intro fits
    have start : Closed newline ([] : Bytes) := .inl rfl
    obtain ⟨pages, done, all, reported⟩ := forward_whole later start fits (Nat.lt_succ_self _)
    have ends : windowEnd log.length .tail 0 = log.length := rfl
    have back : Direction.tail ≠ .after := by decide
    obtain ⟨pages', done', all', reported'⟩ := backward_whole later fits back ends le_rfl (Nat.lt_succ_self _)
    refine ⟨⟨pages, done, whole_of_records ?_ reported⟩, pages', done', whole_of_records all' reported'⟩
    rw [all]
    exact .refl _

/-- A line of a page and its newline, in a log that is finished. -/
def pageful : Bytes := List.replicate page 120 ++ [newline]

theorem paging_whole_long : ¬Shown pageful [] true := by
  rintro ⟨-, pages, done, whole⟩
  have fits := backward_fits done whole
  have apart : newline ∉ List.replicate page (120 : UInt8) := fun there => absurd (eq_of_mem_replicate there) (by decide)
  have line : pageful ∈ lines newline pageful := by
    rw [pageful, ← append_nil (List.replicate page (120 : UInt8) ++ [newline]), append_assoc, singleton_append, lines_complete apart]
    exact mem_cons_self
  have short := fits pageful line (by rw [kept, Bool.or_true])
  rw [pageful, length_append, length_replicate, length_singleton] at short
  omega

end

end Experiment.Logs
