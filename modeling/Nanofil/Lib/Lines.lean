import Mathlib.Data.List.Basic
import Mathlib.Data.List.Nodup

/-! Lists cut into lines after each separator, read with a limit, and numbered by their offsets. -/
namespace Lines
open List

variable {α : Type}

section
variable [DecidableEq α]

/-- The first line, with its separator if there is one. -/
def line (sep : α) : List α → List α
  | [] => []
  | x :: xs => if x = sep then [x] else x :: line sep xs

/-- What a read of a line gives that stops at a limit. -/
def readline (sep : α) (limit : Nat) (xs : List α) : List α := (line sep xs).take limit

/-- All lines, each with its separator; the last may have none. -/
def lines (sep : α) : List α → List (List α)
  | [] => []
  | x :: xs =>
    if x = sep then [x] :: lines sep xs
    else
      match lines sep xs with
      | [] => [[x]]
      | l :: ls => (x :: l) :: ls

/-- Whether a line is complete. -/
def ended (sep : α) (l : List α) : Bool := l.getLast? = some sep

/-- A list that ends between lines. -/
def Closed (sep : α) (xs : List α) : Prop := xs = [] ∨ ended sep xs = true

end

/-- Where the last complete line ends. -/
def lastEnd [DecidableEq α] (sep : α) (xs : List α) : Nat := xs.length - (xs.reverse.takeWhile (· ≠ sep)).length

/-- Lines with their offsets. -/
def numbered : Nat → List (List α) → List (Nat × List α)
  | _, [] => []
  | o, l :: ls => (o, l) :: numbered (o + l.length) ls

/-! ### Forms of a list -/

section
variable [DecidableEq α] {sep : α} {xs ys u : List α} {n : Nat}

theorem line_forms (sep : α) (xs : List α) : sep ∉ xs ∨ ∃ u rest, sep ∉ u ∧ xs = u ++ sep :: rest := by
  by_cases mem : sep ∈ xs
  · obtain ⟨u, rest, same, apart⟩ := eq_append_cons_of_mem mem
    exact .inr ⟨u, rest, apart, same⟩
  · exact .inl mem

theorem line_fragment (apart : sep ∉ u) : line sep u = u := by
  induction u with
  | nil => rfl
  | cons x u ih =>
    rw [mem_cons, not_or] at apart
    rw [line, if_neg (Ne.symm apart.1), ih apart.2]

theorem line_complete (apart : sep ∉ u) (rest : List α) : line sep (u ++ sep :: rest) = u ++ [sep] := by
  induction u with
  | nil => rw [nil_append, line, if_pos rfl, nil_append]
  | cons x u ih =>
    rw [mem_cons, not_or] at apart
    rw [cons_append, line, if_neg (Ne.symm apart.1), ih apart.2, cons_append]

theorem line_apart (apart : sep ∉ u) (ys : List α) : line sep (u ++ ys) = u ++ line sep ys := by
  induction u with
  | nil => rfl
  | cons x u ih =>
    rw [mem_cons, not_or] at apart
    rw [cons_append, line, if_neg (Ne.symm apart.1), ih apart.2, cons_append]

/-- A read gives the line, or as much of it as the limit allows. -/
theorem readline_cases (sep : α) (limit : Nat) (xs : List α) :
    readline sep limit xs = line sep xs ∨ sep ∉ readline sep limit xs ∧ (readline sep limit xs).length = limit := by
  by_cases short : limit < (line sep xs).length
  · refine .inr ⟨?_, length_take_of_le (Nat.le_of_lt short)⟩
    rcases line_forms sep xs with apart | ⟨u, rest, apart, rfl⟩
    · rw [readline, line_fragment apart]
      exact fun there => apart (mem_of_mem_take there)
    · rw [line_complete apart, length_append, length_singleton] at short
      rw [readline, line_complete apart, take_append_of_le_length (by omega)]
      exact fun there => apart (mem_of_mem_take there)
  · exact .inl (take_of_length_le (Nat.le_of_not_lt short))

theorem lines_fragment (apart : sep ∉ u) (some_ : u ≠ []) : lines sep u = [u] := by
  induction u with
  | nil => exact absurd rfl some_
  | cons x u ih =>
    rw [mem_cons, not_or] at apart
    rw [lines, if_neg (Ne.symm apart.1)]
    cases u with
    | nil => rfl
    | cons y u => rw [ih apart.2 (cons_ne_nil y u)]

theorem lines_complete (apart : sep ∉ u) (rest : List α) : lines sep (u ++ sep :: rest) = (u ++ [sep]) :: lines sep rest := by
  induction u with
  | nil => rw [nil_append, lines, if_pos rfl, nil_append]
  | cons x u ih =>
    rw [mem_cons, not_or] at apart
    rw [cons_append, lines, if_neg (Ne.symm apart.1), ih apart.2, cons_append]

/-- By the first line: none, one that is not complete, or one with more after it. -/
theorem lines_induction {P : List α → Prop} (sep : α) (none_ : P []) (fragment : ∀ u, sep ∉ u → u ≠ [] → P u)
    (complete : ∀ u rest, sep ∉ u → P rest → P (u ++ sep :: rest)) (xs : List α) : P xs := by
  generalize length : xs.length = n
  induction n using Nat.strongRecOn generalizing xs with
  | ind n ih =>
    rcases line_forms sep xs with apart | ⟨u, rest, apart, rfl⟩
    · cases xs with
      | nil => exact none_
      | cons x xs => exact fragment _ apart (cons_ne_nil x xs)
    · rw [length_append, length_cons] at length
      exact complete u rest apart (ih rest.length (by omega) rest rfl)

/-! ### Completeness -/

theorem ended_append : ended sep (u ++ [sep]) = true := by
  rw [ended, getLast?_concat, decide_eq_true_eq]

theorem ended_mem (done : ended sep xs = true) : sep ∈ xs := mem_of_getLast? (of_decide_eq_true done)

theorem ended_fragment (apart : sep ∉ u) : ended sep u = false := by
  by_contra done
  exact apart (ended_mem (Bool.not_eq_false _ ▸ done))

theorem ended_of_append (some_ : ys ≠ []) : ended sep (xs ++ ys) = ended sep ys := by
  rw [ended, ended, getLast?_append_of_ne_nil _ some_]

theorem Closed.append (first : Closed sep xs) (second : Closed sep ys) : Closed sep (xs ++ ys) := by
  rcases second with rfl | second
  · rwa [append_nil]
  · have some_ : ys ≠ [] := by
      rintro rfl
      cases second
    exact .inr ((ended_of_append some_).trans second)

/-- What comes after a line of a list that ends between lines does too. -/
theorem Closed.rest (closed : Closed sep (u ++ sep :: ys)) : Closed sep ys := by
  by_cases none_ : ys = []
  · exact .inl none_
  · rw [Closed, ended_of_append (cons_ne_nil _ _), ← singleton_append, ended_of_append none_] at closed
    rcases closed with empty | done
    · exact absurd empty (by simp)
    · exact .inr done

theorem lastEnd_append (closed : Closed sep xs) (apart : sep ∉ ys) : lastEnd sep (xs ++ ys) = xs.length := by
  have none_ : (xs.reverse.takeWhile (· ≠ sep)) = [] := by
    rcases closed with rfl | done
    · rfl
    · obtain ⟨u, rfl⟩ := getLast?_eq_some_iff.1 (of_decide_eq_true done)
      simp
  have all : ∀ y ∈ ys.reverse, decide (y ≠ sep) = true := fun y mem =>
    decide_eq_true fun same => apart (same ▸ mem_reverse.1 mem)
  rw [lastEnd, reverse_append, takeWhile_append_of_pos all, none_, append_nil, length_reverse, length_append,
    Nat.add_sub_cancel]

theorem line_open (open_ : ended sep (line sep xs) = false) : sep ∉ xs := by
  rcases line_forms sep xs with apart | ⟨u, rest, apart, rfl⟩
  · exact apart
  · rw [line_complete apart, ended_append] at open_
    cases open_

theorem line_append (mem : sep ∈ xs) (ys : List α) : line sep (xs ++ ys) = line sep xs := by
  rcases line_forms sep xs with apart | ⟨u, rest, apart, rfl⟩
  · exact absurd mem apart
  · rw [append_assoc, cons_append, line_complete apart, line_complete apart]

theorem line_begins : line sep xs <+: xs := by
  rcases line_forms sep xs with apart | ⟨u, rest, apart, rfl⟩
  · exact ⟨[], (append_nil _).trans (line_fragment apart)⟩
  · rw [line_complete apart]
    exact ⟨rest, by simp⟩

theorem readline_begins : readline sep n xs <+: xs := List.IsPrefix.trans ( take_prefix n _) line_begins

/-! ### Lines -/

theorem flatten_lines : (lines sep xs).flatten = xs := by
  induction xs using lines_induction sep with
  | none_ => rfl
  | fragment u apart some_ => rw [lines_fragment apart some_, flatten_singleton]
  | complete u rest apart ih => rw [lines_complete apart, flatten_cons, ih, append_assoc, singleton_append]

theorem lines_line (some_ : xs ≠ []) : lines sep (line sep xs) = [line sep xs] := by
  rcases line_forms sep xs with apart | ⟨u, rest, apart, rfl⟩
  · rw [line_fragment apart, lines_fragment apart some_]
  · rw [line_complete apart, lines_complete apart]
    rfl

theorem lines_cons (some_ : xs ≠ []) : ∃ ys, xs = line sep xs ++ ys ∧ lines sep xs = line sep xs :: lines sep ys := by
  rcases line_forms sep xs with apart | ⟨u, rest, apart, rfl⟩
  · exact ⟨[], by rw [line_fragment apart, append_nil], by rw [line_fragment apart, lines_fragment apart some_]; rfl⟩
  · exact ⟨rest, by rw [line_complete apart]; simp, by rw [line_complete apart, lines_complete apart]⟩

theorem lines_append (closed : Closed sep xs) : lines sep (xs ++ ys) = lines sep xs ++ lines sep ys := by
  induction xs using lines_induction sep with
  | none_ => rfl
  | fragment u apart some_ =>
    rcases closed with none_ | done
    · exact absurd none_ some_
    · exact absurd (ended_mem done) apart
  | complete u rest apart ih =>
    rw [append_assoc, cons_append, lines_complete apart, lines_complete apart, ih closed.rest, cons_append]

theorem ended_of_mem_lines {l : List α} (mem : l ∈ lines sep xs) (closed : Closed sep xs) : ended sep l = true := by
  induction xs using lines_induction sep with
  | none_ => cases mem
  | fragment u apart some_ =>
    rcases closed with none_ | done
    · exact absurd none_ some_
    · exact absurd (ended_mem done) apart
  | complete u rest apart ih =>
    rw [lines_complete apart] at mem
    rcases mem_cons.1 mem with rfl | mem
    · exact ended_append
    · exact ih mem closed.rest

/-- A list is its complete lines, and what comes after them. -/
theorem complete_part (sep : α) (xs : List α) : ∃ a b, xs = a ++ b ∧ Closed sep a ∧ sep ∉ b ∧ (lines sep xs).filter (ended sep) = lines sep a ∧
    ((lines sep xs).filter (fun l => !ended sep l)).flatten = b := by
  induction xs using lines_induction sep with
  | none_ => exact ⟨[], [], rfl, .inl rfl, not_mem_nil, rfl, rfl⟩
  | fragment u apart some_ =>
    refine ⟨[], u, rfl, .inl rfl, apart, ?_, ?_⟩
    · rw [lines_fragment apart some_, filter_singleton, ended_fragment apart]
      rfl
    · rw [lines_fragment apart some_, filter_singleton, ended_fragment apart]
      exact flatten_singleton
  | complete u rest apart ih =>
    obtain ⟨a, b, rfl, closed, free, whole, left⟩ := ih
    refine ⟨u ++ sep :: a, b, by simp, ?_, free, ?_, ?_⟩
    · have both : Closed sep (u ++ [sep] ++ a) := Closed.append (.inr ended_append) closed
      rwa [append_assoc, singleton_append] at both
    · rw [lines_complete apart, lines_complete apart, filter_cons_of_pos ended_append, whole]
    · rw [lines_complete apart, filter_cons_of_neg (by rw [ended_append]; decide), left]

/-- A list is what comes before its last line, and that line. -/
theorem last_line (some_ : xs ≠ []) : ∃ before l, xs = before ++ l ∧ Closed sep before ∧ l ∈ lines sep xs ∧ l ≠ [] := by
  induction xs using lines_induction sep with
  | none_ => exact absurd rfl some_
  | fragment u apart some_ => exact ⟨[], u, rfl, .inl rfl, by rw [lines_fragment apart some_]; exact mem_cons_self, some_⟩
  | complete u rest apart ih =>
    rw [lines_complete apart]
    by_cases none_ : rest = []
    · subst none_
      exact ⟨[], u ++ [sep], rfl, .inl rfl, mem_cons_self, by simp⟩
    · obtain ⟨before, l, same, closed, mem, line⟩ := ih none_
      refine ⟨u ++ [sep] ++ before, l, by simp [same], ?_, mem_cons_of_mem _ mem, line⟩
      exact Closed.append (.inr ended_append) closed

/-- A line is between lists that end between lines, but for what comes after one that is not complete. -/
theorem line_split {l : List α} (mem : l ∈ lines sep xs) :
    ∃ before after, xs = before ++ l ++ after ∧ Closed sep before ∧ l ≠ [] ∧ sep ∉ l.dropLast ∧ (ended sep l = false → after = []) ∧
      ∀ o, (o + before.length, l) ∈ numbered o (lines sep xs) := by
  induction xs using lines_induction sep with
  | none_ => cases mem
  | fragment u apart some_ =>
    rw [lines_fragment apart some_, mem_singleton] at mem
    subst mem
    refine ⟨[], [], (append_nil _).symm, .inl rfl, some_, fun there => apart (dropLast_subset _ there), fun _ => rfl, fun o => ?_⟩
    rw [lines_fragment apart some_]
    exact mem_cons_self
  | complete u rest apart ih =>
    rw [lines_complete apart] at mem ⊢
    rcases mem_cons.1 mem with rfl | mem
    · refine ⟨[], rest, by simp, .inl rfl, by simp, by rwa [dropLast_concat], fun open_ => ?_, fun o => mem_cons_self⟩
      rw [ended_append] at open_
      cases open_
    · obtain ⟨before, after, same, closed, some_, inside, last, there⟩ := ih mem
      refine ⟨u ++ [sep] ++ before, after, by simp [same], ?_, some_, inside, last, fun o => ?_⟩
      · exact Closed.append (.inr ended_append) closed
      · rw [length_append, ← Nat.add_assoc]
        exact mem_cons_of_mem _ (there _)

/-- The separator is in a complete line only. -/
theorem apart_of_mem_lines {l : List α} (mem : l ∈ lines sep xs) (open_ : ended sep l = false) : sep ∉ l := by
  obtain ⟨_, _, -, -, some_, inside, -⟩ := line_split mem
  intro there
  rw [← dropLast_append_getLast some_] at there open_
  rcases mem_append.1 there with there | there
  · exact inside there
  · rw [← mem_singleton.1 there, ended_append] at open_
    cases open_

theorem length_pos_of_mem_lines {l : List α} (mem : l ∈ lines sep xs) : 0 < l.length := by
  obtain ⟨_, _, -, -, some_, -⟩ := line_split mem
  exact length_pos_iff.2 some_

end

/-! ### Offsets -/

section
variable {ls ls' : List (List α)} {r r' : Nat × List α} {o i : Nat}

theorem numbered_append : numbered o (ls ++ ls') = numbered o ls ++ numbered (o + ls.flatten.length) ls' := by
  induction ls generalizing o with
  | nil => rfl
  | cons l ls ih =>
    rw [cons_append, numbered, numbered, ih, cons_append, flatten_cons, length_append, Nat.add_assoc]

theorem mem_of_numbered (mem : r ∈ numbered o ls) : r.2 ∈ ls := by
  induction ls generalizing o with
  | nil => cases mem
  | cons l ls ih =>
    rcases mem_cons.1 mem with rfl | mem
    · exact mem_cons_self
    · exact mem_cons_of_mem _ (ih mem)

theorem numbered_range (mem : r ∈ numbered o ls) : o ≤ r.1 ∧ r.1 + r.2.length ≤ o + ls.flatten.length := by
  induction ls generalizing o with
  | nil => cases mem
  | cons l ls ih =>
    rw [flatten_cons, length_append]
    rcases mem_cons.1 mem with rfl | mem
    · exact ⟨Nat.le_refl o, by dsimp only; omega⟩
    · obtain ⟨low, high⟩ := ih mem
      exact ⟨by omega, by omega⟩

/-- Two lines with a place in common are one. -/
theorem numbered_unique (i : Nat) (mem : r ∈ numbered o ls) (mem' : r' ∈ numbered o ls) (low : r.1 ≤ i) (high : i < r.1 + r.2.length)
    (low' : r'.1 ≤ i) (high' : i < r'.1 + r'.2.length) : r = r' := by
  induction ls generalizing o with
  | nil => cases mem
  | cons l ls ih =>
    rcases mem_cons.1 mem with rfl | mem <;> rcases mem_cons.1 mem' with rfl | mem'
    · rfl
    · have later := (numbered_range mem').1
      dsimp only at high
      omega
    · have later := (numbered_range mem).1
      dsimp only at high'
      omega
    · exact ih mem mem'

theorem numbered_cover (low : o ≤ i) (high : i < o + ls.flatten.length) : ∃ r ∈ numbered o ls, r.1 ≤ i ∧ i < r.1 + r.2.length := by
  induction ls generalizing o with
  | nil => simp at high; omega
  | cons l ls ih =>
    rw [flatten_cons, length_append] at high
    by_cases here : i < o + l.length
    · exact ⟨(o, l), mem_cons_self, low, here⟩
    · obtain ⟨r, mem, range⟩ := ih (o := o + l.length) (by omega) (by omega)
      exact ⟨r, mem_cons_of_mem _ mem, range⟩

theorem numbered_nodup (some_ : ∀ l ∈ ls, 0 < l.length) : (numbered o ls).Nodup := by
  induction ls generalizing o with
  | nil => exact nodup_nil
  | cons l ls ih =>
    refine nodup_cons.2 ⟨fun mem => ?_, ih fun l mem => some_ l (mem_cons_of_mem _ mem)⟩
    have later := (numbered_range mem).1
    have pos := some_ l mem_cons_self
    dsimp only at later
    omega

/-- Lines before a place between lines, and those from it on. -/
theorem numbered_lines [DecidableEq α] {sep : α} {xs ys : List α} (closed : Closed sep xs) :
    numbered o (lines sep (xs ++ ys)) = numbered o (lines sep xs) ++ numbered (o + xs.length) (lines sep ys) := by
  rw [lines_append closed, numbered_append, flatten_lines]

/-- A line that is not complete goes to the end. -/
theorem fragment_end [DecidableEq α] {sep : α} {xs : List α} (mem : r ∈ numbered o (lines sep xs)) (open_ : ended sep r.2 = false) :
    r.1 + r.2.length = o + xs.length := by
  induction xs using lines_induction sep generalizing o with
  | none_ => cases mem
  | fragment u apart some_ =>
    rw [lines_fragment apart some_] at mem
    cases mem_singleton.1 mem
    rfl
  | complete u rest apart ih =>
    rw [lines_complete apart] at mem
    rcases mem_cons.1 mem with rfl | mem
    · rw [ended_append] at open_
      cases open_
    · rw [ih mem, length_append, length_append, length_singleton, length_cons]
      omega

end

end Lines
