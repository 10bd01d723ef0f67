import Nanofil.Lib.Aggregates
import Mathlib.Data.List.AList

/-! Keyed observations with their revisions, the newest of each key, and indexes of keys that are
patched by what was observed. -/
namespace Observations
open List Option

/-- What a revision saw of a key; none when it was gone. -/
structure Observation (κ ν : Type) where
  key : κ
  revision : Nat
  value : Option ν

variable {κ ν : Type} [DecidableEq κ]

/-- The value in the newest observation of a key, if that did not see it gone. -/
def current (os : List (Observation κ ν)) (k : κ) : Option ν :=
  (Aggregates.argMax ((os.filter (·.key = k)).map (fun o => (o.revision, o.value)))).join

omit [DecidableEq κ] in
/-- What is there at most once is found by its key. -/
theorem filter_once {α : Type} {key : α → κ} [DecidableEq κ] {xs : List α} (once : (xs.map key).Nodup) (k : κ) :
    xs.filter (fun x => key x = k) = (xs.find? (fun x => key x = k)).toList := by
  induction xs with
  | nil => rfl
  | cons x xs ih =>
    rw [map_cons, nodup_cons] at once
    by_cases here : key x = k
    · have absent : ∀ y ∈ xs, ¬key y = k := fun y there same => once.1 (List.mem_map.2 ⟨y, there, same.trans here.symm⟩)
      rw [filter_cons_of_pos (by simpa using here), find?_cons_of_pos (by simpa using here),
        filter_eq_nil_iff.2 (by simpa using absent)]
      rfl
    · rw [filter_cons_of_neg (by simpa using here), find?_cons_of_neg (by simpa using here)]
      exact ih once.2

omit [DecidableEq κ] in
theorem find_once {α : Type} {key : α → κ} [DecidableEq κ] {xs : List α} (once : (xs.map key).Nodup) {k : κ} {x : α} :
    xs.find? (fun x => key x = k) = some x ↔ x ∈ xs ∧ key x = k := by
  rw [← mem_toList, ← filter_once once k, mem_filter, decide_eq_true_iff]

/-- The observations of a later revision, each key once, are those that count. -/
theorem current_append {os new : List (Observation κ ν)} {n : Nat} (before : ∀ o ∈ os, o.revision < n)
    (all : ∀ o ∈ new, o.revision = n) (once : (new.map (·.key)).Nodup) (k : κ) :
    current (os ++ new) k = match new.find? (·.key = k) with
      | some o => o.value
      | none => current os k := by
  rw [current, filter_append, filter_once once k]
  cases found : new.find? (fun o => decide (o.key = k)) with
  | none =>
    rw [toList_none, append_nil]
    rfl
  | some o =>
    have later : ∀ y ∈ (os.filter (·.key = k)).map (fun o => (o.revision, o.value)), y.1 < (o.revision, o.value).1 := by
      intro y there
      obtain ⟨o', seen, rfl⟩ := List.mem_map.1 there
      have same := all o (mem_of_find?_eq_some found)
      exact same ▸ before o' (mem_of_mem_filter seen)
    rw [toList_some, map_append, map_singleton, Aggregates.argMax_append later]
    rfl

/-! ### Patches -/

variable {α : Type}

/-- Changes to an index, one for each key at most; none removes its key. -/
abbrev Patch (κ α : Type) := AList (fun _ : κ => Option α)

def patchEntry (index : AList (fun _ : κ => α)) (c : Sigma (fun _ : κ => Option α)) : AList (fun _ : κ => α) :=
  match c.2 with
  | some a => index.insert c.1 a
  | none => index.erase c.1

def patched (index : AList (fun _ : κ => α)) (changes : Patch κ α) : AList (fun _ : κ => α) :=
  changes.entries.foldl patchEntry index

theorem lookup_patchEntry (index : AList (fun _ : κ => α)) (c : Sigma (fun _ : κ => Option α)) (k : κ) :
    (patchEntry index c).lookup k = if k = c.1 then c.2 else index.lookup k := by
  obtain ⟨k', a⟩ := c
  rw [patchEntry]
  by_cases here : k = k'
  · subst here
    cases a <;> simp
  · cases a <;> simp [here]

theorem lookup_patched (index : AList (fun _ : κ => α)) (changes : Patch κ α) (k : κ) :
    (patched index changes).lookup k = (changes.lookup k).getD (index.lookup k) := by
  have from_entries : ∀ (entries : List (Sigma (fun _ : κ => Option α))) (index : AList (fun _ : κ => α)),
      entries.NodupKeys →
        (entries.foldl patchEntry index).lookup k = (entries.dlookup k).getD (index.lookup k) := by
    intro entries
    induction entries with
    | nil => exact fun _ _ => rfl
    | cons c entries ih =>
      intro index once
      rw [nodupKeys_cons] at once
      rw [foldl_cons, ih _ once.2, lookup_patchEntry]
      by_cases here : k = c.1
      · subst here
        rw [dlookup_cons_eq, dlookup_eq_none.2 once.1, if_pos rfl]
        rfl
      · rw [dlookup_cons_ne _ _ here, if_neg here]
  exact from_entries changes.entries index changes.nodupKeys

end Observations
