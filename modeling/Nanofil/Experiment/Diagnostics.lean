import Nanofil.Experiment.Controller
import Nanofil.Logs.Ingestion

/-! `nix.py`'s reading of Nix's own log: the builds that it starts, their phases, and the builders that failed. -/
namespace Experiment
open List Logs Lines

variable {α : Type*} [BEq α]

/-! ### Texts -/

/-- Python's `in` of texts. -/
def within (part text : List α) : Bool := text.tails.any (part.isPrefixOf ·)

def escape : Char := Char.ofNat 27

/-- The length of `\x1b\[[0-9;]*m` at the start of a text. -/
def styleLength : List Char → Option Nat
  | c :: '[' :: cs =>
    let codes := cs.takeWhile fun c => c.isDigit || c = ';'
    if c = escape && (cs.drop codes.length).head? = some 'm' then some (codes.length + 3) else none
  | _ => none

/-- A text without its styles, after some characters of one. -/
def unstyled : Nat → List Char → List Char
  | _, [] => []
  | skip + 1, _ :: cs => unstyled skip cs
  | 0, c :: cs =>
    match styleLength (c :: cs) with
    | some n => unstyled (n - 1) cs
    | none => c :: unstyled 0 cs

/-- `\s` of texts. -/
def spaceChar (c : Char) : Bool :=
  c.toNat ∈ [32, 133, 160, 5760, 8232, 8233, 8239, 8287, 12288] || (9 ≤ c.toNat && c.toNat ≤ 13) ||
    (28 ≤ c.toNat && c.toNat ≤ 31) || (8192 ≤ c.toNat && c.toNat ≤ 8202)

/-- `[^\s'\";]` -/
def nameChar (c : Char) : Bool := !spaceChar c && c.toNat ∉ [34, 39, 59]

/-- What comes before a derivation's name: `/nix/store/[a-z0-9]{32}-`. -/
def storeStart (text : List Char) : Bool :=
  "/nix/store/".toList.isPrefixOf text && ((text.drop 11).take 32).length = 32 && ((text.drop 11).take 32).all storeChar &&
    (text.drop 43).head? = some '-'

def endsDrv (name : List Char) : Bool := 5 ≤ name.length && ".drv".toList.isSuffixOf name

/-- `DRV.fullmatch` -/
def isDrv (s : String) : Bool := storeStart s.toList && (s.toList.drop 44).all nameChar && endsDrv (s.toList.drop 44)

/-- The longest match of `DRV` at the start of a text. -/
def drvLength (text : List Char) : Option Nat :=
  let name := (text.drop 44).takeWhile nameChar
  if storeStart text then ((List.range (name.length + 1)).reverse.find? fun n => endsDrv (name.take n)).map (44 + ·) else none

/-- `DRV.search` -/
def findDrv : List Char → Option Drv
  | [] => none
  | c :: cs =>
    match drvLength (c :: cs) with
    | some n => some (String.ofList ((c :: cs).take n))
    | none => findDrv cs

/-! ### Records -/

/-- A record's first field, if it is a text. -/
def firstText (e : Json) : Option String :=
  match e.get "fields" with
  | some (.array (.string text :: _)) => some text
  | _ => none

def isRecord (e : Json) (action : String) (type : Int) : Bool :=
  (e.get "action").any (·.isString action) && (e.get "type").any (·.equals type)

section
-- `loads` gives nothing where `json.loads` finds no value; `str` is Python's.
variable (loads : Bytes → Option Json) (str : Json → String)

def decoded (line : Bytes) : Option Json := if marker.isPrefixOf line then loads (line.drop 5) else none

/-- What `observe` keeps of a line. -/
def recordOf (line : Bytes) : Option Record :=
  (decoded loads line).bind fun e =>
    let act := (e.get "id").elim "" str
    (firstText e).bind fun text =>
      if isRecord e "start" 105 then if isDrv text then some (.start act text) else none
      else if isRecord e "result" 104 then some (.phase act text)
      else none

/-! ### Failures -/

/-- Nix's root builder-failed diagnostic. -/
def rootFailure (msg : List Char) : Bool :=
  (within "builder for".toList msg && within "failed".toList msg) ||
    ("error: Cannot build '".toList.isPrefixOf msg && within "Reason: builder failed with exit code".toList msg)

def failureOfMessage (e : Json) : Option Drv :=
  match e.get "msg" with
  | some (.string msg) =>
    let text := unstyled 0 msg.toList
    if (e.get "action").any (·.isString "msg") && rootFailure text then findDrv text else none
  | _ => none

/-- `failure_messages` -/
def failureMessages (raw : Bytes) : List Drv := (splitlines raw).filterMap fun line => (decoded loads line).bind failureOfMessage

/-- `Unable to start any build` -/
def unableText : Bytes := "Unable to start any build".toList.map fun c => UInt8.ofNat c.toNat

/-- What `finish_build` reads of an attempt that ended. -/
def Ended.of (raw : Bytes) (reason : String) (truncated : Bool) (before : Option (List StorePath)) (valid : StorePath → Bool) : Ended :=
  ⟨reason, truncated, if reason = "build-error" then failureMessages loads raw else [], within unableText raw, before, valid⟩

end

/-! ### Dependents -/

def spaceless (text : List Char) : Bool := ' ' ∉ text

/-- Nix's diagnostic of a derivation that some dependencies kept from being built, without its styles. -/
def dependentLine (drv count : List Char) (one : Bool) (outputs : List (List Char)) : List Char :=
  "error: Cannot build '".toList ++ drv ++ "'.\n       Reason: ".toList ++ count ++
    (if one then " dependency failed.\n       Output paths:".toList else " dependencies failed.\n       Output paths:".toList) ++
    outputs.flatMap fun o => "\n         ".toList ++ o

/-- How much of `r f` a text ends in, or 3 once it has it. -/
def progress (s : Nat) (c : Char) : Nat :=
  if s = 3 ∨ s = 2 ∧ c = 'f' then 3 else if s = 1 ∧ c = ' ' then 2 else if c = 'r' then 1 else 0

variable {text u v part : List Char} {s : Nat}

theorem progress_done (v : List Char) : v.foldl progress 3 = 3 := by
  induction v with
  | nil => rfl
  | cons c v ih => exact ih

theorem progress_found (bound : s ≤ 3) (u v : List Char) : (u ++ ('r' :: ' ' :: 'f' :: v)).foldl progress s = 3 := by
  induction u generalizing s with
  | nil =>
    have turns : progress (progress (progress s 'r') ' ') 'f' = 3 := by
      obtain rfl | rfl | rfl | rfl : s = 0 ∨ s = 1 ∨ s = 2 ∨ s = 3 := by omega
      all_goals rfl
    simp only [nil_append, foldl_cons, turns]
    exact progress_done v
  | cons c u ih =>
    refine ih ?_
    rw [progress]
    split_ifs <;> decide

theorem within_infix {part text : List Char} (found : within part text = true) : ∃ u v, text = u ++ (part ++ v) := by
  obtain ⟨tail, there, begins⟩ := any_eq_true.1 found
  obtain ⟨u, rfl⟩ := (mem_tails _ _).1 there
  obtain ⟨v, rfl⟩ := isPrefixOf_iff_prefix.1 begins
  exact ⟨u, v, rfl⟩

/-- Both of Nix's words for a builder's failure have an `r f`. -/
theorem rootFailure_progress (root : rootFailure text = true) : text.foldl progress 0 = 3 := by
  rw [rootFailure, Bool.or_eq_true, Bool.and_eq_true, Bool.and_eq_true] at root
  obtain ⟨found, -⟩ | ⟨-, found⟩ := root
  · obtain ⟨u, v, rfl⟩ := within_infix found
    have words : "builder for".toList = "builde".toList ++ 'r' :: ' ' :: 'f' :: "or".toList := by decide
    rw [words, append_assoc, ← append_assoc u]
    exact progress_found (Nat.zero_le 3) _ _
  · obtain ⟨u, v, rfl⟩ := within_infix found
    have words : "Reason: builder failed with exit code".toList =
        "Reason: builde".toList ++ 'r' :: ' ' :: 'f' :: "ailed with exit code".toList := by decide
    rw [words, append_assoc, ← append_assoc u]
    exact progress_found (Nat.zero_le 3) _ _

theorem progress_word (plain : spaceless text = true) (low : s ≤ 1) : text.foldl progress s ≤ 1 := by
  induction text generalizing s with
  | nil => exact low
  | cons c text ih =>
    simp only [spaceless, mem_cons, not_or, decide_eq_true_eq] at plain ih
    refine ih plain.2 ?_
    rw [progress]
    split_ifs with found next
    · omega
    · exact absurd next.2.symm plain.1
    all_goals omega

theorem progress_outputs {outputs : List (List Char)} (plain : ∀ o ∈ outputs, spaceless o = true) (low : s ≤ 1) :
    (outputs.flatMap fun o => "\n         ".toList ++ o).foldl progress s ≤ 1 := by
  induction outputs generalizing s with
  | nil => exact low
  | cons o outputs ih =>
    have start : "\n         ".toList.foldl progress s = 0 := by
      obtain rfl | rfl : s = 0 ∨ s = 1 := by omega
      all_goals decide
    rw [flatMap_cons, foldl_append, foldl_append, start]
    exact ih (fun o mem => plain o (mem_cons_of_mem _ mem)) (progress_word (plain o mem_cons_self) (Nat.zero_le 1))

set_option maxRecDepth 4000 in
theorem progress_failed (one : Bool) (low : s ≤ 1) : (if one then " dependency failed.\n       Output paths:".toList
    else " dependencies failed.\n       Output paths:".toList).foldl progress s = 0 := by
  obtain rfl | rfl : s = 0 ∨ s = 1 := by omega
  all_goals
    cases one
    · rw [if_neg Bool.false_ne_true]
      decide
    · rw [if_pos rfl]
      decide

theorem progress_reason (low : s ≤ 1) : "'.\n       Reason: ".toList.foldl progress s = 0 := by
  obtain rfl | rfl : s = 0 ∨ s = 1 := by omega
  all_goals decide

theorem progress_parts {a b c d e f : List Char} (first : a.foldl progress 0 = 0) (second : b.foldl progress 0 ≤ 1)
    (third : ∀ {s}, s ≤ 1 → c.foldl progress s = 0) (fourth : d.foldl progress 0 ≤ 1) (fifth : ∀ {s}, s ≤ 1 → e.foldl progress s = 0)
    (last : f.foldl progress 0 ≤ 1) : (a ++ b ++ c ++ d ++ e ++ f).foldl progress 0 ≤ 1 := by
  rw [foldl_append, foldl_append, foldl_append, foldl_append, foldl_append, first, third second, fifth fourth]
  exact last

/-- A dependent-failed line is no root failure. -/
theorem dependent_quiet {drv count : List Char} {one : Bool} {outputs : List (List Char)} (name : spaceless drv = true)
    (number : spaceless count = true) (paths : ∀ o ∈ outputs, spaceless o = true) : rootFailure (dependentLine drv count one outputs) = false := by
  refine Bool.eq_false_iff.2 fun root => ?_
  have low : (dependentLine drv count one outputs).foldl progress 0 ≤ 1 :=
    progress_parts (by decide) (progress_word name (Nat.zero_le 1)) progress_reason (progress_word number (Nat.zero_le 1)) (progress_failed one)
      (progress_outputs paths (Nat.zero_le 1))
  rw [rootFailure_progress root] at low
  omega

end Experiment
