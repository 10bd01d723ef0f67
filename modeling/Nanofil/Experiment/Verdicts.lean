import Mathlib.Data.List.Perm.Basic
import Nanofil.Experiment.Model
import Nanofil.Lib.Searches

/-! `model.blockers` and `blockers.py`: what keeps packages from building, and how many packages each failure does. -/
namespace Experiment
open List Option Closures Searches

/-! ### One derivation's blockers -/

structure Blocker where
  drv : Drv
  failure : String
  chain : List Drv
deriving DecidableEq, Repr

def Derivation.blocks (d : Derivation) : Option String := d.exclusion <|> d.failure

/-- An empty text explains nothing. -/
def Db.blocker (db : Db) (drv : Drv) (chain : List Drv) : Option Blocker :=
  match (db.derivation? drv).bind (·.blocks) with
  | some failure => if failure = "" then none else some ⟨drv, failure, chain⟩
  | none => none

def Db.blockers (db : Db) (drv : Drv) : List Blocker := (Searches.paths db.downward drv).filterMap fun item => db.blocker item.1 item.2

/-! ### A campaign's failures -/

structure Example where
  id : Nat
  label : String
  only : Bool
deriving DecidableEq, Repr

structure Rank where
  drv : Drv
  name : String
  failure : String
  package : Option Nat
  blocks : Nat
  only : Nat
  examples : List Example
deriving DecidableEq, Repr

structure Ranking where
  rows : List Rank
  blocked : Nat
  multiple : Nat
  scope : List Drv
  bad : List Drv
deriving DecidableEq, Repr

/-- A campaign's packages: its candidates that have a derivation. -/
def Db.packages (db : Db) (cid : Uuid) : List Candidate := db.candidates.filter (fun c => c.campaign = cid && c.drv.isSome)

def Db.packagesOf (db : Db) (cid : Uuid) (drv : Drv) : List Candidate := (db.packages cid).filter (·.drv = some drv)

/-- The edges that the campaign's packages reach. -/
def Db.graph (db : Db) (cid : Uuid) : List (Drv × Drv) :=
  let reached := Closures.closure db.downward ((db.packages cid).filterMap (·.drv))
  db.downward.filter (·.1 ∈ reached)

def Db.parents (db : Db) (cid : Uuid) : List (Drv × Drv) := (db.graph cid).map (fun e => (e.2, e.1))

/-- The nodes that have a number. -/
def Db.scope (db : Db) (cid : Uuid) : List Drv :=
  ((db.graph cid).flatMap (fun e => [e.2, e.1]) ++ (db.packages cid).filterMap (·.drv)).dedup

/-- An out-of-scope failure is not a blocker to fix. -/
def Db.failures (db : Db) (cid : Uuid) : List Derivation :=
  db.derivations.filter (fun d => d.drv ∈ db.scope cid && d.failure.isSome && d.exclusion.isNone)

def Db.excludedOf (db : Db) (cid : Uuid) : List Derivation :=
  db.derivations.filter (fun d => d.drv ∈ db.scope cid && d.exclusion.isSome)

def Db.marked (db : Db) (cid : Uuid) : List Drv :=
  search (db.parents cid) ((db.failures cid ++ db.excludedOf cid).map (·.drv))

/-- The blocked packages above a failure. -/
def Db.hits (db : Db) (cid : Uuid) (failed : Drv) : List Candidate :=
  ((search (db.parents cid) [failed]).filter (· ≠ failed)).flatMap
    fun drv => (db.packagesOf cid drv).filter (·.state = .blocked)

/-- The failures that block a package. -/
def Db.causes (db : Db) (cid : Uuid) (package : Nat) : List Drv :=
  (db.failures cid).flatMap fun d => ((db.hits cid d.drv).filter (·.id = package)).map fun _ => d.drv

def Db.blocked (db : Db) (cid : Uuid) : List Nat := ((db.failures cid).flatMap fun d => (db.hits cid d.drv).map (·.id)).dedup

/-- The packages that a failure alone blocks. -/
def Db.sole (db : Db) (cid : Uuid) (failed : Drv) : List Nat := (db.blocked cid).filter (fun id => db.causes cid id = [failed])

/-- Packages that the failure alone blocks come first. -/
def Example.before (e e' : Example) : Prop := e'.only < e.only ∨ e.only = e'.only ∧ e.label ≤ e'.label

instance : DecidableRel Example.before := fun _ _ => inferInstanceAs (Decidable (_ ∨ _))

def Rank.before (r r' : Rank) : Prop :=
  r'.blocks < r.blocks ∨ r.blocks = r'.blocks ∧ (r'.only < r.only ∨ r.only = r'.only ∧ r.name ≤ r'.name)

instance : DecidableRel Rank.before := fun _ _ => inferInstanceAs (Decidable (_ ∨ _))

def Db.rank (db : Db) (cid : Uuid) (d : Derivation) : Rank :=
  let hits := db.hits cid d.drv
  let sole := db.sole cid d.drv
  let examples := (hits.map fun c => (⟨c.id, c.label, c.id ∈ sole⟩ : Example)).insertionSort Example.before
  { drv := d.drv, name := d.name, failure := d.failure.getD "", package := (db.packagesOf cid d.drv).head?.map (·.id),
    blocks := hits.length, only := sole.length, examples := examples.take 8 }

/-- `compute`. -/
def Db.ranking (db : Db) (cid : Uuid) : Ranking where
  rows := (((db.failures cid).filter fun d => db.hits cid d.drv ≠ []).map (db.rank cid)).insertionSort Rank.before
  blocked := (db.blocked cid).length
  multiple := ((db.blocked cid).filter fun id => 1 < (db.causes cid id).length).length
  scope := db.scope cid
  bad := db.marked cid

/-! The states of candidates, the chains of their blockers and the ranking of failures tell one thing: what a derivation's
closure holds. -/

variable {db : Db} {cid : Uuid} {c : Candidate} {drv f x : Drv}

/-! ### What the closure holds -/

/-- Rows by their primary keys. -/
structure Db.Keyed (db : Db) : Prop where
  derivations : (db.derivations.map (·.drv)).Nodup
  candidates : (db.candidates.map (·.id)).Nodup

def Db.isExcluded (db : Db) (drv : Drv) : Bool := db.derivations.any (fun d => d.drv = drv && d.exclusion.isSome)

def Db.isAvailable (db : Db) (drv : Drv) : Bool := db.derivations.any (fun d => d.drv = drv && d.available)

def Db.isFailed (db : Db) (drv : Drv) : Bool := db.derivations.any (fun d => d.drv = drv && d.failure.isSome)

/-- A failure that is not excluded. -/
def Db.isBlocking (db : Db) (drv : Drv) : Bool := db.isFailed drv && !db.isExcluded drv

/-- The state that a derivation and its closure give. -/
def Db.verdict (db : Db) (drv : Drv) : CandidateState :=
  if db.isExcluded drv || (!db.isAvailable drv && !db.isFailed drv && (db.closure drv).any db.isExcluded) then .excluded
  else if db.isAvailable drv then .available
  else if db.isFailed drv then .failed
  else if (db.closure drv).any db.isBlocking then .blocked
  else .queued

/-- Candidates keep their rows; those with a derivation that were not settled have its verdict. -/
structure Db.Refreshed (db after : Db) (cid : Uuid) : Prop where
  rows : after.candidates.map (·.id) = db.candidates.map (·.id)
  verdicts : ∀ c ∈ db.candidates, c.campaign = cid → c.settled = false → ∀ drv, c.drv = some drv →
    ∃ c' ∈ after.candidates, c'.id = c.id ∧ c'.campaign = cid ∧ c'.drv = some drv ∧ c'.state = db.verdict drv

/-- What blocks a derivation: the failed and the excluded of its closure, each on a shortest chain. -/
structure Db.Explained (db : Db) (drv : Drv) (found : List Blocker) : Prop where
  once : (found.map (·.drv)).Nodup
  blockers : ∀ x, x ∈ found.map (·.drv) ↔ x ∈ db.closure drv ∧ (db.isFailed x || db.isExcluded x) = true
  chains : ∀ b ∈ found, Shortest db.downward drv b.chain b.drv

def Db.blockedBy (db : Db) (cid : Uuid) (failed : Drv) : List Candidate :=
  db.candidates.filter (fun c => c.campaign = cid && c.state = .blocked && c.drv.any fun drv => failed ∈ db.closure drv)

/-- Candidates whose closure holds no other failure. -/
def Db.blockedOnlyBy (db : Db) (cid : Uuid) (failed : Drv) : List Candidate :=
  (db.blockedBy cid failed).filter (fun c => c.drv.all fun drv => (db.closure drv).all fun x => x = failed || !db.isBlocking x)

/-- A row for each failure that blocks a candidate, with how many it does, and how many alone. -/
structure Db.Ranked (db : Db) (cid : Uuid) (rows : List Rank) : Prop where
  once : (rows.map (·.drv)).Nodup
  failures : ∀ f, f ∈ rows.map (·.drv) ↔ db.isBlocking f = true ∧ db.blockedBy cid f ≠ []
  blocks : ∀ r ∈ rows, r.blocks = (db.blockedBy cid r.drv).length
  only : ∀ r ∈ rows, r.only = (db.blockedOnlyBy cid r.drv).length

/-! ### Refreshing one candidate -/

def Db.seen (db : Db) (cid : Uuid) (c : Candidate) : Candidate :=
  if c.campaign = cid && c.drv.isSome && !c.settled then { c with state := db.observedState c } else c

def Db.block (db : Db) (cid : Uuid) (c : Candidate) : Candidate :=
  if c.campaign = cid && c.state = .queued && c.drv.any (· ∈ db.bad) then { c with state := .blocked } else c

def Db.exclude (db : Db) (cid : Uuid) (c : Candidate) : Candidate :=
  if c.campaign = cid && c.drv.any db.isExcluded then { c with state := .excluded, error := c.drv.bind db.exclusionOf } else c

def Db.inherit (db : Db) (cid : Uuid) (c : Candidate) : Candidate :=
  if c.campaign = cid && (c.state = .queued || c.state = .blocked) && c.drv.any (· ∈ db.outside) then
    { c with state := .excluded, error := some inherited }
  else c

def Db.refresh (db : Db) (cid : Uuid) (c : Candidate) : Candidate := db.inherit cid (db.exclude cid (db.block cid (db.seen cid c)))

theorem refreshCandidates_eq : db.refreshCandidates cid = { db with candidates := db.candidates.map (db.refresh cid) } := by
  rw [Db.refreshCandidates, Db.refreshInherited, Db.refreshExcluded, Db.refreshBlocked, Db.refreshObserved]
  simp only [Db.updateCandidates, List.map_map]
  rfl

/-! ### Closures -/

theorem edge_upward (x y : Drv) : Edge db.upward x y ↔ Edge db.downward y x := by
  simp only [Edge, Db.upward, Db.downward, List.mem_map, Prod.mk.injEq]
  exact exists_congr fun e => and_congr_right fun _ => And.comm

/-- What a derivation of its closure taints, taints it. -/
theorem mem_upward {seeds : List Drv} : drv ∈ Closures.closure db.upward seeds ↔ ∃ x ∈ db.closure drv, x ∈ seeds := by
  rw [mem_closure]
  constructor
  · rintro ⟨x, seed, path⟩
    refine ⟨x, ?_, seed⟩
    rw [Db.closure, mem_closure]
    exact (reaches_swap edge_upward).1 ⟨x, mem_cons_self, path⟩
  · rintro ⟨x, there, seed⟩
    rw [Db.closure, mem_closure] at there
    obtain ⟨x', mem, path⟩ := (reaches_swap edge_upward).2 there
    rw [mem_singleton] at mem
    subst mem
    exact ⟨x', seed, path⟩

theorem keyed_unique (keyed : db.Keyed) {d d' : Derivation} (mem : d ∈ db.derivations) (mem' : d' ∈ db.derivations)
    (same : d.drv = d'.drv) : d = d' := inj_on_of_nodup_map keyed.derivations mem mem' same

theorem isExcluded_iff : db.isExcluded drv = true ↔ ∃ d ∈ db.derivations, d.drv = drv ∧ d.exclusion.isSome = true := by
  simp only [Db.isExcluded, List.any_eq_true, Bool.and_eq_true, decide_eq_true_eq]

theorem isBlocking_iff (keyed : db.Keyed) : db.isBlocking drv = true ↔
    ∃ d ∈ db.derivations, d.drv = drv ∧ d.failure.isSome = true ∧ d.exclusion.isNone = true := by
  simp only [Db.isBlocking, Db.isFailed, Bool.and_eq_true, List.any_eq_true, decide_eq_true_eq, Bool.not_eq_true',
    Bool.eq_false_iff, Ne, isExcluded_iff]
  constructor
  · rintro ⟨⟨d, mem, same, failed⟩, clear⟩
    refine ⟨d, mem, same, failed, ?_⟩
    by_contra excluded
    rw [isNone_iff_eq_none] at excluded
    exact clear ⟨d, mem, same, isSome_iff_ne_none.2 excluded⟩
  · rintro ⟨d, mem, same, failed, clear⟩
    refine ⟨⟨d, mem, same, failed⟩, ?_⟩
    rintro ⟨d', mem', same', excluded⟩
    rw [keyed_unique keyed mem' mem (same'.trans same.symm)] at excluded
    rw [isNone_iff_eq_none] at clear
    rw [clear] at excluded
    cases excluded

theorem mem_bad (keyed : db.Keyed) : drv ∈ db.bad ↔ (db.closure drv).any db.isBlocking = true := by
  rw [Db.bad, mem_upward, List.any_eq_true]
  refine exists_congr fun x => and_congr_right fun _ => ?_
  simp only [isBlocking_iff keyed, List.mem_map, mem_filter, Bool.and_eq_true]
  constructor
  · rintro ⟨d, ⟨mem, failed, clear⟩, same⟩
    exact ⟨d, mem, same, failed, clear⟩
  · rintro ⟨d, mem, same, failed, clear⟩
    exact ⟨d, ⟨mem, failed, clear⟩, same⟩

theorem mem_outside : drv ∈ db.outside ↔ (db.closure drv).any db.isExcluded = true := by
  rw [Db.outside, mem_upward, List.any_eq_true]
  refine exists_congr fun x => and_congr_right fun _ => ?_
  simp only [isExcluded_iff, List.mem_map, mem_filter]
  constructor
  · rintro ⟨d, ⟨mem, excluded⟩, same⟩
    exact ⟨d, mem, same, excluded⟩
  · rintro ⟨d, mem, same, excluded⟩
    exact ⟨d, ⟨mem, excluded⟩, same⟩

/-! ### Verdicts -/

theorem observedState_eq (from_ : c.drv = some drv) : db.observedState c =
    if db.isAvailable drv then .available else if db.isFailed drv then .failed else .queued := by
  have here : ∀ d : Derivation, decide (c.drv = some d.drv) = decide (d.drv = drv) := fun d => by
    rw [from_, decide_eq_decide, Option.some.injEq]
    exact eq_comm
  have available : db.derivations.any (fun d => c.drv = some d.drv && d.available) = db.isAvailable drv := by
    rw [Db.isAvailable]
    exact congrArg _ (funext fun d => by rw [here])
  have failed : db.derivations.any (fun d => c.drv = some d.drv && d.failure.isSome) = db.isFailed drv := by
    rw [Db.isFailed]
    exact congrArg _ (funext fun d => by rw [here])
  rw [Db.observedState, available, failed]

/-- An open candidate gets the verdict; an excluded one is told why. -/
theorem refresh_open (keyed : db.Keyed) (own : c.campaign = cid) (open_ : c.settled = false) (from_ : c.drv = some drv) :
    db.refresh cid c = { c with
      state := db.verdict drv
      error := if db.isExcluded drv then db.exclusionOf drv else if db.verdict drv = .excluded then some inherited else c.error } := by
  have bad : decide (drv ∈ db.bad) = (db.closure drv).any db.isBlocking := by rw [Bool.eq_iff_iff, decide_eq_true_eq, mem_bad keyed]
  have outside : decide (drv ∈ db.outside) = (db.closure drv).any db.isExcluded := by rw [Bool.eq_iff_iff, decide_eq_true_eq, mem_outside]
  have observed := @observedState_eq db c drv from_
  have first : (true && (some drv).isSome && !false) = true := rfl
  rw [Db.refresh, Db.seen, own, from_, open_, observed, decide_eq_true rfl, if_pos first, Db.verdict]
  generalize (db.closure drv).any db.isBlocking = tainted at bad
  generalize (db.closure drv).any db.isExcluded = apart at outside
  cases excluded : db.isExcluded drv <;> cases db.isAvailable drv <;> cases db.isFailed drv <;> cases tainted <;> cases apart <;>
    simp [Db.block, Db.exclude, Db.inherit, bad, outside, excluded]

theorem refresh_settled (own : c.campaign = cid) (settled : c.settled = true) (from_ : c.drv = some drv) :
    db.refresh cid c = if db.isExcluded drv then { c with state := .excluded, error := db.exclusionOf drv } else c := by
  have known : c.state ≠ .queued ∧ c.state ≠ .blocked := by
    constructor
    all_goals
      intro same
      rw [Candidate.settled, same] at settled
      cases settled
  have observed : db.seen cid c = c := by simp [Db.seen, settled]
  have blocked : db.block cid c = c := by simp [Db.block, known.1]
  have excluded : db.exclude cid c = if db.isExcluded drv then { c with state := .excluded, error := db.exclusionOf drv } else c := by
    rw [Db.exclude, own, from_, decide_eq_true rfl, any_some, Bool.true_and, bind_some]
  rw [Db.refresh, observed, blocked, excluded]
  split_ifs <;> simp [Db.inherit, known.1, known.2]

theorem refresh_other (other : c.campaign = cid → c.drv = none) : db.refresh cid c = c := by
  have no : ∀ p : Drv → Bool, (decide (c.campaign = cid) && c.drv.any p) = false := by
    intro p
    by_cases own : c.campaign = cid
    · rw [other own, any_none, Bool.and_false]
    · rw [decide_eq_false own, Bool.false_and]
  have observed : db.seen cid c = c := by
    by_cases own : c.campaign = cid
    · simp [Db.seen, other own]
    · simp [Db.seen, own]
  have excluded : db.exclude cid c = c := by rw [Db.exclude, no, if_neg Bool.false_ne_true]
  have blocked : db.block cid c = c := by
    rw [Db.block, Bool.and_right_comm, no, Bool.false_and, if_neg Bool.false_ne_true]
  rw [Db.refresh, observed, blocked, excluded, Db.inherit, Bool.and_right_comm, no, Bool.false_and, if_neg Bool.false_ne_true]

theorem verdict_excluded (excluded : db.isExcluded drv = true) : db.verdict drv = .excluded := by
  rw [Db.verdict, excluded, Bool.true_or, if_pos rfl]

/-- A candidate that tells its verdict is left as it is. -/
theorem refresh_fixed (keyed : db.Keyed) (own : c.campaign = cid) (from_ : c.drv = some drv)
    (told : db.isExcluded drv = true → c.state = .excluded ∧ c.error = db.exclusionOf drv)
    (same : c.settled = false → c.state = db.verdict drv) : db.refresh cid c = c := by
  cases settled : c.settled with
  | true =>
    rw [refresh_settled own settled from_]
    split_ifs with excluded
    · rw [← (told excluded).1, ← (told excluded).2]
    · rfl
  | false =>
    have here : c.state = db.verdict drv := same settled
    have free : db.verdict drv ≠ .excluded := by
      intro apart
      rw [Candidate.settled, here, apart] at settled
      cases settled
    have clear : ¬db.isExcluded drv = true := fun excluded => free (verdict_excluded excluded)
    rw [refresh_open keyed own settled from_, if_neg clear, if_neg free, ← here]

theorem refresh_again (keyed : db.Keyed) : db.refresh cid (db.refresh cid c) = db.refresh cid c := by
  by_cases other : c.campaign = cid → c.drv = none
  · rw [refresh_other other, refresh_other other]
  · rw [Classical.not_imp] at other
    obtain ⟨own, some_⟩ := other
    obtain ⟨drv, from_⟩ := ne_none_iff_exists'.1 some_
    cases settled : c.settled with
    | true =>
      have once := @refresh_settled db cid c drv own settled from_
      by_cases excluded : db.isExcluded drv = true
      · rw [if_pos excluded] at once
        rw [once]
        exact refresh_fixed keyed own from_ (fun _ => ⟨rfl, rfl⟩) nofun
      · rw [if_neg excluded] at once
        rw [once, once]
    | false =>
      rw [refresh_open keyed own settled from_]
      refine refresh_fixed keyed own from_ (fun excluded => ⟨verdict_excluded excluded, ?_⟩) fun _ => rfl
      exact if_pos excluded

theorem refresh_row (c : Candidate) : (db.refresh cid c).id = c.id ∧ (db.refresh cid c).campaign = c.campaign ∧ (db.refresh cid c).drv = c.drv := by
  have kept : ∀ {p : Bool} {c c' : Candidate}, c'.id = c.id ∧ c'.campaign = c.campaign ∧ c'.drv = c.drv →
      (if p then c' else c).id = c.id ∧ (if p then c' else c).campaign = c.campaign ∧ (if p then c' else c).drv = c.drv := by
    intro p c c' same
    cases p
    · exact ⟨rfl, rfl, rfl⟩
    · exact same
  have through : ∀ {c c' c'' : Candidate}, c''.id = c'.id ∧ c''.campaign = c'.campaign ∧ c''.drv = c'.drv →
      c'.id = c.id ∧ c'.campaign = c.campaign ∧ c'.drv = c.drv → c''.id = c.id ∧ c''.campaign = c.campaign ∧ c''.drv = c.drv :=
    fun later same => ⟨later.1.trans same.1, later.2.1.trans same.2.1, later.2.2.trans same.2.2⟩
  exact through (kept ⟨rfl, rfl, rfl⟩) (through (kept ⟨rfl, rfl, rfl⟩) (through (kept ⟨rfl, rfl, rfl⟩) (kept ⟨rfl, rfl, rfl⟩)))

/-- Refreshing once more changes nothing. -/
theorem refreshCandidates_again (keyed : db.Keyed) : (db.refreshCandidates cid).refreshCandidates cid = db.refreshCandidates cid := by
  have twice : (db.candidates.map (db.refresh cid)).map (db.refresh cid) = db.candidates.map (db.refresh cid) := by
    simp only [List.map_map, Function.comp_def, @refresh_again db cid _ keyed]
  have again : ∀ cs, ({ db with candidates := cs } : Db).refreshCandidates cid = { db with candidates := cs.map (db.refresh cid) } :=
    fun _ => refreshCandidates_eq
  have once : db.refreshCandidates cid = _ := refreshCandidates_eq
  rw [once, again, twice]

theorem refreshed (keyed : db.Keyed) : db.Refreshed (db.refreshCandidates cid) cid := by
  rw [refreshCandidates_eq]
  constructor
  · rw [List.map_map]
    exact map_congr_left fun c _ => (refresh_row c).1
  · intro c mem own open_ drv from_
    obtain ⟨id, campaign, kept⟩ := @refresh_row db cid c
    refine ⟨_, List.mem_map.2 ⟨c, mem, rfl⟩, id, campaign.trans own, kept.trans from_, ?_⟩
    rw [refresh_open keyed own open_ from_]

/-- No blocked candidate's own derivation has failed. -/
def Db.Apart (db : Db) (cid : Uuid) : Prop :=
  ∀ c ∈ db.candidates, c.campaign = cid → c.state = .blocked → ∀ drv, c.drv = some drv → db.isFailed drv = false

theorem refreshed_apart (keyed : db.Keyed) : (db.refreshCandidates cid).Apart cid := by
  rw [refreshCandidates_eq]
  intro c' mem own blocked drv from_
  obtain ⟨c, -, rfl⟩ := List.mem_map.1 mem
  obtain ⟨-, campaign, kept⟩ := @refresh_row db cid c
  rw [campaign] at own
  rw [kept] at from_
  cases settled : c.settled with
  | true =>
    rw [refresh_settled own settled from_] at blocked
    split_ifs at blocked
    rw [Candidate.settled, blocked] at settled
    cases settled
  | false =>
    rw [refresh_open keyed own settled from_] at blocked
    dsimp only at blocked
    rw [Db.verdict] at blocked
    split_ifs at blocked with _ _ failed
    exact Bool.eq_false_iff.2 failed

/-! ### Chains -/

/-- A failure or an exclusion is told by a text. -/
def Db.Told (db : Db) : Prop := ∀ d ∈ db.derivations, d.failure ≠ some "" ∧ d.exclusion ≠ some ""

theorem blocker_eq {chain : List Drv} {b : Blocker} (found : db.blocker drv chain = some b) : b.drv = drv ∧ b.chain = chain ∧
    (db.isFailed drv || db.isExcluded drv) = true := by
  rw [Db.blocker] at found
  split at found
  · rename_i failure told
    obtain ⟨d, row, text⟩ := bind_eq_some_iff.1 told
    split_ifs at found with empty
    cases found
    refine ⟨rfl, rfl, ?_⟩
    have mem := mem_of_find?_eq_some row
    have here : d.drv = drv := by simpa using find?_some row
    rw [Bool.or_eq_true, Db.isFailed, Db.isExcluded, List.any_eq_true, List.any_eq_true]
    rw [Derivation.blocks] at text
    cases excluded : d.exclusion with
    | some e => exact .inr ⟨d, mem, by rw [excluded, decide_eq_true here]; rfl⟩
    | none =>
      rw [excluded] at text
      have text : d.failure = some failure := text
      exact .inl ⟨d, mem, by rw [text, decide_eq_true here]; rfl⟩
  · cases found

theorem blocker_some {chain : List Drv} (keyed : db.Keyed) (told : db.Told) (blocks : (db.isFailed drv || db.isExcluded drv) = true) :
    ∃ b, db.blocker drv chain = some b := by
  have row : ∃ d ∈ db.derivations, d.drv = drv ∧ (d.failure.isSome = true ∨ d.exclusion.isSome = true) := by
    rw [Bool.or_eq_true, Db.isFailed, List.any_eq_true, isExcluded_iff] at blocks
    rcases blocks with ⟨d, mem, here⟩ | ⟨d, mem, same, excluded⟩
    · rw [Bool.and_eq_true, decide_eq_true_eq] at here
      exact ⟨d, mem, here.1, .inl here.2⟩
    · exact ⟨d, mem, same, .inr excluded⟩
  obtain ⟨d, mem, same, facts⟩ := row
  have first : db.derivation? drv = some d := by
    obtain ⟨d', found⟩ := ne_none_iff_exists'.1 (fun none_ : db.derivation? drv = none =>
      absurd same (by simpa using find?_eq_none.1 none_ d mem))
    have there : d'.drv = drv := by simpa using find?_some found
    rw [found, keyed_unique keyed (mem_of_find?_eq_some found) mem (there.trans same.symm)]
  obtain ⟨failed, excluded⟩ := told d mem
  have text : ∃ t, d.blocks = some t ∧ t ≠ "" := by
    rw [Derivation.blocks]
    cases ex : d.exclusion with
    | some t => exact ⟨t, rfl, fun empty => excluded (by rw [ex, empty])⟩
    | none =>
      cases fail : d.failure with
      | some t => exact ⟨t, rfl, fun empty => failed (by rw [fail, empty])⟩
      | none =>
        rw [ex, fail] at facts
        rcases facts with facts | facts <;> cases facts
  obtain ⟨t, text, some_⟩ := text
  exact ⟨⟨drv, t, chain⟩, by rw [Db.blocker, first, bind_some, text]; exact if_neg some_⟩

theorem filterMap_sublist {α β γ : Type} {g : α → Option β} {key : β → γ} {key' : α → γ} (same : ∀ a b, g a = some b → key b = key' a)
    (l : List α) : List.Sublist ((l.filterMap g).map key) (l.map key') := by
  induction l with
  | nil => exact List.Sublist.refl _
  | cons a l ih =>
    cases found : g a with
    | none =>
      rw [filterMap_cons_none found, map_cons]
      exact ih.cons _
    | some b =>
      rw [filterMap_cons_some found, map_cons, map_cons, same a b found]
      exact ih.cons_cons _

theorem blockers_explained (keyed : db.Keyed) (told : db.Told) : db.Explained drv (db.blockers drv) := by
  obtain ⟨once, shortest, all⟩ := @paths_shortest _ db.downward drv _
  have found : ∀ b ∈ db.blockers drv, ∃ item ∈ Searches.paths db.downward drv, b.drv = item.1 ∧ b.chain = item.2 ∧
      (db.isFailed b.drv || db.isExcluded b.drv) = true := by
    intro b mem
    obtain ⟨item, there, same⟩ := mem_filterMap.1 mem
    obtain ⟨own, chain, blocks⟩ := blocker_eq same
    exact ⟨item, there, own, chain, own ▸ blocks⟩
  constructor
  · exact once.sublist (filterMap_sublist (fun _ _ same => (blocker_eq same).1) _)
  · intro x
    rw [Db.closure, mem_closure, ← all, List.mem_map]
    constructor
    · rintro ⟨b, mem, rfl⟩
      obtain ⟨item, there, own, -, blocks⟩ := found b mem
      exact ⟨own ▸ List.mem_map_of_mem there, blocks⟩
    · rintro ⟨reached, blocks⟩
      obtain ⟨item, there, rfl⟩ := List.mem_map.1 reached
      obtain ⟨b, told⟩ := @blocker_some db _ item.2 keyed told blocks
      exact ⟨b, mem_filterMap.2 ⟨item, there, told⟩, (blocker_eq told).1⟩
  · intro b mem
    obtain ⟨item, there, own, chain, -⟩ := found b mem
    rw [own, chain]
    exact shortest item there

/-! ### Ranks -/

theorem mem_packages : c ∈ db.packages cid ↔ c ∈ db.candidates ∧ c.campaign = cid ∧ ∃ drv, c.drv = some drv := by
  rw [Db.packages, mem_filter, Bool.and_eq_true, decide_eq_true_eq, isSome_iff_exists]

/-- The edges below a package's derivation are in its campaign's graph. -/
theorem graph_reaches (mem : c ∈ db.packages cid) (from_ : c.drv = some drv) :
    Reaches (db.graph cid) [drv] x ↔ Reaches db.downward [drv] x := by
  refine reaches_inside (fun e there => (mem_filter.1 there).1) fun y z reached edge => ?_
  refine mem_filter.2 ⟨edge, decide_eq_true (mem_closure.2 ?_)⟩
  refine reached.mono (fun _ there => there) fun s seed => ?_
  rw [mem_singleton.1 seed]
  exact mem_filterMap.2 ⟨c, mem, from_⟩

theorem edge_parents (x y : Drv) : Edge (db.parents cid) x y ↔ Edge (db.graph cid) y x := by
  rw [Edge, Edge, Db.parents, List.mem_map]
  constructor
  · rintro ⟨⟨_, _⟩, mem, same⟩
    cases same
    exact mem
  · exact fun mem => ⟨_, mem, rfl⟩

/-- What is above a failure has it in its closure. -/
theorem mem_above (mem : c ∈ db.packages cid) (from_ : c.drv = some drv) : drv ∈ search (db.parents cid) [f] ↔ f ∈ db.closure drv := by
  rw [mem_search, reaches_swap edge_parents, graph_reaches mem from_, Db.closure, mem_closure]

theorem mem_hits : c ∈ db.hits cid f ↔
    c ∈ db.packages cid ∧ c.state = .blocked ∧ ∃ drv, c.drv = some drv ∧ drv ≠ f ∧ f ∈ db.closure drv := by
  simp only [Db.hits, Db.packagesOf, mem_flatMap, mem_filter, decide_eq_true_eq]
  constructor
  · rintro ⟨drv, ⟨above, other⟩, ⟨mem, from_⟩, blocked⟩
    exact ⟨mem, blocked, drv, from_, other, (mem_above mem from_).1 above⟩
  · rintro ⟨mem, blocked, drv, from_, other, below⟩
    exact ⟨drv, ⟨(mem_above mem from_).2 below, other⟩, ⟨mem, from_⟩, blocked⟩

theorem candidates_nodup (keyed : db.Keyed) : db.candidates.Nodup := keyed.candidates.of_map _

theorem hits_nodup (keyed : db.Keyed) : (db.hits cid f).Nodup := by
  have above : ((search (db.parents cid) [f]).filter (· ≠ f)).Nodup := (marks_nodup (nodup_singleton f)).filter _
  refine nodup_flatMap.2 ⟨fun drv _ => ((candidates_nodup keyed).filter _).filter _ |>.filter _, above.imp fun other c mem mem' => other ?_⟩
  have here := of_decide_eq_true (mem_filter.1 (mem_filter.1 mem).1).2
  have there := of_decide_eq_true (mem_filter.1 (mem_filter.1 mem').1).2
  exact Option.some.inj (here.symm.trans there)

theorem mem_blockedBy : c ∈ db.blockedBy cid f ↔
    c ∈ db.candidates ∧ c.campaign = cid ∧ c.state = .blocked ∧ ∃ drv, c.drv = some drv ∧ f ∈ db.closure drv := by
  simp only [Db.blockedBy, mem_filter, Bool.and_eq_true, decide_eq_true_eq, and_assoc, Option.any_eq_true]

/-- The packages above a failure are the blocked candidates with it in their closures. -/
theorem mem_hits_iff (apart : db.Apart cid) (failed : db.isBlocking f = true) : c ∈ db.hits cid f ↔ c ∈ db.blockedBy cid f := by
  rw [mem_hits, mem_blockedBy, mem_packages]
  constructor
  · rintro ⟨⟨mem, own, -⟩, blocked, drv, from_, -, below⟩
    exact ⟨mem, own, blocked, drv, from_, below⟩
  · rintro ⟨mem, own, blocked, drv, from_, below⟩
    refine ⟨⟨mem, own, drv, from_⟩, blocked, drv, from_, ?_, below⟩
    rintro rfl
    rw [Db.isBlocking, apart c mem own blocked drv from_] at failed
    cases failed

theorem hits_perm (keyed : db.Keyed) (apart : db.Apart cid) (failed : db.isBlocking f = true) :
    (db.hits cid f).Perm (db.blockedBy cid f) :=
  (perm_ext_iff_of_nodup (hits_nodup keyed) ((candidates_nodup keyed).filter _)).2 fun _ => mem_hits_iff apart failed

/-- The nodes of a campaign's graph are numbered. -/
theorem mem_scope (mem : c ∈ db.packages cid) (from_ : c.drv = some drv) (below : x ∈ db.closure drv) : x ∈ db.scope cid := by
  rw [Db.closure, mem_closure, ← graph_reaches mem from_] at below
  refine below.keeps (fun s seed => ?_) fun y z edge _ => ?_
  · rw [mem_singleton.1 seed]
    exact mem_dedup.2 (mem_append_right _ (mem_filterMap.2 ⟨c, mem, from_⟩))
  · exact mem_dedup.2 (mem_append_left _ (mem_flatMap.2 ⟨_, edge, mem_cons_self⟩))

theorem mem_failures (keyed : db.Keyed) : f ∈ (db.failures cid).map (·.drv) ↔ db.isBlocking f = true ∧ f ∈ db.scope cid := by
  simp only [isBlocking_iff keyed, Db.failures, List.mem_map, mem_filter, Bool.and_eq_true, decide_eq_true_eq]
  constructor
  · rintro ⟨d, ⟨mem, ⟨inside, failed⟩, clear⟩, rfl⟩
    exact ⟨⟨d, mem, rfl, failed, clear⟩, inside⟩
  · rintro ⟨⟨d, mem, rfl, failed, clear⟩, inside⟩
    exact ⟨d, ⟨mem, ⟨inside, failed⟩, clear⟩, rfl⟩

theorem failures_nodup (keyed : db.Keyed) : ((db.failures cid).map (·.drv)).Nodup :=
  keyed.derivations.sublist ((filter_sublist).map _)

/-- What a blocked package's closure fails by, in the campaign's failures. -/
theorem mem_failures_hits (keyed : db.Keyed) (apart : db.Apart cid) (hit : c ∈ db.hits cid f) (from_ : c.drv = some drv)
    (below : x ∈ db.closure drv) (failed : db.isBlocking x = true) : x ∈ (db.failures cid).map (·.drv) ∧ c ∈ db.hits cid x := by
  obtain ⟨mem, blocked, -⟩ := mem_hits.1 hit
  refine ⟨(mem_failures keyed).2 ⟨failed, mem_scope mem from_ below⟩, ?_⟩
  obtain ⟨there, own, -⟩ := mem_packages.1 mem
  exact (mem_hits_iff apart failed).2 (mem_blockedBy.2 ⟨there, own, blocked, drv, from_, below⟩)

theorem mem_causes {id : Nat} : x ∈ db.causes cid id ↔ x ∈ (db.failures cid).map (·.drv) ∧ ∃ c ∈ db.hits cid x, c.id = id := by
  simp only [Db.causes, mem_flatMap, List.mem_map, mem_filter, decide_eq_true_eq]
  constructor
  · rintro ⟨d, mem, c, ⟨hit, same⟩, rfl⟩
    exact ⟨⟨d, mem, rfl⟩, c, hit, same⟩
  · rintro ⟨⟨d, mem, rfl⟩, c, hit, same⟩
    exact ⟨d, mem, c, ⟨hit, same⟩, rfl⟩

theorem candidate_unique (keyed : db.Keyed) {c' : Candidate} (hit : c ∈ db.hits cid f) (hit' : c' ∈ db.hits cid x) (same : c.id = c'.id) :
    c = c' := inj_on_of_nodup_map keyed.candidates (mem_packages.1 (mem_hits.1 hit).1).1 (mem_packages.1 (mem_hits.1 hit').1).1 same

theorem causes_nodup {id : Nat} (keyed : db.Keyed) : (db.causes cid id).Nodup := by
  have distinct : (db.failures cid).Pairwise fun d d' => d.drv ≠ d'.drv := pairwise_map.1 (failures_nodup keyed)
  refine nodup_flatMap.2 ⟨fun d _ => ?_, distinct.imp fun other x mem mem' => other ?_⟩
  · have once : ((db.hits cid d.drv).filter (·.id = id)).Nodup := (hits_nodup keyed).filter _
    refine once.map_on fun c mem c' mem' _ => ?_
    obtain ⟨hit, same⟩ := mem_filter.1 mem
    obtain ⟨hit', same'⟩ := mem_filter.1 mem'
    exact candidate_unique keyed hit hit' ((of_decide_eq_true same).trans (of_decide_eq_true same').symm)
  · obtain ⟨_, -, here⟩ := List.mem_map.1 mem
    obtain ⟨_, -, there⟩ := List.mem_map.1 mem'
    exact here.trans there.symm

/-- A failure is a package's one cause if the package's closure holds no other. -/
theorem causes_one {id : Nat} (keyed : db.Keyed) :
    db.causes cid id = [f] ↔ f ∈ db.causes cid id ∧ ∀ x ∈ db.causes cid id, x = f := by
  constructor
  · intro same
    rw [same]
    exact ⟨mem_singleton_self f, fun x mem => mem_singleton.1 mem⟩
  · rintro ⟨mem, all⟩
    refine perm_singleton.1 ((perm_ext_iff_of_nodup (causes_nodup keyed) (nodup_singleton f)).2 fun x => ?_)
    rw [mem_singleton]
    exact ⟨all x, fun same => same ▸ mem⟩

theorem mem_blockedOnlyBy : c ∈ db.blockedOnlyBy cid f ↔
    c ∈ db.blockedBy cid f ∧ ∀ drv, c.drv = some drv → ∀ x ∈ db.closure drv, db.isBlocking x = true → x = f := by
  rw [Db.blockedOnlyBy, mem_filter]
  refine and_congr_right fun _ => ?_
  cases c.drv with
  | none => simp
  | some drv =>
    simp only [all_some, List.all_eq_true, Bool.or_eq_true, decide_eq_true_eq, Bool.not_eq_true', Option.some.injEq, forall_eq']
    refine forall_congr' fun x => forall_congr' fun _ => ?_
    cases db.isBlocking x <;> simp

/-- The packages that one failure alone blocks. -/
theorem mem_sole (keyed : db.Keyed) (apart : db.Apart cid) (failed : db.isBlocking f = true) {id : Nat} :
    id ∈ db.sole cid f ↔ id ∈ (db.blockedOnlyBy cid f).map (·.id) := by
  rw [Db.sole, mem_filter, decide_eq_true_eq, causes_one keyed, List.mem_map]
  constructor
  · rintro ⟨-, cause, all⟩
    obtain ⟨-, c, hit, same⟩ := mem_causes.1 cause
    refine ⟨c, mem_blockedOnlyBy.2 ⟨(mem_hits_iff apart failed).1 hit, fun drv from_ x below blocking => ?_⟩, same⟩
    obtain ⟨there, hit'⟩ := mem_failures_hits keyed apart hit from_ below blocking
    exact all x (mem_causes.2 ⟨there, c, hit', same⟩)
  · rintro ⟨c, mem, same⟩
    obtain ⟨blocked, alone⟩ := mem_blockedOnlyBy.1 mem
    have hit := (mem_hits_iff apart failed).2 blocked
    obtain ⟨-, -, drv, from_, -, below⟩ := mem_hits.1 hit
    obtain ⟨there, -⟩ := mem_failures_hits keyed apart hit from_ below failed
    refine ⟨?_, mem_causes.2 ⟨there, c, hit, same⟩, fun x cause => ?_⟩
    · obtain ⟨d, failure, rfl⟩ := List.mem_map.1 there
      exact mem_dedup.2 (mem_flatMap.2 ⟨d, failure, List.mem_map.2 ⟨c, hit, same⟩⟩)
    · obtain ⟨failure, c', hit', same'⟩ := mem_causes.1 cause
      rw [candidate_unique keyed hit' hit (same'.trans same.symm)] at hit'
      obtain ⟨-, -, drv', from_', -, below'⟩ := mem_hits.1 hit'
      exact alone drv' from_' x below' ((mem_failures keyed).1 failure).1

theorem sole_length (keyed : db.Keyed) (apart : db.Apart cid) (failed : db.isBlocking f = true) :
    (db.sole cid f).length = (db.blockedOnlyBy cid f).length := by
  have once : (db.sole cid f).Nodup := (nodup_dedup _).filter _
  have rows : ((db.blockedOnlyBy cid f).map (·.id)).Nodup :=
    keyed.candidates.sublist ((filter_sublist.trans filter_sublist).map _)
  have same := ((perm_ext_iff_of_nodup once rows).2 fun _ => mem_sole keyed apart failed).length_eq
  rwa [length_map] at same

theorem ranked (keyed : db.Keyed) (apart : db.Apart cid) : db.Ranked cid (db.ranking cid).rows := by
  have rows : ((db.ranking cid).rows.map (·.drv)).Perm (((db.failures cid).filter fun d => db.hits cid d.drv ≠ []).map (·.drv)) := by
    have sorted := (perm_insertionSort Rank.before (((db.failures cid).filter fun d => db.hits cid d.drv ≠ []).map (db.rank cid))).map
      (·.drv)
    rwa [List.map_map] at sorted
  have row : ∀ r ∈ (db.ranking cid).rows, ∃ d ∈ db.failures cid, r = db.rank cid d := by
    intro r mem
    rw [Db.ranking, mem_insertionSort] at mem
    obtain ⟨d, there, rfl⟩ := List.mem_map.1 mem
    exact ⟨d, (mem_filter.1 there).1, rfl⟩
  have failing : ∀ d ∈ db.failures cid, db.isBlocking d.drv = true := fun d mem => ((mem_failures keyed).1 (List.mem_map_of_mem mem)).1
  constructor
  · exact rows.nodup_iff.2 ((failures_nodup keyed).sublist (filter_sublist.map _))
  · intro f
    rw [rows.mem_iff, List.mem_map]
    constructor
    · rintro ⟨d, mem, rfl⟩
      obtain ⟨failure, some_⟩ := mem_filter.1 mem
      refine ⟨failing d failure, fun none_ => of_decide_eq_true some_ ?_⟩
      have same := hits_perm keyed apart (failing d failure)
      rw [none_] at same
      exact same.eq_nil
    · rintro ⟨failed, some_⟩
      obtain ⟨c, mem⟩ := exists_mem_of_ne_nil _ some_
      have hit := (mem_hits_iff apart failed).2 mem
      obtain ⟨-, -, drv, from_, -, below⟩ := mem_hits.1 hit
      obtain ⟨d, there, rfl⟩ := List.mem_map.1 (mem_failures_hits keyed apart hit from_ below failed).1
      exact ⟨d, mem_filter.2 ⟨there, decide_eq_true (ne_nil_of_mem hit)⟩, rfl⟩
  · intro r mem
    obtain ⟨d, failure, rfl⟩ := row r mem
    exact (hits_perm keyed apart (failing d failure)).length_eq
  · intro r mem
    obtain ⟨d, failure, rfl⟩ := row r mem
    exact sole_length keyed apart (failing d failure)

/-! ### One verdict -/

theorem keyed_refreshed (keyed : db.Keyed) : (db.refreshCandidates cid).Keyed := by
  have rows := (@refreshed db cid keyed).rows
  constructor
  · rw [refreshCandidates_eq]
    exact keyed.derivations
  · rw [rows]
    exact keyed.candidates

/-- The states of a campaign's candidates, the blockers of every derivation and the ranking of failures are what the closures
hold. -/
theorem closures_agree (keyed : db.Keyed) (told : db.Told) :
    (db.refreshCandidates cid).refreshCandidates cid = db.refreshCandidates cid ∧ db.Refreshed (db.refreshCandidates cid) cid ∧
      (∀ drv, (db.refreshCandidates cid).Explained drv ((db.refreshCandidates cid).blockers drv)) ∧
      (db.refreshCandidates cid).Ranked cid ((db.refreshCandidates cid).ranking cid).rows := by
  have told' : (db.refreshCandidates cid).Told := by
    rw [refreshCandidates_eq]
    exact told
  exact ⟨refreshCandidates_again keyed, refreshed keyed, fun _ => blockers_explained (keyed_refreshed keyed) told',
    ranked (keyed_refreshed keyed) (refreshed_apart keyed)⟩

/-- A package that needs a derivation that failed. -/
def needing (failure : String) : Db where
  campaigns := []
  candidates := [⟨0, 0, "p", false, .queued, some "p", none, none⟩]
  derivations := [⟨"p", "p", [], false, .unknown, none, none, none, none⟩, ⟨"d", "d", [], false, .unknown, some failure, none, none, none⟩]
  dependencies := [⟨"p", "d", ["out"]⟩]
  attempts := []
  activities := []
  tests := []
  events := []
  replans := []

theorem closures_agree_needing : ((needing "check").refreshCandidates 0).refreshCandidates 0 = (needing "check").refreshCandidates 0 ∧
    (needing "check").Refreshed ((needing "check").refreshCandidates 0) 0 ∧
      (∀ drv, ((needing "check").refreshCandidates 0).Explained drv (((needing "check").refreshCandidates 0).blockers drv)) ∧
      ((needing "check").refreshCandidates 0).Ranked 0 (((needing "check").refreshCandidates 0).ranking 0).rows :=
  closures_agree ⟨by decide, by decide⟩ fun d mem => by
    rcases mem_pair.1 mem with rfl | rfl <;> exact ⟨by decide, by decide⟩

/-- A failure with an empty text blocks its package, but is not among its blockers. -/
theorem closures_agree_empty : ¬∀ (db : Db) (cid : Uuid), db.Keyed →
    (db.refreshCandidates cid).refreshCandidates cid = db.refreshCandidates cid ∧ db.Refreshed (db.refreshCandidates cid) cid ∧
      (∀ drv, (db.refreshCandidates cid).Explained drv ((db.refreshCandidates cid).blockers drv)) ∧
      (db.refreshCandidates cid).Ranked cid ((db.refreshCandidates cid).ranking cid).rows := by
  intro agree
  obtain ⟨-, -, explained, -⟩ := agree (needing "") 0 ⟨by decide, by decide⟩
  have listed := ((explained "p").blockers "d").2 ⟨by decide, by decide⟩
  exact absurd listed (by decide)

end Experiment
