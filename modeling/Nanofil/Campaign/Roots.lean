import Mathlib.Data.List.Nodup
import Nanofil.Campaign.Deck

/-! Which roots `next_root` skips and claims, and that what is settled stays as it is. -/
namespace Campaigns
open List Option

/-- A root of this name is settled with such an outcome. -/
def Done (roots : List Root) (name : String) (p : String → Bool) : Prop :=
  ∃ q ∈ roots, q.name = name ∧ q.state = .settled ∧ p q.outcome = true

/-- Names are distinct, and a root's requirements come before it. -/
structure Ordered (roots : List Root) : Prop where
  names : (roots.map Root.name).Nodup
  earlier : ∀ (k : Nat) r, roots[k]? = some r → ∀ name ∈ r.needs, ∃ j < k, ∃ q, roots[j]? = some q ∧ q.name = name

/-- The roots are the same ones, and those that were settled are as they were. -/
structure Later (roots roots' : List Root) : Prop where
  length : roots'.length = roots.length
  same : ∀ (k : Nat) r, roots[k]? = some r →
    ∃ r', roots'[k]? = some r' ∧ r'.name = r.name ∧ r'.needs = r.needs ∧ (r.state = .settled → r' = r)

theorem Later.refl (roots : List Root) : Later roots roots :=
  ⟨rfl, fun _ r found => ⟨r, found, rfl, rfl, fun _ => rfl⟩⟩

theorem Later.trans {roots mid last : List Root} (first : Later roots mid) (second : Later mid last) :
    Later roots last := by
  refine ⟨second.length.trans first.length, fun k r found => ?_⟩
  obtain ⟨r1, found1, name1, needs1, kept1⟩ := first.same k r found
  obtain ⟨r2, found2, name2, needs2, kept2⟩ := second.same k r1 found1
  refine ⟨r2, found2, name2.trans name1, needs2.trans needs1, fun settled => ?_⟩
  have same := kept1 settled
  subst same
  exact kept2 settled

variable {r : Root} {roots' : List Root} {skipped : List Nat}

/-- A root that is not settled may change, its name and needs apart. -/
theorem Later.modify {roots : List Root} {k : Nat} {f : Root → Root} (found : roots[k]? = some r)
    (free : r.state ≠ .settled) (name : (f r).name = r.name) (needs : (f r).needs = r.needs) :
    Later roots (roots.modify k f) := by
  refine ⟨length_modify .., fun j q there => ?_⟩
  rw [getElem?_modify]
  by_cases same : k = j
  · subst same
    obtain rfl := Option.some.inj (found.symm.trans there)
    exact ⟨f r, by simp [found], name, needs, fun settled => absurd settled free⟩
  · exact ⟨q, by simp [same, there], rfl, rfl, fun _ => rfl⟩

theorem Later.done {roots : List Root} (later : Later roots roots') {name : String} {p : String → Bool}
    (done : Done roots name p) : Done roots' name p := by
  obtain ⟨q, member, named, settled, good⟩ := done
  obtain ⟨k, found⟩ := mem_iff_getElem?.1 member
  obtain ⟨q', found', -, -, kept⟩ := later.same k q found
  have same := kept settled
  subst same
  exact ⟨q', mem_of_getElem? found', named, settled, good⟩

theorem Later.names {roots : List Root} (later : Later roots roots') : roots'.map Root.name = roots.map Root.name := by
  refine ext_getElem? (fun k => ?_)
  rw [getElem?_map, getElem?_map]
  cases found : roots[k]? with
  | none =>
    have short := List.getElem?_eq_none_iff.1 found
    rw [getElem?_eq_none (by have := later.length; omega)]
  | some r =>
    obtain ⟨r', found', name, -⟩ := later.same k r found
    simp [found', name]

theorem Later.back {roots : List Root} (later : Later roots roots') {k : Nat} {r' : Root}
    (found' : roots'[k]? = some r') : ∃ r, roots[k]? = some r := by
  have bound := (List.getElem?_eq_some_iff.1 found').1
  have same := later.length
  exact ⟨roots[k], getElem?_eq_getElem (by omega)⟩

theorem Later.ordered {roots : List Root} (later : Later roots roots') (ordered : Ordered roots) : Ordered roots' := by
  refine ⟨later.names ▸ ordered.names, fun k r' found' name need => ?_⟩
  obtain ⟨r, found⟩ := later.back found'
  obtain ⟨r1, found1, -, needs, -⟩ := later.same k r found
  obtain rfl := Option.some.inj (found1.symm.trans found')
  obtain ⟨j, before, q, there, named⟩ := ordered.earlier k r found name (needs ▸ need)
  obtain ⟨q', there', named', -⟩ := later.same j q there
  exact ⟨j, before, q', there', named'.trans named⟩

/-! ### Requirements -/

theorem requirement_mem {roots : List Root} {name : String} {q : RootState × String}
    (found : requirement roots name = some q) :
    ∃ r ∈ roots, r.name = name ∧ r.state = q.1 ∧ r.outcome = q.2 := by
  unfold requirement at found
  obtain ⟨r, first, rfl⟩ := map_eq_some_iff.1 found
  exact ⟨r, mem_of_find?_eq_some first, by simpa using find?_some first, rfl, rfl⟩

theorem requirement_of_mem {roots : List Root} {q : Root} (member : q ∈ roots) :
    ∃ s, requirement roots q.name = some s := by
  unfold requirement
  cases found : roots.find? (·.name = q.name) with
  | none => exact absurd (find?_eq_none.1 found q member) (by simp)
  | some r => exact ⟨_, rfl⟩

theorem blocked_done {roots : List Root} (refused : blocked roots r = true) :
    ∃ name ∈ r.needs, Done roots name (fun outcome => !isSuccess outcome) := by
  unfold blocked at refused
  obtain ⟨name, need, failed⟩ := List.any_eq_true.1 refused
  obtain ⟨s, found, wrong⟩ := (Option.any_eq_true _ _).1 failed
  obtain ⟨q, member, named, state, outcome⟩ := requirement_mem found
  simp only [Bool.and_eq_true, decide_eq_true_eq] at wrong
  exact ⟨name, need, q, member, named, state.trans wrong.1, by rw [outcome]; exact wrong.2⟩

/-- What neither waits nor is blocked has its requirements settled with success. -/
theorem ready_done {roots : List Root} (free : blocked roots r = false) (ready : waiting roots r = false)
    {name : String} (need : name ∈ r.needs) {q : Root} (member : q ∈ roots) (named : q.name = name) :
    Done roots name isSuccess := by
  subst named
  obtain ⟨s, found⟩ := requirement_of_mem member
  obtain ⟨q', member', named', state, outcome⟩ := requirement_mem found
  have settled := List.any_eq_false.1 ready q.name need
  have succeeded := List.any_eq_false.1 free q.name need
  simp only [found, any_some, decide_eq_true_eq, not_not] at settled
  simp only [found, any_some, settled, decide_true, Bool.true_and, Bool.not_eq_true',
    Bool.not_eq_false] at succeeded
  exact ⟨q', member', named', state.trans settled, by rw [outcome]; exact succeeded⟩

theorem not_waiting {roots : List Root} (settled : ∀ name ∈ r.needs, ∀ q ∈ roots, q.name = name → q.state = .settled) :
    waiting roots r = false := by
  refine List.any_eq_false.2 (fun name need => ?_)
  cases found : requirement roots name with
  | none => simp
  | some s =>
    obtain ⟨q, member, named, state, -⟩ := requirement_mem found
    simp [← state, settled name need q member named]

/-! ### What `next_root` does -/

/-- Some pending roots with a failed requirement are skipped, then a ready one may be claimed. -/
inductive Taken : List Root → List Root → List Nat → Option Nat → Prop
  | done (roots : List Root) : Taken roots roots [] none
  | skip {roots roots' : List Root} {skipped : List Nat} {claimed : Option Nat} (k : Nat) (r : Root)
      (found : roots[k]? = some r) (pending : r.state = .pending) (refused : blocked roots r = true)
      (rest : Taken (roots.modify k Root.skip) roots' skipped claimed) : Taken roots roots' (k :: skipped) claimed
  | claim {roots : List Root} (k : Nat) (r : Root) (found : roots[k]? = some r) (pending : r.state = .pending)
      (free : blocked roots r = false) (ready : waiting roots r = false) :
      Taken roots (roots.modify k Root.claim) [] (some k)

theorem nextRoot_taken (roots : List Root) (ks : List Nat) :
    Taken roots (nextRoot roots ks).1 (nextRoot roots ks).2.1 (nextRoot roots ks).2.2 := by
  induction ks generalizing roots with
  | nil => exact .done roots
  | cons k ks ih =>
    rw [nextRoot]
    cases found : roots[k]? with
    | none => exact ih roots
    | some r =>
      by_cases pending : r.state = .pending
      · by_cases refused : blocked roots r = true
        · simp only [pending, ne_eq, not_true_eq_false, ite_false, refused, ite_true]
          exact .skip k r found pending refused (ih _)
        · by_cases ready : waiting roots r = true
          · simp only [pending, ne_eq, not_true_eq_false, ite_false, refused, ready, ite_true]
            exact ih roots
          · simp only [pending, ne_eq, not_true_eq_false, ite_false, refused, ready]
            exact .claim k r found pending (by simpa using refused) (by simpa using ready)
      · simp only [ne_eq, pending, not_false_eq_true, ite_true]
        exact ih roots

theorem Taken.later {roots : List Root} {claimed : Option Nat}
    (taken : Taken roots roots' skipped claimed) : Later roots roots' := by
  induction taken with
  | done => exact .refl _
  | skip k r found pending refused rest ih =>
    exact (Later.modify found (by simp [pending]) rfl rfl).trans ih
  | claim k r found pending free ready => exact .modify found (by simp [pending]) rfl rfl

/-- Only pending roots change: to settled as skipped, or to running. -/
theorem Taken.changes {roots : List Root} {claimed : Option Nat}
    (taken : Taken roots roots' skipped claimed) {k : Nat} (found : roots[k]? = some r) :
    ∃ r', roots'[k]? = some r' ∧
      (r' = r ∧ claimed ≠ some k ∨ r.state = .pending ∧ r' = r.skip ∧ claimed ≠ some k ∨
        r.state = .pending ∧ r' = r.claim ∧ claimed = some k) := by
  induction taken generalizing r with
  | done => exact ⟨r, found, .inl ⟨rfl, by simp⟩⟩
  | @skip roots roots' skipped claimed j q there pending refused rest ih =>
    by_cases same : j = k
    · subst same
      obtain rfl := Option.some.inj (there.symm.trans found)
      have now : (roots.modify j Root.skip)[j]? = some q.skip := by simp [there]
      obtain ⟨r', found', ⟨rfl, other⟩ | ⟨wrong, -⟩ | ⟨wrong, -⟩⟩ := ih now
      · exact ⟨_, found', .inr (.inl ⟨pending, rfl, other⟩)⟩
      · exact absurd wrong (by simp [Root.skip])
      · exact absurd wrong (by simp [Root.skip])
    · have now : (roots.modify j Root.skip)[k]? = some r := by simp [same, found]
      exact ih now
  | @claim roots j q there pending free ready =>
    by_cases same : j = k
    · subst same
      obtain rfl := Option.some.inj (there.symm.trans found)
      exact ⟨q.claim, by simp [there], .inr (.inr ⟨pending, rfl, rfl⟩)⟩
    · exact ⟨r, by simp [same, found], .inl ⟨rfl, by simpa using same⟩⟩

/-- What is claimed has its requirements settled with success, what is skipped one without it. -/
theorem Taken.requirements {roots : List Root} {claimed : Option Nat}
    (taken : Taken roots roots' skipped claimed) (ordered : Ordered roots) {k : Nat} {r' : Root}
    (found : roots[k]? = some r) (found' : roots'[k]? = some r') (pending : r.state = .pending) :
    (r'.state = .running → ∀ name ∈ r.needs, Done roots' name isSuccess) ∧
      (r'.state = .settled → ∃ name ∈ r.needs, Done roots' name (fun outcome => !isSuccess outcome)) := by
  induction taken generalizing r with
  | done =>
    obtain rfl := Option.some.inj (found.symm.trans found')
    simp [pending]
  | @skip roots roots' skipped claimed j q there waits refused rest ih =>
    have step : Later roots (roots.modify j Root.skip) := .modify there (by simp [waits]) rfl rfl
    by_cases same : j = k
    · subst same
      obtain rfl := Option.some.inj (there.symm.trans found)
      have now : (roots.modify j Root.skip)[j]? = some q.skip := by simp [there]
      obtain ⟨r1, found1, -, -, kept⟩ := rest.later.same j _ now
      obtain rfl := Option.some.inj (found1.symm.trans found')
      obtain rfl := kept rfl
      obtain ⟨name, need, done⟩ := blocked_done refused
      exact ⟨fun wrong => absurd wrong (by simp [Root.skip]), fun _ => ⟨name, need, (step.trans rest.later).done done⟩⟩
    · exact ih (step.ordered ordered) (by simp [same, found]) found' pending
  | @claim roots j q there waits free ready =>
    have step : Later roots (roots.modify j Root.claim) := .modify there (by simp [waits]) rfl rfl
    by_cases same : j = k
    · subst same
      obtain rfl := Option.some.inj (there.symm.trans found)
      refine ⟨fun _ name need => ?_, fun wrong => ?_⟩
      · obtain ⟨i, -, p, earlier, named⟩ := ordered.earlier j q found name need
        exact step.done (ready_done free ready need (mem_of_getElem? earlier) named)
      · obtain rfl : q.claim = r' := by simpa [there] using found'
        exact absurd wrong (by simp [Root.claim])
    · obtain rfl : r = r' := by simpa [same, found] using found'
      simp [pending]

/-! ### Progress -/

/-- What `next_root` leaves alone is blocked by nothing and waits, or is not pending. -/
theorem nextRoot_idle {roots : List Root} {ks : List Nat} (idle : (nextRoot roots ks).2 = ([], none)) :
    ∀ k ∈ ks, ∀ r, roots[k]? = some r → r.state = .pending → waiting roots r = true := by
  induction ks with
  | nil => simp
  | cons j ks ih =>
    rw [nextRoot] at idle
    intro k member r found pending
    cases there : roots[j]? with
    | none =>
      rw [there] at idle
      rcases mem_cons.1 member with rfl | member
      · simp [there] at found
      · exact ih idle k member r found pending
    | some q =>
      simp only [there] at idle
      split_ifs at idle with settled refused waits
      · rcases mem_cons.1 member with rfl | member
        · obtain rfl := Option.some.inj (there.symm.trans found)
          exact absurd pending settled
        · exact ih idle k member r found pending
      · simp at idle
      · rcases mem_cons.1 member with rfl | member
        · obtain rfl := Option.some.inj (there.symm.trans found)
          exact waits
        · exact ih idle k member r found pending
      · simp at idle

/-- With a pending root and none running, some root is skipped or claimed: the first pending one
has its requirements settled. -/
theorem nextRoot_progress {roots : List Root} (ordered : Ordered roots)
    (quiet : ∀ r ∈ roots, r.state ≠ .running) (member : r ∈ roots) (pending : r.state = .pending) :
    (nextRoot roots (List.range roots.length)).2 ≠ ([], none) := by
  intro idle
  have waits := nextRoot_idle idle
  have none_pending : ∀ (k : Nat) (r : Root), roots[k]? = some r → r.state ≠ .pending := by
    intro k
    induction k using Nat.strong_induction_on with
    | _ k ih =>
      intro r found pending
      have bound := (List.getElem?_eq_some_iff.1 found).1
      have settled : waiting roots r = false := by
        refine not_waiting (fun name need q there named => ?_)
        obtain ⟨j, before, p, earlier, same⟩ := ordered.earlier k r found name need
        have names : q = p :=
          inj_on_of_nodup_map ordered.names there (mem_of_getElem? earlier) (named.trans same.symm)
        subst names
        cases state : q.state with
        | pending => exact absurd state (ih j before q earlier)
        | running => exact absurd state (quiet q there)
        | settled => rfl
      exact absurd (waits k (mem_range.2 bound) r found pending) (by simp [settled])
  obtain ⟨k, found⟩ := mem_iff_getElem?.1 member
  exact none_pending k r found pending

/-! ### Manifests -/

theorem rootsAfter_ordered (manifest : List ManifestRoot) {names : List String} {roots : List Root}
    (accepted : rootsAfter names manifest = some roots) :
    (∀ r ∈ roots, r.state = .pending ∧ r.name ∉ names) ∧ (roots.map Root.name).Nodup ∧
      ∀ (k : Nat) r, roots[k]? = some r → ∀ name ∈ r.needs,
        name ∈ names ∨ ∃ j < k, ∃ q, roots[j]? = some q ∧ q.name = name := by
  induction manifest generalizing names roots with
  | nil =>
    obtain rfl : [] = roots := by simpa [rootsAfter] using accepted
    simp
  | cons m manifest ih =>
    rw [rootsAfter] at accepted
    split_ifs at accepted with bad known
    obtain ⟨rest, later, rfl⟩ := map_eq_some_iff.1 accepted
    obtain ⟨fresh, distinct, earlier⟩ := ih later
    have new : m.name ∉ names := by
      simp only [Bool.or_eq_true, decide_eq_true_eq, not_or] at bad
      exact bad.2
    refine ⟨?_, ?_, ?_⟩
    · rintro r (_ | ⟨_, member⟩)
      · exact ⟨rfl, new⟩
      · exact ⟨(fresh r member).1, fun old => (fresh r member).2 (mem_append_left _ old)⟩
    · refine nodup_cons.2 ⟨fun again => ?_, distinct⟩
      obtain ⟨r, member, same⟩ := List.mem_map.1 again
      exact (fresh r member).2 (by simp [same])
    · intro k r found name need
      cases k with
      | zero =>
        obtain rfl := Option.some.inj found
        exact .inl (by simpa using List.all_eq_true.1 known name need)
      | succ k =>
        rcases earlier k r found name need with old | ⟨j, before, q, there, named⟩
        · rcases mem_append.1 old with old | this
          · exact .inl old
          · exact .inr ⟨0, by omega, _, rfl, (mem_singleton.1 this).symm⟩
        · exact .inr ⟨j + 1, by omega, q, there, named⟩

theorem manifestRoots_ordered {manifest : List ManifestRoot} {roots : List Root}
    (accepted : manifestRoots manifest = some roots) :
    Ordered roots ∧ ∀ r ∈ roots, r.state = .pending := by
  unfold manifestRoots at accepted
  split_ifs at accepted
  obtain ⟨fresh, distinct, earlier⟩ := rootsAfter_ordered manifest accepted
  refine ⟨⟨distinct, fun k r found name need => ?_⟩, fun r member => (fresh r member).1⟩
  simpa using earlier k r found name need

end Campaigns
