import Nanofil.Campaign.Roots

/-! The scheduler as a board of claims: campaigns with their roots, and the root each lane holds. -/
namespace Campaigns
open List Option

structure Tally where
  policy : Policy
  roots : List Root
  inFlight : Nat

structure Board where
  campaigns : List Tally
  holders : List (Option (Nat × Nat))

def Tally.settle (k : Nat) (next : RootState) (outcome : String) (t : Tally) : Tally :=
  { t with roots := t.roots.modify k (fun r => { r with state := next, outcome := outcome }), inFlight := t.inFlight - 1 }

/-- One step of the lanes and the operator, while the service is stopping or not. -/
inductive Board.Step (stop : Bool) : Board → Board → Prop
  | keeps (b : Board) : Step stop b b
  | creates (b : Board) (policy : Policy) (manifest : List ManifestRoot) (roots : List Root)
      (accepted : manifestRoots manifest = some roots) :
      Step stop b { b with campaigns := b.campaigns ++ [⟨policy, roots, 0⟩] }
  | claims (b : Board) (i c : Nat) (t : Tally) (idle : b.holders[i]? = some none)
      (there : b.campaigns[c]? = some t) (lane : i < t.policy.parallelRoots) (roots : List Root)
      (skipped : List Nat) (k : Option Nat)
      (next : nextRoot t.roots (List.range t.roots.length) = (roots, skipped, k)) :
      Step stop b ⟨b.campaigns.set c { t with roots := roots, inFlight := t.inFlight + k.toList.length },
        b.holders.set i (k.map (c, ·))⟩
  | settles (b : Board) (i c k : Nat) (t : Tally) (r : Root) (holds : b.holders[i]? = some (some (c, k)))
      (there : b.campaigns[c]? = some t) (root : t.roots[k]? = some r) (next : RootState) (outcome : String)
      (settled : next = .settled ∨
        next = .pending ∧ (stop = true ∨ r.attempts ≤ t.policy.retryInfrastructure)) :
      Step stop b ⟨b.campaigns.set c (t.settle k next outcome), b.holders.set i none⟩

/-- Every running root is held by one lane, which the campaign's policy admits. -/
structure Board.Fit (b : Board) : Prop where
  holds : ∀ (i c k : Nat), b.holders[i]? = some (some (c, k)) →
    ∃ t r, b.campaigns[c]? = some t ∧ i < t.policy.parallelRoots ∧ t.roots[k]? = some r ∧ r.state = .running
  alone : ∀ (i j : Nat) p, b.holders[i]? = some (some p) → b.holders[j]? = some (some p) → i = j
  held : ∀ (c k : Nat) t r, b.campaigns[c]? = some t → t.roots[k]? = some r → r.state = .running →
    ∃ i : Nat, b.holders[i]? = some (some (c, k))
  counted : ∀ (c : Nat) t, b.campaigns[c]? = some t → t.inFlight = t.roots.countP (·.state = .running)
  carried : ∀ (c : Nat) t, b.campaigns[c]? = some t → t.inFlight = b.holders.countP (fun p => p.any (·.1 = c))
  ordered : ∀ (c : Nat) t, b.campaigns[c]? = some t → Ordered t.roots
  ready : ∀ (c k : Nat) t r, b.campaigns[c]? = some t → t.roots[k]? = some r → r.state = .running →
    ∀ name ∈ r.needs, Done t.roots name isSuccess

/-! ### Counting -/

variable {i c : Nat} {α : Type} {skipped : List Nat} {b : Board} {t : Tally}

theorem countP_set_add (p : α → Bool) {xs : List α} {old : α} (found : xs[i]? = some old) (new : α) :
    (xs.set i new).countP p + (if p old then 1 else 0) = xs.countP p + (if p new then 1 else 0) := by
  obtain ⟨bound, same⟩ := List.getElem?_eq_some_iff.1 found
  rw [countP_set bound, same]
  have positive : p old = true → 0 < xs.countP p :=
    fun holds => countP_pos_iff.2 ⟨old, mem_of_getElem? found, holds⟩
  by_cases holds : p old = true
  · have := positive holds
    simp only [holds, ite_true]
    omega
  · simp [holds]

theorem modify_eq_set {xs : List α} {old : α} (found : xs[i]? = some old) (f : α → α) : xs.modify i f = xs.set i (f old) := by
  rw [modify_eq_set_getElem?, found]
  rfl

theorem Taken.count {roots roots' : List Root} {claimed : Option Nat} (taken : Taken roots roots' skipped claimed) :
    roots'.countP (·.state = .running) = roots.countP (·.state = .running) + claimed.toList.length := by
  induction taken with
  | done => rfl
  | skip k r found pending refused rest ih =>
    have step := countP_set_add (·.state = .running) found r.skip
    rw [← modify_eq_set found Root.skip] at step
    simp [pending, Root.skip] at step
    simpa [step] using ih
  | claim k r found pending free ready =>
    have step := countP_set_add (·.state = .running) found r.claim
    rw [← modify_eq_set found Root.claim] at step
    simpa [pending, Root.claim] using step

theorem set_some {xs : List α} {j : Nat} {new x : α} (found : (xs.set i new)[j]? = some x) :
    j = i ∧ x = new ∨ j ≠ i ∧ xs[j]? = some x := by
  rw [getElem?_set] at found
  by_cases same : i = j
  · subst same
    split_ifs at found with bound
    · exact .inl ⟨rfl, (Option.some.inj found).symm⟩
    all_goals simp_all
  · rw [if_neg same] at found
    exact .inr ⟨fun h => same h.symm, found⟩

theorem set_at {xs : List α} {old : α} (found : xs[i]? = some old) (new : α) : (xs.set i new)[i]? = some new := by
  rw [getElem?_set_self (List.getElem?_eq_some_iff.1 found).1]

theorem set_other {xs : List α} {j : Nat} (new : α) (other : j ≠ i) :
    (xs.set i new)[j]? = xs[j]? := getElem?_set_ne (fun h => other h.symm)

theorem append_some {xs : List α} {new x : α} (found : (xs ++ [new])[i]? = some x) :
    xs[i]? = some x ∨ i = xs.length ∧ x = new := by
  rw [getElem?_append] at found
  split_ifs at found with bound
  · exact .inl found
  · have last := (List.getElem?_eq_some_iff.1 found).1
    have same : i - xs.length = 0 := by simpa using last
    rw [same] at found
    exact .inr ⟨by omega, (Option.some.inj found).symm⟩

theorem append_old {xs : List α} {x : α} (found : xs[i]? = some x) (new : α) : (xs ++ [new])[i]? = some x := by
  rw [getElem?_append_left (List.getElem?_eq_some_iff.1 found).1, found]

/-! ### Every step keeps the board fit -/

theorem Taken.claimed {roots roots' : List Root} {k : Nat} (taken : Taken roots roots' skipped (some k)) :
    ∃ r r', roots[k]? = some r ∧ r.state = .pending ∧ roots'[k]? = some r' ∧ r'.state = .running := by
  generalize same : some k = claimed at taken
  induction taken with
  | done => cases same
  | @skip roots roots' skipped claimed j q there pending refused rest ih =>
    obtain ⟨r, r', found, waits, found', runs⟩ := ih same
    by_cases here : j = k
    · subst here
      have skipped : r = q.skip := by simpa [there] using found.symm
      exact absurd waits (by simp [skipped, Root.skip])
    · exact ⟨r, r', by simpa [here] using found, waits, found', runs⟩
  | @claim roots j q there pending free ready =>
    cases same
    exact ⟨q, q.claim, there, pending, by simp [there], rfl⟩

theorem Board.Fit.creates (fit : b.Fit) (policy : Policy) {manifest : List ManifestRoot}
    {roots : List Root} (accepted : manifestRoots manifest = some roots) :
    Board.Fit { b with campaigns := b.campaigns ++ [⟨policy, roots, 0⟩] } := by
  obtain ⟨ordered, fresh⟩ := manifestRoots_ordered accepted
  have calm : ∀ (k : Nat) r, roots[k]? = some r → r.state ≠ .running := fun k r found => by
    simp [fresh r (mem_of_getElem? found)]
  refine ⟨?_, fit.alone, ?_, ?_, ?_, ?_, ?_⟩
  · intro i c k held
    obtain ⟨t, r, there, lane, root, runs⟩ := fit.holds i c k held
    exact ⟨t, r, append_old there _, lane, root, runs⟩
  · intro c k t r there root runs
    rcases append_some there with old | ⟨-, rfl⟩
    · exact fit.held c k t r old root runs
    · exact absurd runs (calm k r root)
  · intro c t there
    rcases append_some there with old | ⟨-, rfl⟩
    · exact fit.counted c t old
    · symm
      refine countP_eq_zero.2 (fun r member => ?_)
      simp [fresh r member]
  · intro c t there
    rcases append_some there with old | ⟨rfl, rfl⟩
    · exact fit.carried c t old
    · symm
      refine countP_eq_zero.2 (fun p member => ?_)
      obtain ⟨i, found⟩ := mem_iff_getElem?.1 member
      cases p with
      | none => simp
      | some p =>
        obtain ⟨t, r, there, -⟩ := fit.holds i p.1 p.2 found
        have bound := (List.getElem?_eq_some_iff.1 there).1
        simp only [any_some, decide_eq_true_eq]
        omega
  · intro c t there
    rcases append_some there with old | ⟨-, rfl⟩
    · exact fit.ordered c t old
    · exact ordered
  · intro c k t r there root runs
    rcases append_some there with old | ⟨-, rfl⟩
    · exact fit.ready c k t r old root runs
    · exact absurd runs (calm k r root)

theorem Board.Fit.claims (fit : b.Fit) (idle : b.holders[i]? = some none)
    (there : b.campaigns[c]? = some t) (lane : i < t.policy.parallelRoots) {roots : List Root} {k : Option Nat} (taken : Taken t.roots roots skipped k) :
    Board.Fit ⟨b.campaigns.set c { t with roots := roots, inFlight := t.inFlight + k.toList.length },
      b.holders.set i (k.map (c, ·))⟩ := by
  have later := taken.later
  -- a root that ran still runs, and one that runs now ran before or is the claimed one
  have kept : ∀ (k' : Nat) r, t.roots[k']? = some r → r.state = .running → roots[k']? = some r := by
    intro k' r found runs
    obtain ⟨r', found', ⟨rfl, -⟩ | ⟨pending, -⟩ | ⟨pending, -⟩⟩ := taken.changes found
    · exact found'
    · exact absurd pending (by simp [runs])
    · exact absurd pending (by simp [runs])
  have was : ∀ (k' : Nat) r', roots[k']? = some r' → r'.state = .running →
      t.roots[k']? = some r' ∨ k = some k' ∧ ∃ r, t.roots[k']? = some r ∧ r.state = .pending ∧ r'.needs = r.needs := by
    intro k' r' found' runs
    obtain ⟨r, found⟩ := later.back found'
    obtain ⟨r1, found1, change⟩ := taken.changes found
    obtain rfl := Option.some.inj (found1.symm.trans found')
    rcases change with ⟨rfl, -⟩ | ⟨-, rfl, -⟩ | ⟨pending, rfl, same⟩
    · exact .inl found
    · exact absurd runs (by simp [Root.skip])
    · exact .inr ⟨same, r, found, pending, rfl⟩
  refine ⟨?_, ?_, ?_, ?_, ?_, ?_, ?_⟩
  · intro i' c' k' held
    rcases set_some held with ⟨rfl, mine⟩ | ⟨other, held⟩
    · obtain ⟨k1, rfl, pair⟩ := map_eq_some_iff.1 mine.symm
      obtain ⟨rfl, rfl⟩ := Prod.mk.inj pair
      obtain ⟨-, r', -, -, found', runs⟩ := taken.claimed
      exact ⟨_, r', set_at there _, lane, found', runs⟩
    · obtain ⟨t', r, there', lane', root, runs⟩ := fit.holds i' c' k' held
      by_cases same : c' = c
      · subst same
        obtain rfl := Option.some.inj (there.symm.trans there')
        exact ⟨_, r, set_at there _, lane', kept k' r root runs, runs⟩
      · exact ⟨t', r, by rw [set_other _ same, there'], lane', root, runs⟩
  · -- what is claimed was pending, and no lane held it
    have fresh : ∀ (j : Nat) p, b.holders[j]? = some (some p) → k.map (c, ·) ≠ some p := by
      intro j p held mine
      obtain ⟨k1, rfl, rfl⟩ := map_eq_some_iff.1 mine
      obtain ⟨t', r, there', -, root, runs⟩ := fit.holds j c k1 held
      obtain rfl := Option.some.inj (there.symm.trans there')
      obtain ⟨r0, -, found, pending, -⟩ := taken.claimed
      obtain rfl := Option.some.inj (found.symm.trans root)
      exact absurd pending (by simp [runs])
    intro j j' p held held'
    rcases set_some held with ⟨same, mine⟩ | ⟨-, old⟩ <;> rcases set_some held' with ⟨same', mine'⟩ | ⟨-, old'⟩
    · rw [same, same']
    · exact absurd mine.symm (fresh j' p old')
    · exact absurd mine'.symm (fresh j p old)
    · exact fit.alone j j' p old old'
  · intro c' k' t' r' there' root runs
    rcases set_some there' with ⟨rfl, rfl⟩ | ⟨other, there'⟩
    · rcases was k' r' root runs with old | ⟨rfl, -⟩
      · obtain ⟨j, held⟩ := fit.held c' k' t r' there old runs
        have other : j ≠ i := by rintro rfl; simp [idle] at held
        exact ⟨j, by rw [set_other _ other, held]⟩
      · exact ⟨i, set_at idle _⟩
    · obtain ⟨j, held⟩ := fit.held c' k' t' r' there' root runs
      have other : j ≠ i := by rintro rfl; simp [idle] at held
      exact ⟨j, by rw [set_other _ other, held]⟩
  · intro c' t' there'
    rcases set_some there' with ⟨rfl, rfl⟩ | ⟨-, there'⟩
    · rw [taken.count, fit.counted c' t there]
    · exact fit.counted c' t' there'
  · intro c' t' there'
    have step := countP_set_add (fun p => p.any (·.1 = c')) idle (k.map (c, ·))
    simp only [any_none, Bool.false_eq_true, ite_false, Nat.add_zero] at step
    rcases set_some there' with ⟨rfl, rfl⟩ | ⟨other, there'⟩
    · rw [step, ← fit.carried c' t there]
      cases k <;> simp
    · rw [step, ← fit.carried c' t' there']
      cases k <;> simp [Ne.symm other]
  · intro c' t' there'
    rcases set_some there' with ⟨rfl, rfl⟩ | ⟨-, there'⟩
    · exact later.ordered (fit.ordered c' t there)
    · exact fit.ordered c' t' there'
  · intro c' k' t' r' there' root runs
    rcases set_some there' with ⟨rfl, rfl⟩ | ⟨-, there'⟩
    · rcases was k' r' root runs with old | ⟨-, r, found, pending, needs⟩
      · exact fun name need => later.done (fit.ready c' k' t r' there old runs name need)
      · rw [needs]
        exact (taken.requirements (fit.ordered c' t there) found root pending).1 runs
    · exact fit.ready c' k' t' r' there' root runs

theorem Board.Fit.settles (fit : b.Fit) {k : Nat}
    (holds : b.holders[i]? = some (some (c, k))) (there : b.campaigns[c]? = some t) {next : RootState}
    (ends : next ≠ .running) (outcome : String) :
    Board.Fit ⟨b.campaigns.set c (t.settle k next outcome), b.holders.set i none⟩ := by
  obtain ⟨t1, r, there1, lane, root, runs⟩ := fit.holds i c k holds
  obtain rfl := Option.some.inj (there1.symm.trans there)
  have later : Later t1.roots (t1.settle k next outcome).roots := .modify root (by simp [runs]) rfl rfl
  have was : ∀ (k' : Nat) r', (t1.settle k next outcome).roots[k']? = some r' → r'.state = .running →
      k' ≠ k ∧ t1.roots[k']? = some r' := by
    intro k' r' found' runs'
    by_cases same : k' = k
    · subst same
      obtain rfl : { r with state := next, outcome := outcome } = r' := by
        simpa [Tally.settle, root] using found'
      exact absurd runs' ends
    · exact ⟨same, by simpa [Tally.settle, Ne.symm same] using found'⟩
  have kept : ∀ (k' : Nat), k' ≠ k → (t1.settle k next outcome).roots[k']? = t1.roots[k']? := by
    intro k' other
    simp [Tally.settle, Ne.symm other]
  -- a lane that holds a root now is another one, and its root is another one
  have others : ∀ (j : Nat) p, (b.holders.set i none)[j]? = some (some p) →
      j ≠ i ∧ b.holders[j]? = some (some p) ∧ p ≠ (c, k) := by
    intro j p held
    rcases set_some held with ⟨-, wrong⟩ | ⟨other, old⟩
    · cases wrong
    · refine ⟨other, old, fun same => other (fit.alone j i p old (same ▸ holds))⟩
  refine ⟨?_, ?_, ?_, ?_, ?_, ?_, ?_⟩
  · intro j c' k' held
    obtain ⟨-, old, different⟩ := others j _ held
    obtain ⟨t', r', there', lane', root', runs'⟩ := fit.holds j c' k' old
    by_cases same : c' = c
    · subst same
      obtain rfl := Option.some.inj (there.symm.trans there')
      have other : k' ≠ k := by rintro rfl; exact different rfl
      exact ⟨_, r', set_at there _, lane', by rw [kept k' other, root'], runs'⟩
    · exact ⟨t', r', by rw [set_other _ same, there'], lane', root', runs'⟩
  · intro j j' p held held'
    exact fit.alone j j' p (others j p held).2.1 (others j' p held').2.1
  · intro c' k' t' r' there' root' runs'
    rcases set_some there' with ⟨rfl, rfl⟩ | ⟨other, there'⟩
    · obtain ⟨other, old⟩ := was k' r' root' runs'
      obtain ⟨j, held⟩ := fit.held c' k' t1 r' there old runs'
      have apart : j ≠ i := by
        rintro rfl
        obtain ⟨-, same⟩ := Prod.mk.inj (Option.some.inj (Option.some.inj (held.symm.trans holds)))
        exact other same
      exact ⟨j, by rw [set_other _ apart, held]⟩
    · obtain ⟨j, held⟩ := fit.held c' k' t' r' there' root' runs'
      have apart : j ≠ i := by
        rintro rfl
        obtain ⟨same, -⟩ := Prod.mk.inj (Option.some.inj (Option.some.inj (held.symm.trans holds)))
        exact other same
      exact ⟨j, by rw [set_other _ apart, held]⟩
  · intro c' t' there'
    rcases set_some there' with ⟨rfl, rfl⟩ | ⟨-, there'⟩
    · have step := countP_set_add (·.state = .running) root { r with state := next, outcome := outcome }
      rw [← modify_eq_set root (fun r => { r with state := next, outcome := outcome })] at step
      simp only [runs, ends, decide_true, decide_false, ite_true, Bool.false_eq_true, ite_false, Nat.add_zero] at step
      have count := fit.counted c' t1 there
      simp only [Tally.settle]
      omega
    · exact fit.counted c' t' there'
  · intro c' t' there'
    have step := countP_set_add (fun p => p.any (·.1 = c')) holds none
    rcases set_some there' with ⟨rfl, rfl⟩ | ⟨other, there'⟩
    · have count := fit.carried c' t1 there
      simp at step
      simp only [Tally.settle]
      omega
    · rw [fit.carried c' t' there']
      simpa [Ne.symm other] using step.symm
  · intro c' t' there'
    rcases set_some there' with ⟨rfl, rfl⟩ | ⟨-, there'⟩
    · exact later.ordered (fit.ordered c' t1 there)
    · exact fit.ordered c' t' there'
  · intro c' k' t' r' there' root' runs'
    rcases set_some there' with ⟨rfl, rfl⟩ | ⟨-, there'⟩
    · obtain ⟨-, old⟩ := was k' r' root' runs'
      exact fun name need => later.done (fit.ready c' k' t1 r' there old runs' name need)
    · exact fit.ready c' k' t' r' there' root' runs'

theorem Board.Step.fit {stop : Bool} {b' : Board} (step : Board.Step stop b b') (fit : b.Fit) : b'.Fit := by
  cases step with
  | keeps => exact fit
  | creates policy manifest roots accepted => exact fit.creates policy accepted
  | claims i c t idle there lane roots skipped k next =>
    have taken := nextRoot_taken t.roots (List.range t.roots.length)
    rw [next] at taken
    exact fit.claims idle there lane taken
  | settles i c k t r holds there root next outcome settled =>
    refine fit.settles holds there ?_ outcome
    rcases settled with rfl | ⟨rfl, -⟩ <;> simp

/-- No more roots of a campaign are in flight than its policy admits. -/
theorem Board.Fit.inFlight_le (fit : b.Fit) (there : b.campaigns[c]? = some t) : t.inFlight ≤ t.policy.parallelRoots := by
  rw [fit.carried c t there, ← take_append_drop t.policy.parallelRoots b.holders, countP_append]
  have outside : (b.holders.drop t.policy.parallelRoots).countP (fun p => p.any (·.1 = c)) = 0 := by
    refine countP_eq_zero.2 (fun p member => ?_)
    obtain ⟨i, found⟩ := mem_iff_getElem?.1 member
    rw [getElem?_drop] at found
    cases p with
    | none => simp
    | some p =>
      obtain ⟨t', -, there', lane, -⟩ := fit.holds _ p.1 p.2 found
      simp only [any_some, decide_eq_true_eq]
      rintro rfl
      obtain rfl := Option.some.inj (there.symm.trans there')
      omega
  have bound := countP_le_length (p := fun p : Option (Nat × Nat) => p.any (·.1 = c))
    (l := b.holders.take t.policy.parallelRoots)
  rw [length_take] at bound
  omega

/-! What one step of a lane does, await by await. -/

def Campaign.start (now : Int) (x : Campaign) : Campaign := { x with state := .running, runningSince := now }

def Campaign.take (roots : List Root) (k : Option Nat) (x : Campaign) : Campaign :=
  { x with roots := roots, inFlight := x.inFlight + k.toList.length }

def Campaign.settle (k : Nat) (next : RootState) (outcome : String) (x : Campaign) : Campaign :=
  { x.setRoot k (fun r => { r with state := next, outcome := outcome }) with inFlight := x.inFlight - 1 }

/-- A lane at an await goes on. -/
inductive Deck.Goes (d : Deck) (i : Nat) : At → Deck → List Write → Prop
  | leaves (stop : d.stop = true) : Goes d i .top (d.move i .left) []
  | looks (c : Nat) (go : d.stop = false) (runs : d.running = some c) : Goes d i .top (d.move i (.looked c)) []
  | waits (go : d.stop = false) (calm : d.running = none) (h : d.promoting = true ∨ d.best = none) :
      Goes d i .top (d.move i .sleeping) []
  | opens (c : Nat) (go : d.stop = false) (calm : d.running = none) (free : d.promoting = false)
      (best : d.best = some c) : Goes d i .top ({ d with promoting := true }.move i (.opening c)) []
  | promotes (c : Nat) (x : Campaign) (there : d.campaigns[c]? = some x) (queued : x.state = .queued) :
      Goes d i (.opening c) ((d.update c (Campaign.start d.now)).move i (.promoted c)) [.updateCampaign c .running none]
  | misses (c : Nat) (x : Campaign) (there : d.campaigns[c]? = some x) (gone : x.state ≠ .queued) :
      Goes d i (.opening c) ({ d with promoting := false }.move i .sleeping) []
  | enters (c : Nat) (x : Campaign) (there : d.campaigns[c]? = some x) (runs : x.state = .running) :
      Goes d i (.promoted c) ({ d with promoting := false }.move i (.looked c)) []
  | loses (c : Nat) (x : Campaign) (there : d.campaigns[c]? = some x) (stopped : x.state ≠ .running) :
      Goes d i (.promoted c) ({ d with promoting := false }.move i .sleeping) []
  | admits (c : Nat) (x : Campaign) (there : d.campaigns[c]? = some x)
      (h : x.state ≠ .running ∨ x.inFlight ≠ 0 ∨
        x.roots.any (·.state = .pending) = true ∧ x.budgetExhausted d.now = false) :
      Goes d i (.looked c) (d.move i (.admitting c)) []
  | finishes (c : Nat) (x : Campaign) (there : d.campaigns[c]? = some x) (runs : x.state = .running)
      (quiet : x.inFlight = 0)
      (ended : x.roots.any (·.state = .pending) = false ∨ x.budgetExhausted d.now = true) :
      Goes d i (.looked c) ((d.update c (Campaign.leaveRunning d.now .finished)).move i (.finishing c))
        [.updateCampaign c .finished (some (x.ran d.now))]
  | rests (c : Nat) : Goes d i (.finishing c) (d.move i .sleeping) []
  | refuses (c : Nat) (x : Campaign) (there : d.campaigns[c]? = some x)
      (h : x.policy.parallelRoots ≤ i ∨ x.budgetExhausted d.now = true) : Goes d i (.admitting c) (d.move i .sleeping) []
  | takes (c : Nat) (x : Campaign) (there : d.campaigns[c]? = some x) (lane : i < x.policy.parallelRoots)
      (left : x.budgetExhausted d.now = false) (roots : List Root) (skipped : List Nat) (k : Option Nat)
      (next : nextRoot x.roots (List.range x.roots.length) = (roots, skipped, k)) :
      Goes d i (.admitting c) ((d.update c (Campaign.take roots k)).skips i c roots k skipped).1
        ((d.update c (Campaign.take roots k)).skips i c roots k skipped).2
  | skips (c : Nat) (rest : List Nat) (k : Option Nat) (x : Campaign) (there : d.campaigns[c]? = some x) :
      Goes d i (.skipping c rest k) (d.skips i c x.roots k rest).1 (d.skips i c x.roots k rest).2
  | claims (c k : Nat) (x : Campaign) (r : Root) (there : d.campaigns[c]? = some x) (root : x.roots[k]? = some r) :
      Goes d i (.claimed c k) (d.move i (.inserting c k))
        [.insertAttempt c k r.attempts none, .setRootState c k .running]
  | inserts (c k : Nat) (x : Campaign) (there : d.campaigns[c]? = some x) :
      Goes d i (.inserting c k) (d.move i (.requesting c k ⟨x.runningSince, x.used, d.now, false, none⟩)) []
  | requests (c k : Nat) (s : Session) : Goes d i (.requesting c k s) (d.move i (.recording c k s)) []
  | settles (c k : Nat) (next : RootState) (outcome : String) (x : Campaign) (there : d.campaigns[c]? = some x)
      (goes : outcome ≠ "recorder-error" ∨ x.state ≠ .running) :
      Goes d i (.settling c k next outcome) ((d.update c (Campaign.settle k next outcome)).move i .top) []
  | pauses (c k : Nat) (next : RootState) (x : Campaign) (there : d.campaigns[c]? = some x)
      (runs : x.state = .running) :
      Goes d i (.settling c k next "recorder-error")
        (((d.update c (Campaign.settle k next "recorder-error")).update c (Campaign.leaveRunning d.now .paused)).move i
          (.pausing c)) [.updateCampaign c .paused (some (x.ran d.now))]
  | paused (c : Nat) : Goes d i (.pausing c) (d.move i .top) []
  | wakes : Goes d i .sleeping (d.move i .top) []

theorem Deck.goes_cases {d d' : Deck} {a : At} {w : List Write} (step : d.goes i a = some (d', w)) : d.Goes i a d' w := by
  cases a with
  | top =>
    simp only [Deck.goes] at step
    by_cases stop : d.stop = true
    · rw [if_pos stop] at step
      cases Option.some.inj step
      exact .leaves stop
    · rw [if_neg stop] at step
      have go : d.stop = false := by simpa using stop
      split at step
      · rename_i c runs
        cases Option.some.inj step
        exact .looks c go runs
      · rename_i calm
        by_cases promoting : d.promoting = true
        · rw [if_pos promoting] at step
          cases Option.some.inj step
          exact .waits go calm (.inl promoting)
        · rw [if_neg promoting] at step
          split at step
          · rename_i none_
            cases Option.some.inj step
            exact .waits go calm (.inr none_)
          · rename_i c best
            cases Option.some.inj step
            exact .opens c go calm (by simpa using promoting) best
  | opening c =>
    obtain ⟨x, there, out⟩ := map_eq_some_iff.1 step
    split_ifs at out with queued
    · cases out
      exact .promotes c x there queued
    · cases out
      exact .misses c x there queued
  | promoted c =>
    obtain ⟨x, there, out⟩ := map_eq_some_iff.1 step
    by_cases runs : x.state = .running
    · rw [if_pos runs] at out
      cases out
      exact .enters c x there runs
    · rw [if_neg runs] at out
      cases out
      exact .loses c x there runs
  | looked c =>
    obtain ⟨x, there, out⟩ := map_eq_some_iff.1 step
    split_ifs at out with busy left
    · cases out
      exact .admits c x there (by rcases busy with h | h <;> simp [h])
    · cases out
      exact .admits c x there (.inr (.inr (by simpa using left)))
    · cases out
      simp only [not_or, not_not] at busy
      refine .finishes c x there busy.1 busy.2 ?_
      cases pending : x.roots.any (fun r => decide (r.state = .pending)) with
      | false => exact .inl rfl
      | true => simpa [pending] using left
  | finishing c =>
    cases Option.some.inj step
    exact .rests c
  | admitting c =>
    obtain ⟨x, there, out⟩ := map_eq_some_iff.1 step
    split_ifs at out with free
    · simp only [Bool.and_eq_true, decide_eq_true_eq, Bool.not_eq_true'] at free
      obtain ⟨rfl, rfl⟩ := Prod.mk.inj out
      exact .takes c x there free.1 free.2 _ _ _ rfl
    · cases out
      refine .refuses c x there ?_
      by_cases lane : i < x.policy.parallelRoots
      · exact .inr (by simpa [lane] using free)
      · exact .inl (by omega)
  | skipping c rest k =>
    obtain ⟨x, there, out⟩ := map_eq_some_iff.1 step
    obtain ⟨rfl, rfl⟩ := Prod.mk.inj out
    exact .skips c rest k x there
  | claimed c k =>
    obtain ⟨x, there, out⟩ := bind_eq_some_iff.1 step
    obtain ⟨r, root, out⟩ := map_eq_some_iff.1 out
    cases out
    exact .claims c k x r there root
  | inserting c k =>
    obtain ⟨x, there, out⟩ := map_eq_some_iff.1 step
    cases out
    exact .inserts c k x there
  | requesting c k s =>
    cases Option.some.inj step
    exact .requests c k s
  | recording => cases step
  | recorded => cases step
  | settling c k next outcome =>
    obtain ⟨x, there, out⟩ := map_eq_some_iff.1 step
    split_ifs at out with failed
    · simp only [Bool.and_eq_true, decide_eq_true_eq] at failed
      obtain ⟨rfl, runs⟩ := failed
      cases out
      exact .pauses c k next x there runs
    · cases out
      refine .settles c k next outcome x there ?_
      by_cases wrong : outcome = "recorder-error"
      · exact .inr (by simpa [wrong] using failed)
      · exact .inl wrong
  | pausing c =>
    cases Option.some.inj step
    exact .paused c
  | sleeping =>
    cases Option.some.inj step
    exact .wakes
  | left => cases step

end Campaigns
