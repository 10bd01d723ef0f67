import Nanofil.Campaign.Budgets
import Nanofil.Campaign.Catalog

/-! What a lane still has to write for a root, and what one step does to one root. -/
namespace Campaigns
open List Option

/-- What a lane has to write for a root that it has skipped or claimed. -/
inductive Due
  | free
  | skipped
  | claimed
  | opened
  | decided (next : RootState)
deriving DecidableEq, Repr

def At.due (c k : Nat) : At → Due
  | .skipping c' rest k' =>
    if c' = c then (if k ∈ rest then .skipped else if k' = some k then .claimed else .free) else .free
  | .claimed c' k' => if c' = c ∧ k' = k then .claimed else .free
  | .inserting c' k' | .requesting c' k' _ | .recording c' k' _ | .recorded c' k' _ _ =>
    if c' = c ∧ k' = k then .opened else .free
  | .settling c' k' next _ => if c' = c ∧ k' = k then .decided next else .free
  | _ => .free

/-- A lane that has handed over writes to roots' rows and awaits them. -/
def At.writes : At → Bool
  | .skipping .. | .inserting .. | .settling .. => true
  | _ => false

def Deck.root (d : Deck) (c k : Nat) : Option Root := (d.campaigns[c]?).bind (fun x => x.roots[k]?)

def Deck.due (d : Deck) (c k j : Nat) : Option Due := (d.lanes[j]?).map (At.due c k)

/-- The skipped roots of a lane are distinct, and not the one it has claimed. -/
def Deck.Tidy (d : Deck) : Prop :=
  ∀ (i c : Nat) (rest : List Nat) (k : Option Nat), d.lanes[i]? = some (.skipping c rest k) →
    rest.Nodup ∧ ∀ j, k = some j → j ∉ rest

/-- One step as one root sees it: who has something due for it, its state, and the writes. -/
inductive RootStep (c k : Nat) (due due' : Nat → Option Due) (r r' : Root) (ws : List Write) : Prop
  | same (state : r'.state = r.state) (attempts : r'.attempts = r.attempts) (lanes : ∀ j, due' j = due j)
      (elsewhere : ∀ w ∈ ws, w.Elsewhere c k)
  | takes (i : Nat) (pending : r.state = .pending) (state : r'.state = .settled) (attempts : r'.attempts = r.attempts + 1)
      (lane : due' i = some .skipped) (others : ∀ j, j ≠ i → due' j = due j) (elsewhere : ∀ w ∈ ws, w.Elsewhere c k)
  | claims (i : Nat) (pending : r.state = .pending) (state : r'.state = .running) (attempts : r'.attempts = r.attempts + 1)
      (lane : due' i = some .claimed) (others : ∀ j, j ≠ i → due' j = due j) (elsewhere : ∀ w ∈ ws, w.Elsewhere c k)
  | skipsNow (i : Nat) (pending : r.state = .pending) (state : r'.state = .settled)
      (attempts : r'.attempts = r.attempts + 1) (lane : due' i = some .free) (others : ∀ j, j ≠ i → due' j = due j)
      (writes : ws = [.insertAttempt c k r'.attempts (some "skipped"), .setRootState c k .settled])
  | skips (i : Nat) (state : r'.state = r.state) (attempts : r'.attempts = r.attempts) (before : due i = some .skipped)
      (lane : due' i = some .free) (others : ∀ j, j ≠ i → due' j = due j)
      (writes : ws = [.insertAttempt c k r.attempts (some "skipped"), .setRootState c k .settled])
  | inserts (i : Nat) (state : r'.state = r.state) (attempts : r'.attempts = r.attempts) (before : due i = some .claimed)
      (lane : due' i = some .opened) (others : ∀ j, j ≠ i → due' j = due j)
      (writes : ws = [.insertAttempt c k r.attempts none, .setRootState c k .running])
  | decides (i : Nat) (next : RootState) (outcome : String) (state : r'.state = r.state)
      (attempts : r'.attempts = r.attempts) (before : due i = some .opened) (lane : due' i = some (.decided next))
      (others : ∀ j, j ≠ i → due' j = due j) (ends : next = .settled ∨ next = .pending)
      (writes : ws = [.finishAttempt c k r.attempts outcome (decide (next = .settled)), .setRootState c k next])
  | settles (i : Nat) (next : RootState) (state : r'.state = next) (attempts : r'.attempts = r.attempts)
      (before : due i = some (.decided next)) (lane : due' i = some .free) (others : ∀ j, j ≠ i → due' j = due j)
      (elsewhere : ∀ w ∈ ws, w.Elsewhere c k)
  | gives (i : Nat) (state : r'.state = .pending) (attempts : r'.attempts = r.attempts - 1)
      (before : due i = some .claimed) (lane : due' i = some .free) (others : ∀ j, j ≠ i → due' j = due j)
      (elsewhere : ∀ w ∈ ws, w.Elsewhere c k)

/-! ### What `next_root` skips and claims -/

variable {roots' : List Root} {skipped : List Nat} {r : Root} {a : At} {d d' : Deck} {i j c : Nat} {ws : List Write}

theorem Taken.pending {roots : List Root} {claimed : Option Nat} (taken : Taken roots roots' skipped claimed) :
    (∀ j ∈ skipped, ∃ r, roots[j]? = some r ∧ r.state = .pending) ∧
      ∀ j, claimed = some j → ∃ r, roots[j]? = some r ∧ r.state = .pending := by
  induction taken with
  | done => simp
  | @skip roots roots' skipped claimed k r found pending refused rest ih =>
    have back : ∀ (j : Nat), (∃ q, (roots.modify k Root.skip)[j]? = some q ∧ q.state = .pending) →
        ∃ q, roots[j]? = some q ∧ q.state = .pending := by
      rintro j ⟨q, there, waits⟩
      obtain ⟨p, old, ⟨rfl, -⟩ | ⟨rfl, -⟩⟩ := modify_some there
      · exact ⟨_, old, waits⟩
      · cases waits
    refine ⟨fun j member => ?_, fun j same => back j (ih.2 j same)⟩
    rcases mem_cons.1 member with rfl | member
    · exact ⟨r, found, pending⟩
    · exact back j (ih.1 j member)
  | claim k r found pending free ready =>
    refine ⟨by simp, fun j same => ?_⟩
    cases same
    exact ⟨r, found, pending⟩

theorem Taken.tidy {roots : List Root} {claimed : Option Nat}
    (taken : Taken roots roots' skipped claimed) : skipped.Nodup ∧ ∀ j, claimed = some j → j ∉ skipped := by
  induction taken with
  | done => simp
  | @skip roots roots' skipped claimed k r found pending refused rest ih =>
    have gone : ∀ q, (roots.modify k Root.skip)[k]? = some q → q.state ≠ .pending := by
      intro q there
      obtain rfl : r.skip = q := by simpa [found] using there
      simp [Root.skip]
    refine ⟨nodup_cons.2 ⟨fun again => ?_, ih.1⟩, fun j same member => ?_⟩
    · obtain ⟨q, there, waits⟩ := rest.pending.1 k again
      exact gone q there waits
    · rcases mem_cons.1 member with rfl | member
      · obtain ⟨q, there, waits⟩ := rest.pending.2 j same
        exact gone q there waits
      · exact ih.2 j same member
  | claim => simp

theorem Taken.root {roots : List Root} {claimed : Option Nat}
    (taken : Taken roots roots' skipped claimed) {k : Nat} (found : roots[k]? = some r) :
    ∃ r', roots'[k]? = some r' ∧
      (r' = r ∧ k ∉ skipped ∧ claimed ≠ some k ∨ r.state = .pending ∧ r' = r.skip ∧ k ∈ skipped ∨
        r.state = .pending ∧ r' = r.claim ∧ k ∉ skipped ∧ claimed = some k) := by
  induction taken generalizing r with
  | done => exact ⟨r, found, .inl ⟨rfl, by simp, by simp⟩⟩
  | @skip roots roots' skipped claimed j q there pending refused rest ih =>
    by_cases same : j = k
    · subst same
      obtain rfl := Option.some.inj (there.symm.trans found)
      have now : (roots.modify j Root.skip)[j]? = some q.skip := by simp [there]
      obtain ⟨r', found', ⟨rfl, -⟩ | ⟨wrong, -⟩ | ⟨wrong, -⟩⟩ := ih now
      · exact ⟨_, found', .inr (.inl ⟨pending, rfl, mem_cons_self ..⟩)⟩
      · exact absurd wrong (by simp [Root.skip])
      · exact absurd wrong (by simp [Root.skip])
    · have now : (roots.modify j Root.skip)[k]? = some r := by simp [same, found]
      obtain ⟨r', found', change⟩ := ih now
      refine ⟨r', found', ?_⟩
      simpa [mem_cons, Ne.symm same] using change
  | @claim roots j q there pending free ready =>
    by_cases same : j = k
    · subst same
      obtain rfl := Option.some.inj (there.symm.trans found)
      exact ⟨q.claim, by simp [there], .inr (.inr ⟨pending, rfl, by simp, rfl⟩)⟩
    · exact ⟨r, by simp [same, found], .inl ⟨rfl, by simp, by simpa using same⟩⟩

/-! ### Steps -/

theorem due_move_self (found : d.lanes[i]? = some a) (b : At) (c k : Nat) : (d.move i b).due c k i = some (b.due c k) := by
  simp only [Deck.due, Deck.move_lanes, set_at found, map_some]

theorem due_move_other (d : Deck) (b : At) (c k : Nat) (other : j ≠ i) : (d.move i b).due c k j = d.due c k j := by
  simp only [Deck.due, Deck.move_lanes, set_other b other]

theorem due_move_same {b : At} (found : d.lanes[i]? = some a) {k : Nat}
    (same : b.due c k = a.due c k) (j : Nat) : (d.move i b).due c k j = d.due c k j := by
  by_cases here : j = i
  · subst here
    rw [due_move_self found, same, Deck.due, found, map_some]
  · exact due_move_other d b c k here

theorem root_update_same {c' : Nat} {f : Campaign → Campaign} (same : ∀ x, (f x).roots = x.roots) (c k : Nat) :
    (d.update c' f).root c k = d.root c k := by
  unfold Deck.root
  rw [Deck.update_campaigns, getElem?_modify]
  cases d.campaigns[c]? with
  | none => rfl
  | some x =>
    by_cases here : c' = c
    · simp [here, same]
    · simp [here]

theorem root_modify (d : Deck) {e : Nat} {f : Campaign → Campaign} {g : Root → Root}
    (change : ∀ x, (f x).roots = x.roots.modify j g) (c k : Nat) :
    (d.update e f).root c k = (d.root c k).map (fun r => if e = c ∧ j = k then g r else r) := by
  unfold Deck.root
  rw [Deck.update_campaigns, getElem?_modify]
  cases d.campaigns[c]? with
  | none => rfl
  | some x =>
    by_cases here : e = c
    · subst here
      simp only [ite_true, Option.map_eq_map, map_some, bind_some, change, getElem?_modify, true_and]
    · simp [here]

theorem skipping_due (c k : Nat) (rest : List Nat) (k' : Option Nat) :
    (At.skipping c rest k').due c k = if k ∈ rest then .skipped else if k' = some k then .claimed else .free := by
  simp [At.due]

/-- The lane goes on with its lists: the first skipped root is written, or the claimed one is next. -/
theorem skips_due {k : Nat} {k' : Option Nat} {b : At} (tidy : skipped.Nodup ∧ ∀ j, k' = some j → j ∉ skipped)
    (shape : b = .sleeping ∧ skipped = [] ∧ k' = none ∨ (∃ j rest, b = .skipping c rest k' ∧ skipped = j :: rest) ∨
      ∃ j, b = .claimed c j ∧ skipped = [] ∧ k' = some j) :
    (∀ (c1 k1 : Nat), c1 ≠ c → b.due c1 k1 = .free) ∧
      b.due c k = if skipped.head? = some k then .free else (At.skipping c skipped k').due c k := by
  rcases shape with ⟨rfl, rfl, rfl⟩ | ⟨j, rest, rfl, rfl⟩ | ⟨j, rfl, rfl, rfl⟩
  · exact ⟨fun _ _ _ => rfl, by simp [At.due]⟩
  · refine ⟨fun c1 k1 other => by simp [At.due, Ne.symm other], ?_⟩
    have fresh := (nodup_cons.1 tidy.1).1
    by_cases here : j = k
    · subst here
      have other : k' ≠ some j := fun same => tidy.2 j same (mem_cons_self ..)
      simp [skipping_due, fresh, other]
    · simp [skipping_due, here, Ne.symm here]
  · refine ⟨fun c1 k1 other => by simp [At.due, Ne.symm other], ?_⟩
    by_cases here : j = k
    · simp [At.due, here]
    · simp [At.due, here]

theorem skips_writes (d : Deck) (i c : Nat) (roots : List Root) (k' : Option Nat) (skipped : List Nat) :
    (d.skips i c roots k' skipped).2 = match skipped.head? with
      | some j => skipWrites c roots j
      | none => [] := by
  cases skipped with
  | cons => rfl
  | nil => cases k' <;> rfl

theorem skipWrites_elsewhere {c' k : Nat} (roots : List Root) (other : ¬(c' = c ∧ j = k)) :
    ∀ w ∈ skipWrites c' roots j, w.Elsewhere c k := by
  intro w member
  simp only [skipWrites, mem_cons, not_mem_nil, or_false] at member
  rcases member with rfl | rfl <;> exact other

theorem Deck.Goes.tidy (goes : d.Goes i a d' ws) (tidy : d.Tidy) (found : d.lanes[i]? = some a) : d'.Tidy := by
  intro j c rest k' found'
  have moved : ∀ b : At, (∀ c rest k', b = .skipping c rest k' → rest.Nodup ∧ ∀ j, k' = some j → j ∉ rest) →
      (d.lanes.set i b)[j]? = some (.skipping c rest k') → rest.Nodup ∧ ∀ j, k' = some j → j ∉ rest := by
    intro b new found'
    rcases set_some found' with ⟨-, same⟩ | ⟨-, old⟩
    · exact new c rest k' same.symm
    · exact tidy j c rest k' old
  have shorter : ∀ (skipped : List Nat) (k1 : Option Nat) (b : At) (c1 : Nat),
      (skipped.Nodup ∧ ∀ j, k1 = some j → j ∉ skipped) →
      (b = .sleeping ∧ skipped = [] ∧ k1 = none ∨ (∃ j rest, b = .skipping c1 rest k1 ∧ skipped = j :: rest) ∨
        ∃ j, b = .claimed c1 j ∧ skipped = [] ∧ k1 = some j) →
      ∀ c rest k', b = .skipping c rest k' → rest.Nodup ∧ ∀ j, k' = some j → j ∉ rest := by
    rintro skipped k1 b c1 ⟨nodup, apart⟩ shape c rest k' rfl
    rcases shape with ⟨wrong, -⟩ | ⟨j, rest', same, rfl⟩ | ⟨j, wrong, -⟩
    · cases wrong
    · cases same
      exact ⟨(nodup_cons.1 nodup).2, fun j same member => apart j same (mem_cons_of_mem _ member)⟩
    · cases wrong
  cases goes with
  | takes c1 x there lane left roots skipped k1 next =>
    obtain ⟨b, to_, -, -, shape⟩ := Deck.skips_moves (d.update c1 (Campaign.take roots k1)) i c1 roots k1 skipped
    have taken := nextRoot_taken x.roots (List.range x.roots.length)
    rw [next] at taken
    rw [to_] at found'
    exact moved b (shorter skipped k1 b c1 taken.tidy shape) found'
  | skips c1 rest1 k1 x there =>
    obtain ⟨b, to_, -, -, shape⟩ := Deck.skips_moves d i c1 x.roots k1 rest1
    rw [to_] at found'
    exact moved b (shorter rest1 k1 b c1 (tidy i c1 rest1 k1 found) shape) found'
  | _ => exact moved _ (by simp) found'

theorem Deck.Goes.root_step (goes : d.Goes i a d' ws) (tidy : d.Tidy)
    (found : d.lanes[i]? = some a) {k : Nat} (root : d.root c k = some r)
    (ends : ∀ c k next outcome, a = .settling c k next outcome → next ≠ .running) :
    ∃ r', d'.root c k = some r' ∧ RootStep c k (d.due c k) (d'.due c k) r r' ws := by
  have before : d.due c k i = some (a.due c k) := by rw [Deck.due, found]; rfl
  have others : ∀ (e : Deck) (b : At), e.lanes = d.lanes → ∀ j, j ≠ i → (e.move i b).due c k j = d.due c k j := by
    intro e b same j other
    rw [due_move_other e b c k other, Deck.due, same]
    rfl
  -- a step that changes no root and leaves nothing else due
  have aside : ∀ (e : Deck) (b : At), e.lanes = d.lanes → e.root c k = d.root c k → b.due c k = a.due c k →
      (∀ w ∈ ws, w.Elsewhere c k) →
      ∃ r', (e.move i b).root c k = some r' ∧ RootStep c k (d.due c k) ((e.move i b).due c k) r r' ws := by
    intro e b lanes roots same elsewhere
    refine ⟨r, roots.trans root, .same rfl rfl (fun j => ?_) elsewhere⟩
    have found1 : e.lanes[i]? = some a := lanes ▸ found
    rw [due_move_same found1 same j, Deck.due, lanes]
    rfl
  cases goes with
  | promotes c1 x there queued =>
    refine aside (d.update c1 (Campaign.start d.now)) _ rfl (root_update_same (fun _ => by rfl) c k) rfl (fun w member => ?_)
    rw [mem_singleton.1 member]
    trivial
  | finishes c1 x there runs quiet ended =>
    refine aside (d.update c1 (Campaign.leaveRunning d.now .finished)) _ rfl (root_update_same (fun _ => by rfl) c k) rfl
      (fun w member => ?_)
    rw [mem_singleton.1 member]
    trivial
  | opens | misses | enters | loses => exact aside { d with promoting := _ } _ rfl rfl rfl (by simp)
  | takes c1 x there lane left roots skipped k1 next =>
    obtain ⟨b, to_, -, -, shape⟩ := Deck.skips_moves (d.update c1 (Campaign.take roots k1)) i c1 roots k1 skipped
    have taken := nextRoot_taken x.roots (List.range x.roots.length)
    rw [next] at taken
    obtain ⟨away, here⟩ := skips_due (k := k) taken.tidy shape
    have writes := skips_writes (d.update c1 (Campaign.take roots k1)) i c1 roots k1 skipped
    rw [to_]
    have found1 : (d.update c1 (Campaign.take roots k1)).lanes[i]? = some (.admitting c1) := found
    by_cases mine : c1 = c
    · subst mine
      have root1 : x.roots[k]? = some r := by simpa [Deck.root, there] using root
      obtain ⟨r', found', change⟩ := taken.root root1
      have after_ : ((d.update c1 (Campaign.take roots k1)).move i b).root c1 k = some r' := by
        simp only [Deck.root, Deck.move_campaigns, Deck.update_campaigns, modify_eq_set there, set_at there, bind_some]
        exact found'
      have due_ := due_move_self found1 b c1 k
      rw [here] at due_
      have rest_ := others (d.update c1 (Campaign.take roots k1)) b rfl
      refine ⟨r', after_, ?_⟩
      rw [writes]
      have aside_ : skipped.head? ≠ some k → ∀ w ∈ (match skipped.head? with
          | some j => skipWrites c1 roots j
          | none => []), w.Elsewhere c1 k := by
        intro other w member
        cases head : skipped.head? with
        | none => simp [head] at member
        | some j =>
          rw [head] at member
          exact skipWrites_elsewhere roots (fun h => other (by rw [head, h.2])) w member
      rcases change with ⟨rfl, out, other⟩ | ⟨pending, rfl, in_⟩ | ⟨pending, rfl, out, claimed⟩
      · have not_head : skipped.head? ≠ some k := fun same => out (mem_of_head? same)
        refine .same rfl rfl (fun j => ?_) (aside_ not_head)
        by_cases same : j = i
        · subst same
          rw [due_, before, if_neg not_head, skipping_due, if_neg out, if_neg other]
          rfl
        · exact rest_ j same
      · by_cases head : skipped.head? = some k
        · rw [if_pos head] at due_
          refine .skipsNow i pending rfl rfl due_ rest_ ?_
          simp only [head, skipWrites, found', map_some, getD_some]
        · rw [if_neg head, skipping_due, if_pos in_] at due_
          exact .takes i pending rfl rfl due_ rest_ (aside_ head)
      · have not_head : skipped.head? ≠ some k := fun same => out (mem_of_head? same)
        rw [if_neg not_head, skipping_due, if_neg out, if_pos claimed] at due_
        exact .claims i pending rfl rfl due_ rest_ (aside_ not_head)
    · refine ⟨r, ?_, .same rfl rfl (fun j => ?_) ?_⟩
      · simp only [Deck.root, Deck.move_campaigns, Deck.update_campaigns, getElem?_modify] at root ⊢
        simpa [mine] using root
      · refine due_move_same found1 ?_ j
        rw [away c k (Ne.symm mine)]
        rfl
      · rw [writes]
        intro w member
        cases head : skipped.head? with
        | none => simp [head] at member
        | some j =>
          rw [head] at member
          exact skipWrites_elsewhere roots (fun h => mine h.1) w member
  | skips c1 rest k1 x there =>
    obtain ⟨b, to_, -, -, shape⟩ := Deck.skips_moves d i c1 x.roots k1 rest
    obtain ⟨away, here⟩ := skips_due (k := k) (tidy i c1 rest k1 found) shape
    have writes := skips_writes d i c1 x.roots k1 rest
    rw [to_, writes]
    by_cases mine : c1 = c ∧ rest.head? = some k
    · obtain ⟨rfl, head⟩ := mine
      have root1 : x.roots[k]? = some r := by simpa [Deck.root, there] using root
      have due_ := due_move_self found b c1 k
      rw [here, if_pos head] at due_
      refine ⟨r, root, .skips i rfl rfl ?_ due_ (others d b rfl) ?_⟩
      · rw [before, skipping_due, if_pos (mem_of_head? head)]
      · simp only [head, skipWrites, root1, map_some, getD_some]
    · refine ⟨r, root, .same rfl rfl (due_move_same found ?_) (fun w member => ?_)⟩
      · by_cases same : c1 = c
        · subst same
          rw [here, if_neg (fun head => mine ⟨rfl, head⟩)]
        · rw [away c k (Ne.symm same)]
          simp [At.due, same]
      · cases head : rest.head? with
        | none => simp [head] at member
        | some j =>
          rw [head] at member
          exact skipWrites_elsewhere x.roots (fun h => mine ⟨h.1, by rw [head, h.2]⟩) w member
  | claims c1 k1 x q there root1 =>
    by_cases mine : c1 = c ∧ k1 = k
    · obtain ⟨rfl, rfl⟩ := mine
      obtain rfl : q = r := by simpa [Deck.root, there, root1] using root
      refine ⟨q, root, .inserts i rfl rfl ?_ ?_ (others d _ rfl) rfl⟩
      · rw [before]; simp [At.due]
      · rw [due_move_self found]; simp [At.due]
    · refine aside d _ rfl rfl (by simp [At.due, mine]) (fun w member => ?_)
      simp only [mem_cons, not_mem_nil, or_false] at member
      rcases member with rfl | rfl <;> exact mine
  | settles c1 k1 next outcome x there calm =>
    have change := root_modify d (e := c1) (f := Campaign.settle k1 next outcome) (fun _ => rfl) c k
    by_cases mine : c1 = c ∧ k1 = k
    · obtain ⟨rfl, rfl⟩ := mine
      rw [root] at change
      simp only [and_self, ite_true, map_some] at change
      refine ⟨_, change, .settles i next rfl rfl ?_ ?_ (others (d.update c1 (Campaign.settle k1 next outcome)) _ rfl) (by simp)⟩
      · rw [before]; simp [At.due]
      · exact due_move_self (d := d.update c1 (Campaign.settle k1 next outcome)) found .top c1 k1
    · refine aside (d.update c1 (Campaign.settle k1 next outcome)) _ rfl ?_ (by simp [At.due, mine]) (by simp)
      rw [change]
      simp [mine]
  | pauses c1 k1 next x there runs =>
    have change := root_modify d (e := c1) (f := Campaign.settle k1 next "recorder-error") (fun _ => rfl) c k
    have same : ((d.update c1 (Campaign.settle k1 next "recorder-error")).update c1 (Campaign.leaveRunning d.now .paused)).root c k =
        (d.update c1 (Campaign.settle k1 next "recorder-error")).root c k := root_update_same (fun _ => by rfl) c k
    have elsewhere : ∀ w ∈ [Write.updateCampaign c1 .paused (some (x.ran d.now))], w.Elsewhere c k := by
      intro w member
      rw [mem_singleton.1 member]
      trivial
    by_cases mine : c1 = c ∧ k1 = k
    · obtain ⟨rfl, rfl⟩ := mine
      rw [root] at change
      simp only [and_self, ite_true, map_some] at change
      refine ⟨_, same.trans change, .settles i next rfl rfl ?_ ?_ (others ((d.update c1
        (Campaign.settle k1 next "recorder-error")).update c1 (Campaign.leaveRunning d.now .paused)) _ rfl) elsewhere⟩
      · rw [before]; simp [At.due]
      · exact due_move_self (d := (d.update c1 (Campaign.settle k1 next "recorder-error")).update c1
          (Campaign.leaveRunning d.now .paused)) found (.pausing c1) c1 k1
    · refine aside ((d.update c1 (Campaign.settle k1 next "recorder-error")).update c1 (Campaign.leaveRunning d.now .paused)) _ rfl
        ?_ (by simp [At.due, mine]) elsewhere
      rw [same, change]
      simp [mine]
  | _ => exact aside d _ rfl rfl rfl (by simp)

theorem flagged_due (c' : Nat) (a : At) (c k : Nat) : (a.flagged c').due c k = a.due c k := by cases a <;> rfl

theorem nextState_ends (policy : Policy) (attempt : Nat) (stopping operatorCancel : Bool) (outcome : String) :
    nextState policy attempt stopping operatorCancel outcome = .settled ∨
      nextState policy attempt stopping operatorCancel outcome = .pending :=
  (nextState_settled_or policy attempt stopping operatorCancel outcome).imp id And.left

/-- One step of the service on one root; no lane throws while it awaits writes to rows. -/
theorem Deck.Moves.root_step {l : Label} (moves : d.Moves l d' ws) (old : l.creates = false)
    (sound : ∀ i a, l = .throws i → d.lanes[i]? = some a → a.writes = false) (tidy : d.Tidy) (settles : d.Settles)
    {k : Nat} (root : d.root c k = some r) :
    ∃ r', d'.root c k = some r' ∧ RootStep c k (d.due c k) (d'.due c k) r r' ws := by
  have command : ∀ (c1 : Nat) (f : Campaign → Campaign), (∀ x, (f x).roots = x.roots) → (∀ w ∈ ws, w.Elsewhere c k) →
      ∃ r', (d.update c1 f).root c k = some r' ∧ RootStep c k (d.due c k) ((d.update c1 f).due c k) r r' ws :=
    fun c1 f same elsewhere => ⟨r, (root_update_same same c k).trans root, .same rfl rfl (fun _ => rfl) elsewhere⟩
  cases moves with
  | goes i a found d' ws goes =>
    refine goes.root_step tidy found root (fun c k next outcome same => ?_)
    exact settles i c k next outcome (same ▸ found)
  | throws i a found d' throws =>
    have calm := sound i a rfl found
    cases a with
    | claimed c1 k1 =>
      cases Option.some.inj throws
      have change := root_modify d (e := c1) (j := k1) (f := fun x => { x.setRoot k1 (fun r =>
        { r with state := .pending, attempts := r.attempts - 1 }) with inFlight := x.inFlight - 1 }) (fun _ => rfl) c k
      by_cases mine : c1 = c ∧ k1 = k
      · obtain ⟨rfl, rfl⟩ := mine
        rw [root] at change
        simp only [and_self, ite_true, map_some] at change
        refine ⟨_, change, .gives i rfl rfl ?_ ?_ (fun j other => ?_) (by simp)⟩
        · simp [Deck.due, found, At.due]
        · exact due_move_self (d := d.update c1 _) found .sleeping c1 k1
        · exact due_move_other (d.update c1 _) .sleeping c1 k1 other
      · refine ⟨r, ?_, .same rfl rfl (fun j => ?_) (by simp)⟩
        · refine change.trans ?_
          simp [root, mine]
        · exact due_move_same (d := d.update c1 _) (a := .claimed c1 k1) found (by simp [At.due, mine]) j
    | requesting c1 k1 s =>
      obtain ⟨x, there, rfl⟩ := map_eq_some_iff.1 throws
      exact ⟨r, root, .same rfl rfl (due_move_same found (by simp [At.due])) (by simp)⟩
    | opening | promoted =>
      cases Option.some.inj throws
      exact ⟨r, root, .same rfl rfl (due_move_same (d := { d with promoting := false }) found rfl) (by simp)⟩
    | finishing | pausing =>
      cases Option.some.inj throws
      exact ⟨r, root, .same rfl rfl (due_move_same found rfl) (by simp)⟩
    | skipping | inserting | settling => cases calm
    | _ => cases throws
  | checks i c1 k1 s found x there => exact ⟨r, root, .same rfl rfl (due_move_same found (by simp [At.due])) (by simp)⟩
  | ends i c1 k1 s found x there => exact ⟨r, root, .same rfl rfl (due_move_same found (by simp [At.due])) (by simp)⟩
  | analyzed i c1 k1 stopping operatorCancel outcome found x q there root1 =>
    by_cases mine : c1 = c ∧ k1 = k
    · obtain ⟨rfl, rfl⟩ := mine
      obtain rfl : q = r := by simpa [Deck.root, there, root1] using root
      refine ⟨q, root, .decides i (nextState x.policy q.attempts stopping operatorCancel outcome) outcome rfl rfl ?_ ?_
        (fun j other => due_move_other d _ c1 k1 other) (nextState_ends _ _ _ _ _) rfl⟩
      · simp [Deck.due, found, At.due]
      · rw [due_move_self found]; simp [At.due]
    · refine ⟨r, root, .same rfl rfl (due_move_same found (by simp [At.due, mine])) (fun w member => ?_)⟩
      simp only [mem_cons, not_mem_nil, or_false] at member
      rcases member with rfl | rfl <;> exact mine
  | passes => exact ⟨r, root, .same rfl rfl (fun _ => rfl) (by simp)⟩
  | stops => exact ⟨r, root, .same rfl rfl (fun _ => rfl) (by simp)⟩
  | creates => cases old
  | pauses c1 x there h =>
    refine command c1 _ (fun _ => rfl) (fun w member => ?_)
    rw [mem_singleton.1 member]
    trivial
  | resumes c1 x there h =>
    refine command c1 _ (fun _ => rfl) (fun w member => ?_)
    rw [mem_singleton.1 member]
    trivial
  | cancels c1 x there h =>
    have step := command c1 (Campaign.leaveRunning d.now .cancelled) (fun _ => rfl) (fun w member => by
      rw [mem_singleton.1 member]
      trivial)
    exact step
  | ranks c1 p x there =>
    refine command c1 _ (fun _ => rfl) (fun w member => ?_)
    rw [mem_singleton.1 member]
    trivial
  | flags c1 accepted =>
    refine ⟨r, root, .same rfl rfl (fun j => ?_) (by simp)⟩
    simp only [Deck.due, getElem?_map, Option.map_map]
    congr 1
    funext a
    exact flagged_due c1 a c k

theorem Deck.Moves.tidy {l : Label} (moves : d.Moves l d' ws) (tidy : d.Tidy) : d'.Tidy := by
  intro j c rest k' found'
  have moved : ∀ (i : Nat) (b : At), (∀ c rest k', b ≠ .skipping c rest k') →
      (d.lanes.set i b)[j]? = some (.skipping c rest k') → rest.Nodup ∧ ∀ j, k' = some j → j ∉ rest := by
    intro i b other found'
    rcases set_some found' with ⟨-, same⟩ | ⟨-, old⟩
    · exact absurd same.symm (other c rest k')
    · exact tidy j c rest k' old
  cases moves with
  | goes i a found d' ws goes => exact goes.tidy tidy found j c rest k' found'
  | throws i a found d' throws =>
    cases a with
    | requesting => obtain ⟨x, -, rfl⟩ := map_eq_some_iff.1 throws; exact moved i _ (by simp) found'
    | opening | promoted | finishing | skipping | inserting | settling | pausing | claimed =>
      cases Option.some.inj throws; exact moved i .sleeping (by simp) found'
    | _ => cases throws
  | checks i => exact moved i _ (by simp) found'
  | ends i => exact moved i _ (by simp) found'
  | analyzed i => exact moved i _ (by simp) found'
  | flags c' accepted =>
    obtain ⟨a, old, now⟩ : ∃ a, d.lanes[j]? = some a ∧ a.flagged c' = .skipping c rest k' := by simpa using found'
    cases a with
    | skipping => cases now; exact tidy j c rest k' old
    | _ => cases now
  | _ => exact tidy j c rest k' found'

end Campaigns
