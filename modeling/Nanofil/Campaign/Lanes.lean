import Nanofil.Campaign.Board

/-! The lanes keep a fit board, one promotion at a time and one running campaign. -/
namespace Campaigns
open List Option

/-- The root a lane has claimed. -/
def At.holds : At → Option (Nat × Nat)
  | .skipping c _ k => k.map (c, ·)
  | .claimed c k | .inserting c k | .requesting c k _ | .recording c k _ | .recorded c k _ _ | .settling c k _ _ =>
    some (c, k)
  | _ => none

def At.promotes : At → Bool
  | .opening _ | .promoted _ => true
  | _ => false

/-- The campaign a lane is busy with. -/
def At.campaign : At → Option Nat
  | .opening c | .promoted c | .looked c | .finishing c | .admitting c | .skipping c .. | .claimed c _ | .inserting c _
  | .requesting c .. | .recording c .. | .recorded c .. | .settling c .. | .pausing c => some c
  | .top | .sleeping | .left => none

def Campaign.tally (x : Campaign) : Tally := ⟨x.policy, x.roots, x.inFlight⟩

def Deck.board (d : Deck) : Board := ⟨d.campaigns.map Campaign.tally, d.lanes.map At.holds⟩

@[simp] theorem Deck.move_campaigns (d : Deck) (i : Nat) (a : At) : (d.move i a).campaigns = d.campaigns := rfl
@[simp] theorem Deck.move_lanes (d : Deck) (i : Nat) (a : At) : (d.move i a).lanes = d.lanes.set i a := rfl
@[simp] theorem Deck.update_campaigns (d : Deck) (c : Nat) (f : Campaign → Campaign) :
    (d.update c f).campaigns = d.campaigns.modify c f := rfl
@[simp] theorem Deck.update_lanes (d : Deck) (c : Nat) (f : Campaign → Campaign) : (d.update c f).lanes = d.lanes := rfl

variable {i c : Nat} {a b : At} {d d' : Deck} {w : List Write}

theorem modify_some {α : Type} {xs : List α} {j : Nat} {f : α → α} {y : α} (found : (xs.modify i f)[j]? = some y) :
    ∃ x, xs[j]? = some x ∧ (y = x ∧ j ≠ i ∨ y = f x ∧ j = i) := by
  rw [getElem?_modify] at found
  obtain ⟨x, there, rfl⟩ := map_eq_some_iff.1 found
  by_cases same : i = j
  · exact ⟨x, there, .inr ⟨by simp [same], same.symm⟩⟩
  · exact ⟨x, there, .inl ⟨by simp [same], fun h => same h.symm⟩⟩

theorem set_same {α : Type} {xs : List α} {x : α} (found : xs[i]? = some x) : xs.set i x = xs := by
  refine ext_getElem? (fun j => ?_)
  by_cases same : j = i
  · rw [same, set_at found, found]
  · rw [set_other x same]

/-! ### What a step leaves on the board -/

theorem Deck.move_board (found : d.lanes[i]? = some a) (same : b.holds = a.holds) : (d.move i b).board = d.board := by
  have there : (d.lanes.map At.holds)[i]? = some a.holds := by simp [found]
  simp only [Deck.board, Deck.move_campaigns, Deck.move_lanes, map_set, same, set_same there]

theorem Deck.update_board {f : Campaign → Campaign} (same : ∀ x, (f x).tally = x.tally) : (d.update c f).board = d.board := by
  simp only [Deck.board, Deck.update_campaigns, Deck.update_lanes]
  congr 1
  refine ext_getElem? (fun j => ?_)
  rw [getElem?_map, getElem?_modify, getElem?_map]
  cases d.campaigns[j]? with
  | none => rfl
  | some x =>
    by_cases here : c = j
    · simp [here, same x]
    · simp [here]

theorem Deck.skips_moves (d : Deck) (i c : Nat) (roots : List Root) (k : Option Nat) (skipped : List Nat) :
    ∃ a, (d.skips i c roots k skipped).1 = d.move i a ∧ a.holds = k.map (c, ·) ∧ a.promotes = false ∧
      (a = .sleeping ∧ skipped = [] ∧ k = none ∨ (∃ j rest, a = .skipping c rest k ∧ skipped = j :: rest) ∨
        ∃ k', a = .claimed c k' ∧ skipped = [] ∧ k = some k') := by
  cases skipped with
  | cons j rest => exact ⟨.skipping c rest k, rfl, rfl, rfl, .inr (.inl ⟨j, rest, rfl, rfl⟩)⟩
  | nil =>
    cases k with
    | none => exact ⟨.sleeping, rfl, rfl, rfl, .inl ⟨rfl, rfl, rfl⟩⟩
    | some k => exact ⟨.claimed c k, rfl, rfl, rfl, .inr (.inr ⟨k, rfl, rfl, rfl⟩)⟩

theorem Deck.move_keeps (stop : Bool) (found : d.lanes[i]? = some a)
    (same : b.holds = a.holds) : Board.Step stop d.board (d.move i b).board := by
  rw [Deck.move_board found same]
  exact .keeps _

/-- What a lane is about to do to its root has been decided by the attempt's outcome. -/
def At.Decided (d : Deck) : At → Prop
  | .recorded _ _ stopping _ => stopping = true → d.stop = true
  | .settling c k next _ => next = .settled ∨ next = .pending ∧ (d.stop = true ∨
      ∃ x r, d.campaigns[c]? = some x ∧ x.roots[k]? = some r ∧ r.attempts ≤ x.policy.retryInfrastructure)
  | _ => True

theorem board_campaign {x : Campaign} (there : d.campaigns[c]? = some x) :
    d.board.campaigns[c]? = some x.tally := by simp [Deck.board, there]

theorem board_holder (found : d.lanes[i]? = some a) : d.board.holders[i]? = some a.holds := by simp [Deck.board, found]

theorem board_campaign_some {t : Tally} (there : d.board.campaigns[c]? = some t) :
    ∃ x, d.campaigns[c]? = some x ∧ x.tally = t := by simpa [Deck.board] using there

theorem board_holder_some {p : Option (Nat × Nat)} (found : d.board.holders[i]? = some p) :
    ∃ a, d.lanes[i]? = some a ∧ a.holds = p := by simpa [Deck.board] using found

theorem Deck.settle_board {k : Nat} {x : Campaign} {next : RootState} {outcome : String}
    (fit : d.board.Fit) (found : d.lanes[i]? = some a) (holds : a.holds = some (c, k))
    (free : b.holds = none) (there : d.campaigns[c]? = some x) (decided : At.Decided d (.settling c k next outcome)) :
    Board.Step d.stop d.board ((d.update c (Campaign.settle k next outcome)).move i b).board := by
  have held : d.board.holders[i]? = some (some (c, k)) := by rw [board_holder found, holds]
  obtain ⟨t, r, there', -, root, -⟩ := fit.holds i c k held
  obtain rfl := Option.some.inj ((board_campaign there).symm.trans there')
  have same : ((d.update c (Campaign.settle k next outcome)).move i b).board =
      ⟨d.board.campaigns.set c (x.tally.settle k next outcome), d.board.holders.set i none⟩ := by
    simp only [Deck.board, Deck.move_campaigns, Deck.update_campaigns, Deck.move_lanes, Deck.update_lanes, map_set,
      free, modify_eq_set there]
    rfl
  rw [same]
  refine .settles d.board i c k _ r held there' root next outcome ?_
  rcases decided with rfl | ⟨rfl, stop | ⟨x', r', there2, root2, few⟩⟩
  · exact .inl rfl
  · exact .inr ⟨rfl, .inl stop⟩
  · obtain rfl := Option.some.inj (there.symm.trans there2)
    obtain rfl := Option.some.inj (root.symm.trans root2)
    exact .inr ⟨rfl, .inr few⟩

theorem Deck.Goes.board (goes : d.Goes i a d' w)
    (fit : d.board.Fit) (found : d.lanes[i]? = some a) (decided : a.Decided d) : Board.Step d.stop d.board d'.board := by
  have keeps : ∀ b, b.holds = a.holds → Board.Step d.stop d.board (d.move i b).board :=
    fun b same => Deck.move_keeps d.stop found same
  cases goes with
  | leaves | looks | waits | rests | refuses | claims | inserts | requests | paused | wakes | admits => exact keeps _ rfl
  | opens | misses | enters | loses => exact keeps _ rfl
  | promotes c x there queued =>
    rw [Deck.move_board (d := d.update c (Campaign.start d.now)) (b := .promoted c) found rfl,
      Deck.update_board (f := Campaign.start d.now) (fun _ => rfl)]
    exact .keeps _
  | finishes c x there runs quiet ended =>
    rw [Deck.move_board (d := d.update c (Campaign.leaveRunning d.now .finished)) (b := .finishing c) found rfl,
      Deck.update_board (f := Campaign.leaveRunning d.now .finished) (fun _ => rfl)]
    exact .keeps _
  | takes c x there lane left roots skipped k next =>
    obtain ⟨a', moved, holds, -⟩ := Deck.skips_moves (d.update c (Campaign.take roots k)) i c roots k skipped
    have same : ((d.update c (Campaign.take roots k)).move i a').board =
        ⟨d.board.campaigns.set c { x.tally with roots := roots, inFlight := x.tally.inFlight + k.toList.length },
          d.board.holders.set i (k.map (c, ·))⟩ := by
      simp only [Deck.board, Deck.move_campaigns, Deck.update_campaigns, Deck.move_lanes, Deck.update_lanes,
        map_set, holds, modify_eq_set there]
      rfl
    rw [moved, same]
    exact .claims d.board i c _ (board_holder found) (board_campaign there) lane roots skipped k next
  | skips c rest k x there =>
    obtain ⟨a', moved, holds, -⟩ := Deck.skips_moves d i c x.roots k rest
    rw [moved]
    exact keeps a' holds
  | settles c k next outcome x there calm => exact Deck.settle_board fit found rfl rfl there decided
  | pauses c k next x there runs =>
    have step := Deck.settle_board (b := .pausing c) fit found rfl rfl there decided
    have same : (((d.update c (Campaign.settle k next "recorder-error")).update c (Campaign.leaveRunning d.now .paused)).move i
        (.pausing c)).board = ((d.update c (Campaign.settle k next "recorder-error")).move i (.pausing c)).board :=
      Deck.update_board (d := (d.update c (Campaign.settle k next "recorder-error")).move i (.pausing c)) (fun _ => rfl)
    rw [same]
    exact step

/-! ### Steps -/

/-- Nothing that a lane awaits fails. -/
def Label.Calm : Label → Prop
  | .throws _ => False
  | _ => True

theorem flagged_holds (c : Nat) (a : At) : (a.flagged c).holds = a.holds := by cases a <;> rfl
theorem flagged_promotes (c : Nat) (a : At) : (a.flagged c).promotes = a.promotes := by cases a <;> rfl
theorem flagged_campaign (c : Nat) (a : At) : (a.flagged c).campaign = a.campaign := by cases a <;> rfl

theorem flagged_board (d : Deck) (c : Nat) (cs : List Nat) :
    Deck.board { d with lanes := d.lanes.map (At.flagged c), cancelling := cs } = d.board := by
  simp only [Deck.board, List.map_map]
  congr 2
  funext a
  exact flagged_holds c a

/-- What one step of the service does. -/
inductive Deck.Moves (d : Deck) : Label → Deck → List Write → Prop
  | goes (i : Nat) (a : At) (found : d.lanes[i]? = some a) (d' : Deck) (w : List Write) (goes : d.Goes i a d' w) :
      Moves d (.goes i) d' w
  | throws (i : Nat) (a : At) (found : d.lanes[i]? = some a) (d' : Deck) (throws : d.throws i a = some d') :
      Moves d (.throws i) d' []
  | checks (i c k : Nat) (s : Session) (found : d.lanes[i]? = some (.recording c k s)) (x : Campaign)
      (there : d.campaigns[c]? = some x) :
      Moves d (.checks i) (d.move i (.recording c k (s.check x.policy d.now d.stop))) []
  | ends (i c k : Nat) (s : Session) (found : d.lanes[i]? = some (.recording c k s)) (x : Campaign)
      (there : d.campaigns[c]? = some x) :
      Moves d (.ends i) (d.move i (.recorded c k d.stop (x.state = .cancelled))) []
  | analyzed (i c k : Nat) (stopping operatorCancel : Bool) (outcome : String)
      (found : d.lanes[i]? = some (.recorded c k stopping operatorCancel)) (x : Campaign) (r : Root)
      (there : d.campaigns[c]? = some x) (root : x.roots[k]? = some r) :
      Moves d (.analyzed i outcome)
        (d.move i (.settling c k (nextState x.policy r.attempts stopping operatorCancel outcome) outcome))
        [.finishAttempt c k r.attempts outcome
            (nextState x.policy r.attempts stopping operatorCancel outcome = .settled),
          .setRootState c k (nextState x.policy r.attempts stopping operatorCancel outcome)]
  | passes (time : Nat) : Moves d (.passes time) { d with now := d.now + time } []
  | stops : Moves d .stops { d with stop := true } []
  | creates (id : String) (policy : Policy) (priority created : Int) (manifest : List ManifestRoot)
      (roots : List Root) (accepted : manifestRoots manifest = some roots) :
      Moves d (.command (.create id policy priority created manifest))
        { d with campaigns := d.campaigns ++ [⟨id, policy, .queued, priority, created, 0, 0, roots, 0⟩] }
        [.insertCampaign ⟨id, policy, .queued, priority, created, 0, 0, roots, 0⟩]
  | pauses (c : Nat) (x : Campaign) (there : d.campaigns[c]? = some x) (h : x.state = .running ∨ x.state = .queued) :
      Moves d (.command (.pause c)) (d.update c (Campaign.leaveRunning d.now .paused))
        [.updateCampaign c .paused (some (x.ran d.now))]
  | resumes (c : Nat) (x : Campaign) (there : d.campaigns[c]? = some x) (paused : x.state = .paused) :
      Moves d (.command (.resume c)) (d.update c (fun x => { x with state := .queued })) [.updateCampaign c .queued none]
  | cancels (c : Nat) (x : Campaign) (there : d.campaigns[c]? = some x)
      (h : x.state ≠ .finished ∧ x.state ≠ .cancelled) :
      Moves d (.command (.cancel c))
        { d.update c (Campaign.leaveRunning d.now .cancelled) with cancelling := c :: d.cancelling }
        [.updateCampaign c .cancelled (some (x.ran d.now))]
  | ranks (c : Nat) (p : Int) (x : Campaign) (there : d.campaigns[c]? = some x) :
      Moves d (.command (.priority c p)) (d.update c (fun x => { x with priority := p })) [.updatePriority c p]
  | flags (c : Nat) (accepted : c ∈ d.cancelling) :
      Moves d (.flags c) { d with lanes := d.lanes.map (At.flagged c), cancelling := d.cancelling.erase c } []

variable {l : Label}

theorem Deck.step_cases (step : d.step l = some (d', w)) : d.Moves l d' w := by
  cases l with
  | goes i =>
    obtain ⟨a, found, out⟩ := bind_eq_some_iff.1 step
    exact .goes i a found d' w (Deck.goes_cases out)
  | throws i =>
    obtain ⟨d1, thrown, out⟩ := map_eq_some_iff.1 step
    obtain ⟨a, found, thrown⟩ := bind_eq_some_iff.1 thrown
    cases out
    exact .throws i a found _ thrown
  | checks i =>
    simp only [Deck.step] at step
    split at step
    · rename_i c k s found
      obtain ⟨x, there, out⟩ := map_eq_some_iff.1 step
      cases out
      exact .checks i c k s found x there
    · cases step
  | ends i =>
    simp only [Deck.step] at step
    split at step
    · rename_i c k s found
      obtain ⟨x, there, out⟩ := map_eq_some_iff.1 step
      cases out
      exact .ends i c k s found x there
    · cases step
  | analyzed i outcome =>
    simp only [Deck.step] at step
    split at step
    · rename_i c k stopping operatorCancel found
      obtain ⟨x, there, out⟩ := bind_eq_some_iff.1 step
      obtain ⟨r, root, out⟩ := map_eq_some_iff.1 out
      cases out
      exact .analyzed i c k stopping operatorCancel outcome found x r there root
    · cases step
  | passes time => cases Option.some.inj step; exact .passes time
  | stops => cases Option.some.inj step; exact .stops
  | command op =>
    cases op with
    | create id policy priority created manifest =>
      simp only [Deck.step, Deck.command] at step
      split_ifs at step
      obtain ⟨roots, accepted, out⟩ := map_eq_some_iff.1 step
      cases out
      exact .creates id policy priority created manifest roots accepted
    | pause c =>
      obtain ⟨x, there, out⟩ := bind_eq_some_iff.1 step
      split_ifs at out with h
      cases out
      exact .pauses c x there h
    | resume c =>
      obtain ⟨x, there, out⟩ := bind_eq_some_iff.1 step
      split_ifs at out with h
      cases out
      exact .resumes c x there h
    | cancel c =>
      obtain ⟨x, there, out⟩ := bind_eq_some_iff.1 step
      split_ifs at out with h
      cases out
      exact .cancels c x there (by simpa [not_or] using h)
    | priority c p =>
      obtain ⟨x, there, out⟩ := map_eq_some_iff.1 step
      cases out
      exact .ranks c p x there
  | flags c =>
    simp only [Deck.step] at step
    split_ifs at step with accepted
    cases step
    exact .flags c accepted

def Deck.Decided (d : Deck) : Prop := ∀ (i : Nat) a, d.lanes[i]? = some a → a.Decided d

/-- A step of a calm service is a step of the board. -/
theorem Deck.Moves.board (moves : d.Moves l d' w) (calm : l.Calm) (fit : d.board.Fit) (decided : d.Decided) :
    Board.Step d.stop d.board d'.board := by
  cases moves with
  | goes i a found d' w goes => exact goes.board fit found (decided i a found)
  | throws => cases calm
  | checks i c k s found x there => exact Deck.move_keeps d.stop found rfl
  | ends i c k s found x there => exact Deck.move_keeps d.stop found rfl
  | analyzed i c k stopping operatorCancel outcome found x r there root => exact Deck.move_keeps d.stop found rfl
  | passes => exact .keeps _
  | stops => exact .keeps _
  | creates id policy priority created manifest roots accepted =>
    have same : Deck.board { d with campaigns := d.campaigns ++ [⟨id, policy, .queued, priority, created, 0, 0, roots, 0⟩] } =
        { d.board with campaigns := d.board.campaigns ++ [⟨policy, roots, 0⟩] } := by
      simp [Deck.board, Campaign.tally]
    rw [same]
    exact .creates d.board policy manifest roots accepted
  | pauses c x there h =>
    rw [Deck.update_board (f := Campaign.leaveRunning d.now .paused) (fun _ => rfl)]
    exact .keeps _
  | resumes c x there h =>
    rw [Deck.update_board (f := fun x => { x with state := .queued }) (fun _ => rfl)]
    exact .keeps _
  | cancels c x there h =>
    have same := Deck.update_board (d := d) (c := c) (f := Campaign.leaveRunning d.now .cancelled) (fun _ => rfl)
    have step : Board.Step d.stop d.board (d.update c (Campaign.leaveRunning d.now .cancelled)).board := same ▸ .keeps _
    exact step
  | ranks c p x there =>
    rw [Deck.update_board (f := fun x => { x with priority := p }) (fun _ => rfl)]
    exact .keeps _
  | flags c accepted =>
    rw [flagged_board]
    exact .keeps _

/-- A root that a lane holds before and after a step is as it was. -/
theorem Board.Step.root_kept {stop : Bool} {b b' : Board} (step : Board.Step stop b b') (fit : b.Fit) {k : Nat}
    (before : b.holders[i]? = some (some (c, k))) (after : b'.holders[i]? = some (some (c, k))) {t : Tally} {r : Root}
    (there : b.campaigns[c]? = some t) (root : t.roots[k]? = some r) :
    ∃ t', b'.campaigns[c]? = some t' ∧ t'.policy = t.policy ∧ t'.roots[k]? = some r := by
  obtain ⟨t0, r0, there0, -, root0, runs⟩ := fit.holds i c k before
  obtain rfl := Option.some.inj (there0.symm.trans there)
  obtain rfl := Option.some.inj (root0.symm.trans root)
  cases step with
  | keeps => exact ⟨t0, there, rfl, root⟩
  | creates => exact ⟨t0, append_old there _, rfl, root⟩
  | claims j c' t' idle there' lane roots skipped k' next =>
    by_cases same : c = c'
    · subst same
      obtain rfl := Option.some.inj (there'.symm.trans there)
      have taken := nextRoot_taken t'.roots (List.range t'.roots.length)
      rw [next] at taken
      obtain ⟨r', found', ⟨rfl, -⟩ | ⟨pending, -⟩ | ⟨pending, -⟩⟩ := taken.changes root
      · exact ⟨_, set_at there _, rfl, found'⟩
      · exact absurd pending (by simp [runs])
      · exact absurd pending (by simp [runs])
    · exact ⟨t0, by rw [set_other _ same, there], rfl, root⟩
  | settles j c' k' t' r' holds there' root' next outcome settled =>
    have apart : i ≠ j := by
      rintro rfl
      rcases set_some after with ⟨-, wrong⟩ | ⟨wrong, -⟩
      · cases wrong
      · exact wrong rfl
    by_cases same : c = c'
    · subst same
      obtain rfl := Option.some.inj (there'.symm.trans there)
      have other : k' ≠ k := by
        rintro rfl
        exact apart (fit.alone i j _ before holds)
      exact ⟨_, set_at there _, rfl, by simpa [Tally.settle, other] using root⟩
    · exact ⟨t0, by rw [set_other _ same, there], rfl, root⟩

theorem Deck.Goes.lane (goes : d.Goes i a d' w) : d'.stop = d.stop ∧ d'.now = d.now ∧ d'.cancelling = d.cancelling ∧
      ∃ b, d'.lanes = d.lanes.set i b ∧ ∀ D, b.Decided D := by
  cases goes with
  | takes c x there lane left roots skipped k next =>
    obtain ⟨b, moved, -, -, shape⟩ := Deck.skips_moves (d.update c (Campaign.take roots k)) i c roots k skipped
    rw [moved]
    refine ⟨rfl, rfl, rfl, b, rfl, fun D => ?_⟩
    rcases shape with ⟨rfl, -⟩ | ⟨j, rest, rfl, -⟩ | ⟨k', rfl, -⟩ <;> trivial
  | skips c rest k x there =>
    obtain ⟨b, moved, -, -, shape⟩ := Deck.skips_moves d i c x.roots k rest
    rw [moved]
    refine ⟨rfl, rfl, rfl, b, rfl, fun D => ?_⟩
    rcases shape with ⟨rfl, -⟩ | ⟨j, rest, rfl, -⟩ | ⟨k', rfl, -⟩ <;> trivial
  | _ => exact ⟨rfl, rfl, rfl, _, rfl, fun _ => trivial⟩

theorem Deck.Moves.stop_kept (moves : d.Moves l d' w) (calm : l.Calm) (stop : d.stop = true) : d'.stop = true := by
  cases moves with
  | goes i a found d' w goes => exact goes.lane.1.trans stop
  | throws => cases calm
  | stops => rfl
  | _ => exact stop

theorem flagged_decided (d : Deck) (c : Nat) (a : At) : (a.flagged c).Decided d ↔ a.Decided d := by
  cases a <;> rfl

/-- A lane that a step does not move has still decided. -/
theorem At.Decided.kept (moves : d.Moves l d' w) (calm : l.Calm)
    (fit : d.board.Fit) (decided : d.Decided) (found : d.lanes[i]? = some a)
    (held : d'.board.holders[i]? = some a.holds) : a.Decided d' := by
  have step := moves.board calm fit decided
  cases a with
  | recorded c k stopping operatorCancel => exact fun stop => moves.stop_kept calm (decided i _ found stop)
  | settling c k next outcome =>
    rcases decided i _ found with settled | ⟨pending, stop | ⟨x, r, there, root, few⟩⟩
    · exact .inl settled
    · exact .inr ⟨pending, .inl (moves.stop_kept calm stop)⟩
    · obtain ⟨t, there', policy, root'⟩ := step.root_kept fit (board_holder found) held (board_campaign there) root
      obtain ⟨x', now, rfl⟩ := board_campaign_some there'
      exact .inr ⟨pending, .inr ⟨x', r, now, root', by rw [show x'.policy = x.policy from policy]; exact few⟩⟩
  | _ => trivial

theorem nextState_settled_or (policy : Policy) (attempt : Nat) (stopping operatorCancel : Bool) (outcome : String) :
    nextState policy attempt stopping operatorCancel outcome = .settled ∨
      nextState policy attempt stopping operatorCancel outcome = .pending ∧
        (stopping = true ∨ attempt ≤ policy.retryInfrastructure) := by
  unfold nextState
  split_ifs with h1 h2 h3
  · simp only [Bool.and_eq_true] at h1
    exact .inr ⟨rfl, .inl h1.1⟩
  · exact .inl rfl
  · simp only [Bool.and_eq_true, decide_eq_true_eq] at h3
    exact .inr ⟨rfl, .inr h3.2⟩
  · exact .inl rfl

theorem Deck.Moves.decided (moves : d.Moves l d' w) (calm : l.Calm) (fit : d.board.Fit) (decided : d.Decided) : d'.Decided := by
  intro j b found'
  have held := board_holder found'
  have kept : ∀ a, d.lanes[j]? = some a → a.holds = b.holds → a.Decided d' := fun a found same =>
    At.Decided.kept moves calm fit decided found (held.trans (congrArg some same.symm))
  cases moves with
  | goes i a found d' w goes =>
    obtain ⟨-, -, -, b', lanes, trivially⟩ := goes.lane
    rw [lanes] at found'
    rcases set_some found' with ⟨-, rfl⟩ | ⟨-, old⟩
    · exact trivially _
    · exact kept b old rfl
  | throws => cases calm
  | checks i c k s found x there =>
    rcases set_some found' with ⟨-, rfl⟩ | ⟨-, old⟩
    · trivial
    · exact kept b old rfl
  | ends i c k s found x there =>
    rcases set_some found' with ⟨-, rfl⟩ | ⟨-, old⟩
    · exact fun stop => stop
    · exact kept b old rfl
  | analyzed i c k stopping operatorCancel outcome found x r there root =>
    rcases set_some found' with ⟨-, rfl⟩ | ⟨-, old⟩
    · rcases nextState_settled_or x.policy r.attempts stopping operatorCancel outcome with settled | ⟨pending, why⟩
      · exact .inl settled
      · refine .inr ⟨pending, why.imp (fun stop => decided i _ found stop) (fun few => ⟨x, r, there, root, few⟩)⟩
    · exact kept b old rfl
  | flags c accepted =>
    obtain ⟨a, old, rfl⟩ := by simpa using found'
    exact (flagged_decided _ c a).2 (kept a old (flagged_holds c a).symm)
  | _ => exact kept b found' rfl

end Campaigns
