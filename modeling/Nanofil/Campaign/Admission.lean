import Nanofil.Campaign.Endings

/-! The scheduler admits each root once, when its requirements allow, and finishes. -/
namespace Campaigns

/-- What the scheduler promises of its campaigns at every time. -/
structure Deck.Orderly (d : Deck) : Prop where
  one_running : ∀ c c', d.Running c → d.Running c' → c = c'
  in_flight : ∀ (c : Nat) x, d.campaigns[c]? = some x → x.inFlight = x.roots.countP (·.state = .running)
  in_flight_le : ∀ (c : Nat) x, d.campaigns[c]? = some x → x.inFlight ≤ x.policy.parallelRoots
  one_lane : ∀ (i j : Nat) a b p, d.lanes[i]? = some a → d.lanes[j]? = some b → a.holds = some p → b.holds = some p → i = j
  has_lane : ∀ (c k : Nat) x r, d.campaigns[c]? = some x → x.roots[k]? = some r →
    (r.state = .running ↔ ∃ (i : Nat) (a : At), d.lanes[i]? = some a ∧ a.holds = some (c, k))
  ordered : ∀ (c : Nat) x, d.campaigns[c]? = some x → Ordered x.roots
  started : ∀ (c k : Nat) x r, d.campaigns[c]? = some x → x.roots[k]? = some r → r.state = .running →
    ∀ name ∈ r.needs, Done x.roots name isSuccess

theorem Deck.Sched.orderly {d : Deck} (sched : d.Sched) : d.Orderly := by
  have fit := sched.fit
  refine ⟨sched.promotion.one, fun c x there => fit.counted c x.tally (board_campaign there),
    fun c x there => fit.inFlight_le (board_campaign there), ?_, ?_, fun c x there => fit.ordered c x.tally (board_campaign there),
    fun c k x r there => fit.ready c k x.tally r (board_campaign there)⟩
  · intro i j a b p found found' holds holds'
    exact fit.alone i j p (by rw [board_holder found, holds]) (by rw [board_holder found', holds'])
  · intro c k x r there root
    constructor
    · intro runs
      obtain ⟨i, held⟩ := fit.held c k x.tally r (board_campaign there) root runs
      obtain ⟨a, found, holds⟩ := board_holder_some held
      exact ⟨i, a, found, holds⟩
    · rintro ⟨i, a, found, holds⟩
      obtain ⟨t, r', there', -, root', runs⟩ := fit.holds i c k (by rw [board_holder found, holds])
      obtain rfl := Option.some.inj ((board_campaign there).symm.trans there')
      obtain rfl := Option.some.inj (root.symm.trans root')
      exact runs

/-- A pending root starts when its requirements succeeded, and is settled when one did not. -/
theorem Board.Step.requirements {stop : Bool} {b b' : Board} (step : Board.Step stop b b') (fit : b.Fit) {c k : Nat}
    {t t' : Tally} {r r' : Root} (there : b.campaigns[c]? = some t) (there' : b'.campaigns[c]? = some t')
    (root : t.roots[k]? = some r) (root' : t'.roots[k]? = some r') (pending : r.state = .pending) :
    (r'.state = .running → ∀ name ∈ r.needs, Done t'.roots name isSuccess) ∧
      (r'.state = .settled → r'.outcome = "skipped" ∧
        ∃ name ∈ r.needs, Done t'.roots name (fun outcome => !isSuccess outcome)) := by
  have unchanged : t'.roots[k]? = t.roots[k]? → (r'.state = .running → ∀ name ∈ r.needs, Done t'.roots name isSuccess) ∧
      (r'.state = .settled → r'.outcome = "skipped" ∧
        ∃ name ∈ r.needs, Done t'.roots name (fun outcome => !isSuccess outcome)) := by
    intro same
    obtain rfl := Option.some.inj ((same.trans root).symm.trans root')
    simp [pending]
  cases step with
  | keeps => exact unchanged (by rw [Option.some.inj (there.symm.trans there')])
  | creates => exact unchanged (by rw [Option.some.inj ((append_old there _).symm.trans there')])
  | claims i c' u idle found lane roots skipped k' next =>
    rcases set_some there' with ⟨rfl, rfl⟩ | ⟨-, old⟩
    · obtain rfl := Option.some.inj (found.symm.trans there)
      have taken := nextRoot_taken u.roots (List.range u.roots.length)
      rw [next] at taken
      obtain ⟨starts, skips⟩ := taken.requirements (fit.ordered c u there) root root' pending
      refine ⟨starts, fun settled => ⟨?_, skips settled⟩⟩
      obtain ⟨r1, root1, change⟩ := taken.changes root
      obtain rfl := Option.some.inj (root1.symm.trans root')
      rcases change with ⟨rfl, -⟩ | ⟨-, rfl, -⟩ | ⟨-, rfl, -⟩
      · exact absurd settled (by simp [pending])
      · rfl
      · cases settled
    · exact unchanged (by rw [Option.some.inj (there.symm.trans old)])
  | settles i c' k' u r0 holds found root0 next outcome settled =>
    rcases set_some there' with ⟨rfl, rfl⟩ | ⟨-, old⟩
    · obtain rfl := Option.some.inj (found.symm.trans there)
      obtain ⟨v, q, there1, -, root1, runs⟩ := fit.holds i c k' holds
      obtain rfl := Option.some.inj (there1.symm.trans there)
      have other : k' ≠ k := by
        rintro rfl
        obtain rfl := Option.some.inj (root1.symm.trans root)
        exact absurd pending (by simp [runs])
      exact unchanged (by simp [Tally.settle, other])
    · exact unchanged (by rw [Option.some.inj (there.symm.trans old)])

/-- How a campaign stops running: the operator says so, its recording failed, or it is finished
with every root settled or its budget used. -/
def Deck.Ended (d : Deck) (l : Label) (d' : Deck) (c : Nat) : Prop :=
  l = .command (.pause c) ∨ l = .command (.cancel c) ∨
    (∃ (i k : Nat) (next : RootState), l = .goes i ∧ d.lanes[i]? = some (.settling c k next "recorder-error")) ∨
    ∃ x, d'.campaigns[c]? = some x ∧ x.state = .finished ∧ ((∀ r ∈ x.roots, r.state = .settled) ∨ x.limit ≤ x.used)

/-- A change of one campaign stops another one from nothing. -/
theorem running_modify_other {d d' : Deck} {c c' : Nat} {f : Campaign → Campaign}
    (camps : d'.campaigns = d.campaigns.modify c' f) (running : d.Running c) (stopped : ¬d'.Running c) :
    c' = c ∧ ∃ x, d.campaigns[c]? = some x ∧ d'.campaigns[c]? = some (f x) ∧ (f x).state ≠ .running := by
  obtain ⟨x, there, runs⟩ := running
  by_cases same : c' = c
  · subst same
    have found : d'.campaigns[c']? = some (f x) := by rw [camps, modify_eq_set there, set_at there]
    exact ⟨rfl, x, there, found, fun still => stopped ⟨f x, found, still⟩⟩
  · refine absurd ⟨x, ?_, runs⟩ stopped
    rw [camps, List.getElem?_modify, there]
    simp [same]

theorem Deck.Moves.ended {d d' : Deck} {l : Label} {w : List Write} (moves : d.Moves l d' w) (calm : l.Calm)
    (sched : d.Sched) {c : Nat} (running : d.Running c) (stopped : ¬d'.Running c) : d.Ended l d' c := by
  have unchanged : d'.campaigns = d.campaigns → d.Ended l d' c := fun same => by
    obtain ⟨x, there, runs⟩ := running
    exact absurd ⟨x, by rw [same, there], runs⟩ stopped
  -- what keeps the state of a campaign does not stop it
  have state_kept : ∀ c' f, d'.campaigns = d.campaigns.modify c' f → (∀ x, (f x).state = x.state) → d.Ended l d' c := by
    intro c' f camps keeps
    obtain ⟨-, x, there, -, wrong⟩ := running_modify_other camps running stopped
    exact absurd ((keeps x).trans ((running_iff there).1 running)) wrong
  cases moves with
  | goes i a found d' w goes =>
    cases goes with
    | promotes c' x there queued =>
      obtain ⟨-, x, -, -, wrong⟩ := running_modify_other (f := Campaign.start d.now) rfl running stopped
      exact absurd rfl wrong
    | finishes c' x there runs quiet ended =>
      obtain ⟨rfl, y, found1, found2, -⟩ := running_modify_other (f := Campaign.leaveRunning d.now .finished) rfl running stopped
      obtain rfl := Option.some.inj (found1.symm.trans there)
      refine .inr (.inr (.inr ⟨_, found2, rfl, ?_⟩))
      rcases ended with none_ | used
      · refine .inl (fun r member => ?_)
        have counted : y.inFlight = y.roots.countP (·.state = .running) := sched.fit.counted c' y.tally (board_campaign there)
        rw [quiet] at counted
        have calm := List.countP_eq_zero.1 counted.symm r member
        have settled := List.any_eq_false.1 none_ r member
        cases state : r.state with
        | pending => simp [state] at settled
        | running => simp [state] at calm
        | settled => rfl
      · exact .inr (exhausted_iff.1 used)
    | takes c' x there lane left roots skipped k next =>
      obtain ⟨b, moved, -⟩ := Deck.skips_moves (d.update c' (Campaign.take roots k)) i c' roots k skipped
      exact state_kept c' (Campaign.take roots k) (by rw [moved]; rfl) (fun _ => rfl)
    | skips c' rest k x there =>
      obtain ⟨b, moved, -⟩ := Deck.skips_moves d i c' x.roots k rest
      exact unchanged (by rw [moved]; rfl)
    | settles c' k next outcome x there calm => exact state_kept c' (Campaign.settle k next outcome) rfl (fun _ => rfl)
    | pauses c' k next x there runs =>
      have still : (d.update c' (Campaign.settle k next "recorder-error")).Running c := by
        obtain ⟨y, there1, runs1⟩ := running
        by_contra gone
        obtain ⟨-, z, found1, -, wrong⟩ := running_modify_other (d := d) (f := Campaign.settle k next "recorder-error") rfl
          ⟨y, there1, runs1⟩ gone
        obtain rfl := Option.some.inj (found1.symm.trans there1)
        exact wrong runs1
      obtain ⟨rfl, -⟩ := running_modify_other (f := Campaign.leaveRunning d.now .paused) rfl still stopped
      exact .inr (.inr (.inl ⟨i, k, next, rfl, found⟩))
    | _ => exact unchanged rfl
  | throws => cases calm
  | creates id policy priority created manifest roots accepted =>
    obtain ⟨x, there, runs⟩ := running
    exact absurd ⟨x, append_old there _, runs⟩ stopped
  | pauses c' x there h =>
    obtain ⟨rfl, -⟩ := running_modify_other (f := Campaign.leaveRunning d.now .paused) rfl running stopped
    exact .inl rfl
  | cancels c' x there h =>
    obtain ⟨rfl, -⟩ := running_modify_other (f := Campaign.leaveRunning d.now .cancelled) rfl running stopped
    exact .inr (.inl rfl)
  | resumes c' x there paused =>
    obtain ⟨rfl, y, found1, -⟩ := running_modify_other (f := fun x => { x with state := .queued }) rfl running stopped
    obtain rfl := Option.some.inj (found1.symm.trans there)
    exact absurd ((running_iff there).1 running) (by simp [paused])
  | ranks c' p x there => exact state_kept c' (fun x => { x with priority := p }) rfl (fun _ => rfl)
  | _ => exact unchanged rfl

/-- The step that takes a lane on its way. -/
def Deck.turn (d : Deck) (i : Nat) : Label :=
  match d.lanes[i]? with
  | some (.recording ..) => .ends i
  | some (.recorded ..) => .analyzed i "built"
  | _ => .goes i

theorem turn_lane (d : Deck) (i : Nat) : (d.turn i).lane = some i := by
  unfold Deck.turn
  split <;> rfl

/-- A lane that has not left can be taken on its way. -/
theorem turn_enabled {d : Deck} (sched : d.Sched) {i : Nat} {a : At} (found : d.lanes[i]? = some a) (stays : a ≠ .left) :
    ∃ p, d.step (d.turn i) = some p := by
  have known : ∀ c, a.campaign = some c → ∃ x, d.campaigns[c]? = some x := fun c camp =>
    ⟨_, List.getElem?_eq_getElem (sched.promotion.named i a c found camp)⟩
  have rooted : ∀ c k, a.holds = some (c, k) → ∃ x r, d.campaigns[c]? = some x ∧ x.roots[k]? = some r := by
    intro c k holds
    obtain ⟨t, r, there, -, root, -⟩ := sched.fit.holds i c k (by rw [board_holder found, holds])
    obtain ⟨x, found', rfl⟩ := board_campaign_some there
    exact ⟨x, r, found', root⟩
  cases a with
  | left => exact absurd rfl stays
  | recording c k s =>
    obtain ⟨x, there⟩ := known c rfl
    simp [Deck.turn, found, Deck.step, there]
  | recorded c k stopping operatorCancel =>
    obtain ⟨x, r, there, root⟩ := rooted c k rfl
    simp [Deck.turn, found, Deck.step, there, root]
  | claimed c k =>
    obtain ⟨x, r, there, root⟩ := rooted c k rfl
    simp [Deck.turn, found, Deck.step, Deck.goes, there, root]
  | top =>
    simp only [Deck.turn, found, Deck.step, Deck.goes, Option.bind_some]
    cases d.stop <;> cases d.running <;> cases d.promoting <;> cases d.best <;> exact ⟨_, rfl⟩
  | opening c | promoted c | looked c | admitting c | inserting c | skipping c | settling c =>
    obtain ⟨x, there⟩ := known c rfl
    simp [Deck.turn, found, Deck.step, Deck.goes, there]
  | finishing | requesting | pausing | sleeping => exact ⟨_, by simp only [Deck.turn, found, Deck.step, Deck.goes]; rfl⟩

theorem Deck.Moves.stays {d d' : Deck} {l : Label} {w : List Write} (moves : d.Moves l d' w) (calm : l.Calm)
    (go : d.stop = false) (stay : ∀ (i : Nat) a, d.lanes[i]? = some a → a ≠ .left) :
    ∀ (i : Nat) a, d'.lanes[i]? = some a → a ≠ .left := by
  intro j b found'
  have moved : ∀ (i : Nat) (a : At), a ≠ .left → (d.lanes.set i a)[j]? = some b → b ≠ .left := by
    intro i a other found
    rcases set_some found with ⟨-, rfl⟩ | ⟨-, old⟩
    · exact other
    · exact stay j b old
  cases moves with
  | goes i a found d' w goes =>
    cases goes with
    | leaves stop => exact absurd stop (by simp [go])
    | takes c x there lane left roots skipped k next =>
      obtain ⟨a', to_, -, -, shape⟩ := Deck.skips_moves (d.update c (Campaign.take roots k)) i c roots k skipped
      rw [to_] at found'
      exact moved i a' (by rcases shape with ⟨rfl, -⟩ | ⟨_, _, rfl, -⟩ | ⟨_, rfl, -⟩ <;> simp) found'
    | skips c rest k x there =>
      obtain ⟨a', to_, -, -, shape⟩ := Deck.skips_moves d i c x.roots k rest
      rw [to_] at found'
      exact moved i a' (by rcases shape with ⟨rfl, -⟩ | ⟨_, _, rfl, -⟩ | ⟨_, rfl, -⟩ <;> simp) found'
    | _ => exact moved i _ (by simp) found'
  | throws => cases calm
  | checks i => exact moved i _ (by simp) found'
  | ends i => exact moved i _ (by simp) found'
  | analyzed i => exact moved i _ (by simp) found'
  | flags c accepted =>
    obtain ⟨a, old, rfl⟩ := by simpa using found'
    have other := stay j a old
    cases a <;> simp_all [At.flagged]
  | _ => exact stay j b found'

/-- One campaign is created, then every lane has its turns, two at a time. -/
def script (create : Command) (d : Deck) : ℕ → Label
  | 0 => .command create
  | n + 1 => d.turn (n / 2 % 32)

def played (now : Int) (create : Command) : ℕ → Deck
  | 0 => Deck.initial now []
  | n + 1 => (((played now create n).step (script create (played now create n) n)).map Prod.fst).getD (played now create n)

def labels (now : Int) (create : Command) (n : ℕ) : Label := script create (played now create n) n

theorem turn_calm (d : Deck) (i : Nat) : (d.turn i).Calm ∧ d.turn i ≠ .stops := by
  unfold Deck.turn
  split <;> exact ⟨trivial, by simp⟩

theorem labels_calm (now : Int) (create : Command) (n : ℕ) :
    (labels now create n).Calm ∧ labels now create n ≠ .stops := by
  cases n with
  | zero => exact ⟨trivial, by simp [labels, script]⟩
  | succ n => exact turn_calm _ _

theorem labels_fair (now : Int) (create : Command) : Fair (labels now create) := by
  intro i known n
  refine ⟨2 * (32 * n + i) + 1, by omega, ?_⟩
  have same : (2 * (32 * n + i)) / 2 % 32 = i := by omega
  simp only [labels, script, same]
  exact turn_lane _ i

theorem played_behaviour (now : Int) (create : Command)
    (accepted : ∃ p, (Deck.initial now []).step (.command create) = some p) :
    Behaviour now (played now create) (labels now create) := by
  have enabled : ∀ n p, (played now create n).step (labels now create n) = some p →
      ∃ w, (played now create n).step (labels now create n) = some (played now create (n + 1), w) := by
    intro n p step
    have next : played now create (n + 1) = p.1 := by
      simp only [played]
      rw [show script create (played now create n) n = labels now create n from rfl, step]
      rfl
    exact ⟨p.2, by rw [step, next]⟩
  have steps : ∀ n, ((played now create n).Sched ∧ (played now create n).stop = false ∧
      (played now create n).lanes.length = 32 ∧ ∀ (i : Nat) a, (played now create n).lanes[i]? = some a → a ≠ .left) ∧
      ∃ w, (played now create n).step (labels now create n) = some (played now create (n + 1), w) := by
    intro n
    induction n with
    | zero =>
      refine ⟨⟨initial_sched now, rfl, List.length_replicate, fun i a found => ?_⟩, ?_⟩
      · rw [initial_lane found]
        simp
      · obtain ⟨p, step⟩ := accepted
        exact enabled 0 p step
    | succ n ih =>
      obtain ⟨⟨sched, go, length, stay⟩, w, step⟩ := ih
      have moves := Deck.step_cases step
      obtain ⟨calm, goes⟩ := labels_calm now create n
      have here : (played now create (n + 1)).lanes.length = 32 := (moves.lanes_length calm).trans length
      have stays := moves.stays calm go stay
      refine ⟨⟨moves.sched calm sched, moves.going calm goes go, here, stays⟩, ?_⟩
      have bound : n / 2 % 32 < (played now create (n + 1)).lanes.length := by omega
      have found := List.getElem?_eq_getElem bound
      obtain ⟨p, step⟩ := turn_enabled (moves.sched calm sched) found (stays _ _ found)
      exact enabled (n + 1) p step
  exact ⟨rfl, fun n => (steps n).2, fun n => (labels_calm now create n).1, fun n => (labels_calm now create n).2⟩

def onePolicy : Policy := ⟨1, 60, 60, 1, minutePolicy.lanes, minutePolicy.budgeted, minutePolicy.budgeted, minutePolicy.retries⟩

def oneRoot : Command := .create "c" onePolicy 0 0 [⟨"a", "/a.drv", []⟩]

end Campaigns
