import Nanofil.Campaign.Lanes

/-! What a session knows of its campaign's running time, over any run of the service. -/
namespace Campaigns

/-- The session of a lane that has computed its deadline. -/
def At.session : At → Option (Nat × Session)
  | .requesting c _ s | .recording c _ s => some (c, s)
  | _ => none

/-- A step changes a campaign's account in no other way than by leaving or entering the running state. -/
def Campaign.Turn (now : Int) (x x' : Campaign) : Prop :=
  x'.policy = x.policy ∧
    ((x'.used = x.used ∧ x'.runningSince = x.runningSince ∧ (x'.state = .running ↔ x.state = .running)) ∨
      (x'.used = x.ran now ∧ x'.runningSince = 0 ∧ x'.state ≠ .running) ∨
      (x'.used = x.used ∧ x'.runningSince = now ∧ x.state = .queued ∧ x'.state = .running))

theorem Campaign.Turn.refl (now : Int) (x : Campaign) : x.Turn now x := ⟨rfl, .inl ⟨rfl, rfl, Iff.rfl⟩⟩

/-- What one step does to the campaigns: accounts turn, and who is cancelled newly is being cancelled. -/
structure Deck.Turns (d d' : Deck) : Prop where
  old : ∀ (c : Nat) x, d.campaigns[c]? = some x → ∃ x', d'.campaigns[c]? = some x' ∧ x.Turn d.now x' ∧
    (x'.state = .cancelled → x.state = .cancelled ∨ c ∈ d'.cancelling)
  new : ∀ (c : Nat) x', d'.campaigns[c]? = some x' → d.campaigns[c]? = none → x'.runningSince = 0 ∧ x'.state = .queued

variable {d d' : Deck} {w : List Write} {l : Label} {x : Campaign}

theorem Deck.Turns.unchanged (same : d'.campaigns = d.campaigns) : d.Turns d' :=
  ⟨fun c x there => ⟨x, by rw [same, there], .refl _ x, .inl⟩, fun c x' there none_ => by simp [same, none_] at there⟩

theorem Deck.Turns.modified {c : Nat} {f : Campaign → Campaign}
    (camps : d'.campaigns = d.campaigns.modify c f) (turn : ∀ x, d.campaigns[c]? = some x → x.Turn d.now (f x))
    (cancels : ∀ x, (f x).state = .cancelled → x.state = .cancelled ∨ c ∈ d'.cancelling) : d.Turns d' := by
  refine ⟨fun c' x there => ?_, fun c' x' there none_ => ?_⟩
  · by_cases same : c' = c
    · subst same
      exact ⟨f x, by rw [camps, modify_eq_set there, set_at there], turn x there, cancels x⟩
    · refine ⟨x, ?_, .refl _ x, .inl⟩
      rw [camps, List.getElem?_modify, there]
      simp [Ne.symm same]
  · obtain ⟨x, found, -⟩ := modify_some (camps ▸ there)
    simp [none_] at found

theorem leave_turn (now : Int) {state : CampaignState} (left : state ≠ .running) (x : Campaign) :
    x.Turn now (x.leaveRunning now state) := ⟨rfl, .inr (.inl ⟨rfl, rfl, left⟩)⟩

theorem Deck.Goes.turns {i : Nat} {a : At} (goes : d.Goes i a d' w) : d.Turns d' := by
  cases goes with
  | promotes c x there queued =>
    refine .modified (f := Campaign.start d.now) rfl (fun y found => ?_) (fun x h => by cases h)
    obtain rfl := Option.some.inj (there.symm.trans found)
    exact ⟨rfl, .inr (.inr ⟨rfl, rfl, queued, rfl⟩)⟩
  | finishes c x there runs quiet ended =>
    exact .modified (f := Campaign.leaveRunning d.now .finished) rfl (fun x _ => leave_turn d.now (by simp) x)
      (fun x h => by cases h)
  | takes c x there lane left roots skipped k next =>
    obtain ⟨b, moved, -⟩ := Deck.skips_moves (d.update c (Campaign.take roots k)) i c roots k skipped
    rw [moved]
    exact .modified (f := Campaign.take roots k) rfl (fun _ _ => ⟨rfl, .inl ⟨rfl, rfl, Iff.rfl⟩⟩) (fun _ h => .inl h)
  | skips c rest k x there =>
    obtain ⟨b, moved, -⟩ := Deck.skips_moves d i c x.roots k rest
    rw [moved]
    exact .unchanged rfl
  | settles c k next outcome x there calm =>
    exact .modified (f := Campaign.settle k next outcome) rfl (fun _ _ => ⟨rfl, .inl ⟨rfl, rfl, Iff.rfl⟩⟩) (fun _ h => .inl h)
  | pauses c k next x there runs =>
    refine .modified (c := c) (f := fun x => (x.settle k next "recorder-error").leaveRunning d.now .paused) ?_
      (fun x _ => ⟨rfl, .inr (.inl ⟨rfl, rfl, by simp [Campaign.leaveRunning]⟩)⟩) (fun x (h : CampaignState.paused = .cancelled) => by cases h)
    simp only [Deck.move_campaigns, Deck.update_campaigns, List.modify_modify_eq]
    rfl
  | _ => exact .unchanged rfl

/-- A lane whose await throws. -/
theorem Deck.throws_cases {i : Nat} {a : At} (throws : d.throws i a = some d') :
    ∃ b, d'.lanes = d.lanes.set i b ∧ b.session = none ∧ d'.now = d.now ∧ d'.stop = d.stop ∧ d'.cancelling = d.cancelling ∧
      (d'.campaigns = d.campaigns ∨ ∃ c k, a = .claimed c k ∧ d'.campaigns = d.campaigns.modify c (fun x =>
        { x.setRoot k (fun r => { r with state := .pending, attempts := r.attempts - 1 }) with
          inFlight := x.inFlight - 1 })) := by
  cases a with
  | claimed c k =>
    cases Option.some.inj throws
    exact ⟨_, rfl, rfl, rfl, rfl, rfl, .inr ⟨c, k, rfl, rfl⟩⟩
  | requesting c k s =>
    obtain ⟨x, there, rfl⟩ := Option.map_eq_some_iff.1 throws
    exact ⟨_, rfl, rfl, rfl, rfl, rfl, .inl rfl⟩
  | opening | promoted | finishing | skipping | inserting | settling | pausing =>
    cases Option.some.inj throws
    exact ⟨_, rfl, rfl, rfl, rfl, rfl, .inl rfl⟩
  | _ => cases throws

theorem Deck.Moves.turns (moves : d.Moves l d' w) : d.Turns d' := by
  cases moves with
  | goes i a found d' w goes => exact goes.turns
  | throws i a found d' throws =>
    obtain ⟨b, -, -, -, -, -, same | ⟨c, k, -, camps⟩⟩ := Deck.throws_cases throws
    · exact .unchanged same
    · exact .modified camps (fun _ _ => ⟨rfl, .inl ⟨rfl, rfl, Iff.rfl⟩⟩) (fun _ h => .inl h)
  | creates id policy priority created manifest roots accepted =>
    refine ⟨fun c x there => ⟨x, append_old there _, .refl _ x, .inl⟩, fun c x' there none_ => ?_⟩
    rcases append_some there with old | ⟨-, rfl⟩
    · simp [none_] at old
    · exact ⟨rfl, rfl⟩
  | pauses c x there h =>
    exact .modified (f := Campaign.leaveRunning d.now .paused) rfl (fun x _ => leave_turn d.now (by simp) x)
      (fun x h => by cases h)
  | cancels c x there h =>
    exact .modified (f := Campaign.leaveRunning d.now .cancelled) rfl (fun x _ => leave_turn d.now (by simp) x)
      (fun x _ => .inr (List.mem_cons_self ..))
  | resumes c x there paused =>
    refine .modified (f := fun x => { x with state := .queued }) rfl (fun y found => ?_) (fun x h => by cases h)
    obtain rfl := Option.some.inj (there.symm.trans found)
    exact ⟨rfl, .inl ⟨rfl, rfl, by simp [paused]⟩⟩
  | ranks c p x there =>
    exact .modified (f := fun x => { x with priority := p }) rfl (fun _ _ => ⟨rfl, .inl ⟨rfl, rfl, Iff.rfl⟩⟩) (fun _ h => .inl h)
  | _ => exact .unchanged rfl

/-! ### Sessions -/

theorem check_kept (s : Session) (policy : Policy) (now : Int) (stop : Bool) :
    (s.check policy now stop).since = s.since ∧ (s.check policy now stop).used = s.used ∧
      (s.check policy now stop).start = s.start ∧ (s.check policy now stop).cancel = s.cancel := by
  unfold Session.check
  dsimp only
  split <;> exact ⟨rfl, rfl, rfl, rfl⟩

/-- After a step a session has the account it had, or the one that `run_root` has read just now. -/
theorem Deck.Moves.session (moves : d.Moves l d' w) {j : Nat} {b : At}
    (found' : d'.lanes[j]? = some b) {c : Nat} {s' : Session} (session' : b.session = some (c, s')) :
    (∃ a s, d.lanes[j]? = some a ∧ a.session = some (c, s) ∧ s'.since = s.since ∧ s'.used = s.used ∧ s'.start = s.start) ∨
      ∃ x, d.campaigns[c]? = some x ∧ s'.since = x.runningSince ∧ s'.used = x.used := by
  have kept : ∀ (i : Nat) (a : At), (a.session = some (c, s') → ∃ a' s, d.lanes[i]? = some a' ∧ a'.session = some (c, s) ∧
      s'.since = s.since ∧ s'.used = s.used ∧ s'.start = s.start) → (d.lanes.set i a)[j]? = some b →
      ∃ a s, d.lanes[j]? = some a ∧ a.session = some (c, s) ∧ s'.since = s.since ∧ s'.used = s.used ∧ s'.start = s.start := by
    intro i a same found
    rcases set_some found with ⟨rfl, rfl⟩ | ⟨-, old⟩
    · exact same session'
    · exact ⟨b, s', old, session', rfl, rfl, rfl⟩
  have free : ∀ (i : Nat) (a : At), a.session = none → (d.lanes.set i a)[j]? = some b →
      ∃ a s, d.lanes[j]? = some a ∧ a.session = some (c, s) ∧ s'.since = s.since ∧ s'.used = s.used ∧ s'.start = s.start :=
    fun i a none_ => kept i a (fun wrong => by simp [none_] at wrong)
  cases moves with
  | goes i a found d' w goes =>
    cases goes with
    | takes c' x there lane left roots skipped k next =>
      obtain ⟨a', moved, -, -, shape⟩ := Deck.skips_moves (d.update c' (Campaign.take roots k)) i c' roots k skipped
      rw [moved] at found'
      exact .inl (free i a' (by rcases shape with ⟨rfl, -⟩ | ⟨_, _, rfl, -⟩ | ⟨_, rfl, -⟩ <;> rfl) found')
    | skips c' rest k x there =>
      obtain ⟨a', moved, -, -, shape⟩ := Deck.skips_moves d i c' x.roots k rest
      rw [moved] at found'
      exact .inl (free i a' (by rcases shape with ⟨rfl, -⟩ | ⟨_, _, rfl, -⟩ | ⟨_, rfl, -⟩ <;> rfl) found')
    | inserts c' k x there =>
      rcases set_some found' with ⟨rfl, rfl⟩ | ⟨-, old⟩
      · obtain ⟨rfl, rfl⟩ := Prod.mk.inj (Option.some.inj session')
        exact .inr ⟨x, there, rfl, rfl⟩
      · exact .inl ⟨b, s', old, session', rfl, rfl, rfl⟩
    | requests c' k s =>
      refine .inl (kept i (.recording c' k s) (fun same => ?_) found')
      obtain ⟨rfl, rfl⟩ := Prod.mk.inj (Option.some.inj same)
      exact ⟨_, s, found, rfl, rfl, rfl, rfl⟩
    | _ => exact .inl (free i _ rfl found')
  | throws i a found d' throws =>
    obtain ⟨a', lanes, none_, -⟩ := Deck.throws_cases throws
    exact .inl (free i a' none_ (lanes ▸ found'))
  | checks i c' k s found x there =>
    refine .inl (kept i (.recording c' k (s.check x.policy d.now d.stop)) (fun same => ?_) found')
    obtain ⟨rfl, rfl⟩ := Prod.mk.inj (Option.some.inj same)
    obtain ⟨since, used, start, -⟩ := check_kept s x.policy d.now d.stop
    exact ⟨_, s, found, rfl, since, used, start⟩
  | ends i c' k s found x there => exact .inl (free i _ rfl found')
  | analyzed i c' k stopping operatorCancel outcome found x r there root => exact .inl (free i _ rfl found')
  | flags c' accepted =>
    obtain ⟨a, old, rfl⟩ : ∃ a, d.lanes[j]? = some a ∧ a.flagged c' = b := by simpa using found'
    refine .inl ?_
    cases a with
    | recording c1 k s =>
      obtain ⟨rfl, rfl⟩ := Prod.mk.inj (Option.some.inj session')
      refine ⟨_, s, old, rfl, ?_⟩
      split_ifs <;> exact ⟨rfl, rfl, rfl⟩
    | requesting c1 k s =>
      obtain ⟨rfl, rfl⟩ := Prod.mk.inj (Option.some.inj session')
      exact ⟨_, s, old, rfl, rfl, rfl, rfl⟩
    | _ => cases session'
  | _ => exact .inl ⟨b, s', found', session', rfl, rfl, rfl⟩

/-- The clock does not go back. -/
theorem Deck.Moves.now_le (moves : d.Moves l d' w) : d.now ≤ d'.now ∧ (d'.now = d.now ∨ d'.campaigns = d.campaigns) := by
  cases moves with
  | goes i a found d' w goes => exact ⟨goes.lane.2.1.ge, .inl goes.lane.2.1⟩
  | throws i a found d' throws =>
    obtain ⟨b, -, -, now, -⟩ := Deck.throws_cases throws
    exact ⟨now.ge, .inl now⟩
  | passes time => exact ⟨Int.le_add_of_nonneg_right (Int.natCast_nonneg time), .inr rfl⟩
  | _ => exact ⟨le_rfl, .inl rfl⟩

/-- A session's account of its campaign. -/
structure Session.Timed (now : Int) (s : Session) (x : Campaign) : Prop where
  past : s.since = 0 ∨ s.since ≤ now
  account : s.since ≠ 0 → x.runningSince = s.since → x.used = s.used
  fresh : s.since ≠ 0 → s.since = now → x.used = s.used ∧ (x.runningSince = now ∨ x.runningSince = 0)

/-- The accounts of all sessions, and no interval begins in the future. -/
structure Deck.Timed (d : Deck) : Prop where
  still : ∀ (c : Nat) x, d.campaigns[c]? = some x → x.state ≠ .running → x.runningSince = 0
  since : ∀ (c : Nat) x, d.campaigns[c]? = some x → x.runningSince = 0 ∨ x.runningSince ≤ d.now
  sessions : ∀ (i : Nat) a c s, d.lanes[i]? = some a → a.session = some (c, s) →
    ∃ x, d.campaigns[c]? = some x ∧ s.Timed d.now x

/-- Leaving and entering the running state lose no time. -/
theorem Campaign.Turn.ran {now : Int} {x' : Campaign} (turn : x.Turn now x')
    (still : x.state ≠ .running → x.runningSince = 0) : x'.ran now = x.ran now := by
  obtain ⟨-, ⟨used, since, -⟩ | ⟨used, since, -⟩ | ⟨used, since, queued, -⟩⟩ := turn
  · rw [Campaign.ran, Campaign.ran, used, since]
  · rw [Campaign.ran, since, if_pos rfl, used]
    omega
  · rw [Campaign.ran, Campaign.ran, used, since, still (by simp [queued]), if_pos rfl]
    split_ifs <;> omega

theorem Session.Timed.turn {now : Int} {s : Session} {x' : Campaign} (timed : s.Timed now x) (turn : x.Turn now x') :
    s.Timed now x' := by
  obtain ⟨-, ⟨used, since, -⟩ | ⟨used, since, -⟩ | ⟨used, since, -⟩⟩ := turn
  · exact ⟨timed.past, fun some_ same => by rw [used, timed.account some_ (since ▸ same)],
      fun some_ same => by rw [used, since]; exact timed.fresh some_ same⟩
  · refine ⟨timed.past, fun some_ same => absurd (same.symm.trans since) some_, fun some_ same => ⟨?_, .inr since⟩⟩
    obtain ⟨same_used, here | none_⟩ := timed.fresh some_ same
    · rw [used, Campaign.ran, here]
      split_ifs <;> omega
    · rw [used, Campaign.ran, if_pos none_]
      omega
  · refine ⟨timed.past, fun some_ same => ?_, fun some_ same => ⟨?_, .inl since⟩⟩
    · rw [used]
      exact (timed.fresh some_ (same.symm.trans since)).1
    · rw [used]
      exact (timed.fresh some_ same).1

theorem Session.Timed.passes {now now' : Int} {s : Session} {x : Campaign} (timed : s.Timed now x) (later : now < now') :
    s.Timed now' x := by
  refine ⟨timed.past.imp id (fun h => by omega), timed.account, fun some_ same => ?_⟩
  rcases timed.past with h | h
  · exact absurd h some_
  · omega

theorem Session.Timed.of_account {now : Int} {s s' : Session} (timed : s.Timed now x)
    (since : s'.since = s.since) (used : s'.used = s.used) : s'.Timed now x := by
  refine ⟨since ▸ timed.past, fun some_ same => ?_, fun some_ same => ?_⟩
  · rw [used]
    exact timed.account (since ▸ some_) (since ▸ same)
  · rw [used]
    exact timed.fresh (since ▸ some_) (since ▸ same)

theorem Deck.Moves.timed (moves : d.Moves l d' w) (timed : d.Timed) : d'.Timed := by
  have turns := moves.turns
  obtain ⟨later, still⟩ := moves.now_le
  refine ⟨fun c x' there' stopped => ?_, fun c x' there' => ?_, fun i b c s' found' session' => ?_⟩
  · cases old : d.campaigns[c]? with
    | none => exact (turns.new c x' there' old).1
    | some x =>
      obtain ⟨y, there1, ⟨-, ⟨-, since, state⟩ | ⟨-, since, -⟩ | ⟨-, -, -, state⟩⟩, -⟩ := turns.old c x old
      all_goals obtain rfl := Option.some.inj (there1.symm.trans there')
      · exact since.trans (timed.still c x old (fun runs => stopped (state.2 runs)))
      · exact since
      · exact absurd state stopped
  · cases old : d.campaigns[c]? with
    | none => exact .inl (turns.new c x' there' old).1
    | some x =>
      obtain ⟨y, there1, ⟨-, ⟨-, since, -⟩ | ⟨-, since, -⟩ | ⟨-, since, -⟩⟩, -⟩ := turns.old c x old
      all_goals obtain rfl := Option.some.inj (there1.symm.trans there')
      · exact (timed.since c x old).imp (fun h => since.trans h) (fun h => by omega)
      · exact .inl since
      · exact .inr (by omega)
  · -- the session's account against the campaign before the step
    have before : ∃ x, d.campaigns[c]? = some x ∧ s'.Timed d.now x := by
      rcases moves.session found' session' with ⟨a, s, found, session, since, used, -⟩ | ⟨x, there, since, used⟩
      · obtain ⟨x, there, old⟩ := timed.sessions i a c s found session
        exact ⟨x, there, old.of_account since used⟩
      · refine ⟨x, there, since ▸ timed.since c x there, fun _ _ => used.symm, fun some_ same => ⟨used.symm, ?_⟩⟩
        exact .inl (since ▸ same)
    obtain ⟨x, there, old⟩ := before
    obtain ⟨x', there', turn, -⟩ := turns.old c x there
    refine ⟨x', there', ?_⟩
    rcases still with same | same
    · rw [same]
      exact old.turn turn
    · obtain rfl : x = x' := Option.some.inj (there.symm.trans (same ▸ there'))
      rcases later.eq_or_lt with same | lt
      · exact same ▸ old
      · exact old.passes lt

end Campaigns
