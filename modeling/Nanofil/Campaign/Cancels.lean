import Nanofil.Campaign.Sessions

/-! Whom a cancel reaches, and when a run is stopped at a limit. -/
namespace Campaigns

/-- A run of the service whose steps all meet a condition on what is before them. -/
inductive Deck.Run (meets : Deck → Label → Prop) (start : Deck) : Deck → Prop
  | start : Run meets start start
  | step {d d' : Deck} {l : Label} {w : List Write} (run : Run meets start d) (h : meets d l)
      (step : d.step l = some (d', w)) : Run meets start d'

/-- Every run of a cancelled campaign whose sessions were flagged is flagged, and so signalled at
the monitor's next look. -/
def Deck.Reached (d : Deck) : Prop :=
  ∀ (i c k : Nat) (s : Session) (x : Campaign), d.lanes[i]? = some (.recording c k s) → d.campaigns[c]? = some x →
    x.state = .cancelled → c ∉ d.cancelling → ∀ now, (s.check x.policy now d.stop).signalled ≠ none

/-- A run is stopped at a limit only after its own time, or when its campaign ran for the budget. -/
def Deck.Limited (d : Deck) : Prop :=
  ∀ (i c k : Nat) (s : Session) (x : Campaign), d.lanes[i]? = some (.recording c k s) → d.campaigns[c]? = some x →
    s.signalled = some .limitReached → s.start + x.policy.rootTimeout * second ≤ d.now ∨ x.limit ≤ x.ran d.now

/-- No session is registered for a campaign whose cancel has been carried out, and a deadline that a
monitor meets is that of the root's timeout, or the campaign runs since `run_root` read its account. -/
def Deck.Meets (d : Deck) : Label → Prop
  | .goes i => ∀ (c k : Nat) (s : Session) (x : Campaign), d.lanes[i]? = some (.requesting c k s) →
      d.campaigns[c]? = some x → x.state = .cancelled → c ∈ d.cancelling
  | .checks i => ∀ (c k : Nat) (s : Session) (x : Campaign), d.lanes[i]? = some (.recording c k s) →
      d.campaigns[c]? = some x → s.deadline x.policy ≤ d.now →
      s.start + x.policy.rootTimeout * second ≤ s.since + (x.policy.budget * second - s.used) ∨
        s.since ≠ 0 ∧ x.runningSince = s.since
  | _ => True

theorem check_signals {s : Session} (flagged : s.cancel = true) (policy : Policy) (now : Int) (stop : Bool) :
    (s.check policy now stop).signalled ≠ none := by
  unfold Session.check
  by_cases fresh : s.signalled = none
  · simp [fresh, flagged]
  · simp [fresh]

/-- A look signals a limit only at the deadline. -/
theorem check_limit {s : Session} {policy : Policy} {now : Int} {stop : Bool}
    (limited : (s.check policy now stop).signalled = some .limitReached) :
    s.signalled = some .limitReached ∨ s.deadline policy ≤ now := by
  unfold Session.check at limited
  dsimp only at limited
  by_cases due : (s.deadline policy ≤ now)
  · exact .inr due
  · simp only [due, decide_false, Bool.and_false, Bool.or_false] at limited
    split at limited
    · rename_i asked
      simp only [Bool.and_eq_true] at asked
      rw [if_pos asked.2] at limited
      cases limited
    · exact .inl limited

/-! ### Flags -/

/-- Every registered session of a cancelled campaign is flagged, once the cancel has been carried out. -/
def Deck.Flagged (d : Deck) : Prop :=
  ∀ (i c k : Nat) (s : Session) (x : Campaign), d.lanes[i]? = some (.recording c k s) → d.campaigns[c]? = some x →
    x.state = .cancelled → c ∉ d.cancelling → s.cancel = true

variable {d d' : Deck} {c : Nat} {l : Label} {w : List Write}

theorem Deck.Flagged.reached (flagged : d.Flagged) : d.Reached :=
  fun i c k s x found there cancelled done now => check_signals (flagged i c k s x found there cancelled done) x.policy now d.stop

/-- A lane that records after a step recorded before it, or it has registered its session. -/
theorem Deck.Moves.recording (moves : d.Moves l d' w) {j k : Nat} {s' : Session}
    (found' : d'.lanes[j]? = some (.recording c k s')) :
    (∃ s, d.lanes[j]? = some (.recording c k s) ∧ (s.cancel = true → s'.cancel = true) ∧ (l = .flags c → s'.cancel = true) ∧
      s'.start = s.start ∧ (s'.signalled = s.signalled ∨ ∃ x, l = .checks j ∧ d.campaigns[c]? = some x ∧
        s' = s.check x.policy d.now d.stop)) ∨
      l = .goes j ∧ d.lanes[j]? = some (.requesting c k s') := by
  have free : ∀ (i : Nat) (a : At), (∀ c k s, a ≠ .recording c k s) → (d.lanes.set i a)[j]? = some (.recording c k s') →
      d.lanes[j]? = some (.recording c k s') := by
    intro i a other found
    rcases set_some found with ⟨-, rfl⟩ | ⟨-, old⟩
    · exact absurd rfl (other c k s')
    · exact old
  have same : d.lanes[j]? = some (.recording c k s') → l ≠ .flags c →
      ∃ s, d.lanes[j]? = some (.recording c k s) ∧ (s.cancel = true → s'.cancel = true) ∧ (l = .flags c → s'.cancel = true) ∧
      s'.start = s.start ∧ (s'.signalled = s.signalled ∨ ∃ x, l = .checks j ∧ d.campaigns[c]? = some x ∧
        s' = s.check x.policy d.now d.stop) :=
    fun old other => ⟨s', old, id, fun wrong => absurd wrong other, rfl, .inl rfl⟩
  cases moves with
  | goes i a found d' w goes =>
    cases goes with
    | takes c' x there lane left roots skipped k' next =>
      obtain ⟨a', moved, -, -, shape⟩ := Deck.skips_moves (d.update c' (Campaign.take roots k')) i c' roots k' skipped
      rw [moved] at found'
      exact .inl (same (free i a' (by rcases shape with ⟨rfl, -⟩ | ⟨_, _, rfl, -⟩ | ⟨_, rfl, -⟩ <;> simp) found') (by simp))
    | skips c' rest k' x there =>
      obtain ⟨a', moved, -, -, shape⟩ := Deck.skips_moves d i c' x.roots k' rest
      rw [moved] at found'
      exact .inl (same (free i a' (by rcases shape with ⟨rfl, -⟩ | ⟨_, _, rfl, -⟩ | ⟨_, rfl, -⟩ <;> simp) found') (by simp))
    | requests c' k' s =>
      rcases set_some found' with ⟨rfl, now⟩ | ⟨-, old⟩
      · cases now
        exact .inr ⟨rfl, found⟩
      · exact .inl (same old (by simp))
    | _ => exact .inl (same (free i _ (by simp) found') (by simp))
  | throws i a found d' throws =>
    obtain ⟨a', lanes, none_, -⟩ := Deck.throws_cases throws
    exact .inl (same (free i a' (by rintro c k s rfl; cases none_) (lanes ▸ found')) (by simp))
  | checks i c' k' s found x there =>
    rcases set_some found' with ⟨rfl, now⟩ | ⟨-, old⟩
    · cases now
      obtain ⟨-, -, start, cancel⟩ := check_kept s x.policy d.now d.stop
      exact .inl ⟨s, found, fun h => cancel.trans h, by simp, start, .inr ⟨x, rfl, there, rfl⟩⟩
    · exact .inl (same old (by simp))
  | ends i c' k' s found x there => exact .inl (same (free i _ (by simp) found') (by simp))
  | analyzed i c' k' stopping operatorCancel outcome found x r there root =>
    exact .inl (same (free i _ (by simp) found') (by simp))
  | flags c' accepted =>
    obtain ⟨a, old, now⟩ : ∃ a, d.lanes[j]? = some a ∧ a.flagged c' = .recording c k s' := by simpa using found'
    cases a with
    | recording c1 k1 s =>
      cases now
      refine .inl ⟨s, old, fun h => ?_, fun same => ?_, ?_, .inl ?_⟩
      · split_ifs
        · rfl
        · exact h
      · cases same
        rw [if_pos rfl]
      · split_ifs <;> rfl
      · split_ifs <;> rfl
    | _ => cases now
  | _ => exact .inl (same found' (by simp))

theorem Deck.Moves.cancelling (moves : d.Moves l d' w) (accepted : c ∈ d.cancelling) : c ∈ d'.cancelling ∨ l = .flags c := by
  cases moves with
  | goes i a found d' w goes => exact .inl (goes.lane.2.2.1 ▸ accepted)
  | throws i a found d' throws =>
    obtain ⟨b, -, -, -, -, same, -⟩ := Deck.throws_cases throws
    exact .inl (same ▸ accepted)
  | cancels c' x there h => exact .inl (List.mem_cons_of_mem _ accepted)
  | flags c' _ =>
    by_cases same : c' = c
    · exact .inr (same ▸ rfl)
    · exact .inl ((List.mem_erase_of_ne (Ne.symm same)).2 accepted)
  | _ => exact .inl accepted

theorem Deck.Moves.flagged (moves : d.Moves l d' w) (meets : d.Meets l) (timed : d.Timed) (flagged : d.Flagged) : d'.Flagged := by
  intro j c k s' x' found' there' cancelled done
  -- the lane named its campaign before the step
  obtain ⟨x, there⟩ : ∃ x, d.campaigns[c]? = some x := by
    rcases moves.session found' rfl with ⟨a, s, found, session, -⟩ | ⟨x, there, -⟩
    · obtain ⟨x, there, -⟩ := timed.sessions j a c s found session
      exact ⟨x, there⟩
    · exact ⟨x, there⟩
  obtain ⟨y, there1, -, was⟩ := moves.turns.old c x there
  obtain rfl := Option.some.inj (there1.symm.trans there')
  have before : x.state = .cancelled := (was cancelled).resolve_right done
  rcases moves.recording found' with ⟨s, found, kept, flags, -⟩ | ⟨rfl, found⟩
  · by_cases accepted : c ∈ d.cancelling
    · exact flags ((moves.cancelling accepted).resolve_left done)
    · exact kept (flagged j c k s x found there before accepted)
  · have accepted := meets c k s' x found there before
    rcases moves.cancelling accepted with still | wrong
    · exact absurd still done
    · cases wrong

/-! ### Limits -/

theorem Deck.Moves.ran_le (moves : d.Moves l d' w) (timed : d.Timed)
    {x x' : Campaign} (there : d.campaigns[c]? = some x) (there' : d'.campaigns[c]? = some x') :
    x'.policy = x.policy ∧ x.ran d.now ≤ x'.ran d'.now := by
  obtain ⟨y, there1, turn, -⟩ := moves.turns.old c x there
  obtain rfl := Option.some.inj (there1.symm.trans there')
  refine ⟨turn.1, ?_⟩
  obtain ⟨later, same | same⟩ := moves.now_le
  · rw [same, turn.ran (timed.still c x there)]
  · obtain rfl : x = y := Option.some.inj (there.symm.trans (same ▸ there'))
    simp only [Campaign.ran]
    split_ifs <;> omega

theorem Deck.Moves.limited (moves : d.Moves l d' w) (meets : d.Meets l)
    (timed : d.Timed) (limited : d.Limited) (fresh : ∀ (i c k : Nat) s, d.lanes[i]? = some (.requesting c k s) → s.signalled = none) :
    d'.Limited := by
  intro j c k s' x' found' there' limit
  rcases moves.recording found' with ⟨s, found, -, -, start, signalled⟩ | ⟨-, found⟩
  · obtain ⟨x, there, account⟩ := timed.sessions j _ c s found rfl
    obtain ⟨policy, ran⟩ := moves.ran_le timed there there'
    have later := moves.now_le.1
    have before : s.start + x.policy.rootTimeout * second ≤ d.now ∨ x.limit ≤ x.ran d.now := by
      rcases signalled with same | ⟨x1, rfl, there1, rfl⟩
      · exact limited j c k s x found there (same ▸ limit)
      · obtain rfl := Option.some.inj (there1.symm.trans there)
        rcases check_limit limit with old | due
        · exact limited j c k s x1 found there old
        · rcases meets c k s x1 found there due with own | ⟨some_, runs⟩
          · rw [Session.deadline, min_eq_right own] at due
            exact .inl due
          · -- the deadline is the root's own, or the end of the budget counted from where it still counts
            simp only [Session.deadline, min_le_iff] at due
            rcases due with due | due
            · refine .inr ?_
              have used := account.account some_ runs
              rw [Campaign.limit, Campaign.ran, if_neg (by rw [runs]; exact some_), used, runs]
              omega
            · exact .inl due
    rw [start, policy]
    rcases before with own | used
    · exact .inl (by omega)
    · exact .inr (by rw [Campaign.limit, policy]; exact le_trans used ran)
  · simp [fresh j c k s' found] at limit

/-- A session is not signalled before it is registered. -/
def Deck.Fresh (d : Deck) : Prop :=
  ∀ (i c k : Nat) (s : Session), d.lanes[i]? = some (.requesting c k s) → s.signalled = none

theorem Deck.Moves.fresh {d d' : Deck} {l : Label} {w : List Write} (moves : d.Moves l d' w) (fresh : d.Fresh) : d'.Fresh := by
  intro j c k s' found'
  have moved : ∀ (i : Nat) (a : At), (∀ c k s, a = .requesting c k s → s.signalled = none) →
      (d.lanes.set i a)[j]? = some (.requesting c k s') → s'.signalled = none := by
    intro i a new found
    rcases set_some found with ⟨-, same⟩ | ⟨-, old⟩
    · exact new c k s' same.symm
    · exact fresh j c k s' old
  cases moves with
  | goes i a found d' w goes =>
    cases goes with
    | takes c' x there lane left roots skipped k' next =>
      obtain ⟨a', moved', -, -, shape⟩ := Deck.skips_moves (d.update c' (Campaign.take roots k')) i c' roots k' skipped
      rw [moved'] at found'
      exact moved i a' (by rcases shape with ⟨rfl, -⟩ | ⟨_, _, rfl, -⟩ | ⟨_, rfl, -⟩ <;> simp) found'
    | skips c' rest k' x there =>
      obtain ⟨a', moved', -, -, shape⟩ := Deck.skips_moves d i c' x.roots k' rest
      rw [moved'] at found'
      exact moved i a' (by rcases shape with ⟨rfl, -⟩ | ⟨_, _, rfl, -⟩ | ⟨_, rfl, -⟩ <;> simp) found'
    | inserts c' k' x there => exact moved i _ (by rintro _ _ _ ⟨⟩; rfl) found'
    | _ => exact moved i _ (by simp) found'
  | throws i a found d' throws =>
    obtain ⟨a', lanes, none_, -⟩ := Deck.throws_cases throws
    exact moved i a' (by rintro c k s rfl; cases none_) (lanes ▸ found')
  | checks i => exact moved i _ (by simp) found'
  | ends i => exact moved i _ (by simp) found'
  | analyzed i => exact moved i _ (by simp) found'
  | flags c' accepted =>
    obtain ⟨a, old, now⟩ : ∃ a, d.lanes[j]? = some a ∧ a.flagged c' = .requesting c k s' := by simpa using found'
    cases a with
    | requesting => cases now; exact fresh j c k s' old
    | _ => cases now
  | _ => exact fresh j c k s' found'

def Deck.plays (d : Deck) : List Label → Option Deck
  | [] => some d
  | l :: ls => (d.step l).bind (fun p => p.1.plays ls)

theorem Deck.plays_run {d0 : Deck} {ls : List Label} (run : Deck.Run (fun _ _ => True) d0 d)
    (played : d.plays ls = some d') : Deck.Run (fun _ _ => True) d0 d' := by
  induction ls generalizing d with
  | nil => exact Option.some.inj played ▸ run
  | cons l ls ih =>
    obtain ⟨p, step, rest⟩ := Option.bind_eq_some_iff.1 played
    exact ih (run.step trivial step) rest

def minuteRoot : Command := .create "c" minutePolicy 0 0 [⟨"a", "/a.drv", []⟩]

/-- Lane 0 promotes the campaign, claims its root and opens its writer. -/
def claiming : List Label := .command minuteRoot :: List.replicate 6 (.goes 0)

end Campaigns
