import Nanofil.Campaign.Lanes

/-! One lane promotes at a time, and one campaign runs. -/
namespace Campaigns

def At.opens : At → Bool
  | .opening _ => true
  | _ => false

/-- A campaign is running. -/
def Deck.Running (d : Deck) (c : Nat) : Prop := ∃ x, d.campaigns[c]? = some x ∧ x.state = .running

structure Deck.Promotion (d : Deck) : Prop where
  one : ∀ c c', d.Running c → d.Running c' → c = c'
  sole : ∀ (i j : Nat) a b, d.lanes[i]? = some a → d.lanes[j]? = some b → a.promotes = true → b.promotes = true → i = j
  flag : ∀ (i : Nat) a, d.lanes[i]? = some a → a.promotes = true → d.promoting = true
  quiet : ∀ (i : Nat) a, d.lanes[i]? = some a → a.opens = true → ∀ c, ¬d.Running c
  named : ∀ (i : Nat) a c, d.lanes[i]? = some a → a.campaign = some c → c < d.campaigns.length

variable {a : At} {c i : Nat} {d d' : Deck}

theorem opens_promotes (opens : a.opens = true) : a.promotes = true := by
  cases a <;> first | rfl | cases opens

theorem running_iff {x : Campaign} (there : d.campaigns[c]? = some x) : d.Running c ↔ x.state = .running := by
  constructor
  · rintro ⟨y, found, runs⟩
    obtain rfl := Option.some.inj (found.symm.trans there)
    exact runs
  · exact fun runs => ⟨x, there, runs⟩

/-- A step that promotes nothing keeps what holds of promotions. -/
theorem Deck.Promotion.kept (was : d.Promotion) (runs : ∀ c, d'.Running c → d.Running c)
    (lanes : ∀ (j : Nat) b, d'.lanes[j]? = some b → (∀ c, b.campaign = some c → c < d'.campaigns.length) ∧
      (b.promotes = true → ∃ a, d.lanes[j]? = some a ∧ a.promotes = true ∧ (b.opens = true → a.opens = true)))
    (flag : ∀ (j : Nat) b, d'.lanes[j]? = some b → b.promotes = true → d.promoting = true → d'.promoting = true) :
    d'.Promotion := by
  refine ⟨fun c c' h h' => was.one c c' (runs c h) (runs c' h'), ?_, ?_, ?_, fun i a c found => (lanes i a found).1 c⟩
  · intro i j a b found found' promotes promotes'
    obtain ⟨a0, old, p0, -⟩ := (lanes i a found).2 promotes
    obtain ⟨b0, old', p0', -⟩ := (lanes j b found').2 promotes'
    exact was.sole i j a0 b0 old old' p0 p0'
  · intro i a found promotes
    obtain ⟨a0, old, p0, -⟩ := (lanes i a found).2 promotes
    exact flag i a found promotes (was.flag i a0 old p0)
  · intro i a found opens c running
    obtain ⟨a0, old, -, o0⟩ := (lanes i a found).2 (opens_promotes opens)
    exact was.quiet i a0 old (o0 opens) c (runs c running)

/-- A lane goes on to where it does not promote; the flag may fall with its promotion. -/
theorem Deck.Promotion.moved (was : d.Promotion) {b : At} (found : d.lanes[i]? = some a)
    (runs : ∀ c, d'.Running c → d.Running c) (size : d'.campaigns.length = d.campaigns.length)
    (lanes : d'.lanes = d.lanes.set i b) (calm : b.promotes = false)
    (flag : d'.promoting = d.promoting ∨ a.promotes = true)
    (named : ∀ c, b.campaign = some c → c < d.campaigns.length) : d'.Promotion := by
  refine was.kept runs (fun j e found' => ?_) (fun j e found' promotes raised => ?_)
  · rw [lanes] at found'
    rcases set_some found' with ⟨-, rfl⟩ | ⟨-, old⟩
    · exact ⟨fun c h => size ▸ named c h, fun promotes => absurd promotes (by simp [calm])⟩
    · exact ⟨fun c h => size ▸ was.named j e c old h, fun promotes => ⟨e, old, promotes, id⟩⟩
  · rcases flag with same | mine
    · rw [same, raised]
    · rw [lanes] at found'
      rcases set_some found' with ⟨-, rfl⟩ | ⟨other, old⟩
      · exact absurd promotes (by simp [calm])
      · exact absurd (was.sole j i e a old found promotes mine) other

theorem running_update {f : Campaign → Campaign} (stays : ∀ x, (f x).state = .running → x.state = .running) (c' : Nat) :
    (d.update c f).Running c' → d.Running c' := by
  rintro ⟨y, found, runs⟩
  obtain ⟨x, there, ⟨rfl, -⟩ | ⟨rfl, -⟩⟩ := modify_some found
  · exact ⟨_, there, runs⟩
  · exact ⟨x, there, stays x runs⟩

theorem bound_of {α : Type} {xs : List α} {x : α} (found : xs[i]? = some x) : i < xs.length :=
  (List.getElem?_eq_some_iff.1 found).1

theorem running_none (calm : d.running = none) (c : Nat) : ¬d.Running c := by
  rintro ⟨x, there, runs⟩
  have not_runs := List.find?_eq_none.1 calm c (List.mem_range.2 (bound_of there))
  simp [Deck.runs, there, runs] at not_runs

theorem running_some (found : d.running = some c) : d.Running c := by
  have runs := List.find?_some found
  simp only [Deck.runs] at runs
  obtain ⟨x, there, state⟩ := (Option.any_eq_true _ _).1 runs
  exact ⟨x, there, by simpa using state⟩

theorem better_bound {best : Option Nat} {c' : Nat} (h : d.better best c = some c') :
    best = some c' ∨ c' = c ∧ ∃ x, d.campaigns[c]? = some x ∧ x.state = .queued := by
  unfold Deck.better at h
  split at h
  · rename_i queued there _
    split_ifs at h with state
    · cases h
      exact .inr ⟨rfl, queued, there, state⟩
    · exact .inl h
  · rename_i queued old there _
    split_ifs at h with state
    · cases h
      simp only [Bool.and_eq_true, decide_eq_true_eq] at state
      exact .inr ⟨rfl, queued, there, state.1⟩
    · exact .inl h
  · exact .inl h

/-- What is promoted is queued. -/
theorem best_queued (best : d.best = some c) : ∃ x, d.campaigns[c]? = some x ∧ x.state = .queued := by
  have all : ∀ (cs : List Nat) (b : Option Nat), cs.foldl d.better b = some c →
      b = some c ∨ ∃ x, d.campaigns[c]? = some x ∧ x.state = .queued := by
    intro cs
    induction cs with
    | nil => exact fun b h => .inl h
    | cons e cs ih =>
      intro b h
      rcases ih _ h with h | h
      · rcases better_bound h with h | ⟨rfl, h⟩
        · exact .inl h
        · exact .inr h
      · exact .inr h
  rcases all _ _ best with h | h
  · cases h
  · exact h

theorem Deck.Goes.promotion {w : List Write} (goes : d.Goes i a d' w)
    (was : d.Promotion) (found : d.lanes[i]? = some a) : d'.Promotion := by
  have known : ∀ c, a.campaign = some c → c < d.campaigns.length := fun c => was.named i a c found
  cases goes with
  | leaves | waits | rests | refuses | paused | wakes => exact was.moved found (fun c h => h) rfl rfl rfl (.inl rfl) (by simp [At.campaign])
  | looks c go runs =>
    obtain ⟨x, there, -⟩ := running_some runs
    refine was.moved (b := .looked c) found (fun c h => h) rfl rfl rfl (.inl rfl) ?_
    rintro c' ⟨⟩
    exact bound_of there
  | opens c go calm free best =>
    obtain ⟨x, there, -⟩ := best_queued best
    have alone : ∀ (j : Nat) b, d.lanes[j]? = some b → b.promotes = false := by
      intro j b old
      by_contra promotes
      have raised := was.flag j b old (by simpa using promotes)
      simp [free] at raised
    have only : ∀ (j : Nat) b, (d.lanes.set i (.opening c))[j]? = some b → b.promotes = true → j = i := by
      intro j b found' promotes
      rcases set_some found' with ⟨same, -⟩ | ⟨-, old⟩
      · exact same
      · exact absurd promotes (by simp [alone j b old])
    refine ⟨was.one, fun j j' b b' h h' p p' => (only j b h p).trans (only j' b' h' p').symm, fun _ _ _ _ => rfl,
      fun _ _ _ _ => running_none calm, fun j b c' found' camp => ?_⟩
    rcases set_some found' with ⟨-, rfl⟩ | ⟨-, old⟩
    · obtain rfl := Option.some.inj camp
      exact bound_of there
    · exact was.named j b c' old camp
  | promotes c x there queued =>
    have still := was.quiet i _ found rfl
    have only : ∀ (j : Nat) b, (d.lanes.set i (.promoted c))[j]? = some b → b.promotes = true → j = i := by
      intro j b found' promotes
      rcases set_some found' with ⟨same, -⟩ | ⟨-, old⟩
      · exact same
      · exact was.sole j i b _ old found promotes rfl
    have runs : ∀ c', ((d.update c (Campaign.start d.now)).move i (.promoted c)).Running c' → c' = c := by
      rintro c' ⟨y, found', state⟩
      obtain ⟨x', there', ⟨rfl, -⟩ | ⟨-, same⟩⟩ := modify_some found'
      · exact absurd ⟨_, there', state⟩ (still c')
      · exact same
    refine ⟨fun c1 c2 h1 h2 => (runs c1 h1).trans (runs c2 h2).symm,
      fun j j' b b' h h' p p' => (only j b h p).trans (only j' b' h' p').symm, ?_, ?_, ?_⟩
    · exact fun _ _ _ _ => was.flag i _ found rfl
    · intro j b found' opens
      obtain rfl := only j b found' (opens_promotes opens)
      obtain rfl := Option.some.inj ((set_at found (.promoted c)).symm.trans found')
      cases opens
    · intro j b c' found' camp
      simp only [Deck.move_campaigns, Deck.update_campaigns, List.length_modify]
      rcases set_some found' with ⟨-, rfl⟩ | ⟨-, old⟩
      · exact known c' camp
      · exact was.named j b c' old camp
  | misses | loses => exact was.moved found (fun c h => h) rfl rfl rfl (.inr rfl) (by simp [At.campaign])
  | enters c x there runs => exact was.moved (b := .looked c) found (fun c h => h) rfl rfl rfl (.inr rfl) known
  | admits c => exact was.moved (b := .admitting c) found (fun c h => h) rfl rfl rfl (.inl rfl) known
  | claims c k => exact was.moved (b := .inserting c k) found (fun c h => h) rfl rfl rfl (.inl rfl) known
  | inserts c k x there => exact was.moved (b := .requesting c k _) found (fun c h => h) rfl rfl rfl (.inl rfl) known
  | requests c k s => exact was.moved (b := .recording c k s) found (fun c h => h) rfl rfl rfl (.inl rfl) known
  | finishes c x there runs quiet ended =>
    exact was.moved (b := .finishing c) found (running_update (f := Campaign.leaveRunning d.now .finished) (fun x h => by cases h))
      (List.length_modify ..) rfl rfl (.inl rfl) known
  | takes c x there lane left roots skipped k next =>
    obtain ⟨b, moved, -, calm, shape⟩ := Deck.skips_moves (d.update c (Campaign.take roots k)) i c roots k skipped
    rw [moved]
    refine was.moved (b := b) found (running_update (f := Campaign.take roots k) (fun _ h => h)) (List.length_modify ..) rfl
      calm (.inl rfl) ?_
    rcases shape with ⟨rfl, -⟩ | ⟨j, rest, rfl, -⟩ | ⟨k', rfl, -⟩
    · simp [At.campaign]
    · exact known
    · exact known
  | skips c rest k x there =>
    obtain ⟨b, moved, -, calm, shape⟩ := Deck.skips_moves d i c x.roots k rest
    rw [moved]
    refine was.moved (b := b) found (fun _ h => h) rfl rfl calm (.inl rfl) ?_
    rcases shape with ⟨rfl, -⟩ | ⟨j, rest', rfl, -⟩ | ⟨k', rfl, -⟩
    · simp [At.campaign]
    · exact known
    · exact known
  | settles c k next outcome x there calm =>
    exact was.moved (b := .top) found (running_update (f := Campaign.settle k next outcome) (fun _ h => h))
      (List.length_modify ..) rfl rfl (.inl rfl) (by simp [At.campaign])
  | pauses c k next x there runs =>
    refine was.moved (b := .pausing c) found (fun c' h => ?_) ?_ rfl rfl (.inl rfl) known
    · exact running_update (f := Campaign.settle k next "recorder-error") (fun _ h => h) c'
        (running_update (d := d.update c (Campaign.settle k next "recorder-error"))
          (f := Campaign.leaveRunning d.now .paused) (fun x h => by cases h) c' h)
    · simp

theorem Deck.Moves.promotion {l : Label} {w : List Write} (moves : d.Moves l d' w) (calm : l.Calm)
    (was : d.Promotion) : d'.Promotion := by
  -- a command moves no lane and starts no campaign
  have command : ∀ e : Deck, (∀ c, e.Running c → d.Running c) → d.campaigns.length ≤ e.campaigns.length →
      e.lanes = d.lanes → e.promoting = d.promoting → e.Promotion := by
    intro e runs size lanes promoting
    refine was.kept runs (fun j b found => ?_) (fun j b _ _ raised => promoting ▸ raised)
    rw [lanes] at found
    exact ⟨fun c h => lt_of_lt_of_le (was.named j b c found h) size, fun promotes => ⟨b, found, promotes, id⟩⟩
  cases moves with
  | goes i a found d' w goes => exact goes.promotion was found
  | throws => cases calm
  | checks i c k s found x there =>
    exact was.moved (b := .recording c k _) found (fun c h => h) rfl rfl rfl (.inl rfl)
      (fun c' => was.named i (.recording c k s) c' found)
  | ends i c k s found x there =>
    exact was.moved (b := .recorded c k _ _) found (fun c h => h) rfl rfl rfl (.inl rfl)
      (fun c' => was.named i (.recording c k s) c' found)
  | analyzed i c k stopping operatorCancel outcome found x r there root =>
    exact was.moved (b := .settling c k _ outcome) found (fun c h => h) rfl rfl rfl (.inl rfl)
      (fun c' => was.named i (.recorded c k stopping operatorCancel) c' found)
  | passes => exact command _ (fun _ h => h) le_rfl rfl rfl
  | stops => exact command _ (fun _ h => h) le_rfl rfl rfl
  | creates id policy priority created manifest roots accepted =>
    refine command _ (fun c h => ?_) (by simp) rfl rfl
    obtain ⟨x, there, runs⟩ := h
    rcases append_some there with old | ⟨-, rfl⟩
    · exact ⟨x, old, runs⟩
    · cases runs
  | pauses c x there h =>
    exact command _ (running_update (f := Campaign.leaveRunning d.now .paused) (fun x h => by cases h)) (by simp) rfl rfl
  | resumes c x there h =>
    exact command _ (running_update (f := fun x => { x with state := .queued }) (fun x h => by cases h)) (by simp) rfl rfl
  | cancels c x there h =>
    exact command _ (running_update (f := Campaign.leaveRunning d.now .cancelled) (fun x h => by cases h)) (by simp) rfl rfl
  | ranks c p x there =>
    exact command _ (running_update (f := fun x => { x with priority := p }) (fun x h => h)) (by simp) rfl rfl
  | flags c accepted =>
    refine was.kept (fun _ h => h) (fun j b found => ?_) (fun _ _ _ _ raised => raised)
    obtain ⟨a, old, rfl⟩ := by simpa using found
    rw [flagged_campaign, flagged_promotes]
    exact ⟨fun c' => was.named j a c' old, fun promotes => ⟨a, old, promotes, fun h => by cases a <;> first | rfl | cases h⟩⟩

end Campaigns
