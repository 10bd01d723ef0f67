import Nanofil.Campaign.Catalog

/-! The budget is charged for the time a campaign runs. -/
namespace Campaigns
open List Option

/-- What a row of `campaigns` says of the running time. -/
def Campaign.account (x : Campaign) : CampaignState × Int := (x.state, x.used)

def Entry.account (e : Entry) : CampaignState × Int := (e.state, e.used)

def Write.onAccounts (accounts : List (CampaignState × Int)) : Write → List (CampaignState × Int)
  | .insertCampaign c => accounts ++ [c.account]
  | .updateCampaign c state used => accounts.modify c (fun a => (state, used.getD a.2))
  | _ => accounts

variable {i : Nat} {d d' : Deck} {x : Campaign} {a : At} {l : Label} {catalog : List Entry}

theorem map_modify {α β : Type} {xs : List α} {f : α → α} {g : α → β} {h : β → β}
    (same : ∀ x, xs[i]? = some x → g (f x) = h (g x)) : (xs.modify i f).map g = (xs.map g).modify i h := by
  refine ext_getElem? (fun j => ?_)
  rw [getElem?_map, getElem?_modify, getElem?_modify, getElem?_map]
  by_cases here : i = j
  · subst here
    cases found : xs[i]? with
    | none => rfl
    | some x => simp [same x found]
  · simp [here]

theorem map_modify_same {α β : Type} {xs : List α} {f : α → α} {g : α → β} (same : ∀ x, g (f x) = g x) :
    (xs.modify i f).map g = xs.map g := by
  rw [map_modify (h := id) (fun x _ => same x), modify_id]

theorem apply_accounts (catalog : List Entry) (w : Write) :
    (w.apply catalog).map Entry.account = w.onAccounts (catalog.map Entry.account) := by
  cases w with
  | insertCampaign c => simp [Write.apply, Write.onAccounts, Campaign.entry, Entry.account, Campaign.account]
  | updateCampaign c state used => exact map_modify (fun _ _ => rfl)
  | updatePriority c p => exact map_modify_same (fun _ => rfl)
  | insertAttempt c k attempt outcome => exact map_modify_same (fun _ => rfl)
  | setRootState c k state => exact map_modify_same (fun _ => rfl)
  | finishAttempt c k attempt outcome settles => exact map_modify_same (fun _ => rfl)

/-- Writes that do not touch accounts. -/
def Write.Aside : Write → Prop
  | .insertCampaign _ | .updateCampaign .. => False
  | _ => True

variable {ws : List Write}

theorem aside_accounts (aside : ∀ w ∈ ws, w.Aside) (accounts : List (CampaignState × Int)) :
    ws.foldl Write.onAccounts accounts = accounts := by
  induction ws with
  | nil => rfl
  | cons w ws ih =>
    have first : w.onAccounts accounts = accounts := by
      have h := aside w (mem_cons_self ..)
      cases w <;> first | rfl | cases h
    rw [foldl_cons, first]
    exact ih (fun w member => aside w (mem_cons_of_mem _ member))

theorem skips_aside (d : Deck) (i c : Nat) (roots : List Root) (k : Option Nat) (skipped : List Nat) :
    ∀ w ∈ (d.skips i c roots k skipped).2, w.Aside := by
  cases skipped with
  | cons j rest =>
    intro w member
    simp only [Deck.skips, skipWrites, mem_cons, not_mem_nil, or_false] at member
    rcases member with rfl | rfl <;> trivial
  | nil =>
    cases k <;> simp [Deck.skips]

/-- A campaign that stops running keeps in the catalog the time that it ran. -/
theorem Deck.leaves_account {c : Nat} (state : CampaignState) (there : d.campaigns[c]? = some x) :
    (d.campaigns.map Campaign.account).modify c (fun a => (state, (some (x.ran d.now)).getD a.2)) =
      (d.campaigns.modify c (Campaign.leaveRunning d.now state)).map Campaign.account := by
  refine (map_modify (fun y found => ?_)).symm
  obtain rfl := Option.some.inj (there.symm.trans found)
  rfl

/-- The writes of a step carry the accounts of the memory over to the catalog. -/
theorem Deck.Goes.accounts (goes : d.Goes i a d' ws) :
    ws.foldl Write.onAccounts (d.campaigns.map Campaign.account) = d'.campaigns.map Campaign.account := by
  cases goes with
  | promotes c x there queued => exact Eq.symm (map_modify (fun _ _ => by rfl))
  | finishes c x there runs quiet ended => exact Deck.leaves_account .finished there
  | takes c x there lane left roots skipped k next =>
    rw [aside_accounts (skips_aside _ _ _ _ _ _)]
    obtain ⟨b, moved, -⟩ := Deck.skips_moves (d.update c (Campaign.take roots k)) i c roots k skipped
    rw [moved]
    exact Eq.symm (map_modify_same (fun _ => by rfl))
  | skips c rest k x there =>
    rw [aside_accounts (skips_aside _ _ _ _ _ _)]
    obtain ⟨b, moved, -⟩ := Deck.skips_moves d i c x.roots k rest
    rw [moved]
    rfl
  | claims => rfl
  | settles c k next outcome x there calm => exact Eq.symm (map_modify_same (fun _ => by rfl))
  | pauses c k next x there runs =>
    refine (Deck.leaves_account .paused there).trans ?_
    simp only [Deck.move_campaigns, Deck.update_campaigns]
    rw [modify_modify_eq, map_modify (h := fun a => (.paused, x.ran d.now)), map_modify (h := fun a => (.paused, x.ran d.now))]
    · intro y found
      obtain rfl := Option.some.inj (there.symm.trans found)
      rfl
    · intro y found
      obtain rfl := Option.some.inj (there.symm.trans found)
      rfl
  | _ => rfl

theorem Deck.Moves.accounts (moves : d.Moves l d' ws) :
    ws.foldl Write.onAccounts (d.campaigns.map Campaign.account) = d'.campaigns.map Campaign.account := by
  cases moves with
  | goes i a found d' ws goes => exact goes.accounts
  | throws i a found d' throws =>
    obtain ⟨b, -, -, -, -, -, same | ⟨c, k, -, camps⟩⟩ := Deck.throws_cases throws
    · rw [same]; rfl
    · rw [camps]
      exact Eq.symm (map_modify_same (fun _ => by rfl))
  | creates => simp [Write.onAccounts]
  | pauses c x there h => exact Deck.leaves_account .paused there
  | cancels c x there h => exact Deck.leaves_account .cancelled there
  | resumes c x there h => exact Eq.symm (map_modify (fun _ _ => by rfl))
  | ranks c p x there => exact Eq.symm (map_modify_same (fun _ => by rfl))
  | _ => rfl

/-! ### The account in memory -/

def Label.creates : Label → Bool
  | .command (.create ..) => true
  | _ => false

def Label.time : Label → Int
  | .passes time => time
  | _ => 0

theorem Deck.Goes.size (goes : d.Goes i a d' ws) : d'.campaigns.length = d.campaigns.length := by
  cases goes with
  | takes c x there lane left roots skipped k next =>
    obtain ⟨b, moved, -⟩ := Deck.skips_moves (d.update c (Campaign.take roots k)) i c roots k skipped
    rw [moved]
    exact length_modify ..
  | skips c rest k x there =>
    obtain ⟨b, moved, -⟩ := Deck.skips_moves d i c x.roots k rest
    rw [moved]
    rfl
  | _ => simp

theorem Deck.Moves.size (moves : d.Moves l d' ws) (old : l.creates = false) : d'.campaigns.length = d.campaigns.length := by
  cases moves with
  | goes i a found d' ws goes => exact goes.size
  | throws i a found d' throws =>
    obtain ⟨b, -, -, -, -, -, same | ⟨c, k, -, camps⟩⟩ := Deck.throws_cases throws
    · rw [same]
    · rw [camps, length_modify]
  | creates => cases old
  | pauses | cancels | resumes | ranks => exact length_modify ..
  | _ => rfl

/-- The account of a deck: a campaign runs exactly when its interval is open, and what it ran is known. -/
structure Deck.Charged (d : Deck) (total : List Int) : Prop where
  clock : 0 < d.now
  still : ∀ (c : Nat) x, d.campaigns[c]? = some x → (x.state = .running ↔ x.runningSince ≠ 0)
  total : d.campaigns.map (Campaign.ran d.now) = total

theorem Campaign.Turn.running_iff {now : Int} {x' : Campaign} (turn : x.Turn now x') (clock : 0 < now)
    (still : x.state = .running ↔ x.runningSince ≠ 0) : x'.state = .running ↔ x'.runningSince ≠ 0 := by
  obtain ⟨-, ⟨-, since, state⟩ | ⟨-, since, state⟩ | ⟨-, since, -, state⟩⟩ := turn
  · rw [state, since, still]
  · simp [state, since]
  · simp only [state, since, true_iff]
    omega

theorem ran_passes (still : x.state = .running ↔ x.runningSince ≠ 0) (now : Int) (time : Nat) :
    x.ran (now + time) = if x.state = .running then x.ran now + time else x.ran now := by
  by_cases runs : x.state = .running
  · rw [if_pos runs, Campaign.ran, Campaign.ran, if_neg (still.1 runs), if_neg (still.1 runs)]
    omega
  · have since : x.runningSince = 0 := by
      by_contra other
      exact runs (still.2 other)
    rw [if_neg runs, Campaign.ran, Campaign.ran, if_pos since, if_pos since]

theorem Deck.Charged.passes {d : Deck} {total : List Int} (charged : d.Charged total) (time : Nat) :
    Deck.Charged { d with now := d.now + time } (Campaigns.charged time total d.campaigns) := by
  refine ⟨by have := charged.clock; simp only; omega, charged.still, ?_⟩
  refine ext_getElem? (fun c => ?_)
  rw [getElem?_map, Campaigns.charged, getElem?_mapIdx, ← charged.total, getElem?_map]
  cases there : d.campaigns[c]? with
  | none => rfl
  | some x =>
    simp only [map_some, any_some, decide_eq_true_eq]
    rw [ran_passes (charged.still c x there)]

/-- A step that neither lets time pass nor adds a campaign charges nothing. -/
theorem Deck.Moves.charged (moves : d.Moves l d' ws) (old : l.creates = false)
    (timeless : d'.now = d.now) {total : List Int} (charged : d.Charged total) : d'.Charged total := by
  have turns := moves.turns
  have size := moves.size old
  have before : ∀ (c : Nat) x', d'.campaigns[c]? = some x' → ∃ x, d.campaigns[c]? = some x ∧ x.Turn d.now x' := by
    intro c x' there'
    have bound := (List.getElem?_eq_some_iff.1 there').1
    have there := getElem?_eq_getElem (l := d.campaigns) (i := c) (by omega)
    obtain ⟨y, found, turn, -⟩ := turns.old c _ there
    obtain rfl := Option.some.inj (found.symm.trans there')
    exact ⟨_, there, turn⟩
  refine ⟨timeless ▸ charged.clock, fun c x' there' => ?_, ?_⟩
  · obtain ⟨x, there, turn⟩ := before c x' there'
    exact turn.running_iff charged.clock (charged.still c x there)
  · rw [← charged.total]
    refine ext_getElem? (fun c => ?_)
    rw [getElem?_map, getElem?_map]
    cases there' : d'.campaigns[c]? with
    | none =>
      have short := List.getElem?_eq_none_iff.1 there'
      rw [getElem?_eq_none (by omega)]
      rfl
    | some x' =>
      obtain ⟨x, there, turn⟩ := before c x' there'
      rw [there, map_some, map_some, timeless, turn.ran]
      intro stopped
      by_contra other
      exact stopped ((charged.still c x there).2 other)

/-! ### The account over the life of the service -/

/-- Writes to the account of a campaign that exists. -/
def Write.Within (size : Nat) : Write → Prop
  | .insertCampaign _ => False
  | .updateCampaign c .. => c < size
  | _ => True

variable {w : Write}

theorem Write.Aside.within (aside : w.Aside) (size : Nat) : w.Within size := by
  cases w <;> trivial

theorem Deck.Goes.within (goes : d.Goes i a d' ws) : ∀ w ∈ ws, w.Within d.campaigns.length := by
  cases goes with
  | promotes c x there | finishes c x there | pauses c k next x there =>
    intro w member
    rw [mem_singleton.1 member]
    exact (List.getElem?_eq_some_iff.1 there).1
  | takes => exact fun w member => (skips_aside _ _ _ _ _ _ w member).within _
  | skips => exact fun w member => (skips_aside _ _ _ _ _ _ w member).within _
  | claims =>
    intro w member
    simp only [mem_cons, not_mem_nil, or_false] at member
    rcases member with rfl | rfl <;> trivial
  | _ => simp

theorem Deck.Moves.within (moves : d.Moves l d' ws) (old : l.creates = false) : ∀ w ∈ ws, w.Within d.campaigns.length := by
  cases moves with
  | goes i a found d' ws goes => exact goes.within
  | creates => cases old
  | pauses c x there | resumes c x there | cancels c x there =>
    intro w member
    rw [mem_singleton.1 member]
    exact (List.getElem?_eq_some_iff.1 there).1
  | ranks c p x there =>
    intro w member
    rw [mem_singleton.1 member]
    trivial
  | analyzed =>
    intro w member
    simp only [mem_cons, not_mem_nil, or_false] at member
    rcases member with rfl | rfl <;> trivial
  | _ => simp

theorem within_append {accounts : List (CampaignState × Int)} (new : CampaignState × Int) (within : w.Within accounts.length) :
    w.onAccounts (accounts ++ [new]) = w.onAccounts accounts ++ [new] ∧
      (w.onAccounts accounts).length = accounts.length := by
  cases w with
  | insertCampaign => cases within
  | updateCampaign c state used =>
    refine ⟨?_, length_modify ..⟩
    obtain ⟨a, found⟩ : ∃ a, accounts[c]? = some a := ⟨_, getElem?_eq_getElem within⟩
    simp only [Write.onAccounts]
    rw [modify_eq_set (append_old found new), modify_eq_set found, set_append_left _ _ within]
  | _ => exact ⟨rfl, rfl⟩

theorem foldl_within_append {accounts : List (CampaignState × Int)} (new : CampaignState × Int)
    (within : ∀ w ∈ ws, w.Within accounts.length) :
    ws.foldl Write.onAccounts (accounts ++ [new]) = ws.foldl Write.onAccounts accounts ++ [new] := by
  induction ws generalizing accounts with
  | nil => rfl
  | cons w ws ih =>
    obtain ⟨first, length⟩ := within_append new (within w (mem_cons_self ..))
    rw [foldl_cons, foldl_cons, first]
    exact ih (fun w member => length ▸ within w (mem_cons_of_mem _ member))

/-- The memory has the account, and the queued writes carry it to the catalog; while the service
is down the catalog has it. -/
structure Service.Accounted (s : Service) : Prop where
  up : ∀ d, s.deck = some d → d.Charged s.total ∧ d.campaigns.length = s.catalog.length ∧
    (∀ p ∈ s.queue, p.2.Within s.catalog.length) ∧
    (s.queue.map Prod.snd).foldl Write.onAccounts (s.catalog.map Entry.account) = d.campaigns.map Campaign.account
  down : s.deck = none → s.queue = [] ∧ s.total = s.catalog.map Entry.used

/-- No write fails, and the service is not stopped by a signal while a campaign runs. -/
def Service.Charges (s : Service) : Event → Prop
  | .fails => False
  | .exits => ∀ d, s.deck = some d → ∀ (c : Nat) (x : Campaign), d.campaigns[c]? = some x → x.state ≠ .running
  | _ => True

theorem foldl_accounts_append (queue : List (Option Nat × Write)) (ws : List (Option Nat × Write))
    (accounts : List (CampaignState × Int)) :
    ((queue ++ ws).map Prod.snd).foldl Write.onAccounts accounts =
      (ws.map Prod.snd).foldl Write.onAccounts ((queue.map Prod.snd).foldl Write.onAccounts accounts) := by
  rw [map_append, foldl_append]

theorem used_of_account {campaigns : List Campaign} (same : catalog.map Entry.account = campaigns.map Campaign.account) :
    catalog.map Entry.used = campaigns.map Campaign.used := by
  have second := congrArg (List.map Prod.snd) same
  rw [List.map_map, List.map_map] at second
  exact second

theorem setRoot_account (d : Deck) (c k : Nat) (f : Root → Root) {total : List Int} (charged : d.Charged total) :
    (d.setRoot c k f).Charged total ∧
      (d.setRoot c k f).campaigns.map Campaign.account = d.campaigns.map Campaign.account := by
  refine ⟨⟨charged.clock, fun c' x there => ?_, ?_⟩, map_modify_same (fun _ => rfl)⟩
  · obtain ⟨y, found, ⟨rfl, -⟩ | ⟨rfl, -⟩⟩ := modify_some there
    · exact charged.still c' _ found
    · exact charged.still c' y found
  · rw [← charged.total]
    exact map_modify_same (fun _ => rfl)

variable {s s' : Service}

theorem Service.Accounted.works (was : s.Accounted) (up : s.deck = some d) (works : s.works d l = some s') : s'.Accounted := by
  obtain ⟨charged, size, within, mirrored⟩ := was.up d up
  unfold Service.works at works
  split_ifs at works with free
  obtain ⟨⟨d', ws⟩, step, out⟩ := map_eq_some_iff.1 works
  have moves := Deck.step_cases step
  have accounts := moves.accounts
  -- the usual step: its writes join the queue
  have queued : l.creates = false → d'.now = d.now →
      Service.Accounted { s with deck := some d', queue := s.queue ++ ws.map (fun w => (l.acts, w)) } := by
    intro old timeless
    refine ⟨fun e same => ?_, fun none_ => by cases none_⟩
    cases same
    refine ⟨moves.charged old timeless charged, (moves.size old).trans size, fun p member => ?_, ?_⟩
    · rcases mem_append.1 member with there | new
      · exact within p there
      · obtain ⟨w, there, rfl⟩ := List.mem_map.1 new
        exact size ▸ moves.within old w there
    · rw [foldl_accounts_append, mirrored, List.map_map]
      simpa [Function.comp_def] using accounts
  cases moves with
  | passes time =>
    cases out
    refine ⟨fun e same => ?_, fun none_ => by cases none_⟩
    cases same
    exact ⟨charged.passes time, size, within, mirrored⟩
  | creates id policy priority created manifest roots accepted =>
    cases out
    refine ⟨fun e same => ?_, fun none_ => by cases none_⟩
    cases same
    have length : ([Write.insertCampaign ⟨id, policy, .queued, priority, created, 0, 0, roots, 0⟩].foldl Write.apply
        s.catalog).length = s.catalog.length + 1 := by simp [Write.apply]
    refine ⟨⟨charged.clock, fun c x there => ?_, ?_⟩, ?_, fun p member => ?_, ?_⟩
    · rcases append_some there with old | ⟨-, rfl⟩
      · exact charged.still c x old
      · simp
    · simp [charged.total, Campaign.ran]
    · rw [length]
      simp [size]
    · have old := within p member
      rw [length]
      revert old
      cases p.2 with
      | updateCampaign c state used => exact fun (old : c < s.catalog.length) => Nat.lt_succ_of_lt old
      | _ => exact fun old => old
    · have here : ∀ w ∈ s.queue.map Prod.snd, w.Within (s.catalog.map Entry.account).length := by
        intro w member
        obtain ⟨p, there, rfl⟩ := List.mem_map.1 member
        rw [length_map]
        exact within p there
      simp only [foldl_cons, foldl_nil, apply_accounts, Write.onAccounts, map_append, map_cons, map_nil]
      rw [foldl_within_append _ here, mirrored]
  | goes i a found d' ws goes =>
    cases out
    exact queued rfl goes.lane.2.1
  | throws i a found d' throws =>
    cases out
    obtain ⟨b, -, -, now, -⟩ := Deck.throws_cases throws
    exact queued rfl now
  | _ =>
    cases out
    exact queued rfl rfl

theorem apply_length (within : w.Within catalog.length) : (w.apply catalog).length = catalog.length := by
  cases w with
  | insertCampaign => cases within
  | _ => exact length_modify ..

theorem Service.Accounted.commits {o : Option Nat} {queue : List (Option Nat × Write)}
    (was : s.Accounted) (head : s.queue = (o, w) :: queue) :
    Service.Accounted { s with catalog := w.apply s.catalog, queue := queue } := by
  refine ⟨fun d up => ?_, fun down => ?_⟩
  · obtain ⟨charged, size, within, mirrored⟩ := was.up d up
    have first : w.Within s.catalog.length := within (o, w) (head ▸ mem_cons_self ..)
    rw [head] at mirrored
    refine ⟨charged, size.trans (apply_length first).symm, fun p member => ?_, ?_⟩
    · rw [apply_length first]
      exact within p (head ▸ mem_cons_of_mem _ member)
    · rw [apply_accounts]
      exact mirrored
  · have empty := (was.down down).1
    simp [head] at empty

/-- What a restore does is aside from the accounts. -/
theorem Service.Accounted.restores {outcome : Option String} (was : s.Accounted)
    (up : s.deck = some d) (restores : s.restores d outcome = some s') : s'.Accounted := by
  obtain ⟨charged, size, within, mirrored⟩ := was.up d up
  have aside : ∀ (d' : Deck) (todo : List Task) (ws : List (Option Nat × Write)),
      (d'.Charged s.total ∧ d'.campaigns.map Campaign.account = d.campaigns.map Campaign.account) →
      (∀ p ∈ ws, p.2.Aside) →
      Service.Accounted { s with deck := some d', todo := todo, queue := s.queue ++ ws } := by
    intro d' todo ws same asides
    refine ⟨fun e now => ?_, fun none_ => by cases none_⟩
    cases now
    refine ⟨same.1, ?_, fun p member => ?_, ?_⟩
    · have lengths := congrArg List.length same.2
      simpa [size] using lengths
    · rcases mem_append.1 member with there | new
      · exact within p there
      · exact (asides p new).within _
    · rw [foldl_accounts_append, mirrored, same.2]
      refine aside_accounts (fun w member => ?_) _
      obtain ⟨p, there, rfl⟩ := List.mem_map.1 member
      exact asides p there
  unfold Service.restores at restores
  split at restores
  · rename_i c k attempt todo pending
    cases restores
    refine aside _ todo _ (setRoot_account d c k _ charged) (fun p member => ?_)
    simp only [mem_cons, not_mem_nil, or_false] at member
    rcases member with rfl | rfl <;> trivial
  · rename_i c k todo pending
    cases restores
    refine aside _ todo _ ?_ (fun p member => ?_)
    · split_ifs
      · exact setRoot_account d c k _ charged
      · exact ⟨charged, rfl⟩
    · split_ifs at member
      · rw [mem_singleton.1 member]
        trivial
      · cases member
  · cases restores

theorem load_charged {now : Int} (clock : 0 < now) :
    Deck.Charged ⟨now, false, false, catalog.map (Entry.load now), [], []⟩ (catalog.map Entry.used) := by
  refine ⟨clock, fun c x there => ?_, ?_⟩
  · obtain ⟨e, -, rfl⟩ : ∃ e, catalog[c]? = some e ∧ e.load now = x := by simpa using there
    by_cases runs : e.state = .running
    · simp only [Entry.load, runs, ite_true, true_iff]
      omega
    · simp [Entry.load, runs]
  · rw [List.map_map]
    refine map_congr_left (fun e _ => ?_)
    simp only [Function.comp_apply, Entry.load, Campaign.ran]
    split_ifs <;> omega

theorem Service.Accounted.step {s s' : Service} {e : Event} (was : s.Accounted) (charges : s.Charges e)
    (step : s.step e = some s') : s'.Accounted := by
  cases deck : s.deck with
  | none =>
    obtain ⟨empty, total⟩ := was.down deck
    cases e with
    | commits => simp [Service.step, empty] at step
    | boots now =>
      simp only [Service.step, deck] at step
      split_ifs at step with clock
      cases step
      refine ⟨fun d up => ?_, fun none_ => by cases none_⟩
      cases up
      refine ⟨total ▸ load_charged clock, length_map .., by simp [empty], ?_⟩
      simp only [empty, map_nil, foldl_nil, List.map_map]
      rfl
    | _ => simp [Service.step, deck] at step
  | some d =>
    obtain ⟨charged, size, within, mirrored⟩ := was.up d deck
    cases e with
    | works l =>
      simp only [Service.step, deck] at step
      exact was.works deck step
    | commits =>
      simp only [Service.step] at step
      split at step
      · rename_i o w queue head
        cases step
        exact was.commits head
      · cases step
    | fails => cases charges
    | crashes =>
      simp only [Service.step, deck] at step
      cases step
      exact ⟨fun d up => (by cases up), fun _ => ⟨rfl, rfl⟩⟩
    | exits =>
      simp only [Service.step, deck] at step
      split_ifs at step with done
      cases step
      refine ⟨fun d up => (by cases up), fun _ => ?_⟩
      simp only [Bool.and_eq_true, List.isEmpty_iff] at done
      have empty := done.1.1.2
      refine ⟨empty, ?_⟩
      rw [empty] at mirrored
      rw [used_of_account mirrored, ← charged.total]
      refine map_congr_left (fun x member => ?_)
      obtain ⟨c, there⟩ := mem_iff_getElem?.1 member
      have since : x.runningSince = 0 := by
        by_contra other
        exact charges d deck c x there ((charged.still c x there).2 other)
      rw [Campaign.ran, since, if_pos rfl]
      omega
    | boots now => simp [Service.step, deck] at step
    | restores outcome =>
      simp only [Service.step, deck] at step
      split_ifs at step
      exact was.restores deck step
    | starts =>
      simp only [Service.step, deck] at step
      split_ifs at step
      cases step
      refine ⟨fun d up => ?_, fun none_ => by cases none_⟩
      cases up
      exact ⟨⟨charged.clock, charged.still, charged.total⟩, size, within, mirrored⟩

theorem Service.Run.accounted (run : Service.Run Service.Charges s) : s.Accounted := by
  induction run with
  | start => exact ⟨fun d up => (by cases up), fun _ => ⟨rfl, rfl⟩⟩
  | step run charges step ih => exact ih.step charges step

/-! ### Claims and deadlines within the budget -/

/-- A lane that settles a root does not let it run. -/
def Deck.Settles (d : Deck) : Prop :=
  ∀ (i c k : Nat) (next : RootState) (outcome : String), d.lanes[i]? = some (.settling c k next outcome) → next ≠ .running

theorem nextState_ne (policy : Policy) (attempt : Nat) (stopping operatorCancel : Bool) (outcome : String) :
    nextState policy attempt stopping operatorCancel outcome ≠ .running := by
  unfold nextState
  split_ifs <;> simp

theorem Deck.Moves.settles (moves : d.Moves l d' ws) (was : d.Settles) : d'.Settles := by
  intro j c k next outcome found'
  have moved : ∀ (i : Nat) (a : At), (∀ c k next outcome, a = .settling c k next outcome → next ≠ .running) →
      (d.lanes.set i a)[j]? = some (.settling c k next outcome) → next ≠ .running := by
    intro i a new found
    rcases set_some found with ⟨-, same⟩ | ⟨-, old⟩
    · exact new c k next outcome same.symm
    · exact was j c k next outcome old
  cases moves with
  | goes i a found d' ws goes =>
    obtain ⟨-, -, -, b, lanes, decided⟩ := goes.lane
    rw [lanes] at found'
    refine moved i b (fun c k next outcome same => ?_) found'
    have h := decided d
    rw [same] at h
    rcases h with rfl | ⟨rfl, -⟩ <;> simp
  | throws i a found d' throws =>
    obtain ⟨b, lanes, -⟩ := Deck.throws_cases throws
    rcases set_some (lanes ▸ found') with ⟨-, same⟩ | ⟨-, old⟩
    · cases a with
      | claimed => cases Option.some.inj throws; exact moved i .sleeping (by simp) found'
      | requesting => obtain ⟨x, -, rfl⟩ := map_eq_some_iff.1 throws; exact moved i _ (by simp) found'
      | opening | promoted | finishing | skipping | inserting | settling | pausing =>
        cases Option.some.inj throws; exact moved i .sleeping (by simp) found'
      | _ => cases throws
    · exact was j c k next outcome old
  | checks i => exact moved i _ (by simp) found'
  | ends i => exact moved i _ (by simp) found'
  | analyzed i c' k' stopping operatorCancel o found x r there root =>
    refine moved i _ (fun c1 k1 next1 outcome1 same => ?_) found'
    cases same
    exact nextState_ne _ _ _ _ _
  | flags c' accepted =>
    obtain ⟨a, old, now⟩ : ∃ a, d.lanes[j]? = some a ∧ a.flagged c' = .settling c k next outcome := by simpa using found'
    cases a with
    | settling => cases now; exact was j c k next outcome old
    | _ => cases now
  | _ => exact was j c k next outcome found'

theorem Service.Run.settles {meets : Service → Event → Prop} (run : Service.Run meets s) (up : s.deck = some d) : d.Settles := by
  induction run generalizing d with
  | start => cases up
  | @step s s' e run h step ih =>
    cases deck : s.deck with
    | none =>
      cases e with
      | boots now =>
        simp only [Service.step, deck] at step
        split_ifs at step
        cases step
        cases up
        exact fun i c k next outcome found => by simp at found
      | commits =>
        simp only [Service.step] at step
        split at step
        · cases step
          exact ih up
        · cases step
      | _ => simp [Service.step, deck] at step
    | some d0 =>
      have before := ih deck
      cases e with
      | works l =>
        simp only [Service.step, deck, Service.works] at step
        split_ifs at step
        obtain ⟨⟨d1, ws⟩, moves, out⟩ := map_eq_some_iff.1 step
        have after := (Deck.step_cases moves).settles before
        split at out <;> (cases out; cases up; exact after)
      | commits =>
        simp only [Service.step] at step
        split at step
        · cases step
          exact ih up
        · cases step
      | fails =>
        simp only [Service.step, deck] at step
        split at step
        · obtain ⟨d1, throws, out⟩ := map_eq_some_iff.1 step
          obtain ⟨a, found, throws⟩ := bind_eq_some_iff.1 throws
          have after := (Deck.Moves.throws _ a found d1 throws).settles before
          cases out
          cases up
          exact after
        · split_ifs at step
          cases step
          cases up
          exact before
        · cases step
      | crashes =>
        simp only [Service.step, deck] at step
        cases step
        cases up
      | exits =>
        simp only [Service.step, deck] at step
        split_ifs at step
        cases step
        cases up
      | boots now => simp [Service.step, deck] at step
      | restores outcome =>
        simp only [Service.step, deck] at step
        split_ifs at step
        unfold Service.restores at step
        split at step
        · cases step
          cases up
          exact before
        · cases step
          cases up
          split_ifs <;> exact before
        · cases step
      | starts =>
        simp only [Service.step, deck] at step
        split_ifs at step
        cases step
        cases up
        intro i c k next outcome found
        cases eq_of_mem_replicate (mem_of_getElem? found)

/-- A root starts to run in a lane that has found budget left. -/
theorem Deck.Moves.claims_within (moves : d.Moves l d' ws)
    (settles : d.Settles) {c k : Nat} {x' : Campaign} {r r' : Root} (there : d.campaigns[c]? = some x)
    (there' : d'.campaigns[c]? = some x') (root : x.roots[k]? = some r) (root' : x'.roots[k]? = some r')
    (pending : r.state = .pending) (runs : r'.state = .running) : x.ran d.now < x.limit := by
  have unchanged : x'.roots = x.roots → x.ran d.now < x.limit := fun same => by
    obtain rfl := Option.some.inj (root.symm.trans (same ▸ root'))
    exact absurd runs (by simp [pending])
  have aside : ∀ (c' : Nat) (f : Campaign → Campaign), d'.campaigns = d.campaigns.modify c' f → (∀ x, (f x).roots = x.roots) →
      x.ran d.now < x.limit := by
    intro c' f camps keeps
    obtain ⟨y, found, ⟨rfl, -⟩ | ⟨rfl, -⟩⟩ := modify_some (camps ▸ there')
    · exact unchanged (by rw [Option.some.inj (there.symm.trans found)])
    · exact unchanged (by rw [keeps, Option.some.inj (there.symm.trans found)])
  have settled : ∀ (c' j : Nat) (g : Root → Root) (f : Campaign → Campaign), d'.campaigns = d.campaigns.modify c' f →
      (∀ x, (f x).roots = x.roots.modify j g) → (∀ q, (g q).state ≠ .running) → x.ran d.now < x.limit := by
    intro c' j g f camps roots other
    obtain ⟨y, found, ⟨rfl, -⟩ | ⟨rfl, -⟩⟩ := modify_some (camps ▸ there')
    · exact unchanged (by rw [Option.some.inj (there.symm.trans found)])
    · obtain rfl := Option.some.inj (there.symm.trans found)
      rw [roots] at root'
      obtain ⟨q, found1, ⟨rfl, -⟩ | ⟨rfl, -⟩⟩ := modify_some root'
      · obtain rfl := Option.some.inj (root.symm.trans found1)
        exact absurd runs (by simp [pending])
      · exact absurd runs (other q)
  cases moves with
  | goes i a found d' ws goes =>
    cases goes with
    | promotes c' => exact aside c' (Campaign.start d.now) rfl (fun _ => rfl)
    | finishes c' => exact aside c' (Campaign.leaveRunning d.now .finished) rfl (fun _ => rfl)
    | takes c' y there1 lane left roots skipped k' next =>
      obtain ⟨b, moved, -⟩ := Deck.skips_moves (d.update c' (Campaign.take roots k')) i c' roots k' skipped
      rw [moved] at there'
      obtain ⟨z, found1, ⟨rfl, -⟩ | ⟨rfl, rfl⟩⟩ := modify_some there'
      · exact unchanged (by rw [Option.some.inj (there.symm.trans found1)])
      · obtain rfl := Option.some.inj (there.symm.trans there1)
        simpa [Campaign.budgetExhausted] using left
    | skips c' rest k' y there1 =>
      obtain ⟨b, moved, -⟩ := Deck.skips_moves d i c' y.roots k' rest
      rw [moved] at there'
      exact unchanged (by rw [Option.some.inj (there.symm.trans there')])
    | settles c' j next outcome y there1 calm =>
      exact settled c' j _ (Campaign.settle j next outcome) rfl (fun _ => rfl) (fun _ => settles i c' j next outcome found)
    | pauses c' j next y there1 runs1 =>
      refine settled c' j _ (fun x => (x.settle j next "recorder-error").leaveRunning d.now .paused) ?_ (fun _ => rfl)
        (fun _ => settles i c' j next _ found)
      simp only [Deck.move_campaigns, Deck.update_campaigns, modify_modify_eq]
      rfl
    | _ => exact unchanged (by rw [Option.some.inj (there.symm.trans there')])
  | throws i a found d' throws =>
    obtain ⟨b, -, -, -, -, -, same | ⟨c', j, -, camps⟩⟩ := Deck.throws_cases throws
    · exact unchanged (by rw [Option.some.inj (there.symm.trans (same ▸ there'))])
    · exact settled c' j _ _ camps (fun _ => rfl) (fun _ => by simp)
  | creates => exact unchanged (by rw [Option.some.inj ((append_old there _).symm.trans there')])
  | pauses c' => exact aside c' (Campaign.leaveRunning d.now .paused) rfl (fun _ => rfl)
  | resumes c' => exact aside c' (fun x => { x with state := .queued }) rfl (fun _ => rfl)
  | cancels c' => exact aside c' (Campaign.leaveRunning d.now .cancelled) rfl (fun _ => rfl)
  | ranks c' p => exact aside c' (fun x => { x with priority := p }) rfl (fun _ => rfl)
  | _ => exact unchanged (by rw [Option.some.inj (there.symm.trans there')])

/-- In a service that is not stopped while a campaign runs, a campaign's account is the time it ran,
no root is claimed once the budget is used, and a root that is started while its campaign runs has a
deadline within the budget. -/
theorem budget_charged {s : Service} (run : Service.Run Service.Charges s) {d : Deck} (up : s.deck = some d) :
    (∀ (c : Nat) (x : Campaign), d.campaigns[c]? = some x → s.total[c]? = some (x.ran d.now)) ∧
    (∀ (l : Label) (d' : Deck) (ws : List Write) (c k : Nat) (x x' : Campaign) (r r' : Root),
      d.step l = some (d', ws) → d.campaigns[c]? = some x → d'.campaigns[c]? = some x' → x.roots[k]? = some r →
      x'.roots[k]? = some r' → r.state = .pending → r'.state = .running → x.ran d.now < x.limit) ∧
    ∀ (i c k : Nat) (x : Campaign) (d' : Deck) (ws : List Write), d.lanes[i]? = some (.inserting c k) →
      d.campaigns[c]? = some x → x.state = .running → d.step (.goes i) = some (d', ws) →
      ∃ q, d'.lanes[i]? = some (.requesting c k q) ∧ q.deadline x.policy - d.now ≤ x.limit - x.ran d.now := by
  obtain ⟨charged, -⟩ := run.accounted.up d up
  refine ⟨fun c x there => ?_, fun l d' ws c k x x' r r' step there there' root root' => ?_, ?_⟩
  · rw [← charged.total, getElem?_map, there]
    rfl
  · exact (Deck.step_cases step).claims_within (run.settles up) there there' root root'
  · intro i c k x d' ws found there runs step
    simp only [Deck.step, found, bind_some, Deck.goes, there, map_some, Option.some.injEq, Prod.mk.injEq] at step
    obtain ⟨rfl, -⟩ := step
    refine ⟨_, set_at found _, ?_⟩
    have since := (charged.still c x there).1 runs
    have least : Session.deadline x.policy ⟨x.runningSince, x.used, d.now, false, none⟩ ≤
        x.runningSince + (x.policy.budget * second - x.used) := min_le_left ..
    rw [Campaign.limit, Campaign.ran, if_neg since]
    omega

/-! ### A stop loses the running time -/

def Service.plays (s : Service) : List Event → Option Service
  | [] => some s
  | e :: es => (s.step e).bind (fun s' => s'.plays es)

theorem Service.plays_run {meets : Service → Event → Prop} {es : List Event} (run : Service.Run meets s)
    (all : ∀ s e, e ∈ es → meets s e) (played : s.plays es = some s') : Service.Run meets s' := by
  induction es generalizing s with
  | nil => exact Option.some.inj played ▸ run
  | cons e es ih =>
    obtain ⟨mid, step, rest⟩ := bind_eq_some_iff.1 played
    exact ih (run.step (all s e (mem_cons_self ..)) step) (fun s e member => all s e (mem_cons_of_mem _ member)) rest

def secondPolicy : Policy := ⟨1, 60, 60, 1, minutePolicy.lanes, minutePolicy.budgeted, minutePolicy.budgeted, minutePolicy.retries⟩

/-- Lane 1 promotes a campaign that only lane 0 may work for. -/
def promoting : List Event :=
  [.boots 1, .starts, .works (.command (.create "c" secondPolicy 0 0 [⟨"a", "/a.drv", []⟩])), .works (.goes 1),
    .works (.goes 1), .commits, .works (.goes 1), .works (.goes 1), .works (.goes 1)]

/-- After five seconds the service is stopped, and started again. -/
def stopped : List Event :=
  promoting ++ [.works (.passes 5000000000), .works .stops, .works (.goes 1)] ++
    (List.range 32).map (fun i => .works (.goes i)) ++ [.exits, .boots 1]

theorem budget_lost : ∃ s d x, Service.Run (fun _ e => e ≠ .fails) s ∧ s.deck = some d ∧ d.campaigns[0]? = some x ∧
    s.total[0]? = some 5000000000 ∧ x.ran d.now = 0 := by
  obtain ⟨s, d, x, played, up, there, total, used, since⟩ : ∃ s d x, Service.initial.plays stopped = some s ∧ s.deck = some d ∧
      d.campaigns[0]? = some x ∧ s.total[0]? = some 5000000000 ∧ x.used = 0 ∧ x.runningSince = d.now :=
    ⟨_, _, _, rfl, rfl, rfl, rfl, rfl, rfl⟩
  refine ⟨s, d, x, Service.plays_run .start (fun s e member => ?_) played, up, there, total, ?_⟩
  · rintro rfl
    simp [stopped, promoting] at member
  · rw [Campaign.ran, used, since]
    split_ifs <;> omega

/-- A campaign that runs for five seconds is charged five seconds. -/
theorem budget_charged_five : ∃ s d x, Service.Run Service.Charges s ∧ s.deck = some d ∧ d.campaigns[0]? = some x ∧
    s.total[0]? = some 5000000000 ∧ s.total[0]? = some (x.ran d.now) := by
  obtain ⟨s, d, x, played, up, there, total⟩ : ∃ s d x,
      Service.initial.plays (promoting ++ [.works (.passes 5000000000)]) = some s ∧ s.deck = some d ∧
      d.campaigns[0]? = some x ∧ s.total[0]? = some 5000000000 := ⟨_, _, _, rfl, rfl, rfl, rfl⟩
  have run : Service.Run Service.Charges s := by
    refine Service.plays_run .start (fun s e member => ?_) played
    simp only [promoting, cons_append, nil_append, mem_cons, not_mem_nil, or_false] at member
    rcases member with rfl | rfl | rfl | rfl | rfl | rfl | rfl | rfl | rfl | rfl <;> trivial
  exact ⟨s, d, x, run, up, there, total, (budget_charged run up).1 0 x there⟩

end Campaigns
