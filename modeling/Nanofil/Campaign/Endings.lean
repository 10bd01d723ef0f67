import Nanofil.Campaign.Fairness

/-! A running campaign comes to its end: nothing is left to do, or its budget is used. -/
namespace Campaigns

/-- Two campaigns with the same policy and the same account of running time. -/
def Campaign.Same (x x' : Campaign) : Prop :=
  x'.policy = x.policy ∧ x'.used = x.used ∧ x'.runningSince = x.runningSince

theorem Campaign.Same.refl (x : Campaign) : x.Same x := ⟨rfl, rfl, rfl⟩

variable {x x' : Campaign} {c : Nat} {d d' : Deck} {w : List Write}

theorem exhausted_iff {now : Int} : x.budgetExhausted now = true ↔ x.limit ≤ x.ran now := decide_eq_true_iff

theorem exhausted_later {now now' : Int} (same : x.Same x') (later : now ≤ now')
    (exhausted : x.budgetExhausted now = true) : x'.budgetExhausted now' = true := by
  obtain ⟨policy, used, since⟩ := same
  rw [exhausted_iff] at exhausted ⊢
  simp only [Campaign.limit, Campaign.ran, policy, used, since] at exhausted ⊢
  by_cases still : x.runningSince = 0
  · rw [if_pos still] at exhausted ⊢
    exact exhausted
  · rw [if_neg still] at exhausted ⊢
    omega

/-- A campaign that runs before and after a change keeps its account. -/
theorem modify_account {xs : List Campaign} {c' : Nat} {f : Campaign → Campaign}
    (there : xs[c]? = some x) (there' : (xs.modify c' f)[c]? = some x') (keeps : c = c' → x.Same (f x)) : x.Same x' := by
  obtain ⟨y, found, ⟨rfl, -⟩ | ⟨rfl, same⟩⟩ := modify_some there'
  · obtain rfl := Option.some.inj (there.symm.trans found)
    exact .refl _
  · obtain rfl := Option.some.inj (there.symm.trans found)
    exact keeps same

theorem Deck.Goes.account {i : Nat} {a : At} (goes : d.Goes i a d' w) (there : d.campaigns[c]? = some x) (runs : x.state = .running) (there' : d'.campaigns[c]? = some x')
    (runs' : x'.state = .running) : x.Same x' := by
  have unchanged : d'.campaigns = d.campaigns → x.Same x' := fun same => by
    obtain rfl := Option.some.inj (there.symm.trans (same ▸ there'))
    exact .refl _
  cases goes with
  | promotes c' y there1 queued =>
    refine modify_account there there' (fun same => ?_)
    subst same
    obtain rfl := Option.some.inj (there.symm.trans there1)
    exact absurd queued (by simp [runs])
  | finishes c' y there1 runs1 quiet ended =>
    obtain ⟨z, found, ⟨rfl, -⟩ | ⟨rfl, -⟩⟩ := modify_some there'
    · obtain rfl := Option.some.inj (there.symm.trans found)
      exact .refl _
    · cases runs'
  | takes c' y there1 lane left roots skipped k next =>
    obtain ⟨b, moved, -⟩ := Deck.skips_moves (d.update c' (Campaign.take roots k)) i c' roots k skipped
    rw [moved] at there'
    exact modify_account there there' (fun _ => ⟨rfl, rfl, rfl⟩)
  | skips c' rest k y there1 =>
    obtain ⟨b, moved, -⟩ := Deck.skips_moves d i c' y.roots k rest
    exact unchanged (by rw [moved]; rfl)
  | settles c' k next outcome y there1 calm => exact modify_account there there' (fun _ => ⟨rfl, rfl, rfl⟩)
  | pauses c' k next y there1 runs1 =>
    obtain ⟨z, found, ⟨rfl, -⟩ | ⟨rfl, -⟩⟩ := modify_some there'
    · exact modify_account there found (fun _ => ⟨rfl, rfl, rfl⟩)
    · cases runs'
  | _ => exact unchanged rfl

theorem Deck.Moves.account {l : Label} (moves : d.Moves l d' w) (calm : l.Calm) (there : d.campaigns[c]? = some x) (runs : x.state = .running) (there' : d'.campaigns[c]? = some x')
    (runs' : x'.state = .running) : x.Same x' ∧ d.now ≤ d'.now := by
  have unchanged : d'.campaigns = d.campaigns → x.Same x' := fun same => by
    obtain rfl := Option.some.inj (there.symm.trans (same ▸ there'))
    exact .refl _
  have left : ∀ c' state, state ≠ .running → (d.campaigns.modify c' (Campaign.leaveRunning d.now state))[c]? = some x' →
      x.Same x' := by
    intro c' state other found'
    obtain ⟨z, found, ⟨rfl, -⟩ | ⟨rfl, -⟩⟩ := modify_some found'
    · obtain rfl := Option.some.inj (there.symm.trans found)
      exact .refl _
    · exact absurd runs' other
  cases moves with
  | goes i a found d' w goes => exact ⟨goes.account there runs there' runs', goes.lane.2.1.ge⟩
  | throws => cases calm
  | creates id policy priority created manifest roots accepted =>
    refine ⟨?_, le_rfl⟩
    obtain rfl := Option.some.inj ((append_old there _).symm.trans there')
    exact .refl _
  | pauses c' y there1 h => exact ⟨left c' .paused (by simp) there', le_rfl⟩
  | cancels c' y there1 h => exact ⟨left c' .cancelled (by simp) there', le_rfl⟩
  | resumes c' y there1 h => exact ⟨modify_account there there' (fun _ => ⟨rfl, rfl, rfl⟩), le_rfl⟩
  | ranks c' p y there1 => exact ⟨modify_account there there' (fun _ => ⟨rfl, rfl, rfl⟩), le_rfl⟩
  | passes time => exact ⟨unchanged rfl, by simp⟩
  | _ => exact ⟨unchanged rfl, le_rfl⟩

/-! ### What one lane does for a running campaign -/

theorem Deck.Moves.looks {l : Label} (moves : d.Moves l d' w) {j : Nat}
    (found : d.lanes[j]? = some .top) (mine : l.lane = some j) (go : d.stop = false) (one : d.Promotion)
    (running : d.Running c) : d'.lanes[j]? = some (.looked c) := by
  cases moves with
  | goes i a found' d' w goes =>
    obtain rfl := Option.some.inj mine
    obtain rfl := Option.some.inj (found'.symm.trans found)
    cases goes with
    | leaves stop => exact absurd stop (by simp [go])
    | looks c' _ runs => exact one.one c' c (running_some runs) running ▸ set_at found _
    | waits _ calm => exact absurd running (running_none calm c)
    | opens c' _ calm => exact absurd running (running_none calm c)
  | ends i c' k s found' =>
    obtain rfl := Option.some.inj mine
    cases Option.some.inj (found'.symm.trans found)
  | analyzed i c' k _ _ outcome found' =>
    obtain rfl := Option.some.inj mine
    cases Option.some.inj (found'.symm.trans found)
  | _ => cases mine

theorem Deck.Moves.admits {l : Label} (moves : d.Moves l d' w) {j : Nat}
    (found : d.lanes[j]? = some (.looked c)) (mine : l.lane = some j) (there : d.campaigns[c]? = some x)
    (runs : x.state = .running) (quiet : x.inFlight = 0) (still : d'.Running c) :
    d'.lanes[j]? = some (.admitting c) ∧ x.roots.any (·.state = .pending) = true ∧ x.budgetExhausted d.now = false := by
  cases moves with
  | goes i a found' d' w goes =>
    obtain rfl := Option.some.inj mine
    obtain rfl := Option.some.inj (found'.symm.trans found)
    cases goes with
    | admits _ y there' h =>
      obtain rfl := Option.some.inj (there'.symm.trans there)
      refine ⟨set_at found _, ?_⟩
      rcases h with h | h | h
      · exact absurd runs h
      · exact absurd quiet h
      · exact h
    | finishes _ y there' =>
      obtain ⟨z, found1, runs1⟩ := still
      obtain ⟨y', -, ⟨-, other⟩ | ⟨rfl, -⟩⟩ := modify_some found1
      · exact absurd rfl other
      · cases runs1
  | ends i c' k s found' =>
    obtain rfl := Option.some.inj mine
    cases Option.some.inj (found'.symm.trans found)
  | analyzed i c' k _ _ outcome found' =>
    obtain rfl := Option.some.inj mine
    cases Option.some.inj (found'.symm.trans found)
  | _ => cases mine

theorem Deck.Moves.takes {d d' : Deck} {l : Label} {w : List Write} (moves : d.Moves l d' w) {j c : Nat}
    (found : d.lanes[j]? = some (.admitting c)) (mine : l.lane = some j) {x : Campaign} (there : d.campaigns[c]? = some x)
    (lane : j < x.policy.parallelRoots) (left : x.budgetExhausted d.now = false) :
    ∃ x', d'.campaigns[c]? = some x' ∧ x'.roots = (nextRoot x.roots (List.range x.roots.length)).1 := by
  cases moves with
  | goes i a found' d' w goes =>
    obtain rfl := Option.some.inj mine
    obtain rfl := Option.some.inj (found'.symm.trans found)
    cases goes with
    | refuses _ y there' h =>
      obtain rfl := Option.some.inj (there'.symm.trans there)
      rcases h with h | h
      · omega
      · exact absurd h (by simp [left])
    | takes _ y there' _ _ roots skipped k next =>
      obtain rfl := Option.some.inj (there'.symm.trans there)
      obtain ⟨b, moved, -⟩ := Deck.skips_moves (d.update c (Campaign.take roots k)) i c roots k skipped
      refine ⟨y.take roots k, ?_, by rw [next]; rfl⟩
      rw [moved, Deck.move_campaigns, Deck.update_campaigns, modify_eq_set there, set_at there]
  | ends i c' k s found' =>
    obtain rfl := Option.some.inj mine
    cases Option.some.inj (found'.symm.trans found)
  | analyzed i c' k _ _ outcome found' =>
    obtain rfl := Option.some.inj mine
    cases Option.some.inj (found'.symm.trans found)
  | _ => cases mine

/-! ### No campaign runs for ever -/

section
variable {now : Int} {σ : ℕ → Deck} {l : ℕ → Label} (run : Behaviour now σ l) (fair : Fair l)
include run

/-- From some time on a campaign that always runs keeps its roots and their holders. -/
theorem Behaviour.rests {n : ℕ} (running : (σ n).Running c) :
    ∃ N, n ≤ N ∧ ∀ m, N ≤ m → ∀ x, (σ m).campaigns[c]? = some x → ∃ x', (σ (m + 1)).campaigns[c]? = some x' ∧
      x'.policy = x.policy ∧ x'.roots = x.roots ∧ ∀ (i k : Nat), (σ m).board.holders[i]? = some (some (c, k)) →
        (σ (m + 1)).board.holders[i]? = some (some (c, k)) := by
  let f : ℕ → ℕ := fun m => (((σ m).board.campaigns[c]?).map Tally.left).getD 0
  have steps : ∀ m, ∀ x, (σ m).campaigns[c]? = some x → ∃ x', (σ (m + 1)).campaigns[c]? = some x' ∧
      x'.policy = x.policy ∧ (f (m + 1) < f m ∨ x'.roots = x.roots ∧ f (m + 1) = f m ∧
        ∀ (i k : Nat), (σ m).board.holders[i]? = some (some (c, k)) →
          (σ (m + 1)).board.holders[i]? = some (some (c, k))) := by
    intro m x there
    obtain ⟨w, moves⟩ := run.moves m
    have sched := run.sched m
    have step := moves.board (run.calm m) sched.fit sched.decided
    rw [run.going m] at step
    obtain ⟨t, there', policy, change⟩ := step.left sched.fit (board_campaign there)
    obtain ⟨x', now', rfl⟩ := board_campaign_some there'
    have before : f m = x.tally.left := by simp [f, board_campaign there]
    have after : f (m + 1) = x'.tally.left := by simp [f, board_campaign now']
    rw [before, after]
    exact ⟨x', now', policy, change⟩
  have present : ∀ m, n ≤ m → ∃ x, (σ m).campaigns[c]? = some x := by
    intro m later
    induction m, later using Nat.le_induction with
    | base =>
      obtain ⟨x, there, -⟩ := running
      exact ⟨x, there⟩
    | succ m later ih =>
      obtain ⟨x, there⟩ := ih
      obtain ⟨x', there', -⟩ := steps m x there
      exact ⟨x', there'⟩
  have falls : ∀ m, n ≤ m → f (m + 1) ≤ f m := by
    intro m later
    obtain ⟨x, there⟩ := present m later
    obtain ⟨x', -, -, less | ⟨-, same, -⟩⟩ := steps m x there
    · exact less.le
    · exact same.le
  obtain ⟨N, later, rests⟩ := Behaviours.not_always_falls falls
  refine ⟨N, later, fun m after x there => ?_⟩
  obtain ⟨x', there', policy, less | ⟨roots, -, held⟩⟩ := steps m x there
  · exact absurd less (rests m after)
  · exact ⟨x', there', policy, roots, held⟩

include fair

/-- A running campaign does not run for ever. -/
theorem Behaviour.stops_running {n : ℕ} (running : (σ n).Running c) : ∃ m, n ≤ m ∧ ¬(σ m).Running c := by
  by_contra always
  push Not at always
  obtain ⟨N, later, rests⟩ := run.rests running
  -- no lane holds a root of it any more, since each comes back for work
  have free : ∀ m, N ≤ m → ∀ (i k : Nat), (σ m).board.holders[i]? ≠ some (some (c, k)) := by
    intro m after i k held
    have holds : ∀ m', m ≤ m' → (σ m').board.holders[i]? = some (some (c, k)) := by
      intro m' after'
      induction m', after' using Nat.le_induction with
      | base => exact held
      | succ m' after' ih =>
        obtain ⟨x, there, -⟩ := always m' (by omega)
        obtain ⟨x', -, -, -, kept⟩ := rests m' (by omega) x there
        exact kept i k ih
    have known : i < 32 := by
      by_contra far
      obtain ⟨t, r, there, lane, -⟩ := (run.sched m).fit.holds i c k held
      have bound := t.policy.lanes
      omega
    obtain ⟨m', after', top⟩ := run.returns fair known m
    have none_ := board_holder top
    rw [holds m' after'] at none_
    cases none_
  have quiet : ∀ m, N ≤ m → ∀ x, (σ m).campaigns[c]? = some x →
      x.inFlight = 0 ∧ ∀ r ∈ x.roots, r.state ≠ .running := by
    intro m after x there
    have fit := (run.sched m).fit
    have calm : ∀ r ∈ x.roots, r.state ≠ .running := by
      intro r member runs
      obtain ⟨k, root⟩ := List.mem_iff_getElem?.1 member
      obtain ⟨i, held⟩ := fit.held c k x.tally r (board_campaign there) root runs
      exact free m after i k held
    have counted : x.inFlight = x.roots.countP (·.state = .running) := fit.counted c x.tally (board_campaign there)
    exact ⟨by rw [counted, List.countP_eq_zero]; simpa using calm, calm⟩
  have first : (0 : Nat) < 32 := by omega
  -- lane 0 looks at it again and again, and finds a pending root and budget left
  have looked : ∀ m, N ≤ m → ∃ m', m ≤ m' ∧ (σ (m' + 1)).lanes[0]? = some (.admitting c) ∧
      ∃ x, (σ m').campaigns[c]? = some x ∧ x.roots.any (·.state = .pending) = true ∧
        x.budgetExhausted (σ m').now = false := by
    intro m after
    obtain ⟨m1, after1, top⟩ := run.returns fair first m
    obtain ⟨m2, after2, top, mine⟩ := run.next fair first top (by simp)
    obtain ⟨w, moves⟩ := run.moves m2
    have looks := moves.looks top mine (run.going m2) (run.sched m2).promotion (always m2 (by omega))
    obtain ⟨m3, after3, looks, mine⟩ := run.next fair first looks (by simp)
    obtain ⟨w, moves⟩ := run.moves m3
    obtain ⟨x, there, runs⟩ := always m3 (by omega)
    obtain ⟨admitting, pending, left⟩ :=
      moves.admits looks mine there runs (quiet m3 (by omega) x there).1 (always (m3 + 1) (by omega))
    exact ⟨m3, by omega, admitting, x, there, pending, left⟩
  have left : ∀ m, N ≤ m → ∀ x, (σ m).campaigns[c]? = some x → x.budgetExhausted (σ m).now = false := by
    intro m after x there
    by_contra exhausted
    have for_ever : ∀ m', m ≤ m' → ∀ y, (σ m').campaigns[c]? = some y → y.budgetExhausted (σ m').now = true := by
      intro m' after'
      induction m', after' using Nat.le_induction with
      | base =>
        intro y found
        obtain rfl := Option.some.inj (there.symm.trans found)
        simpa using exhausted
      | succ m' after' ih =>
        intro y found
        obtain ⟨z, there0, runs0⟩ := always m' (by omega)
        obtain ⟨y', there1, runs1⟩ := always (m' + 1) (by omega)
        obtain rfl := Option.some.inj (there1.symm.trans found)
        obtain ⟨w, moves⟩ := run.moves m'
        obtain ⟨same, passes⟩ := moves.account (run.calm m') there0 runs0 there1 runs1
        exact exhausted_later same passes (ih z there0)
    obtain ⟨m', after', -, y, found, -, some_left⟩ := looked m after
    exact absurd (for_ever m' after' y found) (by simp [some_left])
  obtain ⟨m, after, admitting, x, there, pending, -⟩ := looked N le_rfl
  obtain ⟨m', after', admitting, mine⟩ := run.next fair first admitting (by simp)
  -- the roots are as they were when lane 0 looked
  have same : ∀ m', m ≤ m' → ∃ y, (σ m').campaigns[c]? = some y ∧ y.roots = x.roots := by
    intro m' later'
    induction m', later' using Nat.le_induction with
    | base => exact ⟨x, there, rfl⟩
    | succ m' later' ih =>
      obtain ⟨y, found, roots⟩ := ih
      obtain ⟨y', found', -, roots', -⟩ := rests m' (by omega) y found
      exact ⟨y', found', roots'.trans roots⟩
  obtain ⟨y, found, roots⟩ := same m' (by omega)
  obtain ⟨w, moves⟩ := run.moves m'
  obtain ⟨y', found', taken⟩ :=
    moves.takes admitting mine found y.policy.lanes.1 (left m' (by omega) y found)
  obtain ⟨y1, found1, -, kept, -⟩ := rests m' (by omega) y found
  obtain rfl := Option.some.inj (found1.symm.trans found')
  have idle := (nextRoot_taken y.roots (List.range y.roots.length)).left 0
  rw [← taken, kept] at idle
  obtain ⟨r, member, waits⟩ := List.any_eq_true.1 (roots ▸ pending)
  refine nextRoot_progress ((run.sched m').fit.ordered c y.tally (board_campaign found))
    (quiet m' (by omega) y found).2 member (by simpa using waits) ?_
  have nothing : (nextRoot y.roots (List.range y.roots.length)).2.1 = [] ∧
      (nextRoot y.roots (List.range y.roots.length)).2.2 = none := by
    constructor
    · exact List.eq_nil_of_length_eq_zero (by omega)
    · cases none_ : (nextRoot y.roots (List.range y.roots.length)).2.2 with
      | none => rfl
      | some k => simp [none_] at idle
  exact Prod.ext nothing.1 nothing.2

end

end Campaigns
