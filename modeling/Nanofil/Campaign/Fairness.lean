import Mathlib.Algebra.BigOperators.Group.List.Basic
import Mathlib.Algebra.Ring.Int.Defs
import Mathlib.Algebra.Ring.Nat
import Mathlib.Data.Prod.Lex
import Nanofil.Campaign.Board
import Nanofil.Lib.Behaviours
import Nanofil.Campaign.Promotions

/-! What a campaign still has to do: every claim, skip and settlement lowers it. -/
namespace Campaigns
open List Option

/-- The steps a root is at most away from its settlement; a worker error is retried so often. -/
def Root.left (retries : Nat) (r : Root) : Nat :=
  match r.state with
  | .pending => 2 * (retries - r.attempts) + 2
  | .running => if r.attempts ≤ retries then 2 * (retries - r.attempts) + 3 else 1
  | .settled => 0

def Tally.left (t : Tally) : Nat := (t.roots.map (Root.left t.policy.retryInfrastructure)).sum

variable {i retries : Nat} {r : Root} {skipped : List Nat} {d d' : Deck} {w : List Write}

theorem sum_set_add {α : Type} (f : α → Nat) {xs : List α} {old : α} (found : xs[i]? = some old) (new : α) :
    ((xs.set i new).map f).sum + f old = (xs.map f).sum + f new := by
  induction xs generalizing i with
  | nil => simp at found
  | cons x xs ih =>
    cases i with
    | zero =>
      obtain rfl := Option.some.inj found
      simp only [set_cons_zero, map_cons, sum_cons]
      omega
    | succ i =>
      have rest := ih found
      simp only [set_cons_succ, map_cons, sum_cons]
      omega

theorem skip_left (pending : r.state = .pending) : r.skip.left retries < r.left retries := by simp [Root.left, Root.skip, pending]

theorem claim_left (pending : r.state = .pending) : r.claim.left retries < r.left retries := by
  have after : r.claim.left retries =
      if r.attempts + 1 ≤ retries then 2 * (retries - (r.attempts + 1)) + 3 else 1 := rfl
  have before : r.left retries = 2 * (retries - r.attempts) + 2 := by simp [Root.left, pending]
  rw [after, before]
  by_cases few : r.attempts + 1 ≤ retries
  · rw [if_pos few]
    omega
  · rw [if_neg few]
    omega

theorem Taken.left {roots roots' : List Root} {claimed : Option Nat}
    (taken : Taken roots roots' skipped claimed) (retries : Nat) :
    (roots'.map (Root.left retries)).sum + (skipped.length + claimed.toList.length) ≤
      (roots.map (Root.left retries)).sum := by
  induction taken with
  | done => simp
  | skip k r found pending refused rest ih =>
    have step := sum_set_add (Root.left retries) found r.skip
    rw [← modify_eq_set found Root.skip] at step
    have less : r.skip.left retries < r.left retries := skip_left pending
    simp only [length_cons]
    omega
  | claim k r found pending free ready =>
    have step := sum_set_add (Root.left retries) found r.claim
    rw [← modify_eq_set found Root.claim] at step
    have less : r.claim.left retries < r.left retries := claim_left pending
    simp only [length_nil, toList_some, length_singleton]
    omega

theorem Taken.idle {roots roots' : List Root} {claimed : Option Nat}
    (taken : Taken roots roots' skipped claimed) (skips : skipped = []) (claims : claimed = none) : roots' = roots := by
  cases taken with
  | done => rfl
  | skip => cases skips
  | claim => cases claims

theorem settle_left (runs : r.state = .running) (outcome : String) {next : RootState}
    (settled : next = .settled ∨ next = .pending ∧ r.attempts ≤ retries) :
    Root.left retries { r with state := next, outcome := outcome } < r.left retries := by
  rcases settled with rfl | ⟨rfl, few⟩
  · simp only [Root.left, runs]
    split_ifs <;> omega
  · simp only [Root.left, runs, if_pos few]
    omega

theorem Tally.settle_left {t : Tally} {k : Nat} (root : t.roots[k]? = some r) (runs : r.state = .running)
    (outcome : String) {next : RootState}
    (settled : next = .settled ∨ next = .pending ∧ r.attempts ≤ t.policy.retryInfrastructure) :
    (t.settle k next outcome).left < t.left := by
  have step := sum_set_add (Root.left t.policy.retryInfrastructure) root { r with state := next, outcome := outcome }
  rw [← modify_eq_set root (fun r => { r with state := next, outcome := outcome })] at step
  have less := Campaigns.settle_left runs outcome settled
  simp only [Tally.left, Tally.settle]
  omega

/-- While the service is not stopping, a step leaves a campaign's roots and their holders, or
there is less left to do. -/
theorem Board.Step.left {b b' : Board} (step : Board.Step false b b') (fit : b.Fit) {c : Nat} {t : Tally}
    (there : b.campaigns[c]? = some t) :
    ∃ t', b'.campaigns[c]? = some t' ∧ t'.policy = t.policy ∧ (t'.left < t.left ∨ t'.roots = t.roots ∧
      t'.left = t.left ∧ ∀ (i k : Nat), b.holders[i]? = some (some (c, k)) → b'.holders[i]? = some (some (c, k))) := by
  cases step with
  | keeps => exact ⟨t, there, rfl, .inr ⟨rfl, rfl, fun _ _ h => h⟩⟩
  | creates => exact ⟨t, append_old there _, rfl, .inr ⟨rfl, rfl, fun _ _ h => h⟩⟩
  | claims j c' t' idle there' lane roots skipped k next =>
    have taken := nextRoot_taken t'.roots (List.range t'.roots.length)
    rw [next] at taken
    have others : ∀ (i k' : Nat), b.holders[i]? = some (some (c, k')) →
        (b.holders.set j (k.map (c', ·)))[i]? = some (some (c, k')) := by
      intro i k' held
      have apart : i ≠ j := by rintro rfl; simp [idle] at held
      rw [set_other _ apart, held]
    by_cases same : c = c'
    · subst same
      obtain rfl := Option.some.inj (there'.symm.trans there)
      refine ⟨_, set_at there _, rfl, ?_⟩
      have less := taken.left t'.policy.retryInfrastructure
      by_cases nothing : skipped = [] ∧ k = none
      · obtain rfl : roots = t'.roots := taken.idle nothing.1 nothing.2
        exact .inr ⟨rfl, rfl, others⟩
      · refine .inl (lt_of_lt_of_le (Nat.lt_add_of_pos_right ?_) less)
        cases skipped with
        | cons => simp
        | nil =>
          cases k with
          | some => simp
          | none => exact absurd ⟨rfl, rfl⟩ nothing
    · exact ⟨t, by rw [set_other _ same, there], rfl, .inr ⟨rfl, rfl, others⟩⟩
  | settles j c' k t' r holds there' root next outcome settled =>
    by_cases same : c = c'
    · subst same
      obtain rfl := Option.some.inj (there'.symm.trans there)
      obtain ⟨t0, r0, there0, -, root0, runs⟩ := fit.holds j c k holds
      obtain rfl := Option.some.inj (there0.symm.trans there)
      obtain rfl := Option.some.inj (root0.symm.trans root)
      refine ⟨_, set_at there _, rfl, .inl (Tally.settle_left root runs outcome ?_)⟩
      simpa using settled
    · refine ⟨t, by rw [set_other _ same, there], rfl, .inr ⟨rfl, rfl, fun i k' held => ?_⟩⟩
      have apart : i ≠ j := by
        rintro rfl
        obtain ⟨wrong, -⟩ := Prod.mk.inj (Option.some.inj (Option.some.inj (held.symm.trans holds)))
        exact same wrong
      rw [set_other _ apart, held]

/-! Lanes that keep going come back for work again and again. -/

/-- The lane that a step takes on its way; a look at the clock takes it nowhere. -/
def Label.lane : Label → Option Nat
  | .goes i | .ends i | .analyzed i _ => some i
  | _ => none

/-- How far a lane is from coming back for work: first until it has claimed, then until it has settled. -/
def At.rank : At → Nat ×ₗ Nat
  | .top | .left => toLex (0, 0)
  | .sleeping | .pausing _ => toLex (0, 1)
  | .finishing _ | .settling .. => toLex (0, 2)
  | .recorded .. => toLex (0, 3)
  | .recording .. => toLex (0, 4)
  | .requesting .. => toLex (0, 5)
  | .inserting .. => toLex (0, 6)
  | .claimed .. => toLex (0, 7)
  | .skipping _ rest _ => toLex (0, 8 + rest.length)
  | .admitting _ => toLex (1, 0)
  | .looked _ => toLex (1, 1)
  | .promoted _ => toLex (1, 2)
  | .opening _ => toLex (1, 3)

/-- Awaits that differ in what the session knows only. -/
def At.Alike (a b : At) : Prop := b = a ∨ ∃ c k s s', a = .recording c k s ∧ b = .recording c k s'

theorem flagged_alike (c : Nat) (a : At) : a.Alike (a.flagged c) := by
  cases a with
  | recording c' k s => exact .inr ⟨c', k, s, _, rfl, rfl⟩
  | _ => exact .inl rfl

variable {a : At}

theorem At.Alike.rank {b : At} (alike : a.Alike b) : b.rank = a.rank := by
  rcases alike with rfl | ⟨c, k, s, s', rfl, rfl⟩ <;> rfl

theorem skips_rank {c : Nat} {k : Option Nat} {b : At} (from_ : a = .skipping c skipped k)
    (shape : b = .sleeping ∧ skipped = [] ∧ k = none ∨ (∃ j rest, b = .skipping c rest k ∧ skipped = j :: rest) ∨
        ∃ k', b = .claimed c k' ∧ skipped = [] ∧ k = some k') : b.rank < a.rank := by
  subst from_
  rcases shape with ⟨rfl, rfl, -⟩ | ⟨j, rest, rfl, rfl⟩ | ⟨k', rfl, rfl, -⟩ <;>
    simp [At.rank, Prod.Lex.toLex_lt_toLex]

/-- A lane that goes on comes closer to its next look for work. -/
theorem Deck.Goes.rank (goes : d.Goes i a d' w) (away : a ≠ .top) : ∃ b, d'.lanes = d.lanes.set i b ∧ b.rank < a.rank := by
  cases goes with
  | leaves | looks | waits | opens => exact absurd rfl away
  | takes c x there lane left roots skipped k next =>
    obtain ⟨b, moved, -, -, shape⟩ := Deck.skips_moves (d.update c (Campaign.take roots k)) i c roots k skipped
    refine ⟨b, by rw [moved]; rfl, ?_⟩
    rcases shape with ⟨rfl, -⟩ | ⟨j, rest, rfl, -⟩ | ⟨k', rfl, -⟩ <;> simp [At.rank, Prod.Lex.toLex_lt_toLex]
  | skips c rest k x there =>
    obtain ⟨b, moved, -, -, shape⟩ := Deck.skips_moves d i c x.roots k rest
    exact ⟨b, by rw [moved]; rfl, skips_rank rfl shape⟩
  | _ => exact ⟨_, rfl, by simp [At.rank, Prod.Lex.toLex_lt_toLex]⟩

/-- A lane that a step does not take on its way stays where it is. -/
theorem Deck.Moves.still {l : Label} (moves : d.Moves l d' w) (calm : l.Calm) {j : Nat} (found : d.lanes[j]? = some a) (other : l.lane ≠ some j) : ∃ b, d'.lanes[j]? = some b ∧ a.Alike b := by
  cases moves with
  | goes i a' found' d' w goes =>
    obtain ⟨-, -, -, b, lanes, -⟩ := goes.lane
    have apart : j ≠ i := by rintro rfl; exact other rfl
    exact ⟨a, by rw [lanes, set_other _ apart, found], .inl rfl⟩
  | throws => cases calm
  | checks i c k s found' x there =>
    by_cases same : j = i
    · subst same
      obtain rfl := Option.some.inj (found'.symm.trans found)
      exact ⟨_, set_at found _, .inr ⟨c, k, s, _, rfl, rfl⟩⟩
    · exact ⟨a, by rw [Deck.move_lanes, set_other _ same, found], .inl rfl⟩
  | ends i c k s found' x there =>
    have apart : j ≠ i := by rintro rfl; exact other rfl
    exact ⟨a, by rw [Deck.move_lanes, set_other _ apart, found], .inl rfl⟩
  | analyzed i c k stopping operatorCancel outcome found' x r there root =>
    have apart : j ≠ i := by rintro rfl; exact other rfl
    exact ⟨a, by rw [Deck.move_lanes, set_other _ apart, found], .inl rfl⟩
  | flags c accepted => exact ⟨a.flagged c, by simp [found], flagged_alike c a⟩
  | _ => exact ⟨a, found, .inl rfl⟩

/-- A lane that a step takes on its way comes closer to its next look for work. -/
theorem Deck.Moves.nearer {l : Label} (moves : d.Moves l d' w) {j : Nat}
    (found : d.lanes[j]? = some a) (mine : l.lane = some j) (away : a ≠ .top) :
    ∃ b, d'.lanes[j]? = some b ∧ b.rank < a.rank := by
  cases moves with
  | goes i a' found' d' w goes =>
    obtain rfl := Option.some.inj mine
    obtain rfl := Option.some.inj (found'.symm.trans found)
    obtain ⟨b, lanes, less⟩ := goes.rank away
    exact ⟨b, by rw [lanes, set_at found'], less⟩
  | ends i c k s found' x there =>
    obtain rfl := Option.some.inj mine
    obtain rfl := Option.some.inj (found'.symm.trans found)
    exact ⟨_, set_at found _, by simp [At.rank, Prod.Lex.toLex_lt_toLex]⟩
  | analyzed i c k stopping operatorCancel outcome found' x r there root =>
    obtain rfl := Option.some.inj mine
    obtain rfl := Option.some.inj (found'.symm.trans found)
    exact ⟨_, set_at found _, by simp [At.rank, Prod.Lex.toLex_lt_toLex]⟩
  | _ => cases mine

theorem Deck.Moves.lanes_length {l : Label} (moves : d.Moves l d' w) (calm : l.Calm) : d'.lanes.length = d.lanes.length := by
  cases moves with
  | goes i a found d' w goes =>
    obtain ⟨-, -, -, b, lanes, -⟩ := goes.lane
    rw [lanes, length_set]
  | throws => cases calm
  | checks | ends | analyzed => exact length_set ..
  | flags => exact length_map ..
  | _ => rfl

theorem Deck.Moves.going {l : Label} (moves : d.Moves l d' w) (calm : l.Calm)
    (goes : l ≠ .stops) (stop : d.stop = false) : d'.stop = false := by
  cases moves with
  | goes i a found d' w goes => exact goes.lane.1.trans stop
  | throws => cases calm
  | stops => exact absurd rfl goes
  | _ => exact stop

/-! ### Runs -/

/-- What holds of the lanes, the claims and the promotions together. -/
structure Deck.Sched (d : Deck) : Prop where
  fit : d.board.Fit
  decided : d.Decided
  promotion : d.Promotion

theorem Deck.Moves.sched {l : Label} (moves : d.Moves l d' w) (calm : l.Calm) (sched : d.Sched) : d'.Sched :=
  ⟨(moves.board calm sched.fit sched.decided).fit sched.fit, moves.decided calm sched.fit sched.decided,
    moves.promotion calm sched.promotion⟩

theorem initial_lane {now : Int} {campaigns : List Campaign}
    (found : (Deck.initial now campaigns).lanes[i]? = some a) : a = .top :=
  eq_of_mem_replicate (mem_of_getElem? found)

theorem initial_sched (now : Int) : (Deck.initial now []).Sched := by
  have holder : ∀ (i : Nat) p, (Deck.initial now []).board.holders[i]? = some p → p = none := by
    intro i p found
    obtain ⟨a, there, rfl⟩ := board_holder_some found
    rw [initial_lane there]
    rfl
  refine ⟨⟨?_, ?_, ?_, ?_, ?_, ?_, ?_⟩, ?_, ⟨?_, ?_, ?_, ?_, ?_⟩⟩
  · exact fun i c k held => by cases holder i _ held
  · exact fun i j p held => by cases holder i _ held
  · exact fun c k t r there => by simp [Deck.board, Deck.initial] at there
  · exact fun c t there => by simp [Deck.board, Deck.initial] at there
  · exact fun c t there => by simp [Deck.board, Deck.initial] at there
  · exact fun c t there => by simp [Deck.board, Deck.initial] at there
  · exact fun c k t r there => by simp [Deck.board, Deck.initial] at there
  · exact fun i a found => by rw [initial_lane found]; trivial
  · exact fun c c' running => by simp [Deck.Running, Deck.initial] at running
  · exact fun i j a b found found' promotes => by simp [initial_lane found, At.promotes] at promotes
  · exact fun i a found promotes => by simp [initial_lane found, At.promotes] at promotes
  · exact fun i a found opens => by simp [initial_lane found, At.opens] at opens
  · exact fun i a c found camp => by simp [initial_lane found, At.campaign] at camp

/-- An infinite run of a service in which nothing fails and that is not asked to stop. -/
structure Behaviour (now : Int) (σ : ℕ → Deck) (l : ℕ → Label) : Prop where
  start : σ 0 = Deck.initial now []
  step : ∀ n, ∃ w, (σ n).step (l n) = some (σ (n + 1), w)
  calm : ∀ n, (l n).Calm
  goes : ∀ n, l n ≠ .stops

/-- Every lane is taken on its way again and again: workers end, sleeps pass. -/
def Fair (l : ℕ → Label) : Prop := ∀ i, i < 32 → ∀ n, ∃ m, n ≤ m ∧ (l m).lane = some i

section
variable {now : Int} {σ : ℕ → Deck} {l : ℕ → Label} (run : Behaviour now σ l)
include run

theorem Behaviour.moves (n : ℕ) : ∃ w, (σ n).Moves (l n) (σ (n + 1)) w := by
  obtain ⟨w, step⟩ := run.step n
  exact ⟨w, Deck.step_cases step⟩

theorem Behaviour.sched (n : ℕ) : (σ n).Sched := by
  induction n with
  | zero => exact run.start ▸ initial_sched now
  | succ n ih =>
    obtain ⟨w, moves⟩ := run.moves n
    exact moves.sched (run.calm n) ih

theorem Behaviour.going (n : ℕ) : (σ n).stop = false := by
  induction n with
  | zero => rw [run.start]; rfl
  | succ n ih =>
    obtain ⟨w, moves⟩ := run.moves n
    exact moves.going (run.calm n) (run.goes n) ih

theorem Behaviour.lane (n : ℕ) (known : i < 32) : ∃ a, (σ n).lanes[i]? = some a := by
  have length : (σ n).lanes.length = 32 := by
    induction n with
    | zero => rw [run.start]; exact length_replicate
    | succ n ih =>
      obtain ⟨w, moves⟩ := run.moves n
      rw [moves.lanes_length (run.calm n), ih]
  exact ⟨_, getElem?_eq_getElem (by omega)⟩

variable (fair : Fair l)
include fair

/-- A lane comes back for work. -/
theorem Behaviour.returns (known : i < 32) (n : ℕ) : ∃ m, n ≤ m ∧ (σ m).lanes[i]? = some .top := by
  by_contra never
  push Not at never
  let f : ℕ → Nat ×ₗ Nat := fun m => (((σ m).lanes[i]?).map At.rank).getD (toLex (0, 0))
  have steps : ∀ m, n ≤ m → f (m + 1) ≤ f m ∧ ((l m).lane = some i → f (m + 1) < f m) := by
    intro m later
    obtain ⟨a, found⟩ := run.lane m known
    obtain ⟨w, moves⟩ := run.moves m
    have away : a ≠ .top := by rintro rfl; exact never m later found
    by_cases mine : (l m).lane = some i
    · obtain ⟨b, found', less⟩ := moves.nearer found mine away
      have fell : f (m + 1) < f m := by simpa [f, found, found'] using less
      exact ⟨fell.le, fun _ => fell⟩
    · obtain ⟨b, found', alike⟩ := moves.still (run.calm m) found mine
      exact ⟨by simp [f, found, found', alike.rank], fun h => absurd h mine⟩
  obtain ⟨N, later, rests⟩ := Behaviours.not_always_falls (fun m h => (steps m h).1)
  obtain ⟨m, after, mine⟩ := fair i known N
  exact rests m after ((steps m (le_trans later after)).2 mine)

/-- A lane that is not recording is taken on its way from where it is. -/
theorem Behaviour.next {i : Nat} (known : i < 32) {n : ℕ} {a : At} (found : (σ n).lanes[i]? = some a)
    (still : ∀ c k s, a ≠ .recording c k s) :
    ∃ m, n ≤ m ∧ (σ m).lanes[i]? = some a ∧ (l m).lane = some i := by
  obtain ⟨m, later, mine, first⟩ := Behaviours.first_time (fair i known n)
  refine ⟨m, later, ?_, mine⟩
  have stays : ∀ k, n ≤ k → k ≤ m → (σ k).lanes[i]? = some a := by
    intro k after
    induction k, after using Nat.le_induction with
    | base => exact fun _ => found
    | succ k after ih =>
      intro before
      obtain ⟨w, moves⟩ := run.moves k
      obtain ⟨b, found', rfl | ⟨c, k', s, s', rfl, -⟩⟩ :=
        moves.still (run.calm k) (ih (by omega)) (first k after (by omega))
      · exact found'
      · exact absurd rfl (still c k' s)
  exact stays m later le_rfl

end

end Campaigns
