import Nanofil.Campaign.Fairness
import Nanofil.Campaign.Repeats

/-! A claimed root leaves the running state while the service runs, and the account of attempts as a whole. -/
namespace Campaigns
open List Option

/-- A lane that has claimed the root, and not settled it. -/
def At.Holds (c k : Nat) (a : At) : Prop := a.due c k ≠ .free ∧ a.due c k ≠ .skipped

variable {a : At} {c i : Nat} {d d' : Deck} {ws : List Write} {s : Service}

theorem At.Holds.away {k : Nat} (holds : a.Holds c k) : a ≠ .top := by
  rintro rfl
  exact holds.1 rfl

theorem Deck.throws_rank (throws : d.throws i a = some d') {k : Nat} (holds : a.Holds c k)
    (calm : a.writes = false) : ∃ b, d'.lanes = d.lanes.set i b ∧ b.rank < a.rank := by
  cases a with
  | claimed c' k' =>
    cases Option.some.inj throws
    exact ⟨_, rfl, by simp [At.rank, Prod.Lex.toLex_lt_toLex]⟩
  | requesting c' k' s =>
    obtain ⟨x, there, rfl⟩ := map_eq_some_iff.1 throws
    exact ⟨_, rfl, by simp [At.rank, Prod.Lex.toLex_lt_toLex]⟩
  | opening | promoted | finishing | pausing => exact absurd rfl holds.1
  | skipping | inserting | settling => cases calm
  | _ => cases throws

/-- A lane that holds a root comes closer to its settlement with each step of its own, and with no other. -/
theorem Deck.Moves.nears {l : Label} (moves : d.Moves l d' ws)
    (sound : ∀ i a, l = .throws i → d.lanes[i]? = some a → a.writes = false) (found : d.lanes[i]? = some a)
    {k : Nat} (holds : a.Holds c k) :
    ∃ b, d'.lanes[i]? = some b ∧ b.rank ≤ a.rank ∧ (l.lane = some i ∨ l = .throws i → b.rank < a.rank) := by
  cases thrown : l with
  | throws j =>
    subst thrown
    cases moves with
    | throws j a' found' d' throws =>
      by_cases mine : i = j
      · subst mine
        obtain rfl := Option.some.inj (found'.symm.trans found)
        obtain ⟨b, lanes, less⟩ := Deck.throws_rank throws holds (sound i _ rfl found)
        exact ⟨b, by rw [lanes, set_at found], less.le, fun _ => less⟩
      · obtain ⟨b, lanes, -⟩ := Deck.throws_cases throws
        refine ⟨a, by rw [lanes, set_other b mine, found], le_rfl, ?_⟩
        rintro (wrong | same)
        · cases wrong
        · exact absurd (Label.throws.inj same).symm mine
  | _ =>
    rw [← thrown]
    by_cases mine : l.lane = some i
    · obtain ⟨b, found', less⟩ := moves.nearer found mine holds.away
      exact ⟨b, found', less.le, fun _ => less⟩
    · obtain ⟨b, found', alike⟩ := moves.still (by simp [thrown, Label.Calm]) found mine
      refine ⟨b, found', alike.rank.le, ?_⟩
      rintro (own | wrong)
      · exact absurd own mine
      · simp [thrown] at wrong

/-- One step while a lane holds a root: the root leaves the running state, or the lane still holds it. -/
theorem RootStep.holds {k : Nat} {due due' : Nat → Option Due} {r r' : Root} {e : RootRow}
    (step : RootStep c k due due' r r' ws) (linked : Linked due r e) {u : Due} (here : due i = some u)
    (some_ : u ≠ .free) (claimed : u ≠ .skipped) :
    r'.state ≠ .running ∨ ∃ v, due' i = some v ∧ v ≠ .free ∧ v ≠ .skipped := by
  obtain ⟨-, others⟩ := linked.of here some_
  have runs : r.state = .running := linked.running_iff.2 ⟨i, u, here, some_, claimed⟩
  -- who has something due for the root is this lane
  have mine : ∀ j v, due j = some v → v ≠ .free → j = i := by
    intro j v found nonfree
    by_contra other
    exact nonfree (others j other v found)
  cases step with
  | same state attempts lanes elsewhere => exact .inr ⟨u, (lanes i).trans here, some_, claimed⟩
  | takes j pending | claims j pending | skipsNow j pending => simp [pending] at runs
  | skips j state attempts before =>
    obtain rfl := mine j _ before (by simp)
    exact absurd (Option.some.inj (here.symm.trans before)) claimed
  | inserts j state attempts before lane =>
    obtain rfl := mine j _ before (by simp)
    exact .inr ⟨_, lane, by simp, by simp⟩
  | decides j next outcome state attempts before lane =>
    obtain rfl := mine j _ before (by simp)
    exact .inr ⟨_, lane, by simp, by simp⟩
  | settles j next state attempts before =>
    left
    rw [state]
    obtain ⟨-, -, ⟨rfl, -⟩ | ⟨rfl, -⟩⟩ := (linked.of before (by simp)).1 <;> simp
  | gives j state =>
    left
    simp [state]

/-- The lane whose step an event is, if it goes on or its await throws. -/
def Event.Takes (s : Service) (i : Nat) : Event → Prop
  | .works l => l.lane = some i ∨ l = .throws i
  | .fails => ∃ w rest, s.queue = (some i, w) :: rest
  | _ => False

/-- A step of the deck, as a lane sees it that holds a root. -/
theorem Service.Working.holds {l : Label} (working : s.Working d) (stored : s.Stored d) (moves : d.Moves l d' ws)
    (sound : ∀ i a, l = .throws i → d.lanes[i]? = some a → a.writes = false) (found : d.lanes[i]? = some a)
    {k : Nat} (holds : a.Holds c k) :
    (∃ r, d'.root c k = some r ∧ r.state ≠ .running) ∨ ∃ b, d'.lanes[i]? = some b ∧ b.Holds c k ∧ b.rank ≤ a.rank ∧
      (l.lane = some i ∨ l = .throws i → b.rank < a.rank) := by
  obtain ⟨b, found', below, less⟩ := moves.nears sound found holds
  by_cases new : l.creates = true
  · cases moves with
    | creates => exact .inr ⟨a, found, holds, le_rfl, fun h => by simp [Label.lane] at h⟩
    | _ => cases new
  · obtain ⟨r, root⟩ := working.rooted i c k a found holds.1
    obtain ⟨e, -, row⟩ := stored.rows root
    have linked := working.linked c k r _ root row
    obtain ⟨r', root', step⟩ := moves.root_step (by simpa using new) sound working.tidy working.settles root
    have here : d.due c k i = some (a.due c k) := by rw [Deck.due, found, map_some]
    rcases step.holds linked here holds.1 holds.2 with left | ⟨v, due', some_, claimed⟩
    · exact .inl ⟨r', root', left⟩
    · rw [Deck.due, found', map_some] at due'
      obtain rfl := Option.some.inj due'
      exact .inr ⟨b, found', ⟨some_, claimed⟩, below, less⟩

theorem Service.Kept.holds {s' : Service} {ev : Event} (kept : s.Kept) (keeps : s.Keeps ev) (step : s.step ev = some s') (up : s.deck = some d) (found : d.lanes[i]? = some a) {k : Nat} (holds : a.Holds c k) :
    s'.deck = none ∨ ∃ d', s'.deck = some d' ∧ ((∃ r, d'.root c k = some r ∧ r.state ≠ .running) ∨
      ∃ b, d'.lanes[i]? = some b ∧ b.Holds c k ∧ b.rank ≤ a.rank ∧ (ev.Takes s i → b.rank < a.rank)) := by
  have busy : d.lanes.isEmpty = false := by
    cases lanes : d.lanes with
    | nil => simp [lanes] at found
    | cons => rfl
  obtain ⟨stored, working⟩ := kept.lanes up busy
  cases ev with
  | works l =>
    simp only [Service.step, up, Service.works] at step
    split_ifs at step with free
    obtain ⟨⟨d', ws⟩, moves, out⟩ := map_eq_some_iff.1 step
    have here := working.holds stored (Deck.step_cases moves) (s.free_calm free).2.1 found holds
    refine .inr ⟨d', ?_, here⟩
    split at out <;> (cases out; rfl)
  | commits =>
    simp only [Service.step] at step
    split at step
    · cases step
      exact .inr ⟨d, up, .inr ⟨a, found, holds, le_rfl, fun h => h.elim⟩⟩
    · cases step
  | fails =>
    simp only [Service.step, up] at step
    split at step
    · rename_i j w rest head
      obtain ⟨d', throws, rfl⟩ := map_eq_some_iff.1 step
      obtain ⟨b, found', throws⟩ := bind_eq_some_iff.1 throws
      have calm := keeps d j w rest b up head found'
      have here := working.holds stored (.throws j b found' d' throws) (fun i' a' same lane => by
        cases same
        exact Option.some.inj (found'.symm.trans lane) ▸ calm) found holds
      refine .inr ⟨d', rfl, here.imp id ?_⟩
      rintro ⟨a', lane, still, below, less⟩
      refine ⟨a', lane, still, below, fun takes => less (.inr ?_)⟩
      obtain ⟨w', rest', head'⟩ := takes
      have owner := congrArg (fun q => (q.head?).bind Prod.fst) (head.symm.trans head')
      simpa using owner
    · rename_i w rest head
      split_ifs at step
      cases step
      refine .inr ⟨d, rfl, .inr ⟨a, found, holds, le_rfl, fun takes => ?_⟩⟩
      obtain ⟨w', rest', head'⟩ := takes
      have owner := congrArg (fun q => (q.head?).bind Prod.fst) (head.symm.trans head')
      simp at owner
    · cases step
  | crashes =>
    simp only [Service.step, up] at step
    cases step
    exact .inl rfl
  | exits =>
    simp only [Service.step, up] at step
    split_ifs at step
    cases step
    exact .inl rfl
  | boots now => simp [Service.step, up] at step
  | restores outcome =>
    simp only [Service.step, up] at step
    split_ifs at step
    simp [Service.restores, working.restored] at step
  | starts =>
    simp only [Service.step, up] at step
    split_ifs at step with idle
    simp [busy] at idle

/-! ### Behaviours -/

/-- What a service does for ever, from a state that it has reached. -/
structure Service.Behaviour (σ : ℕ → Service) (e : ℕ → Event) : Prop where
  start : Service.Run Service.Keeps (σ 0)
  step : ∀ n, (σ n).step (e n) = some (σ (n + 1))
  keeps : ∀ n, (σ n).Keeps (e n)

/-- A lane that has not left goes on again and again while the service runs, or its await throws. -/
def Service.Fair (σ : ℕ → Service) (e : ℕ → Event) : Prop :=
  ∀ i n, ∃ m, n ≤ m ∧ ((e m).Takes (σ m) i ∨ ∀ d, (σ m).deck = some d → ∀ a, d.lanes[i]? = some a → a = .left)

theorem Service.Behaviour.run {σ : ℕ → Service} {e : ℕ → Event} (behaves : Service.Behaviour σ e) (n : ℕ) :
    Service.Run Service.Keeps (σ n) := by
  induction n with
  | zero => exact behaves.start
  | succ n ih => exact ih.step (behaves.keeps n) (behaves.step n)

/-- A root that a lane holds leaves the running state, unless the service goes down first. -/
theorem Service.Behaviour.leaves {σ : ℕ → Service} {e : ℕ → Event} (behaves : Service.Behaviour σ e) (fair : Service.Fair σ e)
    {n : ℕ} (up : (σ n).deck = some d) (found : d.lanes[i]? = some a) {k : Nat}
    (holds : a.Holds c k) :
    ∃ m, n ≤ m ∧ ((σ m).deck = none ∨ ∃ d' r, (σ m).deck = some d' ∧ d'.root c k = some r ∧ r.state ≠ .running) := by
  by_contra never
  push Not at never
  let at_ : ℕ → Option At := fun m => ((σ m).deck).bind (fun d => d.lanes[i]?)
  let f : ℕ → Nat ×ₗ Nat := fun m => ((at_ m).map At.rank).getD (toLex (0, 0))
  -- the lane holds the root for ever
  have holder : ∀ m, n ≤ m → ∃ d a, (σ m).deck = some d ∧ d.lanes[i]? = some a ∧ a.Holds c k := by
    intro m later
    induction m, later using Nat.le_induction with
    | base => exact ⟨d, a, up, found, holds⟩
    | succ m later ih =>
      obtain ⟨d0, a0, up0, found0, holds0⟩ := ih
      rcases (behaves.run m).kept.holds (behaves.keeps m) (behaves.step m) up0 found0 holds0 with down | ⟨d1, up1, left | still⟩
      · exact absurd down (never (m + 1) (Nat.le_succ_of_le later)).1
      · obtain ⟨r, root, stops⟩ := left
        exact absurd ((never (m + 1) (Nat.le_succ_of_le later)).2 d1 r up1 root) stops
      · obtain ⟨b, found1, holds1, -⟩ := still
        exact ⟨d1, b, up1, found1, holds1⟩
  have steps : ∀ m, n ≤ m → f (m + 1) ≤ f m ∧ ((e m).Takes (σ m) i → f (m + 1) < f m) := by
    intro m later
    obtain ⟨d0, a0, up0, found0, holds0⟩ := holder m later
    rcases (behaves.run m).kept.holds (behaves.keeps m) (behaves.step m) up0 found0 holds0 with down | ⟨d1, up1, left | still⟩
    · exact absurd down (never (m + 1) (Nat.le_succ_of_le later)).1
    · obtain ⟨r, root, stops⟩ := left
      exact absurd ((never (m + 1) (Nat.le_succ_of_le later)).2 d1 r up1 root) stops
    · obtain ⟨b, found1, -, below, less⟩ := still
      have before : f m = a0.rank := by simp [f, at_, up0, found0]
      have after_ : f (m + 1) = b.rank := by simp [f, at_, up1, found1]
      rw [before, after_]
      exact ⟨below, less⟩
  obtain ⟨N, later, rests⟩ := Behaviours.not_always_falls (fun m h => (steps m h).1)
  obtain ⟨m, after_, takes | gone⟩ := fair i N
  · exact rests m after_ ((steps m (le_trans later after_)).2 takes)
  · obtain ⟨d0, a0, up0, found0, holds0⟩ := holder m (le_trans later after_)
    obtain rfl := gone d0 up0 a0 found0
    exact holds0.1 rfl

/-! ### The account of attempts -/

/-- Attempts have the numbers from 1 on. A root that one has settled gets no others, and no lane runs it. -/
def Service.Recorded (s : Service) : Prop :=
  ∀ (c k : Nat) e, rowAt s.catalog c k = some e →
    (∀ (j : Nat) a, e.attempts[j]? = some a → a.attempt = j + 1) ∧
    ∀ a ∈ e.attempts, a.settles = true →
      (∀ ev s', s.Keeps ev → s.step ev = some s' → ∃ e', rowAt s'.catalog c k = some e' ∧ e'.attempts = e.attempts) ∧
      ∀ d (i : Nat) b, s.deck = some d → d.lanes[i]? = some b → b.due c k = .free ∨ b.due c k = .decided .settled

/-- At rest, every attempt of a root that no lane works for is closed once, the root is settled exactly
when its latest attempt settled it, and memory has what the rows have. -/
def Service.Rested (s : Service) : Prop :=
  ∀ d, s.deck = some d → s.todo = [] → s.queue = [] → ∀ (c k : Nat) r e, d.root c k = some r → rowAt s.catalog c k = some e →
    (∀ (i : Nat) a, d.lanes[i]? = some a → a.due c k = .free) →
      (∀ a ∈ e.attempts, a.outcome.isSome = true ∧ a.closings = 1) ∧
        (e.state = .settled ↔ ∃ a, e.attempts.getLast? = some a ∧ a.settles = true) ∧ r.state = e.state ∧
        e.state ≠ .running ∧ r.attempts = e.attempts.length

/-- While the lanes run, the running roots are those that they hold, and each campaign counts its own. -/
def Service.Holding (s : Service) : Prop :=
  ∀ d, s.deck = some d → d.lanes ≠ [] →
    (∀ (c : Nat) x, d.campaigns[c]? = some x → x.inFlight = x.roots.countP (·.state = .running)) ∧
    ∀ (c k : Nat) r, d.root c k = some r → (r.state = .running ↔ ∃ (i : Nat) (a : At), d.lanes[i]? = some a ∧ a.Holds c k)

/-- A root that runs while the lanes run leaves the running state, unless the service goes down first. -/
def Service.Leaves (σ : ℕ → Service) : Prop :=
  ∀ n d, (σ n).deck = some d → d.lanes ≠ [] → ∀ (c k : Nat) r, d.root c k = some r → r.state = .running →
    ∃ m, n ≤ m ∧ ((σ m).deck = none ∨ ∃ d' r', (σ m).deck = some d' ∧ d'.root c k = some r' ∧ r'.state ≠ .running)

theorem Service.Kept.holding (kept : s.Kept) : s.Holding := by
  intro d up lanes
  obtain ⟨stored, working⟩ := kept.lanes up (by cases here : d.lanes <;> simp_all)
  refine ⟨working.counted, fun c k r root => ?_⟩
  obtain ⟨e, -, row⟩ := stored.rows root
  rw [(working.linked c k r _ root row).running_iff]
  constructor
  · rintro ⟨i, u, here, some_, claimed⟩
    obtain ⟨a, found, rfl⟩ := map_eq_some_iff.1 here
    exact ⟨i, a, found, some_, claimed⟩
  · rintro ⟨i, a, found, some_, claimed⟩
    exact ⟨i, _, by rw [Deck.due, found, map_some], some_, claimed⟩

/-- When no crash falls between an attempt that settles and its root's state, and no write fails that
a skip, a start or a settlement awaits, attempts are neither lost nor repeated. -/
theorem attempts_kept {s : Service} (run : Service.Run Service.Keeps s) :
    s.Recorded ∧ s.Rested ∧ s.Holding ∧
      ∀ σ e, σ 0 = s → Service.Behaviour σ e → Service.Fair σ e → Service.Leaves σ := by
  have kept := run.kept
  refine ⟨fun c k e found => ⟨RootRow.numbered (kept.now found), fun a member settles => ?_⟩, ?_, kept.holding, ?_⟩
  · have last := RootRow.settling (kept.now found) member settles
    exact ⟨fun ev s' keeps step => kept.frozen keeps step found last, fun d i b up lane => kept.settled up found last i b lane⟩
  · exact fun d up done empty c k r e root found free => (kept.rests up done empty root found free).closed
  · intro σ e _ behaves fair n d up lanes c k r root runs
    obtain ⟨i, a, found, holds⟩ := (((behaves.run n).kept.holding d up lanes).2 c k r root).1 runs
    exact behaves.leaves fair up found holds

/-! ### A crash between two commits, and a write that fails -/

/-- Lane 0 claims the root. -/
def claimedRoot : List Event := promoting ++ [.works (.goes 0), .works (.goes 0), .works (.goes 0)]

/-- The attempt starts, and it is recorded. -/
def recordingRoot : List Event :=
  claimedRoot ++ [.works (.goes 0), .commits, .commits, .works (.goes 0), .works (.goes 0)]

/-- The attempt is closed, the service crashes and is restored. -/
def halfSettled : List Event :=
  recordingRoot ++ [.works (.ends 0), .works (.analyzed 0 "complete"), .commits, .crashes, .boots 1, .restores none, .commits]

/-- A settled attempt is at rest in a pending root, and the root is claimed again; a root whose
attempt cannot be inserted is running for ever. -/
theorem attempts_repeat :
    (∃ s, Service.Run (fun _ ev => ev ≠ .fails) s ∧ ¬s.Rested) ∧ (∃ s, Service.Run (fun _ ev => ev ≠ .fails) s ∧ ¬s.Recorded) ∧
      ∃ s, Service.Run (fun _ ev => ev ≠ .crashes) s ∧ ¬s.Holding := by
  refine ⟨?_, ?_, ?_⟩
  · obtain ⟨s, d, r, e, played, up, todo, queue, lanes, root, row, state, latest⟩ : ∃ s d r e,
        Service.initial.plays halfSettled = some s ∧ s.deck = some d ∧ s.todo = [] ∧ s.queue = [] ∧ d.lanes = [] ∧
        d.root 0 0 = some r ∧ rowAt s.catalog 0 0 = some e ∧ e.state = .pending ∧
        e.attempts.getLast? = some ⟨1, some "complete", true, 1⟩ := ⟨_, _, _, _, rfl, rfl, rfl, rfl, rfl, rfl, rfl, rfl, rfl⟩
    refine ⟨s, Service.plays_run .start (fun s ev member => ?_) played, fun rested => ?_⟩
    · rintro rfl
      simp [halfSettled, recordingRoot, claimedRoot, promoting] at member
    · have settled := (rested d up todo queue 0 0 r e root row (by simp [lanes])).2.1.2 ⟨_, latest, rfl⟩
      simp [state] at settled
  · obtain ⟨s, d, e, played, up, lane, row, member⟩ : ∃ s d e,
        Service.initial.plays (halfSettled ++ [.starts, .works (.goes 0), .works (.goes 0), .works (.goes 0)]) = some s ∧
        s.deck = some d ∧ d.lanes[0]? = some (.claimed 0 0) ∧ rowAt s.catalog 0 0 = some e ∧
        e.attempts[0]? = some ⟨1, some "complete", true, 1⟩ := ⟨_, _, _, rfl, rfl, rfl, rfl, rfl⟩
    refine ⟨s, Service.plays_run .start (fun s ev member => ?_) played, fun recorded => ?_⟩
    · rintro rfl
      simp [halfSettled, recordingRoot, claimedRoot, promoting] at member
    · have idle := ((recorded 0 0 e row).2 _ (mem_of_getElem? member) rfl).2 d 0 _ up lane
      simp [At.due] at idle
  · obtain ⟨s, d, r, played, up, root, runs, free⟩ : ∃ s d r,
        Service.initial.plays (claimedRoot ++ [.works (.goes 0), .fails]) = some s ∧ s.deck = some d ∧
        d.root 0 0 = some r ∧ r.state = .running ∧ d.lanes.all (fun a => a.due 0 0 = .free) = true ∧ d.lanes ≠ [] :=
      ⟨_, _, _, rfl, rfl, rfl, rfl, by decide, by decide⟩
    refine ⟨s, Service.plays_run .start (fun s ev member => ?_) played, fun holding => ?_⟩
    · rintro rfl
      simp [claimedRoot, promoting] at member
    · obtain ⟨i, a, found, holds⟩ := ((holding d up free.2).2 0 0 r root).1 runs
      have none_ := List.all_eq_true.1 free.1 a (mem_of_getElem? found)
      exact holds.1 (by simpa using none_)

/-! ### A crash at rest, and a service that crashes while it records -/

/-- The attempt settles the root. -/
def settledRoot : List Event :=
  recordingRoot ++ [.works (.ends 0), .works (.analyzed 0 "complete"), .commits, .commits, .works (.goes 0)]

theorem keeps_plays {s' : Service} {es : List Event} (run : Service.Run Service.Keeps s)
    (calm : ∀ e ∈ es, e ≠ .crashes ∧ e ≠ .fails) (played : s.plays es = some s') : Service.Run Service.Keeps s' := by
  refine Service.plays_run run (fun t e member => ?_) played
  obtain ⟨stands, works⟩ := calm e member
  cases e with
  | crashes => exact absurd rfl stands
  | fails => exact absurd rfl works
  | _ => trivial

def Service.crashed (s : Service) : Service := { s with deck := none, todo := [], queue := [], total := s.catalog.map Entry.used }

def Service.booted (s : Service) : Service :=
  { s with deck := some ⟨1, false, false, s.catalog.map (Entry.load 1), [], []⟩, todo := tasks s.catalog }

/-- From now on the service crashes whenever it has been started. -/
def Service.crashing (s : Service) : ℕ → Service
  | 0 => s
  | n + 1 => if n % 2 = 0 then s.crashed else s.crashed.booted

def crashing (n : ℕ) : Event := if n % 2 = 0 then .crashes else .boots 1

theorem crashing_behaviour (run : Service.Run Service.Keeps s) (up : s.deck = some d)
    (empty : s.queue = []) : Service.Behaviour s.crashing crashing ∧ Service.Fair s.crashing crashing := by
  have down : ∀ n, n % 2 = 0 → s.crashing (n + 1) = s.crashed := fun n even => if_pos even
  have back : ∀ n, n % 2 = 1 → s.crashing (n + 1) = s.crashed.booted := fun n odd => if_neg (by omega)
  refine ⟨⟨run, fun n => ?_, fun n => ?_⟩, fun i n => ?_⟩
  · rcases Nat.mod_two_eq_zero_or_one n with even | odd
    · rw [down n even, crashing, if_pos even]
      cases n with
      | zero => simp only [Service.crashing, Service.step, up, Service.crashed]
      | succ n => rw [back n (by omega)]; rfl
    · obtain ⟨m, rfl⟩ : ∃ m, n = m + 1 := ⟨n - 1, by omega⟩
      rw [back (m + 1) odd, crashing, if_neg (by omega), down m (by omega)]
      rfl
  · rw [crashing]
    split_ifs with even
    · cases n with
      | zero => exact fun o c k rest head => by simp [Service.crashing, empty] at head
      | succ n =>
        rw [back n (by omega)]
        exact fun o c k rest head => by cases head
    · trivial
  · refine ⟨2 * n + 1, by omega, .inr (fun d up' => ?_)⟩
    rw [down (2 * n) (by omega)] at up'
    cases up'

/-- A root that is settled stays so over a crash; one that is recorded when the service goes down is not running then. -/
theorem attempts_kept_crashed :
    (∃ s d r e, Service.Run Service.Keeps s ∧ s.deck = some d ∧ s.todo = [] ∧ s.queue = [] ∧ d.root 0 0 = some r ∧
      rowAt s.catalog 0 0 = some e ∧ r.state = .settled ∧ e.attempts.length = 1 ∧ s.Recorded ∧ s.Rested ∧ s.Holding) ∧
    ∃ σ e d r, Service.Behaviour σ e ∧ Service.Fair σ e ∧ (σ 0).deck = some d ∧ d.lanes ≠ [] ∧ d.root 0 0 = some r ∧
      r.state = .running ∧ Service.Leaves σ := by
  constructor
  · obtain ⟨s0, d0, played, up0, empty⟩ : ∃ s d, Service.initial.plays settledRoot = some s ∧ s.deck = some d ∧ s.queue = [] :=
      ⟨_, _, rfl, rfl, rfl⟩
    have run0 : Service.Run Service.Keeps s0 := by
      refine keeps_plays .start (fun e member => ?_) played
      simp only [settledRoot, recordingRoot, claimedRoot, promoting, cons_append, nil_append, mem_cons,
        not_mem_nil, or_false] at member
      constructor <;> (rintro rfl; simp at member)
    have run1 : Service.Run Service.Keeps s0.crashed :=
      run0.step (e := .crashes) (fun o c k rest head => by simp [empty] at head) (by simp only [Service.step, up0, Service.crashed])
    obtain ⟨s, d, r, e, played1, rest⟩ : ∃ s d r e, (Service.initial.plays settledRoot).bind (fun t =>
        t.crashed.plays [.boots 1, .restores none]) = some s ∧ s.deck = some d ∧ s.todo = [] ∧ s.queue = [] ∧
        d.root 0 0 = some r ∧ rowAt s.catalog 0 0 = some e ∧ r.state = .settled ∧ e.attempts.length = 1 :=
      ⟨_, _, _, _, rfl, rfl, rfl, rfl, rfl, rfl, rfl, rfl⟩
    rw [played, bind_some] at played1
    have run : Service.Run Service.Keeps s := keeps_plays run1 (by simp) played1
    obtain ⟨up, todo, queue, root, row, state, one⟩ := rest
    obtain ⟨recorded, rested, holding, -⟩ := attempts_kept run
    exact ⟨s, d, r, e, run, up, todo, queue, root, row, state, one, recorded, rested, holding⟩
  · obtain ⟨s, d, r, played, up, queue, lanes, root, runs⟩ : ∃ s d r, Service.initial.plays recordingRoot = some s ∧
        s.deck = some d ∧ s.queue = [] ∧ d.lanes ≠ [] ∧ d.root 0 0 = some r ∧ r.state = .running :=
      ⟨_, _, _, rfl, rfl, rfl, by decide, rfl, rfl⟩
    have run : Service.Run Service.Keeps s := by
      refine keeps_plays .start (fun e member => ?_) played
      simp only [recordingRoot, claimedRoot, promoting, cons_append, nil_append, mem_cons,
        not_mem_nil, or_false] at member
      constructor <;> (rintro rfl; simp at member)
    obtain ⟨behaves, fair⟩ := crashing_behaviour run up queue
    exact ⟨s.crashing, crashing, d, r, behaves, fair, up, lanes, root, runs, (attempts_kept run).2.2.2 _ _ rfl behaves fair⟩

end Campaigns
