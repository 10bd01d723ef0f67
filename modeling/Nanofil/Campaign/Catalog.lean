import Nanofil.Campaign.Sessions

/-! `catalog.cc` and the life of the service: commits one at a time, crashes between them, restore. -/
namespace Campaigns
open List Option

/-- A row of `attempts`; an outcome settles unless its note says that the root goes on. -/
structure Attempt where
  attempt : Nat
  outcome : Option String
  settles : Bool
  closings : Nat
deriving DecidableEq, Repr

/-- A row of `roots` with its attempts, in the order of their numbers. -/
structure RootRow where
  name : String
  drv : String
  needs : List String
  state : RootState
  attempts : List Attempt
deriving DecidableEq, Repr

/-- A row of `campaigns`. -/
structure Entry where
  id : String
  policy : Policy
  state : CampaignState
  priority : Int
  created : Int
  used : Int
  roots : List RootRow

def Campaign.entry (x : Campaign) : Entry :=
  ⟨x.id, x.policy, x.state, x.priority, x.created, x.used, x.roots.map (fun r => ⟨r.name, r.drv, r.needs, r.state, []⟩)⟩

def Entry.setRoot (k : Nat) (f : RootRow → RootRow) (e : Entry) : Entry := { e with roots := e.roots.modify k f }

def Attempt.finish (attempt : Nat) (outcome : String) (settles : Bool) (a : Attempt) : Attempt :=
  if a.attempt = attempt then ⟨a.attempt, some outcome, settles, a.closings + 1⟩ else a

/-- One statement on a root's rows. A skipped attempt is inserted closed. -/
def Write.onRoot : Write → RootRow → RootRow
  | .insertAttempt _ _ attempt outcome, r =>
    { r with attempts := r.attempts ++ [⟨attempt, outcome, outcome.isSome, if outcome.isSome then 1 else 0⟩] }
  | .setRootState _ _ state, r => { r with state := state }
  | .finishAttempt _ _ attempt outcome settles, r =>
    { r with attempts := r.attempts.map (Attempt.finish attempt outcome settles) }
  | _, r => r

def Write.apply (catalog : List Entry) (w : Write) : List Entry :=
  match w with
  | .insertCampaign c => catalog ++ [c.entry]
  | .updateCampaign c state used => catalog.modify c (fun e => { e with state := state, used := used.getD e.used })
  | .updatePriority c p => catalog.modify c (fun e => { e with priority := p })
  | .insertAttempt c k _ _ | .setRootState c k _ | .finishAttempt c k _ _ _ =>
    catalog.modify c (Entry.setRoot k w.onRoot)

/-- What restore does after the load: it closes the open attempts, then it resets running roots. -/
inductive Task
  | closes (c k attempt : Nat)
  | resets (c k : Nat)
deriving DecidableEq, Repr

/-- The service between its starts: what it holds, what restore has still to do, the catalog, the
writes its thread has not carried out with the lanes that await them, and the time each campaign
was running, as far as it was written. -/
structure Service where
  deck : Option Deck
  todo : List Task
  catalog : List Entry
  queue : List (Option Nat × Write)
  total : List Int

def RootRow.load (r : RootRow) : Root :=
  ⟨r.name, r.drv, r.needs, r.state, (r.attempts.getLast?.bind (·.outcome)).getD "", r.attempts.length⟩

def Entry.load (now : Int) (e : Entry) : Campaign :=
  ⟨e.id, e.policy, e.state, e.priority, e.created, e.used, if e.state = .running then now else 0,
    e.roots.map RootRow.load, 0⟩

/-- The tasks of one root: its open attempts. -/
def RootRow.opened (c k : Nat) (r : RootRow) : List Task :=
  (r.attempts.filter (·.outcome.isNone)).map (fun a => .closes c k a.attempt)

def tasks (catalog : List Entry) : List Task :=
  ((catalog.zipIdx.flatMap (fun (e, c) => e.roots.zipIdx.flatMap (fun (r, k) => r.opened c k))) ++
    catalog.zipIdx.flatMap (fun (e, c) => e.roots.zipIdx.map (fun (_, k) => Task.resets c k)))

/-- A lane's awaits of something else than the catalog. -/
def At.elsewhere : At → Bool
  | .opening _ | .claimed .. | .requesting .. => true
  | _ => false

inductive Event
  | works (l : Label)
  | commits
  | fails
  | crashes
  | exits
  | boots (now : Int)
  | restores (outcome : Option String)
  | starts

/-- The lane whose own step a label is. -/
def Label.acts : Label → Option Nat
  | .goes i | .ends i | .analyzed i _ | .throws i => some i
  | _ => none

def Service.awaits (s : Service) (i : Nat) : Bool := s.queue.any (fun p => p.1 = some i)

/-- A lane goes on when its writes are carried out; it throws by itself only elsewhere. While
restore works nothing happens but that time passes. -/
def Service.free (s : Service) (d : Deck) (l : Label) : Bool :=
  (l.acts.all fun i => !s.awaits i) &&
    match l with
    | .passes _ => true
    | .throws i => s.todo = [] && !d.lanes.isEmpty && (d.lanes[i]?).any At.elsewhere
    | _ => s.todo = [] && !d.lanes.isEmpty

/-- Time passes for the campaigns that run. -/
def charged (time : Nat) (total : List Int) (campaigns : List Campaign) : List Int :=
  total.mapIdx (fun c t => if (campaigns[c]?).any (fun x => x.state = CampaignState.running) then t + time else t)

def Service.works (s : Service) (d : Deck) (l : Label) : Option Service :=
  if s.free d l then
    (d.step l).map fun (d', ws) =>
      match l with
      | .command (.create ..) =>
        -- the campaign is loaded when its insert has been carried out
        { s with deck := some d', catalog := ws.foldl Write.apply s.catalog, total := s.total ++ [0] }
      | .passes time => { s with deck := some d', total := charged time s.total d.campaigns }
      | _ => { s with deck := some d', queue := s.queue ++ ws.map (fun w => (l.acts, w)) }
  else none

def Deck.setRoot (d : Deck) (c k : Nat) (f : Root → Root) : Deck := d.update c (Campaign.setRoot k f)

/-- One task of restore: an attempt that the recording has as complete is settled as analyzed. -/
def Service.restores (s : Service) (d : Deck) (outcome : Option String) : Option Service :=
  match s.todo with
  | .closes c k attempt :: todo =>
    let next := if outcome.isSome then RootState.settled else .pending
    let closed := outcome.getD "incomplete"
    some { s with
      deck := some (d.setRoot c k (fun r => { r with state := next, outcome := closed }))
      todo := todo
      queue := s.queue ++ [(none, .finishAttempt c k attempt closed outcome.isSome), (none, .setRootState c k next)] }
  | .resets c k :: todo =>
    let runs := ((d.campaigns[c]?).bind (·.roots[k]?)).any (·.state = .running)
    some { s with
      deck := some (if runs then d.setRoot c k (fun r => { r with state := .pending }) else d)
      todo := todo
      queue := s.queue ++ if runs then [(none, .setRootState c k .pending)] else [] }
  | [] => none

def Service.step (s : Service) (e : Event) : Option Service :=
  match e, s.deck with
  | .works l, some d => s.works d l
  | .commits, _ =>
    match s.queue with
    | (_, w) :: queue => some { s with catalog := w.apply s.catalog, queue := queue }
    | [] => none
  | .fails, some d =>
    match s.queue with
    | (some i, _) :: queue =>
      ((d.lanes[i]?).bind (d.throws i)).map fun d' =>
        { s with deck := some d', queue := queue.filter (fun p => p.1 ≠ some i) }
    | (none, _) :: queue => if d.lanes.isEmpty then none else some { s with queue := queue }
    | [] => none
  | .crashes, some _ => some { s with deck := none, todo := [], queue := [], total := s.catalog.map Entry.used }
  | .exits, some d =>
    if s.todo = [] && s.queue.isEmpty && d.stop && d.lanes.all (· = .left) then some { s with deck := none } else none
  | .boots now, none =>
    if 0 < now then
      some { s with
        deck := some ⟨now, false, false, s.catalog.map (Entry.load now), [], []⟩
        todo := tasks s.catalog }
    else none
  | .restores outcome, some d => if s.queue.isEmpty then s.restores d outcome else none
  | .starts, some d =>
    if s.todo = [] && s.queue.isEmpty && d.lanes.isEmpty then
      some { s with deck := some { d with lanes := List.replicate 32 .top } }
    else none
  | _, _ => none

/-- A new service, with an empty catalog. -/
def Service.initial : Service := ⟨none, [], [], [], []⟩

/-- A run of the service whose events all meet a condition on what is before them. -/
inductive Service.Run (meets : Service → Event → Prop) : Service → Prop
  | start : Run meets .initial
  | step {s s' : Service} {e : Event} (run : Run meets s) (h : meets s e) (step : s.step e = some s') : Run meets s'

/-! The rows of one root: what each commit makes of them, and where a crash leaves them sound. -/

/-- Attempts 1 to n, each closed once, none of them settling. -/
def Past (past : List Attempt) : Prop :=
  ∀ (j : Nat) a, past[j]? = some a → a.attempt = j + 1 ∧ a.outcome.isSome = true ∧ a.closings = 1 ∧ a.settles = false

def RootRow.Free (n : Nat) (r : RootRow) : Prop := Past r.attempts ∧ r.attempts.length = n

/-- The latest attempt is open. -/
def RootRow.Open (n : Nat) (r : RootRow) : Prop :=
  ∃ past, r.attempts = past ++ [⟨n, none, false, 0⟩] ∧ Past past ∧ past.length + 1 = n

/-- The latest attempt has settled the root. -/
def RootRow.Last (n : Nat) (r : RootRow) : Prop :=
  ∃ past outcome, r.attempts = past ++ [⟨n, some outcome, true, 1⟩] ∧ Past past ∧ past.length + 1 = n

/-- The rows agree with the root's state, or restore makes them agree. -/
inductive RootRow.Sound (r : RootRow) : Prop
  | free (n : Nat) (free : r.Free n) (state : r.state ≠ .settled)
  | opened (n : Nat) (opened : r.Open n) (state : r.state ≠ .settled)
  | last (n : Nat) (last : r.Last n) (state : r.state = .settled)

/-- A write to rows other than this root's. -/
def Write.Elsewhere (c k : Nat) : Write → Prop
  | .insertCampaign _ => False
  | .insertAttempt c' k' _ _ | .setRootState c' k' _ | .finishAttempt c' k' _ _ _ => ¬(c' = c ∧ k' = k)
  | _ => True

/-- What a write makes of one root's rows. -/
def Write.on (c k : Nat) (w : Write) (r : RootRow) : RootRow :=
  match w with
  | .insertAttempt c' k' _ _ | .setRootState c' k' _ | .finishAttempt c' k' _ _ _ =>
    if c' = c ∧ k' = k then w.onRoot r else r
  | _ => r

def rowAt (catalog : List Entry) (c k : Nat) : Option RootRow := (catalog[c]?).bind (fun e => e.roots[k]?)

variable {c n : Nat} {r : RootRow} {ws : List Write}

theorem Write.Elsewhere.on {k : Nat} {w : Write} (elsewhere : w.Elsewhere c k) (r : RootRow) : w.on c k r = r := by
  cases w with
  | insertAttempt | setRootState | finishAttempt => exact if_neg elsewhere
  | _ => rfl

theorem setRoot_row (catalog : List Entry) (c c' k k' : Nat) (f : RootRow → RootRow) :
    rowAt (catalog.modify c' (Entry.setRoot k' f)) c k =
      (rowAt catalog c k).map (fun r => if c' = c ∧ k' = k then f r else r) := by
  unfold rowAt
  rw [getElem?_modify]
  cases catalog[c]? with
  | none => rfl
  | some e =>
    by_cases here : c' = c
    · subst here
      simp only [ite_true, Option.map_eq_map, map_some, bind_some, Entry.setRoot, getElem?_modify,
        true_and]
    · simp [here]

theorem modify_row (catalog : List Entry) (c c' k : Nat) (f : Entry → Entry) (same : ∀ e, (f e).roots = e.roots) :
    rowAt (catalog.modify c' f) c k = rowAt catalog c k := by
  unfold rowAt
  rw [getElem?_modify]
  cases catalog[c]? with
  | none => rfl
  | some e =>
    by_cases here : c' = c
    · simp [here, same]
    · simp [here]

theorem apply_row {w : Write} (old : ∀ x, w ≠ .insertCampaign x) (catalog : List Entry) (c k : Nat) :
    rowAt (w.apply catalog) c k = (rowAt catalog c k).map (w.on c k) := by
  cases w with
  | insertCampaign x => exact absurd rfl (old x)
  | updateCampaign c' state used =>
    refine (modify_row catalog c c' k _ (fun e => by rfl)).trans ?_
    cases rowAt catalog c k <;> rfl
  | updatePriority c' p =>
    refine (modify_row catalog c c' k _ (fun e => by rfl)).trans ?_
    cases rowAt catalog c k <;> rfl
  | insertAttempt c' k' attempt outcome => exact setRoot_row catalog c c' k k' _
  | setRootState c' k' state => exact setRoot_row catalog c c' k k' _
  | finishAttempt c' k' attempt outcome settles => exact setRoot_row catalog c c' k k' _

/-- A crash before any of these writes finds the rows sound, or settled but for the root's state. -/
def Chain (c k : Nat) : List Write → RootRow → Prop
  | [], r => r.Sound
  | w :: ws, r => (r.Sound ∨ w = .setRootState c k .settled ∧ ∃ n, r.Last n) ∧ Chain c k ws (w.on c k r)

/-- The rows when all writes are carried out. -/
def after (c k : Nat) (ws : List Write) (r : RootRow) : RootRow := ws.foldl (fun r w => w.on c k r) r

theorem Chain.sound {k : Nat} (chain : Chain c k ws r) : (after c k ws r).Sound := by
  induction ws generalizing r with
  | nil => exact chain
  | cons w ws ih => exact ih chain.2

theorem Chain.append {k : Nat} {vs : List Write} (first : Chain c k ws r)
    (second : Chain c k vs (after c k ws r)) : Chain c k (ws ++ vs) r := by
  induction ws generalizing r with
  | nil => exact second
  | cons w ws ih => exact ⟨first.1, ih first.2 second⟩

theorem after_append (c k : Nat) (ws vs : List Write) (r : RootRow) :
    after c k (ws ++ vs) r = after c k vs (after c k ws r) := foldl_append ..

theorem after_elsewhere {k : Nat} (elsewhere : ∀ w ∈ ws, w.Elsewhere c k) (r : RootRow) : after c k ws r = r := by
  induction ws with
  | nil => rfl
  | cons w ws ih =>
    have first := (elsewhere w (mem_cons_self ..)).on r
    rw [after, foldl_cons, first]
    exact ih (fun w member => elsewhere w (mem_cons_of_mem _ member))

theorem Chain.of_elsewhere {k : Nat} (elsewhere : ∀ w ∈ ws, w.Elsewhere c k) (sound : r.Sound) : Chain c k ws r := by
  induction ws with
  | nil => exact sound
  | cons w ws ih =>
    refine ⟨.inl sound, ?_⟩
    rw [(elsewhere w (mem_cons_self ..)).on r]
    exact ih (fun w member => elsewhere w (mem_cons_of_mem _ member))

/-- Writes elsewhere may be dropped. -/
theorem Chain.drop {k : Nat} {p : Option Nat × Write → Bool} {ws : List (Option Nat × Write)}
    (chain : Chain c k (ws.map Prod.snd) r) (elsewhere : ∀ w ∈ ws, p w = false → w.2.Elsewhere c k) :
    Chain c k ((ws.filter p).map Prod.snd) r ∧
      after c k ((ws.filter p).map Prod.snd) r = after c k (ws.map Prod.snd) r := by
  induction ws generalizing r with
  | nil => exact ⟨chain, rfl⟩
  | cons w ws ih =>
    have rest := ih chain.2 (fun w member => elsewhere w (mem_cons_of_mem _ member))
    by_cases keep : p w = true
    · rw [filter_cons_of_pos keep]
      exact ⟨⟨chain.1, rest.1⟩, rest.2⟩
    · have same := (elsewhere w (mem_cons_self ..) (by simpa using keep)).on r
      rw [filter_cons_of_neg keep]
      rw [same] at rest
      refine ⟨rest.1, rest.2.trans ?_⟩
      simp only [after, map_cons, foldl_cons, same]

/-! ### The three pairs of writes -/

theorem Past.append {past : List Attempt} (old : Past past) {a : Attempt} (number : a.attempt = past.length + 1)
    (closed : a.outcome.isSome = true) (once : a.closings = 1) (free : a.settles = false) : Past (past ++ [a]) := by
  intro j b found
  rw [getElem?_append] at found
  split_ifs at found with bound
  · exact old j b found
  · have last := (List.getElem?_eq_some_iff.1 found).1
    have same : j - past.length = 0 := by simpa using last
    rw [same] at found
    obtain rfl : a = b := by simpa using found
    exact ⟨by omega, closed, once, free⟩

/-- A root is started: its attempt is inserted, then it runs. -/
theorem start_chain {k : Nat} (free : r.Free n) (state : r.state = .pending) :
    Chain c k [.insertAttempt c k (n + 1) none, .setRootState c k .running] r ∧
      (after c k [.insertAttempt c k (n + 1) none, .setRootState c k .running] r).Open (n + 1) ∧
      (after c k [.insertAttempt c k (n + 1) none, .setRootState c k .running] r).state = .running := by
  have opened : RootRow.Open (n + 1) { r with attempts := r.attempts ++ [⟨n + 1, none, false, 0⟩] } :=
    ⟨r.attempts, rfl, free.1, by rw [free.2]⟩
  have one : (Write.insertAttempt c k (n + 1) none).on c k r = { r with attempts := r.attempts ++ [⟨n + 1, none, false, 0⟩] } := by
    simp [Write.on, Write.onRoot]
  have two : (Write.setRootState c k .running).on c k { r with attempts := r.attempts ++ [⟨n + 1, none, false, 0⟩] } =
      { r with attempts := r.attempts ++ [⟨n + 1, none, false, 0⟩], state := .running } := by
    simp [Write.on, Write.onRoot]
  have done : after c k [.insertAttempt c k (n + 1) none, .setRootState c k .running] r =
      { r with attempts := r.attempts ++ [⟨n + 1, none, false, 0⟩], state := .running } := by
    simp only [after, foldl_cons, foldl_nil, one, two]
  refine ⟨⟨.inl (.free n free (by simp [state])), ?_⟩, by rw [done]; exact opened, by rw [done]⟩
  rw [one]
  refine ⟨.inl (.opened (n + 1) opened (by simp [state])), ?_⟩
  rw [two]
  exact .opened (n + 1) opened (by simp)

/-- A root is skipped: its attempt is inserted closed, then it is settled. -/
theorem skip_chain {k : Nat} (free : r.Free n) (state : r.state = .pending) (outcome : String) :
    Chain c k [.insertAttempt c k (n + 1) (some outcome), .setRootState c k .settled] r ∧
      (after c k [.insertAttempt c k (n + 1) (some outcome), .setRootState c k .settled] r).Last (n + 1) ∧
      (after c k [.insertAttempt c k (n + 1) (some outcome), .setRootState c k .settled] r).state = .settled := by
  have last : RootRow.Last (n + 1) { r with attempts := r.attempts ++ [⟨n + 1, some outcome, true, 1⟩] } :=
    ⟨r.attempts, outcome, rfl, free.1, by rw [free.2]⟩
  have one : (Write.insertAttempt c k (n + 1) (some outcome)).on c k r =
      { r with attempts := r.attempts ++ [⟨n + 1, some outcome, true, 1⟩] } := by simp [Write.on, Write.onRoot]
  have two : (Write.setRootState c k .settled).on c k { r with attempts := r.attempts ++ [⟨n + 1, some outcome, true, 1⟩] } =
      { r with attempts := r.attempts ++ [⟨n + 1, some outcome, true, 1⟩], state := .settled } := by
    simp [Write.on, Write.onRoot]
  have done : after c k [.insertAttempt c k (n + 1) (some outcome), .setRootState c k .settled] r =
      { r with attempts := r.attempts ++ [⟨n + 1, some outcome, true, 1⟩], state := .settled } := by
    simp only [after, foldl_cons, foldl_nil, one, two]
  refine ⟨⟨.inl (.free n free (by simp [state])), ?_⟩, by rw [done]; exact last, by rw [done]⟩
  rw [one]
  refine ⟨.inr ⟨rfl, n + 1, last⟩, ?_⟩
  rw [two]
  exact .last (n + 1) last rfl

theorem finish_past {past : List Attempt} (old : Past past) (later : past.length + 1 ≤ n) (outcome : String)
    (settles : Bool) : past.map (Attempt.finish n outcome settles) = past := by
  refine ext_getElem? (fun j => ?_)
  rw [getElem?_map]
  cases found : past[j]? with
  | none => rfl
  | some a =>
    have bound := (List.getElem?_eq_some_iff.1 found).1
    have number := (old j a found).1
    have other : a.attempt ≠ n := by omega
    simp [Attempt.finish, other]

/-- An open attempt is closed, then the root is settled or pending. -/
theorem finish_chain {k : Nat} (opened : r.Open n) (state : r.state ≠ .settled) (outcome : String)
    {next : RootState} (ends : next = .settled ∨ next = .pending) {settles : Bool} (same : settles = decide (next = .settled)) :
    Chain c k [.finishAttempt c k n outcome settles, .setRootState c k next] r ∧
      (after c k [.finishAttempt c k n outcome settles, .setRootState c k next] r).state = next ∧
      (next = .settled → (after c k [.finishAttempt c k n outcome settles, .setRootState c k next] r).Last n) ∧
      (next = .pending → (after c k [.finishAttempt c k n outcome settles, .setRootState c k next] r).Free n) := by
  obtain ⟨past, attempts, old, length⟩ := opened
  have finished : r.attempts.map (Attempt.finish n outcome settles) = past ++ [⟨n, some outcome, settles, 1⟩] := by
    rw [attempts, map_append, finish_past old (by omega)]
    simp [Attempt.finish]
  have one : (Write.finishAttempt c k n outcome settles).on c k r =
      { r with attempts := past ++ [⟨n, some outcome, settles, 1⟩] } := by simp [Write.on, Write.onRoot, finished]
  have two : (Write.setRootState c k next).on c k { r with attempts := past ++ [⟨n, some outcome, settles, 1⟩] } =
      { r with attempts := past ++ [⟨n, some outcome, settles, 1⟩], state := next } := by
    simp [Write.on, Write.onRoot]
  have done : after c k [.finishAttempt c k n outcome settles, .setRootState c k next] r =
      { r with attempts := past ++ [⟨n, some outcome, settles, 1⟩], state := next } := by
    simp only [after, foldl_cons, foldl_nil, one, two]
  have first : r.Sound := .opened n ⟨past, attempts, old, length⟩ state
  rcases ends with rfl | rfl
  · obtain rfl : settles = true := by simpa using same
    refine ⟨⟨.inl first, ?_⟩, by rw [done], fun _ => ?_, by simp⟩
    · rw [one]
      refine ⟨.inr ⟨rfl, n, past, outcome, rfl, old, length⟩, ?_⟩
      rw [two]
      exact .last n ⟨past, outcome, rfl, old, length⟩ rfl
    · rw [done]
      exact ⟨past, outcome, rfl, old, length⟩
  · obtain rfl : settles = false := by simpa using same
    have free : Past (past ++ [⟨n, some outcome, false, 1⟩]) := old.append length.symm rfl rfl rfl
    have size : (past ++ [(⟨n, some outcome, false, 1⟩ : Attempt)]).length = n := by simp [length]
    refine ⟨⟨.inl first, ?_⟩, by rw [done], by simp, fun _ => ?_⟩
    · rw [one]
      refine ⟨.inl (.free n ⟨free, size⟩ state), ?_⟩
      rw [two]
      exact .free n ⟨free, size⟩ (by simp)
    · rw [done]
      exact ⟨free, size⟩

/-- A running root whose attempts are all closed is pending again. -/
theorem reset_chain {k : Nat} (free : r.Free n) (state : r.state = .running) :
    Chain c k [.setRootState c k .pending] r ∧ (after c k [.setRootState c k .pending] r).state = .pending ∧
      (after c k [.setRootState c k .pending] r).Free n := by
  have one : (Write.setRootState c k .pending).on c k r = { r with state := .pending } := by simp [Write.on, Write.onRoot]
  refine ⟨⟨.inl (.free n free (by simp [state])), ?_⟩, ?_, ?_⟩
  · rw [one]
    exact .free n free (by simp)
  · simp only [after, foldl_cons, foldl_nil, one]
  · simp only [after, foldl_cons, foldl_nil, one]
    exact free

end Campaigns
