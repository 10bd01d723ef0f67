import Nanofil.Campaign.Links

/-! Which lane awaits which writes, and how many roots of a campaign are in flight. -/
namespace Campaigns
open List Option

theorem skips_writing (d : Deck) (i c : Nat) (roots : List Root) (k : Option Nat) (skipped : List Nat) :
    (d.skips i c roots k skipped).2 = [] ∨ ∃ rest, (d.skips i c roots k skipped).1 = d.move i (.skipping c rest k) := by
  cases skipped with
  | cons j rest => exact .inr ⟨rest, rfl⟩
  | nil => cases k <;> exact .inl rfl

variable {c : Nat} {x : Campaign} {a : At} {d' : Deck} {ws : List Write} {l : Label}

theorem skips_bounded {d : Deck} (there : d.campaigns[c]? = some x) (e : Deck) (i : Nat)
    (roots : List Root) (k : Option Nat) (skipped : List Nat) {c' : Nat} (beyond : d.campaigns.length ≤ c') (k' : Nat) :
    ∀ w ∈ (e.skips i c roots k skipped).2, w.Elsewhere c' k' := by
  have bound := (List.getElem?_eq_some_iff.1 there).1
  intro w member
  rw [skips_writes] at member
  cases head : skipped.head? with
  | none => simp [head] at member
  | some j =>
    rw [head] at member
    exact skipWrites_elsewhere roots (by omega) w member

/-- Writes to rows are of campaigns that are there, and a lane awaits them. -/
theorem Deck.Goes.written {d : Deck} {i : Nat} (goes : d.Goes i a d' ws)
    (found : d.lanes[i]? = some a) {w : Write} (member : w ∈ ws) :
    (∀ c k, w.Elsewhere c k) ∨ (∀ c k, d.campaigns.length ≤ c → w.Elsewhere c k) ∧
      ∃ b, d'.lanes[i]? = some b ∧ b.writes = true := by
  cases goes with
  | promotes | finishes | pauses =>
    rw [mem_singleton.1 member]
    exact .inl fun _ _ => trivial
  | takes c x there lane left roots skipped k next =>
    refine .inr ⟨fun c' k' beyond => skips_bounded there _ i roots k skipped beyond k' w member, ?_⟩
    rcases skips_writing (d.update c (Campaign.take roots k)) i c roots k skipped with none_ | ⟨rest, moved⟩
    · simp [none_] at member
    · exact ⟨_, by rw [moved]; exact set_at found _, rfl⟩
  | skips c rest k x there =>
    refine .inr ⟨fun c' k' beyond => skips_bounded there _ i x.roots k rest beyond k' w member, ?_⟩
    rcases skips_writing d i c x.roots k rest with none_ | ⟨rest', moved⟩
    · simp [none_] at member
    · exact ⟨_, by rw [moved]; exact set_at found _, rfl⟩
  | claims c k x r there root =>
    have bound := (List.getElem?_eq_some_iff.1 there).1
    refine .inr ⟨fun c' k' beyond => ?_, _, set_at found _, rfl⟩
    simp only [mem_cons, not_mem_nil, or_false] at member
    rcases member with rfl | rfl <;> exact fun same => by omega
  | _ => cases member

theorem Deck.Moves.written {d : Deck} (moves : d.Moves l d' ws) (old : l.creates = false) {w : Write} (member : w ∈ ws) :
    (∀ c k, w.Elsewhere c k) ∨ (∀ c k, d.campaigns.length ≤ c → w.Elsewhere c k) ∧
      ∃ i b, l.acts = some i ∧ d'.lanes[i]? = some b ∧ b.writes = true := by
  cases moves with
  | goes i a found d' ws goes =>
    exact (goes.written found member).imp id (fun h => ⟨h.1, i, h.2.imp fun b lane => ⟨rfl, lane⟩⟩)
  | creates => cases old
  | pauses | resumes | cancels | ranks =>
    rw [mem_singleton.1 member]
    exact .inl fun _ _ => trivial
  | analyzed i c k stopping operatorCancel outcome found x r there root =>
    have bound := (List.getElem?_eq_some_iff.1 there).1
    refine .inr ⟨fun c' k' beyond => ?_, i, _, rfl, set_at found _, rfl⟩
    simp only [mem_cons, not_mem_nil, or_false] at member
    rcases member with rfl | rfl <;> exact fun same => by omega
  | _ => cases member

theorem flagged_writes (c : Nat) (a : At) : (a.flagged c).writes = a.writes := by cases a <;> rfl

/-- A lane whose own step it is not awaits what it awaited. -/
theorem Deck.Moves.awaiting {d : Deck} (moves : d.Moves l d' ws) {j : Nat}
    (found : d.lanes[j]? = some a) (other : l.acts ≠ some j) : ∃ b, d'.lanes[j]? = some b ∧ b.writes = a.writes := by
  have moved : ∀ (i : Nat) (b : At), l.acts = some i → (d.lanes.set i b)[j]? = some a := by
    intro i b mine
    rw [set_other b (fun same => other (mine.trans (congrArg some same.symm))), found]
  cases moves with
  | goes i a' found' d' ws goes =>
    obtain ⟨-, -, -, b, lanes, -⟩ := goes.lane
    exact ⟨a, lanes ▸ moved i b rfl, rfl⟩
  | throws i a' found' d' throws =>
    obtain ⟨b, lanes, -⟩ := Deck.throws_cases throws
    exact ⟨a, lanes ▸ moved i b rfl, rfl⟩
  | checks i c k s found' x there =>
    by_cases same : j = i
    · subst same
      obtain rfl := Option.some.inj (found'.symm.trans found)
      exact ⟨_, set_at found' _, rfl⟩
    · exact ⟨a, by rw [Deck.move_lanes, set_other _ same, found], rfl⟩
  | ends i => exact ⟨a, moved i _ rfl, rfl⟩
  | analyzed i => exact ⟨a, moved i _ rfl, rfl⟩
  | flags c => exact ⟨a.flagged c, by simp [found], flagged_writes c a⟩
  | _ => exact ⟨a, found, rfl⟩

theorem Deck.Moves.lanes_kept {d : Deck} (moves : d.Moves l d' ws) : d'.lanes.length = d.lanes.length := by
  cases moves with
  | throws i a found d' throws =>
    obtain ⟨b, lanes, -⟩ := Deck.throws_cases throws
    rw [lanes, length_set]
  | goes i a found d' ws goes =>
    obtain ⟨-, -, -, b, lanes, -⟩ := goes.lane
    rw [lanes, length_set]
  | checks | ends | analyzed => exact length_set ..
  | flags => exact length_map ..
  | _ => rfl

/-! ### Roots in flight -/

def Campaign.Counted (x : Campaign) : Prop := x.inFlight = x.roots.countP (·.state = .running)

def Deck.Counted (d : Deck) : Prop := ∀ (c : Nat) x, d.campaigns[c]? = some x → x.Counted

theorem counted_modify {d : Deck} (counted : d.Counted) {f : Campaign → Campaign}
    (keeps : ∀ x, d.campaigns[c]? = some x → (f x).Counted) :
    ∀ (c' : Nat) y, (d.campaigns.modify c f)[c']? = some y → y.Counted := by
  intro c' y there
  obtain ⟨x, found, ⟨rfl, -⟩ | ⟨rfl, rfl⟩⟩ := modify_some there
  · exact counted c' _ found
  · exact keeps x found

/-- A root that stops running is no longer in flight. -/
theorem Campaign.Counted.leaves (counted : x.Counted) {k : Nat} {r : Root} (root : x.roots[k]? = some r)
    (runs : r.state = .running) {g : Root → Root} (stops : (g r).state ≠ .running) :
    Campaign.Counted { x.setRoot k g with inFlight := x.inFlight - 1 } := by
  have step := countP_set_add (·.state = .running) root (g r)
  rw [← modify_eq_set root g] at step
  simp only [runs, stops, decide_true, decide_false, ite_true, Bool.false_eq_true, ite_false] at step
  simp only [Campaign.Counted, Campaign.setRoot] at counted ⊢
  omega

theorem Deck.Goes.counted {d : Deck} {i : Nat} (goes : d.Goes i a d' ws) (counted : d.Counted)
    (held : ∀ c k next outcome, a = .settling c k next outcome → next ≠ .running ∧ ∃ r, d.root c k = some r ∧ r.state = .running) :
    d'.Counted := by
  have settled : ∀ (c k : Nat) (next : RootState) (outcome : String) (x : Campaign), a = .settling c k next outcome →
      d.campaigns[c]? = some x → (x.settle k next outcome).Counted := by
    intro c k next outcome x lane there
    obtain ⟨stops, r, root, runs⟩ := held c k next outcome lane
    rw [Deck.root, there, bind_some] at root
    exact (counted c x there).leaves root runs stops
  cases goes with
  | promotes c => exact counted_modify counted (f := Campaign.start d.now) (fun x there => counted c x there)
  | finishes c => exact counted_modify counted (f := Campaign.leaveRunning d.now .finished) (fun x there => counted c x there)
  | takes c x there lane left roots skipped k next =>
    obtain ⟨b, moved, -⟩ := Deck.skips_moves (d.update c (Campaign.take roots k)) i c roots k skipped
    have taken := nextRoot_taken x.roots (List.range x.roots.length)
    rw [next] at taken
    rw [moved]
    refine counted_modify counted (f := Campaign.take roots k) (fun y found => ?_)
    obtain rfl := Option.some.inj (there.symm.trans found)
    have before := counted c x there
    simp only [Campaign.Counted, Campaign.take] at before ⊢
    rw [taken.count, before]
  | skips c rest k x there =>
    obtain ⟨b, moved, -⟩ := Deck.skips_moves d i c x.roots k rest
    rw [moved]
    exact counted
  | settles c k next outcome x there calm =>
    exact counted_modify counted (f := Campaign.settle k next outcome) (fun y found => settled c k next outcome y rfl found)
  | pauses c k next x there runs =>
    have first := counted_modify counted (f := Campaign.settle k next "recorder-error")
      (fun y found => settled c k next "recorder-error" y rfl found)
    exact counted_modify (d := d.update c (Campaign.settle k next "recorder-error")) first
      (f := Campaign.leaveRunning d.now .paused) (fun y found => first c y found)
  | _ => exact counted

/-- The roots in flight are counted when lanes hold running roots. -/
theorem Deck.Moves.counted {d : Deck} (moves : d.Moves l d' ws) (counted : d.Counted)
    (settles : d.Settles) (held : ∀ (i c k : Nat) a, d.lanes[i]? = some a → a.due c k ≠ .free → a.due c k ≠ .skipped →
      ∃ r, d.root c k = some r ∧ r.state = .running) : d'.Counted := by
  cases moves with
  | goes i a found d' ws goes =>
    refine goes.counted counted (fun c k next outcome same => ?_)
    subst same
    exact ⟨settles i c k next outcome found, held i c k _ found (by simp [At.due]) (by simp [At.due])⟩
  | throws i a found d' throws =>
    obtain ⟨b, -, -, -, -, -, same | ⟨c, k, rfl, camps⟩⟩ := Deck.throws_cases throws
    · rw [Deck.Counted, same]
      exact counted
    · rw [Deck.Counted, camps]
      refine counted_modify counted (fun x there => ?_)
      obtain ⟨r, root, runs⟩ := held i c k _ found (by simp [At.due]) (by simp [At.due])
      rw [Deck.root, there, bind_some] at root
      exact (counted c x there).leaves root runs (by simp)
  | creates id policy priority created manifest roots accepted =>
    intro c x there
    rcases append_some there with old | ⟨-, rfl⟩
    · exact counted c x old
    · have waits := (manifestRoots_ordered accepted).2
      refine Eq.symm (countP_eq_zero.2 (fun r member => ?_))
      simp [waits r member]
  | pauses c => exact counted_modify counted (f := Campaign.leaveRunning d.now .paused) (fun x there => counted c x there)
  | cancels c => exact counted_modify counted (f := Campaign.leaveRunning d.now .cancelled) (fun x there => counted c x there)
  | resumes c => exact counted_modify counted (f := fun x => { x with state := .queued }) (fun x there => counted c x there)
  | ranks c p => exact counted_modify counted (f := fun x => { x with priority := p }) (fun x there => counted c x there)
  | _ => exact counted

/-! Memory and catalog while the lanes work. -/

/-- The rows of a root when the writes in the queue are carried out. -/
def Service.row (s : Service) (c k : Nat) : Option RootRow := (rowAt s.catalog c k).map (after c k (s.queue.map Prod.snd))

/-- The catalog has the roots that memory has, and a crash finds their rows sound. -/
structure Service.Stored (s : Service) (d : Deck) : Prop where
  shape : s.catalog.map (fun e => e.roots.length) = d.shape
  chain : ∀ (c k : Nat) e, rowAt s.catalog c k = some e → Chain c k (s.queue.map Prod.snd) e
  known : ∀ p ∈ s.queue, ∀ c k, s.catalog.length ≤ c → p.2.Elsewhere c k

/-- The lanes work, and memory and rows of each root are linked. -/
structure Service.Working (s : Service) (d : Deck) : Prop where
  lanes : d.lanes ≠ []
  restored : s.todo = []
  owned : ∀ p ∈ s.queue, (∀ c k, p.2.Elsewhere c k) ∨ ∃ i a, p.1 = some i ∧ d.lanes[i]? = some a ∧ a.writes = true
  tidy : d.Tidy
  settles : d.Settles
  rooted : d.Rooted
  counted : d.Counted
  linked : ∀ (c k : Nat) r e, d.root c k = some r → s.row c k = some e → Linked (d.due c k) r e

theorem shape_row {catalog : List Entry} {k : Nat} :
    (∃ e, rowAt catalog c k = some e) ↔ ∃ n, (catalog.map (fun e => e.roots.length))[c]? = some n ∧ k < n := by
  simp only [rowAt, getElem?_map]
  cases catalog[c]? with
  | none => simp
  | some x =>
    simp only [bind_some, map_some, Option.some.injEq, exists_eq_left']
    constructor
    · rintro ⟨r, found⟩
      exact (List.getElem?_eq_some_iff.1 found).1
    · exact fun bound => ⟨_, getElem?_eq_getElem bound⟩

section
variable {s : Service} {d : Deck}

theorem Service.Stored.row_iff (stored : s.Stored d) (c k : Nat) :
    (∃ e, rowAt s.catalog c k = some e) ↔ ∃ r, d.root c k = some r := by rw [shape_row, shape_root, stored.shape]

theorem Service.Stored.size (stored : s.Stored d) : d.campaigns.length = s.catalog.length := by
  simpa [Deck.shape] using (congrArg List.length stored.shape).symm

/-- A root and its rows, as they are now and as they will be. -/
theorem Service.Stored.rows (stored : s.Stored d) {k : Nat} {r : Root} (root : d.root c k = some r) :
    ∃ e, rowAt s.catalog c k = some e ∧ s.row c k = some (after c k (s.queue.map Prod.snd) e) := by
  obtain ⟨e, found⟩ := (stored.row_iff c k).2 ⟨r, root⟩
  exact ⟨e, found, by rw [Service.row, found, map_some]⟩

/-- The root of a lane that has claimed it is running. -/
theorem Service.Working.held (working : s.Working d) (stored : s.Stored d) {i c k : Nat} {a : At} (found : d.lanes[i]? = some a)
    (some_ : a.due c k ≠ .free) (claimed : a.due c k ≠ .skipped) : ∃ r, d.root c k = some r ∧ r.state = .running := by
  obtain ⟨r, root⟩ := working.rooted i c k a found some_
  obtain ⟨e, -, row⟩ := stored.rows root
  refine ⟨r, root, (working.linked c k r _ root row).running_iff.2 ⟨i, a.due c k, ?_, some_, claimed⟩⟩
  rw [Deck.due, found, map_some]

theorem queued_writes (queue : List (Option Nat × Write)) (o : Option Nat) (ws : List Write) :
    (queue ++ ws.map (fun w => (o, w))).map Prod.snd = queue.map Prod.snd ++ ws := by
  simp [Function.comp_def]

/-- A step of the lanes or the operator keeps memory and rows together. -/
theorem Service.Working.works {t : Service} (working : s.Working d)
    (stored : s.Stored d) (moves : d.Moves l d' ws) (old : l.creates = false)
    (calm : ∀ i, l.acts = some i → ∀ p ∈ s.queue, p.1 ≠ some i)
    (sound : ∀ i a, l = .throws i → d.lanes[i]? = some a → a.writes = false) (catalog : t.catalog = s.catalog)
    (queue : t.queue = s.queue ++ ws.map (fun w => (l.acts, w))) (todo : t.todo = s.todo) : t.Stored d' ∧ t.Working d' := by
  have writes : t.queue.map Prod.snd = s.queue.map Prod.snd ++ ws := by rw [queue, queued_writes]
  have step : ∀ (c k : Nat) r e, d.root c k = some r → rowAt s.catalog c k = some e → ∃ r', d'.root c k = some r' ∧
      Chain c k (t.queue.map Prod.snd) e ∧ Linked (d'.due c k) r' (after c k (t.queue.map Prod.snd) e) := by
    intro c k r e root found
    have chain := stored.chain c k e found
    have linked := working.linked c k r _ root (by rw [Service.row, found, map_some])
    obtain ⟨r', root', change⟩ := moves.root_step old sound working.tidy working.settles root
    obtain ⟨more, linked'⟩ := change.linked linked chain.sound
    rw [writes, after_append]
    exact ⟨r', root', chain.append more, linked'⟩
  refine ⟨⟨?_, fun c k e found => ?_, fun p member c k beyond => ?_⟩, ⟨?_, todo.trans working.restored, fun p member => ?_,
    moves.tidy working.tidy, moves.settles working.settles, moves.rooted working.rooted, ?_, fun c k r' e' root' row => ?_⟩⟩
  · rw [catalog, moves.shape old, stored.shape]
  · rw [catalog] at found
    obtain ⟨r, root⟩ := (stored.row_iff c k).1 ⟨e, found⟩
    obtain ⟨r', -, chain, -⟩ := step c k r e root found
    exact chain
  · rw [catalog] at beyond
    rcases mem_append.1 (queue ▸ member) with there | new
    · exact stored.known p there c k beyond
    · obtain ⟨w, there, rfl⟩ := List.mem_map.1 new
      rcases moves.written old there with all | ⟨bounded, -⟩
      · exact all c k
      · exact bounded c k (stored.size ▸ beyond)
  · have length := moves.lanes_kept
    exact fun none_ => working.lanes (length_eq_zero_iff.1 (by rw [← length, none_]; rfl))
  · rcases mem_append.1 (queue ▸ member) with there | new
    · refine (working.owned p there).imp id ?_
      rintro ⟨i, a, owner, found, awaits⟩
      obtain ⟨b, found', same⟩ := moves.awaiting found (fun mine => calm i mine p there owner)
      exact ⟨i, b, owner, found', same.trans awaits⟩
    · obtain ⟨w, there, rfl⟩ := List.mem_map.1 new
      exact (moves.written old there).imp id And.right
  · exact moves.counted working.counted working.settles (fun i c k a found => working.held stored found)
  · obtain ⟨e, found, rfl⟩ := map_eq_some_iff.1 row
    rw [catalog] at found
    obtain ⟨r, root⟩ := (stored.row_iff c k).1 ⟨e, found⟩
    obtain ⟨r1, root1, -, linked⟩ := step c k r e root found
    obtain rfl := Option.some.inj (root1.symm.trans root')
    exact linked

/-! ### A new campaign -/

theorem rowAt_append (catalog : List Entry) (new : Entry) (c k : Nat) :
    rowAt (catalog ++ [new]) c k = if c < catalog.length then rowAt catalog c k else if c = catalog.length then new.roots[k]? else none := by
  unfold rowAt
  rw [getElem?_append]
  split_ifs with before here
  · rfl
  · subst here
    simp
  · rw [getElem?_eq_none (by simp only [length_singleton]; omega)]
    rfl

theorem root_append (d : Deck) (x : Campaign) (c k : Nat) :
    Deck.root { d with campaigns := d.campaigns ++ [x] } c k =
      if c < d.campaigns.length then d.root c k else if c = d.campaigns.length then x.roots[k]? else none := by
  unfold Deck.root
  rw [getElem?_append]
  split_ifs with before here
  · rfl
  · subst here
    simp
  · rw [getElem?_eq_none (by simp only [length_singleton]; omega)]
    rfl

theorem rootsAfter_fresh {manifest : List ManifestRoot} {names : List String} {roots : List Root}
    (accepted : rootsAfter names manifest = some roots) : ∀ r ∈ roots, r.state = .pending ∧ r.attempts = 0 := by
  induction manifest generalizing names roots with
  | nil =>
    obtain rfl : [] = roots := by simpa [rootsAfter] using accepted
    simp
  | cons m manifest ih =>
    rw [rootsAfter] at accepted
    split_ifs at accepted
    obtain ⟨rest, later, rfl⟩ := map_eq_some_iff.1 accepted
    rintro r (_ | ⟨_, member⟩)
    · exact ⟨rfl, rfl⟩
    · exact ih later r member

theorem Service.Working.creates {t : Service} (working : s.Working d) (stored : s.Stored d)
    (fresh : ∀ r ∈ x.roots, r.state = .pending ∧ r.attempts = 0) (settles : Deck.Settles { d with campaigns := d.campaigns ++ [x] })
    (rooted : Deck.Rooted { d with campaigns := d.campaigns ++ [x] }) (counted : Deck.Counted { d with campaigns := d.campaigns ++ [x] })
    (catalog : t.catalog = s.catalog ++ [x.entry]) (queue : t.queue = s.queue) (todo : t.todo = s.todo) :
    t.Stored { d with campaigns := d.campaigns ++ [x] } ∧ t.Working { d with campaigns := d.campaigns ++ [x] } := by
  have size := stored.size
  -- the new rows are free, and no queued write is for them
  have new : ∀ (c k : Nat) e, ¬c < s.catalog.length → rowAt t.catalog c k = some e →
      ∃ r, x.roots[k]? = some r ∧ c = d.campaigns.length ∧ e.Free 0 ∧ e.state = .pending ∧
        (∀ w ∈ t.queue.map Prod.snd, w.Elsewhere c k) := by
    intro c k e beyond found
    rw [catalog, rowAt_append, if_neg beyond] at found
    split_ifs at found with here
    obtain ⟨r, root, rfl⟩ : ∃ r, x.roots[k]? = some r ∧ (⟨r.name, r.drv, r.needs, r.state, []⟩ : RootRow) = e := by
      simpa [Campaign.entry] using found
    refine ⟨r, root, here.trans size.symm, ⟨fun j a h => by simp at h, rfl⟩, (fresh r (mem_of_getElem? root)).1, ?_⟩
    intro w member
    obtain ⟨p, there, rfl⟩ := List.mem_map.1 member
    exact stored.known p (queue ▸ there) c k here.ge
  refine ⟨⟨?_, fun c k e found => ?_, fun p member c k beyond => ?_⟩, ⟨working.lanes, todo.trans working.restored,
    fun p member => working.owned p (queue ▸ member), working.tidy, settles, rooted, counted, fun c k r e root row => ?_⟩⟩
  · have shape := stored.shape
    rw [Deck.shape] at shape ⊢
    rw [catalog, map_append, map_append, shape]
    simp [Campaign.entry]
  · by_cases before : c < s.catalog.length
    · rw [catalog, rowAt_append, if_pos before] at found
      rw [queue]
      exact stored.chain c k e found
    · obtain ⟨r, root, -, free, state, elsewhere⟩ := new c k e before found
      exact .of_elsewhere elsewhere (.free 0 free (by simp [state]))
  · rw [catalog, length_append] at beyond
    exact stored.known p (queue ▸ member) c k (by omega)
  · obtain ⟨e0, found, rfl⟩ := map_eq_some_iff.1 row
    rw [root_append] at root
    by_cases before : c < s.catalog.length
    · rw [if_pos (size ▸ before)] at root
      rw [catalog, rowAt_append, if_pos before] at found
      exact working.linked c k r _ root (by rw [Service.row, found, map_some, queue])
    · obtain ⟨r0, root0, here, free, state, elsewhere⟩ := new c k e0 before found
      rw [if_neg (size ▸ before), if_pos here] at root
      obtain rfl := Option.some.inj (root0.symm.trans root)
      obtain ⟨waits, none_⟩ := fresh r0 (mem_of_getElem? root0)
      rw [after_elsewhere elsewhere]
      refine .inr ⟨fun j v due => ?_, .inl ⟨waits, state, none_ ▸ free⟩⟩
      obtain ⟨a, lane, rfl⟩ := map_eq_some_iff.1 due
      by_contra some_
      obtain ⟨r1, root1⟩ := working.rooted j c k a lane some_
      have gone : d.root c k = none := by
        rw [Deck.root, getElem?_eq_none here.ge]
        rfl
      simp [gone] at root1

end

end Campaigns
