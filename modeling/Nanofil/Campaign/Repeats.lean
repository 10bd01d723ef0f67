import Nanofil.Campaign.Recovery

/-! No attempt is lost or repeated, and a claimed root leaves the running state. -/
namespace Campaigns
open List Option

/-- No crash falls between an attempt that settles and the commit of its root's state, and no
write fails while its lane awaits writes of a skip, a start or a settlement. -/
def Service.Keeps (s : Service) : Event → Prop
  | .crashes => ∀ o c k rest, s.queue ≠ (o, .setRootState c k .settled) :: rest
  | .fails => ∀ d i w rest a, s.deck = some d → s.queue = (some i, w) :: rest → d.lanes[i]? = some a → a.writes = false
  | _ => True

structure Service.Kept (s : Service) : Prop where
  up : ∀ d, s.deck = some d → s.Stored d ∧ (s.Working d ∨ s.Restoring d)
  down : s.deck = none → s.queue = [] ∧ ∀ (c k : Nat) e, rowAt s.catalog c k = some e → e.Sound

variable {d : Deck} {s s' : Service} {c n : Nat} {e : RootRow} {a : Attempt}

theorem Service.Kept.lanes (kept : s.Kept) (up : s.deck = some d) (lanes : d.lanes.isEmpty = false) :
    s.Stored d ∧ s.Working d := by
  obtain ⟨stored, working | restoring⟩ := kept.up d up
  · exact ⟨stored, working⟩
  · rw [restoring.lanes] at lanes
    cases lanes

theorem Service.Kept.idle (kept : s.Kept) (up : s.deck = some d) (lanes : d.lanes.isEmpty = true) :
    s.Stored d ∧ s.Restoring d := by
  obtain ⟨stored, working | restoring⟩ := kept.up d up
  · exact absurd (List.isEmpty_iff.1 lanes) working.lanes
  · exact ⟨stored, restoring⟩

theorem Service.awaits_not {i : Nat} (free : s.awaits i = false) : ∀ p ∈ s.queue, p.1 ≠ some i := by
  intro p member owner
  have all := List.any_eq_false.1 free p member
  simp [owner] at all

theorem At.elsewhere_writes {a : At} (elsewhere : a.elsewhere = true) : a.writes = false := by cases a <;> first | rfl | cases elsewhere

/-- What lets a step happen, for the lane that takes it. -/
theorem Service.free_calm {l : Label} (free : s.free d l = true) :
    (∀ i, l.acts = some i → ∀ p ∈ s.queue, p.1 ≠ some i) ∧ (∀ i a, l = .throws i → d.lanes[i]? = some a → a.writes = false) ∧
      ((∀ t, l ≠ .passes t) → d.lanes.isEmpty = false) := by
  obtain ⟨calm, rest⟩ := Bool.and_eq_true_iff.1 free
  refine ⟨fun i mine => Service.awaits_not (by simpa [mine] using calm), fun i a throws found => ?_, fun timed => ?_⟩
  · subst throws
    simp only [found, any_some, Bool.and_eq_true] at rest
    exact At.elsewhere_writes rest.2
  · cases l with
    | passes t => exact absurd rfl (timed t)
    | _ => simp only [Bool.and_eq_true, Bool.not_eq_true'] at rest; first | exact rest.2 | exact rest.1.2

theorem Service.Kept.works {l : Label} (kept : s.Kept) (up : s.deck = some d) (works : s.works d l = some s') : s'.Kept := by
  unfold Service.works at works
  split_ifs at works with free
  obtain ⟨⟨d', ws⟩, step, out⟩ := map_eq_some_iff.1 works
  obtain ⟨calm, sound, busy⟩ := s.free_calm free
  have moves := Deck.step_cases step
  have here : ∀ {t : Service} {e : Deck}, t.deck = some e → t.Stored e ∧ (t.Working e ∨ t.Restoring e) → t.Kept := by
    intro t e there h
    refine ⟨fun f same => ?_, fun none_ => by simp [there] at none_⟩
    rw [there] at same
    cases same
    exact h
  -- the usual step: its writes join the queue
  have queued : l.creates = false → (∀ t, l ≠ .passes t) →
      Service.Kept { s with deck := some d', queue := s.queue ++ ws.map (fun w => (l.acts, w)) } := by
    intro old timeless
    obtain ⟨stored, working⟩ := kept.lanes up (busy timeless)
    have next := working.works (t := { s with deck := some d', queue := s.queue ++ ws.map (fun w => (l.acts, w)) }) stored moves old
      calm sound rfl rfl rfl
    exact here rfl ⟨next.1, .inl next.2⟩
  cases moves with
  | passes time =>
    cases out
    obtain ⟨stored, working | restoring⟩ := kept.up d up
    · exact here rfl ⟨⟨stored.shape, stored.chain, stored.known⟩, .inl ⟨working.lanes, working.restored, working.owned,
        working.tidy, working.settles, working.rooted, working.counted, working.linked⟩⟩
    · exact here rfl ⟨⟨stored.shape, stored.chain, stored.known⟩, .inr ⟨restoring.lanes, restoring.ordered, restoring.named,
        restoring.quiet, restoring.restored⟩⟩
  | creates id policy priority created manifest roots accepted =>
    cases out
    obtain ⟨stored, working⟩ := kept.lanes up (busy (by simp))
    have moves := Deck.Moves.creates (d := d) id policy priority created manifest roots accepted
    have fresh : ∀ r ∈ roots, r.state = .pending ∧ r.attempts = 0 := by
      unfold manifestRoots at accepted
      split_ifs at accepted
      exact rootsAfter_fresh accepted
    refine here rfl (And.imp (fun h => h) Or.inl (working.creates stored (x := ⟨id, policy, .queued, priority, created, 0, 0, roots, 0⟩) fresh
      (moves.settles working.settles) (moves.rooted working.rooted) ?_ rfl rfl rfl))
    exact moves.counted working.counted working.settles (fun i c k a found => working.held stored found)
  | _ =>
    cases out
    exact queued rfl (by simp)

theorem Service.Kept.fails (kept : s.Kept) (up : s.deck = some d) (keeps : s.Keeps .fails)
    (step : s.step .fails = some s') : s'.Kept := by
  simp only [Service.step, up] at step
  split at step
  · rename_i i w rest head
    obtain ⟨d', throws, rfl⟩ := map_eq_some_iff.1 step
    obtain ⟨a, found, throws⟩ := bind_eq_some_iff.1 throws
    have calm := keeps d i w rest a up head found
    have busy : d.lanes.isEmpty = false := by
      cases lanes : d.lanes with
      | nil => simp [lanes] at found
      | cons => rfl
    obtain ⟨stored, working⟩ := kept.lanes up busy
    -- what the lane awaited is for no root's rows
    obtain ⟨stored1, working1⟩ := working.drops (t := { s with queue := s.queue.filter (fun p => p.1 ≠ some i) }) stored
      (fun q member gone => by
        have owner : q.1 = some i := by simpa using gone
        rcases working.owned q member with all | ⟨j, b, owner', found', awaits⟩
        · exact all
        · obtain rfl : i = j := Option.some.inj (owner.symm.trans owner')
          obtain rfl := Option.some.inj (found.symm.trans found')
          exact absurd awaits (by simp [calm])) rfl rfl rfl
    have next := working1.works (t := { s with deck := some d', queue := s.queue.filter (fun p => p.1 ≠ some i) }) (l := .throws i)
      stored1 (.throws i a found d' throws) rfl (fun j mine p member owner => by
        have gone := (mem_filter.1 member).2
        simp [owner, Option.some.inj mine] at gone) (fun j b same found' => by
        cases same
        obtain rfl := Option.some.inj (found.symm.trans found')
        exact calm) rfl (by simp) rfl
    rw [head] at next
    simp only [ne_eq, not_true, decide_false, Bool.false_eq_true, not_false_eq_true, filter_cons_of_neg] at next
    exact ⟨fun e same => by cases same; exact ⟨next.1, .inl next.2⟩, fun none_ => by cases none_⟩
  · rename_i w rest head
    split_ifs at step with lanes
    cases step
    obtain ⟨stored, working⟩ := kept.lanes up (by simpa using lanes)
    have away : ∀ c k, w.Elsewhere c k := by
      rcases working.owned (none, w) (head ▸ mem_cons_self ..) with all | ⟨i, a, wrong, -⟩
      · exact all
      · cases wrong
    have rows : ∀ c k, Service.row { s with queue := rest } c k = s.row c k := by
      intro c k
      simp only [Service.row, head, map_cons]
      congr 1
      funext e
      rw [after, after, foldl_cons, (away c k).on]
    refine ⟨fun e same => ?_, fun none_ => by cases none_⟩
    cases same
    refine ⟨⟨stored.shape, fun c k e found => ?_, fun p member => stored.known p (head ▸ mem_cons_of_mem _ member)⟩,
      .inl (working.commits head rfl rfl rows)⟩
    have chain := (stored.chain c k e found)
    rw [head] at chain
    have rest_ := chain.2
    rw [(away c k).on] at rest_
    exact rest_
  · cases step

theorem Service.Kept.step {s s' : Service} {e : Event} (kept : s.Kept) (keeps : s.Keeps e) (step : s.step e = some s') :
    s'.Kept := by
  cases deck : s.deck with
  | none =>
    obtain ⟨empty, sound⟩ := kept.down deck
    cases e with
    | commits => simp [Service.step, empty] at step
    | boots now =>
      simp only [Service.step, deck] at step
      split_ifs at step
      cases step
      refine ⟨fun d up => ?_, fun none_ => by cases none_⟩
      cases up
      exact And.imp (fun h => h) Or.inr (Service.boots_restoring sound rfl empty rfl)
    | _ => simp [Service.step, deck] at step
  | some d =>
    obtain ⟨stored, both⟩ := kept.up d deck
    cases e with
    | works l =>
      simp only [Service.step, deck] at step
      exact kept.works deck step
    | commits =>
      simp only [Service.step] at step
      split at step
      · rename_i o w queue head
        cases step
        obtain ⟨stored', rows⟩ := stored.commits (t := { s with catalog := w.apply s.catalog, queue := queue }) head rfl rfl
        refine ⟨fun f same => ?_, fun none_ => by simp [deck] at none_⟩
        rw [deck] at same
        cases same
        refine ⟨stored', both.imp (fun working => working.commits head rfl rfl rows) (fun restoring => ?_)⟩
        exact ⟨restoring.lanes, restoring.ordered, restoring.named, restoring.quiet,
          fun c k r e root row => restoring.restored c k r e root (rows c k ▸ row)⟩
      · cases step
    | fails => exact kept.fails deck keeps step
    | crashes =>
      simp only [Service.step, deck] at step
      cases step
      refine ⟨fun d up => (by cases up), fun _ => ⟨rfl, fun c k e found => ?_⟩⟩
      have chain := stored.chain c k e found
      cases head : s.queue with
      | nil => rwa [head] at chain
      | cons p rest =>
        rw [head] at chain
        rcases chain.1 with sound | ⟨same, -⟩
        · exact sound
        · exact absurd (head.trans (by rw [← same])) (keeps p.1 c k rest)
    | exits =>
      simp only [Service.step, deck] at step
      split_ifs at step with done
      cases step
      simp only [Bool.and_eq_true, List.isEmpty_iff] at done
      refine ⟨fun d up => (by cases up), fun _ => ⟨done.1.1.2, fun c k e found => ?_⟩⟩
      have chain := stored.chain c k e found
      rwa [done.1.1.2] at chain
    | boots now => simp [Service.step, deck] at step
    | restores outcome =>
      simp only [Service.step, deck] at step
      split_ifs at step with empty
      rcases both with working | restoring
      · simp [Service.restores, working.restored] at step
      · obtain ⟨d', up, stored', restoring'⟩ := restoring.restores stored (List.isEmpty_iff.1 empty) step
        refine ⟨fun f same => ?_, fun none_ => by simp [up] at none_⟩
        rw [up] at same
        cases same
        exact ⟨stored', .inr restoring'⟩
    | starts =>
      simp only [Service.step, deck] at step
      split_ifs at step with idle
      cases step
      simp only [Bool.and_eq_true, decide_eq_true_eq] at idle
      obtain ⟨-, restoring⟩ := kept.idle deck idle.2
      have next := restoring.starts (t := { s with deck := some { d with lanes := List.replicate 32 .top } }) stored idle.1.1
        (List.isEmpty_iff.1 idle.1.2) rfl rfl rfl
      exact ⟨fun f same => by cases same; exact ⟨next.1, .inl next.2⟩, fun none_ => by cases none_⟩

theorem Service.Run.kept (run : Service.Run Service.Keeps s) : s.Kept := by
  induction run with
  | start => exact ⟨fun d up => (by cases up), fun _ => ⟨rfl, fun c k e found => by simp [Service.initial, rowAt] at found⟩⟩
  | step run keeps step ih => exact ih.step keeps step

/-! What is recorded stays: settling attempts are the last ones, and running roots come to rest. -/

/-! ### Rows -/

theorem Chain.now {k : Nat} {ws : List Write} (chain : Chain c k ws e) : e.Sound ∨ ∃ n, e.Last n := by
  cases ws with
  | nil => exact .inl chain
  | cons w ws => exact chain.1.imp id And.right

/-- At all times only the latest attempt is open, or has settled. -/
theorem RootRow.parts (sound : e.Sound ∨ ∃ n, e.Last n) :
    ∃ past, Past past ∧ (e.attempts = past ∨ ∃ a, e.attempts = past ++ [a] ∧ a.attempt = past.length + 1 ∧ a.closings ≤ 1 ∧
      (a.settles = true → e.Last a.attempt)) := by
  have last : ∀ n, e.Last n → ∃ past, Past past ∧ (e.attempts = past ∨ ∃ a, e.attempts = past ++ [a] ∧
      a.attempt = past.length + 1 ∧ a.closings ≤ 1 ∧ (a.settles = true → e.Last a.attempt)) := by
    rintro n ⟨past, outcome, attempts, old, size⟩
    exact ⟨past, old, .inr ⟨_, attempts, size.symm, le_rfl, fun _ => ⟨past, outcome, attempts, old, size⟩⟩⟩
  rcases sound with sound | ⟨n, settled⟩
  · cases sound with
    | free n free => exact ⟨e.attempts, free.1, .inl rfl⟩
    | opened n opened =>
      obtain ⟨past, attempts, old, size⟩ := opened
      exact ⟨past, old, .inr ⟨_, attempts, size.symm, by simp, fun wrong => by cases wrong⟩⟩
    | last n settled => exact last n settled
  · exact last n settled

theorem RootRow.numbered (sound : e.Sound ∨ ∃ n, e.Last n) (j : Nat) (a : Attempt)
    (found : e.attempts[j]? = some a) : a.attempt = j + 1 := by
  obtain ⟨past, old, attempts | ⟨b, attempts, number, -⟩⟩ := RootRow.parts sound
  · exact (old j a (attempts ▸ found)).1
  · rw [attempts] at found
    rcases append_some found with before | ⟨rfl, rfl⟩
    · exact (old j a before).1
    · exact number

theorem RootRow.settling (sound : e.Sound ∨ ∃ n, e.Last n) (member : a ∈ e.attempts)
    (settles : a.settles = true) : e.Last a.attempt := by
  obtain ⟨past, old, attempts | ⟨b, attempts, -, -, last⟩⟩ := RootRow.parts sound
  · obtain ⟨j, found⟩ := mem_iff_getElem?.1 (attempts ▸ member)
    simp [(old j a found).2.2.2] at settles
  · rw [attempts] at member
    rcases mem_append.1 member with before | here
    · obtain ⟨j, found⟩ := mem_iff_getElem?.1 before
      simp [(old j a found).2.2.2] at settles
    · obtain rfl := mem_singleton.1 here
      exact last settles

theorem RootRow.Last.all (last : e.Last n) (member : a ∈ e.attempts) : a.outcome.isSome = true ∧ a.closings = 1 := by
  obtain ⟨past, outcome, attempts, old, -⟩ := last
  rw [attempts] at member
  rcases mem_append.1 member with before | here
  · obtain ⟨j, found⟩ := mem_iff_getElem?.1 before
    exact ⟨(old j a found).2.1, (old j a found).2.2.1⟩
  · rw [mem_singleton.1 here]
    exact ⟨rfl, rfl⟩

theorem RootRow.Last.mem (last : e.Last n) : ∃ a ∈ e.attempts, a.attempt = n ∧ a.settles = true := by
  obtain ⟨past, outcome, attempts, -⟩ := last
  exact ⟨_, by rw [attempts]; exact mem_append_right _ (mem_singleton.2 rfl), rfl, rfl⟩

theorem RootRow.Free.not_last {m : Nat} (free : e.Free n) : ¬e.Last m := by
  intro last
  obtain ⟨a, member, -, settles⟩ := last.mem
  obtain ⟨j, found⟩ := mem_iff_getElem?.1 member
  simp [(free.1 j a found).2.2.2] at settles

theorem closings_le (sound : e.Sound ∨ ∃ n, e.Last n) (member : a ∈ e.attempts) : a.closings ≤ 1 := by
  obtain ⟨past, old, attempts | ⟨b, attempts, -, once, -⟩⟩ := RootRow.parts sound
  · obtain ⟨j, found⟩ := mem_iff_getElem?.1 (attempts ▸ member)
    exact (old j a found).2.2.1.le
  · rw [attempts] at member
    rcases mem_append.1 member with before | here
    · obtain ⟨j, found⟩ := mem_iff_getElem?.1 before
      exact (old j a found).2.2.1.le
    · exact mem_singleton.1 here ▸ once

/-- A write that is carried out leaves the attempts of a root that one has settled. -/
theorem RootRow.Last.frozen {k : Nat} {w : Write} (last : e.Last n)
    (sound : (w.on c k e).Sound ∨ ∃ m, (w.on c k e).Last m) : (w.on c k e).attempts = e.attempts := by
  cases w with
  | insertAttempt c' k' number outcome =>
    by_cases here : c' = c ∧ k' = k
    · simp only [Write.on, if_pos here, Write.onRoot] at sound ⊢
      obtain ⟨a, member, -, settles⟩ := last.mem
      obtain ⟨j, found⟩ := mem_iff_getElem?.1 member
      have settled := RootRow.settling sound (a := a) (mem_append_left _ member) settles
      have size := settled.length
      have number := RootRow.numbered sound j a (append_old found _)
      have bound := (List.getElem?_eq_some_iff.1 found).1
      simp only [length_append, length_singleton] at size
      omega
    · simp only [Write.on, if_neg here]
  | finishAttempt c' k' number outcome settles =>
    by_cases here : c' = c ∧ k' = k
    · simp only [Write.on, if_pos here, Write.onRoot] at sound ⊢
      refine (map_congr_left (fun a member => ?_)).trans (List.map_id _)
      by_cases mine : a.attempt = number
      · have once := closings_le sound (a := a.finish number outcome settles) (List.mem_map.2 ⟨a, member, rfl⟩)
        simp [Attempt.finish, mine, (last.all member).2] at once
      · simp [Attempt.finish, mine]
    · simp only [Write.on, if_neg here]
  | setRootState c' k' state =>
    by_cases here : c' = c ∧ k' = k
    · simp only [Write.on, if_pos here, Write.onRoot]
    · simp only [Write.on, if_neg here]
  | _ => rfl

theorem RootRow.Last.congr {e' : RootRow} (last : e.Last n) (same : e'.attempts = e.attempts) : e'.Last n := by
  obtain ⟨past, outcome, attempts, rest⟩ := last
  exact ⟨past, outcome, same.trans attempts, rest⟩

theorem Chain.frozen {k : Nat} {ws : List Write} (chain : Chain c k ws e) (last : e.Last n) : (after c k ws e).Last n := by
  induction ws generalizing e with
  | nil => exact last
  | cons w ws ih => exact ih chain.2 (last.congr (last.frozen chain.2.now))

/-! ### Steps -/

theorem Service.step_catalog {e : Event} (step : s.step e = some s') :
    s'.catalog = s.catalog ∨ (∃ o w queue, s.queue = (o, w) :: queue ∧ s'.catalog = w.apply s.catalog) ∨
      ∃ x : Campaign, s'.catalog = s.catalog ++ [x.entry] := by
  cases deck : s.deck with
  | none =>
    cases e with
    | commits =>
      simp only [Service.step] at step
      split at step
      · rename_i o w queue head
        cases step
        exact .inr (.inl ⟨o, w, queue, head, rfl⟩)
      · cases step
    | boots now =>
      simp only [Service.step, deck] at step
      split_ifs at step
      cases step
      exact .inl rfl
    | _ => simp [Service.step, deck] at step
  | some d =>
    cases e with
    | works l =>
      simp only [Service.step, deck, Service.works] at step
      split_ifs at step
      obtain ⟨⟨d', ws⟩, moves, out⟩ := map_eq_some_iff.1 step
      cases Deck.step_cases moves with
      | creates => cases out; exact .inr (.inr ⟨_, rfl⟩)
      | _ => cases out; exact .inl rfl
    | commits =>
      simp only [Service.step] at step
      split at step
      · rename_i o w queue head
        cases step
        exact .inr (.inl ⟨o, w, queue, head, rfl⟩)
      · cases step
    | fails =>
      simp only [Service.step, deck] at step
      split at step
      · obtain ⟨d', -, rfl⟩ := map_eq_some_iff.1 step
        exact .inl rfl
      · split_ifs at step
        cases step
        exact .inl rfl
      · cases step
    | crashes =>
      simp only [Service.step, deck] at step
      cases step
      exact .inl rfl
    | exits =>
      simp only [Service.step, deck] at step
      split_ifs at step
      cases step
      exact .inl rfl
    | boots now => simp [Service.step, deck] at step
    | restores outcome =>
      simp only [Service.step, deck] at step
      split_ifs at step
      unfold Service.restores at step
      split at step
      · cases step
        exact .inl rfl
      · cases step
        exact .inl rfl
      · cases step
    | starts =>
      simp only [Service.step, deck] at step
      split_ifs at step
      cases step
      exact .inl rfl

theorem Service.Kept.now (kept : s.Kept) {k : Nat} (found : rowAt s.catalog c k = some e) : e.Sound ∨ ∃ n, e.Last n := by
  cases deck : s.deck with
  | none => exact .inl ((kept.down deck).2 c k e found)
  | some d => exact ((kept.up d deck).1.chain c k e found).now

/-- A root that an attempt has settled gets no more attempts. -/
theorem Service.Kept.frozen {ev : Event} (kept : s.Kept) (keeps : s.Keeps ev) (step : s.step ev = some s')
    {k : Nat} (found : rowAt s.catalog c k = some e) (last : e.Last n) :
    ∃ e', rowAt s'.catalog c k = some e' ∧ e'.attempts = e.attempts := by
  have kept' := kept.step keeps step
  rcases Service.step_catalog step with same | ⟨o, w, queue, head, same⟩ | ⟨x, same⟩
  · exact ⟨e, by rw [same, found], rfl⟩
  · by_cases old : ∃ x, w = .insertCampaign x
    · obtain ⟨x, rfl⟩ := old
      refine ⟨e, ?_, rfl⟩
      obtain ⟨y, there, -⟩ := bind_eq_some_iff.1 found
      rw [same, Write.apply, rowAt_append, if_pos (List.getElem?_eq_some_iff.1 there).1, found]
    · have row : rowAt s'.catalog c k = some (w.on c k e) := by
        rw [same, apply_row (fun x h => old ⟨x, h⟩), found, map_some]
      exact ⟨_, row, last.frozen (kept'.now row)⟩
  · obtain ⟨y, there, -⟩ := bind_eq_some_iff.1 found
    exact ⟨e, by rw [same, rowAt_append, if_pos (List.getElem?_eq_some_iff.1 there).1, found], rfl⟩

/-- No lane runs a root that an attempt has settled. -/
theorem Service.Kept.settled (kept : s.Kept) (up : s.deck = some d) {k : Nat}
    (found : rowAt s.catalog c k = some e) (last : e.Last n) (i : Nat) (a : At) (lane : d.lanes[i]? = some a) :
    a.due c k = .free ∨ a.due c k = .decided .settled := by
  obtain ⟨stored, working⟩ := kept.lanes up (by cases lanes : d.lanes <;> simp_all)
  obtain ⟨r, root⟩ := (stored.row_iff c k).1 ⟨e, found⟩
  have linked := working.linked c k r _ root (by rw [Service.row, found, map_some])
  have settled := (stored.chain c k e found).frozen last
  by_cases some_ : a.due c k = .free
  · exact .inl some_
  · have image := (linked.of (i := i) (u := a.due c k) (by rw [Deck.due, lane, map_some]) some_).1
    cases due : a.due c k with
    | free => exact absurd due some_
    | skipped | claimed =>
      rw [due] at image
      obtain ⟨-, -, m, -, free⟩ := image
      exact absurd settled free.not_last
    | opened =>
      rw [due] at image
      exact absurd image.2.2 settled.not_open
    | decided next =>
      rw [due] at image
      obtain ⟨-, -, ⟨rfl, -⟩ | ⟨-, free⟩⟩ := image
      · exact .inr rfl
      · exact absurd settled free.not_last

/-- Memory and rows of a root that no lane has anything due for, when no writes are left. -/
theorem Service.Kept.rests (kept : s.Kept) (up : s.deck = some d) (done : s.todo = [])
    (empty : s.queue = []) {k : Nat} {r : Root} (root : d.root c k = some r) (found : rowAt s.catalog c k = some e)
    (free : ∀ (i : Nat) a, d.lanes[i]? = some a → a.due c k = .free) : Image r e .free := by
  obtain ⟨stored, working | restoring⟩ := kept.up d up
  · have linked := working.linked c k r e root (by rw [Service.row, found, empty]; rfl)
    rcases linked with ⟨i, u, here, some_, -⟩ | ⟨-, image⟩
    · obtain ⟨a, lane, rfl⟩ := map_eq_some_iff.1 here
      exact absurd (free i a lane) some_
    · exact image
  · have chain := stored.chain c k e found
    have restored := restoring.restored c k r e root (by rw [Service.row, found, empty]; rfl)
    rw [empty] at chain
    rw [done] at restored
    exact restored.image chain

/-- Every attempt is closed once, and the root is settled exactly when its latest attempt settled it. -/
theorem Image.closed {r : Root} (image : Image r e .free) : (∀ a ∈ e.attempts, a.outcome.isSome = true ∧ a.closings = 1) ∧
      (e.state = .settled ↔ ∃ a, e.attempts.getLast? = some a ∧ a.settles = true) ∧ r.state = e.state ∧
      e.state ≠ .running ∧ r.attempts = e.attempts.length := by
  rcases image with ⟨waits, state, free⟩ | ⟨settled, state, last⟩
  · refine ⟨fun a member => ?_, ⟨fun h => by simp [state] at h, ?_⟩, waits.trans state.symm, by simp [state], free.2.symm⟩
    · obtain ⟨j, found⟩ := mem_iff_getElem?.1 member
      exact ⟨(free.1 j a found).2.1, (free.1 j a found).2.2.1⟩
    · rintro ⟨a, member, settles⟩
      obtain ⟨j, found⟩ := mem_iff_getElem?.1 (mem_of_getLast? member)
      simp [(free.1 j a found).2.2.2] at settles
  · refine ⟨fun a member => last.all member, ⟨fun _ => ?_, fun _ => state⟩, settled.trans state.symm, by simp [state],
      last.length.symm⟩
    obtain ⟨past, outcome, attempts, -⟩ := last
    exact ⟨_, by rw [attempts, getLast?_concat], rfl⟩

end Campaigns
