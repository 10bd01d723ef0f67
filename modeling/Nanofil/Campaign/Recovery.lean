import Nanofil.Campaign.Restores

/-! Memory and catalog over the whole life of the service. -/
namespace Campaigns
open List Option

section
variable {s : Service} {d : Deck}

/-- One task of restore, with the writes that it hands over for its root. -/
theorem Service.Restoring.acts {s' : Service} {d' : Deck} {t : Task} {todo : List Task} {c k : Nat} {v : List Write}
    {g : Root → Root} (restoring : s.Restoring d) (stored : s.Stored d) (first : s.todo = t :: todo) (of : t.Of c k)
    (empty : s.queue = []) (lanes : d'.lanes = []) (shape : d'.shape = d.shape)
    (quiet : ∀ (c : Nat) x, d'.campaigns[c]? = some x → x.inFlight = 0)
    (root : ∀ c' k', d'.root c' k' = (d.root c' k').map (fun r => if c = c' ∧ k = k' then g r else r))
    (elsewhere : ∀ c' k', ¬(c = c' ∧ k = k') → ∀ w ∈ v, w.Elsewhere c' k')
    (here : ∀ r e, d.root c k = some r → e.Sound → Restored s.todo c k r e →
      Chain c k v e ∧ Restored todo c k (g r) (after c k v e))
    (catalog : s'.catalog = s.catalog) (queue : s'.queue = v.map (fun w => (none, w))) (rest : s'.todo = todo) :
    s'.Stored d' ∧ s'.Restoring d' := by
  have writes : s'.queue.map Prod.snd = v := by rw [queue, List.map_map]; exact List.map_id v
  have step : ∀ (c' k' : Nat) r e, d.root c' k' = some r → rowAt s.catalog c' k' = some e →
      Chain c' k' v e ∧ Restored todo c' k' (if c = c' ∧ k = k' then g r else r) (after c' k' v e) := by
    intro c' k' r e there found
    have chain := stored.chain c' k' e found
    have before := restoring.restored c' k' r e there (by rw [Service.row, found, empty]; rfl)
    rw [empty] at chain
    by_cases mine : c = c' ∧ k = k'
    · obtain ⟨rfl, rfl⟩ := mine
      rw [if_pos ⟨rfl, rfl⟩]
      exact here r e there chain before
    · have away := elsewhere c' k' mine
      have apart : ∀ u : Task, u.Of c' k' → (u ∈ s.todo ↔ u ∈ todo) := by
        intro u named
        rw [first, mem_cons, or_iff_right]
        rintro rfl
        cases u <;> exact mine ⟨of.1.symm.trans named.1, of.2.symm.trans named.2⟩
      rw [if_neg mine, after_elsewhere away]
      exact ⟨.of_elsewhere away chain, before.state, before.attempts, fun runs => (apart (.resets c' k') ⟨rfl, rfl⟩).1 (before.resets runs),
        fun n => (before.closes n).trans (apart (.closes c' k' n) ⟨rfl, rfl⟩)⟩
  have named : ∀ u ∈ s.todo, ∀ c k, u.Of c k → ∃ r, d'.root c k = some r := by
    intro u member c' k' named
    obtain ⟨r, there⟩ := restoring.named u member c' k' named
    exact ⟨_, by rw [root, there, map_some]⟩
  refine ⟨⟨by rw [catalog, shape, stored.shape], fun c' k' e found => ?_, fun p member c' k' beyond => ?_⟩,
    ⟨lanes, ?_, fun u member => ?_, quiet, fun c' k' r' e' there row => ?_⟩⟩
  · rw [catalog] at found
    obtain ⟨r, there⟩ := (stored.row_iff c' k').1 ⟨e, found⟩
    rw [writes]
    exact (step c' k' r e there found).1
  · rw [queue] at member
    obtain ⟨w, there, rfl⟩ := List.mem_map.1 member
    refine elsewhere c' k' (fun mine => ?_) w there
    obtain ⟨r, root'⟩ := restoring.named t (first ▸ mem_cons_self ..) c k of
    obtain ⟨e, row⟩ := (stored.row_iff c k).2 ⟨r, root'⟩
    obtain ⟨x, there', -⟩ := bind_eq_some_iff.1 row
    have bound := (List.getElem?_eq_some_iff.1 there').1
    rw [catalog] at beyond
    omega
  · have ordered := restoring.ordered
    rw [first] at ordered
    exact rest ▸ (pairwise_cons.1 ordered).2
  · exact named u (first ▸ mem_cons_of_mem _ (rest ▸ member))
  · obtain ⟨e, found, rfl⟩ := map_eq_some_iff.1 row
    rw [catalog] at found
    obtain ⟨r, there0⟩ := (stored.row_iff c' k').1 ⟨e, found⟩
    rw [root, there0, map_some] at there
    obtain rfl := Option.some.inj there
    rw [writes, rest]
    exact (step c' k' r e there0 found).2

theorem Restored.not_closes {todo : List Task} {c k n : Nat} {r : Root} {e : RootRow} {t : Task}
    (restored : Restored (t :: todo) c k r e) (ordered : (t :: todo).Pairwise Task.Before)
    (head : t = .closes c k n ∨ t = .resets c k) (m : Nat) : .closes c k m ∉ todo := by
  intro member
  have before := (pairwise_cons.1 ordered).1 _ member
  rcases head with rfl | rfl
  · have mine := ((restored.closes n).2 (mem_cons_self ..)).length
    have other := ((restored.closes m).2 (mem_cons_of_mem _ member)).length
    exact before (by rw [← mine, ← other])
  · exact before

theorem setRoot_root (d : Deck) (c k : Nat) (g : Root → Root) (c' k' : Nat) :
    (d.setRoot c k g).root c' k' = (d.root c' k').map (fun r => if c = c' ∧ k = k' then g r else r) :=
  root_modify d (f := Campaign.setRoot k g) (fun _ => rfl) c' k'

theorem setRoot_shape (d : Deck) (c k : Nat) (g : Root → Root) : (d.setRoot c k g).shape = d.shape :=
  map_modify_same (fun _ => by simp [Campaign.setRoot])

theorem setRoot_quiet {c k : Nat} {g : Root → Root} (quiet : ∀ (c : Nat) x, d.campaigns[c]? = some x → x.inFlight = 0) :
    ∀ (c' : Nat) x, (d.setRoot c k g).campaigns[c']? = some x → x.inFlight = 0 := by
  intro c' x there
  obtain ⟨y, found, ⟨rfl, -⟩ | ⟨rfl, -⟩⟩ := modify_some there
  · exact quiet c' _ found
  · exact quiet c' y found

theorem Service.Restoring.restores {s' : Service} {outcome : Option String} (restoring : s.Restoring d) (stored : s.Stored d)
    (empty : s.queue = []) (step : s.restores d outcome = some s') : ∃ d', s'.deck = some d' ∧ s'.Stored d' ∧ s'.Restoring d' := by
  unfold Service.restores at step
  split at step
  · rename_i c k n todo first
    cases step
    refine ⟨_, rfl, restoring.acts stored first ⟨rfl, rfl⟩ empty restoring.lanes (setRoot_shape d c k _) (setRoot_quiet restoring.quiet)
      (setRoot_root d c k _) (v := [.finishAttempt c k n (outcome.getD "incomplete") outcome.isSome,
        .setRootState c k (if outcome.isSome then .settled else .pending)]) ?_ ?_ rfl (by rw [empty]; rfl) rfl⟩
    · intro c' k' other w member
      simp only [mem_cons, not_mem_nil, or_false] at member
      rcases member with rfl | rfl <;> exact other
    · intro r e there sound restored
      rw [first] at restored
      have opened := (restored.closes n).2 (mem_cons_self ..)
      have ends : (if outcome.isSome = true then RootState.settled else .pending) = .settled ∨
          (if outcome.isSome = true then RootState.settled else .pending) = .pending := by split_ifs <;> simp
      have same : outcome.isSome = decide ((if outcome.isSome = true then RootState.settled else .pending) = .settled) := by
        cases outcome <;> rfl
      obtain ⟨chain, state, last, free⟩ := finish_chain (c := c) (k := k) opened (sound.unsettled opened)
        (outcome.getD "incomplete") ends same
      have gone := restored.not_closes (first ▸ restoring.ordered) (.inl rfl)
      refine ⟨chain, state.symm, ?_, fun runs => ?_, fun m => ⟨fun again => ?_, fun again => absurd again (gone m)⟩⟩
      · refine restored.attempts.trans (opened.length.trans ?_)
        exact (ends.elim (fun h => (last h).length) (fun h => (free h).2)).symm
      · rw [state] at runs
        rcases ends with h | h <;> simp [h] at runs
      · exact (ends.elim (fun h => (last h).not_open) (fun h => (free h).not_open) again).elim
  · rename_i c k todo first
    cases step
    have known : ((d.campaigns[c]?).bind (·.roots[k]?)).any (·.state = .running) = (d.root c k).any (·.state = .running) := rfl
    rw [known]
    have free : ∀ r e, e.Sound → Restored s.todo c k r e → e.state = .running → ∃ n, e.Free n := by
      intro r e sound restored runs
      rw [first] at restored
      have gone := restored.not_closes (n := 0) (first ▸ restoring.ordered) (.inr rfl)
      cases sound with
      | free n free => exact ⟨n, free⟩
      | opened n opened =>
        rcases mem_cons.1 ((restored.closes n).1 opened) with wrong | member
        · cases wrong
        · exact absurd member (gone n)
      | last n last state => exact absurd runs (by simp [state])
    have left : ∀ r e m, Restored s.todo c k r e → (.closes c k m ∈ todo ↔ e.Open m) := by
      intro r e m restored
      rw [restored.closes m, first, mem_cons, or_iff_right (by simp)]
    by_cases runs : (d.root c k).any (·.state = .running) = true
    · rw [if_pos runs, if_pos runs]
      refine ⟨_, rfl, restoring.acts stored first ⟨rfl, rfl⟩ empty restoring.lanes (setRoot_shape d c k _)
        (setRoot_quiet restoring.quiet) (setRoot_root d c k _) (v := [.setRootState c k .pending]) ?_ ?_ rfl (by rw [empty]; rfl) rfl⟩
      · intro c' k' other w member
        rw [mem_singleton.1 member]
        exact other
      · intro r e there sound restored
        have running : e.state = .running := by
          rw [there] at runs
          simpa [restored.state] using runs
        obtain ⟨n, rows⟩ := free r e sound restored running
        obtain ⟨chain, state, rows'⟩ := reset_chain (c := c) (k := k) rows running
        refine ⟨chain, state.symm, restored.attempts.trans (rows.2.trans rows'.2.symm), fun again => ?_, fun m => ?_⟩
        · rw [state] at again
          cases again
        · rw [left r e m restored]
          exact ⟨fun again => absurd again rows'.not_open, fun again => absurd again rows.not_open⟩
    · rw [if_neg runs, if_neg runs]
      refine ⟨_, rfl, restoring.acts stored first ⟨rfl, rfl⟩ empty restoring.lanes rfl restoring.quiet
        (g := id) (fun c' k' => ?_) (v := []) (by simp) ?_ rfl (by rw [empty]; rfl) rfl⟩
      · cases d.root c' k' <;> simp
      · intro r e there sound restored
        refine ⟨sound, restored.state, restored.attempts, fun running => ?_, fun m => (left r e m restored).symm⟩
        rw [there] at runs
        have still : e.state ≠ .running := by simpa [restored.state] using runs
        exact absurd running still
  · cases step

/-- Restore leaves memory and rows linked when it is done. -/
theorem Service.Restoring.starts {t : Service} (restoring : s.Restoring d) (stored : s.Stored d) (done : s.todo = [])
    (empty : s.queue = []) (catalog : t.catalog = s.catalog) (queue : t.queue = s.queue) (todo : t.todo = s.todo) :
    t.Stored { d with lanes := List.replicate 32 .top } ∧ t.Working { d with lanes := List.replicate 32 .top } := by
  have tops : ∀ (i : Nat) a, (List.replicate 32 At.top)[i]? = some a → a = .top :=
    fun i a found => eq_of_mem_replicate (mem_of_getElem? found)
  have rest : ∀ (c k : Nat) r e, d.root c k = some r → rowAt s.catalog c k = some e → e.Sound ∧ Restored [] c k r e := by
    intro c k r e root found
    have chain := stored.chain c k e found
    have restored := restoring.restored c k r e root (by rw [Service.row, found, empty]; rfl)
    rw [empty] at chain
    exact ⟨chain, done ▸ restored⟩
  refine ⟨⟨catalog ▸ stored.shape, fun c k e found => ?_, fun p member => ?_⟩, ⟨by simp, todo.trans done,
    by simp [queue, empty], fun i c rest' k found => ?_, fun i c k next outcome found => ?_, fun i c k a found some_ => ?_,
    fun c x there => ?_, fun c k r e root row => ?_⟩⟩
  · rw [queue]
    exact stored.chain c k e (catalog ▸ found)
  · simp [queue, empty] at member
  · cases tops i _ found
  · cases tops i _ found
  · obtain rfl := tops i a found
    exact absurd rfl some_
  · refine (restoring.quiet c x there).trans (Eq.symm (countP_eq_zero.2 (fun r member => ?_)))
    obtain ⟨k, root⟩ := mem_iff_getElem?.1 member
    have root' : d.root c k = some r := by rw [Deck.root, there, bind_some, root]
    obtain ⟨e, found, -⟩ := stored.rows root'
    have restored := (rest c k r e root' found).2
    intro runs
    have := restored.resets (by simpa [restored.state] using runs)
    cases this
  · rw [Service.row, queue, empty, catalog] at row
    obtain ⟨e0, found, rfl⟩ := map_eq_some_iff.1 row
    obtain ⟨sound, restored⟩ := rest c k r e0 root found
    refine .inr ⟨fun j v due => ?_, restored.image sound⟩
    obtain ⟨a, lane, rfl⟩ := map_eq_some_iff.1 due
    rw [tops j a lane]
    rfl

theorem Service.Stored.commits {t : Service} {o : Option Nat} {w : Write} {queue : List (Option Nat × Write)}
    (stored : s.Stored d) (head : s.queue = (o, w) :: queue) (catalog : t.catalog = w.apply s.catalog) (rest : t.queue = queue) :
    t.Stored d ∧ ∀ c k, t.row c k = s.row c k := by
  have old : ∀ x, w ≠ .insertCampaign x := by
    rintro x rfl
    exact stored.known (o, .insertCampaign x) (head ▸ mem_cons_self ..) s.catalog.length 0 le_rfl
  have shape : (w.apply s.catalog).map (fun e => e.roots.length) = s.catalog.map (fun e => e.roots.length) := by
    cases w with
    | insertCampaign x => exact absurd rfl (old x)
    | updateCampaign | updatePriority => exact map_modify_same (fun _ => by rfl)
    | insertAttempt | setRootState | finishAttempt => exact map_modify_same (fun _ => by simp [Entry.setRoot])
  have length : t.catalog.length = s.catalog.length := by
    simpa [catalog] using congrArg List.length shape
  refine ⟨⟨by rw [catalog, shape, stored.shape], fun c k e found => ?_, fun p member c k beyond => ?_⟩, fun c k => ?_⟩
  · rw [catalog, apply_row old] at found
    obtain ⟨e0, before, rfl⟩ := map_eq_some_iff.1 found
    have chain := stored.chain c k e0 before
    rw [head] at chain
    rw [rest]
    exact chain.2
  · exact stored.known p (head ▸ mem_cons_of_mem _ (rest ▸ member)) c k (length ▸ beyond)
  · rw [Service.row, Service.row, catalog, apply_row old, rest, head, Option.map_map]
    rfl

theorem Service.Working.commits {t : Service} {p : Option Nat × Write} {queue : List (Option Nat × Write)} (working : s.Working d)
    (head : s.queue = p :: queue) (rest : t.queue = queue) (todo : t.todo = s.todo) (rows : ∀ c k, t.row c k = s.row c k) :
    t.Working d :=
  ⟨working.lanes, todo.trans working.restored, fun q member => working.owned q (head ▸ mem_cons_of_mem _ (rest ▸ member)),
    working.tidy, working.settles, working.rooted, working.counted, fun c k r e root row => working.linked c k r e root (rows c k ▸ row)⟩

/-- Writes to no rows may be dropped. -/
theorem Service.Working.drops {t : Service} {p : Option Nat × Write → Bool} (working : s.Working d) (stored : s.Stored d)
    (elsewhere : ∀ w ∈ s.queue, p w = false → ∀ c k, w.2.Elsewhere c k) (catalog : t.catalog = s.catalog)
    (queue : t.queue = s.queue.filter p) (todo : t.todo = s.todo) : t.Stored d ∧ t.Working d := by
  have chains : ∀ (c k : Nat) e, rowAt s.catalog c k = some e → _ := fun c k e found =>
    (stored.chain c k e found).drop (fun w member gone => elsewhere w member gone c k)
  have kept : ∀ q ∈ t.queue, q ∈ s.queue := fun q member => (mem_filter.1 (queue ▸ member)).1
  refine ⟨⟨catalog ▸ stored.shape, fun c k e found => ?_, fun q member => ?_⟩, ⟨working.lanes, todo.trans working.restored,
    fun q member => working.owned q (kept q member), working.tidy, working.settles, working.rooted, working.counted,
    fun c k r e root row => ?_⟩⟩
  · rw [queue]
    exact (chains c k e (catalog ▸ found)).1
  · rw [catalog]
    exact stored.known q (kept q member)
  · obtain ⟨e0, found, rfl⟩ := map_eq_some_iff.1 row
    rw [catalog] at found
    refine working.linked c k r _ root ?_
    rw [Service.row, found, map_some, queue, (chains c k e0 found).2]

end

end Campaigns
