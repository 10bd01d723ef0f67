import Nanofil.Experiment.Budget

/-! What no later operation takes back. -/
namespace Experiment
open List

variable {db db' db'' : Db} {w : World} {op : Op} {s t : Controller}

/-- What an attempt has become: it does not begin again once it has ended. -/
structure Aged (a a' : Attempt) : Prop where
  id : a'.id = a.id
  campaign : a'.campaign = a.campaign
  spec : a'.spec = a.spec
  active : a'.state.active → a.state.active

theorem Aged.refl (a : Attempt) : Aged a a := ⟨rfl, rfl, rfl, fun active => active⟩

theorem SameAttempt.aged {a a' : Attempt} (same : SameAttempt a a') : Aged a a' := ⟨same.id, same.campaign, same.spec, (same.active ▸ ·)⟩

/-- What is in the journal stays there, and attempts are not taken away. -/
structure Extended (db db' : Db) : Prop where
  events : db.events <+: db'.events
  attempts : ∀ a ∈ db.attempts, ∃ a' ∈ db'.attempts, Aged a a'

theorem Extended.trans (first : Extended db db') (next : Extended db' db'') : Extended db db'' := by
  refine ⟨first.events.trans next.events, fun a mem => ?_⟩
  obtain ⟨a', mem', aged⟩ := first.attempts a mem
  obtain ⟨a'', mem'', later⟩ := next.attempts a' mem'
  exact ⟨a'', mem'', later.id.trans aged.id, later.campaign.trans aged.campaign, later.spec.trans aged.spec, aged.active ∘ later.active⟩

theorem Commit.extended (commit : Commit w op s t) : Extended s.db t.db := by
  have adds (events : s.db.events <+: t.db.events) (attempts : ∀ a ∈ s.db.attempts, a ∈ t.db.attempts) : Extended s.db t.db :=
    ⟨events, fun a mem => ⟨a, attempts a mem, .refl a⟩⟩
  cases commit with
  | written written =>
    obtain ⟨es, events, -⟩ := written.kept.events
    refine ⟨⟨es, events.symm⟩, fun a mem => ?_⟩
    obtain ⟨a', mem', same⟩ := mem_left written.kept.attempts mem
    exact ⟨a', mem', same.aged⟩
  | imported _ _ _ _ _ _ db | scheduled _ _ _ _ db | queued _ _ _ _ _ _ _ _ _ db =>
    exact adds (db ▸ prefix_append _ _) fun a mem => db ▸ mem
  | built _ _ _ _ _ _ _ _ db | planned _ _ _ _ _ _ db => exact adds (by simp [db, intend_events]) fun a mem => by simp [db, intend_attempts, mem]
  | finished a mid reason result live written released db =>
    obtain ⟨es, events, -⟩ := written.kept.events
    refine ⟨?_, fun x mem => ?_⟩
    · rw [db]
      exact ⟨es ++ [_], by rw [← append_assoc, ← events]; rfl⟩
    · obtain ⟨x', mem', same⟩ := mem_left written.kept.attempts mem
      refine ⟨_, by rw [db]; exact List.mem_map.2 ⟨x', mem', rfl⟩, ?_⟩
      split_ifs
      · exact ⟨same.id, same.campaign, same.spec, fun active => by cases active⟩
      · exact same.aged
  | skipped cid drvs db =>
    refine adds ?_ fun a mem => db ▸ (skipReplans_rows s.db cid drvs).2.2 ▸ mem
    rw [db, Db.skipReplans]
    dsimp only
    split_ifs
    exacts [prefix_rfl, prefix_append _ _]

/-- What a run of the controller has recorded at one time stays recorded at every later time, over its deaths and restarts too. -/
theorem history_kept (allowed : World → Op → Controller → Prop) (db db' : Db)
    (later : Relation.ReflTransGen (Relation.Map (Follows allowed) Controller.db Controller.db) db db') : Extended db db' := by
  induction later with
  | refl => exact ⟨prefix_rfl, fun a mem => ⟨a, mem, .refl a⟩⟩
  | tail _ step ih =>
    obtain ⟨s, t, follows, rfl, rfl⟩ := step
    obtain ⟨w, op, r, -, commit, -⟩ := follows_commit (I := fun _ => True) trivial (fun _ _ _ _ => trivial) follows
    exact ih.trans commit.extended

theorem history_kept_once : Extended beforeOnce.db afterOnce.db :=
  history_kept anyOp beforeOnce.db afterOnce.db (.single ⟨beforeOnce, afterOnce, afterOnce_follows, rfl, rfl⟩)

end Experiment
