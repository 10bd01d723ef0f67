import Nanofil.Campaign.Dues

/-! Memory and rows of one root belong together, whoever has something due for it. -/
namespace Campaigns

/-- The root in memory and its rows when all writes are carried out, by what is due for it. -/
def Image (r : Root) (e : RootRow) : Due → Prop
  | .free => r.state = .pending ∧ e.state = .pending ∧ e.Free r.attempts ∨
      r.state = .settled ∧ e.state = .settled ∧ e.Last r.attempts
  | .skipped => r.state = .settled ∧ e.state = .pending ∧ ∃ n, r.attempts = n + 1 ∧ e.Free n
  | .claimed => r.state = .running ∧ e.state = .pending ∧ ∃ n, r.attempts = n + 1 ∧ e.Free n
  | .opened => r.state = .running ∧ e.state = .running ∧ e.Open r.attempts
  | .decided next => r.state = .running ∧ e.state = next ∧
      (next = .settled ∧ e.Last r.attempts ∨ next = .pending ∧ e.Free r.attempts)

/-- One lane at most has something due for the root. -/
def Linked (due : Nat → Option Due) (r : Root) (e : RootRow) : Prop :=
  (∃ i u, due i = some u ∧ u ≠ .free ∧ Image r e u ∧ ∀ j, j ≠ i → ∀ v, due j = some v → v = .free) ∨
    (∀ j v, due j = some v → v = .free) ∧ Image r e .free

variable {e : RootRow} {r : Root} {u : Due} {i : Nat} {due' : Nat → Option Due} {ws : List Write}

theorem Image.congr {r' : Root} (image : Image r e u) (state : r'.state = r.state)
    (attempts : r'.attempts = r.attempts) : Image r' e u := by
  cases u <;> simp only [Image, state, attempts] <;> exact image

theorem Linked.of {due : Nat → Option Due} (linked : Linked due r e)
    (here : due i = some u) (some_ : u ≠ .free) : Image r e u ∧ ∀ j, j ≠ i → ∀ v, due j = some v → v = .free := by
  rcases linked with ⟨i0, u0, here0, -, image, others⟩ | ⟨free, -⟩
  · by_cases same : i = i0
    · subst same
      obtain rfl := Option.some.inj (here0.symm.trans here)
      exact ⟨image, others⟩
    · exact absurd (others i same u here) some_
  · exact absurd (free i u here) some_

/-- Nothing is due for a pending root. -/
theorem Linked.pending {due : Nat → Option Due} (linked : Linked due r e) (pending : r.state = .pending) :
    (∀ j v, due j = some v → v = .free) ∧ e.state = .pending ∧ e.Free r.attempts := by
  rcases linked with ⟨i, u, -, some_, image, -⟩ | ⟨free, image⟩
  · cases u with
    | free => exact absurd rfl some_
    | skipped | claimed | opened | decided => exact absurd image.1 (by simp [pending])
  · rcases image with ⟨-, state, rows⟩ | ⟨wrong, -⟩
    · exact ⟨free, state, rows⟩
    · exact absurd wrong (by simp [pending])

/-- A root runs exactly while a lane holds it. -/
theorem Linked.running_iff {due : Nat → Option Due} (linked : Linked due r e) :
    r.state = .running ↔ ∃ i u, due i = some u ∧ u ≠ .free ∧ u ≠ .skipped := by
  constructor
  · intro runs
    rcases linked with ⟨i, u, here, some_, image, -⟩ | ⟨-, image⟩
    · refine ⟨i, u, here, some_, ?_⟩
      rintro rfl
      exact absurd image.1 (by simp [runs])
    · rcases image with ⟨wrong, -⟩ | ⟨wrong, -⟩ <;> exact absurd wrong (by simp [runs])
  · rintro ⟨i, u, here, some_, held⟩
    have image := (linked.of here some_).1
    cases u with
    | free => exact absurd rfl some_
    | skipped => exact absurd rfl held
    | claimed | opened | decided => exact image.1

theorem Linked.gone {due : Nat → Option Due} (others : ∀ j, j ≠ i → ∀ v, due j = some v → v = .free) (lane : due' i = some .free)
    (same : ∀ j, j ≠ i → due' j = due j) (image : Image r e .free) (_ : due i = some u) : Linked due' r e := by
  refine .inr ⟨fun j v here => ?_, image⟩
  by_cases mine : j = i
  · subst mine
    exact Option.some.inj (here.symm.trans lane)
  · exact others j mine v (same j mine ▸ here)

theorem Linked.taken {due : Nat → Option Due}
    (others : ∀ j, j ≠ i → ∀ v, due j = some v → v = .free) (lane : due' i = some u) (some_ : u ≠ .free)
    (same : ∀ j, j ≠ i → due' j = due j) (image : Image r e u) : Linked due' r e :=
  .inl ⟨i, u, lane, some_, image, fun j other v here => others j other v (same j other ▸ here)⟩

/-- A step on a root keeps memory and rows together, and a crash between its writes finds them sound. -/
theorem RootStep.linked {c k : Nat} {due : Nat → Option Due} {r' : Root}
    (step : RootStep c k due due' r r' ws) (linked : Linked due r e) (sound : e.Sound) :
    Chain c k ws e ∧ Linked due' r' (after c k ws e) := by
  have aside : (∀ w ∈ ws, w.Elsewhere c k) → Linked due' r' e → Chain c k ws e ∧ Linked due' r' (after c k ws e) := by
    intro elsewhere still
    rw [after_elsewhere elsewhere]
    exact ⟨.of_elsewhere elsewhere sound, still⟩
  cases step with
  | same state attempts lanes elsewhere =>
    refine aside elsewhere ?_
    rcases linked with ⟨i, u, here, some_, image, others⟩ | ⟨free, image⟩
    · exact .inl ⟨i, u, (lanes i).trans here, some_, image.congr state attempts,
        fun j other v found => others j other v (lanes j ▸ found)⟩
    · exact .inr ⟨fun j v found => free j v (lanes j ▸ found), image.congr state attempts⟩
  | takes i pending state attempts lane others elsewhere =>
    obtain ⟨free, waits, rows⟩ := linked.pending pending
    exact aside elsewhere (.taken (fun j _ => free j) lane (by simp) others ⟨state, waits, r.attempts, attempts, rows⟩)
  | claims i pending state attempts lane others elsewhere =>
    obtain ⟨free, waits, rows⟩ := linked.pending pending
    exact aside elsewhere (.taken (fun j _ => free j) lane (by simp) others ⟨state, waits, r.attempts, attempts, rows⟩)
  | skipsNow i pending state attempts lane others writes =>
    obtain ⟨free, waits, rows⟩ := linked.pending pending
    obtain ⟨chain, last, settled⟩ := skip_chain (c := c) (k := k) rows waits "skipped"
    rw [attempts] at writes
    subst writes
    refine ⟨chain, .inr ⟨fun j v here => ?_, .inr ⟨state, settled, attempts ▸ last⟩⟩⟩
    by_cases mine : j = i
    · subst mine
      exact Option.some.inj (here.symm.trans lane)
    · exact free j v (others j mine ▸ here)
  | skips i state attempts before lane same writes =>
    obtain ⟨⟨settled, waits, n, number, rows⟩, others⟩ := linked.of before (by simp)
    obtain ⟨chain, last, done⟩ := skip_chain (c := c) (k := k) rows waits "skipped"
    rw [number] at writes
    subst writes
    exact ⟨chain, .gone others lane same (.inr ⟨state.trans settled, done, by rw [attempts, number]; exact last⟩) before⟩
  | inserts i state attempts before lane same writes =>
    obtain ⟨⟨runs, waits, n, number, rows⟩, others⟩ := linked.of before (by simp)
    obtain ⟨chain, opened, started⟩ := start_chain (c := c) (k := k) rows waits
    rw [number] at writes
    subst writes
    exact ⟨chain, .taken others lane (by simp) same ⟨state.trans runs, started, by rw [attempts, number]; exact opened⟩⟩
  | decides i next outcome state attempts before lane same ends writes =>
    obtain ⟨⟨runs, started, opened⟩, others⟩ := linked.of before (by simp)
    obtain ⟨chain, done, last, free⟩ :=
      finish_chain (c := c) (k := k) opened (by simp [started]) outcome ends (rfl : decide (next = .settled) = _)
    subst writes
    refine ⟨chain, .taken others lane (by simp) same ⟨state.trans runs, done, ?_⟩⟩
    rw [attempts]
    exact ends.imp (fun h => ⟨h, last h⟩) (fun h => ⟨h, free h⟩)
  | settles i next state attempts before lane same elsewhere =>
    obtain ⟨⟨-, done, rows⟩, others⟩ := linked.of before (by simp)
    refine aside elsewhere (.gone others lane same ?_ before)
    rcases rows with ⟨rfl, last⟩ | ⟨rfl, free⟩
    · exact .inr ⟨state, done, attempts ▸ last⟩
    · exact .inl ⟨state, done, attempts ▸ free⟩
  | gives i state attempts before lane same elsewhere =>
    obtain ⟨⟨-, waits, n, number, rows⟩, others⟩ := linked.of before (by simp)
    refine aside elsewhere (.gone others lane same (.inl ⟨state, waits, ?_⟩) before)
    rw [attempts, number]
    exact rows

/-! ### Roots that lanes name, and writes, are there -/

/-- The numbers of roots, which no step changes. -/
def Deck.shape (d : Deck) : List Nat := d.campaigns.map (fun x => x.roots.length)

variable {d d' : Deck}

theorem shape_root {c k : Nat} : (∃ r, d.root c k = some r) ↔ ∃ n, d.shape[c]? = some n ∧ k < n := by
  simp only [Deck.root, Deck.shape, List.getElem?_map]
  cases d.campaigns[c]? with
  | none => simp
  | some x =>
    simp only [Option.bind_some, Option.map_some, Option.some.injEq, exists_eq_left']
    constructor
    · rintro ⟨r, found⟩
      exact (List.getElem?_eq_some_iff.1 found).1
    · exact fun bound => ⟨_, List.getElem?_eq_getElem bound⟩

theorem Deck.Goes.shape {a : At} (goes : d.Goes i a d' ws) : d'.shape = d.shape := by
  cases goes with
  | promotes c x there queued => exact map_modify_same (fun _ => by rfl)
  | finishes c x there runs quiet ended => exact map_modify_same (fun _ => by rfl)
  | takes c x there lane left roots skipped k next =>
    obtain ⟨b, moved, -⟩ := Deck.skips_moves (d.update c (Campaign.take roots k)) i c roots k skipped
    have taken := nextRoot_taken x.roots (List.range x.roots.length)
    rw [next] at taken
    rw [moved]
    refine (map_modify (h := id) (fun y found => ?_)).trans (List.modify_id ..)
    obtain rfl := Option.some.inj (there.symm.trans found)
    exact taken.later.length
  | skips c rest k x there =>
    obtain ⟨b, moved, -⟩ := Deck.skips_moves d i c x.roots k rest
    rw [moved]
    rfl
  | settles c k next outcome x there calm => exact map_modify_same (fun _ => by simp [Campaign.settle, Campaign.setRoot])
  | pauses c k next x there runs =>
    refine (map_modify_same (fun _ => by rfl)).trans (map_modify_same (fun _ => ?_))
    simp [Campaign.settle, Campaign.setRoot]
  | _ => rfl

theorem Deck.Moves.shape {l : Label} (moves : d.Moves l d' ws) (old : l.creates = false) : d'.shape = d.shape := by
  cases moves with
  | goes i a found d' ws goes => exact goes.shape
  | throws i a found d' throws =>
    obtain ⟨b, -, -, -, -, -, same | ⟨c, k, -, camps⟩⟩ := Deck.throws_cases throws
    · rw [Deck.shape, same]
      rfl
    · rw [Deck.shape, camps]
      exact map_modify_same (fun _ => by simp [Campaign.setRoot])
  | creates => cases old
  | pauses | cancels | resumes | ranks => exact map_modify_same (fun _ => by rfl)
  | _ => rfl

/-- What is due is due for a root that is there. -/
def Deck.Rooted (d : Deck) : Prop :=
  ∀ (i c k : Nat) a, d.lanes[i]? = some a → a.due c k ≠ .free → ∃ r, d.root c k = some r

theorem Deck.Goes.dues {a : At} (goes : d.Goes i a d' ws) : ∃ b, d'.lanes = d.lanes.set i b ∧
      ∀ c k, b.due c k ≠ .free → a.due c k ≠ .free ∨ ∃ r, d.root c k = some r := by
  cases goes with
  | takes c1 x there lane left roots skipped k1 next =>
    obtain ⟨b, to_, -, -, shape⟩ := Deck.skips_moves (d.update c1 (Campaign.take roots k1)) i c1 roots k1 skipped
    have taken := nextRoot_taken x.roots (List.range x.roots.length)
    rw [next] at taken
    refine ⟨b, by rw [to_]; rfl, fun c k some_ => .inr ?_⟩
    obtain ⟨away, here⟩ := skips_due (k := k) taken.tidy shape
    by_cases mine : c = c1
    · subst mine
      rw [here, skipping_due] at some_
      split_ifs at some_ with head member claimed
      · exact absurd rfl some_
      · obtain ⟨r, root, -⟩ := taken.pending.1 k member
        exact ⟨r, by simp [Deck.root, there, root]⟩
      · obtain ⟨r, root, -⟩ := taken.pending.2 k claimed
        exact ⟨r, by simp [Deck.root, there, root]⟩
      · exact absurd rfl some_
    · exact absurd (away c k mine) some_
  | skips c1 rest k1 x there =>
    obtain ⟨b, to_, -, -, shape⟩ := Deck.skips_moves d i c1 x.roots k1 rest
    refine ⟨b, by rw [to_]; rfl, fun c k some_ => .inl ?_⟩
    rcases shape with ⟨rfl, -⟩ | ⟨j, rest', rfl, rfl⟩ | ⟨j, rfl, rfl, rfl⟩
    · exact absurd rfl some_
    · by_cases mine : c1 = c
      · subst mine
        rw [skipping_due] at some_ ⊢
        split_ifs at some_ ⊢ <;> simp_all
      · simp [At.due, mine] at some_
    · by_cases mine : c1 = c ∧ j = k
      · simp [At.due, mine]
      · simp [At.due, mine] at some_
  | _ => exact ⟨_, rfl, by simp [At.due]⟩

theorem Deck.Moves.rooted {l : Label} (moves : d.Moves l d' ws) (rooted : d.Rooted) : d'.Rooted := by
  -- roots stay
  have stays : ∀ c k, (∃ r, d.root c k = some r) → ∃ r, d'.root c k = some r := by
    intro c k there
    by_cases new : l.creates = true
    · cases moves with
      | creates =>
        obtain ⟨r, root⟩ := there
        obtain ⟨x, found, root⟩ := Option.bind_eq_some_iff.1 root
        exact ⟨r, by simp only [Deck.root, append_old found, Option.bind_some, root]⟩
      | _ => cases new
    · rw [shape_root, moves.shape (by simpa using new)]
      exact shape_root.1 there
  intro j c k b found' some_
  have moved : ∀ (i : Nat) (a a' : At), d.lanes[i]? = some a → (a'.due c k ≠ .free → a.due c k ≠ .free ∨ ∃ r, d.root c k = some r) →
      (d.lanes.set i a')[j]? = some b → ∃ r, d'.root c k = some r := by
    intro i a a' found new found'
    rcases set_some found' with ⟨rfl, rfl⟩ | ⟨-, old⟩
    · rcases new some_ with before | there
      · exact stays c k (rooted j c k a found before)
      · exact stays c k there
    · exact stays c k (rooted j c k b old some_)
  cases moves with
  | goes i a found d' ws goes =>
    obtain ⟨a', lanes, dues⟩ := goes.dues
    exact moved i a a' found (dues c k) (lanes ▸ found')
  | throws i a found d' throws =>
    cases a with
    | requesting =>
      obtain ⟨x, -, rfl⟩ := Option.map_eq_some_iff.1 throws
      exact moved i _ _ found (fun h => .inl (by simpa [At.due] using h)) found'
    | opening | promoted | finishing | skipping | inserting | settling | pausing | claimed =>
      cases Option.some.inj throws
      exact moved i _ .sleeping found (fun h => absurd rfl h) found'
    | _ => cases throws
  | checks i c1 k1 s found => exact moved i _ _ found (fun h => .inl (by simpa [At.due] using h)) found'
  | ends i c1 k1 s found => exact moved i _ _ found (fun h => .inl (by simpa [At.due] using h)) found'
  | analyzed i c1 k1 _ _ _ found => exact moved i _ _ found (fun h => .inl (by simpa [At.due] using h)) found'
  | flags c1 accepted =>
    obtain ⟨a, old, rfl⟩ : ∃ a, d.lanes[j]? = some a ∧ a.flagged c1 = b := by simpa using found'
    rw [flagged_due] at some_
    exact stays c k (rooted j c k a old some_)
  | _ => exact stays c k (rooted j c k b found' some_)

end Campaigns
