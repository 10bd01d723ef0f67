import Nanofil.Campaign.Restarts

/-! Restore: it closes the open attempts, then it resets the roots that no lane holds. -/
namespace Campaigns
open List Option

/-- No attempt is closed twice, and resets come last. -/
def Task.Before : Task → Task → Prop
  | .closes c k n, t => t ≠ .closes c k n
  | .resets .., .resets .. => True
  | .resets .., .closes .. => False

/-- The root of a task. -/
def Task.Of (c k : Nat) : Task → Prop
  | .closes c' k' _ | .resets c' k' => c' = c ∧ k' = k

/-- Memory and rows agree, and what is left to do is what the rows need. -/
structure Restored (todo : List Task) (c k : Nat) (r : Root) (e : RootRow) : Prop where
  state : r.state = e.state
  attempts : r.attempts = e.attempts.length
  resets : e.state = .running → .resets c k ∈ todo
  closes : ∀ n, e.Open n ↔ .closes c k n ∈ todo

structure Service.Restoring (s : Service) (d : Deck) : Prop where
  lanes : d.lanes = []
  ordered : s.todo.Pairwise Task.Before
  named : ∀ t ∈ s.todo, ∀ c k, t.Of c k → ∃ r, d.root c k = some r
  quiet : ∀ (c : Nat) x, d.campaigns[c]? = some x → x.inFlight = 0
  restored : ∀ (c k : Nat) r e, d.root c k = some r → s.row c k = some e → Restored s.todo c k r e

/-! ### The latest attempt of a root -/

theorem Past.closed {past : List Attempt} (old : Past past) {a : Attempt} (member : a ∈ past) : a.outcome.isSome = true := by
  obtain ⟨j, found⟩ := mem_iff_getElem?.1 member
  exact (old j a found).2.1

variable {e : RootRow} {n c : Nat} {t : Task} {catalog : List Entry}

theorem RootRow.Open.mem (opened : e.Open n) {a : Attempt} (member : a ∈ e.attempts)
    (none_ : a.outcome = none) : a.attempt = n := by
  obtain ⟨past, attempts, old, -⟩ := opened
  rw [attempts] at member
  rcases mem_append.1 member with before | last
  · simpa [none_] using old.closed before
  · rw [mem_singleton.1 last]

theorem RootRow.Open.last (opened : e.Open n) : ⟨n, none, false, 0⟩ ∈ e.attempts := by
  obtain ⟨past, attempts, -⟩ := opened
  rw [attempts]
  exact mem_append_right _ (mem_singleton.2 rfl)

theorem RootRow.Open.length (opened : e.Open n) : e.attempts.length = n := by
  obtain ⟨past, attempts, -, size⟩ := opened
  simp [attempts, size]

theorem RootRow.Last.length (last : e.Last n) : e.attempts.length = n := by
  obtain ⟨past, outcome, attempts, -, size⟩ := last
  simp [attempts, size]

theorem RootRow.Free.not_open {m : Nat} (free : e.Free n) : ¬e.Open m :=
  fun opened => by simpa using free.1.closed opened.last

theorem RootRow.Last.not_open {m : Nat} (last : e.Last n) : ¬e.Open m := by
  intro opened
  have member := opened.last
  obtain ⟨past, outcome, attempts, old, -⟩ := last
  rw [attempts] at member
  rcases mem_append.1 member with before | here
  · simpa using old.closed before
  · simpa using mem_singleton.1 here

theorem RootRow.Sound.unsettled (sound : e.Sound) (opened : e.Open n) : e.state ≠ .settled := by
  cases sound with
  | free m free state => exact state
  | opened m _ state => exact state
  | last m last => exact absurd opened last.not_open

/-- When nothing is left to do, memory and rows are at rest together. -/
theorem Restored.image {k : Nat} {r : Root} (restored : Restored [] c k r e) (sound : e.Sound) : Image r e .free := by
  cases sound with
  | free n free state =>
    have size : n = r.attempts := (restored.attempts.trans free.2).symm
    have waits : e.state = .pending := by
      cases now : e.state with
      | pending => rfl
      | running => cases restored.resets now
      | settled => exact absurd now state
    exact .inl ⟨restored.state.trans waits, waits, size ▸ free⟩
  | opened n opened => cases (restored.closes n).1 opened
  | last n last state => exact .inr ⟨restored.state.trans state, state, (restored.attempts.trans last.length).symm ▸ last⟩

/-! ### The tasks of a catalog -/

theorem mem_opened {k : Nat} : t ∈ e.opened c k ↔ ∃ a ∈ e.attempts, a.outcome = none ∧ t = .closes c k a.attempt := by
  simp only [RootRow.opened, List.mem_map, mem_filter, isNone_iff_eq_none]
  exact ⟨fun ⟨a, ⟨member, none_⟩, same⟩ => ⟨a, member, none_, same.symm⟩, fun ⟨a, member, none_, same⟩ => ⟨a, ⟨member, none_⟩, same.symm⟩⟩

theorem mem_closes : t ∈ catalog.zipIdx.flatMap (fun (e, c) => e.roots.zipIdx.flatMap (fun (r, k) => r.opened c k)) ↔
      ∃ c k r, rowAt catalog c k = some r ∧ t ∈ r.opened c k := by
  simp only [mem_flatMap, mem_zipIdx_iff_getElem?, rowAt, bind_eq_some_iff]
  constructor
  · rintro ⟨⟨e, c⟩, there, ⟨r, k⟩, root, member⟩
    exact ⟨c, k, r, ⟨e, there, root⟩, member⟩
  · rintro ⟨c, k, r, ⟨e, there, root⟩, member⟩
    exact ⟨⟨e, c⟩, there, ⟨r, k⟩, root, member⟩

theorem mem_resets : t ∈ catalog.zipIdx.flatMap (fun (e, c) => e.roots.zipIdx.map (fun (_, k) => Task.resets c k)) ↔
      ∃ c k r, rowAt catalog c k = some r ∧ t = .resets c k := by
  simp only [mem_flatMap, List.mem_map, mem_zipIdx_iff_getElem?, rowAt, bind_eq_some_iff]
  constructor
  · rintro ⟨⟨e, c⟩, there, ⟨r, k⟩, root, rfl⟩
    exact ⟨c, k, r, ⟨e, there, root⟩, rfl⟩
  · rintro ⟨c, k, r, ⟨e, there, root⟩, rfl⟩
    exact ⟨⟨e, c⟩, there, ⟨r, k⟩, root, rfl⟩

theorem mem_tasks : t ∈ tasks catalog ↔ ∃ c k r, rowAt catalog c k = some r ∧ (t ∈ r.opened c k ∨ t = .resets c k) := by
  rw [tasks, mem_append, mem_closes, mem_resets]
  constructor
  · rintro (⟨c, k, r, row, h⟩ | ⟨c, k, r, row, h⟩)
    · exact ⟨c, k, r, row, .inl h⟩
    · exact ⟨c, k, r, row, .inr h⟩
  · rintro ⟨c, k, r, row, h | h⟩
    · exact .inl ⟨c, k, r, row, h⟩
    · exact .inr ⟨c, k, r, row, h⟩

theorem zipIdx_apart {α : Type} (xs : List α) : xs.zipIdx.Pairwise (fun a b => a.2 ≠ b.2) :=
  pairwise_map.1 (by rw [zipIdx_map_snd]; exact nodup_range')

theorem none_opened {attempts : List Attempt} (closed : ∀ a ∈ attempts, a.outcome.isSome = true) :
    attempts.filter (·.outcome.isNone) = [] := by
  refine filter_eq_nil_iff.2 (fun a member none_ => ?_)
  rw [← not_isSome, closed a member] at none_
  cases none_

theorem opened_before {k : Nat} (sound : e.Sound) : (e.opened c k).Pairwise Task.Before := by
  have none_open : (∀ a ∈ e.attempts, a.outcome.isSome = true) → (e.opened c k).Pairwise Task.Before := by
    intro closed
    rw [RootRow.opened, none_opened closed]
    exact .nil
  cases sound with
  | free n free => exact none_open (fun a member => free.1.closed member)
  | opened n opened =>
    obtain ⟨past, attempts, old, -⟩ := opened
    rw [RootRow.opened, attempts, filter_append, none_opened (fun a member => old.closed member)]
    simp
  | last n last =>
    refine none_open (fun a member => ?_)
    obtain ⟨past, outcome, attempts, old, -⟩ := last
    rw [attempts] at member
    rcases mem_append.1 member with before | here
    · exact old.closed before
    · rw [mem_singleton.1 here]
      rfl

theorem closes_before {k c' k' : Nat} {e' : RootRow} (apart : c ≠ c' ∨ k ≠ k') {t' : Task}
    (member : t ∈ e.opened c k) (member' : t' ∈ e'.opened c' k') : t.Before t' := by
  obtain ⟨a, -, -, rfl⟩ := mem_opened.1 member
  obtain ⟨b, -, -, rfl⟩ := mem_opened.1 member'
  intro same
  obtain ⟨campaign, root, -⟩ := Task.closes.inj same
  exact apart.elim (fun h => h campaign.symm) (fun h => h root.symm)

theorem tasks_before (sound : ∀ (c k : Nat) e, rowAt catalog c k = some e → e.Sound) : (tasks catalog).Pairwise Task.Before := by
  refine pairwise_append.2 ⟨pairwise_flatMap.2 ⟨?_, ?_⟩, ?_, ?_⟩
  · rintro ⟨e, c⟩ there
    refine pairwise_flatMap.2 ⟨?_, (zipIdx_apart e.roots).imp (fun {a b} apart t member t' member' => ?_)⟩
    · rintro ⟨r, k⟩ root
      rw [mem_zipIdx_iff_getElem?] at there root
      exact opened_before (sound c k r (by simp only [rowAt, there, bind_some, root]))
    · exact closes_before (.inr apart) member member'
  · refine (zipIdx_apart catalog).imp (fun {a b} apart t member t' member' => ?_)
    obtain ⟨⟨r, k⟩, -, member⟩ := mem_flatMap.1 member
    obtain ⟨⟨r', k'⟩, -, member'⟩ := mem_flatMap.1 member'
    exact closes_before (.inl apart) member member'
  · refine pairwise_of_forall_mem_list (fun t member t' member' => ?_)
    obtain ⟨c, k, r, -, rfl⟩ := mem_resets.1 member
    obtain ⟨c', k', r', -, rfl⟩ := mem_resets.1 member'
    trivial
  · intro t member t' member'
    obtain ⟨c, k, r, -, member⟩ := mem_closes.1 member
    obtain ⟨a, -, -, rfl⟩ := mem_opened.1 member
    obtain ⟨c', k', r', -, rfl⟩ := mem_resets.1 member'
    exact fun same => by cases same

/-! ### The load -/

theorem load_root (catalog : List Entry) (now : Int) (c k : Nat) :
    Deck.root ⟨now, false, false, catalog.map (Entry.load now), [], []⟩ c k = (rowAt catalog c k).map RootRow.load := by
  simp only [Deck.root, rowAt, getElem?_map]
  cases catalog[c]? with
  | none => rfl
  | some e => simp [Entry.load]

theorem load_restored {k : Nat} (found : rowAt catalog c k = some e) (sound : e.Sound) :
    Restored (tasks catalog) c k e.load e := by
  refine ⟨rfl, rfl, fun _ => mem_tasks.2 ⟨c, k, e, found, .inr rfl⟩, fun n => ⟨fun opened => ?_, fun member => ?_⟩⟩
  · exact mem_tasks.2 ⟨c, k, e, found, .inl (mem_opened.2 ⟨_, opened.last, rfl, rfl⟩)⟩
  · obtain ⟨c', k', e', found', opened | wrong⟩ := mem_tasks.1 member
    · obtain ⟨a, there, none_, same⟩ := mem_opened.1 opened
      cases same
      obtain rfl := Option.some.inj (found.symm.trans found')
      cases sound with
      | free m free => simpa [none_] using free.1.closed there
      | opened m opened => exact opened.mem there none_ ▸ opened
      | last m last =>
        obtain ⟨past, outcome, attempts, old, -⟩ := last
        rw [attempts] at there
        rcases mem_append.1 there with before | here
        · simpa [none_] using old.closed before
        · simp [mem_singleton.1 here] at none_
    · cases wrong

theorem Service.boots_restoring {s s' : Service} {now : Int} (sound : ∀ (c k : Nat) e, rowAt s.catalog c k = some e → e.Sound)
    (catalog : s'.catalog = s.catalog) (queue : s'.queue = []) (todo : s'.todo = tasks s.catalog) :
    s'.Stored ⟨now, false, false, s.catalog.map (Entry.load now), [], []⟩ ∧
      s'.Restoring ⟨now, false, false, s.catalog.map (Entry.load now), [], []⟩ := by
  refine ⟨⟨?_, fun c k e found => ?_, by simp [queue]⟩, ⟨rfl, todo ▸ tasks_before sound, fun t member c k of => ?_,
    fun c x there => ?_, fun c k r e root row => ?_⟩⟩
  · simp [Deck.shape, catalog, Entry.load]
  · rw [queue]
    exact sound c k e (catalog ▸ found)
  · rw [todo] at member
    obtain ⟨c', k', e, found, h⟩ := mem_tasks.1 member
    obtain ⟨rfl, rfl⟩ : c' = c ∧ k' = k := by
      rcases h with opened | rfl
      · obtain ⟨a, -, -, rfl⟩ := mem_opened.1 opened
        exact of
      · exact of
    exact ⟨e.load, by rw [load_root, found, map_some]⟩
  · obtain ⟨e, -, rfl⟩ : ∃ e, s.catalog[c]? = some e ∧ e.load now = x := by simpa using there
    rfl
  · rw [load_root] at root
    obtain ⟨e', found, rfl⟩ := map_eq_some_iff.1 root
    rw [Service.row, queue, catalog, found, map_some] at row
    obtain rfl : e' = e := Option.some.inj row
    exact todo ▸ load_restored found (sound c k e' found)

end Campaigns
