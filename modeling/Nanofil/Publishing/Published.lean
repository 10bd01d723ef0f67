import Nanofil.Publishing.Submissions

/-! A generation that is returned is the source that it read. -/
namespace Publishing
open List Option Observations Commits

variable {δ : Type} [DecidableEq δ] {sha : Digests δ} {ws : List (World δ)} {gens : List (Generation δ)} {s : Publisher δ}
  {r : Remote δ}

/-! ### What the destination shows -/

omit [DecidableEq δ] in
theorem chainFrom_ok (chained : Chained gens) (there : ∀ g ∈ gens, r.manifests.lookup g.manifest.generation = some g.manifest)
    (once : (gens.map (·.manifest.generation)).Nodup) :
    ∀ n met, gens.length ≤ n → (∀ g ∈ gens, g.manifest.generation ∉ met) →
      r.chainFrom n met ((tip gens).map (·.generation)) = some (gens.map (·.manifest)) := by
  induction chained with
  | nil => intro n met _ _; cases n <;> rfl
  | @snoc gens g chained parent ih =>
    intro n met enough unmet
    rw [length_append, length_singleton] at enough
    obtain ⟨n, rfl⟩ : ∃ n', n = n' + 1 := ⟨n - 1, by omega⟩
    rw [map_append, nodup_append] at once
    have before : ∀ g' ∈ gens, g'.manifest.generation ∉ g.manifest.generation :: met := by
      intro g' earlier again
      rcases mem_cons.1 again with same | again
      · exact once.2.2 _ (List.mem_map_of_mem earlier) g.manifest.generation (by simp) same
      · exact unmet g' (mem_append_left _ earlier) again
    rw [tip_concat, map_some, Remote.chainFrom, if_neg (unmet g (by simp)), there g (by simp)]
    dsimp only
    rw [if_neg (not_not.2 rfl), parent, ih (fun g' earlier => there g' (mem_append_left _ earlier)) once.1 n _ (by omega)
      before, map_some, map_append]
    rfl

/-- The generations that the pointer leads to are at the destination, one after another. -/
structure Committed (sha : Digests δ) (gens : List (Generation δ)) (r : Remote δ) : Prop where
  latest : r.latest = tip gens
  stored : ∀ g ∈ gens, Stored sha r g
  chained : Chained gens
  once : (gens.map (·.manifest.generation)).Nodup
  revisions : gens.Pairwise (fun g g' => g.manifest.revision < g'.manifest.revision)

omit [DecidableEq δ] in
theorem Chained.before {gens : List (Generation δ)} {g : Generation δ} (chained : Chained (gens ++ [g])) : Chained gens := by
  generalize same : gens ++ [g] = all at chained
  cases chained with
  | nil => simp at same
  | snoc chained _ =>
    obtain ⟨rfl, -⟩ := append_inj' same rfl
    exact chained

theorem Phase.committed (phase : Phase sha ws s gens) : Committed sha gens s.remote := by
  cases phase with
  | idle idle => exact ⟨idle.latest, idle.stored, idle.chained, idle.kept.once, idle.kept.revisions⟩
  | waiting waiting latest =>
    refine ⟨latest, waiting.stored, waiting.chained.before, ?_, ?_⟩
    · have once := waiting.kept.once
      rw [map_append, nodup_append] at once
      exact once.1
    · exact (pairwise_append.1 waiting.kept.revisions).1
  | sent waiting latest stored =>
    refine ⟨latest, fun g there => ?_, waiting.chained, waiting.kept.once, waiting.kept.revisions⟩
    rcases mem_append.1 there with there | there
    · exact waiting.stored g there
    · rw [mem_singleton.1 there]
      exact stored

theorem Committed.chain (committed : Committed sha gens r) : r.chain.getD [] = gens.map (·.manifest) := by
  have within : gens.length ≤ r.manifests.keys.length := by
    have sub : gens.map (·.manifest.generation) ⊆ r.manifests.keys := by
      intro id there
      obtain ⟨g, listed, rfl⟩ := List.mem_map.1 there
      rw [← AList.mem_keys, ← AList.lookup_isSome, (committed.stored g listed).manifest]
      rfl
    have shorter := (subperm_of_subset committed.once sub).length_le
    rwa [length_map] at shorter
  have leads := chainFrom_ok committed.chained (fun g there => (committed.stored g there).manifest) committed.once
    (r.manifests.keys.length + 1) [] (by omega) (by simp)
  rw [Remote.chain, committed.latest]
  cases last : tip gens with
  | none =>
    have none_ : gens = [] := by
      rw [tip, map_eq_none_iff] at last
      exact getLast?_eq_none_iff.1 last
    rw [none_]
    rfl
  | some p =>
    rw [last, map_some] at leads
    rw [bind_some, leads]
    rfl

theorem Stored.file {g : Generation δ} (stored : Stored sha r g) {p : Part} (there : p ∈ g.parts) :
    r.file (p.item sha) = some p.file := stored.objects p there

/-- What is read of the manifests is what their files hold. -/
theorem Committed.records (committed : Committed sha gens r) (t : TableName) :
    r.records (gens.map (·.manifest)) t = gens.flatMap (fun g => recordsIn g.parts t) := by
  rw [Remote.records, flatMap_map]
  refine flatMap_congr fun g there => ?_
  have stored := committed.stored g there
  rw [stored.files, List.filter_map, flatMap_map, recordsIn]
  refine flatMap_congr fun p part => ?_
  rw [stored.file (mem_of_mem_filter part)]
  rfl

theorem Committed.logs (committed : Committed sha gens r) (attempt : String) (stream : Stream) :
    r.logRecords (gens.map (·.manifest)) attempt stream = streams gens attempt stream := by
  rw [Remote.logRecords, flatMap_map, streams, logsOf]
  congr 1
  refine flatMap_congr fun g there => ?_
  have stored := committed.stored g there
  rw [stored.files, List.filter_map, flatMap_map, logsIn]
  refine flatMap_congr fun p part => ?_
  rw [stored.file (mem_of_mem_filter part)]
  rfl

/-! ### Results -/

/-- The newest rows that are not tombstones are the tables of a source. -/
def RowsShown (r : Remote δ) (v : World δ) : Prop :=
  ∀ t k, r.latestRow (r.chain.getD []) t k = (v.source.table t).row? k

/-- The records of each stream are consecutive ranges of bytes, and a prefix of the file. -/
def RangesShown (r : Remote δ) (v : World δ) : Prop :=
  ∀ attempt stream, Consecutive 0 (r.logRecords (r.chain.getD []) attempt stream) ∧
    bytesOf (r.logRecords (r.chain.getD []) attempt stream) <+: (v.files attempt stream).getD []

/-- The records of a live attempt do not end inside a line without an end. -/
def LinesShown (r : Remote δ) (v : World δ) : Prop :=
  ∀ a ∈ v.source.attempts, a.live = true → ∀ stream,
    Whole ((v.files a.id stream).getD []) (bytesOf (r.logRecords (r.chain.getD []) a.id stream)).length

/-- The dataset, up to a manifest, is a source. -/
structure Published (r : Remote δ) (m : Manifest δ) (v : World δ) : Prop where
  chain : ∃ before, r.chain = some (before ++ [m])
  tables : RowsShown r v
  ranges : RangesShown r v
  lines : LinesShown r v

/-- One pointer after another: the chain it leads to only gets longer, no generation is in it twice,
and its revisions rise. -/
def Follows (r r' : Remote δ) : Prop :=
  r.chain.getD [] <+: r'.chain.getD [] ∧ ((r'.chain.getD []).map (·.generation)).Nodup ∧
    (r'.chain.getD []).Pairwise (fun m m' => m.revision < m'.revision)

theorem Committed.follows {gens' : List (Generation δ)} {r' : Remote δ} (committed : Committed sha gens r)
    (committed' : Committed sha gens' r') (longer : gens <+: gens') : Follows r r' := by
  refine ⟨?_, ?_, ?_⟩
  · rw [committed.chain, committed'.chain]
    exact longer.map _
  · rw [committed'.chain, List.map_map]
    exact committed'.once
  · rw [committed'.chain, pairwise_map]
    exact committed'.revisions

theorem Idle.published {g : Generation δ} (idle : Idle sha ws (gens ++ [g]) s) :
    ∃ v ∈ ws, v.uuid = g.manifest.generation ∧ Published s.remote g.manifest v := by
  have committed := (Phase.idle idle).committed
  obtain ⟨v, there, uuid, shows⟩ := idle.kept.last g getLast?_concat
  obtain ⟨cursors, streamed⟩ := shows.logs
  have length : ∀ attempt stream, (bytesOf (streams (gens ++ [g]) attempt stream)).length =
      (cursors.lookup (attempt, stream)).getD 0 := by
    intro attempt stream
    rw [streamed.bytes, length_take, Nat.min_eq_left (streamed.within attempt stream)]
  refine ⟨v, there, uuid, ?_, fun t k => ?_, fun attempt stream => ?_, fun a row live stream => ?_⟩
  · have chain := committed.chain
    cases leads : s.remote.chain with
    | none =>
      rw [leads] at chain
      simp at chain
    | some c =>
      rw [leads, getD_some, map_append] at chain
      exact ⟨gens.map (·.manifest), congrArg some chain⟩
  · rw [Remote.latestRow, committed.chain, committed.records]
    exact shows.tables t k
  · rw [committed.chain, committed.logs]
    exact ⟨streamed.consecutive attempt stream, streamed.bytes attempt stream ▸ take_prefix _ _⟩
  · rw [committed.chain, committed.logs, length]
    refine streamed.whole a.id stream fun a' row' same => ?_
    rw [inj_on_of_nodup_map v.source.distinct row' row same]
    exact live

/-- After a call that returns a manifest the dataset is the source that its generation read, and in
every run the pointer only moves to a generation that is new, of a later revision. -/
theorem generations_published {w : World δ} (run : Run sha Meets ws s) (met : Meets ws w) :
    (∀ m, (publish sha w s).2 = .ok (some m) →
      ∃ v ∈ w :: ws, v.uuid = m.generation ∧ Published ((publish sha w).last s).remote m v) ∧
    ∀ t ∈ s :: (publish sha w s).1, Follows s.remote t.remote := by
  obtain ⟨gens, phase⟩ := run.phase
  obtain ⟨chain, ends⟩ := publish_holds phase met s rfl
  constructor
  · intro m returned
    rw [returned] at ends
    obtain ⟨gens', g, rfl, idle⟩ := ends m rfl
    exact idle.published
  · intro t there
    rcases mem_cons.1 there with rfl | there
    · exact phase.committed.follows phase.committed (prefix_refl _)
    · rcases chain_keeps chain (fun _ _ onward _ => onward) (.inl (phase.more w)) t there with here | ⟨g, here⟩
      · exact phase.committed.follows here.committed (prefix_refl _)
      · exact phase.committed.follows here.committed (prefix_append _ _)

/-- Digests that are what they digest. -/
def plainDigests : Digests (Row ⊕ File) := ⟨.inl, Sum.inl_injective, List.length, .inr, Sum.inr_injective⟩

/-- A database with some events and attempts, and no other rows. -/
def sourceOf (events : Table) (attempts : List AttemptRow) (distinct : (attempts.map (·.id)).Nodup) : Snapshot :=
  ⟨6, fun t => if t = .events then events else ⟨[("id", "TEXT")], [0], [], List.nodup_nil⟩, attempts, distinct⟩

/-- A call that finds in its spool what it staged. -/
def callOn (source : Snapshot) (files : String → Stream → Option (List Nat)) (uuid : Nat) : World (Row ⊕ File) :=
  ⟨source, files, 8, uuid, 0, fun digest => match digest with
    | .inl _ => none
    | .inr file => some file⟩

def eventColumns : List (String × String) := [("seq", "INTEGER"), ("kind", "TEXT")]

/-- A running attempt has written a line and a part of one. -/
def firstCall : World (Row ⊕ File) :=
  callOn (sourceOf ⟨eventColumns, [0], [[.int 1, .text "imported"]], by decide⟩ [⟨"a", "c", "running", 0⟩] (by decide))
    (fun _ stream => if stream = .stdout then some [65, 10, 66] else none) 1

theorem firstCall_meets : Meets [] firstCall := by
  refine ⟨by simp, by simp, by simp, by simp, ?_⟩
  decide

theorem returned_some {α ε : Type} {x : Except ε (Option α)} (some_ : x.toOption.join.isSome = true) : ∃ a, x = .ok (some a) := by
  cases x with
  | error e => cases some_
  | ok o =>
    cases o with
    | none => cases some_
    | some a => exact ⟨a, rfl⟩

theorem generations_published_first : ∃ m, (publish plainDigests firstCall .created).2 = .ok (some m) ∧
    ∃ v ∈ [firstCall], v.uuid = m.generation ∧ Published ((publish plainDigests firstCall).last .created).remote m v := by
  obtain ⟨m, returned⟩ := returned_some (show (publish plainDigests firstCall .created).2.toOption.join.isSome = true by
    decide +kernel)
  exact ⟨m, returned, (generations_published .created firstCall_meets).1 m returned⟩

/-- A new uuid and logs that have grown, over a database in any state. -/
def MeetsAny {δ : Type} (ws : List (World δ)) (w : World δ) : Prop :=
  (∀ v ∈ ws, v.uuid ≠ w.uuid) ∧ ∀ v ∈ ws, Grown v.files w.files

/-- What a dataset would show after every such call that returns a manifest. -/
def AlwaysShown (shown : Remote (Row ⊕ File) → World (Row ⊕ File) → Prop) : Prop :=
  ∀ (ws : List (World (Row ⊕ File))) (s : Publisher (Row ⊕ File)) (w : World (Row ⊕ File)),
    Run plainDigests MeetsAny ws s → MeetsAny ws w → ∀ m, (publish plainDigests w s).2 = .ok (some m) →
      ∃ v ∈ w :: ws, v.uuid = m.generation ∧ shown ((publish plainDigests w).last s).remote v

/-- Two calls in a row, each of which returns. -/
theorem AlwaysShown.second {shown : Remote (Row ⊕ File) → World (Row ⊕ File) → Prop} (always : AlwaysShown shown)
    {v w : World (Row ⊕ File)} (grown : Grown v.files w.files) (other : v.uuid ≠ w.uuid)
    (returns : (publish plainDigests w ((publish plainDigests v).last .created)).2.toOption.join.isSome = true)
    (named : (publish plainDigests w ((publish plainDigests v).last .created)).2.toOption.join.map (·.generation) = some w.uuid) :
    shown ((publish plainDigests w).last ((publish plainDigests v).last .created)).remote w := by
  have first : Run plainDigests MeetsAny [v] ((publish plainDigests v).last .created) :=
    .published .created ⟨by simp, by simp⟩ ((final_mem _ _).elim (fun same => mem_cons.2 (.inl same))
      fun there => mem_cons_of_mem _ there)
  obtain ⟨m, returned⟩ := returned_some returns
  have met : MeetsAny [v] w := ⟨by simpa using other, by simpa using grown⟩
  obtain ⟨u, there, uuid, shows⟩ := always _ _ w first met m returned
  rw [returned] at named
  have generation : m.generation = w.uuid := Option.some.inj named
  rcases mem_cons.1 there with rfl | before
  · exact shows
  · rw [mem_singleton.1 before, generation] at uuid
    exact absurd uuid other

def importedCall : World (Row ⊕ File) :=
  callOn (sourceOf ⟨eventColumns, [0], [[.int 1, .text "imported"]], by decide⟩ [⟨"a", "c", "finished", 0⟩] (by decide))
    (fun _ stream => if stream = .stdout then some [66] else none) 1

/-- The event that was published has another kind, there is a new one, and the attempt runs again. -/
def rewrittenCall : World (Row ⊕ File) :=
  callOn (sourceOf ⟨eventColumns, [0], [[.int 1, .text "created"], [.int 2, .text "paused"]], by decide⟩
    [⟨"a", "c", "running", 0⟩] (by decide)) (fun _ stream => if stream = .stdout then some [66] else none) 2

theorem rewritten_grown : Grown importedCall.files rewrittenCall.files :=
  fun _ _ _ there => ⟨[], by rw [append_nil]; exact there⟩

/-- An event that is rewritten after it was published stays as it was, and the log of an attempt that
had ended goes up to the middle of a line when it runs again. -/
theorem any_database_shown : ¬AlwaysShown RowsShown ∧ ¬AlwaysShown LinesShown := by
  have returns : (publish plainDigests rewrittenCall
      ((publish plainDigests importedCall).last .created)).2.toOption.join.isSome = true := by decide +kernel
  have named : (publish plainDigests rewrittenCall
      ((publish plainDigests importedCall).last .created)).2.toOption.join.map (·.generation) = some rewrittenCall.uuid := by
    decide +kernel
  constructor
  · intro always
    have shown := always.second rewritten_grown (by decide) returns named .events [.int 1]
    have stale : ((publish plainDigests rewrittenCall).last ((publish plainDigests importedCall).last .created)).remote.latestRow
        (((publish plainDigests rewrittenCall).last ((publish plainDigests importedCall).last .created)).remote.chain.getD [])
          .events [.int 1] = some [.int 1, .text "imported"] := by decide +kernel
    have fresh : (rewrittenCall.source.table .events).row? [.int 1] = some [.int 1, .text "created"] := by decide +kernel
    rw [stale, fresh] at shown
    exact absurd shown (by decide)
  · intro always
    have shown := always.second rewritten_grown (by decide) returns named ⟨"a", "c", "running", 0⟩ mem_cons_self
      (by decide) .stdout
    have captured : (bytesOf (((publish plainDigests rewrittenCall).last
        ((publish plainDigests importedCall).last .created)).remote.logRecords
          (((publish plainDigests rewrittenCall).last ((publish plainDigests importedCall).last .created)).remote.chain.getD [])
            "a" .stdout)).length = 1 := by decide +kernel
    rw [captured] at shown
    rcases shown with zero | ⟨i, -, ends⟩
    · cases zero
    · cases i with
      | zero => exact absurd ends (by decide)
      | succ i => cases ends

end Publishing
