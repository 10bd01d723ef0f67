import Nanofil.Publishing.Histories

/-! Every commit of a call leaves the checkpoint and the destination in a phase. -/
namespace Publishing
open Observations Commits

variable {δ : Type} [DecidableEq δ] {sha : Digests δ} {ws : List (World δ)} {gens : List (Generation δ)}
  {g : Generation δ} {p : Pending δ} {s : Publisher δ} {w : World δ}

/-- The pointer is where it was, or names one generation more. -/
def Onward (sha : Digests δ) (ws : List (World δ)) (gens : List (Generation δ)) (t : Publisher δ) : Prop :=
  Phase sha ws t gens ∨ ∃ g, Phase sha ws t (gens ++ [g])

/-- The end of a call that returns a manifest: at rest, after that manifest's generation. -/
def Returned (sha : Digests δ) (ws : List (World δ)) (m : Option (Manifest δ)) (t : Publisher δ) : Prop :=
  ∀ m', m = some m' → ∃ gens g, g.manifest = m' ∧ Idle sha ws (gens ++ [g]) t

/-- Of a pending generation's files, those that remain and those that are there. -/
structure Uploading (sha : Digests δ) (ws : List (World δ)) (gens : List (Generation δ)) (g : Generation δ) (p : Pending δ)
    (rest : List (Item δ)) (s : Publisher δ) : Prop where
  waiting : Waiting sha ws gens g p s
  latest : s.remote.latest = tip gens
  objects : ∀ q ∈ g.parts, q.item sha ∈ rest ∨ s.remote.objects.lookup (q.place, sha.file q.file) = some q.file

theorem Uploading.onward {rest : List (Item δ)} (uploading : Uploading sha ws gens g p rest s) : Onward sha ws gens s :=
  .inl (.waiting uploading.waiting uploading.latest)

theorem upload_ok {item : Item δ} {t : Publisher δ} {u : Unit}
    (done : (match w.spool item.sha256 with
      | none => Except.error Error.missingSpool
      | some file => if sha.file file ≠ item.sha256 then Except.error Error.spoolChecksum
        else do
          let remote ← s.remote.putObject sha (item.place, item.sha256) file
          return ({ s with remote := remote }, ())) = Except.ok (t, u)) :
    ∃ file r, sha.file file = item.sha256 ∧ s.remote.putObject sha (item.place, item.sha256) file = .ok r ∧
      t = { s with remote := r } := by
  cases found : w.spool item.sha256 with
  | none =>
    rw [found] at done
    cases done
  | some file =>
    rw [found] at done
    dsimp only at done
    by_cases checks : sha.file file = item.sha256
    · rw [if_neg (not_not.2 checks)] at done
      cases put : s.remote.putObject sha (item.place, item.sha256) file with
      | error e =>
        rw [put] at done
        cases done
      | ok r =>
        rw [put] at done
        cases done
        exact ⟨file, r, checks, put, rfl⟩
    · rw [if_pos checks] at done
      cases done

theorem upload_holds (item : Item δ) (rest : List (Item δ)) :
    Holds (fun _ t => Onward sha ws gens t) (Uploading sha ws gens g p (item :: rest)) (upload sha w item)
      (fun _ => Uploading sha ws gens g p rest) (fun _ _ => True) := by
  refine .transaction (fun s t u uploading done => ?_) fun _ _ _ _ => trivial
  obtain ⟨file, r, checks, put, rfl⟩ := upload_ok done
  obtain ⟨grows, latest, there⟩ := putObject_grows put
  have next : Uploading sha ws gens g p rest { s with remote := r } := by
    refine ⟨uploading.waiting.grow grows, latest.trans uploading.latest, fun q part => ?_⟩
    rcases uploading.objects q part with remains | stored
    · rcases List.mem_cons.1 remains with same | later
      · right
        have place : q.place = item.place := congrArg Item.place same
        have digest : sha.file q.file = item.sha256 := congrArg Item.sha256 same
        rw [place, digest, there, sha.file_injective (checks.trans digest.symm)]
      · exact .inl later
    · exact .inr (grows.objects _ _ stored)
  exact ⟨next.onward, next⟩

/-- All that is pending is there, and the pointer is not moved yet. -/
def Ready (sha : Digests δ) (ws : List (World δ)) (gens : List (Generation δ)) (g : Generation δ) (p : Pending δ)
    (s : Publisher δ) : Prop :=
  Waiting sha ws gens g p s ∧ s.remote.latest = tip gens ∧ Stored sha s.remote g

/-- The pointer names what is pending. -/
def Sent (sha : Digests δ) (ws : List (World δ)) (gens : List (Generation δ)) (g : Generation δ) (p : Pending δ)
    (s : Publisher δ) : Prop :=
  Waiting sha ws gens g p s ∧ s.remote.latest = tip (gens ++ [g]) ∧ Stored sha s.remote g

theorem manifest_holds :
    Holds (fun _ t => Onward sha ws gens t) (Uploading sha ws gens g p [])
      (.transaction (fun s => do
        let remote ← s.remote.putManifest p.manifest
        return ({ s with remote := remote }, ())) : Tx δ Unit)
      (fun _ => Ready sha ws gens g p) (fun _ _ => True) := by
  refine .transaction (fun s t u uploading done => ?_) fun _ _ _ _ => trivial
  cases put : s.remote.putManifest p.manifest with
  | error e =>
    rw [put] at done
    cases done
  | ok r =>
    rw [put] at done
    cases done
    obtain ⟨grows, latest, there⟩ := putManifest_grows put
    rw [uploading.waiting.manifest] at there
    have waiting := uploading.waiting.grow grows
    refine ⟨.inl (.waiting waiting (latest.trans uploading.latest)), waiting, latest.trans uploading.latest,
      uploading.waiting.files, fun q part => ?_, there⟩
    exact grows.objects _ _ ((uploading.objects q part).resolve_left (by simp))

theorem pointer_holds :
    Holds (fun _ t => Onward sha ws gens t) (Ready sha ws gens g p)
      (.transaction (fun s => do
        let remote ← s.remote.publish ⟨p.id, p.revision⟩ p.base
        return ({ s with remote := remote }, ())) : Tx δ Unit)
      (fun _ => Sent sha ws gens g p) (fun _ _ => True) := by
  refine .transaction (fun s t u ready done => ?_) fun _ _ _ _ => trivial
  obtain ⟨waiting, latest, stored⟩ := ready
  rw [Remote.publish, waiting.base, if_pos latest] at done
  cases done
  have grows : s.remote.Grows { s.remote with latest := some ⟨p.id, p.revision⟩ } :=
    ⟨fun _ _ before => before, fun _ _ before => before⟩
  have sent : (some ⟨p.id, p.revision⟩ : Option Pointer) = tip (gens ++ [g]) := by
    rw [tip_concat, waiting.id, waiting.revision]
  exact ⟨.inr ⟨g, .sent (waiting.grow grows) sent (stored.grow grows)⟩, waiting.grow grows, sent, stored.grow grows⟩

/-- A sent generation stays so, whatever the publisher remembers of the pointer. -/
theorem Sent.etag (sent : Sent sha ws gens g p s) (etag : Option Pointer) : Sent sha ws gens g p { s with etag := etag } :=
  ⟨⟨sent.1.pending, sent.1.manifest, sent.1.id, sent.1.revision, sent.1.base, sent.1.files, sent.1.kept, sent.1.stored,
    sent.1.chained⟩, sent.2⟩

theorem Sent.phase (sent : Sent sha ws gens g p s) : Phase sha ws s (gens ++ [g]) := .sent sent.1 sent.2.1 sent.2.2

theorem Sent.finalize (sent : Sent sha ws gens g p s) :
    Idle sha ws (gens ++ [g]) { s with checkpoint := s.checkpoint.finalize p.id } := sent.1.finalize sent.2.1 sent.2.2

/-- The end of a generation that was sent. -/
theorem ends_holds (same : p.manifest = g.manifest) (f : Publisher δ → Option Pointer) :
    Holds (fun _ t => Phase sha ws t (gens ++ [g])) (Sent sha ws gens g p)
      (do .commit (fun s => { s with etag := f s }); finalize p; pure (some p.manifest) : Tx δ (Option (Manifest δ)))
      (Returned sha ws) (fun _ _ => True) := by
  have remembers : Holds (fun _ t => Phase sha ws t (gens ++ [g])) (Sent sha ws gens g p)
      (.commit (fun s => { s with etag := f s }) : Tx δ Unit) (fun _ => Sent sha ws gens g p) (fun _ _ => True) :=
    .commit (fun _ sent => (sent.etag _).phase) fun _ sent => sent.etag _
  have finalizes : Holds (fun _ t => Phase sha ws t (gens ++ [g])) (Sent sha ws gens g p) (finalize p : Tx δ Unit)
      (fun _ => Idle sha ws (gens ++ [g])) (fun _ _ => True) :=
    .commit (fun _ sent => .idle sent.finalize) fun _ sent => sent.finalize
  exact remembers.bind fun _ => finalizes.bind fun _ => .pure fun _ idle m' returned => by
    cases returned
    exact ⟨gens, g, same.symm, idle⟩

theorem submit_holds (same : p.manifest = g.manifest) (files : g.manifest.files = g.parts.map (Part.item sha)) :
    Holds (fun _ t => Onward sha ws gens t) (fun s => Waiting sha ws gens g p s ∧ s.remote.latest = tip gens)
      (submit sha w p) (Returned sha ws) (fun _ _ => True) := by
  have uploads : Holds (fun _ t => Onward sha ws gens t) (fun s => Waiting sha ws gens g p s ∧ s.remote.latest = tip gens)
      (Tx.each (upload sha w) p.manifest.files) (fun _ => Uploading sha ws gens g p []) (fun _ _ => True) := by
    refine (Holds.eachRest (fun item rest => upload_holds item rest) p.manifest.files).mono (fun _ _ h => h)
      (fun s waits => ⟨waits.1, waits.2, fun q part => .inl ?_⟩) (fun _ _ h => h) fun _ _ h => h
    rw [same, files]
    exact List.mem_map_of_mem part
  have ends : Holds (fun _ t => Onward sha ws gens t) (Sent sha ws gens g p) _ (Returned sha ws) (fun _ _ => True) :=
    (ends_holds same (fun _ => some ⟨p.id, p.revision⟩)).mono (fun _ _ phase => .inr ⟨g, phase⟩) (fun _ h => h)
      (fun _ _ h => h) fun _ _ h => h
  exact uploads.bind fun _ => manifest_holds.bind fun _ => pointer_holds.bind fun _ => ends

/-! ### A call -/

theorem staged_ok {c : Checkpoint δ} (done : staged sha w s = .ok (some (c, p))) :
    ∃ scanned captured, scanTables sha w s.checkpoint = .ok scanned ∧
      logs (s.checkpoint.stamp w) w.logBytes w.files w.source.attempts ⟨scanned.output, s.checkpoint.cursors, 0⟩ = .ok captured ∧
      p.id = w.uuid ∧ p.revision = (s.checkpoint.stamp w).revision ∧ p.manifest.generation = w.uuid ∧
      p.manifest.revision = (s.checkpoint.stamp w).revision ∧ p.manifest.parent = s.remote.latest.map (·.generation) ∧
      p.manifest.files = captured.output.map (Part.item sha) ∧ p.base = s.remote.latest ∧
      c = { s.checkpoint with cursors := captured.cursors, eventsSeq := scanned.eventsSeq
                              revision := some (s.checkpoint.stamp w).revision, changes := scanned.changes
                              pending := some p } := by
  by_cases version : w.source.version ≠ 6
  · rw [staged, if_pos version] at done
    cases done
  rw [staged, if_neg version] at done
  cases tables : scanTables sha w s.checkpoint with
  | error e =>
    simp only [tables] at done
    cases done
  | ok scanned =>
    simp only [tables] at done
    cases captures : logs (s.checkpoint.stamp w) w.logBytes w.files w.source.attempts ⟨scanned.output, s.checkpoint.cursors, 0⟩ with
    | error e =>
      simp only [Bind.bind, Except.bind, captures] at done
      cases done
    | ok captured =>
      simp only [Bind.bind, Except.bind, captures] at done
      by_cases none_ : captured.output = []
      · rw [if_pos none_] at done
        cases done
      rw [if_neg none_] at done
      by_cases moved : s.remote.latest ≠ s.etag
      · rw [if_pos moved] at done
        cases done
      rw [if_neg moved] at done
      by_cases lost : s.remote.latest.isSome ∧ s.checkpoint.remoteSeen = false
      · rw [if_pos lost] at done
        cases done
      rw [if_neg lost] at done
      obtain ⟨rfl, rfl⟩ := Prod.mk.inj (Option.some.inj (Except.ok.inj done))
      exact ⟨scanned, captured, rfl, captures, rfl, rfl, rfl, rfl, rfl, rfl, rfl, rfl⟩

/-- What a call at rest stages is pending. -/
theorem Idle.staged (idle : Idle sha ws gens s) (met : Meets ws w) {c : Checkpoint δ}
    (done : Publishing.staged sha w s = .ok (some (c, p))) :
    ∃ g : Generation δ, p.manifest = g.manifest ∧ g.manifest.files = g.parts.map (Part.item sha) ∧
      Waiting sha (w :: ws) gens g p { s with checkpoint := c } := by
  obtain ⟨scanned, captured, tables, captures, id, revision, generation, numbered, parent, files, base, rfl⟩ := staged_ok done
  rw [scanTables, idle.changes] at tables
  have kept := idle.kept.scan met rfl tables captures (m := p.manifest) generation numbered
  refine ⟨⟨p.manifest, captured.output⟩, rfl, files, rfl, rfl, id.trans generation.symm, revision.trans numbered.symm,
    base.trans idle.latest, files, kept, idle.stored, idle.chained.snoc ?_⟩
  rw [parent, idle.latest]

/-- A call from a phase. -/
theorem publish_holds (phase : Phase sha ws s gens) (met : Meets ws w) :
    Holds (fun _ t => Onward sha (w :: ws) gens t) (fun t => t = s) (publish sha w) (Returned sha (w :: ws)) (fun _ _ => True) := by
  refine Holds.read fun s' same => ?_
  subst same
  cases phase with
  | idle idle =>
    rw [idle.pending]
    dsimp only
    cases done : Publishing.staged sha w s' with
    | error e => exact .throw fun _ _ => trivial
    | ok result =>
      cases result with
      | none => exact .pure fun _ _ _ returned => by cases returned
      | some r =>
        obtain ⟨c, p⟩ := r
        obtain ⟨g, same, files, waiting⟩ := idle.staged met done
        have commits : Holds (fun _ t => Onward sha (w :: ws) gens t) (fun t => t = s')
            (.commit (fun s => { s with checkpoint := c }) : Tx δ Unit)
            (fun _ s => Waiting sha (w :: ws) gens g p s ∧ s.remote.latest = tip gens) (fun _ _ => True) :=
          .commit (fun _ same => by subst same; exact .inl (.waiting waiting idle.latest))
            fun _ same => by subst same; exact ⟨waiting, idle.latest⟩
        exact commits.bind fun _ => submit_holds same files
  | waiting waiting latest =>
    have later : Waiting sha (w :: ws) gens _ _ s' := { waiting with kept := waiting.kept.more w }
    rw [waiting.pending, latest]
    dsimp only
    rw [waiting.unsent, if_neg Bool.false_ne_true, waiting.base, if_neg (not_not.2 rfl)]
    exact (submit_holds waiting.manifest waiting.files).from_ ⟨later, latest⟩
  | @sent gens g p waiting latest stored =>
    have later : Sent sha (w :: ws) gens g p s' := ⟨{ waiting with kept := waiting.kept.more w }, latest, stored⟩
    have named : s'.remote.latest.any (fun q => q.generation = p.id) = true := by
      rw [latest, tip_concat, waiting.id]
      exact decide_eq_true rfl
    rw [waiting.pending]
    dsimp only
    rw [if_pos named]
    exact ((ends_holds waiting.manifest (fun s => s.remote.latest)).mono (fun _ _ phase => .inl phase) (fun _ h => h)
      (fun _ _ h => h) fun _ _ h => h).from_ later

/-- Every publisher of a run is in a phase. -/
theorem Run.phase (run : Run sha Meets ws s) : ∃ gens, Phase sha ws s gens := by
  induction run with
  | created => exact ⟨[], .created⟩
  | @published ws s t w run met there ih =>
    obtain ⟨gens, phase⟩ := ih
    rcases List.mem_cons.1 there with rfl | there
    · exact ⟨gens, phase.more w⟩
    · obtain ⟨chain, -⟩ := publish_holds phase met s rfl
      rcases chain_keeps chain (fun _ _ onward _ => onward) (.inl (phase.more w)) t there with here | ⟨g, here⟩
      · exact ⟨gens, here⟩
      · exact ⟨gens ++ [g], here⟩
  | reopened run done ih =>
    obtain ⟨gens, phase⟩ := ih
    obtain ⟨checkpoint, remote⟩ := opened_same done
    exact ⟨gens, phase.of_same checkpoint remote⟩

end Publishing
