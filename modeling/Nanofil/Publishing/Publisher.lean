import Nanofil.Publishing.Scans
import Nanofil.Lib.Commits

/-! `Publisher`: its checkpoint, the objects of the destination, and a generation from its scan to its
end. The destination has one publisher, that of the checkpoint. -/
namespace Publishing
open Commits Observations

variable {δ : Type} [DecidableEq δ]

/-! ### The destination -/

/-- A file that a manifest lists. -/
structure Item (δ : Type) where
  place : Place
  sha256 : δ
  rows : Nat
deriving DecidableEq

def Part.item (sha : Digests δ) (p : Part) : Item δ := ⟨p.place, sha.file p.file, p.file.count⟩

structure Manifest (δ : Type) where
  generation : Nat
  revision : Nat
  observedAt : Int
  sourceVersion : Int
  eventsSeq : Int
  tables : List (TableName × List (String × String) × List Nat)
  logBytes : Nat
  parent : Option Nat
  files : List (Item δ)
deriving DecidableEq

/-- `latest.json`; its etag says what is in it. -/
structure Pointer where
  generation : Nat
  revision : Nat
deriving DecidableEq, Repr

/-- The key of an object, from its place and its digest. -/
abbrev ObjectKey (δ : Type) := Place × δ

structure Remote (δ : Type) where
  latest : Option Pointer
  manifests : AList (fun _ : Nat => Manifest δ)
  objects : AList (fun _ : ObjectKey δ => File)

/-- `put_immutable` of a file. -/
def Remote.putObject (sha : Digests δ) (r : Remote δ) (key : ObjectKey δ) (file : File) : Except Error (Remote δ) :=
  match r.objects.lookup key with
  | none => .ok { r with objects := r.objects.insert key file }
  | some there => if sha.file there = sha.file file then .ok r else .error .collision

/-- `put_immutable` of a manifest. -/
def Remote.putManifest (r : Remote δ) (m : Manifest δ) : Except Error (Remote δ) :=
  match r.manifests.lookup m.generation with
  | none => .ok { r with manifests := r.manifests.insert m.generation m }
  | some there => if there = m then .ok r else .error .collision

/-- `publish` of a backend: the pointer, when it is still the one expected. -/
def Remote.publish (r : Remote δ) (pointer : Pointer) (expected : Option Pointer) : Except Error (Remote δ) :=
  if r.latest = expected then .ok { r with latest := some pointer } else .error .pointerChanged

/-! ### The checkpoint -/

structure Pending (δ : Type) where
  id : Nat
  revision : Nat
  manifest : Manifest δ
  base : Option Pointer

/-- `analytics.sqlite`. -/
structure Checkpoint (δ : Type) where
  index : Index δ
  cursors : Cursors
  eventsSeq : Option Int
  revision : Option Nat
  generation : Option Nat
  remoteSeen : Bool
  changes : Changes δ
  pending : Option (Pending δ)

/-- A publisher with its checkpoint, which says what is pending, and the destination. -/
structure Publisher (δ : Type) where
  checkpoint : Checkpoint δ
  remote : Remote δ
  etag : Option Pointer

/-- What a run of `publish` meets: the source, its budget, its uuid and clock, and the files in the spool. -/
structure World (δ : Type) where
  source : Snapshot
  files : String → Stream → Option (List Nat)
  logBytes : Nat
  uuid : Nat
  observedAt : Int
  spool : δ → Option File

abbrev Tx (δ : Type) := Commits.Tx (Publisher δ) Error

/-- `__init__`, on the checkpoint and the destination that there are. -/
def opened (c : Checkpoint δ) (r : Remote δ) : Except Error (Publisher δ) :=
  let remote := r.latest.map (·.generation)
  if c.generation.isSome ∧ remote = none then .error .missingPointer
  else if remote.isSome ∧ c.generation.isSome ∧ c.generation ≠ remote ∧ c.pending.map (·.id) ≠ remote then
    .error .unexpectedParent
  else if remote.isSome ∧ c.pending.isNone ∧ c.remoteSeen = false then .error .missingCheckpoint
  else .ok ⟨c, r, r.latest⟩

/-! ### A generation -/

def Checkpoint.stamp (c : Checkpoint δ) (w : World δ) : Stamp := ⟨c.revision.getD 0 + 1, w.observedAt⟩

def scanTables (sha : Digests δ) (w : World δ) (c : Checkpoint δ) : Except Error (Scanned δ) :=
  tableNames.foldlM (scanTable sha (c.stamp w) w.source c.index) ⟨[], c.changes, c.eventsSeq⟩

/-- The run up to its commit: what is pending of it, none when there is nothing to publish. -/
def staged (sha : Digests δ) (w : World δ) (s : Publisher δ) : Except Error (Option (Checkpoint δ × Pending δ)) := do
  if w.source.version ≠ 6 then .error (.version w.source.version)
  else do
    let c := s.checkpoint
    let scanned ← scanTables sha w c
    let captured ← logs (c.stamp w) w.logBytes w.files w.source.attempts ⟨scanned.output, c.cursors, 0⟩
    if captured.output = [] then .ok none
    else if s.remote.latest ≠ s.etag then .error .pointerChanged
    else if s.remote.latest.isSome ∧ c.remoteSeen = false then .error .missingCheckpoint
    else
      let revision := (c.stamp w).revision
      let manifest : Manifest δ :=
        { generation := w.uuid, revision := revision, observedAt := w.observedAt, sourceVersion := w.source.version
          eventsSeq := (w.source.table .events).watermark
          tables := tableNames.map (fun t => (t, (w.source.table t).columns, (w.source.table t).primary))
          logBytes := captured.processed, parent := s.remote.latest.map (·.generation)
          files := captured.output.map (Part.item sha) }
      let pending : Pending δ := ⟨w.uuid, revision, manifest, s.remote.latest⟩
      .ok (some ({ c with cursors := captured.cursors, eventsSeq := scanned.eventsSeq, revision := some revision
                          changes := scanned.changes, pending := some pending }, pending))

/-- `_finalize`. -/
def Checkpoint.finalize (c : Checkpoint δ) (id : Nat) : Checkpoint δ :=
  { c with index := patched c.index c.changes, changes := ∅, pending := none, remoteSeen := true, generation := some id }

/-- One file of the spool to the destination. -/
def upload (sha : Digests δ) (w : World δ) (item : Item δ) : Tx δ Unit :=
  .transaction (fun s =>
    match w.spool item.sha256 with
    | none => .error .missingSpool
    | some file =>
      if sha.file file ≠ item.sha256 then .error .spoolChecksum
      else do
        let remote ← s.remote.putObject sha (item.place, item.sha256) file
        return ({ s with remote := remote }, ()))

def finalize (p : Pending δ) : Tx δ Unit :=
  .commit (fun s => { s with checkpoint := s.checkpoint.finalize p.id })

/-- From what is pending: the files, the manifest, the pointer, and then the checkpoint. -/
def submit (sha : Digests δ) (w : World δ) (p : Pending δ) : Tx δ (Option (Manifest δ)) := do
  .each (upload sha w) p.manifest.files
  .transaction (fun s => do
    let remote ← s.remote.putManifest p.manifest
    return ({ s with remote := remote }, ()))
  .transaction (fun s => do
    let remote ← s.remote.publish ⟨p.id, p.revision⟩ p.base
    return ({ s with remote := remote }, ()))
  -- the answer to the conditional write may be lost
  .commit (fun s => { s with etag := some ⟨p.id, p.revision⟩ })
  finalize p
  pure (some p.manifest)

/-- `publish`: the generation that is pending, or else one of what has changed. -/
def publish (sha : Digests δ) (w : World δ) : Tx δ (Option (Manifest δ)) := do
  let s ← .get
  match s.checkpoint.pending with
  | some p =>
    if s.remote.latest.any (·.generation = p.id) then do
      .commit (fun s => { s with etag := s.remote.latest })
      finalize p
      pure (some p.manifest)
    else if s.remote.latest ≠ p.base then .throw .pointerChanged
    else submit sha w p
  | none =>
    match staged sha w s with
    | .error e => .throw e
    | .ok none => pure none
    | .ok (some (c, p)) => do
      .commit (fun s => { s with checkpoint := c })
      submit sha w p

/-! ### What is read -/

/-- The loop of `load_chain`, from a generation to the first; it meets each manifest once. -/
def Remote.chainFrom (r : Remote δ) : Nat → List Nat → Option Nat → Option (List (Manifest δ))
  | _, _, none => some []
  | 0, _, some _ => none
  | n + 1, seen, some generation =>
    if generation ∈ seen then none
    else match r.manifests.lookup generation with
      | none => none
      | some m =>
        if m.generation ≠ generation then none
        else (r.chainFrom n (generation :: seen) m.parent).map (· ++ [m])

/-- `load_chain`: the committed manifests, oldest first. -/
def Remote.chain (r : Remote δ) : Option (List (Manifest δ)) :=
  r.latest.bind (fun p => r.chainFrom (r.manifests.keys.length + 1) [] (some p.generation))

def Remote.file (r : Remote δ) (item : Item δ) : Option File := r.objects.lookup (item.place, item.sha256)

/-- `temporal_<table>`. -/
def Remote.records (r : Remote δ) (chain : List (Manifest δ)) (t : TableName) : List Record :=
  chain.flatMap (fun m => (m.files.filter (·.place = .table t)).flatMap (fun item => ((r.file item).map (·.records)).getD []))

def Record.observation (r : Record) : Observation Key Row := ⟨r.sourceKey, r.revision, if r.deleted then none else some r.cells⟩

/-- `<table>`: the row of a key in its newest observation, if that is not a tombstone. -/
def Remote.latestRow (r : Remote δ) (chain : List (Manifest δ)) (t : TableName) (k : Key) : Option Row :=
  current ((r.records chain t).map Record.observation) k

/-- `build_logs` of an attempt's stream. -/
def Remote.logRecords (r : Remote δ) (chain : List (Manifest δ)) (attempt : String) (stream : Stream) : List LogRecord :=
  (chain.flatMap (fun m =>
    (m.files.filter (·.place.isLogs)).flatMap (fun item => ((r.file item).map (·.logRecords)).getD []))).filter
      (fun x => x.attempt = attempt && x.stream = stream)

/-! ### Runs -/

def Checkpoint.empty : Checkpoint δ := ⟨∅, ∅, none, none, none, false, ∅, none⟩

def Remote.empty : Remote δ := ⟨none, ∅, ∅⟩

def Publisher.created : Publisher δ := ⟨.empty, .empty, none⟩

/-- The publishers of a run, and the worlds that their calls met, the last first: every call ends or
fails after any of its commits, and a new publisher is opened at any time. -/
inductive Run (sha : Digests δ) (Meets : List (World δ) → World δ → Prop) : List (World δ) → Publisher δ → Prop
  | created : Run sha Meets [] .created
  | published {ws : List (World δ)} {s t : Publisher δ} {w : World δ} : Run sha Meets ws s → Meets ws w →
      t ∈ s :: (publish sha w s).1 → Run sha Meets (w :: ws) t
  | reopened {ws : List (World δ)} {s t : Publisher δ} : Run sha Meets ws s → opened s.checkpoint s.remote = .ok t →
      Run sha Meets ws t

end Publishing
