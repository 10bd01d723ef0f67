import Mathlib.Data.List.Sort
import Nanofil.Lib.Observations

/-! `analytics.py`: the source that is published, one snapshot of the experiment's database and the
captured logs beside it, and the records that observations of it are kept in. -/
namespace Publishing

inductive TableName
  | campaigns | candidates | derivations | edges | roles | attempts | activities | tests | events
  | buildTimes | replans | classifications
deriving DecidableEq, Repr

/-- `TABLES`. -/
def tableNames : List TableName :=
  [.campaigns, .candidates, .derivations, .edges, .roles, .attempts, .activities, .tests, .events, .buildTimes,
    .replans, .classifications]

/-- A value of a column; a real is what its text says. -/
inductive Cell
  | null
  | int (n : Int)
  | real (text : String)
  | text (s : String)
  | blob (bytes : List Nat)
deriving DecidableEq, Repr

abbrev Row := List Cell

/-- `_key`: the values of a row's primary key. -/
abbrev Key := List Cell

def keyOf (primary : List Nat) (row : Row) : Key := primary.map (fun i => row.getD i .null)

/-- A table with its columns' names and types, its primary key's columns and its rows. -/
structure Table where
  columns : List (String × String)
  primary : List Nat
  rows : List Row
  distinct : (rows.map (keyOf primary)).Nodup

def Table.key (t : Table) (row : Row) : Key := keyOf t.primary row

/-- The row of a key. -/
def Table.row? (t : Table) (k : Key) : Option Row := t.rows.find? (fun row => t.key row = k)

/-- The value of a row's first key column, an `INTEGER PRIMARY KEY` in events. -/
def Table.seq (t : Table) (row : Row) : Int :=
  match (t.key row).head? with
  | some (.int n) => n
  | _ => 0

structure AttemptRow where
  id : String
  campaign : String
  state : String
  offset : Nat
deriving DecidableEq, Repr

def AttemptRow.live (a : AttemptRow) : Bool := a.state = "running" || a.state = "intended"

/-- One snapshot of `experiment.sqlite`. -/
structure Snapshot where
  version : Int
  table : TableName → Table
  attempts : List AttemptRow
  distinct : (attempts.map (·.id)).Nodup

inductive Stream
  | stdout | stderr
deriving DecidableEq, Repr

/-! ### Records -/

/-- A row of a table's Parquet files. -/
structure Record where
  cells : Row
  revision : Nat
  observedAt : Int
  sourceKey : Key
  deleted : Bool
deriving DecidableEq, Repr

/-- A row of the logs' Parquet files. -/
structure LogRecord where
  attempt : String
  campaign : String
  stream : Stream
  start : Nat
  stop : Nat
  raw : List Nat
  fragment : Bool
  revision : Nat
  observedAt : Int
deriving DecidableEq, Repr

/-- What a Parquet file holds. -/
inductive File
  | table (records : List Record)
  | logs (records : List LogRecord)
deriving DecidableEq, Repr

def File.records : File → List Record
  | .table rs => rs
  | .logs _ => []

def File.logRecords : File → List LogRecord
  | .table _ => []
  | .logs rs => rs

def File.count : File → Nat
  | .table rs => rs.length
  | .logs rs => rs.length

/-- The partition that a file is put in. -/
inductive Place
  | table (t : TableName)
  | logs (attempt : String) (stream : Stream)
deriving DecidableEq, Repr

def Place.isLogs : Place → Bool
  | .table _ => false
  | .logs _ _ => true

/-- A file that is staged, with its place. -/
structure Part where
  place : Place
  file : File
deriving DecidableEq, Repr

/-- SHA-256, of the JSON text of a row and of a file, which collide for none that are met. -/
structure Digests (δ : Type) where
  row : Row → δ
  row_injective : Function.Injective row
  /-- How long a row's text is. -/
  size : Row → Nat
  file : File → δ
  file_injective : Function.Injective file

/-- The revision of a run, and when it observed the source. -/
structure Stamp where
  revision : Nat
  observedAt : Int

/-! `Publisher._scan_table`: the rows of a table that differ from the index, and those that are gone. -/

open Observations

section
variable {δ : Type} [DecidableEq δ]

abbrev Index (δ : Type) := AList (fun _ : TableName × Key => δ)

abbrev Changes (δ : Type) := Patch (TableName × Key) δ

def BATCH : Nat := 4096

def PART_BYTES : Nat := 8 * 1024 * 1024

def Stamp.record (stamp : Stamp) (deleted : Bool) (r : Key × Row) : Record :=
  ⟨r.2, stamp.revision, stamp.observedAt, r.1, deleted⟩

/-- `_write`: one file of the records, none for no record. -/
def write (t : TableName) (stamp : Stamp) (deleted : Bool) (records : List (Key × Row)) : List Part :=
  if records = [] then [] else [⟨.table t, .table (records.map (stamp.record deleted))⟩]

/-- The files that are written, and the batch of the next. -/
structure Batch where
  records : List (Key × Row)
  bytes : Nat
  output : List Part

def Batch.add (t : TableName) (stamp : Stamp) (b : Batch) (r : Key × Row) (size : Nat) : Batch :=
  if b.records ≠ [] ∧ (BATCH ≤ b.records.length ∨ PART_BYTES < b.bytes + size) then
    ⟨[r], size, b.output ++ write t stamp false b.records⟩
  else ⟨b.records ++ [r], b.bytes + size, b.output⟩

structure Scan (δ : Type) where
  batch : Batch
  changes : Changes δ
  maxseq : Int

/-- One row of the cursor: published when its digest is not the index's. -/
def Scan.row (sha : Digests δ) (t : TableName) (stamp : Stamp) (table : Table) (index : Index δ) (s : Scan δ) (row : Row) :
    Scan δ :=
  let k := table.key row
  let maxseq := if t = .events then max s.maxseq (table.seq row) else s.maxseq
  if index.lookup (t, k) = some (sha.row row) then { s with maxseq := maxseq }
  else ⟨s.batch.add t stamp (k, row) (sha.size row), s.changes.insert (t, k) (some (sha.row row)), maxseq⟩

/-- The null columns of a row that is gone, with its key. -/
def tombstone (table : Table) (k : Key) : Row :=
  (table.primary.zip k).foldl (fun row c => row.set c.1 c.2) (List.replicate table.columns.length .null)

/-- Keys of the index that the scan did not meet. -/
def gone (t : TableName) (table : Table) (index : Index δ) : List Key :=
  (index.keys.filter (fun x => x.1 = t && !((table.rows.map table.key).contains x.2))).map Prod.snd

def Scan.gone (t : TableName) (stamp : Stamp) (table : Table) (s : Scan δ) (k : Key) : Scan δ :=
  let records := s.batch.records ++ [(k, tombstone table k)]
  let changes := s.changes.insert (t, k) none
  if BATCH ≤ records.length then ⟨⟨[], 0, s.batch.output ++ write t stamp true records⟩, changes, s.maxseq⟩
  else ⟨⟨records, 0, s.batch.output⟩, changes, s.maxseq⟩

/-- What the scans of a run have come to. -/
structure Scanned (δ : Type) where
  output : List Part
  changes : Changes δ
  eventsSeq : Option Int

inductive Error
  | version (found : Int)
  | keyless (t : TableName)
  | rewound
  | shrank (attempt : String) (stream : Stream)
  | pointerChanged
  | missingCheckpoint
  | missingSpool
  | spoolChecksum
  | collision
  | missingPointer
  | unexpectedParent
deriving DecidableEq, Repr

/-- `coalesce(max(seq),0)`. -/
def Table.watermark (table : Table) : Int := (table.rows.map table.seq).foldl max 0

def scanEvents (sha : Digests δ) (stamp : Stamp) (table : Table) (index : Index δ) (x : Scanned δ) :
    Except Error (Scanned δ) :=
  let last := x.eventsSeq.getD 0
  if table.watermark < last then .error .rewound
  else
    let rows := (table.rows.filter (fun row => last < table.seq row)).insertionSort (fun r r' => table.seq r ≤ table.seq r')
    let s := rows.foldl (Scan.row sha .events stamp table index) ⟨⟨[], 0, x.output⟩, x.changes, 0⟩
    .ok ⟨s.batch.output ++ write .events stamp false s.batch.records, s.changes,
      if s.maxseq = 0 then x.eventsSeq else some s.maxseq⟩

def scanRows (sha : Digests δ) (t : TableName) (stamp : Stamp) (table : Table) (index : Index δ) (x : Scanned δ) : Scanned δ :=
  let s := table.rows.foldl (Scan.row sha t stamp table index) ⟨⟨[], 0, x.output⟩, x.changes, 0⟩
  let live := s.batch.output ++ write t stamp false s.batch.records
  let d := (gone t table index).foldl (Scan.gone t stamp table) ⟨⟨[], 0, live⟩, s.changes, 0⟩
  ⟨d.batch.output ++ write t stamp true d.batch.records, d.changes, x.eventsSeq⟩

/-- `_scan_table`. -/
def scanTable (sha : Digests δ) (stamp : Stamp) (source : Snapshot) (index : Index δ) (x : Scanned δ) (t : TableName) :
    Except Error (Scanned δ) :=
  let table := source.table t
  if table.primary = [] then .error (.keyless t)
  else if t = .events then scanEvents sha stamp table index x
  else .ok (scanRows sha t stamp table index x)

end

/-! `Publisher._logs`: the captured logs, from where they were left, up to a budget of bytes. -/

def FRAGMENT : Nat := 1024 * 1024

def newline : Nat := 10

/-- `readline`: at most some bytes, up to a line's end. -/
def readline : List Nat → Nat → List Nat
  | [], _ => []
  | _, 0 => []
  | b :: bs, n + 1 => if b = newline then [b] else b :: readline bs n

def complete (raw : List Nat) : Bool := raw.getLast? = some newline

/-- Where the line that goes on at an offset ends, if it does so before the limit. Every probe reads
a byte at least, so that a fuel of the bytes that are left is enough. -/
def lineEnd (file : List Nat) (limit : Nat) : Nat → Nat → Option Nat
  | 0, _ => none
  | n + 1, scan =>
    if scan < limit then
      let probe := readline (file.drop scan) (min FRAGMENT (limit - scan))
      if probe = [] then none
      else if complete probe then some (scan + probe.length)
      else lineEnd file limit n (scan + probe.length)
    else none

/-- How far a file is read; `lineEnd` is `committed_line_end`. -/
structure Reading where
  pos : Nat
  processed : Nat
  lineEnd : Nat
  records : List LogRecord
  bytes : Nat
  output : List Part

/-- `_logpart`. -/
def logPart (a : AttemptRow) (stream : Stream) (records : List LogRecord) : List Part :=
  [⟨.logs a.id stream, .logs records⟩]

/-- The end of the line up to which a live file may be split, with what was just read. -/
def Reading.committed (r : Reading) (a : AttemptRow) (file : List Nat) (limit : Nat) (raw : List Nat) : Option Nat :=
  let scan := r.pos + raw.length
  if a.live && !complete raw && r.lineEnd < scan then Publishing.lineEnd file limit (limit - scan) scan else some r.lineEnd

def Reading.add (r : Reading) (a : AttemptRow) (stream : Stream) (lineEnd : Nat) (x : LogRecord) : Reading :=
  let full := r.records ≠ [] ∧ (BATCH ≤ r.records.length ∨ PART_BYTES < r.bytes + x.raw.length)
  { pos := x.stop, processed := r.processed + x.raw.length, lineEnd := lineEnd
    records := if full then [x] else r.records ++ [x]
    bytes := if full then x.raw.length else r.bytes + x.raw.length
    output := if full then r.output ++ logPart a stream r.records else r.output }

/-- The loop over a file. Each record has a byte at least, so that it ends before its fuel does. -/
def Reading.loop (stamp : Stamp) (a : AttemptRow) (stream : Stream) (file : List Nat) (limit budget : Nat) :
    Nat → Reading → Reading
  | 0, r => r
  | n + 1, r =>
    if r.pos < limit ∧ r.processed < budget then
      let continuation := 0 < r.pos && !complete (file.take r.pos)
      let raw := readline (file.drop r.pos) (min FRAGMENT (min (limit - r.pos) (budget - r.processed)))
      if raw = [] then r
      else match r.committed a file limit raw with
        | none => r
        | some lineEnd =>
          let record : LogRecord := ⟨a.id, a.campaign, stream, r.pos, r.pos + raw.length, raw,
            continuation || !complete raw, stamp.revision, stamp.observedAt⟩
          Reading.loop stamp a stream file limit budget n (r.add a stream lineEnd record)
    else r

abbrev Cursors := AList (fun _ : String × Stream => Nat)

/-- What a run has captured. -/
structure Captured where
  output : List Part
  cursors : Cursors
  processed : Nat

/-- How much of a file is there to be captured: of a live attempt's stderr, what was indexed. -/
def limitOf (a : AttemptRow) (stream : Stream) (file : List Nat) : Nat :=
  if stream = .stderr ∧ a.live then min file.length a.offset else file.length

def capture (stamp : Stamp) (budget : Nat) (a : AttemptRow) (stream : Stream) (file : List Nat) (x : Captured) : Captured :=
  let pos := (x.cursors.lookup (a.id, stream)).getD 0
  let limit := limitOf a stream file
  let r := Reading.loop stamp a stream file limit budget (limit - pos) ⟨pos, x.processed, 0, [], 0, x.output⟩
  ⟨if r.records = [] then r.output else r.output ++ logPart a stream r.records, x.cursors.insert (a.id, stream) r.pos,
    r.processed⟩

/-- The streams in turn, until the budget is spent. -/
def captureAll (stamp : Stamp) (budget : Nat) (files : String → Stream → Option (List Nat)) :
    List (AttemptRow × Stream) → Captured → Except Error Captured
  | [], x => .ok x
  | (a, stream) :: rest, x =>
    match files a.id stream with
    | none => captureAll stamp budget files rest x
    | some file =>
      if file.length < (x.cursors.lookup (a.id, stream)).getD 0 then .error (.shrank a.id stream)
      else
        let y := capture stamp budget a stream file x
        if budget ≤ y.processed then .ok y else captureAll stamp budget files rest y

/-- `_logs`. -/
def logs (stamp : Stamp) (budget : Nat) (files : String → Stream → Option (List Nat)) (attempts : List AttemptRow)
    (x : Captured) : Except Error Captured :=
  captureAll stamp budget files
    ((attempts.insertionSort (fun a b => a.id ≤ b.id)).flatMap (fun a => [(a, Stream.stdout), (a, Stream.stderr)])) x

end Publishing
