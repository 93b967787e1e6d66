import CellHive.Ltx.SnapshotParts
import CellHive.SqlCapture.Fleet

/-!
# Streaming a snapshot

`emitSnapshotStream` of `internal/sqlcapture/capture.go` and `snapshotStream` of
`internal/cellstore/cellstore.go`: the database file is read run by run, every run becomes
one part of a paged snapshot, and every part is committed, alone or in batches.
-/

namespace CellHive.SqlCapture

open Go Concurrent Prog Ltx

/-- What is set on a capture before it starts. `async` and `batching` say which extensions
its committer has, `checkpointer` and `committed` which hooks are wired. -/
structure Config where
  async : Bool
  batching : Bool
  checkpointer : Bool
  committed : Bool
  autoCheckpointBytes : Int
  snapshotMaxBytes : Int
  snapshotPartBytes : Int
  snapshotBatchParts : Int
  deriving DecidableEq, Repr

def maxSnapshotBatchBytes : Nat := 2 ^ 26

def snapshotPagesPerPart (pageSize : UInt32) (partBytes : Int) : Res Nat :=
  let perPart := (partBytes - 44 - 24).tdiv (12 + pageSize.toNat)
  if perPart < 1 then
    .error (.errorf s!"cellstore: snapshot part budget {partBytes} too small for page size {pageSize}")
  else .ok perPart.toNat

/-- The variables of the part callback. `started` says that the start hook was called. -/
structure StreamState where
  label : UInt64
  batch : List Bytes
  batchBytes : Nat
  started : Bool

/-- What the stream of a snapshot is for: the capture, its settings, the mode, and the
hook `onBaselineStart`. -/
structure Snapshotter where
  cfg : Config
  capture : Capture
  mode : SnapshotMode
  onStart : Option (UInt64 → Prog ops (Res Unit))

namespace Snapshotter

variable (z : Snapshotter)

def batches : Bool := z.cfg.batching ∧ 1 < z.cfg.snapshotBatchParts

/-- The result of a step of the stream: an error, and the variables. -/
abbrev Streamed := Option Err × StreamState

def flush (st : StreamState) : Prog ops Streamed :=
  if st.batch = [] then return (none, st)
  else do
    match ← ask (.commit st.batch) with
    | .error e =>
      let parts := st.batch.length
      return (some (.wrap s!"sqlcapture: snapshot batch commit ({parts} parts)" e),
        { st with batch := [], batchBytes := 0 })
    | .ok _ => return (none, { st with batch := [], batchBytes := 0 })

/-- A batch that has no room for the part is committed first. -/
def makeRoom (segment : Bytes) (st : StreamState) : Prog ops Streamed :=
  if maxSnapshotBatchBytes < st.batchBytes + segment.length ∧ st.batch ≠ [] then flush st
  else return (none, st)

def sendPart (partIndex total : Nat) (segment : Bytes) (st : StreamState) : Prog ops Streamed :=
  if z.batches = false then do
    match ← ask (.commit [segment]) with
    | .error e =>
      return (some (.wrap s!"sqlcapture: snapshot commit part {partIndex + 1}/{total}" e), st)
    | .ok _ => return (none, st)
  else do
    match ← makeRoom segment st with
    | (some e, st) => return (some e, st)
    | (none, st) =>
      let st := { st with
        batch := st.batch ++ [segment], batchBytes := st.batchBytes + segment.length }
      if z.cfg.snapshotBatchParts ≤ st.batch.length then flush st else return (none, st)

/-- The label and the start hook, at the first part of an image that was just taken. -/
def beginPart (partIndex : Nat) (watermark : UInt64) (st : StreamState) : Prog ops Streamed :=
  if z.mode ≠ .pages ∧ partIndex = 0 then
    match z.onStart with
    | none => return (none, { st with label := watermark })
    | some hook => do
      match ← hook watermark with
      | .error e =>
        return (some (.wrap "sqlcapture: snapshot start marker" e),
          { st with label := watermark, started := true })
      | .ok _ => return (none, { st with label := watermark, started := true })
  else return (none, st)

def header (label : UInt64) : Header :=
  ⟨version, kindSnapshot, 0, z.capture.epoch, label, label, 0, 0⟩

/-- The pages of a part, numbered from `firstPage` on. -/
def walPages (firstPage : UInt32) (pages : List Bytes) : List WALPage :=
  pages.mapIdx fun i data => ⟨firstPage + UInt32.ofNat i, data⟩

def streamPart (total : Nat) (watermark : UInt64) (pageSize commit : UInt32) (partIndex : Nat)
    (firstPage : UInt32) (pages : List Bytes) (st : StreamState) : Prog ops Streamed :=
  let imageBytes := commit.toNat * pageSize.toNat
  if 0 < z.cfg.snapshotMaxBytes ∧ z.cfg.snapshotMaxBytes < imageBytes then
    let max := z.cfg.snapshotMaxBytes
    return (some (.errorf
      s!"cellstore: snapshot exceeds size budget: image {imageBytes} bytes, budget {max}"), st)
  else do
    match ← z.beginPart partIndex watermark st with
    | (some e, st) => return (some e, st)
    | (none, st) =>
      match encodeSnapshotPart z.capture.compress (z.header st.label) pageSize commit
          (walPages firstPage pages) partIndex total with
      | .error e =>
        return (some (.wrap s!"sqlcapture: encode snapshot part {partIndex + 1}/{total}" e), st)
      | .ok segment => z.sendPart partIndex total segment st

def pagesOf (pageSize : UInt32) (count : Nat) (run : Bytes) : List Bytes :=
  (List.range count).map fun i => (run.drop (i * pageSize.toNat)).take pageSize.toNat

def streamParts (watermark : UInt64) (pageSize commit : UInt32) (perPart total : Nat) :
    Nat → Nat → UInt32 → StreamState → Prog ops Streamed
  | 0, _, _, st => return (none, st)
  | left + 1, part, firstPage, st => do
    match ← ask .cancelled with
    | some e => return (some e, st)
    | none =>
      let count := min perPart (commit.toNat - part * perPart)
      let size := pageSize.toNat
      match ← ask (.readRun (part * perPart * size) (count * size)) with
      | .error e =>
        let last := firstPage + UInt32.ofNat count - 1
        return (some (.wrap s!"cellstore: snapshot read pages {firstPage}..{last}" e), st)
      | .ok run =>
        match ← z.streamPart total watermark pageSize commit part firstPage
            (pagesOf pageSize count run) st with
        | (some e, st) =>
          return (some (.wrap s!"cellstore: snapshot part {part + 1}/{total}" e), st)
        | (none, st) =>
          streamParts watermark pageSize commit perPart total left (part + 1)
            (firstPage + UInt32.ofNat count) st

def imagePageSize (header : Bytes) : UInt32 :=
  let pageSize := (uint16 (header.drop 16)).toUInt32
  if pageSize = 1 then 65536 else pageSize

/-- `snapshotStream`; a success comes with the watermark. -/
def snapshotStream (partBytes : Int) (st : StreamState) : Prog ops (Except Err UInt64 × StreamState) := do
  match ← ask .openImage with
  | .error e => return (.error e, st)
  | .ok (watermark, size) =>
    if size < 100 then return (.error (.errorf "cellstore: snapshot too small"), st)
    else
      match ← ask .readHeader with
      | .error e => return (.error (.wrap "cellstore: snapshot header" e), st)
      | .ok bytes =>
        let pageSize := imagePageSize bytes
        let pages := size / pageSize.toNat
        if pageSize = 0 ∨ size % pageSize.toNat ≠ 0 then
          return (.error (.errorf s!"cellstore: invalid page size {pageSize} for {size} bytes"), st)
        else if 2 ^ 32 - 1 < pages then
          return (.error (.errorf
            s!"cellstore: snapshot has {pages} pages, want at most 4294967295"), st)
        else if pages = 0 then return (.error (.errorf "cellstore: snapshot has no pages"), st)
        else
          match snapshotPagesPerPart pageSize partBytes with
          | .error e => return (.error e, st)
          | .ok perPart =>
            let total := (pages + perPart - 1) / perPart
            match ← z.streamParts watermark pageSize (UInt32.ofNat pages) perPart total total 0 1
                st with
            | (some e, st) => return (.error e, st)
            | (none, st) => return (.ok watermark, st)

/-- The check of the database file against the budget, before anything is read. -/
def overBudget : Prog ops (Option Err) :=
  if 0 < z.cfg.snapshotMaxBytes then do
    match ← ask .statDatabase with
    | none => return none
    | some size =>
      let max := z.cfg.snapshotMaxBytes
      if max < size then
        return some (.errorf
          s!"cellstore: snapshot exceeds size budget: database {size} bytes, budget {max}")
      else return none
  else return none

/-- The hook of a snapshot whose image the caller has prepared. -/
def beginPages (st : StreamState) : Prog ops Streamed :=
  if z.mode = .pages then
    match z.onStart with
    | none => return (none, st)
    | some hook => do
      match ← hook st.label with
      | .error e =>
        return (some (.wrap "sqlcapture: baseline start marker" e), { st with started := true })
      | .ok _ => return (none, { st with started := true })
  else return (none, st)

def streamImage (st : StreamState) : Prog ops Streamed := do
  let partBytes := if z.cfg.snapshotPartBytes ≤ 0 then defaultSnapshotPartBytes
    else z.cfg.snapshotPartBytes
  match ← ask (.prepareImage z.mode) with
  | .error e => return (some e, st)
  | .ok _ =>
    match ← z.snapshotStream partBytes st with
    | (.error e, st) => return (some e, st)
    | (.ok watermark, st) =>
      return (none, if z.mode = .pages then st else { st with label := watermark })

/-- `emitSnapshotStream`, up to the point where every part is committed. -/
def run (watermark : UInt64) : Prog ops Streamed := do
  let st : StreamState := ⟨watermark, [], 0, false⟩
  match ← z.overBudget with
  | some e => return (some e, st)
  | none =>
    match ← z.beginPages st with
    | (some e, st) => return (some e, st)
    | (none, st) =>
      match ← z.streamImage st with
      | (some e, st) => return (some e, st)
      | (none, st) => if z.batches then flush st else return (none, st)

end Snapshotter

end CellHive.SqlCapture
