import CellHive.Restore.Merge
import CellHive.SqlCapture.Poll
import CellHive.Sqlite.Database

/-!
# The output gate of a Durable Object file

`syncFile` of `internal/dosupervisor/dosupervisor.go`, with `snapshot`, `delta`,
`flushPending`, `pollStableWAL` and `seedCaptureWatermark`, and `ReadDBPages` of
`internal/cellstore/cellstore.go`. A call first commits what an earlier call had to retain,
takes a snapshot of the main file if there is none yet, and then reads the log: new
transactions become a delta, a log that was restarted becomes another snapshot. The process
that owns the file works on during the call; a call's description says which of its steps
fall where.
-/

namespace CellHive.DoSupervisor

open Go Ltx Wal Sqlite

/-! ## Reading the main file -/

/-- `ReadDBPages`: the page size, the page count and the pages. -/
def readDBPages (data : Bytes) : Res (UInt32 × UInt32 × (UInt32 → Option Bytes)) :=
  if data.length < 100 then .error (.errorf "cellstore: snapshot too small")
  else
    let pageSize := headerPageSize data
    if pageSize = 0 ∨ data.length % pageSize.toNat ≠ 0 then
      .error (.errorf s!"cellstore: invalid page size {pageSize} for {data.length} bytes")
    else
      let commit := UInt32.ofNat (data.length / pageSize.toNat)
      .ok (pageSize, commit, fun pgno =>
        if 1 ≤ pgno ∧ pgno ≤ commit then
          some (slice data ((pgno.toNat - 1) * pageSize.toNat) (pgno.toNat * pageSize.toNat))
        else none)

def sortedPages (pages : UInt32 → Option Bytes) (commit : UInt32) :
    List UInt32 → Res (List WALPage)
  | [] => .ok []
  | pgno :: rest =>
    match pages pgno with
    | none => .error (.errorf s!"dosupervisor: snapshot missing page {pgno} of {commit}")
    | some data => do
      let sorted ← sortedPages pages commit rest
      .ok (⟨pgno, data⟩ :: sorted)

/-! ## State -/

/-- `fileState`, without its path, scope and lock. -/
structure FileState where
  cursor : Cursor
  seq : UInt64
  baseline : Bool
  checkpointPending : Bool
  pending : List Bytes
  pendingEnd : UInt64
  pendingSnapshot : Bool

def FileState.new : FileState := ⟨.empty, 0, false, false, [], 0, false⟩

/-- `Supervisor` and the file's path and scope: the epoch, the switch of the page-map writer,
and whether it can read back what is committed. -/
structure Config where
  path : String
  scope : String
  epoch : UInt64
  compress : Bool
  readsBack : Bool

inductive Outcome where
  | committed
  | failed (applied : Bool) (e : Err)

/-- The file, what the supervisor knows of it, and the segments committed for its scope. -/
structure World (pageSize : UInt32) where
  db : Db pageSize
  fs : FileState
  committed : List Bytes

/-- What surrounds one call of `syncFile`: what its steps return, and the steps of the
process that owns the file until the main file is read, until the log is polled, and until
the main file is read again for a checkpoint. -/
structure Call (pageSize : UInt32) where
  claimFails : Option Err
  retried : Nat → Outcome
  restoreFails : Option Err
  beforeRead : List (Step pageSize)
  readFails : Option Err
  baselined : Nat → Outcome
  beforePoll : List (Step pageSize)
  logEnd : (g : Generation pageSize) → LogEnd g
  cancelled : Nat → Bool
  beforeReread : List (Step pageSize)
  rereadFails : Option Err
  captured : Nat → Outcome

/-- The file a poll finds. -/
def observe {pageSize : UInt32} (db : Db pageSize) (logEnd : (g : Generation pageSize) → LogEnd g) :
    Observed :=
  match db.log with
  | none => .missing
  | some (g, commits) => (Log.mk (logEnd g) commits).observed

/-! ## Committing -/

/-- A segment is stored under a name its header gives, so the same segment is stored once. -/
def store (committed : List Bytes) (segment : Bytes) : List Bytes :=
  if segment ∈ committed then committed else committed ++ [segment]

/-- The loop of `flushPending` from the `k`-th commit on: what stays pending, what is
committed then, and the error that ends it. -/
def commitAll (outcomes : Nat → Outcome) :
    Nat → List Bytes → List Bytes → List Bytes × List Bytes × Option Err
  | _, [], committed => ([], committed, none)
  | k, segment :: rest, committed =>
    match outcomes k with
    | .committed => commitAll outcomes (k + 1) rest (store committed segment)
    | .failed applied e =>
      (segment :: rest, if applied then store committed segment else committed, some e)

section Call

variable {pageSize : UInt32}

def flushPending (outcomes : Nat → Outcome) (w : World pageSize) : Option Err × World pageSize :=
  if w.fs.pending = [] then (none, w)
  else
    match commitAll outcomes 0 w.fs.pending w.committed with
    | (pending, committed, some e) =>
      (some (.wrap "dosupervisor: pending capture commit" e),
        { w with fs := { w.fs with pending }, committed })
    | (pending, committed, none) =>
      let fs := { w.fs with pending, seq := w.fs.pendingEnd }
      let fs :=
        if fs.pendingSnapshot then
          { fs with cursor := .empty, baseline := true, checkpointPending := false }
        else fs
      (none, { w with fs := { fs with pendingSnapshot := false }, committed })

/-- The segments of a snapshot of the main file. -/
def snapshotParts (cfg : Config) (seq : UInt64) (data : Bytes) (why : String) : Res (List Bytes) :=
  match readDBPages data with
  | .error e => .error (.wrap s!"dosupervisor: read db ({why})" e)
  | .ok (size, commit, pages) => do
    let sorted ← sortedPages pages commit (Restore.pageRange commit)
    encodeSnapshotParts cfg.compress
      { version := 0, kind := kindSnapshot, flags := 0, epoch := cfg.epoch, startTxID := seq,
        endTxID := seq, length := 0, crc := 0 }
      size commit sorted defaultSnapshotPartBytes

def snapshot (cfg : Config) (readFails : Option Err) (outcomes : Nat → Outcome) (why : String)
    (w : World pageSize) : Option Err × World pageSize :=
  match readFails with
  | some e => (some (.wrap s!"dosupervisor: read db ({why})" e), w)
  | none =>
    match snapshotParts cfg w.fs.seq w.db.main.pages.flatten why with
    | .error e => (some e, w)
    | .ok parts =>
      let fs := { w.fs with pending := parts, pendingEnd := w.fs.seq, pendingSnapshot := true }
      match flushPending outcomes { w with fs } with
      | (some e, w) => (some (.wrap s!"dosupervisor: snapshot commit ({why})" e), w)
      | (none, w) => (none, w)

def deltaSegment (cfg : Config) (seq : UInt64) (res : PollResult) : Res (Bytes × UInt64) := do
  let txs := res.transactions.map SqlCapture.walTransaction
  let (commit, pages) ← pageMapFromTransactions res.header.pageSize txs
  let payload ← encodeWALPageMap cfg.compress res.header.pageSize commit txs.length pages
  let endTxID := seq + UInt64.ofNat txs.length
  .ok (encode
    { version := 0, kind := kindDelta, flags := 0, epoch := cfg.epoch, startTxID := seq + 1,
      endTxID, length := 0, crc := 0 } payload, endTxID)

def delta (cfg : Config) (outcomes : Nat → Outcome) (res : PollResult) (w : World pageSize) :
    Option Err × World pageSize :=
  match deltaSegment cfg w.fs.seq res with
  | .error e => (some e, w)
  | .ok (segment, endTxID) =>
    let fs := { w.fs with pending := [segment], pendingEnd := endTxID, pendingSnapshot := false }
    flushPending outcomes { w with fs }

/-! ## Polling -/

/-- `pollStableWAL`, with `more` attempts left after this one. -/
def pollStableWAL (observed : Observed) (cancelled : Nat → Bool) :
    Nat → Nat → Bool → Cursor → Polled
  | more, attempt, checkpoint, cursor =>
    if cancelled attempt then ⟨cursor, { checkpoint }, some (.errorf "context canceled")⟩
    else
      let polled := cursor.poll observed
      let checkpoint := checkpoint || polled.result.checkpoint
      let result := { polled.result with checkpoint }
      match polled.err with
      | none => ⟨polled.cursor, result, none⟩
      | some e =>
        if e.is .walChecksum = false then ⟨polled.cursor, result, some e⟩
        else
          match more with
          | 0 => ⟨polled.cursor, result, some e⟩
          | more + 1 => pollStableWAL observed cancelled more (attempt + 1) checkpoint polled.cursor

/-! ## The call -/

/-- `seedCaptureWatermark`: the sequence number to start from. -/
def seedCaptureWatermark (cfg : Config) (restoreFails : Option Err) (w : World pageSize) :
    Res UInt64 :=
  if cfg.readsBack = false then .ok w.fs.seq
  else
    match restoreFails with
    | some e => .error (.wrap s!"dosupervisor: read capture head {cfg.scope}" e)
    | none =>
      if w.committed = [] then .ok w.fs.seq
      else
        match Restore.compact cfg.compress w.committed defaultSnapshotPartBytes with
        | .error e => .error (.wrap s!"dosupervisor: invalid capture head {cfg.scope}" e)
        | .ok compacted => do
          let (h, _) ← decode (compacted.headD [])
          if h.epoch ≠ cfg.epoch ∨ h.endTxID.toNat = 2 ^ 64 - 1 then
            .error (.errorf
              s!"dosupervisor: invalid capture head epoch/watermark for {cfg.scope}")
          else .ok (h.endTxID + 1)

/-- The other process takes some steps. -/
def World.advance (w : World pageSize) (steps : List (Step pageSize)) : World pageSize :=
  { w with db := steps.foldl Db.step w.db }

/-- The part of `syncFile` for a file without a baseline. -/
def takeBaseline (cfg : Config) (call : Call pageSize) (w : World pageSize) :
    Option Err × World pageSize :=
  if w.fs.baseline then (none, w)
  else
    match seedCaptureWatermark cfg call.restoreFails w with
    | .error e => (some e, w)
    | .ok seq =>
      let w := { w with fs := { w.fs with seq } }
      match snapshot cfg call.readFails call.baselined "baseline" w with
      | (some e, w) => (some e, w)
      | (none, w) => (none, { w with fs := { w.fs with baseline := true } })

/-- The part of `syncFile` that acts on what the poll found. -/
def capturePolled (cfg : Config) (call : Call pageSize) (res : PollResult) (w : World pageSize) :
    Option Err × World pageSize :=
  if w.fs.checkpointPending then
    match snapshot cfg call.rereadFails call.captured "checkpoint" w with
    | (some e, w) => (some e, w)
    | (none, w) => (none, { w with fs := { w.fs with checkpointPending := false } })
  else if res.transactions = [] then (none, w)
  else delta cfg call.captured res w

def pollAndCapture (cfg : Config) (call : Call pageSize) (w : World pageSize) :
    Option Err × World pageSize :=
  let polled := pollStableWAL (observe w.db call.logEnd) call.cancelled 4 0 false w.fs.cursor
  let w := { w with fs := { w.fs with
    cursor := polled.cursor
    checkpointPending := w.fs.checkpointPending || polled.result.checkpoint } }
  let w := w.advance call.beforeReread
  match polled.err with
  | none => capturePolled cfg call polled.result w
  | some e =>
    if e = .sentinel .noWAL then capturePolled cfg call polled.result w
    else (some (.wrap s!"dosupervisor: wal poll {cfg.path}" e), w)

def syncFile (cfg : Config) (call : Call pageSize) (w : World pageSize) :
    Option Err × World pageSize :=
  match call.claimFails with
  | some e => (some (.wrap s!"dosupervisor: claim {cfg.scope}" e), w)
  | none =>
    match flushPending call.retried w with
    | (some e, w) => (some e, w)
    | (none, w) =>
      match takeBaseline cfg call (w.advance call.beforeRead) with
      | (some e, w) => (some e, w)
      | (none, w) => pollAndCapture cfg call (w.advance call.beforePoll)

end Call

end CellHive.DoSupervisor
