import CellHive.Ltx.Transactions
import CellHive.Wal.Cursor

/-!
# Capturing a cell's write-ahead log

`Capture.poll` of `internal/sqlcapture/capture.go`: the transactions that a poll of the
WAL finds are cut into chunks and handed to the committer as delta segments; a reported
checkpoint makes the capture emit a full snapshot instead.

What the model does not compute is given to each poll: the WAL file, the results of
commits and drains, the writer's committed ticket, and whether a snapshot succeeds.
The pipeline, the barrier and the statistics are left out: no emission depends on them.
-/

namespace CellHive.SqlCapture

open Go Ltx

/-! ## Chunks -/

def maxCaptureTransactions : Nat := 512

def maxCapturePayloadBytes : Nat := 2 ^ 20

/-- The state of `chunkTransactions`: finished chunks, the current one, the pages seen in
it and their number. -/
structure Chunker where
  chunks : List (List WALTransaction)
  current : List WALTransaction
  seen : List UInt32
  pages : Nat

/-- `countNew`: the pages not seen before, and the pages seen now. -/
def countNew (seen : List UInt32) (tx : WALTransaction) : Nat × List UInt32 :=
  tx.frames.foldl
    (fun acc frame =>
      if frame.pageNo ∈ acc.2 then acc else (acc.1 + 1, frame.pageNo :: acc.2))
    (0, seen)

def Chunker.flush (c : Chunker) : Chunker :=
  if c.current = [] then c else ⟨c.chunks ++ [c.current], [], [], 0⟩

def Chunker.full (c : Chunker) (pageSize : UInt32) (newPages : Nat) : Bool :=
  c.current ≠ [] ∧ (maxCaptureTransactions ≤ c.current.length ∨
    (maxCapturePayloadBytes : Int) <
      Int.bmod (20 + (c.pages + newPages) * (4 + pageSize.toNat) : Nat) (2 ^ 64))

def Chunker.add (pageSize : UInt32) (c : Chunker) (tx : WALTransaction) : Chunker :=
  let counted := countNew c.seen tx
  if c.full pageSize counted.1 then
    let c := c.flush
    let counted := countNew c.seen tx
    { c with
      current := c.current ++ [tx]
      seen := counted.2
      pages := c.pages + counted.1 }
  else
    { c with
      current := c.current ++ [tx]
      seen := counted.2
      pages := c.pages + counted.1 }

def chunkTransactions (pageSize : UInt32) (txs : List WALTransaction) : List (List WALTransaction) :=
  (txs.foldl (Chunker.add pageSize) ⟨[], [], [], 0⟩).flush.chunks

/-- The chunks of a poll: no chunk crosses the label of a detached baseline. -/
def cutChunks (pageSize : UInt32) (start : UInt64) :
    List UInt64 → List WALTransaction → List (List WALTransaction)
  | [], txs => chunkTransactions pageSize txs
  | cut :: cuts, txs =>
    if cut ≤ start ∨ start + UInt64.ofNat txs.length < cut then cutChunks pageSize start cuts txs
    else
      let n := (cut - start).toNat
      chunkTransactions pageSize (txs.take n) ++ cutChunks pageSize cut cuts (txs.drop n)

/-! ## Polls -/

/-- `Capture`: the cursor, the last transaction handed out, and the labels of requested
baselines. `compress` is the switch of the page-map writer. -/
structure Capture where
  cursor : Wal.Cursor
  epoch : UInt64
  nextTxID : UInt64
  baselineCuts : List UInt64
  compress : Bool

/-- What a capture hands to its committer: a full snapshot with its label, or a delta. -/
inductive Emission where
  | snapshot (label : UInt64)
  | delta (segment : Bytes)
  deriving DecidableEq, Repr

/-- What surrounds a poll: the first drain, the file, the writer's committed ticket with
what stops a rebaseline, what the commit of each chunk returns, and the auto
checkpoint with its ticket and what stops its snapshot. -/
structure Surroundings where
  drained : Option Err
  observed : Wal.Observed
  ticket : UInt64
  rebaselineFails : Option Err
  commitFails : Nat → Option Err
  autoCheckpoint : Option (UInt64 × Option Err)

/-- What a poll did: the cursor behind `Cursor.Poll`, the emissions, the capture behind the
poll, and the error that ends the loop. -/
structure Outcome where
  polled : Wal.Cursor
  emitted : List Emission
  capture : Capture
  err : Option Err

/-- The larger of the capture's position and the writer's ticket. -/
def watermark (c : Capture) (ticket : UInt64) : UInt64 :=
  if c.nextTxID < ticket then ticket else c.nextTxID

/-- `emitSnapshot`: a snapshot that succeeds resets the cursor and is the new position. -/
def emitSnapshot (c : Capture) (label : UInt64) (fails : Option Err) :
    List Emission × Capture × Option Err :=
  match fails with
  | some e => ([], c, some e)
  | none => ([.snapshot label], { c with cursor := .empty, nextTxID := label }, none)

def deltaSegment (c : Capture) (pageSize : UInt32) (chunk : List WALTransaction) :
    Res (Bytes × UInt64) :=
  match pageMapFromTransactions pageSize chunk with
  | .error e => .error (.wrap "sqlcapture: build page map" e)
  | .ok (commit, pages) =>
    match encodeWALPageMap c.compress pageSize commit chunk.length pages with
    | .error e => .error (.wrap "sqlcapture: encode page map" e)
    | .ok payload =>
      let endTxID := c.nextTxID + UInt64.ofNat chunk.length
      .ok (encode ⟨version, kindDelta, 0, c.epoch, c.nextTxID + 1, endTxID, 0, 0⟩ payload, endTxID)

/-- The chunks from number `k` on. A segment is handed out before its commit returns. -/
def emitChunks (pageSize : UInt32) (commitFails : Nat → Option Err) :
    Nat → Capture → List (List WALTransaction) → List Emission × Capture × Option Err
  | _, c, [] => ([], c, none)
  | k, c, chunk :: rest =>
    match deltaSegment c pageSize chunk with
    | .error e => ([], c, some e)
    | .ok (segment, endTxID) =>
      match commitFails k with
      | some e => ([.delta segment], c, some e)
      | none =>
        let out := emitChunks pageSize commitFails (k + 1) { c with nextTxID := endTxID } rest
        (.delta segment :: out.1, out.2)

/-- The frames of a WAL transaction, as the segment writer takes them. -/
def walTransaction (tx : Wal.Transaction) : WALTransaction :=
  ⟨tx.frames.map fun f => ⟨f.pageNo, f.dbSize, f.data⟩⟩

def emitTransactions (c : Capture) (env : Surroundings) (result : Wal.PollResult) :
    List Emission × Capture × Option Err :=
  let txs := result.transactions.map walTransaction
  let chunks := cutChunks result.header.pageSize c.nextTxID c.baselineCuts txs
  let out := emitChunks result.header.pageSize env.commitFails 0 c chunks
  match out.2.2 with
  | some e => (out.1, out.2.1, some e)
  | none =>
    let c := { out.2.1 with
      baselineCuts := out.2.1.baselineCuts.filter fun cut => out.2.1.nextTxID < cut }
    match env.autoCheckpoint with
    | none => (out.1, c, none)
    | some (ticket, fails) =>
      let snapshot := emitSnapshot c (watermark c ticket) fails
      (out.1 ++ snapshot.1, snapshot.2)

def poll (c : Capture) (env : Surroundings) : Outcome :=
  match env.drained with
  | some e => ⟨c.cursor, [], c, some e⟩
  | none =>
    let polled := c.cursor.poll env.observed
    let c := { c with cursor := polled.cursor }
    match polled.err with
    | some e =>
      if e.is .noWAL then ⟨polled.cursor, [], c, none⟩
      -- a torn frame: the next poll retries
      else if e.is .walChecksum then ⟨polled.cursor, [], c, none⟩
      else ⟨polled.cursor, [], c, some (.wrap "sqlcapture: WAL poll" e)⟩
    | none =>
      if polled.result.checkpoint then
        let out := emitSnapshot c (watermark c env.ticket) env.rebaselineFails
        ⟨polled.cursor, out.1, out.2.1, out.2.2⟩
      else if polled.result.transactions = [] then ⟨polled.cursor, [], c, none⟩
      else
        let out := emitTransactions c env polled.result
        ⟨polled.cursor, out.1, out.2.1, out.2.2⟩

/-- `New`: the first poll only positions the cursor. -/
def new (epoch baselineTxID : UInt64) (compress : Bool) (observed : Wal.Observed) : Res Capture :=
  let polled := Wal.Cursor.empty.poll observed
  match polled.err with
  | some e =>
    if e.is .noWAL then .ok ⟨polled.cursor, epoch, baselineTxID, [], compress⟩
    else .error (.wrap "sqlcapture: baseline WAL poll" e)
  | none => .ok ⟨polled.cursor, epoch, baselineTxID, [], compress⟩

end CellHive.SqlCapture
