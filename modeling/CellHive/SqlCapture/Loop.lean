import CellHive.SqlCapture.Stream

/-!
# The capture loop and the threads around it

`poll`, `drain`, `rebaseline`, `maybeAutoCheckpoint`, `Snapshot` and `RequestBaseline` of
`internal/sqlcapture/capture.go` in the order of their operations, with serial and pipelined
commits. `Poll.lean` has the same poll as one step, for what is emitted; here every commit,
every receive and every move of the barrier is an operation that other threads may come
between.
-/

namespace CellHive.SqlCapture

open Go Concurrent Prog Ltx

def capturePipeline : Nat := 4

structure ChunkFuture where
  endTxID : UInt64
  call : Nat
  deriving DecidableEq, Repr

structure Loop where
  capture : Capture
  inflight : List ChunkFuture
  pipeline : Nat
  pipelineBase : UInt64

def Loop.start (capture : Capture) : Loop := ⟨capture, [], 0, 0⟩

def adaptPipeline (l : Loop) : Prog ops Loop :=
  if 1 < l.pipeline then return l
  else do
    let slow : Bool ← ask .slow
    return if slow then { l with pipeline := capturePipeline } else l

/-- `drain` over the futures that are left. Only the first receive may block. -/
def drainFrom (block : Bool) : List ChunkFuture → Loop → Prog ops (Res Loop)
  | [], l => return .ok { l with inflight := [] }
  | head :: rest, l => do
    match ← ask (.receive head.call block) with
    | .notYet => return .ok { l with inflight := head :: rest }
    | .cancelled e => return .error e
    | .result (.error e) =>
      let ending := head.endTxID
      return .error (.wrap s!"sqlcapture: fleet commit ending {ending}" e)
    | .result (.ok _) =>
      let l ← adaptPipeline l
      let _ ← ask (.advance head.endTxID)
      drainFrom false rest l

def drain (block : Bool) (l : Loop) : Prog ops (Res Loop) := drainFrom block l.inflight l

/-! ## Chunks -/

def sendChunk (cfg : Config) (segment : Bytes) (startTxID endTxID : UInt64) (l : Loop) :
    Prog ops (Res Loop) :=
  if cfg.async ∧ 1 < l.pipeline then do
    let base := if l.pipelineBase = 0 then startTxID else l.pipelineBase
    let call ← ask (.commitAsync segment base)
    return .ok { l with inflight := l.inflight ++ [⟨endTxID, call⟩], pipelineBase := base }
  else do
    match ← ask (.commit [segment]) with
    | .error e => return .error (.wrap s!"sqlcapture: fleet commit {startTxID}-{endTxID}" e)
    | .ok _ =>
      let l ← adaptPipeline l
      let _ ← ask (.advance endTxID)
      return .ok l

/-- A full pipeline waits for its head. -/
def awaitRoom (l : Loop) : Prog ops (Res Loop) :=
  if l.pipeline ≤ l.inflight.length then drain true l else return .ok l

def sendChunks (cfg : Config) (pageSize : UInt32) :
    List (List WALTransaction) → Loop → Prog ops (Res Loop)
  | [], l => return .ok l
  | chunk :: rest, l =>
    match deltaSegment l.capture pageSize chunk with
    | .error e => return .error e
    | .ok (segment, endTxID) => do
      match ← awaitRoom l with
      | .error e => return .error e
      | .ok l =>
        match ← sendChunk cfg segment (l.capture.nextTxID + 1) endTxID l with
        | .error e => return .error e
        | .ok l =>
          match ← drain false { l with capture := { l.capture with nextTxID := endTxID } } with
          | .error e => return .error e
          | .ok l => sendChunks cfg pageSize rest l

/-! ## Snapshots -/

/-- `emitSnapshotStream`: nothing moves unless every part is durable. -/
def emitSnapshotStream (cfg : Config) (mode : SnapshotMode)
    (onStart : Option (UInt64 → Prog ops (Res Unit))) (watermark : UInt64) (l : Loop) :
    Prog ops (Res Loop) := do
  match ← Snapshotter.run ⟨cfg, l.capture, mode, onStart⟩ watermark with
  | (some e, _) => return .error e
  | (none, st) =>
    let _ ← ask (.advance st.label)
    return .ok { l with capture := { l.capture with cursor := .empty, nextTxID := st.label } }

def emitDrained (cfg : Config) (watermark : UInt64) (l : Loop) : Prog ops (Res Loop) := do
  match ← drain true l with
  | .error e => return .error e
  | .ok l => emitSnapshotStream cfg .pages none watermark l

def maxWatermark (cfg : Config) (l : Loop) : Prog ops UInt64 :=
  if cfg.committed then do
    let ticket ← ask .committedTicket
    return watermark l.capture ticket
  else return l.capture.nextTxID

def rebaseline (cfg : Config) (l : Loop) : Prog ops (Res Loop) :=
  if cfg.checkpointer = false then do
    let w ← maxWatermark cfg l
    emitDrained cfg w l
  else do
    match ← drain true l with
    | .error e => return .error e
    | .ok l =>
      match ← ask .checkpointer with
      | .error e => return .error (.wrap "sqlcapture: rebaseline checkpoint" e)
      | .ok ticket => emitDrained cfg (watermark l.capture ticket) l

def maybeAutoCheckpoint (cfg : Config) (l : Loop) : Prog ops (Res Loop) :=
  if cfg.autoCheckpointBytes ≤ 0 ∨ cfg.checkpointer = false ∨ l.inflight ≠ [] then return .ok l
  else do
    let grown : Bool ← ask .walGrown
    if grown then
      match ← ask .checkpointer with
      -- busy: a later poll tries again
      | .error _ => return .ok l
      | .ok ticket => emitDrained cfg (watermark l.capture ticket) l
    else return .ok l

/-! ## Polls -/

/-- The part of `poll` behind the WAL poll. -/
def emitPolled (cfg : Config) (polled : Wal.Polled) (l : Loop) : Prog ops (Res Loop) :=
  match polled.err with
  | some e =>
    if e.is .noWAL then return .ok l
    else if e.is .walChecksum then return .ok l
    else return .error (.wrap "sqlcapture: WAL poll" e)
  | none =>
    if polled.result.checkpoint then rebaseline cfg l
    else if polled.result.transactions = [] then return .ok l
    else do
      let pageSize := polled.result.header.pageSize
      let txs := polled.result.transactions.map walTransaction
      let chunks := cutChunks pageSize l.capture.nextTxID l.capture.baselineCuts txs
      match ← sendChunks cfg pageSize chunks l with
      | .error e => return .error e
      | .ok l =>
        let kept := l.capture.baselineCuts.filter fun cut => l.capture.nextTxID < cut
        maybeAutoCheckpoint cfg { l with capture := { l.capture with baselineCuts := kept } }

def pollLocked (cfg : Config) (l : Loop) : Prog ops (Res Loop) := do
  match ← drain false l with
  | .error e => return .error e
  | .ok l =>
    let o ← ask .observeWal
    let polled := l.capture.cursor.poll o
    emitPolled cfg polled { l with capture := { l.capture with cursor := polled.cursor } }

def pollOnce (cfg : Config) (l : Loop) : Prog ops (Res Loop) := do
  let cuts : List UInt64 ← ask .lockPoll
  match ← pollLocked cfg { l with capture := { l.capture with baselineCuts := cuts } } with
  | .error e =>
    let _ ← ask (.unlockPoll cuts)
    return .error e
  | .ok l =>
    let _ ← ask (.unlockPoll l.capture.baselineCuts)
    return .ok l

/-! ## Threads -/

inductive Finished where
  | captured (err : Option Err)
  | waited (txid : UInt64) (err : Option Err)
  | baseline (r : Res UInt64)
  | delivered

def loop (cfg : Config) : Nat → Loop → Prog ops Finished
  | 0, _ => return .captured none
  | rounds + 1, l => do
    match ← ask .awake with
    | some e =>
      let _ ← ask (.fail e)
      return .captured (some e)
    | none =>
      match ← pollOnce cfg l with
      | .error e =>
        let _ ← ask (.fail e)
        return .captured (some e)
      | .ok l => loop cfg rounds l

/-- The calls of `Snapshot` (`SnapshotWithStart` for `true`) before `Start`, and the loop. A
call that fails changes nothing. -/
def capture (cfg : Config) (rounds : Nat) : List Bool → Loop → Prog ops Finished
  | [], l => loop cfg rounds l
  | hooked :: calls, l => do
    let onStart := if hooked then some fun label => ask (.startMarker label) else none
    match ← emitSnapshotStream cfg .checkpoint onStart 0 l with
    | .error _ => capture cfg rounds calls l
    | .ok l => capture cfg rounds calls l

def wait (txid : UInt64) : Prog ops Finished := do
  match ← ask (.wait txid) with
  | .returned err => return .waited txid err
  | .registered waiter =>
    let err ← ask (.take waiter)
    return .waited txid err

/-- `RequestBaseline`: the label is noted under `pollMu`, which is released with the start of
the upload. `shadow` has the settings of the capture. -/
def requestBaseline (cfg : Config) (shadow : Capture) (hooked : Bool) : Prog ops Finished := do
  let cuts : List UInt64 ← ask .lockPoll
  let boundary (label : UInt64) : Prog ops (Res Unit) := do
    let _ ← ask (.unlockPoll (cuts ++ [label]))
    if hooked then ask (.startMarker label) else return .ok ()
  let (err, st) ← Snapshotter.run ⟨cfg, shadow, .detached, some boundary⟩ 0
  if st.started = false then
    let _ ← ask (.unlockPoll cuts)
  match err with
  | some e => return .baseline (.error e)
  | none => return .baseline (.ok st.label)

/-- The fleet answers a number of asynchronous commits. -/
def deliver : Nat → Prog ops Finished
  | 0 => return .delivered
  | n + 1 => do
    let _ ← ask .deliver
    deliver n

inductive Around where
  | writer (txid : UInt64)
  | baseline (cfg : Config) (shadow : Capture) (hooked : Bool)
  | fleet (answers : Nat)

def Around.prog : Around → Prog ops Finished
  | .writer txid => wait txid
  | .baseline cfg shadow hooked => requestBaseline cfg shadow hooked
  | .fleet answers => deliver answers

end CellHive.SqlCapture
