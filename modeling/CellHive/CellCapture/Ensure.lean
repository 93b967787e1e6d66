import CellHive.SqlCapture.Poll
import CellHive.Wal.Log

/-!
# Starting a capture

`Manager.Ensure` of `internal/cellcapture/cellcapture.go`. It reads the cell's txid as the
baseline, creates a capture whose first poll skips the log, and then decides whether the
capture may continue the chain in the bucket or has to start with a snapshot. Writers of
the cell commit between these steps, so the model counts the commits: each step says how
many transactions were committed since the one before it.
-/

namespace CellHive.CellCapture

open Go Wal SqlCapture

/-! ## The cell -/

/-- A cell whose writers commit `history 0`, `history 1`, … to the log of generation `g`;
`start` is the txid before the first of them. Automatic checkpoints are off, so commits
alone never end a generation. -/
structure Cell {pageSize : UInt32} (g : Generation pageSize) where
  start : Nat
  history : Nat → Commit pageSize

namespace Cell

variable {pageSize : UInt32} {g : Generation pageSize} (c : Cell g)

/-- `TxID`, when `n` transactions are committed. It holds the lock of the writers. -/
def txid (n : Nat) : Nat := c.start + n

def committed (n : Nat) : List (Commit pageSize) := (List.range n).map c.history

/-- What a poll of the log finds. The file may be missing before the first commit. -/
def wal (n : Nat) : Option (LogEnd g) → Observed
  | some rest => (Log.mk rest (c.committed n)).observed
  | none => if n = 0 then .missing else (Log.mk (.nothing g) (c.committed n)).observed

end Cell

/-! ## Resuming -/

/-- `resumeHint`: the durable txid at the time the last capture was dropped. -/
structure ResumeHint where
  epoch : UInt64
  durable : Nat
  deriving DecidableEq, Repr

def takeHint (hint : Option ResumeHint) (epoch : UInt64) (baseline : Nat) : Bool :=
  hint = some ⟨epoch, baseline⟩

/-- What `canResume` learns from the manager's hooks and the file; a hook that is not set
is `none`. `size` is 0 when the file cannot be examined. -/
structure ResumeChecks where
  durable : Option (Res Nat)
  hasEpoch : Option (Res Bool)
  durableEpoch : Option (Res Nat)
  txidFails : Option Err
  size : Int
  epochSnapshotMaxBytes : Int
  writeMarker : Option (Option Err)

/-- The part of `canResume` for an epoch without objects: the marker that lets it continue
the chain of an older one. `some` is the result of `canResume`. -/
def openEpoch (k : ResumeChecks) : Res (Option (Bool × Bool)) :=
  match k.writeMarker with
  | none =>
    if 0 < k.epochSnapshotMaxBytes ∧ k.epochSnapshotMaxBytes < k.size then
      .error (.errorf "cellcapture: large cross-epoch resume requires epoch marker writer")
    else .ok (some (false, false))
  | some (some e) => .error (.wrap "cellcapture: write epoch marker" e)
  | some none => .ok none

/-- The part of `canResume` that compares the durable txid with the cell's. -/
def compareTxids (k : ResumeChecks) (scope : String) (exists_ : Bool)
    (baseline durable localTxID : Nat) : Res (Bool × Bool) :=
  if localTxID < durable then
    .error (.wrap s!"scope {scope} local txid {localTxID} < durable {durable}"
      (.sentinel .localBehindDurable))
  else if exists_ = false ∧ durable = baseline ∧ durable = localTxID then
    match openEpoch k with
    | .error e => .error e
    | .ok (some result) => .ok result
    | .ok none => .ok (true, true)
  else .ok (durable = baseline ∧ durable = localTxID, false)

/-- `canResume`: whether to resume, and whether across epochs. `localTxID` is the cell's
txid when it asks for it. -/
def canResume (k : ResumeChecks) (scope : String) (baseline localTxID : Nat) : Res (Bool × Bool) :=
  match k.durable with
  | none => .ok (false, false)
  | some durable =>
    match k.hasEpoch.getD (.ok true) with
    | .error _ => .ok (false, false)
    | .ok exists_ =>
      match if exists_ then k.durableEpoch.getD durable else durable with
      | .error _ => .ok (false, false)
      | .ok durable =>
        if durable = 0 then .ok (false, false)
        else
          match k.txidFails with
          | some e => .error e
          | none => compareTxids k scope exists_ baseline durable localTxID

/-! ## Ensure -/

/-- What a round of `Ensure` finds in the table of captures: nothing or a capture of
another epoch; or a capture of this epoch that, once it is ready, is gone or of another
epoch, runs, or has stopped. -/
inductive Lookup where
  | free
  | moved
  | running
  | stopped
  deriving DecidableEq, Repr

/-- A round of `Ensure`: the commits before it reads the baseline, what stops that read, and
the table. -/
structure Round where
  commits : Nat
  txidFails : Option Err
  found : Lookup

/-- The steps of the round that creates the capture: the commits before the first poll of
the log and what the poll finds behind them, the hint, the commits before the second read
of the txid, what the checks find, and the snapshot's label. -/
structure Attempt {pageSize : UInt32} (g : Generation pageSize) where
  beforePoll : Nat
  logEnd : Option (LogEnd g)
  hint : Option ResumeHint
  beforeSecondRead : Nat
  checks : ResumeChecks
  snapshot : Res UInt64

structure Surroundings {pageSize : UInt32} (g : Generation pageSize) where
  scope : String
  owner : Res (Option UInt64)
  cellFails : Option Err
  rounds : List Round
  attempt : Attempt g
  compress : Bool

inductive Mode where
  | resume
  | snapshot
  | plain
  deriving DecidableEq, Repr

/-- How `Ensure` ends. `waiting` is a call whose rounds have not ended. -/
inductive Ensured where
  | failed (e : Err)
  | warm (baseline : Nat)
  | started (mode : Mode) (capture : Capture) (baseline : Nat) (crossEpoch : Bool)
  | waiting

section Ensure

variable {pageSize : UInt32} {g : Generation pageSize} (autoSnapshot : Bool) (c : Cell g) (env : Surroundings g)

/-- The decision between resuming and a snapshot, with `n` transactions committed. -/
def decideStart (epoch : UInt64) (baseline : Nat) (capture : Capture) (n : Nat) : Ensured × Nat :=
  if autoSnapshot = false then (.started .plain capture baseline false, n)
  else if takeHint env.attempt.hint epoch baseline then
    (.started .resume capture baseline false, n)
  else
    let n := n + env.attempt.beforeSecondRead
    match canResume env.attempt.checks env.scope baseline (c.txid n) with
    | .error e => (.failed e, n)
    | .ok (true, crossEpoch) => (.started .resume capture baseline crossEpoch, n)
    | .ok (false, crossEpoch) =>
      match env.attempt.snapshot with
      | .error e => (.failed e, n)
      | .ok label =>
        let capture := { capture with cursor := .empty, nextTxID := label }
        (.started .snapshot capture baseline crossEpoch, n)

def create (epoch : UInt64) (baseline n : Nat) : Ensured × Nat :=
  let n := n + env.attempt.beforePoll
  match SqlCapture.new epoch (UInt64.ofNat baseline) env.compress (c.wal n env.attempt.logEnd) with
  | .error e => (.failed e, n)
  | .ok capture => decideStart autoSnapshot c env epoch baseline capture n

def ensureLoop (epoch : UInt64) : List Round → Nat → Ensured × Nat
  | [], n => (.waiting, n)
  | round :: rest, n =>
    let n := n + round.commits
    match round.txidFails with
    | some e => (.failed e, n)
    | none =>
      match round.found with
      | .free => create autoSnapshot c env epoch (c.txid n) n
      | .moved => ensureLoop epoch rest n
      | .running => (.warm (c.txid n), n)
      | .stopped =>
        if autoSnapshot = false then
          (.failed (.errorf "cellcapture: stopped capture requires a snapshot to recover"), n)
        else ensureLoop epoch rest n

/-- `Ensure`, with `n` transactions committed when it is called. Returns how it ends and the
number of transactions committed by then. -/
def ensure (n : Nat) : Ensured × Nat :=
  match env.owner with
  | .error e => (.failed e, n)
  | .ok none => (.failed (.sentinel .notOwner), n)
  | .ok (some epoch) =>
    match env.cellFails with
    | some e => (.failed e, n)
    | none => ensureLoop autoSnapshot c env epoch env.rounds n

end Ensure

end CellHive.CellCapture
