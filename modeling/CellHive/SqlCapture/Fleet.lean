import CellHive.Concurrent.Prog
import CellHive.SqlCapture.Poll

/-!
# What the threads around a capture share

The durability barrier of `internal/sqlcapture/capture.go` with the writers that wait at
it, the segments whose commit has succeeded, the asynchronous commits and their results,
and the mutex `pollMu` with the labels it guards. The capture loop, the writers, requests
for a baseline and the fleet that answers asynchronous commits are threads over this state.

Whatever the model does not compute is the environment's choice at an operation: the
contents of files, the answers of the fleet, the clock and cancellation.
-/

namespace CellHive.SqlCapture

open Go Concurrent

/-- The channel of one waiting writer. -/
structure Waiter where
  txid : UInt64
  number : Nat
  deriving DecidableEq, Repr

structure Barrier where
  durableTxID : UInt64
  fatal : Option Err
  waiters : List Waiter

def newBarrier (durableTxID : UInt64) : Barrier := ⟨durableTxID, none, []⟩

structure Fleet where
  /-- The segments whose commit has succeeded. -/
  proven : List Bytes
  /-- The asynchronous commits, each with its result once it has one. -/
  calls : List (Bytes × Option (Res Unit))
  barrier : Barrier
  /-- What was sent to waiters; `none` is a nil error. -/
  answers : List (Waiter × Option Err)
  registered : Nat
  /-- `pollMu` is held. -/
  polling : Bool
  /-- `baselineCuts`. -/
  cuts : List UInt64

/-- The state when a capture is made. -/
def Fleet.start (baselineTxID : UInt64) (proven : List Bytes) : Fleet :=
  ⟨proven, [], newBarrier baselineTxID, [], 0, false, []⟩

/-! ## The barrier -/

/-- What `wait` finds at once. -/
inductive Entered where
  | returned (err : Option Err)
  | registered (waiter : Waiter)

/-- `wait`, up to the point where it blocks. -/
def Fleet.wait (s : Fleet) (txid : UInt64) : Entered × Fleet :=
  if txid ≤ s.barrier.durableTxID then (.returned none, s)
  else
    match s.barrier.fatal with
    | some e => (.returned (some e), s)
    | none =>
      let waiter : Waiter := ⟨txid, s.registered⟩
      (.registered waiter,
        { s with
          barrier := { s.barrier with waiters := s.barrier.waiters ++ [waiter] }
          registered := s.registered + 1 })

def Fleet.advance (s : Fleet) (endTxID : UInt64) : Fleet :=
  if s.barrier.fatal.isSome ∨ endTxID ≤ s.barrier.durableTxID then s
  else
    let released := s.barrier.waiters.filter fun w => w.txid ≤ endTxID
    { s with
      barrier := ⟨endTxID, none, s.barrier.waiters.filter fun w => endTxID < w.txid⟩
      answers := s.answers ++ released.map (·, none) }

def Fleet.fail (s : Fleet) (e : Err) : Fleet :=
  if s.barrier.fatal.isSome then s
  else
    { s with
      barrier := ⟨s.barrier.durableTxID, some e, []⟩
      answers := s.answers ++ s.barrier.waiters.map (·, some e) }

/-! ## Commits -/

def Fleet.prove (s : Fleet) (segments : List Bytes) : Fleet :=
  { s with proven := s.proven ++ segments }

/-- The result of an asynchronous commit arrives. -/
def Fleet.deliver (s : Fleet) (call : Nat) (result : Res Unit) : Option Fleet :=
  match s.calls[call]? with
  | some (segment, none) =>
    let answered := { s with calls := s.calls.set call (segment, some result) }
    some (match result with
      | .ok _ => answered.prove [segment]
      | .error _ => answered)
  | _ => none

/-! ## Operations -/

inductive SnapshotMode where
  | checkpoint
  | pages
  | detached
  deriving DecidableEq, Repr

/-- What a receive from the channel of a commit finds. -/
inductive Received where
  | notYet
  | cancelled (e : Err)
  | result (r : Res Unit)

inductive Op where
  /-- The loop's `select`; the answer is the context's error. -/
  | awake
  | lockPoll
  | unlockPoll (cuts : List UInt64)
  | observeWal
  | commit (segments : List Bytes)
  | commitAsync (segment : Bytes) (base : UInt64)
  | receive (call : Nat) (block : Bool)
  /-- The last commit took a round trip. -/
  | slow
  | committedTicket
  | checkpointer
  /-- The WAL has reached the auto-checkpoint size. -/
  | walGrown
  | statDatabase
  | prepareImage (mode : SnapshotMode)
  | openImage
  | readHeader
  | readRun (offset length : Nat)
  | cancelled
  | startMarker (label : UInt64)
  | advance (endTxID : UInt64)
  | fail (e : Err)
  | wait (txid : UInt64)
  | take (waiter : Waiter)
  | deliver

def Reply : Op → Type
  | .awake => Option Err
  | .lockPoll => List UInt64
  | .unlockPoll _ => Unit
  | .observeWal => Wal.Observed
  | .commit _ => Res Unit
  | .commitAsync _ _ => Nat
  | .receive _ _ => Received
  | .slow => Bool
  | .committedTicket => UInt64
  | .checkpointer => Res UInt64
  | .walGrown => Bool
  | .statDatabase => Option Nat
  | .prepareImage _ => Res Unit
  | .openImage => Res (UInt64 × Nat)
  | .readHeader => Res Bytes
  | .readRun _ _ => Res Bytes
  | .cancelled => Option Err
  | .startMarker _ => Res Unit
  | .advance _ => Unit
  | .fail _ => Unit
  | .wait _ => Entered
  | .take _ => Option Err
  | .deliver => Unit

abbrev ops : Signature := ⟨Op, Reply⟩

abbrev ask (op : Op) : Prog ops (Reply op) := Prog.perform (S := ops) op

/-- The environment's part of a step. -/
inductive Choice where
  /-- The operation goes through. -/
  | proceed
  /-- It fails, or its context is cancelled. -/
  | refuse (e : Err)
  | observed (o : Wal.Observed)
  | answer (yes : Bool)
  | number (n : UInt64)
  | size (n : Nat)
  | image (txid : UInt64) (size : Nat)
  | data (b : Bytes)
  | result (call : Nat) (r : Res Unit)

/-- A receive: without a result it blocks, or goes on at once. -/
def Fleet.receive (s : Fleet) (call : Nat) (block : Bool) : Option Received :=
  match s.calls[call]? with
  | some (_, some r) => some (.result r)
  | _ => if block then none else some .notYet

/-- How the shared state executes an operation. -/
def exec : Exec ops Choice Fleet
  | .awake, .proceed, s => some (none, s)
  | .awake, .refuse e, s => some (some e, s)
  | .lockPoll, .proceed, s => if s.polling then none else some (s.cuts, { s with polling := true })
  | .unlockPoll cuts, .proceed, s => some ((), { s with polling := false, cuts })
  | .observeWal, .observed o, s => some (o, s)
  | .commit segments, .proceed, s => some (.ok (), s.prove segments)
  | .commit _, .refuse e, s => some (.error e, s)
  | .commitAsync segment _, .proceed, s =>
    some (s.calls.length, { s with calls := s.calls ++ [(segment, none)] })
  | .receive call block, .proceed, s => (s.receive call block).map (·, s)
  | .receive _ true, .refuse e, s => some (.cancelled e, s)
  | .slow, .answer yes, s => some (yes, s)
  | .committedTicket, .number n, s => some (n, s)
  | .checkpointer, .number n, s => some (.ok n, s)
  | .checkpointer, .refuse e, s => some (.error e, s)
  | .walGrown, .answer yes, s => some (yes, s)
  | .statDatabase, .size n, s => some (some n, s)
  | .statDatabase, .refuse _, s => some (none, s)
  | .prepareImage _, .proceed, s => some (.ok (), s)
  | .prepareImage _, .refuse e, s => some (.error e, s)
  | .openImage, .image txid size, s => some (.ok (txid, size), s)
  | .openImage, .refuse e, s => some (.error e, s)
  | .readHeader, .data b, s => if b.length = 100 then some (.ok b, s) else none
  | .readHeader, .refuse e, s => some (.error e, s)
  | .readRun _ length, .data b, s => if b.length = length then some (.ok b, s) else none
  | .readRun _ _, .refuse e, s => some (.error e, s)
  | .cancelled, .proceed, s => some (none, s)
  | .cancelled, .refuse e, s => some (some e, s)
  | .startMarker _, .proceed, s => some (.ok (), s)
  | .startMarker _, .refuse e, s => some (.error e, s)
  | .advance endTxID, .proceed, s => some ((), s.advance endTxID)
  | .fail e, .proceed, s => some ((), s.fail e)
  | .wait txid, .proceed, s => some (s.wait txid)
  | .take waiter, .proceed, s =>
    ((s.answers.find? fun a => a.1 = waiter).map (·.2)).map (·, s)
  | .take _, .refuse e, s => some (some e, s)
  | .deliver, .result call r, s => (s.deliver call r).map ((), ·)
  | _, _, _ => none

end CellHive.SqlCapture
