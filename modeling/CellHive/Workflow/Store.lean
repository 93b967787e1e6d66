import CellHive.Go.Bytes
import CellHive.Timer.Store

/-!
# The workflow store

The tables of a workflow definition's cell and the calls of `workflow.Store`, each one
transaction: it returns the tables it commits, or an error and commits nothing. What a call
draws from outside comes as an argument: its reading of the clock, the run token and the nonce
it generates, and what SQLite's JSON functions find under `$.type` in a payload (`eventType`).

A timer's token is the hash of scope, kind, due time and occurrence. The scope is that of the
cell, so a token is the other three (`Token`).
-/

namespace CellHive.Workflow

open Go Sql Timer

inductive Status
  | queued
  | running
  | sleeping
  | paused
  | complete
  | errored
  | terminated
deriving DecidableEq, Repr

def Status.terminal : Status → Bool
  | .complete | .errored | .terminated => true
  | _ => false

structure Target where
  worker : Str := []
  bundleSHA : Str := []
  className : Str := []
  version : Int := 0
deriving DecidableEq, Repr

structure Instance where
  id : Str
  params : Bytes
  status : Status
  output : Option Bytes := none
  error : Str := []
  createdMs : Int
  updatedMs : Int
  runToken : Str := []
  leaseUntilMs : Int := 0
  generation : UInt64 := 0
  target : Target := {}
deriving DecidableEq, Repr

structure Step where
  instanceId : Str
  name : Str
  result : Bytes
deriving DecidableEq, Repr

structure Attempt where
  instanceId : Str
  name : Str
  attempts : Int
  lastError : Str
deriving DecidableEq, Repr

structure EventRow where
  id : Nat
  instanceId : Str
  payload : Bytes
  createdMs : Int
  consumed : Bool := false
deriving DecidableEq, Repr

structure Wait where
  instanceId : Str
  name : Str
  deadlineMs : Int
deriving DecidableEq, Repr

def Step.key (s : Step) : Str × Str := (s.instanceId, s.name)
def Attempt.key (a : Attempt) : Str × Str := (a.instanceId, a.name)
def Wait.key (w : Wait) : Str × Str := (w.instanceId, w.name)

/-- What a timer of the cell is for: an instance, or a requested run of it (`RunOccurrence`). -/
inductive Occurrence
  | sleep (id : Str)
  | run (id request : Str)
  | schedule (slot : Str)
deriving DecidableEq, Repr

structure Token where
  kind : Kind
  dueAtMs : Int
  occurrence : Occurrence
deriving DecidableEq, Repr

def newTimer (scope : Str) (dueAtMs : Int) (kind : Kind) (occurrence : Occurrence) :
    Timer Token Occurrence :=
  ⟨⟨kind, dueAtMs, occurrence⟩, dueAtMs, kind, scope, occurrence⟩

/-- The tables of a cell; `lastEvent` is the `AUTOINCREMENT` counter of `events`. -/
structure Db where
  scope : Str
  instances : Table Instance.id
  steps : Table Step.key
  attempts : Table Attempt.key
  events : Table EventRow.id
  waits : Table Wait.key
  timers : Tables Token Occurrence
  lastEvent : Nat
deriving DecidableEq

inductive Err
  | noRows
  | staleRun
  | runActive
deriving DecidableEq, Repr

namespace Db

def new (scope : Str) : Db :=
  ⟨scope, Table.empty, Table.empty, Table.empty, Table.empty, Table.empty, Tables.empty, 0⟩

/-! ## Statements -/

def setInstance (db : Db) (id : Str) (p : Instance → Bool) (f : Instance → Instance)
    (hf : ∀ i, (f i).id = i.id) : Db :=
  { db with instances := db.instances.update (fun i => decide (i.id = id) && p i) f hf }

/-- The rows of an instance in the tables beside `instances` are deleted. -/
def clearInstance (db : Db) (id : Str) : Db :=
  { db with
    steps := db.steps.delete fun s => s.instanceId = id
    attempts := db.attempts.delete fun a => a.instanceId = id
    events := db.events.delete fun e => e.instanceId = id
    waits := db.waits.delete fun w => w.instanceId = id }

def insertTimer (db : Db) (t : Timer Token Occurrence) : Db :=
  { db with timers := db.timers.insert t }

def queueTx (db : Db) (id : Str) (due : Int) (request : Str) : Db :=
  db.insertTimer (newTimer db.scope due .workflowRun (.run id request))

def sleepTx (db : Db) (id : Str) (due : Int) : Db :=
  db.insertTimer (newTimer db.scope due .workflowSleep (.sleep id))

/-- `checkRunTx`: a run token, when there is one, is the instance's current one. -/
def checkRunTx (db : Db) (id run : Str) : Except Err Unit :=
  if run = [] then .ok ()
  else
    match db.instances.get id with
    | none => .error .staleRun
    | some i => if i.runToken = run then .ok () else .error .staleRun

def execRunCell (db : Db) (id run : Str) (stmt : Db → Db) : Except Err Db :=
  (db.checkRunTx id run).map fun _ => stmt db

/-! ## Runs -/

structure Claimed where
  token : Str
  generation : UInt64
  status : Status
  ok : Bool
deriving DecidableEq, Repr

/-- The other instances with a live run. -/
def active (db : Db) (now : Int) (id : Str) : Nat :=
  (db.instances.rows.filter fun i =>
    decide (i.status = .running) && decide (now < i.leaseUntilMs) && decide (i.id ≠ id)).length

def claimedBy (token : Str) (now ttlMs : Int) (i : Instance) : Instance :=
  { i with
    runToken := token
    leaseUntilMs := now + ttlMs
    generation := i.generation + 1
    status := .running
    updatedMs := now }

def claimRunLimited (db : Db) (now : Int) (id : Str) (ttlMs limit : Int) (token request : Str) :
    Except Err (Claimed × Db) :=
  match db.instances.get id with
  | none => .error .noRows
  | some i =>
    if i.status = .paused ∨ i.status.terminal then .ok (⟨[], i.generation, i.status, false⟩, db)
    else if now < i.leaseUntilMs then .error .runActive
    else if 0 < limit ∧ limit ≤ db.active now id then
      .ok (⟨[], i.generation, i.status, false⟩, db)
    else
      .ok (⟨token, i.generation + 1, .running, true⟩,
        (db.setInstance id (fun _ => true) (claimedBy token now ttlMs) fun _ => rfl).queueTx id
          (now + ttlMs) request)

def renewRun (db : Db) (now : Int) (id token : Str) (ttlMs : Int) : Except Err Db :=
  match db.instances.get id with
  | none => .error .staleRun
  | some i =>
    if i.runToken = token then
      .ok (db.setInstance id (fun i => i.runToken = token)
        (fun i => { i with leaseUntilMs := now + ttlMs }) fun _ => rfl)
    else .error .staleRun

def runStatus (db : Db) (id token : Str) : Except Err Status :=
  match db.instances.get id with
  | none => .error .noRows
  | some i => if token ≠ [] ∧ i.runToken ≠ token then .error .staleRun else .ok i.status

def releaseRun (db : Db) (id token : Str) : Except Err Db :=
  .ok (db.setInstance id (fun i => i.runToken = token ∨ token = [])
    (fun i => { i with leaseUntilMs := 0, runToken := [] }) fun _ => rfl)

/-! ## Retention -/

/-- The instances `ids` and all that belongs to them are deleted. -/
def deleteInstances (db : Db) (ids : List Str) : Db :=
  ids.foldl (fun db id =>
    { db.clearInstance id with instances := db.instances.delete fun i => i.id = id }) db

def pruneIds (db : Db) (beforeMs : Int) : List Str :=
  (db.instances.rows.filter fun i =>
    i.status.terminal && decide (i.updatedMs < beforeMs)).map Instance.id

def prune (db : Db) (beforeMs : Int) : Except Err Db :=
  .ok (db.deleteInstances (db.pruneIds beforeMs))

/-- One batch of `PruneRetention`; a zero window leaves its status alone. -/
def retentionIds (db : Db) (successBefore errorBefore : Int) (limit : Nat) : List Str :=
  ((db.instances.rows.filter fun i =>
    (decide (i.status = .complete) && decide (0 < successBefore) &&
        decide (i.updatedMs < successBefore)) ||
      (decide (i.status = .errored) && decide (0 < errorBefore) &&
        decide (i.updatedMs < errorBefore))).map Instance.id).take limit

def pruneRetentionBatch (db : Db) (successBefore errorBefore : Int) (limit : Nat) :
    Except Err Db :=
  .ok (db.deleteInstances (db.retentionIds successBefore errorBefore limit))

def drop (db : Db) : Except Err Db :=
  .ok { db with
    steps := Table.empty, attempts := Table.empty, events := Table.empty, waits := Table.empty
    instances := Table.empty }

/-! ## Steps, attempts, waits and events -/

def setAttempt (db : Db) (id step : Str) (attempts : Int) (lastErr run : Str) : Except Err Db :=
  db.execRunCell id run fun db =>
    { db with attempts := db.attempts.upsert ⟨id, step, attempts, lastErr⟩ }

def clearAttempt (db : Db) (id step run : Str) : Except Err Db :=
  db.execRunCell id run fun db =>
    { db with attempts := db.attempts.delete fun a => a.instanceId = id ∧ a.name = step }

def setWait (db : Db) (id step : Str) (deadlineMs : Int) : Except Err Db :=
  .ok { db with waits := db.waits.upsert ⟨id, step, deadlineMs⟩ }

def clearWait (db : Db) (id step run : Str) : Except Err Db :=
  db.execRunCell id run fun db =>
    { db with waits := db.waits.delete fun w => w.instanceId = id ∧ w.name = step }

def putStep (db : Db) (id step : Str) (result : Bytes) (run : Str) : Except Err Db :=
  db.execRunCell id run fun db => { db with steps := db.steps.insertIgnore ⟨id, step, result⟩ }

section EventType

variable (eventType : Bytes → Option Str)

def pendingEvents (db : Db) (id evType : Str) : List EventRow :=
  db.events.orderBy fun e =>
    decide (e.instanceId = id) && !e.consumed &&
      (decide (evType = []) || decide (eventType e.payload = some evType))

/-- The event is consumed and becomes the result of the step, which no longer waits. -/
def consume (db : Db) (id step : Str) (e : EventRow) : Db :=
  let db := { db with
    events := db.events.update (fun x => x.id = e.id) (fun x => { x with consumed := true })
      fun _ => rfl }
  if step = [] then db
  else
    { db with
      steps := db.steps.insertIgnore ⟨id, step, e.payload⟩
      waits := db.waits.delete fun w => w.instanceId = id ∧ w.name = step }

def consumeEventForStep (db : Db) (id step evType token : Str) :
    Except Err (Option Bytes × Db) :=
  match db.checkRunTx id token with
  | .error e => .error e
  | .ok () =>
    match (if step = [] then none else db.steps.get (id, step)) with
    | some s => .ok (some s.result, db)
    | none =>
      match (db.pendingEvents eventType id evType).head? with
      | none => .ok (none, db)
      | some e => .ok (some e.payload, db.consume id step e)

end EventType

/-! ## Instances -/

def insertQueued (db : Db) (now : Int) (id : Str) (params : Bytes) (target : Target) : Db :=
  { db with
    instances := db.instances.insertIgnore
      { id, params, status := .queued, createdMs := now, updatedMs := now, target } }

def createWithTarget (db : Db) (now : Int) (id : Str) (params : Bytes) (target : Target)
    (request : Str) : Except Err Db :=
  if (db.instances.get id).isSome then .ok db
  else .ok ((db.insertQueued now id params target).queueTx id now request)

structure BatchItem where
  id : Str
  params : Bytes
  request : Str
deriving DecidableEq, Repr

/-- Every item is queued, also one whose instance exists. -/
def createBatchWithTarget (db : Db) (now : Int) (items : List BatchItem) (target : Target) :
    Except Err Db :=
  .ok (items.foldl (fun db item =>
    (db.insertQueued now item.id item.params target).queueTx item.id now item.request) db)

/-- The row `SetStatus` writes: a status other than running ends the run. -/
def withStatus (now : Int) (status : Status) (errText : Str) (i : Instance) : Instance :=
  { i with
    status
    error := errText
    updatedMs := now
    runToken := if status ≠ .running then [] else i.runToken
    leaseUntilMs := if status ≠ .running then 0 else i.leaseUntilMs }

def setStatus (db : Db) (now : Int) (id : Str) (status : Status) (errText run : Str) :
    Except Err Db :=
  db.execRunCell id run fun db =>
    db.setInstance id (fun _ => true) (withStatus now status errText) fun _ => rfl

def delete (db : Db) (id : Str) : Except Err Db :=
  if (db.instances.get id).isSome then .ok (db.deleteInstances [id]) else .ok db

def withOutput (now : Int) (output : Bytes) (i : Instance) : Instance :=
  { i with
    status := .complete, output := some output, updatedMs := now, runToken := [], leaseUntilMs := 0 }

def setOutput (db : Db) (now : Int) (id : Str) (output : Bytes) (run : Str) : Except Err Db :=
  db.execRunCell id run fun db =>
    db.setInstance id (fun _ => true) (withOutput now output) fun _ => rfl

def pause (db : Db) (now : Int) (id : Str) : Except Err Db := db.setStatus now id .paused [] []

def terminate (db : Db) (now : Int) (id : Str) : Except Err Db :=
  db.setStatus now id .terminated [] []

/-- The run token and the lease stay. -/
def resume (db : Db) (now : Int) (id request : Str) : Except Err Db :=
  .ok ((db.setInstance id (fun _ => true)
    (fun i => { i with status := .queued, updatedMs := now }) fun _ => rfl).queueTx id now request)

def restarted (now : Int) (i : Instance) : Instance :=
  { i with
    status := .queued, output := none, error := [], updatedMs := now, runToken := []
    leaseUntilMs := 0 }

def restart (db : Db) (now : Int) (id request : Str) : Except Err Db :=
  .ok (((db.clearInstance id).setInstance id (fun _ => true) (restarted now) fun _ => rfl).queueTx
    id now request)

/-- The event is recorded, also for a missing instance, and wakes a sleeping one. -/
def appendEvent (db : Db) (now : Int) (id : Str) (payload : Bytes) (request : Str) :
    Except Err Db :=
  let db := { db with
    events := db.events.insertIgnore ⟨db.lastEvent + 1, id, payload, now, false⟩
    lastEvent := db.lastEvent + 1 }
  .ok ((db.setInstance id (fun i => i.status = .sleeping) (fun i => { i with status := .queued })
    fun _ => rfl).queueTx id now request)

/-! ## Parking -/

def parked (now : Int) (status : Status) (i : Instance) : Instance :=
  { i with status, runToken := [], leaseUntilMs := 0, updatedMs := now }

/-- The run token a park carries, when it carries one, is the current one. -/
def parkCheck (db : Db) (id token : Str) : Except Err Unit :=
  match db.instances.get id with
  | none => .error .noRows
  | some i => if token ≠ [] ∧ i.runToken ≠ token then .error .staleRun else .ok ()

def parkSleep (db : Db) (now : Int) (id token : Str) (due : Int) : Except Err Db :=
  (db.parkCheck id token).map fun _ =>
    (db.sleepTx id due).setInstance id (fun _ => true) (parked now .sleeping) fun _ => rfl

/-- The deadline of a wait: the first one recorded for the step stays. -/
def waitDeadline (db : Db) (id step : Str) (deadline : Int) : Int :=
  ((db.waits.get (id, step)).map Wait.deadlineMs).getD deadline

def parkWait (eventType : Bytes → Option Str) (db : Db) (now : Int)
    (id step token evType : Str) (deadline : Int) (request : Str) : Except Err Db :=
  (db.parkCheck id token).map fun _ =>
    let deadline := db.waitDeadline id step deadline
    let pending := db.pendingEvents eventType id evType ≠ []
    let db := { db with waits := db.waits.insertIgnore ⟨id, step, deadline⟩ }
    let db := if pending then db.queueTx id now request else db
    let db := if 0 < deadline then db.sleepTx id deadline else db
    db.setInstance id (fun _ => true)
      (parked now (if pending then .queued else .sleeping)) fun _ => rfl

/-- `SkipWake`: a wake for a missing or finished instance, or a requested run of one that parked. -/
def skipWake (db : Db) (id : Str) (kind : Kind) : Bool :=
  match db.instances.get id with
  | none => true
  | some i => i.status.terminal || (decide (kind = .workflowRun) && decide (i.status = .sleeping))

end Db

end CellHive.Workflow
