import CellHive.Control.Hosts
import CellHive.Go.Bytes

/-!
# Versions and their secrets

The rows of one worker in the control cell, and the transactions that allocate a version, select
one or change the secrets (`internal/control/store.go`, `secret_versions.go`). Every statement of
them selects on the namespace and the worker, so the rows are grouped by worker.

The derived tables (bindings, bundle references, deployment events, audit, purge jobs) are left
out. What `Seal` returns, the clock, a new storage id, the fingerprint of a request and the row of
`delete_locks` are arguments.
-/

namespace CellHive.Control

open Go

structure Binding where
  type : Str
  name : Str
  id : Str
  className : Str
  entrypoint : Str
  version : Str
deriving DecidableEq, Repr

structure Consumer where
  queue : Str
  maxRetries : Int
  retryDelaySeconds : Int
  maxBatchTimeoutSeconds : Int
  maxBatchSize : Int
  maxConcurrency : Int
deriving DecidableEq, Repr

structure Limits where
  subRequests : Option Int
  cpuMs : Option Int
deriving DecidableEq, Repr

/-- The columns of a version that come from the request. -/
structure Settings where
  bundleSHA : Str
  assetsSHA : Str := []
  bindings : List Binding := []
  vars : List (Str × Str) := []
  consumers : List Consumer := []
  crons : List Str := []
  assets : Option Str := none
  compatDate : Str := []
  compatFlags : List Str := []
  limits : Option Limits := none
  sessionPolicy : Str := []
deriving DecidableEq, Repr

structure DeploySpec where
  settings : Settings
  stageOnly : Bool := false
  idempotencyKey : Str := []
deriving DecidableEq, Repr

structure Version where
  number : Nat
  settings : Settings
  storageID : Str
  createdMs : Int
  actor : Str
deriving DecidableEq, Repr

structure Sealed where
  wrapped : Bytes
  ciphertext : Bytes
deriving DecidableEq, Repr

/-- A row of `secrets` or `version_secrets`. -/
structure Secret where
  key : Str
  value : Sealed
  updatedMs : Int
deriving DecidableEq, Repr

structure Worker where
  active : Nat := 0
  previous : Nat := 0
  storageID : Str := []
  deletedMs : Int := 0
deriving DecidableEq, Repr

/-- The rows of one worker. -/
structure Record where
  worker : Option Worker := none
  versions : List Version := []
  versionSecrets : Nat → List Secret := fun _ => []
  secrets : List Secret := []
  deploys : Str → Option (Nat × Str) := fun _ => none
  rollbacks : Str → Option (Nat × Nat) := fun _ => none

def maxConsumerConcurrency : Int := 100

def Consumer.valid (c : Consumer) : Bool :=
  !(c.maxRetries < 0 || c.retryDelaySeconds < 0 || c.maxBatchTimeoutSeconds < 0 ||
    60 < c.maxBatchTimeoutSeconds || c.maxBatchSize < 0 || 100 < c.maxBatchSize ||
    c.maxConcurrency < 0 || maxConsumerConcurrency < c.maxConcurrency)

def checkSpec (worker : Str) (spec : DeploySpec) : Except Err Unit :=
  if worker = [] ∨ spec.settings.bundleSHA = [] then
    .error (.errorf "control: worker and bundle sha are required")
  else if ((spec.settings.limits.bind Limits.subRequests).any (· ≤ 0)) then
    .error (.errorf "control: limits.subrequests must be positive")
  else if ((spec.settings.limits.bind Limits.cpuMs).any (· ≤ 0)) then
    .error (.errorf "control: limits.cpuMs must be positive")
  else
    match spec.settings.consumers.find? (!·.valid) with
    | some c =>
      let queue := String.ofList c.queue
      .error (.errorf s!"control: invalid queue consumer settings for {queue}")
    | none => .ok ()

/-- `INSERT INTO .. ON CONFLICT DO UPDATE` of a secret. -/
def putRow (rows : List Secret) (x : Secret) : List Secret :=
  if rows.any (·.key = x.key) then rows.map fun y => if y.key = x.key then x else y else rows ++ [x]

def deleteRow (rows : List Secret) (key : Str) : List Secret := rows.filter (·.key ≠ key)

namespace Record

variable (r : Record)

/-- `SELECT COALESCE(MAX(number),0)` -/
def maxNumber : Nat := (r.versions.map Version.number).foldl max 0

def getVersion (n : Nat) : Option Version := r.versions.find? (·.number = n)

/-- `INSERT INTO version_secrets .. SELECT`, which fails on a key that is there. -/
def insertVersionSecrets (n : Nat) (rows : List Secret) : Except Err Record :=
  if rows.any fun x => (r.versionSecrets n).any (·.key = x.key) then .error .constraint
  else
    .ok { r with
      versionSecrets := Function.update r.versionSecrets n (r.versionSecrets n ++ rows) }

def snapshotCurrentSecrets (n : Nat) : Except Err Record := r.insertVersionSecrets n r.secrets

def restoreVersionSecrets (n : Nat) : Record := { r with secrets := r.versionSecrets n }

def publishSecretChange (now : Int) (actor : Str) : Except Err Record :=
  match r.worker with
  | none => .ok r
  | some w =>
    -- a secret of a worker that is not deployed is captured by its first deploy
    if w.deletedMs ≠ 0 ∨ w.active = 0 then .ok r
    else
      let next := r.maxNumber + 1
      match r.getVersion w.active with
      | none => .error .noVersion
      | some v =>
        snapshotCurrentSecrets
          { r with
            versions := r.versions ++ [{ v with number := next, createdMs := now, actor := actor }]
            worker := some { w with active := next, previous := w.active } } next

/-- The version an idempotency key stands for. -/
def deployed (key fingerprint : Str) : Except Err (Option Version) :=
  if key = [] then .ok none
  else
    match r.deploys key with
    | none => .ok none
    | some (n, fp) => if fp ≠ [] ∧ fp ≠ fingerprint then .error .idempotencyConflict
        else .ok (r.getVersion n)

/-- What a deploy is given beside the request: the row of its app, the row of `delete_locks`, the
bindings after pinning, the clock, a new storage id and the fingerprint of the request. -/
structure DeployEnv where
  app : Option Int
  deleteLock : Option Int
  bindings : List Binding
  now : Int
  storageID : Str
  fingerprint : Str

def deploy (e : DeployEnv) (name : Str) (spec : DeploySpec) (actor : Str) : Except Err Record :=
  match r.deployed spec.idempotencyKey e.fingerprint with
  | .error err => .error err
  | .ok (some _) => .ok r
  | .ok none =>
    let text := String.ofList name
    if e.deleteLock.any (e.now < ·) then
      .error (.errorf s!"control: worker {text} has a delete in progress")
    else if spec.stageOnly ∧ e.app ≠ some 0 then .error .notFound
    else if spec.stageOnly ∧ (e.app.any (0 < ·) ∨ r.worker.any (0 < ·.deletedMs)) then
      .error (.errorf "control: cannot stage a deleted worker or app")
    else
      let w := r.worker.getD {}
      let storageID := if w.storageID = [] then e.storageID else w.storageID
      let next := r.maxNumber + 1
      let v : Version := ⟨next, { spec.settings with bindings := e.bindings }, storageID, e.now,
        actor⟩
      snapshotCurrentSecrets
        { r with
          versions := r.versions ++ [v]
          worker := some <|
            if spec.stageOnly then { w with storageID := storageID }
            -- a deploy resurrects a deleted worker
            else { active := next, previous := w.active, storageID := storageID, deletedMs := 0 }
          deploys :=
            if spec.idempotencyKey = [] then r.deploys
            else Function.update r.deploys spec.idempotencyKey (some (next, e.fingerprint)) } next

def promote (version : Nat) : Except Err Record :=
  match r.getVersion version with
  | none => .error .noVersion
  | some _ =>
    match r.worker with
    | none => .error .notFound
    | some w =>
      if w.active = version then .ok r
      else
        .ok (restoreVersionSecrets
          { r with worker := some { w with active := version, previous := w.active } } version)

def rollbackWithKey (key : Str) : Except Err Record :=
  if 256 < (key.flatMap String.utf8EncodeChar).length then
    .error (.errorf "control: rollback idempotency key exceeds 256 bytes")
  else if key ≠ [] ∧ (r.rollbacks key).isSome then .ok r
  else
    match r.worker with
    | none => .error .notFound
    | some w =>
      if w.previous = 0 then .error .noPrevious
      else
        .ok (restoreVersionSecrets
          { r with
            worker := some { w with active := w.previous, previous := w.active }
            rollbacks :=
              if key = [] then r.rollbacks
              else Function.update r.rollbacks key (some (w.previous, w.active)) } w.previous)

def putSecret (env : Bool) (worker key : Str) (value : Sealed) (now : Int) (actor : Str) :
    Except Err Record :=
  if env = false then .error .noEnvelope
  else if worker = [] ∨ key = [] then .error (.errorf "control: worker and key are required")
  else publishSecretChange { r with secrets := putRow r.secrets ⟨key, value, now⟩ } now actor

def deleteSecret (key : Str) (now : Int) (actor : Str) : Except Err Record :=
  if r.secrets.any (·.key = key) then
    publishSecretChange { r with secrets := deleteRow r.secrets key } now actor
  else .ok r

/-- One entry of a merge patch; no value removes the key. -/
def patchRow (now : Int) (rows : List Secret) (change : Str × Option Sealed) : List Secret :=
  match change.2 with
  | none => deleteRow rows change.1
  | some value => putRow rows ⟨change.1, value, now⟩

/-- Whether a patch puts a secret or deletes one that is there. -/
def patchChanges (now : Int) : List Secret → List (Str × Option Sealed) → Bool
  | _, [] => false
  | rows, change :: changes =>
    (change.2.isSome || rows.any (·.key = change.1)) ||
      patchChanges now (patchRow now rows change) changes

def patchSecrets (env : Bool) (worker : Str) (changes : List (Str × Option Sealed)) (now : Int)
    (actor : Str) :
    Except Err Record :=
  if env = false then .error .noEnvelope
  else if worker = [] ∨ changes = [] ∨ 100 < changes.length then
    .error (.errorf "control: secret bulk requires worker and 1 to 100 entries")
  else if changes.any (·.1 = []) then .error (.errorf "control: secret key is required")
  else if patchChanges now r.secrets changes then
    publishSecretChange { r with secrets := changes.foldl (patchRow now) r.secrets } now actor
  else .ok r

def stageSecretChanges (env : Bool) (app deleteLock : Option Int) (worker : Str)
    (changes : List (Str × Option Sealed)) (now : Int) (actor : Str) : Except Err Record :=
  if worker = [] ∨ changes = [] ∨ 100 < changes.length then
    .error (.errorf "control: require worker and 1 to 100 secret changes")
  else if env = false then .error .noEnvelope
  else if changes.any (·.1 = []) then .error (.errorf "control: secret name is required")
  else
    let latest := r.maxNumber
    if latest = 0 then .error .noVersion
    else if r.worker.any (0 < ·.deletedMs) ∨ app.any (0 < ·) ∨ deleteLock.any (now < ·) then
      .error (.errorf "control: worker deletion in progress")
    else
      let next := latest + 1
      match r.getVersion latest with
      | none => .error .noVersion
      | some v =>
        match insertVersionSecrets
          { r with
            versions := r.versions ++
              [{ v with number := next, createdMs := now, actor := actor }] }
          next (r.versionSecrets latest) with
        | .error e => .error e
        | .ok r' =>
          .ok { r' with
            versionSecrets :=
              Function.update r'.versionSecrets next
                (changes.foldl (patchRow now) (r'.versionSecrets next)) }

end Record

end CellHive.Control
