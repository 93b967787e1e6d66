import CellHive.Go.Bytes
import CellHive.Sql.Table

/-!
# The queue store

The tables of a queue's cell and the calls of `queue.Store`, each one transaction. Strings are
byte strings. What a call draws from outside is an argument: its reading of the clock, the random
ids of the rows it may insert, the generation of the queue's resource, and whether the source of a
transfer is still the one it was taken from. `Env` has the library functions whose text is not
part of this package.

A fingerprint is the hash of body, content type and metadata; it is these three here.
-/

namespace CellHive.Queue

open Go Sql

def ascii (s : String) : Bytes := s.toList.map fun c => UInt8.ofNat c.toNat

structure Env (μ : Type) where
  /-- `strings.ToLower(strings.TrimSpace(v))` -/
  lowerTrim : Bytes → Bytes
  /-- One JSON value and nothing behind it. -/
  decodeMetadata : Bytes → Option μ
  null : μ

structure Fingerprint (μ : Type) where
  body : Bytes
  contentType : Bytes
  metadata : μ
deriving DecidableEq, Repr

/-- A row of `messages`; an absent key or metadata is empty. -/
structure Message where
  id : Bytes
  body : Bytes
  contentType : Bytes
  visibleAtMs : Int
  attempts : Int := 0
  leaseUntilMs : Int := 0
  idempotencyKey : Bytes
  metadata : Bytes
  createdMs : Int
  sourceQueue : Bytes
  sourceGeneration : Bytes
  sourceID : Bytes
  sourceAttempts : Int
  sourceCreatedMs : Int
  producerRequestID : Bytes
  producerTraceparent : Bytes
deriving DecidableEq, Repr

structure Receipt (μ : Type) where
  key : Bytes
  messageID : Bytes
  fingerprint : Fingerprint μ
  expiresMs : Int
deriving DecidableEq, Repr

structure Db (μ : Type) where
  messages : Table Message.id
  idempotency : Table (Receipt.key (μ := μ))
deriving DecidableEq

def Db.new (μ : Type) : Db μ := ⟨Table.empty, Table.empty⟩

structure SendMessage where
  body : Bytes
  contentType : Bytes := []
  delaySeconds : Int := 0
  idempotencyKey : Bytes := []
  metadata : Bytes := []
  producerRequestID : Bytes := []
  producerTraceparent : Bytes := []
  sourceQueue : Bytes := []
  sourceGeneration : Bytes := []
  sourceID : Bytes := []
  sourceAttempts : Int := 0
  sourceCreatedMs : Int := 0
deriving DecidableEq, Repr

inductive Err
  | invalidContentType (contentType : Bytes)
  | invalidDelay
  | messageTooLarge
  | producerContext
  | invalidMetadata
  | conflict (key : Bytes)
  | duplicateID
  | transferSource
  | resourceDeleted
  | ackCount
  | messageID
  | sourceCleanup
  | legacySource (count : Nat)
deriving DecidableEq, Repr

def idempotencyTTL : Int := 24 * 60 * 60 * 1000

section Send

variable {μ : Type} (env : Env μ)

def normalizeContentType (v : Bytes) : Bytes :=
  let v := env.lowerTrim v
  if v = [] ∨ v = ascii "application/json" then ascii "json"
  else if v = ascii "text/plain" then ascii "text"
  else if v = ascii "application/octet-stream" then ascii "bytes"
  else v

def messageFingerprint (m : SendMessage) : Except Err (Fingerprint μ) :=
  let contentType := normalizeContentType env m.contentType
  if m.metadata = [] then .ok ⟨m.body, contentType, env.null⟩
  else
    match env.decodeMetadata m.metadata with
    | some metadata => .ok ⟨m.body, contentType, metadata⟩
    | none => .error .invalidMetadata

def checkMessage (m : SendMessage) : Except Err Unit :=
  let contentType := normalizeContentType env m.contentType
  if contentType ∉ [ascii "json", ascii "text", ascii "bytes", ascii "v8"] then
    .error (.invalidContentType contentType)
  else if m.delaySeconds < 0 ∨ 86400 < m.delaySeconds then .error .invalidDelay
  else if 128 * 1024 < m.body.length then .error .messageTooLarge
  else if 160 < m.producerRequestID.length ∨ 256 < m.producerTraceparent.length then
    .error .producerContext
  else (messageFingerprint env m).map fun _ => ()

def sendKey (key : Bytes) : Bytes := ascii "send:" ++ key

def transferKey (sourceGeneration transferID : Bytes) : Bytes :=
  if sourceGeneration ≠ [] then ascii "transfer:" ++ sourceGeneration ++ ascii ":" ++ transferID
  else ascii "transfer:" ++ transferID

/-- The key of the receipt of a message; a send without an idempotency key has none. -/
def ledgerKey (transferID : Bytes) (m : SendMessage) : Bytes :=
  if transferID ≠ [] then transferKey m.sourceGeneration transferID
  else if m.idempotencyKey ≠ [] then sendKey m.idempotencyKey
  else []

/-- Where and when a batch is sent; a transfer has the id of the message it moves. -/
structure Delivery where
  name : Bytes
  generation : Bytes
  now : Int
  transferID : Bytes := []
deriving DecidableEq, Repr

/-- The row of a new message; its own queue is the source of a message that is sent. -/
def newMessage (d : Delivery) (m : SendMessage) (id : Bytes) : Message where
  id := id
  body := m.body
  contentType := normalizeContentType env m.contentType
  visibleAtMs := d.now + m.delaySeconds * 1000
  idempotencyKey := m.idempotencyKey
  metadata := m.metadata
  createdMs := d.now
  sourceQueue := if d.transferID = [] then d.name else m.sourceQueue
  sourceGeneration := if d.transferID = [] then d.generation else m.sourceGeneration
  sourceID := if d.transferID = [] then id else m.sourceID
  sourceAttempts := m.sourceAttempts
  sourceCreatedMs := if d.transferID = [] then d.now else m.sourceCreatedMs
  producerRequestID := m.producerRequestID
  producerTraceparent := m.producerTraceparent

structure Inserted where
  key : Bytes
  sent : SendMessage
  row : Message
deriving DecidableEq, Repr

/-- The transaction of a batch on its way, with the ids so far. -/
structure Batch (μ : Type) where
  db : Db μ
  ids : List Bytes
  inserted : List Inserted

variable [DecidableEq μ]

def sendOne (d : Delivery) (b : Batch μ) (m : SendMessage) (id : Bytes) : Except Err (Batch μ) :=
  match messageFingerprint env m with
  | .error e => .error e
  | .ok fingerprint =>
    let key := ledgerKey d.transferID m
    match (if key = [] then none else b.db.idempotency.get key) with
    | some old =>
      if old.fingerprint ≠ fingerprint then .error (.conflict m.idempotencyKey)
      else .ok { b with ids := b.ids ++ [old.messageID] }
    | none =>
      if (b.db.messages.get id).isSome then .error .duplicateID
      else
        let row := newMessage env d m id
        let receipts :=
          if key = [] then b.db.idempotency
          else b.db.idempotency.insertIgnore ⟨key, id, fingerprint, d.now + idempotencyTTL⟩
        .ok ⟨⟨b.db.messages.insertIgnore row, receipts⟩, b.ids ++ [id], b.inserted ++ [⟨key, m, row⟩]⟩

def sendAll (d : Delivery) : Batch μ → List (SendMessage × Bytes) → Except Err (Batch μ)
  | b, [] => .ok b
  | b, (m, id) :: rest =>
    match sendOne env d b m id with
    | .error e => .error e
    | .ok b' => sendAll d b' rest

/-- Receipts that have expired go first. -/
def Db.expire (db : Db μ) (now : Int) : Db μ :=
  { db with idempotency := db.idempotency.delete fun r => r.expiresMs ≤ now }

/-- `sendBatch`; `validate` is the check of a transfer's source inside the transaction. -/
def Db.sendBatch (db : Db μ) (d : Delivery) (items : List (SendMessage × Bytes))
    (validate : Except Err Unit) : Except Err (Batch μ) :=
  if items = [] then .ok ⟨db, [], []⟩
  else
    match items.mapM fun item => checkMessage env item.1 with
    | .error e => .error e
    | .ok _ =>
      match validate with
      | .error e => .error e
      | .ok () => sendAll env d ⟨db.expire d.now, [], []⟩ items

/-- The message a transfer sends: the original producer key stays message data. -/
def transferred (m : Message) : SendMessage where
  body := m.body
  contentType := m.contentType
  idempotencyKey := m.idempotencyKey
  metadata := m.metadata
  producerRequestID := m.producerRequestID
  producerTraceparent := m.producerTraceparent
  sourceQueue := m.sourceQueue
  sourceGeneration := m.sourceGeneration
  sourceID := m.sourceID
  sourceAttempts := m.sourceAttempts
  sourceCreatedMs := m.sourceCreatedMs

/-- `Transfer` at `now`, with the random id of the row it may insert; `current` says whether the
source queue still has the generation of the message. -/
def Db.transfer (db : Db μ) (name generation : Bytes) (now : Int) (m : Message) (id : Bytes)
    (current : Bool) : Except Err (Batch μ) :=
  if m.id = [] then .error .transferSource
  else
    db.sendBatch env ⟨name, generation, now, m.id⟩ [(transferred m, id)]
      (if current then .ok () else .error .resourceDeleted)

end Send

/-! ## Consumers -/

section Consume

variable {μ : Type}

def claimable (now : Int) (m : Message) : Bool :=
  decide (m.visibleAtMs ≤ now) && decide (m.leaseUntilMs ≤ now)

def claimedBy (lease : Int) (m : Message) : Message :=
  { m with leaseUntilMs := lease, attempts := m.attempts + 1 }

def Db.selectClaim (db : Db μ) (now limit : Int) : List Message :=
  let limit : Int := if limit ≤ 0 ∨ 100 < limit then 10 else limit
  ((db.messages.rows.filter (claimable now)).insertionSort fun a b =>
    a.visibleAtMs < b.visibleAtMs ∨ (a.visibleAtMs = b.visibleAtMs ∧ a.id ≤ b.id)).take limit.toNat

def Db.claim (db : Db μ) (now limit leaseMs : Int) : List Message × Db μ :=
  let lease := now + if leaseMs ≤ 0 then 30000 else leaseMs
  let found := db.selectClaim now limit
  (found.map (claimedBy lease),
    { db with
      messages := db.messages.update (fun m => decide (m.id ∈ found.map Message.id))
        (claimedBy lease) fun _ => rfl })

def Db.ackMany (db : Db μ) (ids : List Bytes) : Except Err (Db μ) :=
  if ids = [] ∨ 100 < ids.length then .error .ackCount
  else if ∃ id ∈ ids, id = [] ∨ 256 < id.length then .error .messageID
  else .ok { db with messages := db.messages.delete fun m => decide (m.id ∈ ids) }

def Db.retry (db : Db μ) (now : Int) (id : Bytes) (delayMs : Int) : Db μ :=
  { db with
    messages := db.messages.update (fun m => decide (m.id = id))
      (fun m => { m with visibleAtMs := now + delayMs, leaseUntilMs := 0 }) fun _ => rfl }

def Db.purge (db : Db μ) : Db μ := { db with messages := Table.empty }

/-- `RemoveSource`; messages without a source keep it from running. -/
def Db.removeSource (db : Db μ) (name source : Bytes) (generation : Option Bytes) :
    Except Err (Db μ) :=
  if source = [] ∨ source = name then .error .sourceCleanup
  else
    let legacy := (db.messages.rows.filter fun m => decide (m.sourceQueue = [])).length
    if 0 < legacy then .error (.legacySource legacy)
    else
      .ok { db with
        messages := db.messages.delete fun m =>
          decide (m.sourceQueue = source) &&
            generation.all fun g => decide (m.sourceGeneration = g) }

end Consume

end CellHive.Queue
