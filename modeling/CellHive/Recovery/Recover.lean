import CellHive.Recovery.World

/-!
# Recovering a session

`internal/recovery/recovery.go` and `batch.go`, with the parts of `nodelog.go` and
`replica.go` they call, as programs over the shared state. A recoverer fences the record,
freezes the log of every follower, copies each log from the stored checkpoint on in batches,
stores a checkpoint behind each page, and seals the record at last.
-/

namespace CellHive.Recovery

open Go Ltx Bucket Concurrent Prog NodeLog Cell Replica Replica.Manager

def text (b : Bytes) : String := String.ofList (b.map fun x => Char.ofNat x.toNat)

/-! ## Publishing segments -/

/-- What `putImmutableSegment` does behind a fence: an object it created itself goes. -/
def cleanUp (key : ObjectKey) (created : Option Nat) : Prog ops Err :=
  match created with
  | none => return .sentinel .resourceDeleted
  | some tag => do
    match ← ask (.delete key tag) with
    | .ok _ => return .sentinel .resourceDeleted
    | .error e =>
      if e.is .bucketPrecondition ∨ e.is .bucketNotFound then return .sentinel .resourceDeleted
      else return .wrap "late publication cleanup" (.sentinel .resourceDeleted)

/-- Creates an object, or finds it with the same bytes; the etag is that of a new object. -/
def createSegment (key : ObjectKey) (data : Bytes) : Prog ops (Res (Option Nat)) := do
  match ← ask (.create key data) with
  | .ok tag => return .ok (some tag)
  | .error e =>
    if e.is .bucketPrecondition then
      match ← ask (.get key) with
      | .error e => return .error e
      | .ok (old, _) =>
        if old ≠ data then
          return .error (.wrap s!"replica: conflicting segment at {String.ofList key.name}"
            (.sentinel .bucketPrecondition))
        else return .ok none
    else return .error e

def putImmutableSegment (key : ObjectKey) (data : Bytes) : Prog ops (Res Unit) := do
  match ← createSegment key data with
  | .error e => return .error e
  | .ok created =>
    match ← ask (.readFence key.scope true) with
    | .error e => return .error e
    | .ok f =>
      if Fence.blocks f key.epoch then
        let e ← cleanUp key created
        return .error e
      else return .ok ()

def guarded (scope : Scope) (epoch : UInt64) (write : Prog ops (Res Unit)) :
    Prog ops (Res Unit) := do
  match ← ask (.readFence scope false) with
  | .error e => return .error e
  | .ok f =>
    if Fence.blocks f epoch then return .error (.sentinel .resourceDeleted) else write

def append (scope : Scope) (epoch : UInt64) (segment : Bytes) : Prog ops (Res Unit) :=
  guarded scope epoch <|
    match acceptSegment "segment" "segment" epoch segment with
    | .error e => return .error e
    | .ok h => putImmutableSegment ⟨scope, epoch, segmentName h⟩ segment

def appendBatch (scope : Scope) (epoch : UInt64) (segments : List Bytes) : Prog ops (Res Unit) :=
  guarded scope epoch <|
    if segments = [] then return .error (.errorf "replica: empty batch")
    else
      match segments.mapM (acceptSegment "segment in batch" "segment" epoch) with
      | .error e => return .error e
      | .ok headers => putImmutableSegment ⟨scope, epoch, groupName headers⟩ segments.flatten

/-! ## Batches -/

structure RecoveryBatch where
  scope : Scope := ⟨[], [], []⟩
  epoch : UInt64 := 0
  last : UInt64 := 0
  segments : List Bytes := []
  bytes : Nat := 0
  uploaded : Nat := 0

namespace RecoveryBatch

def flush (b : RecoveryBatch) : Prog ops (RecoveryBatch × Option Err) :=
  if b.segments = [] then return (b, none)
  else do
    match ← appendBatch b.scope b.epoch b.segments with
    | .ok _ =>
      return ({ b with uploaded := b.uploaded + b.segments.length, segments := [], bytes := 0 }, none)
    | .error e =>
      if e.is .resourceDeleted then return ({ b with segments := [], bytes := 0 }, none)
      else return (b, some e)

/-- A segment that cannot join the open run. -/
def splits (b : RecoveryBatch) (scope : Scope) (epoch : UInt64) (h : Header) (raw : Bytes) : Bool :=
  decide (b.segments ≠ []) &&
    (decide (scope ≠ b.scope) || decide (epoch ≠ b.epoch) || decide (h.kind ≠ kindDelta) ||
      decide (b.last = UInt64.ofNat (2 ^ 64 - 1)) || decide (h.startTxID ≠ b.last + 1) ||
      decide (64 ≤ b.segments.length) || decide (2 ^ 20 < b.bytes + raw.length))

def push (b : RecoveryBatch) (scope : Scope) (epoch : UInt64) (h : Header) (raw : Bytes) :
    RecoveryBatch :=
  { b with
    scope, epoch
    last := h.endTxID
    segments := b.segments ++ [raw]
    bytes := b.bytes + raw.length }

/-- A run that is written at once: it ends in an object with a name of its own, or is full. -/
def full (b : RecoveryBatch) (h : Header) : Bool :=
  decide (h.kind ≠ kindDelta) || decide (64 ≤ b.segments.length) || decide (2 ^ 20 ≤ b.bytes)

/-- The last part of `add`. -/
def join (b : RecoveryBatch) (scope : Scope) (epoch : UInt64) (h : Header) (raw : Bytes) :
    Prog ops (RecoveryBatch × Option Err) :=
  let b := b.push scope epoch h raw
  if b.full h then b.flush else return (b, none)

def add (b : RecoveryBatch) (scope : Scope) (epoch : UInt64) (raw : Bytes) :
    Prog ops (RecoveryBatch × Option Err) :=
  match decode raw with
  | .error e => return (b, some e)
  | .ok (h, _) =>
    if b.splits scope epoch h raw then do
      match ← b.flush with
      | (b, some e) => return (b, some e)
      | (b, none) => b.join scope epoch h raw
    else b.join scope epoch h raw

/-- The loop over the segments of a frame. -/
def addAll (scope : Scope) (epoch : UInt64) :
    List Bytes → RecoveryBatch → Prog ops (RecoveryBatch × Option Err)
  | [], b => return (b, none)
  | raw :: rest, b => do
    match ← b.add scope epoch raw with
    | (b, some e) => return (b, some e)
    | (b, none) => addAll scope epoch rest b

end RecoveryBatch

/-! ## The node log -/

def getRecord : Prog ops (Res (Option (Record × Nat))) := do
  match ← ask .getRecord with
  | .ok x => return .ok (some x)
  | .error e => if e.is .bucketNotFound then return .ok none else return .error e

def needRecord : Prog ops (Res (Record × Nat)) := do
  match ← getRecord with
  | .error e => return .error e
  | .ok none => return .error (.errorf "nodelog: not found")
  | .ok (some x) => return .ok x

def sessionClosed : Err := .errorf "nodelog: session already closed"

def setRecovering : Prog ops (Res Unit) := do
  match ← needRecord with
  | .error e => return .error e
  | .ok (r, tag) =>
    if r.status = .sealed then return .error sessionClosed
    else ask (.casRecord { r with status := .recovering } tag)

def sealCovered (covered : ByAddress Nat) : Prog ops (Res Unit) := do
  match ← needRecord with
  | .error e => return .error e
  | .ok (r, tag) => ask (.casRecord { r with status := .sealed, coveredSeq := covered } tag)

/-- The loop of `Checkpoint`, with the attempts that are left. -/
def checkpointFrom (follower : Str) (after : Nat) : Nat → Prog ops (Res Unit)
  | 0 => return .error (.sentinel .bucketPrecondition)
  | attempts + 1 => do
    match ← needRecord with
    | .error e => return .error e
    | .ok (r, tag) =>
      if r.status = .sealed ∨ after ≤ r.progressOf follower then return .ok ()
      else if r.status ≠ .recovering then return .error sessionClosed
      else
        match ← ask (.casRecord { r with progress := r.progress.insert follower after } tag) with
        | .ok _ => return .ok ()
        | .error e =>
          if e.is .bucketPrecondition then checkpointFrom follower after attempts
          else return .error e

def checkpoint (follower : Str) (after : Nat) : Prog ops (Res Unit) :=
  checkpointFrom follower after 8

/-! ## Followers -/

def holder (r : Record) (follower : Str) : Option Holder :=
  if r.protoVersion ≠ .identity then some (.address follower)
  else
    match r.followerRefs.lookup follower with
    | none => none
    | some id => if id.node = [] ∨ id.inst = [] then none else some (.identity id)

/-- `follower`; `resolver` says whether the manager has leases. -/
def follower (resolver : Bool) (r : Record) (addr : Str) : Prog ops (Res Holder) :=
  match holder r addr with
  | none =>
    return .error (.errorf
      s!"recovery: missing follower identity or resolver for {String.ofList addr}")
  | some (.address a) => return .ok (.address a)
  | some (.identity id) =>
    if resolver = false then
      return .error (.errorf
        s!"recovery: missing follower identity or resolver for {String.ofList addr}")
    else do
      match ← ask (.resolve id) with
      | .error e => return .error e
      | .ok _ => return .ok (.identity id)

/-- What `collectSealed` has done so far: the segments it uploaded and the followers it
covered. -/
structure Tally where
  total : Nat := 0
  covered : ByAddress Nat := ∅

def takePage (addr : Str) (final : Nat) :
    List SessionFragment → Nat → RecoveryBatch → Prog ops (RecoveryBatch × Res Nat)
  | [], after, b => return (b, .ok after)
  | x :: rest, after, b =>
    if x.sequence ≠ after + 1 ∨ final < x.sequence then
      return ({ b with uploaded := 0 }, .error (.errorf
        s!"recovery: follower {String.ofList addr} tail gap: got {x.sequence} want {after + 1}"))
    else
      match Scope.parse x.frame.scope with
      | none =>
        return ({ b with uploaded := 0 }, .error (.errorf s!"invalid scope {text x.frame.scope}"))
      | some scope => do
        match ← RecoveryBatch.addAll scope x.frame.epoch x.frame.segments b with
        | (b, some e) =>
          return (b, .error (.wrap s!"recovery: append batch {text x.frame.scope}" e))
        | (b, none) => takePage addr final rest x.sequence b

/-- One round of the loop over the tail of a follower: the uploads, and the sequence reached. -/
def tailRound (h : Holder) (addr : Str) (final after : Nat) : Prog ops (Nat × Res Nat) := do
  match ← ask (.tail h after) with
  | .error e =>
    return (0, .error (.wrap s!"recovery: tail follower {String.ofList addr} after {after}" e))
  | .ok fragments =>
    if fragments.isEmpty then
      return (0, .error (.errorf
        s!"recovery: follower {String.ofList addr} tail ended at {after} want {final}"))
    else
      match ← takePage addr final fragments after {} with
      | (b, .error e) => return (b.uploaded, .error e)
      | (b, .ok after) =>
        match ← b.flush with
        | (b, some e) => return (b.uploaded, .error (.wrap "recovery: flush batch" e))
        | (b, none) =>
          match ← checkpoint addr after with
          | .error e => return (b.uploaded, .error e)
          | .ok _ => return (b.uploaded, .ok after)

/-- The loop over the tail of a follower. Every round gets at least one frame further, so
`final - after` rounds are enough. -/
def tailLoop (h : Holder) (addr : Str) (final : Nat) : Nat → Nat → Nat → Prog ops (Nat × Option Err)
  | 0, _, total => return (total, none)
  | rounds + 1, after, total =>
    if final ≤ after then return (total, none)
    else do
      match ← tailRound h addr final after with
      | (n, .error e) => return (total + n, some e)
      | (n, .ok after) => tailLoop h addr final rounds after (total + n)

/-- A follower whose log is frozen at `final`. -/
def collectTail (r : Record) (addr : Str) (t : Tally) (h : Holder) (final : Nat) :
    Prog ops (Tally × Option Err) :=
  if final < r.progressOf addr then
    return (t, some (.errorf "recovery: follower final regressed below durable checkpoint"))
  else do
    match ← tailLoop h addr final (final - r.progressOf addr) (r.progressOf addr) t.total with
    | (total, some e) => return ({ t with total }, some e)
    | (total, none) => return (⟨total, t.covered.insert addr final⟩, none)

/-- The body of the loop of `collectSealed` over the followers. -/
def collectFollower (resolver : Bool) (r : Record) (addr : Str) (t : Tally) :
    Prog ops (Tally × Option Err) := do
  match ← follower resolver r addr with
  | .error e => return (t, some e)
  | .ok h =>
    match ← ask (.seal h) with
    | .error e => return (t, some (.wrap s!"recovery: seal follower {String.ofList addr}" e))
    | .ok final => collectTail r addr t h final

def collectFrom (resolver : Bool) (r : Record) : List Str → Tally → Prog ops (Tally × Option Err)
  | [], t => return (t, none)
  | addr :: rest, t => do
    match ← collectFollower resolver r addr t with
    | (t, some e) => return (t, some e)
    | (t, none) => collectFrom resolver r rest t

/-! ## Recovery -/

/-- What a recovery manager is built with: a transport that can seal and read session logs,
and a resolver of identities. -/
structure Manager where
  sealedSupport : Bool
  resolver : Bool

def collectSealed (m : Manager) (r : Record) : Prog ops (Tally × Option Err) :=
  if m.sealedSupport = false then
    return ({}, some (.errorf "recovery: peer transport lacks seal/tail support"))
  else collectFrom m.resolver r r.followers {}

/-- The loop of `Collect` over what a follower has spooled: the uploads, and the last error. -/
def collectHeld : List Held → Nat → Option Err → Prog ops (Nat × Option Err)
  | [], total, last => return (total, last)
  | x :: rest, total, last =>
    match Scope.parse x.scope with
    | none => collectHeld rest total (some (.errorf s!"invalid scope {text x.scope}"))
    | some scope => do
      match ← append scope x.epoch x.segment with
      | .ok _ => collectHeld rest (total + 1) last
      | .error e =>
        if e.is .resourceDeleted then collectHeld rest total last
        else collectHeld rest total (some (.wrap s!"recovery: append {text x.scope}" e))

def collectSpools : List Str → Nat → Option Err → Prog ops (Nat × Option Err)
  | [], total, last => return (total, last)
  | addr :: rest, total, last => do
    match ← ask (.held addr) with
    | .error e =>
      collectSpools rest total
        (some (.wrap s!"recovery: follower {String.ofList addr} unreachable" e))
    | .ok held =>
      match ← collectHeld held total last with
      | (total, last) => collectSpools rest total last

def collect (followers : List Str) : Prog ops (Nat × Option Err) := do
  match ← collectSpools followers 0 none with
  | (total, none) => return (total, none)
  | (total, some e) => return (total, some (.wrap "recovery: incomplete collect" e))

/-- The part of `Recover` that copies what the followers hold. -/
def copyFollowers (m : Manager) (r : Record) : Prog ops (Tally × Option Err) :=
  if r.followers = [] then return ({}, none)
  else if r.protoVersion.sessionLogs then collectSealed m r
  else do
    match ← collect r.followers with
    | (total, e) => return ({ total }, e)

/-- The last loop of `Recover`, over the followers that were covered. -/
def reclaimAll (m : Manager) (r : Record) : List Str → Prog ops Unit
  | [] => return ()
  | addr :: rest => do
    match ← follower m.resolver r addr with
    | .error _ => reclaimAll m r rest
    | .ok h =>
      let _ ← ask (.reclaim h)
      reclaimAll m r rest

def recoverFenced (m : Manager) (r : Record) : Prog ops (Nat × Option Err) := do
  match ← copyFollowers m r with
  | (t, some e) => return (t.total, some e)
  | (t, none) =>
    match ← sealCovered t.covered with
    | .error e => return (t.total, some e)
    | .ok _ =>
      reclaimAll m r t.covered.keys
      return (t.total, none)


def unsupported (v : ProtoVersion) : Option Err :=
  match v with
  | .other version =>
    some (.errorf s!"unsupported node-log protocol {(String.ofList version).quote}")
  | _ => none

def recover (m : Manager) (node session : Str) : Prog ops (Nat × Option Err) := do
  match ← getRecord with
  | .error e => return (0, some e)
  | .ok none => return (0, none)
  | .ok (some (r, _)) =>
    if r.node ≠ node ∨ r.session ≠ session then
      return (0, some (.errorf "recovery: record identity mismatch"))
    else if r.status = .sealed then return (0, none)
    else if r.protoVersion = .identity ∧
        (r.followers = [] ∨ r.followerRefs.keys.length ≠ r.followers.length) then
      return (0, some (.errorf "recovery: invalid identified ensemble"))
    else
      match ← ask .checkSession with
      | .error e => return (0, some e)
      | .ok _ =>
        match unsupported r.protoVersion with
        | some e => return (0, some e)
        | none =>
          match ← setRecovering with
          | .error e => return (0, some e)
          | .ok _ => recoverFenced m r

/-! ## Others -/

/-- The calls of a run: recoverers of the session, and those around them. The process itself
may still be shipping frames, resources may be fenced and released, and objects of a fenced
epoch may be removed. -/
inductive Call where
  | recover (m : Manager)
  | ship (h : Holder) (frames : List Frame)
  | setFence (scope : Scope) (f : Fence)
  | purge (key : ObjectKey)

/-- A cleanup job removes an object after it has seen the fence. -/
def purge (key : ObjectKey) : Prog ops Unit := do
  match ← ask (.readFence key.scope false) with
  | .error _ => return ()
  | .ok f =>
    if Fence.blocks f key.epoch then
      match ← ask (.get key) with
      | .error _ => return ()
      | .ok (_, tag) =>
        let _ ← ask (.delete key tag)
        return ()
    else return ()

def Call.prog (node session : Str) : Call → Prog ops (Nat × Option Err)
  | .recover m => Recovery.recover m node session
  | .ship h frames => do
    let _ ← ask (.ship h frames)
    return (0, none)
  | .setFence scope f => do
    let _ ← ask (.setFence scope f)
    return (0, none)
  | .purge key => do
    Recovery.purge key
    return (0, none)

end CellHive.Recovery
