import CellHive.Replica.Index
import CellHive.Replica.Names

/-!
# The replica manager's writes

`internal/replica/replica.go` and the write path of `resource_fence.go`, for one scope:
where segments, compacted objects, snapshot markers and epoch markers are stored, and
what is checked before they are.

The bucket holds bytes, except for the two JSON records the manager keeps: a manifest
stands decoded beside its epoch, the resource fence beside the scope. Etags are left
out, because every put here creates an object or leaves an equal one in place. Calls run
one after the other, so the fence read before a put and the one after it agree.
-/

namespace CellHive.Replica

open Go Ltx Bucket

/-- `Manifest`, without its creation time. -/
structure Manifest where
  epoch : UInt64
  minTxID : UInt64
  maxTxID : UInt64
  commit : UInt32
  pageSize : UInt32
  objects : List Key
  deriving DecidableEq, Repr

/-- `resourceFence`. A scope whose class cannot be deleted keeps the empty one. -/
structure Fence where
  jobID : Str := []
  deleted : Bool := false
  epoch : UInt64 := 0
  deriving DecidableEq, Repr

/-- `Manager`, with what the bucket holds of one scope. -/
structure Manager where
  scope : Key
  objects : Store
  manifests : List (UInt64 × Manifest) := []
  fence : Fence := {}
  deriving DecidableEq

/-! ## Keys -/

def ltxDir (scope : Key) : Key := scope ++ ['/', 'l', 't', 'x', '/']

def epochDir (scope : Key) (epoch : UInt64) : Key :=
  ltxDir scope ++ ('e' :: (formatUint epoch.toNat ++ ['/']))

def l1Dir (scope : Key) (epoch : UInt64) : Key := epochDir scope epoch ++ ['L', '1', '/']

def indexName (scope : Key) (epoch : UInt64) : Key :=
  l1Dir scope epoch ++ ['i', 'n', 'd', 'e', 'x', '.', 'b', 'i', 'n']

def dotSnapshotStarted : Str := dotSnapshot ++ ['-', 's', 't', 'a', 'r', 't', 'e', 'd']

def dotSnapshotDone : Str := dotSnapshot ++ ['-', 'd', 'o', 'n', 'e']

def snapshotStartedName (scope : Key) (epoch txid : UInt64) : Key :=
  epochDir scope epoch ++ (formatUint txid.toNat ++ dotSnapshotStarted)

def snapshotDoneName (scope : Key) (epoch txid : UInt64) : Key :=
  epochDir scope epoch ++ (formatUint txid.toNat ++ dotSnapshotDone)

/-- The fixed key that serializes the markers of an epoch. -/
def epochCutName (scope : Key) (epoch : UInt64) : Key :=
  epochDir scope epoch ++ ['e', 'p', 'o', 'c', 'h', '-', 'c', 'u', 't']

namespace Manager

/-! ## The fence -/

/-- The epoch belongs to a deleted incarnation of the resource. -/
def fenced (m : Manager) (epoch : UInt64) : Bool :=
  m.fence.deleted || (m.fence.jobID ≠ [] && decide (epoch ≤ m.fence.epoch))

def resourceWriteGuard (m : Manager) (epoch : UInt64) : Res Unit :=
  if m.fenced epoch then .error (.sentinel .resourceDeleted) else .ok ()

/-! ## Storing segments -/

/-- `putImmutableSegment`: an object that is there already must have the same bytes. -/
def putImmutableSegment (m : Manager) (key : Key) (data : Bytes) : Res Manager :=
  match m.objects.get key with
  | .ok old =>
    if old ≠ data then
      .error (.wrap s!"replica: conflicting segment at {String.ofList key}"
        (.sentinel .bucketPrecondition))
    else .ok m
  | .error _ => .ok { m with objects := m.objects.put key data }

/-- The header of a segment that is to be stored; `label` is how errors call it. -/
def acceptSegment (invalid label : String) (epoch : UInt64) (segment : Bytes) : Res Header :=
  match decode segment with
  | .error e => .error (.wrap s!"replica: invalid {invalid}" e)
  | .ok d =>
    if d.1.epoch ≠ epoch then
      .error (.errorf s!"replica: {label} epoch {d.1.epoch} != requested {epoch}")
    else .ok d.1

def appendIn (dir : Key) (label : String) (m : Manager) (epoch : UInt64) (segment : Bytes) :
    Res (Key × Manager) := do
  m.resourceWriteGuard epoch
  let h ← acceptSegment label label epoch segment
  let m' ← m.putImmutableSegment (dir ++ segmentName h) segment
  .ok (dir ++ segmentName h, m')

def append (m : Manager) (epoch : UInt64) (segment : Bytes) : Res (Key × Manager) :=
  appendIn (epochDir m.scope epoch) "segment" m epoch segment

def appendL1 (m : Manager) (epoch : UInt64) (segment : Bytes) : Res (Key × Manager) :=
  appendIn (l1Dir m.scope epoch) "L1 segment" m epoch segment

/-- The name of a group commit: a single segment keeps its own name. -/
def groupName : List Header → Str
  | [] => []
  | [h] => segmentName h
  | h :: rest => batchName h (rest.getLast?.getD h)

def appendBatch (m : Manager) (epoch : UInt64) (segments : List Bytes) : Res (Key × Manager) := do
  m.resourceWriteGuard epoch
  if segments = [] then .error (.errorf "replica: empty batch")
  else do
    let headers ← segments.mapM (acceptSegment "segment in batch" "segment" epoch)
    let key := epochDir m.scope epoch ++ groupName headers
    let m' ← m.putImmutableSegment key segments.flatten
    .ok (key, m')

/-! ## Markers, manifest and index -/

/-- The body of a snapshot marker, `{}`. -/
def emptyRecord : Bytes := [123, 125]

def markSnapshotStarted (m : Manager) (epoch txid : UInt64) : Manager :=
  { m with objects := m.objects.put (snapshotStartedName m.scope epoch txid) emptyRecord }

def markSnapshotDone (m : Manager) (epoch txid : UInt64) : Manager :=
  { m with objects := m.objects.put (snapshotDoneName m.scope epoch txid) emptyRecord }

def clearSnapshotStarted (m : Manager) (epoch txid : UInt64) : Manager :=
  { m with objects := m.objects.delete (snapshotStartedName m.scope epoch txid) }

def snapshotStarted (m : Manager) (epoch txid : UInt64) : Bool :=
  (m.objects.get (snapshotStartedName m.scope epoch txid)).isOk

def snapshotDone (m : Manager) (epoch txid : UInt64) : Bool :=
  (m.objects.get (snapshotDoneName m.scope epoch txid)).isOk

def markerHeader (epoch cut : UInt64) : Header :=
  { version := 0, kind := kindMarker, flags := 0, epoch, startTxID := cut + 1, endTxID := cut,
    length := 0, crc := 0 }

def markerConflict (epoch : UInt64) : Err :=
  .wrap s!"epoch {epoch}" (.sentinel .epochMarkerConflict)

/-- One of the two conditional creates of `MarkEpoch`. -/
def claimMarker (epoch : UInt64) (seg : Bytes) (objects : Store) (key : Key) : Res Store :=
  match objects.get key with
  | .ok old => if old ≠ seg then .error (markerConflict epoch) else .ok objects
  | .error _ => .ok (objects.put key seg)

def markEpoch (m : Manager) (epoch cut : UInt64) : Res (Key × Manager) :=
  if cut + 1 = 0 then .error (.wrap "cut overflow" (.sentinel .epochMarkerConflict))
  else do
    m.resourceWriteGuard epoch
    let seg := encode (markerHeader epoch cut) []
    let dir := epochDir m.scope epoch
    let key := dir ++ segmentName (markerHeader epoch cut)
    -- a marker of another cut, or one whose name cannot be read, is never replaced
    let conflict := ((m.objects.list dir).map fun k => k.drop dir.length).any fun name =>
      hasSuffix name dotMarker &&
        !(match parseSegmentSpan name with
          | some span => span.marker && span.end == cut.toNat
          | none => false)
    if conflict then .error (markerConflict epoch)
    else do
      let objects ← claimMarker epoch seg m.objects (epochCutName m.scope epoch)
      let objects ← claimMarker epoch seg objects key
      .ok (key, { m with objects })

def readManifest (m : Manager) (epoch : UInt64) : Option Manifest := m.manifests.lookup epoch

def putManifest (m : Manager) (epoch : UInt64) (man : Manifest) : Res Manager := do
  m.resourceWriteGuard epoch
  .ok { m with manifests := (epoch, { man with epoch }) :: m.manifests.filter (·.1 ≠ epoch) }

end Manager

end CellHive.Replica
