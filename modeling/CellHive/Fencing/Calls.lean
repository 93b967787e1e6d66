import CellHive.Fencing.World

/-!
# Writing under a resource fence

`internal/replica/resource_fence.go` and the guarded writes of `internal/replica/replica.go`
as programs over the shared state. A write looks at the fence twice: the guard reads it from
the bucket before the put, the check behind the put goes through the manager's cache and
shares the reads of others. The loop of `readResourceFenceShared` starts again when the
revision changed; a program has as many rounds of it as `rounds` says.
-/

namespace CellHive.Fencing

open Go Ltx Bucket Concurrent Prog Replica Replica.Manager

/-! ## Reading the fence -/

/-- The fence of an object's text. -/
def readFence (content : Option Fence) (tag : Nat) : Res FenceRead :=
  match content with
  | none => .error (.errorf "replica: corrupt resource fence")
  | some f => .ok (f, some tag)

/-- The text a migration stores. -/
def Legacy.content : Legacy → Option (Option Fence)
  | .missing => some (some {})
  | .invalid => none
  | .json content => some content

/-- The part of `readResourceFenceFresh` for a fence without an object. -/
def migrateFence (legacy : Legacy) : Prog ops (Res FenceRead) :=
  match legacy.content with
  | none => return .error (.errorf "replica: corrupt legacy resource fence")
  | some content => do
    match ← ask (.createFence none content) with
    | .ok tag => return readFence content tag
    | .error e =>
      if e.is .bucketPrecondition then
        match ← ask .getFence with
        | .ok (content, tag) => return readFence content tag
        | .error e => return .error e
      else return .error e

/-- `readResourceFenceFresh`; `kind` says whether the scope is of a class with a fence. -/
def readResourceFenceFresh (kind : Bool) : Prog ops (Res FenceRead) :=
  if kind = false then return .ok ({}, none)
  else do
    match ← ask .getFence with
    | .ok (content, tag) => return readFence content tag
    | .error e =>
      if e.is .bucketNotFound then
        match ← ask .getLegacy with
        | .ok legacy => migrateFence legacy
        | .error e => if e.is .bucketNotFound then migrateFence .missing else return .error e
      else return .error e

def cacheResult (m rev : Nat) (res : Res FenceRead) : Prog ops Unit :=
  match res with
  | .ok (f, _) => ask (.cacheRead m rev f)
  | .error _ => return ()

def readResourceFenceShared (kind : Bool) (m : Nat) (refresh : Bool) :
    Nat → Prog ops (Res FenceRead)
  | 0 => return .error (.errorf "context canceled")
  | rounds + 1 => do
    match ← ask (.lookup m refresh) with
    | .error e => return .error e
    | .ok .hit => return .ok ({}, none)
    | .ok (.join flight) =>
      match ← ask (.await m flight) with
      | .error e => return .error e
      | .ok (res, again) =>
        if again then readResourceFenceShared kind m refresh rounds else return res
    | .ok (.own flight rev) =>
      let res ← readResourceFenceFresh kind
      cacheResult m rev res
      match (← ask (.finish m flight res) : Bool) with
      | true => return res
      | false => readResourceFenceShared kind m refresh rounds

def readResourceFence (kind : Bool) (m rounds : Nat) : Prog ops (Res FenceRead) :=
  if kind = false then return .ok ({}, none) else readResourceFenceShared kind m false rounds

/-! ## Changing the fence -/

/-- The conditional write of a changed fence. -/
def storeFence (u : Update) (f : Fence) (etag : Option Nat) : Prog ops (Res Unit) :=
  match etag with
  | some tag => ask (.casFence u f tag)
  | none => do
    match ← ask (.createFence (some u) (some f)) with
    | .ok _ => return .ok ()
    | .error e => return .error e

/-- The loop of `updateResourceFence`, with the attempts that are left. -/
def updateFrom (kind : Bool) (m : Nat) (u : Update) : Nat → Prog ops (Res Unit)
  | 0 => return .error (.sentinel .bucketPrecondition)
  | attempts + 1 => do
    match ← readResourceFenceFresh kind with
    | .error e => return .error e
    | .ok (f, etag) =>
      match u.change f with
      | .error e => return .error e
      | .ok f' =>
        match ← storeFence u f' etag with
        | .ok _ =>
          ask (.cacheFence m f')
          return .ok ()
        | .error e =>
          if e.is .bucketPrecondition then updateFrom kind m u attempts else return .error e

def updateResourceFence (kind : Bool) (m : Nat) (u : Update) : Prog ops (Res Unit) := do
  ask (.lock m)
  let out ← updateFrom kind m u 8
  ask (.unlock m)
  return out

def blockResource (kind : Bool) (m : Nat) (job : Str) : Prog ops (Res Unit) :=
  if job = [] then return .error (.errorf "replica: missing cleanup identity")
  else updateResourceFence kind m (.block job)

def fenceResource (kind : Bool) (m : Nat) (job : Str) (epoch : UInt64) : Prog ops (Res Unit) :=
  updateResourceFence kind m (.fence job epoch)

def allowResource (kind : Bool) (m : Nat) (job : Str) : Prog ops (Res Unit) :=
  updateResourceFence kind m (.allow job)

/-! ## Writing -/

def checked (kind : Bool) (epoch : UInt64) (write : Prog ops (Res Unit)) : Prog ops (Res Unit) := do
  match ← readResourceFenceFresh kind with
  | .error e => return .error e
  | .ok (f, _) => if f.blocks epoch then return .error (.sentinel .resourceDeleted) else write

def guarded (kind : Bool) (m : Nat) (epoch : UInt64) (write : Prog ops (Res Unit)) :
    Prog ops (Res Unit) := do
  ask (.rlock m)
  let out ← checked kind epoch write
  ask (.runlock m)
  return out

/-- What `putImmutableSegment` does behind a fence: an object it created itself goes. -/
def cleanUp (key : Key) (created : Option Nat) : Prog ops Err :=
  match created with
  | none => return .sentinel .resourceDeleted
  | some tag => do
    match ← ask (.delete key tag) with
    | .ok _ => return .sentinel .resourceDeleted
    | .error e =>
      if e.is .bucketPrecondition ∨ e.is .bucketNotFound then return .sentinel .resourceDeleted
      else return .wrap "late publication cleanup" (.sentinel .resourceDeleted)

/-- Creates an object, or finds it with the same bytes; the etag is that of a new object. -/
def createSegment (key : Key) (data : Bytes) : Prog ops (Res (Option Nat)) := do
  match ← ask (.create key data) with
  | .ok tag => return .ok (some tag)
  | .error e =>
    if e.is .bucketPrecondition then
      match ← ask (.get key) with
      | .error e => return .error e
      | .ok (old, _) =>
        if old ≠ data then
          return .error (.wrap s!"replica: conflicting segment at {String.ofList key}"
            (.sentinel .bucketPrecondition))
        else return .ok none
    else return .error e

def putImmutableSegment (kind : Bool) (m rounds : Nat) (epoch : UInt64) (key : Key) (data : Bytes) :
    Prog ops (Res Unit) := do
  match ← createSegment key data with
  | .error e => return .error e
  | .ok created =>
    match ← readResourceFence kind m rounds with
    | .error e => return .error e
    | .ok (f, _) =>
      if f.blocks epoch then
        let e ← cleanUp key created
        return .error e
      else return .ok ()

def append (kind : Bool) (scope : Key) (m rounds : Nat) (epoch : UInt64) (segment : Bytes) :
    Prog ops (Res Unit) :=
  guarded kind m epoch <|
    match acceptSegment "segment" "segment" epoch segment with
    | .error e => return .error e
    | .ok h =>
      putImmutableSegment kind m rounds epoch (epochDir scope epoch ++ segmentName h) segment

def appendBatch (kind : Bool) (scope : Key) (m rounds : Nat) (epoch : UInt64)
    (segments : List Bytes) : Prog ops (Res Unit) :=
  guarded kind m epoch <|
    if segments = [] then return .error (.errorf "replica: empty batch")
    else
      match segments.mapM (acceptSegment "segment in batch" "segment" epoch) with
      | .error e => return .error e
      | .ok headers =>
        putImmutableSegment kind m rounds epoch (epochDir scope epoch ++ groupName headers)
          segments.flatten

/-- A marker of another cut, or one whose name cannot be read. -/
def otherMarker (cut : UInt64) (name : Str) : Bool :=
  hasSuffix name dotMarker &&
    !(match parseSegmentSpan name with
      | some span => span.marker && span.end == cut.toNat
      | none => false)

/-- Creates one of the two objects of a marker, or finds it with the same bytes. -/
def claimKey (epoch : UInt64) (key : Key) (seg : Bytes) : Prog ops (Res Unit) := do
  match ← ask (.create key seg) with
  | .ok _ => return .ok ()
  | .error e =>
    if e.is .bucketPrecondition then
      match ← ask (.get key) with
      | .error e => return .error e
      | .ok (raw, _) => if raw ≠ seg then return .error (markerConflict epoch) else return .ok ()
    else return .error e

def markEpoch (kind : Bool) (scope : Key) (m rounds : Nat) (epoch cut : UInt64) :
    Prog ops (Res Unit) :=
  if cut + 1 = 0 then
    return .error (.wrap "cut overflow" (.sentinel .epochMarkerConflict))
  else
    guarded kind m epoch <| do
      let seg := encode (markerHeader epoch cut) []
      match ← ask (.list (epochDir scope epoch)) with
      | .error e => return .error e
      | .ok keys =>
        let names := keys.map fun k => k.drop (epochDir scope epoch).length
        if names.any (otherMarker cut) then return .error (markerConflict epoch)
        else
          match ← claimKey epoch (epochCutName scope epoch) seg with
          | .error e => return .error e
          | .ok _ =>
            match ← claimKey epoch
              (epochDir scope epoch ++ segmentName (markerHeader epoch cut)) seg with
            | .error e => return .error e
            | .ok _ =>
              match ← readResourceFence kind m rounds with
              | .error e => return .error e
              | .ok (f, _) =>
                if f.blocks epoch then return .error (.sentinel .resourceDeleted)
                else return .ok ()

end CellHive.Fencing
