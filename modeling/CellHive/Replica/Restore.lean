import CellHive.Replica.Manager
import CellHive.Restore.Paging

/-!
# Reading a scope's chain back

The cold path of `internal/replica/replica.go`: which objects of an epoch a restore
reads, which of their segments it keeps, and from which epoch a restore of the whole
scope starts.

The source downloads objects with a pool of goroutines and caches what it has loaded and
proven; the bucket does not change during a call here, so reading in key order and
computing again gives the same segments, and of several failed reads the first is
reported.
-/

namespace CellHive.Replica

open Go Ltx Bucket

/-- `Segment`; the source renders the object's key and the position in it as one text. -/
structure Segment where
  key : Key
  part : Nat
  header : Header
  raw : Bytes
  deriving DecidableEq, Repr

namespace Manager

/-- `ReadIndex`: `none` when the scope was never compacted. -/
def readIndex (m : Manager) (epoch : UInt64) : Res (Option PageIndex) :=
  match m.objects.get (indexName m.scope epoch) with
  | .error _ => .ok none
  | .ok data => (decodeIndex data).map some

def putIndex (m : Manager) (epoch : UInt64) (idx : PageIndex) : Res Manager := do
  m.resourceWriteGuard epoch
  let data ← encodeIndex idx
  .ok { m with objects := m.objects.put (indexName m.scope epoch) data }

def listL0Segments (m : Manager) (epoch : UInt64) : List Key :=
  (m.objects.list (epochDir m.scope epoch)).filter fun k =>
    !(l1Dir m.scope epoch).isPrefixOf k && isSegmentKey k

/-! ## The proof of a compacted baseline -/

/-- The frames of a version 1 index have a fixed place. -/
def fixedFrames (pageSize : UInt32) (locs : List PageLoc) : Bool :=
  locs.zipIdx.all fun l =>
    l.1.codec = codecRaw ∧ l.1.stored = pageSize.toNat ∧ l.1.off = pageEntryOffset pageSize l.2 + 4

/-- The index entry describes the compacted object; `none` when it does not. -/
def provenObject (m : Manager) (epoch : UInt64) (man : Manifest) (e : PageIndexEntry) (key : Key) :
    Res (Option Bytes) :=
  if (l1Dir m.scope epoch).isPrefixOf key = false ∨ e.pageSize ≠ man.pageSize ∨
      e.commit ≠ man.commit then .ok none
  else do
    let raw ← m.objects.get key
    let d ← decode raw
    if d.1.kind ≠ kindSnapshot ∨ d.1.epoch ≠ epoch ∨ d.1.startTxID ≠ man.maxTxID ∨
        d.1.endTxID ≠ man.maxTxID ∨ key ≠ l1Dir m.scope epoch ++ segmentName d.1 then .ok none
    else do
      let pm ← decodeWALPageMap d.2
      let nums ← pageMapNumbers d.2
      if pm.pageSize ≠ e.pageSize ∨ pm.commit ≠ e.commit ∨ nums ≠ e.pages then .ok none
      else do
        let locs ← pageLocs d.2
        if e.locs ≠ [] then .ok (if locs ≠ e.locs then none else some raw)
        else .ok (if fixedFrames pm.pageSize locs then some raw else none)

def provenObjects (m : Manager) (epoch : UInt64) (man : Manifest) :
    List PageIndexEntry → List Key → Res (Option (List Bytes))
  | _, [] => .ok (some [])
  | entries, key :: rest =>
    match entries.find? (·.key = key) with
    | none => .ok none
    | some e => do
      match ← m.provenObject epoch man e key with
      | none => .ok none
      | some raw =>
        match ← m.provenObjects epoch man (entries.filter (·.key ≠ key)) rest with
        | none => .ok none
        | some raws => .ok (some (raw :: raws))

def completeBaseline (m : Manager) (epoch : UInt64) (man : Manifest) : Res Bool :=
  if man.epoch ≠ epoch ∨ man.objects = [] ∨ man.pageSize = 0 ∨ man.commit = 0 then .ok false
  else do
    match ← m.readIndex epoch with
    | none => .ok false
    | some idx =>
      if idx.watermark ≠ man.maxTxID ∨ idx.entries.length ≠ man.objects.length ∨
          ¬ (idx.entries.map (·.key)).Nodup then .ok false
      else do
        match ← m.provenObjects epoch man idx.entries man.objects with
        | none => .ok false
        | some raws =>
          let proof ← Restore.indexChain raws
          .ok (decide (proof.watermark = man.maxTxID ∧ proof.commit = man.commit ∧
            proof.pageSize = man.pageSize))

/-! ## One epoch -/

/-- `skipPartialSnapshot`: a snapshot was started and never finished. -/
def skipPartialSnapshot (m : Manager) (epoch txid : UInt64) : Bool :=
  m.snapshotStarted epoch txid && !m.snapshotDone epoch txid

def objectSegments (key : Key) (raw : Bytes) : Res (List (Header × Bytes)) :=
  match split raw with
  | .error e => .error (.wrap s!"replica: corrupt object {String.ofList key}" e)
  | .ok parts => parts.mapM fun part =>
    match decode part with
    | .error e => .error (.wrap s!"replica: corrupt segment in {String.ofList key}" e)
    | .ok d => .ok (d.1, part)

/-- The name of an L0 object proves that the manifest covers it. -/
def coveredByManifest (floor : UInt64) (key : Key) : Bool :=
  let name := nameOf key
  match parseSegmentSpan name with
  | none => false
  | some span =>
    if hasSuffix name dotBatch && !batchSpanKnown name then false
    else decide (0 < floor) && !span.marker && decide (span.end ≤ floor.toNat)

/-- What the loop of `restoreOnceKeys` has collected. -/
structure RestoreScan where
  seen : List SegmentID := []
  segs : List Segment := []

/-- A crash-partial snapshot is left out, unless it is a compacted object of a proven
baseline. -/
def leftOut (m : Manager) (epoch : UInt64) (man : Option Manifest) (key : Key) (h : Header) :
    Res Bool :=
  if h.kind ≠ kindSnapshot ∨ m.skipPartialSnapshot epoch h.endTxID = false then .ok false
  else
    match man with
    | none => .ok true
    | some man =>
      if key ∈ man.objects then do
        let complete ← m.completeBaseline epoch man
        .ok !complete
      else .ok true

def floorOf (man : Option Manifest) : UInt64 := (man.map (·.maxTxID)).getD 0

def compactedKeys (man : Option Manifest) : List Key := (man.map (·.objects)).getD []

def restorePart (m : Manager) (epoch : UInt64) (man : Option Manifest) (key : Key)
    (st : RestoreScan) (d : (Header × Bytes) × Nat) : Res RestoreScan := do
  let h := d.1.1
  if ← m.leftOut epoch man key h then .ok st
  else if h.id ∈ st.seen then .ok st
  else if key ∉ compactedKeys man ∧ 0 < floorOf man ∧ h.endTxID ≤ floorOf man ∧
      h.kind ≠ kindMarker then
    .ok { st with seen := h.id :: st.seen }
  else .ok ⟨h.id :: st.seen, st.segs ++ [⟨key, d.2, h, d.1.2⟩]⟩

def restoreObject (m : Manager) (epoch : UInt64) (man : Option Manifest) (st : RestoreScan)
    (object : Key × Bytes) : Res RestoreScan := do
  let parts ← objectSegments object.1 object.2
  parts.zipIdx.foldlM (m.restorePart epoch man object.1) st

def rank (h : Header) : Nat :=
  if h.kind = kindSnapshot then 0 else if h.kind = kindLink ∨ h.kind = kindMarker then 1 else 2

/-- The order of a restored epoch. -/
def segmentLE (a b : Segment) : Prop :=
  rank a.header < rank b.header ∨
    rank a.header = rank b.header ∧ a.header.startTxID ≤ b.header.startTxID

instance : DecidableRel segmentLE := fun a b =>
  inferInstanceAs (Decidable (rank a.header < rank b.header ∨
    rank a.header = rank b.header ∧ a.header.startTxID ≤ b.header.startTxID))

def restoreOnceKeys (m : Manager) (epoch : UInt64) (l0 : List Key) : Res (List Segment) :=
  if m.fenced epoch then .ok []
  else do
    let man := m.readManifest epoch
    let keys := (compactedKeys man).eraseDups ++ l0.filter (!coveredByManifest (floorOf man) ·)
    let raws ← keys.mapM m.objects.get
    let st ← (keys.zip raws).foldlM (m.restoreObject epoch man) {}
    .ok (st.segs.insertionSort segmentLE)

def restore (m : Manager) (epoch : UInt64) : Res (List Segment) :=
  m.restoreOnceKeys epoch (m.listL0Segments epoch)

/-! ## The epochs of a scope -/

def epochOf (scope : Key) (key : Key) : Option (UInt64 × Str) :=
  match cutStart key (ltxDir scope ++ ['e']) with
  | none => none
  | some rest =>
    match cutAt '/' rest with
    | none => none
    | some (digits, name) => (parseUint 64 digits).map fun n => (UInt64.ofNat n, name)

def inBound (maxEpoch epoch : UInt64) : Bool := maxEpoch = 0 ∨ epoch ≤ maxEpoch

def chainKeys (m : Manager) (maxEpoch : UInt64) : List (UInt64 × Str × Key) :=
  (m.objects.list (ltxDir m.scope)).filterMap fun key =>
    match epochOf m.scope key with
    | none => none
    | some (e, name) => if inBound maxEpoch e && isSegmentKey key then some (e, name, key) else none

/-- The epochs a restore knows, oldest first. -/
def chainEpochs (m : Manager) (maxEpoch : UInt64) : List UInt64 :=
  ((m.chainKeys maxEpoch).map (·.1) ++
    (m.manifests.map (·.1)).filter (inBound maxEpoch ·)).dedup.insertionSort (· ≤ ·)

def chainL0 (m : Manager) (maxEpoch epoch : UInt64) : List Key :=
  ((m.chainKeys maxEpoch).filter fun k => k.1 = epoch ∧ cutStart k.2.1 ['L', '1', '/'] = none).map
    (·.2.2)

/-- `hasBase`: a manifest, or a snapshot that is an object of its own. -/
def hasBase (m : Manager) (maxEpoch epoch : UInt64) : Bool :=
  (m.readManifest epoch).isSome ||
    (m.chainL0 maxEpoch epoch).any fun k => hasSuffix k dotSnapshot || hasSuffix k dotSnapshotDone

def addSegments (out segs : List Segment) : List Segment :=
  segs.foldl (fun out s => if out.any (fun o => o.key = s.key ∧ o.part = s.part) then out
    else out ++ [s]) out

def chainSegments (m : Manager) (maxEpoch : UInt64) (epochs : List UInt64) : Res (List Segment) :=
  epochs.foldlM (fun out e => do
    let segs ← m.restoreOnceKeys e (m.chainL0 maxEpoch e)
    .ok (addSegments out segs)) []

/-- The positions `start` takes in the loop: the base epochs, newest first, and at last the
oldest epoch. -/
def startList (bases : List Bool) : List Nat :=
  let positions := ((List.range bases.length).filter fun i => bases.getD i false).reverse
  if positions.getLast? = some 0 then positions else positions ++ [0]

/-- The loop of `RestoreChain` over the positions it may start from. -/
def restoreFrom (m : Manager) (maxEpoch : UInt64) (epochs : List UInt64) (based : Bool) :
    Option Err → List Nat → Res (List Segment)
  | _, [] => .ok []
  | first, start :: rest => do
    let out ← m.chainSegments maxEpoch (epochs.drop start)
    if based = false then .ok out
    else
      match Restore.validateChain (out.map (·.raw)) with
      | .ok _ => .ok out
      | .error e =>
        if rest = [] then .error (first.getD e)
        else m.restoreFrom maxEpoch epochs based (some (first.getD e)) rest

def restoreChain (m : Manager) (maxEpoch : UInt64) : Res (List Segment) :=
  let epochs := m.chainEpochs maxEpoch
  let bases := epochs.map (m.hasBase maxEpoch)
  m.restoreFrom maxEpoch epochs (bases.any id) none (startList bases)

end Manager

end CellHive.Replica
