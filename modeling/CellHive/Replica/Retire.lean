import CellHive.Replica.Restore

/-!
# Retiring old epochs

`RetireEpochsWithOptions` and `DeleteObjectWithOptions`: once the current epoch is proven to
be restorable by itself, the payloads of older epochs are deleted one by one. Markers,
manifests and everything that is not proven to be a payload stay. A run that stops early has
made the first deletions of the whole run.
-/

namespace CellHive.Replica.Manager

open Go Ltx Bucket

/-- The segments of one epoch form a chain by themselves. -/
def restorableAlone (m : Manager) (epoch : UInt64) : Res Unit := do
  let segs ← m.restore epoch
  Restore.validateChain (segs.map (·.raw))

def hasCompleteSnapshot (m : Manager) (epoch : UInt64) : Res Bool :=
  match m.readManifest epoch with
  | some man => do
    let complete ← m.completeBaseline epoch man
    if complete then do
      m.restorableAlone epoch
      .ok true
    else .ok false
  | none =>
    if (m.objects.list (epochDir m.scope epoch)).any (hasSuffix · dotSnapshotDone) then
      match m.restore epoch with
      | .error e => .error e
      | .ok segs =>
        match Restore.validateChain (segs.map (·.raw)) with
        | .error e =>
          .error (.wrap "replica: epoch GC requires independently restorable chain" e)
        | .ok _ => .ok true
    else .ok false

def payloadHeaders (epoch : UInt64) (raw : Bytes) : Option (List Header) :=
  match split raw with
  | .error _ => none
  | .ok parts =>
    match parts.mapM decode with
    | .error _ => none
    | .ok ds =>
      let hs := ds.map (·.1)
      if hs.all fun h => decide (h.epoch = epoch ∧ (h.kind = kindSnapshot ∨ h.kind = kindDelta) ∧
        some h.kind = hs.head?.map (·.kind)) then some hs else none

def namesPayload (name : Str) : List Header → Bool
  | [] => false
  | h :: rest =>
    (decide (rest = []) && decide (name = segmentName h)) ||
      decide (name = batchName h (rest.getLast?.getD h))

def deletable (m : Manager) (epoch : UInt64) (key : Key) : Bool :=
  match cutStart key (epochDir m.scope epoch) with
  | none => false
  | some rest =>
    let name := (cutStart rest ['L', '1', '/']).getD rest
    if name.contains '/' ||
        !(hasSuffix name dotSnapshot || hasSuffix name dotLtx || hasSuffix name dotBatch) then false
    else
      match m.objects.get key with
      | .error _ => false
      | .ok raw =>
        match payloadHeaders epoch raw with
        | none => false
        | some hs => namesPayload name hs

/-- The epochs that have a directory, oldest first: `Epochs`. -/
def epochs (m : Manager) (maxEpoch : UInt64) : List UInt64 :=
  (((m.objects.list (ltxDir m.scope)).filterMap fun key => (epochOf m.scope key).map (·.1)) ++
    m.manifests.map (·.1)).filter (inBound maxEpoch ·) |>.dedup.insertionSort (· ≤ ·)

/-- The loop over the keys of an epoch; `limit` is how many objects are deleted before the run
stops. -/
def retireKeys (limit : Nat) (epoch : UInt64) : List Key → Nat × Manager → Nat × Manager
  | [], st => st
  | key :: rest, st =>
    if st.1 < limit ∧ st.2.deletable epoch key then
      retireKeys limit epoch rest (st.1 + 1, { st.2 with objects := st.2.objects.delete key })
    else retireKeys limit epoch rest st

def retireFrom (limit : Nat) (keepFrom : UInt64) : List UInt64 → Nat × Manager → Nat × Manager
  | [], st => st
  | epoch :: rest, st =>
    if keepFrom ≤ epoch then retireFrom limit keepFrom rest st
    else
      retireFrom limit keepFrom rest
        (retireKeys limit epoch (st.2.objects.list (epochDir st.2.scope epoch)) st)

def gcDeferred : Err :=
  .errorf "replica: physical GC deferred; external writer and reader quiescence required"

/-- The first epoch that is kept. -/
def keepFrom (current : UInt64) (keepPrevious : Int) : UInt64 :=
  let keep := keepPrevious.toNat
  if keep < current.toNat then UInt64.ofNat (current.toNat - keep) else 0

/-- `RetireEpochsWithOptions`: the number of deleted objects, and what is left. -/
def retireEpochsWithOptions (m : Manager) (current : UInt64) (keepPrevious : Int)
    (offlineQuiescent : Bool) (limit : Nat) : Res Nat × Manager :=
  if offlineQuiescent = false then (.error gcDeferred, m)
  else
    match m.hasCompleteSnapshot current with
    | .error e => (.error e, m)
    | .ok false => (.ok 0, m)
    | .ok true =>
      let st := retireFrom limit (keepFrom current keepPrevious) (m.epochs current) (0, m)
      (.ok st.1, st.2)

/-- What a restore of the scope yields: `RestoreChain` and then `mergeChain`. -/
def restored (m : Manager) (maxEpoch : UInt64) : Res Restore.Merged := do
  let segs ← m.restoreChain maxEpoch
  Restore.mergeChain (segs.map (·.raw))

end CellHive.Replica.Manager
