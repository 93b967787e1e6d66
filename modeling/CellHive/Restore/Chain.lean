import CellHive.Ltx.Segment

/-!
# Choosing a restore chain

`internal/restore/chain.go`: from the headers of a set of segments, `selectChain`
chooses the newest snapshot that has an exact, contiguous delta suffix. Epoch
markers first remove what fenced writers of older epochs left above the cut. The
candidates are the snapshot transactions in descending order and, for each of
them, its epochs in descending order; the first candidate with a complete set of
parts and a contiguous tail is taken.

Segments are named by their position in the header list, as in the source. The
sorts of the source are stable, or sort distinct numbers, so any stable sort gives
its order; `List.insertionSort` is one.
-/

namespace CellHive.Restore

open Go Ltx

def headerAt (headers : List Header) (i : Nat) : Header := headers.getD i default

/-! ## Epoch markers -/

/-- The cuts of the epoch markers: the last transaction each marked epoch keeps of the
older ones. -/
def markerCuts : List (UInt64 × UInt64) → List Header → Res (List (UInt64 × UInt64))
  | cuts, [] => .ok cuts
  | cuts, h :: rest =>
    if h.kind ≠ kindMarker then markerCuts cuts rest
    else if h.startTxID = 0 ∨ h.startTxID - 1 ≠ h.endTxID then
      .error (.errorf "restore: invalid epoch marker")
    else
      match cuts.lookup h.epoch with
      | none => markerCuts ((h.epoch, h.endTxID) :: cuts) rest
      | some prev =>
        if prev ≠ h.endTxID then
          .error (.errorf s!"restore: conflicting marker cuts for epoch {h.epoch}")
        else markerCuts cuts rest

/-- A segment of an older epoch that ends above a marker's cut is dead. -/
def truncated (cuts : List (UInt64 × UInt64)) (h : Header) : Bool :=
  cuts.any fun ec => decide (h.epoch < ec.1) && decide (ec.2 < h.endTxID)

/-- The positions that survive the markers. -/
def keepIndices (cuts : List (UInt64 × UInt64)) (headers : List Header) : List Nat :=
  (List.range headers.length).filter fun i => !truncated cuts (headerAt headers i)

/-! ## Snapshot sets -/

def snapshotIndices (headers : List Header) (keep : List Nat) : List Nat :=
  keep.filter fun i => (headerAt headers i).kind = kindSnapshot

/-- The kept segments of the snapshot of one epoch at one transaction. -/
def snapshotSet (headers : List Header) (keep : List Nat) (base epoch : UInt64) : List Nat :=
  (snapshotIndices headers keep).filter fun i =>
    (headerAt headers i).epoch = epoch ∧ (headerAt headers i).startTxID = base

/-- Descending order without repetitions. -/
def descending (xs : List UInt64) : List UInt64 := xs.dedup.insertionSort fun a b => b ≤ a

/-- The snapshot transactions, newest first. -/
def baseList (headers : List Header) (keep : List Nat) : List UInt64 :=
  descending ((snapshotIndices headers keep).map fun i => (headerAt headers i).startTxID)

/-- The epochs that have a snapshot at `base`, newest first. -/
def epochList (headers : List Header) (keep : List Nat) (base : UInt64) : List UInt64 :=
  descending (((snapshotIndices headers keep).filter fun i =>
    (headerAt headers i).startTxID = base).map fun i => (headerAt headers i).epoch)

/-- The (base, epoch) pairs in the order they are tried. -/
def candidates (headers : List Header) (keep : List Nat) : List (UInt64 × UInt64) :=
  (baseList headers keep).flatMap fun base =>
    (epochList headers keep base).map fun epoch => (base, epoch)

/-- What `completeSnapshotSet` has seen: the part numbers, and the count and last
checksum of the unpaged copies. -/
structure SetScan where
  parts : List Nat := []
  unpaged : Nat := 0
  crc : UInt32 := 0

/-- One segment of the set; `none` rejects the set. -/
def scanPart (s : SetScan) (h : Header) : Option SetScan :=
  match snapshotPart h with
  | none =>
    if 0 < s.unpaged ∧ h.crc ≠ s.crc then none
    else some { s with unpaged := s.unpaged + 1, crc := h.crc }
  | some part => if part ∈ s.parts then none else some { s with parts := part :: s.parts }

def SetScan.complete (s : SetScan) : Bool :=
  if 0 < s.unpaged then s.parts.isEmpty
  else !s.parts.isEmpty && (List.range s.parts.length).all (· ∈ s.parts)

/-- `completeSnapshotSet`: the parts are numbered 0..N-1, or all segments are unpaged
copies with one checksum. -/
def completeSnapshotSet (headers : List Header) (idx : List Nat) : Bool :=
  match idx.foldlM (fun s i => scanPart s (headerAt headers i)) ({} : SetScan) with
  | none => false
  | some s => !idx.isEmpty && s.complete

def sortParts (headers : List Header) (snap : List Nat) : List Nat :=
  snap.insertionSort fun i j =>
    (snapshotPart (headerAt headers i)).getD 0 ≤ (snapshotPart (headerAt headers j)).getD 0

/-! ## Delta tails -/

def deltaLE (a b : Header) : Bool :=
  if a.startTxID ≠ b.startTxID then decide (a.startTxID < b.startTxID)
  else decide (a.endTxID ≤ b.endTxID)

/-- The kept deltas that reach above `base`, in order. -/
def deltaTail (headers : List Header) (keep : List Nat) (base : UInt64) : List Nat :=
  (keep.filter fun i =>
    (headerAt headers i).kind = kindDelta ∧ base < (headerAt headers i).endTxID).insertionSort
      fun i j => deltaLE (headerAt headers i) (headerAt headers j)

/-- Exact contiguity from `expected` on; the result is the next expected transaction. -/
def checkTail (headers : List Header) : UInt64 → List Nat → Res UInt64
  | expected, [] => .ok expected
  | expected, i :: rest =>
    let h := headerAt headers i
    if h.endTxID < h.startTxID then
      .error (.errorf s!"restore: invalid delta txid range {h.startTxID}..{h.endTxID}")
    else if h.startTxID ≠ expected then
      .error (.errorf s!"restore: non-contiguous chain: expected txid {expected}, got {h.startTxID}")
    else checkTail headers (h.endTxID + 1) rest

/-! ## The selection -/

/-- A chosen chain: the snapshot's segments, the deltas and the watermark. -/
structure Selection where
  snapshots : List Nat
  deltas : List Nat
  watermark : UInt64
  deriving DecidableEq, Repr

def tryCandidate (headers : List Header) (keep : List Nat) (c : UInt64 × UInt64) : Res Selection :=
  let snap := snapshotSet headers keep c.1 c.2
  if completeSnapshotSet headers snap = false then
    .error (.errorf s!"restore: incomplete snapshot set for txid {c.1} epoch {c.2}")
  else do
    let tail := deltaTail headers keep c.1
    let expected ← checkTail headers (c.1 + 1) tail
    .ok ⟨sortParts headers snap, tail, expected - 1⟩

def firstUsable (headers : List Header) (keep : List Nat) : List (UInt64 × UInt64) → Res Selection
  | [] => .error (.errorf "restore: no snapshot in chain")
  | c :: rest =>
    match tryCandidate headers keep c with
    | .ok r => .ok r
    | .error e =>
      match firstUsable headers keep rest with
      | .ok r => .ok r
      | .error _ => .error e

def selectChain (headers : List Header) : Res Selection := do
  let cuts ← markerCuts [] headers
  let keep := keepIndices cuts headers
  firstUsable headers keep (candidates headers keep)

def decodeHeaders : List Bytes → Res (List Header)
  | [] => .ok []
  | raw :: rest => do
    let d ← decode raw
    let headers ← decodeHeaders rest
    .ok (d.1 :: headers)

/-- `ValidateChain`: checksums, complete snapshot parts and exact delta continuity,
without materializing pages. -/
def validateChain (segments : List Bytes) : Res Unit := do
  let headers ← decodeHeaders segments
  let _ ← selectChain headers
  .ok ()

end CellHive.Restore
