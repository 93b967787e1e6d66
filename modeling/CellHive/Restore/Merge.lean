import CellHive.Ltx.SnapshotParts
import CellHive.Restore.Chain

/-!
# Materializing and folding a chain

`internal/restore/restore.go`: `mergeChain` decodes a list of segments, chooses a
chain, applies the chosen deltas on top of the snapshot parts and returns the
pages 1..commit; `Compact` writes the result as one snapshot again.

The source decodes each chosen segment a second time; decoding is a function of
the bytes, so the model keeps the payloads of the first pass.
-/

namespace CellHive.Restore

open Go Ltx

structure MergeState where
  pageSize : UInt32 := 0
  commit : UInt32 := 0
  pageMap : UInt32 → Option Bytes := fun _ => none

def setPage (m : UInt32 → Option Bytes) (pgno : UInt32) (data : Bytes) : UInt32 → Option Bytes :=
  fun q => if q = pgno then some data else m q

/-- The pages of one snapshot part: a page that is there already must have the same bytes. -/
def addSnapshotPages : (UInt32 → Option Bytes) → List WALPage → Res (UInt32 → Option Bytes)
  | m, [] => .ok m
  | m, p :: rest =>
    match m p.pageNo with
    | some existing =>
      if existing ≠ p.data then
        .error (.errorf s!"restore: snapshot has conflicting duplicate page {p.pageNo}")
      else addSnapshotPages m rest
    | none => addSnapshotPages (setPage m p.pageNo p.data) rest

def addSnapshotMap (st : MergeState) (m : PageMap) : Res MergeState :=
  if st.pageSize ≠ 0 ∧ m.pageSize ≠ st.pageSize then
    .error (.errorf "restore: snapshot page size mismatch")
  else if st.commit ≠ 0 ∧ m.commit ≠ st.commit then
    .error (.errorf s!"restore: snapshot part commit mismatch {m.commit} != {st.commit}")
  else do
    let pageMap ← addSnapshotPages st.pageMap m.pages
    .ok { pageSize := if st.pageSize = 0 then m.pageSize else st.pageSize
          commit := if st.commit = 0 then m.commit else st.commit
          pageMap := pageMap }

def addSnapshot (st : MergeState) (payload : Bytes) : Res MergeState :=
  match decodeWALPageMap payload with
  | .error e => .error (.wrap "restore: decode snapshot" e)
  | .ok m => addSnapshotMap st m

/-- One decoded delta: its pages replace the older ones, its commit the older one. -/
def addDeltaMap (st : MergeState) (m : PageMap) : MergeState :=
  { st with
    commit := if 0 < m.commit then m.commit else st.commit
    pageMap := m.pages.foldl (fun pm p => setPage pm p.pageNo p.data) st.pageMap }

def addDelta (st : MergeState) (seg : Header × Bytes) : Res MergeState :=
  match decodeWALPageMap seg.2 with
  | .error e => .error (.wrap s!"restore: decode delta {seg.1.startTxID}" e)
  | .ok m => .ok (addDeltaMap st m)

def pageRange (commit : UInt32) : List UInt32 :=
  (List.range commit.toNat).map fun i => UInt32.ofNat (i + 1)

def wraps (commit : UInt32) : Bool := commit.toNat = 2 ^ 32 - 1

/-- The page numbers one round of `for pgno := uint32(1); pgno <= commit; pgno++` visits. -/
def loopRange (commit : UInt32) : List UInt32 :=
  if wraps commit then pageRange commit ++ [0] else pageRange commit

def takePages (m : UInt32 → Option Bytes) (commit : UInt32) : List UInt32 → Res (List WALPage)
  | [] => .ok []
  | pgno :: rest =>
    match m pgno with
    | none => .error (.errorf s!"restore: missing page {pgno} of {commit}")
    | some data => do
      let pages ← takePages m commit rest
      .ok (⟨pgno, data⟩ :: pages)

/-- The final loop of `mergeChain`. At the largest commit it ends only at a missing
page; if there is none it never returns, which the model shows as an error. -/
def collectPages (m : UInt32 → Option Bytes) (commit : UInt32) : Res (List WALPage) := do
  let pages ← takePages m commit (loopRange commit)
  if wraps commit then .error (.errorf "restore: page counter wraps around") else .ok pages

structure Merged where
  pageSize : UInt32
  commit : UInt32
  epoch : UInt64
  watermark : UInt64
  pages : List WALPage
  deriving DecidableEq, Repr

/-- The decoded segments; `i` is the position of the first one. -/
def decodeSegments : Nat → List Bytes → Res (List (Header × Bytes))
  | _, [] => .ok []
  | i, raw :: rest =>
    match decode raw with
    | .error e => .error (.wrap s!"restore: decode segment {i}" e)
    | .ok d => do
      let ds ← decodeSegments (i + 1) rest
      .ok (d :: ds)

def chainEpoch (decoded : List (Header × Bytes)) : UInt64 :=
  decoded.foldl (fun epoch d => if epoch = 0 then d.1.epoch else epoch) 0

def segmentAt (decoded : List (Header × Bytes)) (i : Nat) : Header × Bytes := decoded.getD i default

/-- The two loops of `mergeChain` over a chosen chain. -/
def applyChain (decoded : List (Header × Bytes)) (sel : Selection) : Res MergeState := do
  let st ← sel.snapshots.foldlM (fun st i => addSnapshot st (segmentAt decoded i).2) ({} : MergeState)
  sel.deltas.foldlM (fun st i => addDelta st (segmentAt decoded i)) st

def mergeChain (segments : List Bytes) : Res Merged := do
  let decoded ← decodeSegments 0 segments
  let sel ← selectChain (decoded.map (·.1))
  let st ← applyChain decoded sel
  if st.commit = 0 ∨ st.pageSize = 0 then .error (.errorf "restore: snapshot has no pages")
  else do
    let pages ← collectPages st.pageMap st.commit
    .ok ⟨st.pageSize, st.commit, chainEpoch decoded, sel.watermark, pages⟩

def compactHeader (epoch watermark : UInt64) : Header :=
  { version := 0, kind := kindSnapshot, flags := 0, epoch := epoch, startTxID := watermark,
    endTxID := watermark, length := 0, crc := 0 }

def partBudget (maxPartBytes : Int) : Int :=
  if maxPartBytes ≤ 0 then defaultSnapshotPartBytes else maxPartBytes

def compact (compress : Bool) (segments : List Bytes) (maxPartBytes : Int) : Res (List Bytes) := do
  let m ← mergeChain segments
  encodeSnapshotParts compress (compactHeader m.epoch m.watermark) m.pageSize m.commit m.pages
    (partBudget maxPartBytes)

end CellHive.Restore
