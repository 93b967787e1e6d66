import CellHive.Restore.Merge

/-!
# The page index of a chain

`internal/restore/paging.go`: `IndexChain` records, for every page of a chain,
which chain position holds its final version, and `PageIndex.Page` reads one page
from there. It has its own bookkeeping: `snapSet` holds the input positions of the
snapshot parts but is asked about positions in the chosen order, every repeated
page of a part so marked is refused, and the page count is the largest commit of
the chain.
-/

namespace CellHive.Restore

open Go Ltx

structure PageIndex where
  pageSize : UInt32
  commit : UInt32
  watermark : UInt64
  refs : UInt32 → Option Nat
  payloads : List Bytes

/-- The segments of one input element, decoded. -/
def decodeSplit : List Bytes → Res (List (Header × Bytes))
  | [] => .ok []
  | one :: rest => do
    let d ← decode one
    let ds ← decodeSplit rest
    .ok (d :: ds)

/-- The first loop of `IndexChain`; `i` is the position of the first element. -/
def indexParts : Nat → List Bytes → Res (List (Header × Bytes))
  | _, [] => .ok []
  | i, raw :: rest =>
    match split raw with
    | .error e => .error (.wrap s!"restore: decode segment {i}" e)
    | .ok ones => do
      let ds ← decodeSplit ones
      let parts ← indexParts (i + 1) rest
      .ok (ds ++ parts)

structure IndexState where
  pageSize : UInt32 := 0
  commit : UInt32 := 0
  snapCommit : UInt32 := 0
  snapPages : List UInt32 := []
  refs : UInt32 → Option Nat := fun _ => none
  payloads : List Bytes := []

/-- The page numbers of the part at position `idx`. -/
def addNumbers (snap : Bool) (idx : Nat) : IndexState → List UInt32 → Res IndexState
  | st, [] => .ok st
  | st, no :: rest =>
    if snap ∧ no ∈ st.snapPages then .error (.errorf s!"restore: duplicate snapshot page {no}")
    else
      addNumbers snap idx
        { st with
          snapPages := if snap then no :: st.snapPages else st.snapPages
          refs := fun q => if q = no then some idx else st.refs q } rest

/-- One part of the chosen order. `PageMapNumbers` reads the same locations as the
decode before it, so its error exit is never taken. -/
def addPart (snap : Bool) (idx : Nat) (st : IndexState) (payload : Bytes) : Res IndexState :=
  match decodeWALPageMap payload with
  | .error e => .error (.wrap s!"restore: decode part {idx}" e)
  | .ok m =>
    if st.pageSize ≠ 0 ∧ m.pageSize ≠ st.pageSize then
      .error (.errorf "restore: page size mismatch")
    else if snap ∧ st.snapCommit ≠ 0 ∧ m.commit ≠ st.snapCommit then
      .error (.errorf s!"restore: snapshot parts disagree on commit {st.snapCommit}/{m.commit}")
    else do
      let nums ← pageMapNumbers payload
      let st ← addNumbers snap idx
        { st with
          pageSize := if st.pageSize = 0 then m.pageSize else st.pageSize
          snapCommit := if snap ∧ st.snapCommit = 0 then m.commit else st.snapCommit
          commit := if st.commit < m.commit then m.commit else st.commit } nums
      .ok { st with payloads := st.payloads ++ [payload] }

/-- The loop over the chosen order from position `idx` on. -/
def addParts (snapSet : List Nat) : Nat → IndexState → List Bytes → Res IndexState
  | _, st, [] => .ok st
  | idx, st, payload :: rest => do
    let st ← addPart (idx ∈ snapSet) idx st payload
    addParts snapSet (idx + 1) st rest

/-- The final loop of `IndexChain`; at the largest commit it does not return, as in
`collectPages`. -/
def checkDefined (refs : UInt32 → Option Nat) (commit : UInt32) : Res Unit :=
  match (loopRange commit).find? fun pgno => (refs pgno).isNone with
  | some pgno => .error (.errorf s!"restore: chain does not define page {pgno} of {commit}")
  | none =>
    if wraps commit then .error (.errorf "restore: page counter wraps around") else .ok ()

def indexChain (segments : List Bytes) : Res PageIndex := do
  let parts ← indexParts 0 segments
  let sel ← selectChain (parts.map (·.1))
  let order := (sel.snapshots ++ sel.deltas).map fun i => (segmentAt parts i).2
  let st ← addParts sel.snapshots 0 {} order
  if st.commit = 0 ∨ st.pageSize = 0 then .error (.errorf "restore: snapshot has no pages")
  else do
    let _ ← checkDefined st.refs st.commit
    .ok ⟨st.pageSize, st.commit, sel.watermark, st.refs, st.payloads⟩

def PageIndex.page (ix : PageIndex) (pgno : UInt32) : Res Bytes :=
  match ix.refs pgno with
  | none => .error (.errorf s!"restore: page {pgno} not defined")
  | some ref => do
    match ← pageMapLookup (ix.payloads.getD ref []) pgno with
    | none => .error (.errorf s!"restore: page {pgno} missing from part {ref}")
    | some data => .ok data

end CellHive.Restore
