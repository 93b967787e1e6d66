import CellHive.Go.Search
import CellHive.Replica.Index
import CellHive.Replica.Names

/-!
# On-demand page reads

`internal/replica/fetch.go`: a `PageFetcher` answers page reads from the page index
of the compacted objects, with the pages of newer L0 deltas in memory. `page` reads
one page, `readRun` a window of pages that lie next to each other in one object.

Objects are read a batch at a time by concurrent goroutines in the source; the model
reads a batch in key order, so of several failed reads it returns the first.
-/

namespace CellHive.Replica

open Go Ltx Bucket

/-- `PageFetcher`, over the bucket it reads from. -/
structure PageFetcher where
  idx : PageIndex
  entryOf : UInt32 → Option Nat
  l0 : UInt32 → Option Bytes
  commit : UInt32
  pageSize : UInt32
  watermark : UInt64

/-! ## Building a fetcher -/

/-- `entryOf`: the number of the last entry that lists a page. -/
def entryMap (entries : List PageIndexEntry) : UInt32 → Option Nat :=
  entries.zipIdx.foldl
    (fun m e => e.1.pages.foldl (fun m p => fun q => if q = p then some e.2 else m q) m)
    fun _ => none

/-- An object whose name proves that the index covers it is not read. -/
def coveredByName (watermark : UInt64) (key : Key) : Bool :=
  let name := nameOf key
  let snapshot :=
    match canonicalSnapshotTxID name with
    | some txid => decide (txid ≤ watermark.toNat)
    | none => false
  if snapshot then true
  else if hasSuffix name dotLtx || (batchSpanKnown name && hasSuffix name dotDeltaBatch) then
    let rangeName :=
      if hasSuffix name dotBatch then trimSuffix name dotDeltaBatch else trimSuffix name dotLtx
    match parseSegmentRange rangeName with
    | some span => decide (span.end ≤ watermark.toNat)
    | none => false
  else false

structure L0Delta where
  start : UInt64
  «end» : UInt64
  map : PageMap
  deriving DecidableEq, Repr

structure Collected where
  seen : List SegmentID
  deltas : List L0Delta

/-- One segment of an L0 object: a repeated identity is skipped, and so is everything
that is no delta above the watermark. -/
def collectSegment (watermark : UInt64) (st : Collected) (part : Bytes) : Res Collected := do
  let d ← decode part
  if d.1.id ∈ st.seen then .ok st
  else
    let st := { st with seen := d.1.id :: st.seen }
    if d.1.kind ≠ kindDelta ∨ d.1.endTxID ≤ watermark then .ok st
    else
      match decodeWALPageMap d.2 with
      | .error e => .error (.wrap "replica: decode L0 delta" e)
      | .ok m => .ok { st with deltas := st.deltas ++ [⟨d.1.startTxID, d.1.endTxID, m⟩] }

def collectObject (watermark : UInt64) (st : Collected) (object : Key × Bytes) : Res Collected :=
  match split object.2 with
  | .error e => .error (.wrap s!"replica: corrupt L0 object {String.ofList object.1}" e)
  | .ok parts => parts.foldlM (collectSegment watermark) st

/-- The L0 objects, `parallel` at a time: a batch is read whole before it is decoded. -/
def collectBatches (b : Store) (watermark : UInt64) (parallel : Nat) (st : Collected)
    (keys : List Key) : Res Collected :=
  if _h : keys = [] ∨ parallel = 0 then .ok st
  else do
    let raws ← (keys.take parallel).mapM fun k => do
      let raw ← b.get k
      .ok (k, raw)
    let st ← raws.foldlM (collectObject watermark) st
    collectBatches b watermark parallel st (keys.drop parallel)
termination_by keys.length
decreasing_by
  have : keys.length ≠ 0 := by simp_all
  simp only [List.length_drop]
  omega

def startLE (a b : L0Delta) : Prop := a.start ≤ b.start

instance : DecidableRel startLE := fun a b => inferInstanceAs (Decidable (a.start ≤ b.start))

/-- The deltas must continue the index without a gap. -/
def checkContiguous (expected : UInt64) : List L0Delta → Res Unit
  | [] => .ok ()
  | d :: rest =>
    if d.start ≠ expected then
      .error (.errorf s!"replica: non-contiguous L0 chain: expected txid {expected}, got {d.start}")
    else if d.end < d.start then
      .error (.errorf s!"replica: invalid L0 delta range {d.start}..{d.end}")
    else checkContiguous (d.end + 1) rest

/-- One delta goes over the older pages; the commit only grows. -/
def applyL0 (pf : PageFetcher) (d : L0Delta) : Res PageFetcher :=
  if pf.pageSize ≠ 0 ∧ d.map.pageSize ≠ pf.pageSize then
    .error (.errorf "replica: L0 page size mismatch")
  else
    .ok { pf with
      pageSize := if pf.pageSize = 0 then d.map.pageSize else pf.pageSize
      commit := if pf.commit < d.map.commit then d.map.commit else pf.commit
      l0 := d.map.pages.foldl (fun m p => fun q => if q = p.pageNo then some p.data else m q) pf.l0 }

/-- The default and the lower bound of `RestoreParallel`. -/
def readParallel (restoreParallel : Int) : Nat :=
  if restoreParallel ≤ 0 then 4 else restoreParallel.toNat

def newPageFetcher (b : Store) (restoreParallel : Int) (idx : PageIndex) (l0keys : List Key) :
    Res PageFetcher := do
  let shape ← pageIndexShape idx
  let keys := l0keys.filter fun k => !coveredByName idx.watermark k
  let collected ← collectBatches b idx.watermark (readParallel restoreParallel) ⟨[], []⟩ keys
  let deltas := collected.deltas.insertionSort startLE
  let _ ← checkContiguous (idx.watermark + 1) deltas
  let pf ← deltas.foldlM applyL0
    { idx, entryOf := entryMap idx.entries, l0 := fun _ => none, commit := shape.2,
      pageSize := shape.1, watermark := idx.watermark }
  if pf.pageSize = 0 ∨ pf.commit = 0 then .error (.errorf "replica: page index has no pages")
  else .ok { pf with watermark := (deltas.getLast?.map (·.end)).getD pf.watermark }

/-! ## Reading one page -/

def findPage (e : PageIndexEntry) (pgno : UInt32) : Option Nat :=
  let pos := search e.pages.length fun i => pgno ≤ e.pages.getD i 0
  if e.pages.length ≤ pos ∨ e.pages.getD pos 0 ≠ pgno then none else some pos

def readLocated (b : Store) (e : PageIndexEntry) (pos : Nat) (pgno : UInt32) : Res Bytes :=
  let loc := e.locs.getD pos default
  match b.rangedGet e.key (headerSize + loc.off) loc.stored with
  | .error err => .error (.wrap s!"replica: ranged read {String.ofList e.key} page {pgno}" err)
  | .ok raw =>
    if raw.length ≠ loc.stored then
      .error (.errorf s!"replica: short ranged read for page {pgno}")
    else frameData raw { loc with off := 0 }

def PageIndexEntry.frameSize (e : PageIndexEntry) : Nat := 4 + e.pageSize.toNat

def readFixed (b : Store) (e : PageIndexEntry) (pos : Nat) (pgno : UInt32) : Res Bytes :=
  match b.rangedGet e.key (headerSize + pageEntryOffset e.pageSize pos) e.frameSize with
  | .error err => .error (.wrap s!"replica: ranged read {String.ofList e.key} page {pgno}" err)
  | .ok raw =>
    if raw.length ≠ e.frameSize then
      .error (.errorf s!"replica: short ranged read for page {pgno}")
    else if uint32 raw ≠ pgno then
      .error (.errorf s!"replica: index offset mismatch for page {pgno} (got {uint32 raw})")
    else .ok (raw.drop 4)

def readFrame (b : Store) (e : PageIndexEntry) (pos : Nat) (pgno : UInt32) : Res Bytes :=
  if e.located then readLocated b e pos pgno else readFixed b e pos pgno

def page (b : Store) (pf : PageFetcher) (pgno : UInt32) : Res Bytes :=
  match pf.l0 pgno with
  | some data => .ok data
  | none =>
    match pf.entryOf pgno with
    | none => .error (.errorf s!"replica: page {pgno} not defined")
    | some ei =>
      let e := pf.idx.entries.getD ei default
      match findPage e pgno with
      | none => .error (.errorf s!"replica: page {pgno} missing from index entry")
      | some pos => readFrame b e pos pgno

/-! ## Reading a window -/

def runByteBudget : Nat := 2 ^ 20

/-- The frame of the `n`-th following page lies behind the one before it, in the same
codec, and the decoded window stays within the budget. -/
def fitsLocated (e : PageIndexEntry) (pos n : Nat) : Bool :=
  let next := e.locs.getD (pos + n) default
  let prev := e.locs.getD (pos + n - 1) default
  next.off = prev.off + prev.stored ∧ next.codec = prev.codec ∧
    (n + 1) * e.pageSize.toNat ≤ runByteBudget

/-- The fixed-size window stays within the budget; the source adds the page number's
four bytes in 32 bits. -/
def fitsFixed (e : PageIndexEntry) (n : Nat) : Bool :=
  (n + 1) * (4 + e.pageSize).toNat ≤ runByteBudget

/-- The window may grow by its `n`-th following page. -/
def fits (e : PageIndexEntry) (pos n : Nat) : Bool :=
  if e.located then fitsLocated e pos n else fitsFixed e n

/-- The loop that grows a window of `n` pages: the next page must be listed next and
have the next number. -/
def growRun (e : PageIndexEntry) (maxPages : Int) (pgno : UInt32) (pos n : Nat) : Nat :=
  if _h : n < maxPages ∧ pos + n < e.pages.length ∧
      e.pages.getD (pos + n) 0 = pgno + UInt32.ofNat n then
    if fits e pos n then growRun e maxPages pgno pos (n + 1) else n
  else n
termination_by e.pages.length - (pos + n)

/-- The frames of a located window, cut from the bytes `raw` from offset `at` on. -/
def cutLocated (short : Err) (raw : Bytes) : Nat → List PageLoc → Res (List Bytes)
  | _, [] => .ok []
  | start, loc :: rest =>
    if raw.length < start + loc.stored then .error short
    else do
      let data ← frameData (slice raw start (start + loc.stored)) { loc with off := 0 }
      let pages ← cutLocated short raw (start + loc.stored) rest
      .ok (data :: pages)

/-- The frames `k..k+n` of a fixed-size window. -/
def cutFixed (e : PageIndexEntry) (pgno : UInt32) (raw : Bytes) : Nat → Nat → Res (List Bytes)
  | _, 0 => .ok []
  | k, n + 1 =>
    let start := k * e.frameSize
    let got := uint32 (raw.drop start)
    if got ≠ pgno + UInt32.ofNat k then
      .error (.errorf
        s!"replica: index offset mismatch for page {pgno + UInt32.ofNat k} (got {got})")
    else do
      let pages ← cutFixed e pgno raw (k + 1) n
      .ok (slice raw (start + 4) (start + e.frameSize) :: pages)

def readWindow (b : Store) (e : PageIndexEntry) (pos : Nat) (pgno : UInt32) (n : Nat) :
    Res (List Bytes) :=
  let span := s!"{pgno}..{pgno + UInt32.ofNat n - 1}"
  let failed := fun err : Err =>
    Except.error (GoError.wrap s!"replica: ranged read {String.ofList e.key} pages {span}" err)
  let short : Err := .errorf s!"replica: short ranged read for pages {span}"
  if e.located then
    let locs := (e.locs.drop pos).take n
    match b.rangedGet e.key (headerSize + (e.locs.getD pos default).off)
        (locs.map (·.stored)).sum with
    | .error err => failed err
    | .ok raw => cutLocated short raw 0 locs
  else
    match b.rangedGet e.key (headerSize + pageEntryOffset e.pageSize pos) (n * e.frameSize) with
    | .error err => failed err
    | .ok raw =>
      if raw.length ≠ n * e.frameSize then .error short else cutFixed e pgno raw 0 n

def readRun (b : Store) (pf : PageFetcher) (pgno : UInt32) (maxPages : Int) : Res (List Bytes) :=
  match pf.l0 pgno with
  | some data => .ok [data]
  | none =>
    match pf.entryOf pgno with
    | none => .error (.errorf s!"replica: page {pgno} not defined")
    | some ei =>
      let e := pf.idx.entries.getD ei default
      match findPage e pgno with
      | none => .error (.errorf s!"replica: page {pgno} missing from index entry")
      | some pos => readWindow b e pos pgno (growRun e (max maxPages 1) pgno pos 1)

end CellHive.Replica
