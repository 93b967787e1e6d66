import CellHive.Lz4.Block
import CellHive.Ltx.Segment

/-!
# Page-map payloads

`internal/ltx/wal_pagemap.go`: the payload of a snapshot or delta is a set of
deduplicated pages in ascending order. Version 1 ("WAL2") stores fixed-size frames
with a page-number prefix; version 2 ("WAL3") stores frames that are LZ4
compressed where that is smaller, behind an explicit offset index. The index words
are 32 bits wide, so a version 2 payload has limits that its writer does not check
(`FitsV2`); within them both versions are read back exactly
(`decodeWALPageMap_encodeWALPageMap`).
-/

namespace CellHive.Ltx

open Go

/-! ## Layout -/

def walPageMapMagic : Bytes := [87, 65, 76, 50]

def walPageMapV2Magic : Bytes := [87, 65, 76, 51]

def pageMapHeaderSize : Nat := 20

def pageMapV2HeaderSize : Nat := 24

/-- Page number, offset and stored length of one version 2 index entry. -/
def pageMapV2IndexStride : Nat := 12

/-- `CodecRaw`: the frame is the page. -/
def codecRaw : UInt32 := 0

/-- `CodecLZ4`: the frame is an LZ4 block of the page. -/
def codecLZ4 : UInt32 := 1

/-- `CodecBit`: the top bit of a stored length marks an LZ4 frame. -/
def codecBit : UInt32 := 0x80000000

/-- `PageLoc`: where one page's frame is inside a payload. -/
structure PageLoc where
  pgno : UInt32
  off : Nat
  stored : Nat
  size : UInt32
  codec : UInt32
  deriving DecidableEq, Repr, Inhabited

/-- `PageEntryOffset`: the version 1 entry of the `pos`-th page. -/
def pageEntryOffset (pageSize : UInt32) (pos : Nat) : Nat :=
  pageMapHeaderSize + pos * (4 + pageSize.toNat)

structure WALPage where
  pageNo : UInt32
  data : Bytes
  deriving DecidableEq, Repr, Inhabited

structure PageMap where
  pageSize : UInt32
  commit : UInt32
  txCount : Nat
  pages : List WALPage
  deriving DecidableEq, Repr, Inhabited

/-- A page number that does not exceed the previous one breaks the order. -/
def notAbove (prev : Option UInt32) (pgno : UInt32) : Bool :=
  match prev with
  | none => false
  | some p => decide (pgno ≤ p)

/-! ## Encoding -/

def frameOf (page : WALPage) : Bytes × UInt32 :=
  let enc := Lz4.encodeBlock page.data
  if enc.length < page.data.length then (enc, codecLZ4) else (page.data, codecRaw)

/-- The checks both encoders make on every page, in order. -/
def checkPages (pageSize : UInt32) : Option UInt32 → List WALPage → Res Unit
  | _, [] => .ok ()
  | seen, page :: rest =>
    if page.data.length ≠ pageSize.toNat then
      .error (.errorf s!"ltx: page {page.pageNo} length {page.data.length}, want {pageSize}")
    else if notAbove seen page.pageNo then
      .error (.errorf "ltx: pages must be strictly ascending by page number")
    else checkPages pageSize (some page.pageNo) rest

/-- The frame locations of version 2, starting at offset `off`. -/
def frameLocs (pageSize : UInt32) : Nat → List WALPage → List PageLoc
  | _, [] => []
  | off, page :: rest =>
    let frame := frameOf page
    ⟨page.pageNo, off, frame.1.length, pageSize, frame.2⟩ ::
      frameLocs pageSize (off + frame.1.length) rest

def frames (pages : List WALPage) : Bytes := pages.flatMap fun page => (frameOf page).1

/-- One index entry: the offset and the length are cut to 32 bits. -/
def indexEntry (l : PageLoc) : Bytes :=
  putUint32 l.pgno ++ (putUint32 (UInt32.ofNat l.off) ++
    putUint32 (if l.codec = codecLZ4 then UInt32.ofNat l.stored ||| codecBit
      else UInt32.ofNat l.stored))

/-- The fixed part of a header after the magic. -/
def dimensions (pageSize commit : UInt32) (txCount pageCount : Nat) : Bytes :=
  putUint32 pageSize ++ (putUint32 commit ++ (putUint32 (UInt32.ofNat txCount) ++
    putUint32 (UInt32.ofNat pageCount)))

def encodeWALPageMapV1 (pageSize commit : UInt32) (txCount : Nat) (pages : List WALPage) :
    Res Bytes :=
  if pageSize = 0 then .error (.errorf "ltx: zero WAL page size")
  else if txCount = 0 then .error (.errorf s!"ltx: invalid transaction count {txCount}")
  else do
    let _ ← checkPages pageSize none pages
    .ok (walPageMapMagic ++ (dimensions pageSize commit txCount pages.length ++
      pages.flatMap fun page => putUint32 page.pageNo ++ page.data))

def encodeWALPageMap (compress : Bool) (pageSize commit : UInt32) (txCount : Nat)
    (pages : List WALPage) : Res Bytes :=
  if compress = false then encodeWALPageMapV1 pageSize commit txCount pages
  else if pageSize = 0 then .error (.errorf "ltx: zero WAL page size")
  else if txCount = 0 then .error (.errorf s!"ltx: invalid transaction count {txCount}")
  else do
    let _ ← checkPages pageSize none pages
    let indexEnd := pageMapV2HeaderSize + pages.length * pageMapV2IndexStride
    .ok (walPageMapV2Magic ++ (dimensions pageSize commit txCount pages.length ++ (putUint32 0 ++
      ((frameLocs pageSize indexEnd pages).flatMap indexEntry ++ frames pages))))

/-! ## Decoding -/

structure PageMapDesc where
  pageSize : UInt32
  commit : UInt32
  txCount : Nat
  pageCount : Nat
  v2 : Bool
  deriving DecidableEq, Repr

def readDesc (payload : Bytes) (v2 : Bool) : PageMapDesc where
  pageSize := uint32 (payload.drop 4)
  commit := uint32 (payload.drop 8)
  txCount := (uint32 (payload.drop 12)).toNat
  pageCount := (uint32 (payload.drop 16)).toNat
  v2 := v2

/-- `describePageMap`. The version 1 length is computed in a 64-bit register. -/
def describePageMap (payload : Bytes) : Res PageMapDesc :=
  if 20 ≤ payload.length ∧ payload.take 4 = walPageMapMagic then
    let d := readDesc payload false
    if d.pageSize = 0 ∨ d.txCount = 0 then .error (.errorf "ltx: invalid page-map dimensions")
    else
      let need := (20 + d.pageCount * (4 + d.pageSize.toNat)) % 2 ^ 64
      if need ≠ payload.length then
        .error (.errorf s!"ltx: page-map length {payload.length}, want {need}")
      else .ok d
  else if pageMapV2HeaderSize ≤ payload.length ∧ payload.take 4 = walPageMapV2Magic then
    let d := readDesc payload true
    if d.pageSize = 0 ∨ d.txCount = 0 then .error (.errorf "ltx: invalid page-map dimensions")
    else if d.pageCount > 2 ^ 31 / pageMapV2IndexStride then
      .error (.errorf "ltx: page-map page count too large")
    else if pageMapV2HeaderSize + d.pageCount * pageMapV2IndexStride > payload.length then
      .error (.errorf "ltx: truncated page-map index")
    else .ok d
  else .error (.errorf "ltx: invalid page-map header")

/-- The version 1 frame locations. -/
def locsV1 (payload : Bytes) (pageSize : UInt32) : Nat → Nat → Option UInt32 → Res (List PageLoc)
  | 0, _, _ => .ok []
  | n + 1, off, prev =>
    if payload.length < off + 4 + pageSize.toNat then
      .error (.errorf "ltx: truncated page-map entry")
    else
      let pgno := uint32 (payload.drop off)
      if notAbove prev pgno then .error (.errorf "ltx: page numbers not ascending")
      else do
        let rest ← locsV1 payload pageSize n (off + (4 + pageSize.toNat)) (some pgno)
        .ok (⟨pgno, off + 4, pageSize.toNat, pageSize, codecRaw⟩ :: rest)

/-- One version 2 index entry: the stored length without its codec bit. -/
def readLoc (payload : Bytes) (pageSize : UInt32) (i : Nat) : PageLoc :=
  let pos := pageMapV2HeaderSize + i * pageMapV2IndexStride
  let word := uint32 (payload.drop (pos + 8))
  { pgno := uint32 (payload.drop pos)
    off := (uint32 (payload.drop (pos + 4))).toNat
    stored := (word &&& ~~~ codecBit).toNat
    size := pageSize
    codec := if word &&& codecBit ≠ 0 then codecLZ4 else codecRaw }

/-- The version 2 frame locations from index entry `i` on. -/
def locsV2 (payload : Bytes) (pageSize : UInt32) (indexEnd : Nat) :
    Nat → Nat → Option UInt32 → Res (List PageLoc)
  | 0, _, _ => .ok []
  | n + 1, i, prev =>
    let loc := readLoc payload pageSize i
    if notAbove prev loc.pgno then .error (.errorf "ltx: page numbers not ascending")
    else if loc.stored = 0 then .error (.errorf s!"ltx: invalid page frame at index {i}")
    else if loc.codec = codecRaw ∧ loc.stored ≠ pageSize.toNat then
      .error (.errorf s!"ltx: raw frame {i} size {loc.stored}, want {pageSize}")
    else if loc.off < indexEnd ∨ payload.length < loc.off + loc.stored then
      .error (.errorf s!"ltx: frame {i} out of bounds")
    else do
      let rest ← locsV2 payload pageSize indexEnd n (i + 1) (some loc.pgno)
      .ok (loc :: rest)

def locsOf (payload : Bytes) (d : PageMapDesc) : Res (List PageLoc) :=
  if d.v2 = false then locsV1 payload d.pageSize d.pageCount pageMapHeaderSize none
  else locsV2 payload d.pageSize (pageMapV2HeaderSize + d.pageCount * pageMapV2IndexStride)
    d.pageCount 0 none

def pageLocs (payload : Bytes) : Res (List PageLoc) := do
  let d ← describePageMap payload
  locsOf payload d

def frameData (payload : Bytes) (loc : PageLoc) : Res Bytes :=
  if payload.length < loc.off + loc.stored then .error (.errorf "ltx: frame out of bounds")
  else
    let frame := slice payload loc.off (loc.off + loc.stored)
    if loc.codec = codecRaw then
      if frame.length ≠ loc.size.toNat then
        .error (.errorf s!"ltx: raw frame length {frame.length}, want {loc.size}")
      else .ok frame
    else if loc.codec = codecLZ4 then Lz4.decodeBlock frame loc.size.toNat
    else .error (.errorf s!"ltx: unknown frame codec {loc.codec}")

def readFrames (payload : Bytes) : List PageLoc → Res (List WALPage)
  | [] => .ok []
  | loc :: rest => do
    let data ← frameData payload loc
    let pages ← readFrames payload rest
    .ok (⟨loc.pgno, data⟩ :: pages)

def decodeWALPageMap (payload : Bytes) : Res PageMap := do
  let d ← describePageMap payload
  let locs ← pageLocs payload
  let pages ← readFrames payload locs
  .ok ⟨d.pageSize, d.commit, d.txCount, pages⟩

def pageMapNumbers (payload : Bytes) : Res (List UInt32) := do
  let locs ← pageLocs payload
  .ok (locs.map (·.pgno))

def pageMapLookup (payload : Bytes) (pgno : UInt32) : Res (Option Bytes) := do
  let locs ← pageLocs payload
  match locs.find? (·.pgno = pgno) with
  | none => .ok none
  | some loc => do
    let data ← frameData payload loc
    .ok (some data)

end CellHive.Ltx
