import CellHive.Ltx.PageMap

/-!
# Snapshot parts

`internal/ltx/snapshot_parts.go`: a complete full-page snapshot (pages 1..commit)
is split into segments of bounded size. Every part carries the whole page count and
a contiguous range of pages; a snapshot of one part is written without the paging
flag.
-/

namespace CellHive.Ltx

open Go

def defaultSnapshotPartBytes : Int := 8 * 2 ^ 20

def maxSnapshotParts : Nat := 2 ^ 15

/-- The per-page checks of `EncodeSnapshotPart`: consecutive numbers from `want` on,
each page of the page size. `i` is the position in the part. -/
def checkPart (pageSize : UInt32) : Nat → Nat → List WALPage → Res Unit
  | _, _, [] => .ok ()
  | want, i, p :: rest =>
    if p.pageNo.toNat ≠ want then
      .error (.errorf s!"ltx: snapshot pages not contiguous: got {p.pageNo} at {i}, want {want}")
    else if p.data.length ≠ pageSize.toNat then
      .error (.errorf s!"ltx: snapshot page {p.pageNo} length {p.data.length}, want {pageSize}")
    else checkPart pageSize (want + 1) (i + 1) rest

def partHeader (h : Header) (partIndex total : Nat) : Header :=
  { h with flags := if total = 1 then 0 else snapshotFlags partIndex }

def encodeSnapshotPart (compress : Bool) (h : Header) (pageSize commit : UInt32)
    (pages : List WALPage) (partIndex total : Nat) : Res Bytes :=
  if h.kind ≠ kindSnapshot then .error (.errorf "ltx: EncodeSnapshotPart requires KindSnapshot")
  else if pageSize = 0 then .error (.errorf "ltx: zero WAL page size")
  else if commit = 0 then .error (.errorf "ltx: snapshot has no pages")
  else if total < 1 ∨ total ≤ partIndex then
    .error (.errorf s!"ltx: snapshot part {partIndex} of {total} out of range")
  else if maxSnapshotParts < total then
    .error (.errorf s!"ltx: snapshot has {total} parts, want at most {maxSnapshotParts}")
  else
    match pages with
    | [] => .error (.errorf s!"ltx: empty snapshot part {partIndex} of {total}")
    | page :: rest =>
      let first := page.pageNo.toNat
      let last := first + (rest.length + 1) - 1
      if first < 1 ∨ commit.toNat < last then
        .error (.errorf s!"ltx: snapshot part {partIndex} covers pages {first}..{last}, want within 1..{commit}")
      else if partIndex = 0 ∧ first ≠ 1 then
        .error (.errorf s!"ltx: first snapshot part starts at page {first}, want 1")
      else if 0 < partIndex ∧ first = 1 then
        .error (.errorf s!"ltx: snapshot part {partIndex} starts at page 1")
      else if partIndex = total - 1 ∧ last ≠ commit.toNat then
        .error (.errorf s!"ltx: last snapshot part ends at page {last}, want {commit}")
      else do
        let _ ← checkPart pageSize first 0 (page :: rest)
        let payload ← encodeWALPageMap compress pageSize commit 1 (page :: rest)
        .ok (encode (partHeader h partIndex total) payload)

def encodePartsFrom (compress : Bool) (h : Header) (pageSize commit : UInt32) (perPart total : Nat)
    (partIndex : Nat) (pages : List WALPage) : Res (List Bytes) :=
  if hp : pages = [] ∨ perPart = 0 then .ok []
  else do
    let segment ← encodeSnapshotPart compress h pageSize commit (pages.take perPart) partIndex total
    let rest ← encodePartsFrom compress h pageSize commit perPart total (partIndex + 1)
      (pages.drop perPart)
    .ok (segment :: rest)
termination_by pages.length
decreasing_by
  have := List.length_pos_iff.2 (not_or.1 hp).1
  simp only [List.length_drop]
  omega

/-- How many pages of `pageSize` bytes go into a part of `maxBytes` bytes. -/
def pagesPerPart (pageSize : UInt32) (maxBytes : Int) : Nat :=
  max 1 ((maxBytes.toNat - headerSize - 20) / (4 + pageSize.toNat))

def encodeSnapshotParts (compress : Bool) (h : Header) (pageSize commit : UInt32)
    (pages : List WALPage) (maxBytes : Int) : Res (List Bytes) :=
  if h.kind ≠ kindSnapshot then .error (.errorf "ltx: EncodeSnapshotParts requires KindSnapshot")
  else if pageSize = 0 then .error (.errorf "ltx: zero WAL page size")
  else if commit = 0 then .error (.errorf "ltx: snapshot has no pages")
  else if maxBytes < headerSize + 20 + (4 + pageSize.toNat : Nat) then
    .error (.errorf s!"ltx: snapshot part budget {maxBytes} too small for page size {pageSize}")
  else if UInt32.ofNat pages.length ≠ commit then
    .error (.errorf s!"ltx: snapshot has {pages.length} pages, want {commit}")
  else
    let perPart := pagesPerPart pageSize maxBytes
    let total := (pages.length + perPart - 1) / perPart
    encodePartsFrom compress h pageSize commit perPart total 0 pages

end CellHive.Ltx
