import CellHive.Ltx.PageMap
import CellHive.Bucket.Store

/-!
# Page index of compacted objects

`internal/replica/index.go`: which pages each compacted object holds and, for
compressed objects, where each page's frame is inside it, with the binary form of the
index.
-/

namespace CellHive.Replica

open Go Ltx

/-- `PageIndexEntry`: the pages of one compacted object. `locs` is empty in a version 1
index, where frames have a fixed size. Offsets and lengths come from unsigned words. -/
structure PageIndexEntry where
  key : Bucket.Key
  pageSize : UInt32
  commit : UInt32
  pages : List UInt32
  locs : List PageLoc
  deriving DecidableEq, Repr, Inhabited

structure PageIndex where
  watermark : UInt64
  entries : List PageIndexEntry
  deriving DecidableEq, Repr

/-- The entry carries one frame location for each page. -/
def PageIndexEntry.located (e : PageIndexEntry) : Bool :=
  e.locs.length = e.pages.length ∧ 0 < e.locs.length

/-- `pageIndexShape`, from entry number `ei` on: the common page size and the largest commit. -/
def shapeFrom (ei : Nat) (pageSize commit : UInt32) : List PageIndexEntry → Res (UInt32 × UInt32)
  | [] => .ok (pageSize, commit)
  | e :: rest =>
    if e.pageSize = 0 then .error (.errorf s!"replica: index entry {ei} has zero page size")
    else if pageSize ≠ 0 ∧ e.pageSize ≠ pageSize then
      .error (.errorf "replica: index page size mismatch")
    else
      shapeFrom (ei + 1) (if pageSize = 0 then e.pageSize else pageSize)
        (if commit < e.commit then e.commit else commit) rest

def pageIndexShape (idx : PageIndex) : Res (UInt32 × UInt32) := shapeFrom 0 0 0 idx.entries

/-! ## Binary form -/

def indexMagic : Bytes := [67, 73, 68, 88]

def indexMagicV2 : Bytes := [67, 73, 68, 50]

def textBytes (s : Str) : Bytes := s.map fun c => UInt8.ofNat c.toNat

def bytesText (b : Bytes) : Str := b.map fun x => Char.ofNat x.toNat

/-- The page numbers of an entry must ascend. -/
def ascendingPages : List UInt32 → Bool
  | [] => true
  | [_] => true
  | p :: q :: rest => decide (p < q) && ascendingPages (q :: rest)

/-- One entry; its locations stand behind its page numbers. -/
def encodeIndexEntry (e : PageIndexEntry) : Res Bytes :=
  if 0xffff < e.key.length then .error (.errorf "replica: index key too long")
  else if ascendingPages e.pages = false then .error (.errorf "replica: index pages not ascending")
  else if e.locs ≠ [] ∧ e.locs.length ≠ e.pages.length then
    .error (.errorf "replica: index loc/page mismatch")
  else
    .ok (putUint16 (UInt16.ofNat e.key.length) ++ (textBytes e.key ++ (putUint32 e.pageSize ++
      (putUint32 e.commit ++ (putUint32 (UInt32.ofNat e.pages.length) ++
        (e.pages.flatMap putUint32 ++ e.locs.flatMap indexEntry))))))

/-- `EncodeIndex`: version 2 as soon as one entry has locations. -/
def encodeIndex (idx : PageIndex) : Res Bytes := do
  let entries ← idx.entries.mapM encodeIndexEntry
  let magic := if idx.entries.any (·.locs ≠ []) then indexMagicV2 else indexMagic
  .ok (magic ++ (putUint64 idx.watermark ++ (putUint32 (UInt32.ofNat idx.entries.length) ++
    entries.flatten)))

/-- The `n` page numbers at the start of some bytes. -/
def decodePageNumbers : Nat → Bytes → List UInt32
  | 0, _ => []
  | n + 1, data => uint32 data :: decodePageNumbers n (data.drop 4)

/-- The locations of the pages from number `j` of the entry on. -/
def decodeIndexLocs (pageSize : UInt32) : Nat → List UInt32 → Bytes → Res (List PageLoc)
  | _, [], _ => .ok []
  | j, p :: pages, data =>
    let word := uint32 (data.drop 8)
    let loc : PageLoc :=
      { pgno := uint32 data
        off := (uint32 (data.drop 4)).toNat
        stored := (word &&& ~~~ codecBit).toNat
        size := pageSize
        codec := if word &&& codecBit ≠ 0 then codecLZ4 else codecRaw }
    if loc.pgno ≠ p ∨ loc.stored = 0 then .error (.errorf s!"replica: invalid index location {j}")
    else do
      let rest ← decodeIndexLocs pageSize (j + 1) pages (data.drop 12)
      .ok (loc :: rest)

def decodeIndexEntry (v2 : Bool) (data : Bytes) : Res (PageIndexEntry × Bytes) :=
  if data.length < 2 then .error (.errorf "replica: truncated index entry")
  else
    let keyLen := (uint16 data).toNat
    let data := data.drop 2
    if data.length < keyLen + 12 then .error (.errorf "replica: truncated index entry")
    else
      let key := bytesText (data.take keyLen)
      let data := data.drop keyLen
      let pageSize := uint32 data
      let commit := uint32 (data.drop 4)
      let pageCount := (uint32 (data.drop 8)).toNat
      let data := data.drop 12
      if pageSize = 0 ∨ data.length < pageCount * 4 then
        .error (.errorf "replica: invalid index entry dimensions")
      else
        let pages := decodePageNumbers pageCount data
        let data := data.drop (pageCount * 4)
        if v2 = false then .ok (⟨key, pageSize, commit, pages, []⟩, data)
        else if data.length < pageCount * 12 then
          .error (.errorf "replica: truncated index locations")
        else do
          let locs ← decodeIndexLocs pageSize 0 pages data
          .ok (⟨key, pageSize, commit, pages, locs⟩, data.drop (pageCount * 12))

def decodeIndexEntries (v2 : Bool) : Nat → Bytes → Res (List PageIndexEntry)
  | 0, _ => .ok []
  | n + 1, data => do
    let d ← decodeIndexEntry v2 data
    let rest ← decodeIndexEntries v2 n d.2
    .ok (d.1 :: rest)

/-- `DecodeIndex`: bytes behind the last entry are not looked at. -/
def decodeIndex (data : Bytes) : Res PageIndex :=
  if data.length < 16 then .error (.errorf "replica: invalid index header")
  else
    let v2 := data.take 4 == indexMagicV2
    if v2 = false ∧ data.take 4 ≠ indexMagic then .error (.errorf "replica: invalid index header")
    else do
      let entries ← decodeIndexEntries v2 (uint32 (data.drop 12)).toNat (data.drop 16)
      .ok ⟨uint64 (data.drop 4), entries⟩

end CellHive.Replica
