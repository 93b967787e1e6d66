import CellHive.Go.Bytes
import CellHive.Errors

/-!
# Following a write-ahead log

`internal/wal/wal.go`: a cursor reads the committed frames that were added to a SQLite
WAL since the last poll. Frames carry the salts of their generation and a checksum
that is chained from the header on; a frame with other salts ends the generation, a
frame with a wrong checksum is torn. Salts that differ from the recorded ones, and a
file that is shorter than the cursor's position, are reported as a checkpoint.
-/

namespace CellHive.Wal

open Go

def walHeaderSize : Nat := 32

def frameHdrSize : Nat := 24

/-- `magicLE`; the low bit selects the byte order of checksums. -/
def magicLE : UInt32 := 0x377f0682

def magicBE : UInt32 := 0x377f0683

structure Header where
  magic : UInt32
  version : UInt32
  pageSize : UInt32
  checkpointSeq : UInt32
  salt1 : UInt32
  salt2 : UInt32
  checksum1 : UInt32
  checksum2 : UInt32
  deriving DecidableEq, Repr, Inhabited

/-- `Frame`; a nonzero `dbSize` marks a commit. -/
structure Frame where
  pageNo : UInt32
  dbSize : UInt32
  data : Bytes
  deriving DecidableEq, Repr

/-- `Transaction`: frames that end with a commit. -/
structure Transaction where
  frames : List Frame
  dbSize : UInt32
  deriving DecidableEq, Repr

def hex8 (x : UInt32) : String :=
  String.ofList ((List.range 8).map fun i => Nat.digitChar (x.toNat / 16 ^ (7 - i) % 16))

def parseHeader (b : Bytes) : Res Header :=
  if b.length < walHeaderSize then .error (.sentinel .noWAL)
  else
    let h : Header :=
      { magic := uint32 b
        version := uint32 (b.drop 4)
        pageSize := uint32 (b.drop 8)
        checkpointSeq := uint32 (b.drop 12)
        salt1 := uint32 (b.drop 16)
        salt2 := uint32 (b.drop 20)
        checksum1 := uint32 (b.drop 24)
        checksum2 := uint32 (b.drop 28) }
    if h.magic ≠ magicLE ∧ h.magic ≠ magicBE then
      .error (.errorf s!"wal: bad magic 0x{hex8 h.magic}")
    else if h.pageSize = 0 then .error (.errorf "wal: zero page size")
    else .ok h

/-! ## Checksums -/

/-- The two halves of a running checksum. -/
abbrev Sums := UInt32 × UInt32

/-- `checksumBytes`: eight bytes at a time, a shorter rest is left out. -/
def checksumBytes (big : Bool) (sums : Sums) : Bytes → Sums
  | a :: b :: c :: d :: e :: f :: g :: h :: rest =>
    let word := fun bytes => if big then uint32 bytes else uint32LE bytes
    let s1 := sums.1 + (word [a, b, c, d] + sums.2)
    let s2 := sums.2 + (word [e, f, g, h] + s1)
    checksumBytes big (s1, s2) rest
  | _ => sums

def checksumBig (h : Header) : Bool := h.magic &&& 1 = 1

def headerChecksum (raw : Bytes) (h : Header) : Sums :=
  checksumBytes (checksumBig h) (0, 0) (raw.take (walHeaderSize - 8))

def frameChecksum (frameHdr page : Bytes) (sums : Sums) (big : Bool) : Sums :=
  checksumBytes big (checksumBytes big sums (frameHdr.take 8)) page

/-! ## Scanning frames -/

def Header.frameSize (h : Header) : Nat := frameHdrSize + h.pageSize.toNat

/-- The header of the `i`-th frame of a run of frames. -/
def frameHdrAt (h : Header) (tail : Bytes) (i : Nat) : Bytes :=
  slice tail (i * h.frameSize) (i * h.frameSize + frameHdrSize)

def pageAt (h : Header) (tail : Bytes) (i : Nat) : Bytes :=
  slice tail (i * h.frameSize + frameHdrSize) (i * h.frameSize + h.frameSize)

def saltsMatch (h : Header) (frameHdr : Bytes) : Bool :=
  uint32 (frameHdr.drop 8) = h.salt1 ∧ uint32 (frameHdr.drop 12) = h.salt2

def storedSums (frameHdr : Bytes) : Sums := (uint32 (frameHdr.drop 16), uint32 (frameHdr.drop 20))

/-- The loop state of `Poll`: the valid frames, how many of them end with the last commit,
and the checksums behind both. -/
structure Scan where
  frames : List Frame
  sums : Sums
  committed : Nat
  committedSums : Sums
  bad : Bool

def scanFrames (h : Header) (tail : Bytes) : Nat → Nat → Scan → Scan
  | 0, _, st => st
  | count + 1, i, st =>
    let frameHdr := frameHdrAt h tail i
    if saltsMatch h frameHdr = false then st
    else
      let page := pageAt h tail i
      let sums := frameChecksum frameHdr page st.sums (checksumBig h)
      if sums ≠ storedSums frameHdr then { st with bad := true }
      else
        let frame : Frame := ⟨uint32 frameHdr, uint32 (frameHdr.drop 4), page⟩
        let frames := st.frames ++ [frame]
        scanFrames h tail count (i + 1)
          { st with
            frames
            sums
            committed := if frame.dbSize = 0 then st.committed else frames.length
            committedSums := if frame.dbSize = 0 then st.committedSums else sums }

/-- Cuts frames into transactions; `open_` holds the frames since the last commit. -/
def cutTransactions (open_ : List Frame) : List Frame → List Transaction
  | [] => []
  | frame :: rest =>
    if frame.dbSize = 0 then cutTransactions (open_ ++ [frame]) rest
    else ⟨open_ ++ [frame], frame.dbSize⟩ :: cutTransactions [] rest

/-! ## Polling -/

/-- `Cursor`, without the open file and the read counter. -/
structure Cursor where
  haveSalt : Bool
  salt1 : UInt32
  salt2 : UInt32
  cksum : Sums
  haveCksum : Bool
  frameIdx : Nat
  deriving DecidableEq, Repr

/-- `NewCursor`, and the state after `reset`. -/
def Cursor.empty : Cursor := ⟨false, 0, 0, (0, 0), false, 0⟩

/-- What a poll finds at the WAL's path: no file, a file that cannot be opened, or a file
with the size `Stat` reports and its contents when the header and the frames are read
(another process may write in between). -/
inductive Observed where
  | missing
  | failed (text : String)
  | file (size : Nat) (atHeader atTail : Bytes)

structure PollResult where
  header : Header := default
  newCommitted : List Frame := []
  transactions : List Transaction := []
  checkpoint : Bool := false
  deriving DecidableEq, Repr

structure Polled where
  cursor : Cursor
  result : PollResult
  err : Option Err

/-- The file is gone or too short for a header. -/
def Cursor.noFile (c : Cursor) : Polled :=
  if c.haveSalt then ⟨.empty, { checkpoint := true }, none⟩
  else ⟨c, {}, some (.sentinel .noWAL)⟩

/-- The salts changed, or the file is shorter than the cursor's position. -/
def Cursor.rotated (c : Cursor) (h : Header) (size : Nat) : Bool :=
  (c.haveSalt ∧ (c.salt1 ≠ h.salt1 ∨ c.salt2 ≠ h.salt2)) ∨
    size < walHeaderSize + c.frameIdx * h.frameSize

/-- The cursor for a valid header: at the start of a new generation, or where it was. -/
def Cursor.anchor (c : Cursor) (h : Header) (sums : Sums) (size : Nat) : Cursor :=
  if c.rotated h size then ⟨true, h.salt1, h.salt2, sums, true, 0⟩
  else
    { c with
      haveSalt := true
      salt1 := h.salt1
      salt2 := h.salt2
      cksum := if c.haveCksum then c.cksum else sums
      haveCksum := true }

/-- The state the frame loop starts from. -/
def Scan.start (sums : Sums) : Scan := ⟨[], sums, 0, sums, false⟩

def Cursor.pollFrames (c : Cursor) (h : Header) (checkpoint : Bool) (size : Nat) (atTail : Bytes) :
    Polled :=
  let total := (size - walHeaderSize) / h.frameSize
  if total ≤ c.frameIdx then ⟨c, { header := h, checkpoint }, none⟩
  else
    let count := total - c.frameIdx
    let offset := walHeaderSize + c.frameIdx * h.frameSize
    if atTail.length < offset + count * h.frameSize then
      -- the file changed after Stat: the next poll starts over
      ⟨.empty, { checkpoint := true }, none⟩
    else
      let scan := scanFrames h (slice atTail offset (offset + count * h.frameSize)) count 0
        (.start c.cksum)
      let committed := scan.frames.take scan.committed
      let cursor :=
        if scan.committed = 0 then c
        else { c with frameIdx := c.frameIdx + scan.committed, cksum := scan.committedSums }
      { cursor
        result :=
          { header := h
            newCommitted := committed
            transactions := cutTransactions [] committed
            checkpoint }
        err :=
          if scan.bad ∧ scan.committed = 0 then
            some (.wrap s!"frame {cursor.frameIdx}" (.sentinel .walChecksum))
          else none }

def Cursor.poll (c : Cursor) : Observed → Polled
  | .missing => c.noFile
  | .failed text => ⟨c, {}, some (.errorf text)⟩
  | .file size atHeader atTail =>
    if size < walHeaderSize then c.noFile
    else if atHeader.length < walHeaderSize then ⟨c, {}, some (.errorf "EOF")⟩
    else
      let raw := atHeader.take walHeaderSize
      match parseHeader raw with
      | .error e => ⟨c, {}, some e⟩
      | .ok h =>
        let sums := headerChecksum raw h
        if sums ≠ (h.checksum1, h.checksum2) then
          ⟨c, { header := h }, some (.wrap "header" (.sentinel .walChecksum))⟩
        else (c.anchor h sums size).pollFrames h (c.rotated h size) size atTail

end CellHive.Wal
