import CellHive.Ltx.PageMap

/-!
# Page maps of transactions

`PageMapFromTransactions` of `internal/ltx/wal_pagemap.go`: the last write of each page
over a list of committed transactions, in ascending page order.
-/

namespace CellHive.Ltx

open Go

structure WALFrame where
  pageNo : UInt32
  dbSize : UInt32
  data : Bytes
  deriving DecidableEq, Repr

structure WALTransaction where
  frames : List WALFrame
  deriving DecidableEq, Repr

/-- Replaces the page in place, or adds it at the end. -/
def putPage (pages : List WALPage) (page : WALPage) : List WALPage :=
  if pages.any (·.pageNo = page.pageNo) then
    pages.map fun p => if p.pageNo = page.pageNo then { p with data := page.data } else p
  else pages ++ [page]

def addFrames (pageSize : UInt32) (ti : Nat) :
    UInt32 × List WALPage → List WALFrame → Res (UInt32 × List WALPage)
  | acc, [] => .ok acc
  | acc, frame :: rest =>
    if frame.data.length ≠ pageSize.toNat then
      .error (.errorf
        s!"ltx: transaction {ti} page {frame.pageNo} length {frame.data.length}, want {pageSize}")
    else
      addFrames pageSize ti
        (if frame.dbSize = 0 then acc.1 else frame.dbSize,
          putPage acc.2 ⟨frame.pageNo, frame.data⟩) rest

def addTransactions (pageSize : UInt32) :
    Nat → UInt32 × List WALPage → List WALTransaction → Res (UInt32 × List WALPage)
  | _, acc, [] => .ok acc
  | ti, acc, tx :: rest =>
    match tx.frames.getLast? with
    | none => .error (.errorf s!"ltx: transaction {ti} has no frames")
    | some last =>
      if last.dbSize = 0 then .error (.errorf s!"ltx: transaction {ti} has no commit frame")
      else do
        let acc ← addFrames pageSize ti acc tx.frames
        addTransactions pageSize (ti + 1) acc rest

/-- `PageMapFromTransactions`: the last commit and the pages. -/
def pageMapFromTransactions (pageSize : UInt32) (txs : List WALTransaction) :
    Res (UInt32 × List WALPage) :=
  if pageSize = 0 then .error (.errorf "ltx: zero WAL page size")
  else if txs = [] then .error (.errorf "ltx: empty WAL transaction list")
  else do
    let acc ← addTransactions pageSize 0 (0, []) txs
    .ok (acc.1, acc.2.insertionSort fun a b => a.pageNo ≤ b.pageNo)

end CellHive.Ltx
