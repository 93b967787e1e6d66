import CellHive.Go.Strings
import CellHive.Ltx.SnapshotParts

/-!
# Object names

How `internal/replica/replica.go` and `internal/ltx` name segments and batches, and
how the names are read back. A name is the part of a key after its last slash.
-/

namespace CellHive.Replica

open Go Ltx

def dotLtx : Str := ['.', 'l', 't', 'x']

def dotBatch : Str := ['.', 'b', 'a', 't', 'c', 'h']

def dotDeltaBatch : Str := ['.', 'd', '.', 'b', 'a', 't', 'c', 'h']

def dotMixedBatch : Str := ['.', 'm', '.', 'b', 'a', 't', 'c', 'h']

def dotSnapshotBatch : Str := ['.', 's', '.', 'b', 'a', 't', 'c', 'h']

def dotSnapshot : Str := ['.', 's', 'n', 'a', 'p', 's', 'h', 'o', 't']

def dotLink : Str := ['.', 'l', 'i', 'n', 'k']

def dotMarker : Str := ['.', 'm', 'a', 'r', 'k', 'e', 'r']

def nameOf (key : Str) : Str := afterLast '/' key

def segmentName (h : Header) : Str :=
  if h.kind = kindSnapshot then
    match snapshotPart h with
    | some part => formatUint h.endTxID.toNat ++ ['.', 'p'] ++ formatUint part ++ dotSnapshot
    | none => formatUint h.endTxID.toNat ++ dotSnapshot
  else if h.kind = kindLink then formatUint h.startTxID.toNat ++ dotLink
  else if h.kind = kindMarker then formatUint h.startTxID.toNat ++ dotMarker
  else formatUint h.startTxID.toNat ++ ['-'] ++ formatUint h.endTxID.toNat ++ dotLtx

/-- Snapshot segments of one txid at both ends. -/
def SameSnapshot (first last : Header) : Prop :=
  first.kind = kindSnapshot ∧ last.kind = kindSnapshot ∧ first.endTxID = last.endTxID

instance (first last : Header) : Decidable (SameSnapshot first last) :=
  inferInstanceAs (Decidable (_ ∧ _ ∧ _))

/-- `BatchName`: snapshot parts of one txid get the span of their part numbers, everything
else the txid range from the first segment's start to the last one's end. -/
def batchName (first last : Header) : Str :=
  if SameSnapshot first last then
    formatUint first.endTxID.toNat ++ (['.', 'p'] ++ formatUint ((snapshotPart first).getD 0) ++
      (['-', 'p'] ++ formatUint ((snapshotPart last).getD 0) ++ dotSnapshotBatch))
  else
    formatUint first.startTxID.toNat ++ (['-'] ++ formatUint last.endTxID.toNat ++
      (if first.kind = kindSnapshot ∨ last.kind = kindSnapshot then dotMixedBatch
        else dotDeltaBatch))

/-- `segmentSpan`; a `marker` says that every object of an older epoch ending above `end`
is dead. -/
structure SegmentSpan where
  start : Nat
  «end» : Nat
  snapshot : Bool := false
  marker : Bool := false
  deriving DecidableEq, Repr

/-- `canonicalDecimal`: the shortest decimal form of a number. -/
def canonicalDecimal (s : Str) : Bool :=
  if s = [] ∨ (1 < s.length ∧ s.head? = some '0') then false
  else s.all fun c => '0' ≤ c ∧ c ≤ '9'

/-- `canonicalSnapshotTxID`: the txid of a snapshot's or snapshot part's name. -/
def canonicalSnapshotTxID (name : Str) : Option Nat :=
  match cutSuffix name dotSnapshot with
  | none => none
  | some base =>
    if base = [] then none
    else
      match cutAt '.' base with
      | some (txid, part) =>
        match cutStart part ['p'] with
        | none => none
        | some part =>
          if canonicalDecimal txid = false ∨ canonicalDecimal part = false then none
          else
            match parseUint 64 txid with
            | none => none
            | some n =>
              match parseUint 32 part with
              | none => none
              | some p => if maxSnapshotParts ≤ p then none else some n
      | none => if canonicalDecimal base = false then none else parseUint 64 base

def batchSpanKnown (name : Str) : Bool :=
  hasSuffix name dotDeltaBatch || hasSuffix name dotSnapshotBatch

def isSegmentKey (key : Str) : Bool :=
  let name := nameOf key
  hasSuffix name dotSnapshot || hasSuffix name dotLtx || hasSuffix name dotBatch ||
    hasSuffix name dotLink || hasSuffix name dotMarker

def parseSegmentRange (base : Str) : Option SegmentSpan :=
  match cutAt '-' base with
  | none => none
  | some (first, last) =>
    -- an empty side is refused by parseUint as well
    match parseUint 64 first with
    | none => none
    | some start =>
      match parseUint 64 last with
      | none => none
      | some «end» => if «end» < start then none else some { start, «end» }

/-- The span of a snapshot's name: everything from the first `.p` on is its part. -/
def parseSnapshotSpan (base : Str) : Option SegmentSpan :=
  let txid :=
    match cutSub ['.', 'p'] base with
    | some (head, _) => if head = [] then base else head
    | none => base
  (parseUint 64 txid).map fun n => { start := n, «end» := n, snapshot := true }

def parseBatchSpan (base : Str) : Option SegmentSpan :=
  let base := trimSuffix (trimSuffix (trimSuffix base ['.', 'd']) ['.', 'm']) ['.', 's']
  match cutSub ['.', 'p'] base with
  | some (head, _) => if head = [] then parseSegmentRange base else parseSnapshotSpan base
  | none => parseSegmentRange base

def parseMarkerSpan (base : Str) : Option SegmentSpan :=
  match parseUint 64 base with
  | none => none
  | some n => if n = 0 then none else some { start := n, «end» := n - 1, marker := true }

def parseSegmentSpan (name : Str) : Option SegmentSpan :=
  if hasSuffix name dotSnapshot then parseSnapshotSpan (trimSuffix name dotSnapshot)
  else if hasSuffix name dotBatch then parseBatchSpan (trimSuffix name dotBatch)
  else if hasSuffix name dotLtx then parseSegmentRange (trimSuffix name dotLtx)
  else if hasSuffix name dotMarker then parseMarkerSpan (trimSuffix name dotMarker)
  else none

end CellHive.Replica
