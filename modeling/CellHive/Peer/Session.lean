import CellHive.Ltx.Segment
import CellHive.Peer.SessionRecord

/-!
# The log of a follower session

`AppendSessionGroup`, `Prepare`, `Seal`, `Head` and `TailPage` of `internal/peer/spool.go`,
for one session that has no files of the older layout. An append cuts the log to the
length it knows, writes its records and syncs them; the known length advances only with
success, and a new process finds it by scanning. `Seal` writes the last known sequence
number into a marker file.

Of the log the first `flushed` bytes survive a crash; of the rest any start may, and what
is left afterwards is on disk. The log and the marker are entries of one directory, and an
entry survives once the directory was synced after it was made. A restart of the process
alone loses its memory and no bytes.
-/

namespace CellHive.Peer

open Go Ltx

/-- `sessionTailCursor`; `size` and `version` stand for the file's size and modification
time. -/
structure TailCursor where
  position : TailPosition
  final : UInt64
  size : Nat
  version : Nat
  deriving DecidableEq

/-- The files of a session and what the process knows about them. -/
structure SessionState where
  log : Option Bytes := none
  flushed : Nat := 0
  entered : Bool := false
  version : Nat := 0
  /-- The number in the seal marker. -/
  marker : Option UInt64 := none
  markerEntered : Bool := false
  loaded : Bool := false
  last : UInt64 := 0
  size : Nat := 0
  /-- `dirs` holds the session's directory. -/
  dirs : Bool := false
  tail : Option TailCursor := none
  deriving DecidableEq

inductive SessionFault where
  | none
  /-- Making or syncing the session's directories. -/
  | directory
  | openFile
  | truncate
  /-- Some bytes reached the file. -/
  | write (written : Nat)
  | sync
  | close
  | rename
  | syncDir
  deriving DecidableEq

def sessionDiskError : Err := .errorf "spool: disk error"

def sessionSealed : Err := .errorf "peer: follower session sealed"

namespace SessionState

def bytes (st : SessionState) : Bytes := st.log.getD []

/-- `loadSessionState`, once per process. -/
def load (st : SessionState) : Res SessionState :=
  if st.loaded then .ok st
  else do
    let r ← scanSessionState st.bytes
    .ok { st with loaded := true, last := r.1, size := r.2 }

/-- `syncDir`: both entries are durable afterwards. -/
def enter (st : SessionState) : SessionState := { st with entered := true, markerEntered := true }

end SessionState

def truncateTo (n : Nat) (data : Bytes) : Bytes := data.take n ++ List.replicate (n - data.length) 0

def checkGroup (appends : List SessionAppend) : Res Unit :=
  if appends = [] then .error (.errorf "spool: empty session append group")
  else
    appends.forM fun a =>
      if a.segments = [] then .error (.errorf "spool: empty session frame")
      else
        a.segments.forM fun s =>
          match decode s with
          | .error e => .error (.wrap "spool: invalid segment" e)
          | .ok d =>
            if d.1.epoch ≠ a.epoch then
              .error (.errorf s!"spool: epoch mismatch: segment {d.1.epoch}, request {a.epoch}")
            else .ok ()

/-- The sequence numbers of a group behind `last`. -/
def groupSequences (last : UInt64) (n : Nat) : List UInt64 :=
  (List.range n).map fun i => last + UInt64.ofNat i + 1

def groupRecords (seqs : List UInt64) (appends : List SessionAppend) : Bytes :=
  (seqs.zip appends).flatMap fun p => encodeSessionRecord p.1 p.2

/-- Writing the records of a group behind the known part of the log. -/
def writeGroup (fault : SessionFault) (appends : List SessionAppend) (st : SessionState) :
    Res (List UInt64) × SessionState :=
  let seqs := groupSequences st.last appends.length
  let records := groupRecords seqs appends
  let opened := { st with log := some st.bytes }
  let file (written : Bytes) : SessionState :=
    { st with
      log := some (truncateTo st.size st.bytes ++ written)
      flushed := min st.flushed st.size
      version := st.version + 1 }
  let synced := { file records with flushed := (truncateTo st.size st.bytes ++ records).length }
  let known := { synced with last := seqs.getLastD st.last, size := st.size + records.length }
  match fault with
  | .openFile => (.error sessionDiskError, st)
  | .truncate => (.error sessionDiskError, opened)
  | .write n => (.error sessionDiskError, file (records.take n))
  | .sync => (.error sessionDiskError, file records)
  | .close => (.error sessionDiskError, synced)
  | .syncDir => if st.dirs then (.ok seqs, known) else (.error sessionDiskError, synced)
  | _ => (.ok seqs, if st.dirs then known else { known.enter with dirs := true })

def appendSessionGroup (fault : SessionFault) (appends : List SessionAppend) (st : SessionState) :
    Res (List UInt64) × SessionState :=
  match checkGroup appends with
  | .error e => (.error e, st)
  | .ok _ =>
    if st.marker.isSome then (.error sessionSealed, st)
    else if fault = .directory then (.error sessionDiskError, st)
    else
      match st.load with
      | .error e => (.error e, st)
      | .ok st => writeGroup fault appends st

def prepare (fault : SessionFault) (st : SessionState) : Res Unit × SessionState :=
  if st.marker.isSome then (.error sessionSealed, st)
  else
    let opened := { st with log := some st.bytes }
    let synced := { opened with flushed := st.bytes.length }
    match fault with
    | .directory => (.error sessionDiskError, st)
    | .openFile => (.error sessionDiskError, st)
    | .sync => (.error sessionDiskError, opened)
    | .close => (.error sessionDiskError, synced)
    | .syncDir => (.error sessionDiskError, synced)
    | _ => (.ok (), synced.enter)

def sealSession (fault : SessionFault) (st : SessionState) : Res UInt64 × SessionState :=
  if fault = .directory then (.error sessionDiskError, st)
  else
    match st.marker with
    | some final => if fault = .syncDir then (.error sessionDiskError, st) else (.ok final, st.enter)
    | none =>
      match st.load with
      | .error e => (.error e, st)
      | .ok st =>
        match fault with
        | .none => (.ok st.last, { st with marker := some st.last }.enter)
        -- the marker is in place, but its entry may be lost
        | .syncDir =>
          (.error sessionDiskError, { st with marker := some st.last, markerEntered := false })
        | _ => (.error sessionDiskError, st)

def head (st : SessionState) : Res UInt64 :=
  if st.loaded then .ok st.last
  else
    match st.log with
    | none => .error (.errorf "spool: active session log missing")
    | some data => (scanRecords 8 0 0 data).map (·.1)

/-- Where a read of the sealed log starts. -/
def tailStart (rq : TailRequest) (final : UInt64) (st : SessionState) : TailPosition :=
  match st.tail with
  | none => {}
  | some c =>
    if c.position.sequence = rq.after ∧ c.final = final ∧ c.size = st.bytes.length ∧
        c.version = st.version then c.position
    else {}

def tailPage (rq : TailRequest) (st : SessionState) : Res (List SessionFragment) × SessionState :=
  match st.marker, st.log with
  | some final, some data =>
    let start := tailStart rq final st
    match tailFrom rq final start start [] 0 (data.drop start.offset) with
    | .error e => (.error e, st)
    | .ok r =>
      (.ok r.1, { st with tail := some ⟨r.2, final, st.bytes.length, st.version⟩ })
  | _, _ => (.error sessionDiskError, st)

/-- A new process on the same files. -/
def restartProcess (st : SessionState) : SessionState :=
  { log := st.log, flushed := st.flushed, entered := st.entered, version := st.version,
    marker := st.marker, markerEntered := st.markerEntered }

/-- What a crash leaves beyond what must survive. -/
structure Leftover where
  log : Bool
  marker : Bool
  bytes : Nat

def crash (left : Leftover) (st : SessionState) : SessionState :=
  let keepLog := st.entered || left.log
  let keepMarker := st.markerEntered || left.marker
  let log := if keepLog then st.log.map (·.take (max st.flushed left.bytes)) else none
  { log
    flushed := (log.getD []).length
    entered := keepLog
    version := st.version
    marker := if keepMarker then st.marker else none
    markerEntered := keepMarker }

/-! ## Runs -/

inductive SessionStep where
  | append (fault : SessionFault) (appends : List SessionAppend)
  | prepare (fault : SessionFault)
  | sealLog (fault : SessionFault)
  | head
  | tailPage (rq : TailRequest)
  | restart
  | crash (left : Leftover)

/-- The files and what the calls have returned so far. -/
structure SessionRun where
  state : SessionState := {}
  /-- The frames of the successful appends, with the numbers they returned. -/
  acked : List (UInt64 × SessionAppend) := []
  /-- A seal has succeeded. -/
  sealed : Bool := false
  /-- An append has succeeded after that. -/
  late : Bool := false

def SessionRun.step (r : SessionRun) : SessionStep → SessionRun
  | .append fault appends =>
    let result := appendSessionGroup fault appends r.state
    match result.1 with
    | .ok seqs =>
      { r with state := result.2, acked := r.acked ++ seqs.zip appends, late := r.late || r.sealed }
    | .error _ => { r with state := result.2 }
  | .prepare fault => { r with state := (Peer.prepare fault r.state).2 }
  | .sealLog fault =>
    let result := sealSession fault r.state
    { r with state := result.2, sealed := r.sealed || result.1.isOk }
  | .head => r
  | .tailPage rq => { r with state := (Peer.tailPage rq r.state).2 }
  | .restart => { r with state := restartProcess r.state }
  | .crash left => { r with state := Peer.crash left r.state }

def SessionRun.run (r : SessionRun) (steps : List SessionStep) : SessionRun :=
  steps.foldl SessionRun.step r

end CellHive.Peer
