import CellHive.Ltx.Segment
import CellHive.Peer.Frames

/-!
# The follower's spool

`Spool.AppendBatch` and `Segments` of `internal/peer/spool.go`, for the log of one scope
and epoch. An append marks the identities of its segments as seen and then writes those
that were not, so that a repeated copy becomes a no-op. The marks are made before the
write, and the write goes to the end of the file whatever stands there.

The file is what a reader sees; of it the first `durable` bytes survive a crash, and of
the rest any start may. Every step of an append can fail; the disk errors are arbitrary
texts and all one to the model.
-/

namespace CellHive.Peer

open Go Ltx

/-- The log file of one scope and epoch, and what the process remembers about it. -/
structure SpoolLog where
  file : Bytes := []
  /-- How many bytes of the file an fsync has covered. -/
  flushed : Nat := 0
  /-- An fsync has covered the file's entry in its directory. -/
  entered : Bool := false
  loaded : Bool := false
  seen : List SegmentID := []
  /-- `dirs` holds the directory. -/
  dirs : Bool := false
  deriving DecidableEq

inductive Fault where
  | none
  | mkdir
  | openFile
  /-- Some bytes reached the file. -/
  | write (written : Nat)
  | sync
  | close
  | syncDir
  deriving DecidableEq

def diskError : Err := .errorf "spool: disk error"

def checkSegment (epoch : UInt64) (segment : Bytes) : Res SegmentID :=
  match decode segment with
  | .error e => .error (.wrap "spool: invalid segment" e)
  | .ok d =>
    if d.1.epoch ≠ epoch then
      .error (.errorf s!"spool: epoch mismatch: segment {d.1.epoch}, request {epoch}")
    else .ok d.1.id

def identities (segments : List Bytes) : List SegmentID :=
  segments.filterMap fun s => (decode s).toOption.map (·.1.id)

namespace SpoolLog

def segments (st : SpoolLog) : List Bytes := decodeFrames st.file

/-- The bytes that survive a crash. -/
def durable (st : SpoolLog) : Nat := if st.entered then st.flushed else 0

/-- The identity set is read from the log at the first append of a process. -/
def load (st : SpoolLog) : SpoolLog :=
  if st.loaded then st else { st with loaded := true, seen := identities st.segments ++ st.seen }

end SpoolLog

def takeFresh : List SegmentID → List (SegmentID × Bytes) → List SegmentID × List Bytes
  | seen, [] => (seen, [])
  | seen, (id, s) :: rest =>
    if id ∈ seen then takeFresh seen rest
    else ((takeFresh (id :: seen) rest).1, s :: (takeFresh (id :: seen) rest).2)

def writeLog (fault : Fault) (buf : Bytes) (st : SpoolLog) : Res Unit × SpoolLog :=
  let written := { st with file := st.file ++ buf }
  let synced := { written with flushed := written.file.length }
  match fault with
  | .openFile => (.error diskError, st)
  | .write n => (.error diskError, { st with file := st.file ++ buf.take n })
  | .sync => (.error diskError, written)
  | .close => (.error diskError, synced)
  | .syncDir =>
    if st.dirs then (.ok (), synced) else (.error diskError, synced)
  | _ => (.ok (), if st.dirs then synced else { synced with entered := true, dirs := true })

def appendBatch (epoch : UInt64) (fault : Fault) (segments : List Bytes) (st : SpoolLog) :
    Res Unit × SpoolLog :=
  match segments.mapM (checkSegment epoch) with
  | .error e => (.error e, st)
  | .ok ids =>
    if fault = .mkdir then (.error diskError, st)
    else
      let st := st.load
      let taken := takeFresh st.seen (ids.zip segments)
      let st := { st with seen := taken.1 }
      -- nothing new: the call is a no-op that counts as a proof
      if taken.2 = [] then (.ok (), st) else writeLog fault (encodeFrames taken.2) st

/-- A crash leaves what is durable and some of the bytes behind it; the process starts
with an empty memory. -/
def restart (kept : Nat) (st : SpoolLog) : SpoolLog :=
  let file := st.file.take (max st.durable kept)
  { file, flushed := min st.flushed file.length, entered := st.entered }

structure HeldSegment where
  scope : String
  epoch : UInt64
  segment : Bytes
  deriving DecidableEq

def held (scope : String) (epoch : UInt64) (st : SpoolLog) : List HeldSegment :=
  st.segments.map fun segment => ⟨scope, epoch, segment⟩

/-! ## Runs -/

inductive SpoolStep where
  | append (fault : Fault) (segments : List Bytes)
  | restart (kept : Nat)

/-- The log and the segments of the calls that returned success. -/
structure SpoolRun where
  log : SpoolLog := {}
  acked : List Bytes := []

def SpoolRun.step (epoch : UInt64) (r : SpoolRun) : SpoolStep → SpoolRun
  | .append fault segments =>
    let result := appendBatch epoch fault segments r.log
    { log := result.2
      acked := match result.1 with
        | .ok _ => r.acked ++ segments
        | .error _ => r.acked }
  | .restart kept => { r with log := restart kept r.log }

def SpoolRun.run (epoch : UInt64) (r : SpoolRun) (steps : List SpoolStep) : SpoolRun :=
  steps.foldl (SpoolRun.step epoch) r

/-! ## What survives a step -/

def SpoolLog.core (st : SpoolLog) : Bytes := st.file.take st.durable

/-- The directory counts as synced only when it is. -/
def SpoolLog.Entered (st : SpoolLog) : Prop := st.dirs = true → st.entered = true

@[simp] theorem load_file (st : SpoolLog) : st.load.file = st.file := by
  unfold SpoolLog.load
  split <;> rfl

@[simp] theorem load_core (st : SpoolLog) : st.load.core = st.core := by
  unfold SpoolLog.load
  split <;> rfl

variable {epoch : UInt64} {fault : Fault} {segments : List Bytes} {st : SpoolLog} {r : SpoolRun}

theorem load_entered (h : st.Entered) : st.load.Entered := by
  unfold SpoolLog.load
  split
  · exact h
  · exact h

theorem core_isPrefix (st : SpoolLog) : st.core <+: st.file := List.take_prefix _ _

theorem core_of_synced {st' : SpoolLog} (hfile : st.file <+: st'.file)
    (hflushed : st'.flushed = st'.file.length) (hentered : st.entered = true → st'.entered = true) :
    st.core <+: st'.core := by
  by_cases h : st.entered = true
  · have hcore : st'.core = st'.file := by
      rw [SpoolLog.core, SpoolLog.durable, if_pos (hentered h), hflushed, List.take_length]
    rw [hcore]
    exact (core_isPrefix st).trans hfile
  · have hcore : st.core = [] := by simp [SpoolLog.core, SpoolLog.durable, h]
    rw [hcore]
    exact ⟨_, rfl⟩

/-- A write keeps what survives; a successful one has put all of the buffer into it. -/
theorem writeLog_spec (fault : Fault) (buf : Bytes) (st : SpoolLog) :
    st.core <+: (writeLog fault buf st).2.core ∧
      (st.Entered → (writeLog fault buf st).2.Entered ∧
        ((writeLog fault buf st).1 = .ok () → (writeLog fault buf st).2.core = st.file ++ buf)) := by
  have hfile : st.file <+: st.file ++ buf := List.prefix_append _ _
  have hdone : ∀ st' : SpoolLog, st'.file = st.file ++ buf → st'.flushed = (st.file ++ buf).length →
      st'.entered = true → st'.core = st.file ++ buf := by
    intro st' hfile hflushed hentered
    rw [SpoolLog.core, SpoolLog.durable, if_pos hentered, hfile, hflushed, List.take_length]
  unfold writeLog
  cases fault with
  | openFile => exact ⟨List.prefix_rfl, fun h => ⟨h, nofun⟩⟩
  | write | sync => exact ⟨(List.prefix_append _ _).take _, fun h => ⟨h, nofun⟩⟩
  | close => exact ⟨core_of_synced hfile rfl id, fun h => ⟨h, nofun⟩⟩
  | syncDir =>
    dsimp only
    split
    · next hd => exact ⟨core_of_synced hfile rfl id, fun h => ⟨h, fun _ => hdone _ rfl rfl (h hd)⟩⟩
    · exact ⟨core_of_synced hfile rfl id, fun h => ⟨h, nofun⟩⟩
  | none | mkdir =>
    dsimp only
    split
    · next hd => exact ⟨core_of_synced hfile rfl id, fun h => ⟨h, fun _ => hdone _ rfl rfl (h hd)⟩⟩
    · exact ⟨core_of_synced hfile rfl fun _ => rfl, fun _ => ⟨fun _ => rfl, fun _ =>
        hdone _ rfl rfl rfl⟩⟩

theorem restart_core (kept : Nat) (st : SpoolLog) : (restart kept st).core = st.core := by
  unfold restart SpoolLog.core SpoolLog.durable
  dsimp only
  split
  · rw [List.take_take, List.length_take]
    apply List.take_eq_take_iff.2
    omega
  · simp

/-! ## A successful append -/

def identityOf (segment : Bytes) : Option SegmentID := (decode segment).toOption.map (·.1.id)

theorem checkSegment_identity {segment : Bytes} {id : SegmentID}
    (h : checkSegment epoch segment = .ok id) : identityOf segment = some id := by
  unfold checkSegment at h
  unfold identityOf
  cases hd : decode segment with
  | error e =>
    rw [hd] at h
    cases h
  | ok d =>
    rw [hd] at h
    dsimp only at h
    split at h
    · cases h
    · cases h
      rfl

theorem mem_zip_identities {ids : List SegmentID}
    (h : segments.mapM (checkSegment epoch) = .ok ids) :
    (∀ s ∈ segments, ∃ id, (id, s) ∈ ids.zip segments) ∧
      ∀ p ∈ ids.zip segments, p.2 ∈ segments ∧ identityOf p.2 = some p.1 := by
  induction segments generalizing ids with
  | nil => simp
  | cons s segments ih =>
    rw [List.mapM_cons] at h
    obtain ⟨id, hid, h⟩ := bind_eq_ok.1 h
    obtain ⟨rest, hrest, h⟩ := bind_eq_ok.1 h
    cases h
    obtain ⟨hall, hpairs⟩ := ih hrest
    constructor
    · intro t ht
      rcases List.mem_cons.1 ht with rfl | ht
      · exact ⟨id, List.mem_cons_self⟩
      · obtain ⟨id', hid'⟩ := hall t ht
        exact ⟨id', List.mem_cons_of_mem _ hid'⟩
    · intro p hp
      rcases List.mem_cons.1 hp with rfl | hp
      · exact ⟨List.mem_cons_self, checkSegment_identity hid⟩
      · exact ⟨List.mem_cons_of_mem _ (hpairs p hp).1, (hpairs p hp).2⟩

theorem takeFresh_spec (seen : List SegmentID) (pairs : List (SegmentID × Bytes)) :
    (∀ p ∈ pairs, p.1 ∈ seen ∨ ∃ t ∈ (takeFresh seen pairs).2, (p.1, t) ∈ pairs) ∧
      ∀ t ∈ (takeFresh seen pairs).2, ∃ id, (id, t) ∈ pairs := by
  induction pairs generalizing seen with
  | nil => simp [takeFresh]
  | cons q pairs ih =>
    obtain ⟨id, s⟩ := q
    rw [takeFresh]
    split
    · next hin =>
      obtain ⟨hall, hfresh⟩ := ih seen
      constructor
      · intro p hp
        rcases List.mem_cons.1 hp with rfl | hp
        · exact .inl hin
        · refine (hall p hp).imp_right ?_
          rintro ⟨t, ht, hpt⟩
          exact ⟨t, ht, List.mem_cons_of_mem _ hpt⟩
      · intro t ht
        obtain ⟨id', hid'⟩ := hfresh t ht
        exact ⟨id', List.mem_cons_of_mem _ hid'⟩
    · obtain ⟨hall, hfresh⟩ := ih (id :: seen)
      constructor
      · intro p hp
        rcases List.mem_cons.1 hp with rfl | hp
        · exact .inr ⟨s, List.mem_cons_self, List.mem_cons_self⟩
        · rcases hall p hp with hseen | ⟨t, ht, hpt⟩
          · rcases List.mem_cons.1 hseen with heq | hseen
            · exact .inr ⟨s, List.mem_cons_self, by rw [heq]; exact List.mem_cons_self⟩
            · exact .inl hseen
          · exact .inr ⟨t, List.mem_cons_of_mem _ ht, List.mem_cons_of_mem _ hpt⟩
      · intro t ht
        rcases List.mem_cons.1 ht with rfl | ht
        · exact ⟨id, List.mem_cons_self⟩
        · obtain ⟨id', hid'⟩ := hfresh t ht
          exact ⟨id', List.mem_cons_of_mem _ hid'⟩

structure Ready (st : SpoolLog) (segments : List Bytes) : Prop where
  /-- The file ends on a record boundary. -/
  whole : encodeFrames (decodeFrames st.file) = st.file
  /-- A length fits its field. -/
  short : ∀ s ∈ segments, s.length < 2 ^ 32
  /-- Different segments of the call have different identities. -/
  apart : ∀ s ∈ segments, ∀ t ∈ segments, identityOf s = identityOf t → s = t
  /-- What is marked as seen lies in the surviving part of the log. -/
  marked : ∀ s ∈ segments, ∀ id ∈ st.load.seen, identityOf s = some id → s ∈ decodeFrames st.core

theorem appendBatch_core : st.core <+: (appendBatch epoch fault segments st).2.core := by
  unfold appendBatch
  split
  · exact List.prefix_rfl
  split
  · exact List.prefix_rfl
  dsimp only
  have hcore : ∀ seen, { st.load with seen := seen }.core = st.core := fun _ => load_core st
  split
  · rw [hcore]
  · rw [← hcore (takeFresh st.load.seen _).1]
    exact (writeLog_spec _ _ _).1

theorem appendBatch_entered (h : st.Entered) : (appendBatch epoch fault segments st).2.Entered := by
  unfold appendBatch
  split
  · exact h
  split
  · exact h
  dsimp only
  split
  · exact load_entered h
  · exact ((writeLog_spec _ _ _).2 (by exact load_entered h)).1

theorem appendBatch_ok (hent : st.Entered) (hready : Ready st segments)
    (hok : (appendBatch epoch fault segments st).1 = .ok ()) :
    ∀ s ∈ segments, s ∈ decodeFrames (appendBatch epoch fault segments st).2.core := by
  intro s hs
  unfold appendBatch at hok ⊢
  cases hids : segments.mapM (checkSegment epoch) with
  | error e =>
    rw [hids] at hok
    cases hok
  | ok ids =>
    rw [hids] at hok
    dsimp only at hok ⊢
    split at hok
    · cases hok
    next hmk =>
    rw [if_neg hmk]
    obtain ⟨hall, hpairs⟩ := mem_zip_identities hids
    obtain ⟨id, hid⟩ := hall s hs
    have hsid := (hpairs _ hid).2
    obtain ⟨hseen, hfresh⟩ := takeFresh_spec st.load.seen (ids.zip segments)
    split at hok
    · next hnil =>
      rw [if_pos hnil]
      rcases hseen _ hid with hin | ⟨t, ht, -⟩
      · have hm := hready.marked s hs id hin hsid
        rwa [← load_core] at hm
      · rw [hnil] at ht
        cases ht
    · next hne =>
      rw [if_neg hne, ((writeLog_spec _ _ _).2 (by exact load_entered hent)).2 hok]
      have hshort : ∀ t ∈ (takeFresh st.load.seen (ids.zip segments)).2, t.length < 2 ^ 32 := by
        intro t ht
        obtain ⟨id', hid'⟩ := hfresh t ht
        exact hready.short t (hpairs _ hid').1
      have hfile : ({ st.load with seen := (takeFresh st.load.seen (ids.zip segments)).1 }).file =
          st.file := load_file st
      rw [hfile, decodeFrames_append_of_whole hready.whole hshort, List.mem_append]
      rcases hseen _ hid with hin | ⟨t, ht, hpt⟩
      · have hm := hready.marked s hs id hin hsid
        exact .inl (decodeFrames_subset (core_isPrefix st) hm)
      · have hst : s = t :=
          hready.apart s hs t (hpairs _ hpt).1 (hsid.trans (hpairs _ hpt).2.symm)
        rw [hst]
        exact .inr ht

/-! ## Whole runs -/

/-- Every call of the run may rely on the log as it finds it. -/
def ReadyRun (epoch : UInt64) : SpoolRun → List SpoolStep → Prop
  | _, [] => True
  | r, .append fault segments :: rest =>
    Ready r.log segments ∧ ReadyRun epoch (r.step epoch (.append fault segments)) rest
  | r, .restart kept :: rest => ReadyRun epoch (r.step epoch (.restart kept)) rest

/-- What was acknowledged lies in the surviving part of the log. -/
structure Kept (r : SpoolRun) : Prop where
  entered : r.log.Entered
  acked : ∀ s ∈ r.acked, s ∈ decodeFrames r.log.core

theorem Kept.append (h : Kept r) (fault : Fault) (hready : Ready r.log segments) :
    Kept (r.step epoch (.append fault segments)) := by
  have hold : ∀ s ∈ r.acked, s ∈ decodeFrames (appendBatch epoch fault segments r.log).2.core :=
    fun s hs => decodeFrames_subset appendBatch_core (h.acked s hs)
  refine ⟨appendBatch_entered h.entered, ?_⟩
  intro s hs
  unfold SpoolRun.step at hs ⊢
  dsimp only at hs ⊢
  split at hs
  · next hok =>
    rcases List.mem_append.1 hs with hs | hs
    · exact hold s hs
    · exact appendBatch_ok h.entered hready hok s hs
  · exact hold s hs

theorem Kept.restart (h : Kept r) (kept : Nat) :
    Kept (r.step epoch (.restart kept)) := by
  refine ⟨nofun, ?_⟩
  intro s hs
  change s ∈ decodeFrames (Peer.restart kept r.log).core
  rw [restart_core]
  exact h.acked s hs

theorem Kept.run {steps : List SpoolStep} (h : Kept r)
    (hready : ReadyRun epoch r steps) : Kept (r.run epoch steps) := by
  induction steps generalizing r with
  | nil => exact h
  | cons step steps ih =>
    cases step with
    | append fault segments => exact ih (h.append fault hready.1) hready.2
    | restart kept => exact ih (h.restart kept) hready

/-- In a run whose calls may all rely on the log as they find it, every segment of every
call that returned success is in `Segments` and in `Held`, now and after every later step. -/
theorem acknowledged_segments_held {epoch : UInt64} {steps : List SpoolStep}
    (hready : ReadyRun epoch {} steps) (scope : String) :
    ∀ s ∈ (SpoolRun.run epoch {} steps).acked,
      s ∈ (SpoolRun.run epoch {} steps).log.segments ∧
        ⟨scope, epoch, s⟩ ∈ held scope epoch (SpoolRun.run epoch {} steps).log := by
  intro s hs
  have hkept : Kept (SpoolRun.run epoch {} steps) := Kept.run ⟨nofun, nofun⟩ hready
  have hmem : s ∈ (SpoolRun.run epoch {} steps).log.segments :=
    decodeFrames_subset (core_isPrefix _) (hkept.acked s hs)
  exact ⟨hmem, List.mem_map_of_mem hmem⟩

/-! ## A retried call and a torn record -/

def spooledDelta (n : UInt64) : Bytes :=
  encode { version := 0, kind := kindDelta, flags := 0, epoch := 1, startTxID := n, endTxID := n,
           length := 0, crc := 0 } []

/-- A call that could not open the log has already marked its segment, so its retry
succeeds as a duplicate and the log stays empty; and a call that succeeds behind a torn
record cannot be read back. -/
theorem append_acknowledges_unheld :
    (spooledDelta 1 ∈ (SpoolRun.run 1 {} [.append .openFile [spooledDelta 1],
        .append .none [spooledDelta 1]]).acked ∧
      (SpoolRun.run 1 {} [.append .openFile [spooledDelta 1],
        .append .none [spooledDelta 1]]).log.segments = []) ∧
    (spooledDelta 3 ∈ (SpoolRun.run 1 {} [.append .none [spooledDelta 1],
        .append (.write 7) [spooledDelta 2], .restart 60, .append .none [spooledDelta 3]]).acked ∧
      spooledDelta 3 ∉ (SpoolRun.run 1 {} [.append .none [spooledDelta 1],
        .append (.write 7) [spooledDelta 2], .restart 60,
        .append .none [spooledDelta 3]]).log.segments) := by
  decide +kernel

/-- After a failed call and a restart that lost nothing, the retry is held. -/
theorem acknowledged_segments_held_retry :
    spooledDelta 2 ∈ (SpoolRun.run 1 {} [.append .none [spooledDelta 1],
      .append .openFile [spooledDelta 2], .restart 0,
      .append .none [spooledDelta 1, spooledDelta 2]]).log.segments := by
  refine (acknowledged_segments_held ?_ "ns/class/id" (spooledDelta 2) (by decide +kernel)).1
  refine ⟨⟨?_, ?_, ?_, ?_⟩, ⟨?_, ?_, ?_, ?_⟩, ⟨?_, ?_, ?_, ?_⟩, trivial⟩ <;> decide +kernel

end CellHive.Peer
