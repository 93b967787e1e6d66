import CellHive.Cell.Scope
import CellHive.Fencing.World
import CellHive.NodeLog.Record

/-!
# What recoverers of a session share

The node-log record of one session, the session logs its followers hold, the objects of all
scopes and their resource fences. An operation may fail without effect, and it may take
effect although its caller sees a failure.

A follower answers a tail request with some frames of its log, in any order: the
recoverer checks that the pages it is given are contiguous. A reclaimed log is kept here,
though its holder no longer answers with it.
-/

namespace CellHive.Recovery

open Go Bucket Concurrent NodeLog Cell Replica

/-- A frame of a session log: the segments of one scope that were shipped together. -/
structure Frame where
  scope : Bytes
  epoch : UInt64
  segments : List Bytes
  deriving DecidableEq, Repr

structure SessionFragment where
  sequence : Nat
  frame : Frame
  deriving DecidableEq, Repr

inductive Holder where
  | address (addr : Str)
  | identity (id : PeerIdentity)
  deriving DecidableEq, Repr

/-- The log a follower holds of the session. The frame with sequence `k + 1` is at index `k`. -/
structure SessionLog where
  frames : List Frame
  sealed : Bool
  reclaimed : Bool

def SessionLog.fragments (l : SessionLog) : List SessionFragment :=
  l.frames.zipIdx.map fun x => ⟨x.2 + 1, x.1⟩

structure ObjectKey where
  scope : Scope
  epoch : UInt64
  name : Str
  deriving DecidableEq, Repr

structure World where
  record : Versioned Record
  logs : Holder → SessionLog
  objects : Objects ObjectKey Bytes
  /-- All values the fence of a scope has had, the current one first. -/
  fences : Scope → List Fence

def World.setLog (w : World) (h : Holder) (l : SessionLog) : World :=
  { w with logs := fun h' => if h' = h then l else w.logs h' }

def World.setFence (w : World) (scope : Scope) (f : Fence) : World :=
  { w with fences := fun s => if s = scope then f :: w.fences s else w.fences s }

def World.fence (w : World) (scope : Scope) : Fence := (w.fences scope).head?.getD {}

/-! ## Operations -/

/-- `peer.Held`: what a follower of the first protocol has spooled. -/
structure Held where
  scope : Bytes
  epoch : UInt64
  segment : Bytes
  deriving DecidableEq, Repr

/-- The atomic operations. `checkSession` and `resolve` read leases; `shared` says whether a
read of a fence may be answered from the cache of an absent one. -/
inductive Op where
  | getRecord
  | casRecord (r : Record) (tag : Nat)
  | checkSession
  | resolve (id : PeerIdentity)
  | seal (h : Holder)
  | tail (h : Holder) (after : Nat)
  | reclaim (h : Holder)
  | held (addr : Str)
  | readFence (scope : Scope) (shared : Bool)
  | create (key : ObjectKey) (data : Bytes)
  | get (key : ObjectKey)
  | delete (key : ObjectKey) (tag : Nat)
  | ship (h : Holder) (frames : List Frame)
  | setFence (scope : Scope) (f : Fence)

@[reducible] def Answer : Op → Type
  | .getRecord => Record × Nat
  | .casRecord _ _ => Unit
  | .checkSession => Unit
  | .resolve _ => Unit
  | .seal _ => Nat
  | .tail _ _ => List SessionFragment
  | .reclaim _ => Unit
  | .held _ => List Held
  | .readFence _ _ => Fence
  | .create _ _ => Nat
  | .get _ => Bytes × Nat
  | .delete _ _ => Unit
  | .ship _ _ => Unit
  | .setFence _ _ => Unit

abbrev ops : Signature := ⟨Op, fun op => Res (Answer op)⟩

abbrev ask (op : Op) : Prog ops (Res (Answer op)) := Prog.perform (S := ops) op

/-- A failure the caller sees; `effective` if the operation took effect all the same. -/
structure Fault where
  text : String
  effective : Bool

/-- The environment's part of a step: a fault, which frames a tail request is answered with,
what a spool of the first protocol holds, and whether the cache of fences is used. -/
structure Choice where
  fault : Option Fault
  pick : List Nat
  spooled : List Held
  cached : Bool

def effect (c : Choice) (w : World) : (op : Op) → Res (Answer op) × World
  | .getRecord =>
    match w.record.cur with
    | none => (.error (.sentinel .bucketNotFound), w)
    | some x => (.ok x, w)
  | .casRecord r tag =>
    match w.record.cas r tag with
    | none => (.error (.sentinel .bucketPrecondition), w)
    | some v => (.ok (), { w with record := v })
  | .checkSession => (.ok (), w)
  | .resolve _ => (.ok (), w)
  | .seal h =>
    let l := w.logs h
    (.ok l.frames.length, w.setLog h { l with sealed := true })
  | .tail h _ =>
    let l := w.logs h
    if l.sealed = false then (.error (.errorf "peer: session not sealed"), w)
    else if l.reclaimed then (.ok [], w)
    else (.ok (c.pick.filterMap fun i => l.fragments[i]?), w)
  | .reclaim h =>
    let l := w.logs h
    if l.sealed = false then (.error (.errorf "spool: session not sealed"), w)
    else (.ok (), w.setLog h { l with reclaimed := true })
  | .held _ => (.ok c.spooled, w)
  | .readFence scope shared =>
    if shared ∧ c.cached then (.ok {}, w) else (.ok (w.fence scope), w)
  | .create key data =>
    match w.objects.create key data with
    | none => (.error (.sentinel .bucketPrecondition), w)
    | some o => (.ok w.objects.fresh, { w with objects := o })
  | .get key =>
    match w.objects.get key with
    | none => (.error (.sentinel .bucketNotFound), w)
    | some x => (.ok x, w)
  | .delete key tag =>
    match w.objects.delete key tag with
    | none => (.error (.sentinel .bucketPrecondition), w)
    | some o => (.ok (), { w with objects := o })
  | .ship h frames =>
    let l := w.logs h
    if l.sealed then (.error (.errorf "peer: follower session sealed"), w)
    else (.ok (), w.setLog h { l with frames := l.frames ++ frames })
  | .setFence scope f => (.ok (), w.setFence scope f)

/-- How the shared state executes an operation. -/
def exec : Exec ops Choice World := fun op c w =>
  let out := effect c w op
  match c.fault with
  | none => some out
  | some fault => some (.error (.errorf fault.text), if fault.effective then out.2 else w)

end CellHive.Recovery
