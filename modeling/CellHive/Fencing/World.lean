import CellHive.Concurrent.Objects
import CellHive.Concurrent.Prog
import CellHive.Concurrent.Versioned
import CellHive.Replica.Manager

/-!
# The shared state of a resource fence

What the replica managers of all nodes share of one scope: the objects of its epochs and the
deletion fence, both in the bucket, and what each manager keeps for itself: the lock of the
scope, the cache of an absent fence and the fence reads in flight. Bucket operations are
atomic; any of them may fail without effect. A fence is stored as the structure its JSON
form denotes, or as `none` if its text is not the JSON of a fence.
-/

namespace CellHive.Replica

/-- A fence that the write path acts on. -/
def Fence.blocks (f : Fence) (epoch : UInt64) : Bool :=
  f.deleted || (f.jobID ≠ [] && decide (epoch ≤ f.epoch))

def Fence.absent (f : Fence) : Bool := f.deleted = false ∧ f.jobID = [] ∧ f.epoch = 0

end CellHive.Replica

namespace CellHive.Fencing

open Go Ltx Bucket Concurrent Replica

/-! ## Updates of the fence -/

inductive Update where
  | block (job : Str)
  | fence (job : Str) (epoch : UInt64)
  | allow (job : Str)
  deriving DecidableEq, Repr

def Update.change : Update → Fence → Res Fence
  | .block job, f =>
    if f.deleted = false ∧ f.jobID = job then .error (.sentinel .resourceDeleted)
    else if f.deleted = true ∧ f.jobID ≠ job then .error (.sentinel .resourceDeleted)
    else .ok { f with deleted := true, jobID := job }
  | .fence job epoch, f =>
    if f.deleted = false ∨ f.jobID ≠ job then .error (.sentinel .resourceDeleted)
    else .ok (if f.epoch < epoch then { f with epoch } else f)
  | .allow job, f =>
    if f.jobID ≠ job then .error (.sentinel .resourceDeleted)
    else .ok { f with deleted := false }

/-! ## The state -/

def resourceFenceCacheTTL : Nat := 1000000000

/-- What `readResourceFenceFresh` returns: the fence and its etag, if there is an object. -/
abbrev FenceRead := Fence × Option Nat

structure Flight where
  rev : Nat
  done : Option (Res FenceRead)

/-- What a manager keeps for the scope. Only an absent fence is ever cached, so the cache
entry is the time it was read at. `shared` is the flight other readers may join. -/
structure Local where
  readers : Nat
  writer : Bool
  cachedAt : Option Nat
  rev : Nat
  flights : List Flight
  shared : Option Nat

/-- The object the fence had in the older layout. -/
inductive Legacy where
  | missing
  | invalid
  | json (content : Option Fence)

structure World where
  fence : Versioned (Option Fence)
  legacy : Legacy
  objects : Objects Key Bytes
  locals : Nat → Local
  clock : Nat

def World.setLocal (w : World) (m : Nat) (l : Local) : World :=
  { w with locals := fun n => if n = m then l else w.locals n }

/-! ## Operations -/

/-- What the locked lookup of `readResourceFenceShared` finds: a cached absent fence, a
flight to join, or a flight of its own. -/
inductive Lookup where
  | hit
  | join (flight : Nat)
  | own (flight rev : Nat)
  deriving DecidableEq, Repr

/-- The atomic operations. A stored fence is marked with the update it comes from; there is
none for a migration. -/
inductive Op where
  | rlock (m : Nat)
  | runlock (m : Nat)
  | lock (m : Nat)
  | unlock (m : Nat)
  | getFence
  | getLegacy
  | createFence (u : Option Update) (content : Option Fence)
  | casFence (u : Update) (f : Fence) (tag : Nat)
  | lookup (m : Nat) (refresh : Bool)
  | await (m flight : Nat)
  | cacheRead (m rev : Nat) (f : Fence)
  | finish (m flight : Nat) (res : Res FenceRead)
  | cacheFence (m : Nat) (f : Fence)
  | evict (m : Nat)
  | otherScope (m : Nat)
  | create (key : Key) (data : Bytes)
  | get (key : Key)
  | delete (key : Key) (tag : Nat)
  | list (start : Key)

/-- The answer to an operation. `await` says whether the reader has to start again,
`finish` whether the revision is still the one of the flight. -/
def Reply : Op → Type
  | .rlock _ => Unit
  | .runlock _ => Unit
  | .lock _ => Unit
  | .unlock _ => Unit
  | .getFence => Res (Option Fence × Nat)
  | .getLegacy => Res Legacy
  | .createFence _ _ => Res Nat
  | .casFence _ _ _ => Res Unit
  | .lookup _ _ => Res Lookup
  | .await _ _ => Res (Res FenceRead × Bool)
  | .cacheRead _ _ _ => Unit
  | .finish _ _ _ => Bool
  | .cacheFence _ _ => Unit
  | .evict _ => Unit
  | .otherScope _ => Unit
  | .create _ _ => Res Nat
  | .get _ => Res (Bytes × Nat)
  | .delete _ _ => Res Unit
  | .list _ => Res (List Key)

abbrev ops : Signature := ⟨Op, Reply⟩

abbrev ask (op : Op) : Prog ops (Reply op) := Prog.perform (S := ops) op

/-- The environment's part of a step: the time that passes before it, and a fault or a
decision the model does not compute. -/
structure Choice where
  elapsed : Nat
  fault : Option String
  yes : Bool

def Choice.plain : Choice := ⟨0, none, true⟩

/-- The answer of an operation that fails without effect; locks and local bookkeeping do not
fail. -/
def failed (e : Err) : (op : Op) → Option (Reply op)
  | .rlock _ => none
  | .runlock _ => none
  | .lock _ => none
  | .unlock _ => none
  | .getFence => some (.error e)
  | .getLegacy => some (.error e)
  | .createFence _ _ => some (.error e)
  | .casFence _ _ _ => some (.error e)
  | .lookup _ _ => some (.error e)
  | .await _ _ => some (.error e)
  | .cacheRead _ _ _ => none
  | .finish _ _ _ => none
  | .cacheFence _ _ => none
  | .evict _ => none
  | .otherScope _ => none
  | .create _ _ => some (.error e)
  | .get _ => some (.error e)
  | .delete _ _ => some (.error e)
  | .list _ => some (.error e)

/-- The lookup under `fenceMu`; `room` says whether there is room for another flight. -/
def Local.lookup (l : Local) (clock : Nat) (refresh room : Bool) : Lookup × Local :=
  if refresh = false ∧ (∃ at' ∈ l.cachedAt, clock - at' < resourceFenceCacheTTL) then (.hit, l)
  else
    let own : Lookup × Local :=
      (.own l.flights.length l.rev,
        { l with
          flights := l.flights ++ [⟨l.rev, none⟩]
          shared := if room then some l.flights.length else l.shared })
    match l.shared with
    | none => own
    | some id =>
      match l.flights[id]? with
      | none => own
      | some flight => if flight.rev = l.rev then (.join id, l) else own

/-- The last critical section of `readResourceFenceShared`. -/
def Local.finish (l : Local) (id : Nat) (res : Res FenceRead) : Bool × Local :=
  match l.flights[id]? with
  | none => (false, l)
  | some flight =>
    (decide (l.rev = flight.rev),
      { l with
        flights := l.flights.set id { flight with done := some res }
        shared := if l.shared = some id then none else l.shared })

def Local.cacheRead (l : Local) (clock rev : Nat) (f : Fence) : Local :=
  if l.rev ≠ rev then l
  else { l with cachedAt := if f.absent then some clock else none }

def Local.cacheFence (l : Local) (clock : Nat) (f : Fence) : Local :=
  { l with rev := l.rev + 1, cachedAt := if f.absent then some clock else none }

def effect (yes : Bool) (w : World) : (op : Op) → Option (Reply op × World)
  | .rlock m =>
    let l := w.locals m
    if l.writer then none else some ((), w.setLocal m { l with readers := l.readers + 1 })
  | .runlock m =>
    let l := w.locals m
    some ((), w.setLocal m { l with readers := l.readers - 1 })
  | .lock m =>
    let l := w.locals m
    if l.writer ∨ 0 < l.readers then none else some ((), w.setLocal m { l with writer := true })
  | .unlock m => some ((), w.setLocal m { w.locals m with writer := false })
  | .getFence =>
    match w.fence.cur with
    | none => some (.error (.sentinel .bucketNotFound), w)
    | some x => some (.ok x, w)
  | .getLegacy =>
    match w.legacy with
    | .missing => some (.error (.sentinel .bucketNotFound), w)
    | l => some (.ok l, w)
  | .createFence _ content =>
    match w.fence.create content with
    | none => some (.error (.sentinel .bucketPrecondition), w)
    | some v => some (.ok w.fence.fresh, { w with fence := v })
  | .casFence _ f tag =>
    match w.fence.cas (some f) tag with
    | none => some (.error (.sentinel .bucketPrecondition), w)
    | some v => some (.ok (), { w with fence := v })
  | .lookup m refresh =>
    let found := (w.locals m).lookup w.clock refresh yes
    some (.ok found.1, w.setLocal m found.2)
  | .await m id =>
    -- a context error of the flight is not the reader's own
    match (w.locals m).flights[id]? with
    | some ⟨rev, some res⟩ =>
      some (.ok (res, (w.locals m).rev ≠ rev || (!res.isOk && yes)), w)
    | _ => none
  | .cacheRead m rev f => some ((), w.setLocal m ((w.locals m).cacheRead w.clock rev f))
  | .finish m id res =>
    let out := (w.locals m).finish id res
    some (out.1, w.setLocal m out.2)
  | .cacheFence m f => some ((), w.setLocal m ((w.locals m).cacheFence w.clock f))
  | .evict m => some ((), w.setLocal m { w.locals m with cachedAt := none })
  | .otherScope m => some ((), w.setLocal m { w.locals m with rev := (w.locals m).rev + 1 })
  | .create key data =>
    match w.objects.create key data with
    | none => some (.error (.sentinel .bucketPrecondition), w)
    | some o => some (.ok w.objects.fresh, { w with objects := o })
  | .get key =>
    match w.objects.get key with
    | none => some (.error (.sentinel .bucketNotFound), w)
    | some x => some (.ok x, w)
  | .delete key tag =>
    match w.objects.delete key tag with
    | none => some (.error (.sentinel .bucketPrecondition), w)
    | some o => some (.ok (), { w with objects := o })
  | .list start => some (.ok (w.objects.keys.filter (start.isPrefixOf ·)), w)

/-- How the scope executes an operation. -/
def exec : Exec ops Choice World := fun op c w =>
  let w := { w with clock := w.clock + c.elapsed }
  match c.fault with
  | some text => (failed (.errorf text) op).map (·, w)
  | none => effect c.yes w op

end CellHive.Fencing
