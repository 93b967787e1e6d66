import CellHive.Concurrent.Prog
import CellHive.Concurrent.Versioned
import CellHive.Go.Strings
import CellHive.Errors

/-!
# The shared state of ownership claims

The objects of one scope that owner managers share through the bucket: the owner
record and the generation counter, both with unique etags. Bucket operations are
atomic; any of them may fail without effect. What the model does not compute (node
leases, the callbacks of a manager, whether a record is touched) is the environment's
choice.
-/

namespace CellHive.Owner

open Go Concurrent

inductive Role where
  | cellAgent
  | doRuntime
  deriving DecidableEq, Repr

/-- `Owner.Liveness`: the text "node-lease", or nothing in legacy records. -/
inductive Liveness where
  | legacy
  | nodeLease
  deriving DecidableEq, Repr

/-- `cell.Owner`; `expiry` is in Unix milliseconds. -/
structure Record where
  node : String
  role : Role
  session : String
  epoch : UInt64
  expiry : Int
  liveness : Liveness
  address : String
  adminAddress : String
  protoVersion : String
  deriving DecidableEq, Repr

def Record.expired (o : Record) (now : Int) : Bool :=
  if o.liveness = .nodeLease then false else o.expiry ≤ now

/-- The callbacks a claim or a release runs. -/
inductive Hook where
  | reset
  | beforeTakeover
  | beforeRelease
  deriving DecidableEq, Repr

/-- The objects of a scope, and the managers (by number) that hold the scope's claim
lock. -/
structure World where
  owner : Versioned Record
  gen : Versioned Str
  claiming : List Nat

/-- A scope that was never claimed. -/
def World.unclaimed : World := ⟨.absent, .absent, []⟩

/-! ## Operations -/

/-- The atomic operations. A replaced record is marked with who writes: a claim or a
renewal. -/
inductive Op where
  | lockClaim (manager : Nat)
  | unlockClaim (manager : Nat)
  | getOwner
  | createOwner (o : Record)
  | casOwner (claim : Bool) (o : Record) (tag : Nat)
  | deleteOwner (tag : Nat)
  | touchOwner
  | getGen
  | createGen (next : UInt64)
  | casGen (next : UInt64) (tag : Nat)
  | nodeLease (o : Record)
  | hook (h : Hook)

def Reply : Op → Type
  | .lockClaim _ => Res Unit
  | .unlockClaim _ => Unit
  | .getOwner => Res (Record × Nat)
  | .createOwner _ => Res Unit
  | .casOwner _ _ _ => Res Unit
  | .deleteOwner _ => Res Unit
  | .touchOwner => Unit
  | .getGen => Res (Str × Nat)
  | .createGen _ => Res Unit
  | .casGen _ _ => Res Unit
  | .nodeLease _ => Res Bool
  | .hook _ => Res Unit

abbrev ops : Signature := ⟨Op, Reply⟩

abbrev ask (op : Op) : Prog ops (Reply op) := Prog.perform (S := ops) op

/-- The environment's part of a step: a fault, or the answer to what the model does
not compute. -/
inductive Choice where
  | fault (text : String)
  | proceed (yes : Bool)

def getObject {α : Type} (v : Versioned α) : Res (α × Nat) :=
  match v.cur with
  | none => .error (.sentinel .bucketNotFound)
  | some x => .ok x

def casError {α : Type} (v : Versioned α) : Err :=
  match v.cur with
  | none => .sentinel .bucketNotFound
  | some _ => .sentinel .bucketPrecondition

/-- The answer of an operation that fails without effect. -/
def failed (e : Err) : (op : Op) → Option (Reply op)
  | .unlockClaim _ => none
  | .touchOwner => some ()
  | .lockClaim _ => some (.error e)
  | .getOwner => some (.error e)
  | .createOwner _ => some (.error e)
  | .casOwner _ _ _ => some (.error e)
  | .deleteOwner _ => some (.error e)
  | .getGen => some (.error e)
  | .createGen _ => some (.error e)
  | .casGen _ _ => some (.error e)
  | .nodeLease _ => some (.error e)
  | .hook _ => some (.error e)

/-- The effect of an operation. A held claim lock makes its taker wait; the generation is
stored in decimal form. -/
def effect (yes : Bool) (s : World) : (op : Op) → Option (Reply op × World)
  | .lockClaim m =>
    if m ∈ s.claiming then none else some (.ok (), { s with claiming := m :: s.claiming })
  | .unlockClaim m => some ((), { s with claiming := s.claiming.erase m })
  | .getOwner => some (getObject s.owner, s)
  | .createOwner o =>
    match s.owner.create o with
    | none => some (.error (.sentinel .bucketPrecondition), s)
    | some v => some (.ok (), { s with owner := v })
  | .casOwner _ o tag =>
    match s.owner.cas o tag with
    | none => some (.error (casError s.owner), s)
    | some v => some (.ok (), { s with owner := v })
  | .deleteOwner tag =>
    match s.owner.delete tag with
    | none => some (.error (.sentinel .bucketPrecondition), s)
    | some v => some (.ok (), { s with owner := v })
  | .touchOwner => some ((), if yes then { s with owner := s.owner.retag } else s)
  | .getGen => some (getObject s.gen, s)
  | .createGen next =>
    match s.gen.create (formatUint next.toNat) with
    | none => some (.error (.sentinel .bucketPrecondition), s)
    | some v => some (.ok (), { s with gen := v })
  | .casGen next tag =>
    match s.gen.cas (formatUint next.toNat) tag with
    | none => some (.error (casError s.gen), s)
    | some v => some (.ok (), { s with gen := v })
  | .nodeLease _ => some (.ok yes, s)
  | .hook _ => some (.ok (), s)

/-- How the scope executes an operation. -/
def exec : Exec ops Choice World
  | op, .fault text, s => (failed (.errorf text) op).map (·, s)
  | op, .proceed yes, s => effect yes s op

end CellHive.Owner
