import CellHive.Owner.World

/-!
# Claiming, renewing and releasing a scope

`internal/owner/owner.go` and `internal/owner/as.go` as programs over the scope's
objects. Caches, the owned set and the metric counters of a manager are left out: no
bucket operation depends on them. A record is stored as the structure its JSON form
denotes.
-/

namespace CellHive.Owner

open Go Concurrent Prog

/-- `Manager`; `leaseView`, `hasBeforeTakeover` and `hasBeforeRelease` say which of its
optional fields are set. -/
structure Manager where
  number : Nat
  nodeID : String
  session : String
  advertise : String
  adminAdvertise : String
  role : Role
  ownerTTL : Int
  leaseView : Bool
  hasBeforeTakeover : Bool
  hasBeforeRelease : Bool
  deriving DecidableEq, Repr

def protoVersion : String := "v1"

def newOwner (m : Manager) (epoch : UInt64) (now : Int) : Record where
  node := m.nodeID
  role := m.role
  session := m.session
  epoch := epoch
  expiry := now + m.ownerTTL
  liveness := .nodeLease
  address := m.advertise
  adminAddress := m.adminAdvertise
  protoVersion := protoVersion

def ownerFor (m : Manager) (epoch : UInt64) (now : Int) (node advertise : String) (role : Role)
    (ttl : Int) : Record where
  node := node
  role := role
  session := m.session
  epoch := epoch
  expiry := now + ttl
  liveness := .legacy
  address := advertise
  adminAddress := m.adminAdvertise
  protoVersion := protoVersion

/-- The result of a claim: an error may come with the record in place. -/
abbrev Outcome := Except (Err × Option Record) Record

def resolve : Prog ops (Res (Record × Nat)) := do
  match ← ask .getOwner with
  | .ok x => return .ok x
  | .error e => return .error (if e.is .bucketNotFound then .sentinel .ownerUnowned else e)

def live (m : Manager) (o : Record) (now : Int) : Prog ops (Res Bool) :=
  if o.liveness ≠ .nodeLease then return .ok (!o.expired now)
  else if m.leaseView = false then return .ok (now < o.expiry)
  else ask (.nodeLease o)

def runHook (present : Bool) (h : Hook) : Prog ops (Res Unit) :=
  if present then ask (.hook h) else return .ok ()

/-- The generation after `g`, above `floor`. -/
def nextGen (g floor : UInt64) : UInt64 := if g + 1 ≤ floor then floor + 1 else g + 1

def nextEpochFrom (floor : UInt64) : Nat → Prog ops (Res UInt64)
  | 0 => return .error (.sentinel .ownerGenContention)
  | attempts + 1 => do
    match ← ask .getGen with
    | .ok (text, tag) =>
      match parseUint 64 (trimSpace text) with
      | none => return .error (.sentinel .ownerGenCorrupt)
      | some g =>
        let next := nextGen (UInt64.ofNat g) floor
        match ← ask (.casGen next tag) with
        | .ok _ => return .ok next
        | .error _ => nextEpochFrom floor attempts
    | .error e =>
      if e.is .bucketNotFound then
        let next := nextGen 0 floor
        match ← ask (.createGen next) with
        | .ok _ => return .ok next
        | .error _ => nextEpochFrom floor attempts
      else return .error e

def nextEpoch (floor : UInt64) : Prog ops (Res UInt64) := nextEpochFrom floor 8

/-! ## Claims -/

/-- The part of `ClaimWithReset` for a scope without an owner record. -/
def claimUnowned (m : Manager) (now : Int) (reset : Bool) : Prog ops Outcome := do
  match ← nextEpoch 0 with
  | .error e => return .error (e, none)
  | .ok epoch =>
    match ← runHook reset .reset with
    | .error e => return .error (e, none)
    | .ok _ =>
      let o := newOwner m epoch now
      match ← ask (.createOwner o) with
      | .error e => return .error (e, none)
      | .ok _ => return .ok o

/-- The part of `ClaimWithReset` that replaces the record of a dead owner. -/
def takeOver (m : Manager) (now : Int) (reset : Bool) (cur : Record) (tag : Nat) :
    Prog ops Outcome := do
  match ← runHook m.hasBeforeTakeover .beforeTakeover with
  | .error e => return .error (e, some cur)
  | .ok _ =>
    match ← runHook reset .reset with
    | .error e => return .error (e, some cur)
    | .ok _ =>
      match ← nextEpoch cur.epoch with
      | .error e => return .error (e, none)
      | .ok epoch =>
        let o := newOwner m epoch now
        match ← ask (.casOwner true o tag) with
        | .error e => return .error (e, none)
        | .ok _ => return .ok o

def claimLocked (m : Manager) (now : Int) (reset : Bool) : Prog ops Outcome := do
  match ← resolve with
  | .error e =>
    if e.is .ownerUnowned then claimUnowned m now reset else return .error (e, none)
  | .ok (cur, tag) =>
    if cur.node = m.nodeID ∧ cur.session = m.session then
      let _ ← ask .touchOwner
      return .ok cur
    else
      match ← live m cur now with
      | .error e => return .error (e, none)
      | .ok true => return .error (.sentinel .ownerLive, some cur)
      | .ok false => takeOver m now reset cur tag

/-- `ClaimWithReset`; `reset` says whether there is a callback. -/
def claimWithReset (m : Manager) (now : Int) (reset : Bool) : Prog ops Outcome := do
  match ← ask (.lockClaim m.number) with
  | .error e => return .error (e, none)
  | .ok _ =>
    let out ← claimLocked m now reset
    let _ ← ask (.unlockClaim m.number)
    return out

/-- The default of a nonpositive lease duration. -/
def ttlOf (m : Manager) (ttl : Int) : Int := if ttl ≤ 0 then m.ownerTTL else ttl

def claimAs (m : Manager) (node advertise : String) (role : Role) (ttl now : Int) :
    Prog ops Outcome := do
  match ← resolve with
  | .error e =>
    if e.is .ownerUnowned then
      match ← nextEpoch 0 with
      | .error e => return .error (e, none)
      | .ok epoch =>
        let o := ownerFor m epoch now node advertise role (ttlOf m ttl)
        match ← ask (.createOwner o) with
        | .error e => return .error (e, none)
        | .ok _ => return .ok o
    else return .error (e, none)
  | .ok (cur, tag) =>
    if cur.node ≠ node ∧ cur.expired now = false then
      return .error (.sentinel .ownerLive, some cur)
    else
      match ← nextEpoch cur.epoch with
      | .error e => return .error (e, none)
      | .ok epoch =>
        let o := ownerFor m epoch now node advertise role (ttlOf m ttl)
        match ← ask (.casOwner true o tag) with
        | .error e => return .error (e, none)
        | .ok _ => return .ok o

/-! ## Renewals and releases -/

def storeRenewed (o : Record) (tag : Nat) : Prog ops (Res Record) := do
  match ← ask (.casOwner false o tag) with
  | .error e => return .error e
  | .ok _ => return .ok o

def renewedAdmin (m : Manager) (cur : Record) : String :=
  if m.adminAdvertise ≠ "" then m.adminAdvertise else cur.adminAddress

def renew (m : Manager) (epoch : UInt64) (now : Int) : Prog ops (Res Record) := do
  match ← resolve with
  | .error e => return .error e
  | .ok (cur, tag) =>
    if cur.node ≠ m.nodeID ∨ cur.session ≠ m.session ∨ cur.epoch ≠ epoch then
      return .error (.sentinel .ownerEpochMismatch)
    else if cur.liveness = .nodeLease then
      if m.adminAdvertise ≠ "" ∧ cur.adminAddress ≠ m.adminAdvertise then
        match ← storeRenewed { cur with adminAddress := m.adminAdvertise } tag with
        | .error e => return .error e
        | .ok o =>
          let _ ← ask .touchOwner
          return .ok o
      else
        let _ ← ask .touchOwner
        return .ok cur
    else
      storeRenewed { cur with expiry := now + m.ownerTTL, adminAddress := renewedAdmin m cur } tag

def renewAs (m : Manager) (node : String) (epoch : UInt64) (ttl now : Int) :
    Prog ops (Res Record) := do
  match ← resolve with
  | .error e => return .error e
  | .ok (cur, tag) =>
    if cur.node ≠ node ∨ cur.epoch ≠ epoch then
      return .error (.sentinel .ownerEpochMismatch)
    else
      storeRenewed { cur with expiry := now + ttlOf m ttl, adminAddress := renewedAdmin m cur } tag

def deleteRecord (tag : Nat) : Prog ops (Res Unit) := do
  match ← ask (.deleteOwner tag) with
  | .error e =>
    return .error (if e.is .bucketPrecondition then .sentinel .ownerEpochMismatch else e)
  | .ok _ => return .ok ()

def release (m : Manager) (epoch : UInt64) (skipBeforeRelease : Bool) : Prog ops (Res Unit) := do
  match ← resolve with
  | .error e => return .error e
  | .ok (cur, tag) =>
    if cur.node ≠ m.nodeID ∨ cur.session ≠ m.session ∨ cur.epoch ≠ epoch then
      return .error (.sentinel .ownerEpochMismatch)
    else
      match ← runHook (m.hasBeforeRelease && !skipBeforeRelease) .beforeRelease with
      | .error e => return .error e
      | .ok _ => deleteRecord tag

def releaseAs (node : String) (epoch : UInt64) : Prog ops (Res Unit) := do
  match ← resolve with
  | .error e => return .error e
  | .ok (cur, tag) =>
    if cur.node ≠ node ∨ cur.epoch ≠ epoch then
      return .error (.sentinel .ownerEpochMismatch)
    else deleteRecord tag

inductive Call where
  | claimWithReset (m : Manager) (now : Int) (reset : Bool)
  | claimAs (m : Manager) (node advertise : String) (role : Role) (ttl now : Int)
  | renew (m : Manager) (epoch : UInt64) (now : Int)
  | renewAs (m : Manager) (node : String) (epoch : UInt64) (ttl now : Int)
  | release (m : Manager) (epoch : UInt64) (skipBeforeRelease : Bool)
  | releaseAs (node : String) (epoch : UInt64)

/-- The program of a call, without its result. -/
def Call.prog : Call → Prog ops Unit
  | .claimWithReset m now reset => do let _ ← Owner.claimWithReset m now reset
  | .claimAs m node advertise role ttl now => do
    let _ ← Owner.claimAs m node advertise role ttl now
  | .renew m epoch now => do let _ ← Owner.renew m epoch now
  | .renewAs m node epoch ttl now => do let _ ← Owner.renewAs m node epoch ttl now
  | .release m epoch skip => do let _ ← Owner.release m epoch skip
  | .releaseAs node epoch => do let _ ← Owner.releaseAs node epoch

end CellHive.Owner
