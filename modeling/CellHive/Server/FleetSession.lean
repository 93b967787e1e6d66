import CellHive.Cell.Scope
import CellHive.NodeLog.Record

/-!
# Fleet sessions

The fleet part of `commitSegmentCore` with `openFleetSession`: before a process lets a
follower acknowledge a segment, the followers are recorded in its node log. The first caller
opens the record; later callers are let through if their followers fit it. Any number of
calls run at once: a state holds how far each of them has come, and an event is one critical
section, one operation on the bucket, or what happens outside.

A process runs with or without peer identities. Without them a session is known by
the addresses of its followers. With them it is known by the identities of its followers,
and the address of a follower may change.
-/

namespace CellHive.Server.FleetSession

open Go NodeLog Cell

/-! ## State -/

inductive Durability where
  | bucket
  | auto
  | fleet
  deriving DecidableEq, Repr

/-- The parts of a server that do not change. `identified` if it has peer targets and leases. -/
structure Config where
  node : Str
  session : Str
  identified : Bool
  nodeLog : Bool
  peerMgr : Bool
  uploader : Bool
  durability : Durability
  bucketWait : Bool

inductive Mode where
  | fleet (ackedBy : Str)
  | bucketAsync
  | bucketBatch
  | bucket
  deriving DecidableEq, Repr

/-- How far a call of `commitSegmentCore` has come: before `openFleetSession`, in its slow
path up to the decision, past it, and back in `commitSegmentCore`. -/
inductive Phase where
  | entering
  | opening
  | preparing (refs : ByAddress PeerIdentity)
  | creating (refs : Option (ByAddress PeerIdentity))
  | comparing (refs : Option (ByAddress PeerIdentity))
  | decided (refs : Option (Option (ByAddress PeerIdentity)))
  | passed
  | sent (followers : List Str)
  | fallback (requireBucket : Bool)
  | done (res : Option Mode)

structure Call where
  scope : Scope
  epoch : UInt64
  followers : List Str
  requireBucket : Bool
  phase : Phase

/-- The server with its callers, the bindings of `peer.Targets`, and all versions of the
session's node-log record, the current one first. -/
structure State where
  calls : List Call := []
  sessionOpen : Bool := false
  sessionOpening : Bool := false
  sessionFollowers : List Str := []
  sessionRefs : Finset PeerIdentity := ∅
  targets : ByAddress PeerIdentity := ∅
  stored : List Record := []

/-! ## Followers and identities -/

/-- The loop that builds the references of some followers, by the leases that are sampled for
them one after the other; none if a follower has no live lease. -/
def collectRefs (refs : ByAddress PeerIdentity) :
    List Str → List (Option PeerIdentity) → Option (ByAddress PeerIdentity)
  | [], _ => some refs
  | addr :: rest, some id :: samples => collectRefs (refs.insert addr id) rest samples
  | _ :: _, _ => none

def bind (targets refs : ByAddress PeerIdentity) : Option (ByAddress PeerIdentity) :=
  if refs.entries.all fun x => decide (∀ old ∈ targets.lookup x.1, old = x.2) then
    some (refs ∪ targets)
  else none

def identities (refs : ByAddress PeerIdentity) : Finset PeerIdentity :=
  (refs.entries.map (·.2)).toFinset

/-- `sessionMatchesLocked`: whether the followers fit the session, and the bindings. -/
def sessionMatches (cfg : Config) (s : State) (followers : List Str)
    (samples : List (Option PeerIdentity)) : Bool × ByAddress PeerIdentity :=
  if cfg.identified = false then (s.sessionFollowers == followers, s.targets)
  else
    match collectRefs ∅ followers samples with
    | none => (false, s.targets)
    | some refs =>
      if refs.entries.length ≠ s.sessionRefs.card then (false, s.targets)
      else if refs.entries.all fun x => decide (x.2 ∈ s.sessionRefs) then
        match bind s.targets refs with
        | none => (false, s.targets)
        | some targets => (true, targets)
      else (false, s.targets)

def followersKey (followers : List Str) : Str :=
  match followers with
  | [addr] => addr
  | _ => [','].intercalate (canonicalFollowers followers)

def Call.shipKey (c : Call) : Scope × UInt64 × Str := (c.scope, c.epoch, followersKey c.followers)

def Call.record (cfg : Config) (c : Call) : Option (ByAddress PeerIdentity) → Option Record
  | none => some (opened cfg.node cfg.session c.epoch (canonicalFollowers c.followers) none)
  | some refs =>
    (identifiedFollowers refs).map fun followers =>
      opened cfg.node cfg.session c.epoch followers (some refs)

/-! ## Steps -/

inductive Action where
  /-- The first critical section of `openFleetSession`, with the leases it samples. -/
  | enter (samples : List (Option PeerIdentity))
  /-- The slow path up to the bindings, with the leases it samples. -/
  | resolve (samples : List (Option PeerIdentity))
  /-- The followers are prepared, or one of them fails. -/
  | prepare (ok : Bool)
  /-- The conditional create: it may fail, with or without effect. -/
  | create (fault : Option Bool)
  /-- The record that is there is read and compared; the read may fail. -/
  | compare (ok : Bool)
  /-- The last critical section of `openFleetSession`. -/
  | finish
  /-- The call stops waiting for another one that opens the session. -/
  | giveUp
  /-- The recovery coordinate of a Durable Object is not available, or the commit is not
  valid any more. -/
  | divert (invalid : Bool)
  /-- A follower acknowledges the segment. -/
  | ack (follower : Str)
  /-- No follower acknowledges it. -/
  | fail
  /-- The bucket path ends. -/
  | settle (ok : Bool)

inductive Event where
  /-- A call arrives, with the followers it was given or has chosen. -/
  | call (scope : Scope) (epoch : UInt64) (followers : List Str) (requireBucket : Bool)
  | act (i : Nat) (a : Action)
  /-- Segments are sent in one batch, to the followers of the first of them. -/
  | send (batch : List Nat)
  /-- A recoverer or the process itself changes what changes in a record. -/
  | update (status : Status) (progress covered : ByAddress Nat)

def State.setPhase (s : State) (i : Nat) (phase : Phase) : State :=
  { s with calls := s.calls.modify i fun c => { c with phase } }

def bucketMode (cfg : Config) (requireBucket : Bool) : Mode :=
  if cfg.uploader = false then .bucket
  else if requireBucket || cfg.bucketWait || decide (cfg.durability = .fleet) then .bucketBatch
  else .bucketAsync

def triesFleet (cfg : Config) (followers : List Str) (requireBucket : Bool) : Bool :=
  !requireBucket && decide (cfg.durability ≠ .bucket) && !followers.isEmpty && cfg.peerMgr

/-- The outcome of the slow path without a record to compare. -/
def createRecord (cfg : Config) (s : State) (i : Nat) (c : Call)
    (refs : Option (ByAddress PeerIdentity)) (fault : Option Bool) : State :=
  match c.record cfg refs with
  | none => s.setPhase i (.decided none)
  | some r =>
    match s.stored, fault with
    | [], none => { s.setPhase i (.decided (some refs)) with stored := [r] }
    | [], some true => { s.setPhase i (.decided none) with stored := [r] }
    | _ :: _, none => s.setPhase i (.comparing refs)
    | _, some _ => s.setPhase i (.decided none)

/-- The slow path found a record. -/
def compareRecord (cfg : Config) (s : State) (i : Nat) (c : Call)
    (refs : Option (ByAddress PeerIdentity)) : State :=
  match c.record cfg refs, s.stored with
  | some r, existing :: _ =>
    s.setPhase i (.decided (if existing.reopens r then some refs else none))
  | _, _ => s.setPhase i (.decided none)

/-- The last critical section of `openFleetSession`. -/
def finishOpening (s : State) (i : Nat) (c : Call) :
    Option (Option (ByAddress PeerIdentity)) → State
  | none => { s.setPhase i (.fallback c.requireBucket) with sessionOpening := false }
  | some refs =>
    { s.setPhase i .passed with
      sessionOpening := false
      sessionOpen := true
      sessionFollowers := canonicalFollowers c.followers
      sessionRefs := (refs.map identities).getD ∅ }

/-- The first critical section of `openFleetSession`. -/
def enterSession (cfg : Config) (s : State) (i : Nat) (c : Call)
    (samples : List (Option PeerIdentity)) : Option State :=
  if cfg.nodeLog = false then some (s.setPhase i (.fallback c.requireBucket))
  else if s.sessionOpen then
    let found := sessionMatches cfg s (canonicalFollowers c.followers) samples
    some { s.setPhase i (if found.1 then .passed else .fallback c.requireBucket) with
      targets := found.2 }
  else if s.sessionOpening then none
  else some { s.setPhase i .opening with sessionOpening := true }

/-- The slow path up to the bindings. -/
def resolveFollowers (cfg : Config) (s : State) (i : Nat) (c : Call)
    (samples : List (Option PeerIdentity)) : State :=
  if cfg.identified = false then s.setPhase i (.creating none)
  else
    match collectRefs ∅ (canonicalFollowers c.followers) samples with
    | none => s.setPhase i (.decided none)
    | some refs =>
      match bind s.targets refs with
      | none => s.setPhase i (.decided none)
      | some targets => { s.setPhase i (.preparing refs) with targets }

def act (cfg : Config) (s : State) (i : Nat) (c : Call) (a : Action) : Option State :=
  match a, c.phase with
  | .enter samples, .entering => enterSession cfg s i c samples
  | .resolve samples, .opening => some (resolveFollowers cfg s i c samples)
  | .prepare ok, .preparing refs =>
    some (s.setPhase i (if ok then .creating (some refs) else .decided none))
  | .create fault, .creating refs => some (createRecord cfg s i c refs fault)
  | .compare ok, .comparing refs =>
    some (if ok then compareRecord cfg s i c refs else s.setPhase i (.decided none))
  | .finish, .decided refs => some (finishOpening s i c refs)
  | .giveUp, .entering => some (s.setPhase i (.fallback c.requireBucket))
  | .divert invalid, .passed =>
    some (s.setPhase i (if invalid then .done none else .fallback true))
  | .ack follower, .sent followers =>
    if follower ∈ followers then some (s.setPhase i (.done (some (.fleet follower)))) else none
  | .fail, .sent _ => some (s.setPhase i (.fallback c.requireBucket))
  | .settle ok, .fallback requireBucket =>
    some (s.setPhase i (.done (if ok then some (bucketMode cfg requireBucket) else none)))
  | _, _ => none

def Phase.isPassed : Phase → Bool
  | .passed => true
  | _ => false

/-- A call that has come to the shipper, with the key of the batch. -/
def State.ships (s : State) (first : Call) (i : Nat) : Bool :=
  match s.calls[i]? with
  | some c => c.phase.isPassed && decide (c.shipKey = first.shipKey)
  | none => false

/-- The effect of an event; none if it cannot happen now. -/
def step (cfg : Config) (s : State) : Event → Option State
  | .call scope epoch followers requireBucket =>
    let phase :=
      if triesFleet cfg followers requireBucket then .entering else .fallback requireBucket
    some { s with calls := s.calls ++ [⟨scope, epoch, followers, requireBucket, phase⟩] }
  | .act i a =>
    match s.calls[i]? with
    | none => none
    | some c => act cfg s i c a
  | .send batch =>
    match batch.head?.bind (s.calls[·]?) with
    | none => none
    | some first =>
      if batch.all (s.ships first) then
        some { s with
          calls := s.calls.mapIdx fun j c =>
            if j ∈ batch then { c with phase := .sent first.followers } else c }
      else none
  | .update status progress covered =>
    match s.stored with
    | [] => none
    | r :: _ =>
      some { s with stored := { r with status, progress, coveredSeq := covered } :: s.stored }

def run (cfg : Config) : State → List Event → Option State
  | s, [] => some s
  | s, e :: events =>
    match step cfg s e with
    | none => none
    | some s' => run cfg s' events

end CellHive.Server.FleetSession
