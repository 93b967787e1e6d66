import CellHive.Owner.Caches

/-!
# One process's readers, releases and lookups

The critical sections of an owner manager and of the lease manager of its process as
events on one state. Events carry the readings of the clock they take and what the
bucket answered, so a list of events is an interleaving of any calls: claims and renewals
show only in their invalidations. A call of `Healthy` counts as one step of the lease.
-/

namespace CellHive.Owner

open Go Lease

inductive LeaseView where
  | absent
  | manager (nodeID session : String)
  | other
  deriving DecidableEq, Repr

/-- What `localLease` reads of a manager. -/
structure Identity where
  nodeID : String
  session : String
  view : LeaseView
  deriving DecidableEq, Repr

def Identity.localLease (m : Identity) (o : Record) : Bool :=
  match m.view with
  | .manager nodeID session =>
    decide (o.liveness = .nodeLease ∧ o.node = m.nodeID ∧ o.session = m.session ∧
      nodeID = m.nodeID ∧ session = m.session)
  | _ => false

/-- The fields of `lease.NodeLease` a lookup reads. -/
structure NodeLease where
  node : String
  session : String
  expiry : Int
  deriving DecidableEq, Repr

/-- The closure of `LocalReadGuard`, which keeps a route, or of `ReadFence`. -/
structure Fence where
  key : Str
  rev : Nat
  epoch : Nat
  route : Option OwnerRoute
  released : Bool
  deriving DecidableEq, Repr

structure Process where
  caches : Caches
  lease : Held
  /-- the deadline of the publication under way, one at a time under `publishMu` -/
  publishing : Option Time
  /-- the calls of `ResolveCached` between their critical sections: key and revision -/
  reads : List (Str × Nat)
  fences : AList fun _ : Nat => Fence
  /-- the last reading of the clock -/
  clock : Time

namespace Process

def start (ttl : Int) (clock : Time) : Process :=
  ⟨Caches.empty, Held.fresh ttl, none, [], ∅, clock⟩

inductive Action where
  | invalidate (key : Str) (o : Orders)
  | beginRelease (key : Str) (o : Orders)
  | endRelease (key : Str) (o : Orders)
  | resolveCached (key : Str) (ttl : Int)
  | resolvedCached (call : Nat) (answer : Option (Record × Str)) (o : Orders)
  | resolveRoute (key : Str)
  | sampleLease (key : Str)
  | routeAnswered (key : Str) (answer : Option (Record × Str))
      (peer : Option (Option NodeLease))
  | routeDone (key : Str) (o : Orders)
  | localReadGuard (id : Nat) (key : Str)
  | readFence (id : Nat) (key : Str)
  | check (id : Nat)
  | beginPublish
  | endPublish (w : Held.Written)
  | watchFenced
  | watchHealthy

/-- A critical section with the readings of the clock it takes. -/
structure Event where
  action : Action
  readings : Readings

/-! ## Routes -/

def unexpired (now : Time) (c : OwnerRoute) : Bool :=
  beforeZero now c.deadline && decide (now.unixMilli < c.wallExpiry)

def startFlight (s : Process) (key : Str) : Process :=
  match s.caches.routeFlights.lookup key with
  | some _ => s
  | none =>
    { s with caches := { s.caches with
        routeFlights := s.caches.routeFlights.insert key ⟨s.caches.rev key, .started⟩ } }

def eraseRoute (s : Process) (key : Str) : Process :=
  { s with caches := { s.caches with routes := s.caches.routes.erase key } }

/-- `ResolveRoute` gives up a stored route. -/
def dropRoute (s : Process) (key : Str) : Process := startFlight (eraseRoute s key) key

/-- `ResolveRoute` up to the first unlock. -/
def resolveRoute (m : Identity) (s : Process) (key : Str) (r : Readings) : Process :=
  match s.caches.routes.lookup key with
  | none => startFlight s key
  | some c =>
    if unexpired r.first c then
      if c.isLocal then
        if m.localLease c.owner then
          let lease := s.lease.afterHealthy r.first r.second
          if s.lease.healthy r.first r.second then
            let u := lease.healthyUntil r.third
            { s with
              lease := lease.expired r.third
              caches := { s.caches with
                routes := s.caches.routes.insert key
                  { c with deadline := u, wallExpiry := unixMilliZero u } } }
          else dropRoute { s with lease := lease } key
        else dropRoute s key
      else s
    else dropRoute s key

/-- The route an answer gives; none when the lease of a peer could not be read. -/
def routeOf (m : Identity) (localUntil : Option Time) (issued now : Time) (owner : Record)
    (etag : Str) (peer : Option (Option NodeLease)) : Option OwnerRoute :=
  if m.localLease owner then
    some ⟨owner, etag, localUntil, unixMilliZero localUntil, true⟩
  else if owner.liveness = .nodeLease ∧ m.view ≠ .absent then
    match peer with
    | none => none
    | some none => some ⟨owner, etag, none, 0, false⟩
    | some (some l) =>
      if l.node = owner.node ∧ l.session = owner.session then
        some ⟨owner, etag, some (issued.add ((l.expiry - now.unixMilli) * 1000000)),
          l.expiry, false⟩
      else some ⟨owner, etag, none, 0, false⟩
  else some ⟨owner, etag, some (issued.add second), owner.expiry, false⟩

def setLookup (s : Process) (key : Str) (f : RouteFlight) (l : Lookup) : Process :=
  { s with caches := { s.caches with
      routeFlights := s.caches.routeFlights.insert key { f with lookup := l } } }

/-- A route without content, of a lookup that failed. -/
def noRoute : OwnerRoute :=
  ⟨⟨"", .cellAgent, "", 0, 0, .legacy, "", "", ""⟩, [], none, 0, false⟩

/-- `ResolveRoute` from the answer of the bucket up to its second critical section. -/
def routeAnswered (m : Identity) (s : Process) (key : Str) (f : RouteFlight)
    (localUntil : Option Time) (issued : Time) (answer : Option (Record × Str))
    (peer : Option (Option NodeLease)) (r : Readings) : Process :=
  match answer.bind fun a => routeOf m localUntil issued r.first a.1 a.2 peer with
  | none => setLookup s key f (.answered noRoute false false)
  | some c =>
    if c.isLocal && !beforeZero r.first localUntil then
      setLookup { s with lease := s.lease.afterHealthy r.second r.third } key f
        (.answered c true (s.lease.healthy r.second r.third))
    else setLookup s key f (.answered c true false)

/-- The second critical section of `ResolveRoute`. -/
def routeDone (o : Orders) (s : Process) (key : Str) (f : RouteFlight) (c : OwnerRoute)
    (ok : Bool) (r : Readings) : Process :=
  let caches :=
    if s.caches.rev key = f.rev ∧ ok = true ∧ beforeZero r.first c.deadline = true ∧
        r.second.unixMilli < c.wallExpiry then
      s.caches.putRoute o key c
    else s.caches
  { s with caches := { caches with routeFlights := caches.routeFlights.erase key } }

/-! ## Read guards -/

/-- Hands out a check function and counts the guard. -/
def handOut (s : Process) (id : Nat) (key : Str) (route : Option OwnerRoute) : Process :=
  { s with
    caches := { s.caches with guards := ScopeMap.raise s.caches.guards key }
    fences := s.fences.insert id
      ⟨key, s.caches.rev key, s.caches.cacheEpoch, route, false⟩ }

/-- What `LocalReadGuard` asks of a route before it looks at the lease. -/
def guardable (m : Identity) (s : Process) (key : Str) (c : OwnerRoute) (now : Time) : Bool :=
  c.isLocal && m.localLease c.owner && decide (ScopeMap.count s.caches.releasing key = 0) &&
    unexpired now c

def localReadGuard (m : Identity) (s : Process) (id : Nat) (key : Str) (r : Readings) :
    Process :=
  match s.caches.routes.lookup key with
  | none => s
  | some c =>
    if guardable m s key c r.first then
      let s' := { s with lease := s.lease.afterHealthy r.first r.second }
      if s.lease.healthy r.first r.second then handOut s' id key (some c) else s'
    else s

def readFence (s : Process) (id : Nat) (key : Str) : Process :=
  if 0 < ScopeMap.count s.caches.releasing key then s else handOut s id key none

/-- What a check function compares. -/
def unchanged (s : Process) (f : Fence) : Bool :=
  decide (s.caches.cacheEpoch = f.epoch) && decide (s.caches.rev f.key = f.rev) &&
    decide (ScopeMap.count s.caches.releasing f.key = 0)

/-- The route a guard was given for is still the route of its scope, and unexpired. -/
def sameRoute (m : Identity) (s : Process) (f : Fence) (c : OwnerRoute) (now : Time) : Bool :=
  (match s.caches.routes.lookup f.key with
    | none => false
    | some current => decide (current.owner = c.owner)) &&
    m.localLease c.owner && unexpired now c

/-- The result of a check function. -/
def passes (m : Identity) (s : Process) (f : Fence) (r : Readings) : Bool :=
  s.unchanged f &&
    match f.route with
    | none => true
    | some c => s.sameRoute m f c r.first && s.lease.healthy r.first r.second

/-- The lease after a check function, which asks it last. -/
def checkedLease (m : Identity) (s : Process) (f : Fence) (r : Readings) : Held :=
  match f.route with
  | none => s.lease
  | some c =>
    if s.unchanged f && s.sameRoute m f c r.first then
      s.lease.afterHealthy r.first r.second
    else s.lease

/-- The state after a check function. -/
def check (m : Identity) (s : Process) (id : Nat) (f : Fence) (r : Readings) : Process :=
  { s with
    lease := s.checkedLease m f r
    caches := if f.released then s.caches else s.caches.releaseGuard f.key
    fences := s.fences.insert id { f with released := true } }

/-! ## Steps and runs -/

def act (m : Identity) (s : Process) (r : Readings) : Action → Option Process
  | .invalidate key o => some { s with caches := s.caches.invalidate o r key }
  | .beginRelease key o => some { s with caches := s.caches.beginRelease o r key }
  | .endRelease key o =>
    if 0 < ScopeMap.count s.caches.releasing key then
      some { s with caches := s.caches.endRelease o r key }
    else none
  | .resolveCached key ttl =>
    if s.caches.hit key ttl r.first then some s
    else some { s with
      caches := { s.caches with cachePending := ScopeMap.raise s.caches.cachePending key }
      reads := s.reads ++ [(key, s.caches.rev key)] }
  | .resolvedCached call answer o =>
    match s.reads[call]? with
    | none => none
    | some (key, rev) =>
      some { s with
        caches := s.caches.finishResolve o r key rev answer
        reads := s.reads.eraseIdx call }
  | .resolveRoute key => some (resolveRoute m s key r)
  | .sampleLease key =>
    match s.caches.routeFlights.lookup key with
    | some ⟨rev, .started⟩ =>
      -- without a lease manager of its own the sample is the zero time
      match m.view with
      | .manager _ _ =>
        some (setLookup { s with lease := s.lease.expired r.first } key ⟨rev, .started⟩
          (.sampled (s.lease.healthyUntil r.first) r.second))
      | _ => some (setLookup s key ⟨rev, .started⟩ (.sampled none r.second))
    | _ => none
  | .routeAnswered key answer peer =>
    match s.caches.routeFlights.lookup key with
    | some ⟨rev, .sampled localUntil issued⟩ =>
      some (routeAnswered m s key ⟨rev, .sampled localUntil issued⟩ localUntil issued answer
        peer r)
    | _ => none
  | .routeDone key o =>
    match s.caches.routeFlights.lookup key with
    | some ⟨rev, .answered c ok retry⟩ =>
      some (routeDone o s key ⟨rev, .answered c ok retry⟩ c ok r)
    | _ => none
  | .localReadGuard id key =>
    if (s.fences.lookup id).isSome then none else some (localReadGuard m s id key r)
  | .readFence id key =>
    if (s.fences.lookup id).isSome then none else some (readFence s id key)
  | .check id =>
    match s.fences.lookup id with
    | none => none
    | some f => some (s.check m id f r)
  | .beginPublish =>
    if s.publishing.isSome then none
    else if (s.lease.expired r.first).fenced then
      some { s with lease := s.lease.expired r.first }
    else some { s with publishing := some (s.lease.deadline r.second) }
  | .endPublish w =>
    match s.publishing with
    | none => none
    | some expiry => some { s with lease := s.lease.settle expiry r.first w, publishing := none }
  | .watchFenced => some { s with lease := s.lease.expired r.first }
  | .watchHealthy => some { s with lease := s.lease.afterHealthy r.first r.second }

def step (m : Identity) (s : Process) (e : Event) : Option Process :=
  if s.clock.mono ≤ e.readings.first.mono then
    (act m s e.readings e.action).map fun s' => { s' with clock := e.readings.third }
  else none

def run (m : Identity) (s : Process) : List Event → Option Process
  | [] => some s
  | e :: es => (step m s e).bind fun s' => run m s' es

end Process

end CellHive.Owner
