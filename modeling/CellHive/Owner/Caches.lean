import CellHive.Owner.World
import CellHive.Lease.Held

/-!
# The caches of an owner manager

What `owner.Manager` keeps under its lock `mu`: cached owner records, routing hints with
the lookups that will fill them, and for every scope a revision that a change of
ownership advances. Revisions of scopes nobody looks at are dropped to bound memory; the
epoch counts those drops. Go ranges over a map in an order of the runtime's choice, so
the loops take that order as an argument. The counters do not wrap around here.
-/

namespace CellHive.Owner

open Go Lease

abbrev ScopeMap (α : Type) := AList fun _ : Str => α

def ScopeMap.count (m : ScopeMap Nat) (key : Str) : Nat := (m.lookup key).getD 0

def ScopeMap.raise (m : ScopeMap Nat) (key : Str) : ScopeMap Nat :=
  m.insert key (ScopeMap.count m key + 1)

/-- One less for a key, without entry at zero. -/
def ScopeMap.lower (m : ScopeMap Nat) (key : Str) : ScopeMap Nat :=
  if 1 < ScopeMap.count m key then m.insert key (ScopeMap.count m key - 1) else m.erase key

structure Order where
  visit : List Str → List Str
  perm : ∀ keys, (visit keys).Perm keys

/-- The orders of the loops of one critical section, each by its number. -/
abbrev Orders := Nat → Order

/-- Every loop goes newest first. -/
def Orders.asIs : Orders := fun _ => ⟨id, fun _ => .refl _⟩

structure CachedOwner where
  owner : Record
  etag : Str
  cachedAt : Time
  deriving DecidableEq, Repr

/-- `ownerRoute`; a deadline of none is the zero time. -/
structure OwnerRoute where
  owner : Record
  etag : Str
  deadline : Option Time
  wallExpiry : Int
  isLocal : Bool
  deriving DecidableEq, Repr

/-- How far the lookup of a route got: started; the own lease sampled before the record
is read; answered, with whether a local answer has to be asked for again. -/
inductive Lookup where
  | started
  | sampled (localUntil : Option Time) (issued : Time)
  | answered (route : OwnerRoute) (ok retry : Bool)
  deriving DecidableEq, Repr

structure RouteFlight where
  rev : Nat
  lookup : Lookup
  deriving DecidableEq, Repr

structure Caches where
  cache : ScopeMap CachedOwner
  cacheRev : ScopeMap Nat
  cacheRevAt : ScopeMap Time
  cacheEpoch : Nat
  cachePending : ScopeMap Nat
  routes : ScopeMap OwnerRoute
  routeFlights : ScopeMap RouteFlight
  releasing : ScopeMap Nat
  guards : ScopeMap Nat

namespace Caches

/-- A manager that has served nothing. -/
def empty : Caches := ⟨∅, ∅, ∅, 0, ∅, ∅, ∅, ∅, ∅⟩

def maxOwnerCache : Nat := 4096

def maxOwnerCacheRev : Nat := 8192

def ownerCacheIdle : Int := 600 * second

def maxOwnerRoutes : Nat := 4096

/-- The revision of a scope, zero without entry. -/
def rev (c : Caches) (key : Str) : Nat := ScopeMap.count c.cacheRev key

def cacheKeyActive (c : Caches) (key : Str) : Bool :=
  (c.cache.lookup key).isSome || (c.routes.lookup key).isSome ||
    (c.routeFlights.lookup key).isSome ||
    decide (0 < ScopeMap.count c.releasing key) ||
    decide (0 < ScopeMap.count c.cachePending key) ||
    decide (0 < ScopeMap.count c.guards key)

def dropRev (c : Caches) (key : Str) : Caches :=
  { c with
    cacheRev := c.cacheRev.erase key
    cacheRevAt := c.cacheRevAt.erase key
    cacheEpoch := c.cacheEpoch + 1 }

def evictIdle (now : Time) (c : Caches) (key : Str) : Caches :=
  match c.cache.lookup key with
  | none => c
  | some e =>
    if ownerCacheIdle ≤ now.sub e.cachedAt then { c with cache := c.cache.erase key } else c

/-- The visit of a cached record that evicts it while there are too many. -/
def evictExcess (c : Caches) (key : Str) : Caches :=
  if c.cache.keys.length ≤ maxOwnerCache then c else { c with cache := c.cache.erase key }

/-- The visit of a revision that drops it when idle. The time of a key without entry is
the zero time, long ago. -/
def dropIdle (now : Time) (c : Caches) (key : Str) : Caches :=
  if c.cacheKeyActive key then c
  else
    match c.cacheRevAt.lookup key with
    | none => c.dropRev key
    | some t => if ownerCacheIdle ≤ now.sub t then c.dropRev key else c

/-- The visit of a revision that drops it while there are too many. -/
def dropExcess (c : Caches) (key : Str) : Caches :=
  if c.cacheRev.keys.length ≤ maxOwnerCacheRev then c
  else if c.cacheKeyActive key then c else c.dropRev key

/-- The first half of `trimCachesLocked`. -/
def trimCache (o : Orders) (now : Time) (c : Caches) : Caches :=
  if c.cache.keys.length ≤ maxOwnerCache then c
  else
    let c := ((o 0).visit c.cache.keys).foldl (evictIdle now) c
    ((o 1).visit c.cache.keys).foldl evictExcess c

/-- The second half of `trimCachesLocked`. -/
def trimRevs (o : Orders) (now : Time) (c : Caches) : Caches :=
  if c.cacheRev.keys.length ≤ maxOwnerCacheRev then c
  else
    let c := ((o 2).visit c.cacheRev.keys).foldl (dropIdle now) c
    ((o 3).visit c.cacheRev.keys).foldl dropExcess c

def trimCaches (o : Orders) (now : Time) (c : Caches) : Caches :=
  (c.trimCache o now).trimRevs o now

/-- `invalidateLocked` before it trims. -/
def advance (c : Caches) (key : Str) (now : Time) : Caches :=
  { c with
    cache := c.cache.erase key
    routes := c.routes.erase key
    cacheRev := ScopeMap.raise c.cacheRev key
    cacheRevAt := c.cacheRevAt.insert key now }

def invalidate (o : Orders) (r : Readings) (c : Caches) (key : Str) : Caches :=
  (c.advance key r.first).trimCaches o r.second

/-- The first critical section of `release`. -/
def beginRelease (o : Orders) (r : Readings) (c : Caches) (key : Str) : Caches :=
  invalidate o r { c with releasing := ScopeMap.raise c.releasing key } key

/-- The last critical section of `release`. -/
def endRelease (o : Orders) (r : Readings) (c : Caches) (key : Str) : Caches :=
  invalidate o r { c with releasing := ScopeMap.lower c.releasing key } key

/-- `ResolveCached` finds a record young enough. -/
def hit (c : Caches) (key : Str) (ttl : Int) (now : Time) : Bool :=
  match c.cache.lookup key with
  | none => false
  | some e => decide (now.sub e.cachedAt < ttl)

/-- The last critical section of `ResolveCached`: the record read for a revision, or none
if the read failed. -/
def finishResolve (o : Orders) (r : Readings) (c : Caches) (key : Str) (rev : Nat)
    (answer : Option (Record × Str)) : Caches :=
  match answer with
  | none => { c with cachePending := ScopeMap.lower c.cachePending key }
  | some (owner, etag) =>
    let c := if c.rev key = rev then
        { c with cache := c.cache.insert key ⟨owner, etag, r.first⟩ } else c
    trimCaches o r.second { c with cachePending := ScopeMap.lower c.cachePending key }

/-- Stores a route, in the place of a victim when there are too many. -/
def putRoute (o : Orders) (c : Caches) (key : Str) (route : OwnerRoute) : Caches :=
  let routes := if maxOwnerRoutes ≤ c.routes.keys.length then
      match (o 0).visit c.routes.keys with
      | [] => c.routes
      | victim :: _ => c.routes.erase victim
    else c.routes
  { c with routes := routes.insert key route }

def releaseGuard (c : Caches) (key : Str) : Caches :=
  { c with guards := ScopeMap.lower c.guards key }

end Caches

end CellHive.Owner
