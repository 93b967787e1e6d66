import CellHive.Go.Error
import CellHive.Control.Namespace
import CellHive.Sql.Table

/-!
# Hosts and routes

The tables `hosts` and `routes` of the control cell and the statements that change them
(`internal/control/store.go`, `store_v2.go`). A host belongs to one namespace; a route of a
namespace is for a host the namespace owns.
-/

namespace CellHive.Control

open Go Sql

inductive Err
  | notFound
  | noVersion
  | noPrevious
  | noEnvelope
  | idempotencyConflict
  | hostUnknown
  | hostTaken
  | hostReserved
  | ofNamespace (e : NamespaceError)
  | errorf (text : String)
  /-- A primary key that is taken. -/
  | constraint
deriving DecidableEq, Repr

inductive HostKind
  | builtin
  | custom
deriving DecidableEq, Repr

structure Host where
  host : Str
  ns : Str
  worker : Str
  kind : HostKind
deriving DecidableEq, Repr

structure Route where
  host : Str
  path : Str
  ns : Str
  worker : Str
deriving DecidableEq, Repr

def Route.key (r : Route) : Str × Str := (r.host, r.path)

structure Domains where
  hosts : Table Host.host
  routes : Table Route.key
deriving DecidableEq

/-- Without the port, where the last colon is not part of an address in brackets. -/
def cutPort (h : Str) : Str :=
  let port := afterLast ':' h
  let i := h.length - port.length - 1
  if ':' ∈ h ∧ 0 < i ∧ ']' ∉ port then h.take i else h

def normalizeHost (h : Str) : Str := trimSuffix (cutPort ((trimSpace h).map Char.toLower)) ['.']

namespace Domains

variable (d : Domains)

def putCustomHost (ns host : Str) : Except Err Domains :=
  let host := normalizeHost host
  if host = [] ∨ hasSeparator host ∨ ' ' ∈ host then
    let text := String.ofList host
    .error (.errorf s!"control: invalid host \"{text}\"")
  else
    match d.hosts.get host with
    | some h =>
      if h.kind = .builtin then .error .hostReserved
      else if h.ns ≠ ns then .error .hostTaken
      else .ok d
    | none => .ok { d with hosts := d.hosts.insertIgnore ⟨host, ns, [], .custom⟩ }

def deleteHost (ns host : Str) : Except Err Domains :=
  let host := normalizeHost host
  match d.hosts.get host with
  | none => .error .notFound
  | some h =>
    if h.ns ≠ ns then .error .hostTaken
    else if h.kind = .builtin then .error .hostReserved
    else .ok ⟨d.hosts.delete (·.host = host), d.routes.delete (·.host = host)⟩

/-- `INSERT INTO routes .. ON CONFLICT DO UPDATE SET worker WHERE routes.ns = excluded.ns`, where
no row affected means another namespace has the route. -/
def upsertRoute (r : Route) : Except Err Domains :=
  if (d.routes.get r.key).any (·.ns ≠ r.ns) then .error .hostTaken
  else .ok { d with routes := d.routes.upsert r }

def ensureBuiltinHost (ns worker host : Str) : Except Err Domains :=
  let host := normalizeHost host
  if host = [] ∨ worker = [] then .error (.errorf "control: builtin host and worker are required")
  else
    match d.hosts.get host with
    | none =>
      upsertRoute { d with hosts := d.hosts.insertIgnore ⟨host, ns, worker, .builtin⟩ }
        ⟨host, [], ns, worker⟩
    | some h =>
      if h.ns ≠ ns then .error .hostTaken
      else
        upsertRoute
          { d with
            hosts := d.hosts.update (·.host = host) (fun h => { h with worker := worker })
              fun _ => rfl }
          ⟨host, [], ns, worker⟩

def putRoute (ns host path worker : Str) : Except Err Domains :=
  if host = [] ∨ worker = [] then .error (.errorf "control: route host and worker are required")
  else
    let host := normalizeHost host
    match d.hosts.get host with
    | none => .error .hostUnknown
    | some h => if h.ns ≠ ns then .error .hostTaken else d.upsertRoute ⟨host, path, ns, worker⟩

/-- All routes of the host where no path is given. -/
def deleteRoute (ns host : Str) (path : Option Str) : Domains :=
  let host := normalizeHost host
  { d with routes := d.routes.delete fun r => r.ns = ns ∧ r.host = host ∧ path.all (r.path = ·) }

/-- The rows that go with a worker. -/
def dropWorker (ns worker : Str) : Domains :=
  ⟨d.hosts.delete fun h => h.ns = ns ∧ h.kind = .builtin ∧ h.worker = worker,
    d.routes.delete fun r => r.ns = ns ∧ r.worker = worker⟩

/-- The rows that go when an app is deleted: its custom hosts stay until the purge. -/
def dropApp (ns : Str) : Domains :=
  ⟨d.hosts.delete fun h => h.ns = ns ∧ h.kind = .builtin, d.routes.delete (·.ns = ns)⟩

def purgeApp (ns : Str) : Domains := ⟨d.hosts.delete (·.ns = ns), d.routes.delete (·.ns = ns)⟩

/-! ## Ownership -/

/-- Every route is for a host of its namespace. -/
def Owned : Prop := ∀ r ∈ d.routes.rows, ∃ h ∈ d.hosts.rows, h.host = r.host ∧ h.ns = r.ns

/-- The built-in hosts of a worker have routes to it only. -/
def OwnRoutes (ns worker : Str) : Prop :=
  ∀ h ∈ d.hosts.rows, h.ns = ns → h.kind = .builtin → h.worker = worker →
    ∀ r ∈ d.routes.rows, r.host = h.host → r.worker = worker

instance : Decidable d.Owned := inferInstanceAs (Decidable (∀ _ ∈ _, _))

instance (ns worker : Str) : Decidable (d.OwnRoutes ns worker) :=
  inferInstanceAs (Decidable (∀ _ ∈ _, _))

variable {d} {d' : Domains} {ns host path worker : Str} (h : d.Owned)
include h

theorem Owned.upsertRoute {r : Route}
    (howner : ∃ h ∈ d.hosts.rows, h.host = r.host ∧ h.ns = r.ns)
    (hput : d.upsertRoute r = .ok d') : d'.Owned := by
  obtain ⟨-, hput⟩ := guard_eq_ok hput
  cases hput
  intro x hx
  rcases Table.mem_upsert.mp hx with rfl | ⟨hx, -⟩
  · exact howner
  · exact h x hx

theorem Owned.putCustomHost (hput : d.putCustomHost ns host = .ok d') : d'.Owned := by
  obtain ⟨-, hput⟩ := guard_eq_ok hput
  split at hput
  · obtain ⟨-, hput⟩ := guard_eq_ok hput
    obtain ⟨-, hput⟩ := guard_eq_ok hput
    cases hput
    exact h
  · cases hput
    intro r hr
    obtain ⟨x, hx, howner⟩ := h r hr
    exact ⟨x, Table.mem_insertIgnore.mpr (.inl hx), howner⟩

/-- Hosts may go together with their routes. -/
theorem Owned.delete {p : Host → Bool} {q : Route → Bool}
    (hpq : ∀ x ∈ d.hosts.rows, ∀ r ∈ d.routes.rows, x.host = r.host → x.ns = r.ns → p x → q r) :
    Owned ⟨d.hosts.delete p, d.routes.delete q⟩ := by
  intro r hr
  obtain ⟨hr, hkeep⟩ := Table.mem_delete.mp hr
  obtain ⟨x, hx, hhost, hns⟩ := h r hr
  refine ⟨x, Table.mem_delete.mpr ⟨hx, ?_⟩, hhost, hns⟩
  exact Bool.eq_false_iff.2 fun hp => absurd (hpq x hx r hr hhost hns hp) (by simp [hkeep])

theorem Owned.deleteHost (hdel : d.deleteHost ns host = .ok d') : d'.Owned := by
  unfold Domains.deleteHost at hdel
  dsimp only at hdel
  split at hdel
  · cases hdel
  obtain ⟨-, hdel⟩ := guard_eq_ok hdel
  obtain ⟨-, hdel⟩ := guard_eq_ok hdel
  cases hdel
  exact h.delete fun x _ r _ hhost _ hp => hhost ▸ hp

theorem Owned.ensureBuiltinHost (hput : d.ensureBuiltinHost ns worker host = .ok d') : d'.Owned := by
  obtain ⟨-, hput⟩ := guard_eq_ok hput
  split at hput
  · next hnone =>
    refine Owned.upsertRoute ?_ ?_ hput
    · intro r hr
      obtain ⟨x, hx, howner⟩ := h r hr
      exact ⟨x, Table.mem_insertIgnore.mpr (.inl hx), howner⟩
    · refine ⟨_, Table.mem_insertIgnore.mpr (.inr ⟨rfl, ?_⟩), rfl, rfl⟩
      intro hmem
      obtain ⟨x, hx, hkey⟩ := List.mem_map.mp hmem
      exact Table.get_eq_none.mp hnone x hx hkey
  · next x hx =>
    obtain ⟨hx, hkey⟩ := Table.get_eq_some.mp hx
    obtain ⟨hns, hput⟩ := guard_eq_ok hput
    have hupdate : ∀ y ∈ d.hosts.rows, ∃ y' ∈ (d.hosts.update (·.host = normalizeHost host)
        (fun h => { h with worker := worker }) fun _ => rfl).rows, y'.host = y.host ∧
          y'.ns = y.ns := by
      intro y hy
      refine ⟨_, Table.mem_update.mpr ⟨y, hy, rfl⟩, ?_⟩
      split <;> exact ⟨rfl, rfl⟩
    refine Owned.upsertRoute ?_ ?_ hput
    · intro r hr
      obtain ⟨y, hy, hhost, hyns⟩ := h r hr
      obtain ⟨y', hy', heq⟩ := hupdate y hy
      exact ⟨y', hy', heq.1.trans hhost, heq.2.trans hyns⟩
    · obtain ⟨y', hy', heq⟩ := hupdate x hx
      exact ⟨y', hy', heq.1.trans hkey, heq.2.trans (by simpa using hns)⟩

theorem Owned.putRoute (hput : d.putRoute ns host path worker = .ok d') : d'.Owned := by
  unfold Domains.putRoute at hput
  dsimp only at hput
  obtain ⟨-, hput⟩ := guard_eq_ok hput
  split at hput
  · cases hput
  next x hx =>
  obtain ⟨hx, hkey⟩ := Table.get_eq_some.mp hx
  obtain ⟨hns, hput⟩ := guard_eq_ok hput
  exact h.upsertRoute ⟨x, hx, hkey, by simpa using hns⟩ hput

theorem Owned.deleteRoute (path : Option Str) : (d.deleteRoute ns host path).Owned :=
  fun r hr => h r (Table.mem_delete.mp hr).1

/-- A route that stays while its host goes with the worker would have no host. -/
theorem Owned.dropWorker (hroutes : d.OwnRoutes ns worker) :
    (d.dropWorker ns worker).Owned := by
  refine h.delete fun x hx r hr hhost hns hp => ?_
  obtain ⟨hxns, hkind, hworker⟩ := of_decide_eq_true hp
  exact decide_eq_true ⟨hns.symm.trans hxns, hroutes x hx hxns hkind hworker r hr hhost.symm⟩

theorem Owned.dropApp : (d.dropApp ns).Owned :=
  h.delete fun _ _ _ _ _ hns hp => decide_eq_true (hns.symm.trans (of_decide_eq_true hp).1)

theorem Owned.purgeApp : (d.purgeApp ns).Owned :=
  h.delete fun _ _ _ _ _ hns hp => hns ▸ hp

end Domains

end CellHive.Control
