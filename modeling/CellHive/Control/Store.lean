import CellHive.Control.Versions
import CellHive.Util.Prefixes

/-!
# The control store

The operations of the control store, each one transaction (`internal/control/store.go`): a failed
one leaves the tables as they are.
-/

namespace CellHive.Control

open Go

/-- Namespace and name. -/
abbrev WorkerId := Str × Str

structure Db where
  /-- `deleted_ms` of the apps that have a row -/
  apps : Str → Option Int := fun _ => none
  records : WorkerId → Record := fun _ => {}
  domains : Domains := ⟨.empty, .empty⟩

/-- The operations on the rows of one worker. -/
inductive RecordOp
  | deploy (spec : DeploySpec) (actor : Str) (now : Int) (storageID fingerprint : Str)
      (deleteLock : Option Int)
  | promote (version : Nat)
  | rollbackWithKey (key : Str)
  | putSecret (key : Str) (value : Sealed) (now : Int) (actor : Str)
  | patchSecrets (changes : List (Str × Option Sealed)) (now : Int) (actor : Str)
  | deleteSecret (key : Str) (now : Int) (actor : Str)
  | stageSecretChanges (changes : List (Str × Option Sealed)) (now : Int) (actor : Str)
      (deleteLock : Option Int)
deriving DecidableEq

inductive Op
  | createApp (ns : Str)
  | record (id : WorkerId) (op : RecordOp)
  | deleteWorker (ns worker : Str) (now : Int)
  | deleteApp (ns : Str) (now : Int)
  | purgeWorkerRows (ns worker : Str)
  | purgeAppRows (ns : Str)
  | putCustomHost (ns host : Str)
  | deleteHost (ns host : Str)
  | ensureBuiltinHost (ns worker host : Str)
  | putRoute (ns host path worker : Str)
  | deleteRoute (ns host : Str) (path : Option Str)
deriving DecidableEq

/-- The operation on the rows of its worker, with the row of the app and the pinning of bindings. -/
def Record.exec (r : Record) (env : Bool) (app : Option Int) (pin : List Binding → List Binding)
    (name : Str) :
    RecordOp → Except Err Record
  | .deploy spec actor now storageID fingerprint deleteLock =>
    match checkSpec name spec with
    | .error e => .error e
    | .ok _ => r.deploy ⟨app, deleteLock, pin spec.settings.bindings, now, storageID, fingerprint⟩
        name spec actor
  | .promote version => r.promote version
  | .rollbackWithKey key => r.rollbackWithKey key
  | .putSecret key value now actor => r.putSecret env name key value now actor
  | .patchSecrets changes now actor => r.patchSecrets env name changes now actor
  | .deleteSecret key now actor => r.deleteSecret key now actor
  | .stageSecretChanges changes now actor deleteLock =>
    r.stageSecretChanges env app deleteLock name changes now actor

/-- A deploy that allocates a version and activates it brings its app back. -/
def Record.revives (r : Record) : RecordOp → Bool
  | .deploy spec _ _ _ fingerprint _ =>
    !spec.stageOnly && (r.deployed spec.idempotencyKey fingerprint).toOption = some none
  | _ => false

namespace Db

variable (s : Db)

/-- The bundle of the active version of a service, for a binding that does not name one. -/
def pinServiceBindings (ns : Str) (bindings : List Binding) : List Binding :=
  bindings.map fun b =>
    if b.type ≠ "service".toList ∨ b.version ≠ [] then b
    else
      let target := if b.id = [] then b.name else b.id
      if target = [] then b
      else
        match (s.records (ns, target)).worker with
        | none => b
        | some w =>
          match (s.records (ns, target)).getVersion w.active with
          | none => b
          | some v => { b with version := v.settings.bundleSHA }

def execRecord (env : Bool) (id : WorkerId) (op : RecordOp) : Except Err Db :=
  match (s.records id).exec env (s.apps id.1) (s.pinServiceBindings id.1) id.2 op with
  | .error e => .error e
  | .ok r =>
    .ok { s with
      records := Function.update s.records id r
      apps :=
        if (s.records id).revives op then Function.update s.apps id.1 ((s.apps id.1).map fun _ => 0)
        else s.apps }

def deleteWorker (ns worker : Str) (now : Int) : Except Err Db :=
  match (s.records (ns, worker)).worker with
  | none => .error .notFound
  | some w =>
    .ok { s with
      records := Function.update s.records (ns, worker)
        { s.records (ns, worker) with worker := some { w with deletedMs := now } }
      domains := s.domains.dropWorker ns worker }

def purgeWorkerRows (ns worker : Str) : Db :=
  match (s.records (ns, worker)).worker with
  | none => s
  | some w =>
    -- resurrected by a deploy since the job was queued
    if w.deletedMs = 0 then s
    else
      { s with
        records := Function.update s.records (ns, worker) {}
        domains := s.domains.dropWorker ns worker }

def deleteApp (ns : Str) (now : Int) : Db :=
  { apps := Function.update s.apps ns ((s.apps ns).map fun _ => now)
    records := fun id =>
      if id.1 = ns then
        { s.records id with
          worker := (s.records id).worker.map fun w => { w with deletedMs := now } }
      else s.records id
    domains := s.domains.dropApp ns }

def purgeAppRows (ns : Str) : Db :=
  match s.apps ns with
  | none => s
  | some deletedMs =>
    if deletedMs = 0 then s
    else
      { apps := Function.update s.apps ns none
        records := fun id => if id.1 = ns then {} else s.records id
        domains := s.domains.purgeApp ns }

/-- `validateNS` before the transaction. -/
def checked (ns : Str) (next : Except Err Db) : Except Err Db :=
  match validateNS ns with
  | .error e => .error (.ofNamespace e)
  | .ok _ => next

def onDomains (d : Except Err Domains) : Except Err Db := d.map fun d => { s with domains := d }

def exec (env : Bool) : Op → Except Err Db
  | .createApp ns => checked ns (.ok { s with apps := Function.update s.apps ns (some 0) })
  | .record id op => checked id.1 (s.execRecord env id op)
  | .deleteWorker ns worker now => checked ns (s.deleteWorker ns worker now)
  | .deleteApp ns now => checked ns (.ok (s.deleteApp ns now))
  | .purgeWorkerRows ns worker => .ok (s.purgeWorkerRows ns worker)
  | .purgeAppRows ns => .ok (s.purgeAppRows ns)
  | .putCustomHost ns host => checked ns (s.onDomains (s.domains.putCustomHost ns host))
  | .deleteHost ns host => checked ns (s.onDomains (s.domains.deleteHost ns host))
  | .ensureBuiltinHost ns worker host =>
    checked ns (s.onDomains (s.domains.ensureBuiltinHost ns worker host))
  | .putRoute ns host path worker =>
      checked ns (s.onDomains (s.domains.putRoute ns host path worker))
  | .deleteRoute ns host path => checked ns (s.onDomains (.ok (s.domains.deleteRoute ns host path)))

def step (env : Bool) (op : Op) : Db :=
  match s.exec env op with
  | .error _ => s
  | .ok s' => s'

end Db

def run (env : Bool) (ops : List Op) : Db := ops.foldl (Db.step · env) {}

theorem run_concat (env : Bool) (ops : List Op) (op : Op) :
    run env (ops ++ [op]) = (run env ops).step env op := by
  simp [run]

theorem Db.checked_eq_ok {ns : Str} {next : Except Err Db} {s : Db} (h : checked ns next = .ok s) :
    validateNS ns = .ok () ∧ next = .ok s := by
  unfold checked at h
  split at h
  · cases h
  · next hns => exact ⟨hns, h⟩

/-! ## Hosts are served by their owner -/

section Hosts

variable {env : Bool} {s s' : Db} {op : Op} {ns worker : Str}

/-- When a worker's rows go, its built-in hosts have no route to another worker. -/
def Unshared (s : Db) : Op → Prop
  | .deleteWorker ns worker _ =>
    validateNS ns = .ok () → (s.records (ns, worker)).worker.isSome → s.domains.OwnRoutes ns worker
  | .purgeWorkerRows ns worker =>
    (s.records (ns, worker)).worker.any (·.deletedMs ≠ 0) → s.domains.OwnRoutes ns worker
  | _ => True

theorem Domains.OwnRoutes.of_owned {d : Domains} (h : d.Owned)
    (h' : (d.dropWorker ns worker).Owned) :
    d.OwnRoutes ns worker := by
  intro x hx hns hkind hworker r hr hhost
  by_contra hne
  have hrns : r.ns = ns := by
    obtain ⟨y, hy, hyhost, hyns⟩ := h r hr
    rw [← hyns, Sql.Table.key_injOn hy hx (hyhost.trans hhost), hns]
  -- the route stays, so its host must, and the only row of that host is deleted
  obtain ⟨y, hy, hyhost, -⟩ := h' r (Sql.Table.mem_delete.mpr ⟨hr, by simp [hrns, hne]⟩)
  obtain ⟨hy, hkeep⟩ := Sql.Table.mem_delete.mp hy
  rw [Sql.Table.key_injOn hy hx (hyhost.trans hhost)] at hkeep
  simp [hns, hkind, hworker] at hkeep

theorem onDomains_eq_ok {d : Except Err Domains} (h : s.onDomains d = .ok s') :
    d = .ok s'.domains := by
  cases d with
  | error e => cases h
  | ok d => cases h; rfl

/-- An operation on hosts and routes keeps them owned; so does any other, except that the hosts of a
worker may go from under the routes of others. -/
theorem owned_exec_iff (h : s.domains.Owned) (hexec : s.exec env op = .ok s') :
    s'.domains.Owned ↔ Unshared s op := by
  cases op with
  | createApp ns =>
    obtain ⟨-, hexec⟩ := Db.checked_eq_ok hexec
    cases hexec
    exact iff_true_intro h
  | record id op =>
    obtain ⟨-, hexec⟩ := Db.checked_eq_ok hexec
    unfold Db.execRecord at hexec
    split at hexec
    · cases hexec
    · cases hexec
      exact iff_true_intro h
  | deleteWorker ns worker now =>
    obtain ⟨hns, hexec⟩ := Db.checked_eq_ok hexec
    unfold Db.deleteWorker at hexec
    split at hexec
    · cases hexec
    next w hw =>
    cases hexec
    simp only [Unshared, hns, hw, Option.isSome_some, true_imp_iff]
    exact ⟨fun h' => .of_owned h h', fun hroutes => h.dropWorker hroutes⟩
  | deleteApp ns now =>
    obtain ⟨-, hexec⟩ := Db.checked_eq_ok hexec
    cases hexec
    exact iff_true_intro h.dropApp
  | purgeWorkerRows ns worker =>
    cases hexec
    unfold Db.purgeWorkerRows
    split
    · next hw => simp [Unshared, hw, h]
    next w hw =>
    split
    · next hdeleted => simp [Unshared, hw, hdeleted, h]
    · next hdeleted =>
      simp only [Unshared, hw, Option.any_some, hdeleted, ne_eq, not_false_eq_true, decide_true,
        true_imp_iff]
      exact ⟨fun h' => .of_owned h h', fun hroutes => h.dropWorker hroutes⟩
  | purgeAppRows ns =>
    cases hexec
    refine iff_true_intro ?_
    unfold Db.purgeAppRows
    split
    · exact h
    · split
      · exact h
      · exact h.purgeApp
  | putCustomHost ns host =>
    exact iff_true_intro (h.putCustomHost (onDomains_eq_ok (Db.checked_eq_ok hexec).2))
  | deleteHost ns host =>
    exact iff_true_intro (h.deleteHost (onDomains_eq_ok (Db.checked_eq_ok hexec).2))
  | ensureBuiltinHost ns worker host =>
    exact iff_true_intro (h.ensureBuiltinHost (onDomains_eq_ok (Db.checked_eq_ok hexec).2))
  | putRoute ns host path worker =>
    exact iff_true_intro (h.putRoute (onDomains_eq_ok (Db.checked_eq_ok hexec).2))
  | deleteRoute ns host path =>
    obtain ⟨-, hexec⟩ := Db.checked_eq_ok hexec
    cases hexec
    exact iff_true_intro (h.deleteRoute path)

theorem owned_step_iff (h : s.domains.Owned) : (s.step env op).domains.Owned ↔ Unshared s op := by
  unfold Db.step
  cases hexec : s.exec env op with
  | ok s' => exact owned_exec_iff h hexec
  | error e =>
    refine iff_of_true h ?_
    cases op with
    | deleteWorker ns worker now =>
      intro hns hw
      obtain ⟨w, hw⟩ := Option.isSome_iff_exists.mp hw
      simp [Db.exec, Db.checked, hns, Db.deleteWorker, hw] at hexec
    | purgeWorkerRows ns worker => cases hexec
    | _ => trivial

/-- Every route is for a host of its namespace, in every state of a run, exactly when no worker is
deleted or purged while one of its built-in hosts has a route to another worker. -/
theorem routes_owned_iff (env : Bool) (ops : List Op) :
    (∀ before, before <+: ops → (run env before).domains.Owned) ↔
      ∀ before op, before ++ [op] <+: ops → Unshared (run env before) op :=
  Util.invariant_iff_steps (I := fun s : Db => s.domains.Owned)
    (fun _ hr => absurd hr List.not_mem_nil)
    (fun _ _ h => owned_step_iff h) ops

def deployOf (bundle : String) : RecordOp :=
  .deploy { settings := { bundleSHA := bundle.toList } } [] 1 ['s'] [] none

/-- A route of worker `b` on the built-in host of `a` is left without a host when `a` is deleted. -/
theorem deleteWorker_leaves_route :
    ¬ (run true [.record (['n'], ['a']) (deployOf "x"), .ensureBuiltinHost ['n'] ['a'] ['h'],
      .putRoute ['n'] ['h'] ['/', 'x'] ['b'], .deleteWorker ['n'] ['a'] 2]).domains.Owned := by
  decide +kernel

end Hosts

end CellHive.Control
