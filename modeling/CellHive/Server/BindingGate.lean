import CellHive.Cell.Scope
import CellHive.Go.Error

/-!
# The gate of a binding request

`internal/server`: once a binding token is accepted, `beginBindingAccess` takes the request gate of
the cell store. `gateScope` says which cell the request uses, and `gateKey` which key is gated; a
fenced resource is gated by its scope. The answers of the other parts stand in `Env`. A binding
that no claim resolves is looked up by every call anew, so lookups are indexed by the call: 0 for
the snapshot, 1 for the invalidation, 2 for the fence, 3 for the gate key.
-/

namespace CellHive.Server.BindingGate

open Go Cell

inductive Kind
  | kv | d1 | queue | workflow | vectorize | other
deriving DecidableEq

/-- What `errors.Is` tells apart here. -/
inductive Failure
  | notOwner | deadlineExceeded | canceled | resourceDeleted | other
deriving DecidableEq

structure Response where
  status : Nat
  code : String
deriving DecidableEq

/-- A request with its claims: `resolved` is `ctxResolvedResource`, and `pinned` the namespace, the
name and the resource of `ctxPinnedKV`. -/
structure Request where
  kind : Kind
  ns : Bytes
  name : Bytes
  db : Bytes := []
  queue : Bytes := []
  workflow : Bytes := []
  resolved : Bytes := []
  pinned : Option (Bytes × Bytes × Bytes) := none

structure Env where
  control : Bool := true
  store : Bool := true
  replica : Bool := false
  bindingInfo : Nat → Except Failure Bytes := fun _ => .ok []
  snapshot : Scope → Except Failure Bytes := fun _ => .ok []
  invalidateStaleLocal : Scope → Option Failure := fun _ => none
  beginRequest : Bytes → Option Failure := fun _ => none
  generation : Scope → Except Failure Bytes := fun _ => .ok []

def ascii (s : String) : Bytes := s.toList.map fun c => UInt8.ofNat c.toNat

def kvClass : Bytes := ascii "__kv__"

def nsKey (ns : Bytes) : Bytes := ascii "ns:" ++ ns

section

variable (s : Env) (r : Request)

def kvRef (call : Nat) : Option Bytes :=
  if r.resolved ≠ [] then some r.resolved
  else match r.pinned with
    | some (ns, name, resource) =>
      if ns = r.ns ∧ name = r.name then some resource else (s.bindingInfo call).toOption
    | none => (s.bindingInfo call).toOption

def kvScopeFor (call : Nat) : Option Scope :=
  if r.ns = [] ∨ r.name = [] ∨ s.control = false then none
  else match kvRef s r call with
    | none | some [] => none
    | some ref =>
      match Scope.parse ref with
      | some sc => if sc.ns ≠ r.ns ∨ sc.cls ≠ kvClass then none else some sc
      | none => if ref.contains Scope.slash then none else some ⟨r.ns, kvClass, ref⟩

/-- The cell of a resource that the request names. -/
def named (cls : String) (id : Bytes) : Option Scope :=
  if id ≠ [] then some ⟨r.ns, ascii cls, id⟩ else none

def gateScope (call : Nat) : Option Scope :=
  match r.kind with
  | .kv => kvScopeFor s r call
  | .d1 => named r "__d1__" r.db
  | .queue => named r "__queue__" r.queue
  | .workflow => named r "__workflow__" r.workflow
  | .vectorize => named r "__vectorize__" r.name
  | .other => none

def gateKey (call : Nat) : Bytes :=
  let keyOf (sc : Option Scope) := (sc.map Scope.string).getD (nsKey r.ns)
  match r.kind with
  | .kv => keyOf (kvScopeFor s r call)
  | .d1 => keyOf (named r "__d1__" r.db)
  | .queue => keyOf (named r "__queue__" r.queue)
  | .workflow => keyOf (named r "__workflow__" r.workflow)
  | _ => nsKey r.ns

def captureErr (e : Failure) (code : String) : Response :=
  match e with
  | .notOwner => ⟨503, "not_owner"⟩
  | .deadlineExceeded => ⟨504, "storage_timeout"⟩
  | .canceled => ⟨503, "storage_canceled"⟩
  | _ => ⟨503, code⟩

/-- `BeginPreparedResourceRequest`: the key it holds. -/
def beginPrepared (sc : Scope) (generation : Bytes) : Except Failure Bytes :=
  match s.beginRequest sc.string with
  | some e => .error e
  | none => match s.generation sc with
    | .error e => .error e
    | .ok current => if current ≠ generation then .error .resourceDeleted else .ok sc.string

/-- The scope of a call where the resource of the request is fenced. -/
def fenced (call : Nat) : Option Scope :=
  if (r.kind = .kv ∨ r.kind = .queue) ∧ s.replica then gateScope s r call else none

def prepare : Except Response Bytes :=
  match fenced s r 0 with
  | none => .ok []
  | some sc => match s.snapshot sc with
    | .ok generation => .ok generation
    | .error .resourceDeleted => .error ⟨403, "resource_deleted"⟩
    | .error _ => .error ⟨503, "revocation_check_failed"⟩

/-- `preInvalidated`. -/
def invalidate : Except Response Bytes :=
  match gateScope s r 1 with
  | none => .ok []
  | some sc => match s.invalidateStaleLocal sc with
    | none => .ok sc.string
    | some _ => .error ⟨503, "local_invalidation_failed"⟩

/-- The key that the request holds until its handler returns. -/
def hold (generation : Bytes) : Except Response Bytes :=
  match fenced s r 2 with
  | some sc => match beginPrepared s sc generation with
    | .ok key => .ok key
    | .error .canceled => .error (captureErr .canceled "request_gate_failed")
    | .error .deadlineExceeded => .error (captureErr .deadlineExceeded "request_gate_failed")
    | .error _ => .error ⟨403, "resource_generation_changed"⟩
  | none => match s.beginRequest (gateKey s r 3) with
    | none => .ok (gateKey s r 3)
    | some e => .error (captureErr e "request_gate_failed")

/-- The pair of `preInvalidated` and the key, if there is a store. -/
def beginBindingAccess : Except Response (Bytes × Option Bytes) := do
  let generation ← prepare s r
  if s.store then
    let preInvalidated ← invalidate s r
    let key ← hold s r generation
    return (preInvalidated, some key)
  else return ([], none)

/-- The call whose scope is gated. -/
def gateCall : Nat := if (fenced s r 2).isSome then 2 else 3

end

/-! ## The key of the scope -/

section

variable {s : Env} {r : Request} {call : Nat} {sc : Scope} {generation key pre : Bytes}

theorem kvScopeFor_eq_some (h : kvScopeFor s r call = some sc) : sc.ns = r.ns ∧ sc.cls = kvClass := by
  unfold kvScopeFor at h
  split at h
  · cases h
  split at h
  · cases h
  · cases h
  split at h
  · split at h
    · cases h
    · next hsc =>
      cases h
      simpa using hsc
  · split at h
    · cases h
    · cases h
      exact ⟨rfl, rfl⟩

theorem named_eq_some {cls : String} {id : Bytes} (h : named r cls id = some sc) :
    sc = ⟨r.ns, ascii cls, id⟩ := by
  unfold named at h
  split at h
  · exact (Option.some.inj h).symm
  · cases h

/-- A scope of the namespace is longer than the key of the namespace. -/
theorem nsKey_ne_string (hns : sc.ns = r.ns) (hcls : 2 ≤ sc.cls.length) :
    nsKey r.ns ≠ sc.string := by
  intro h
  have hlen := congrArg List.length h
  simp only [nsKey, Scope.string, hns, List.length_append, List.length_cons] at hlen
  have : (ascii "ns:").length = 3 := rfl
  omega

theorem beginPrepared_eq_ok (h : beginPrepared s sc generation = .ok key) : key = sc.string := by
  unfold beginPrepared at h
  grind

theorem gateKey_of_fenced (h : fenced s r call = some sc) : gateKey s r call = sc.string := by
  unfold fenced at h
  split at h
  · next hkind =>
    unfold gateScope at h
    obtain hkv | hqueue := hkind.1
    all_goals simp_all [gateKey]
  · cases h

/-- Both ways of gating a request use the key that `gateKey` gives for one of the calls. -/
theorem hold_eq_gateKey (h : hold s r generation = .ok key) :
    key = gateKey s r (gateCall s r) := by
  unfold hold at h
  unfold gateCall
  split at h
  · next sc hsc =>
    rw [hsc, Option.isSome_some, if_pos rfl, gateKey_of_fenced hsc]
    split at h
    · next hkey =>
      cases h
      exact beginPrepared_eq_ok hkey
    all_goals cases h
  · next hnone =>
    rw [hnone]
    split at h
    · exact (Except.ok.inj h).symm
    · cases h

theorem gateKey_kv_iff (hkind : r.kind = .kv) (hns : sc.ns = r.ns) (hcls : sc.cls = kvClass) :
    gateKey s r call = sc.string ↔ kvScopeFor s r call = some sc := by
  have hkey : gateKey s r call
      = ((kvScopeFor s r call).map Scope.string).getD (nsKey r.ns) := by
    simp only [gateKey, hkind]
  rw [hkey]
  cases hsc : kvScopeFor s r call with
  | none =>
    have hne : nsKey r.ns ≠ sc.string :=
      nsKey_ne_string hns (hcls ▸ (by decide : 2 ≤ kvClass.length))
    simpa using hne
  | some sc' =>
    obtain ⟨hns', hcls'⟩ := kvScopeFor_eq_some hsc
    obtain ⟨ns, cls, id⟩ := sc
    obtain ⟨ns', cls', id'⟩ := sc'
    subst hns hcls hns' hcls'
    simp [Scope.string]

theorem beginBindingAccess_eq_ok (h : beginBindingAccess s r = .ok (pre, some key)) :
    key = gateKey s r (gateCall s r) := by
  unfold beginBindingAccess at h
  obtain ⟨generation, -, h⟩ := bind_eq_ok.1 h
  split at h
  · obtain ⟨preInvalidated, -, h⟩ := bind_eq_ok.1 h
    obtain ⟨held, hheld, h⟩ := bind_eq_ok.1 h
    cases h
    exact hold_eq_gateKey hheld
  · cases h

/-- A request that reports a cell holds the key of the cell exactly if it is not for a vector index
and, for a key-value binding, the lookup that decides the gate reports the same cell. -/
theorem beginBindingAccess_holds_scope_iff
    (h : beginBindingAccess s r = .ok (pre, some key)) (hsc : gateScope s r 1 = some sc) :
    key = sc.string ↔
      r.kind ≠ .vectorize ∧ (r.kind = .kv → kvScopeFor s r (gateCall s r) = some sc) := by
  rw [beginBindingAccess_eq_ok h]
  unfold gateScope at hsc
  cases hkind : r.kind with
  | kv =>
    simp only [hkind] at hsc
    obtain ⟨hns, hcls⟩ := kvScopeFor_eq_some hsc
    rw [gateKey_kv_iff hkind hns hcls]
    simp
  | d1 | queue | workflow =>
    simp only [hkind] at hsc
    simp [gateKey, hkind, hsc]
  | vectorize =>
    simp only [hkind] at hsc
    have hne : nsKey r.ns ≠ sc.string := by
      rw [named_eq_some hsc]
      exact nsKey_ne_string rfl (by decide +kernel : 2 ≤ (ascii "__vectorize__").length)
    simpa [gateKey, hkind] using hne
  | other => simp [hkind] at hsc

end

theorem beginBindingAccess_holds_scope_fenced :
    let r : Request := { kind := .kv, ns := [97], name := [98], resolved := [99] }
    let sc : Scope := ⟨[97], kvClass, [99]⟩
    ∃ key, beginBindingAccess { replica := true } r = .ok (key, some key) ∧ key = sc.string := by
  intro r sc
  have haccess : beginBindingAccess { replica := true } r = .ok (sc.string, some sc.string) := by
    decide +kernel
  refine ⟨_, haccess, (beginBindingAccess_holds_scope_iff haccess ?_).2 ?_⟩
  all_goals decide +kernel

/-- A request for a vector index holds the key of its namespace. -/
theorem vectorize_holds_namespace :
    let s : Env := {}
    let r : Request := { kind := .vectorize, ns := [97], name := [98] }
    let sc : Scope := ⟨[97], ascii "__vectorize__", [98]⟩
    gateScope s r 1 = some sc ∧
      beginBindingAccess s r = .ok (sc.string, some (nsKey [97])) ∧ nsKey [97] ≠ sc.string := by
  decide +kernel

end CellHive.Server.BindingGate
