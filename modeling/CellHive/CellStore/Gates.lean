import CellHive.Cell.Scope
import CellHive.Concurrent.Holders
import CellHive.Util.Prefixes

/-!
# The gates of the cell store

`internal/cellstore/cellstore.go`: requests, opens and evictions of a cell are kept apart by three
maps under one mutex, `busy`, `opening` and `evicting`. A step is one critical section, or what a
goroutine does between two of them. `DeleteNamespace` evicts through the gates but removes the
directory of the namespace behind their back.

Which cell `evictOne` picks is left open, as is the order of the LRU list; waiting is the absence of
a step. A step that is not enabled leaves the store as it is.
-/

namespace CellHive.CellStore

open Go Cell Concurrent

/-- What a goroutine is doing. An eviction that is part of `DeleteNamespace` knows the scopes that
are left. -/
inductive Proc
  | idle
  /-- between setting and clearing `opening`, with the cell in the map or not yet -/
  | opening (k : Scope) (cached : Bool)
  /-- the gate is set, and `verify` runs -/
  | gated (k : Scope) (rest : Option (Bytes × List Scope))
  /-- out of the map, to be closed and removed -/
  | closing (k : Scope) (rest : Option (Bytes × List Scope))
  /-- closed, with the gate still set -/
  | closed (k : Scope) (rest : Option (Bytes × List Scope))
  | deleting (ns : Bytes) (scopes : List Scope)
deriving DecidableEq

/-- The store, with the requests that are admitted and have not ended. -/
structure Store where
  busy : Scope → Nat := fun _ => 0
  opening : Scope → Bool := fun _ => false
  evicting : Scope → Bool := fun _ => false
  cells : List Scope := []
  procs : Nat → Proc := fun _ => .idle
  requests : List Scope := []

inductive Event
  | beginRequest (k : Scope)
  | endRequest (k : Scope)
  | cell (t : Nat) (k : Scope)
  | opened (t : Nat)
  | openDone (t : Nat)
  /-- the gate of `forget` or `TryInvalidate` -/
  | forget (t : Nat) (k : Scope)
  | verifyFailed (t : Nat)
  | take (t : Nat)
  | close (t : Nat)
  | evictDone (t : Nat)
  | evictOne (t : Nat) (k : Scope)
  | deleteNamespace (t : Nat) (ns : Bytes)
  | forgetNext (t : Nat)
  | deleteAborted (t : Nat)
  | removeAll (t : Nat)
deriving DecidableEq

namespace Store

variable (s : Store)

def setProc (t : Nat) (p : Proc) : Store := { s with procs := Function.update s.procs t p }

/-- The condition under which `forget`, `TryInvalidate` and `evictOne` set the gate. -/
def free (k : Scope) : Bool := !s.evicting k && !s.opening k && s.busy k = 0

def setGate (k : Scope) (on : Bool) : Store :=
  { s with evicting := Function.update s.evicting k on }

def setOpening (k : Scope) (on : Bool) : Store :=
  { s with opening := Function.update s.opening k on }

/-- What follows an eviction. -/
def resume : Option (Bytes × List Scope) → Proc
  | none => .idle
  | some (ns, scopes) => .deleting ns scopes

def step : Event → Store
  | .beginRequest k =>
    if s.evicting k then s
    else { s with busy := Function.update s.busy k (s.busy k + 1), requests := k :: s.requests }
  | .endRequest k =>
    if k ∈ s.requests then
      { s with busy := Function.update s.busy k (s.busy k - 1), requests := s.requests.erase k }
    else s
  | .cell t k =>
    -- a cached cell is returned without a step
    if s.procs t = .idle ∧ s.evicting k = false ∧ s.opening k = false ∧ k ∉ s.cells then
      (s.setOpening k true).setProc t (.opening k false)
    else s
  | .opened t =>
    match s.procs t with
    | .opening k false => { s with cells := k :: s.cells }.setProc t (.opening k true)
    | _ => s
  | .openDone t =>
    match s.procs t with
    | .opening k _ => (s.setOpening k false).setProc t .idle
    | _ => s
  | .forget t k =>
    if s.procs t = .idle ∧ s.free k then (s.setGate k true).setProc t (.gated k none) else s
  | .verifyFailed t =>
    match s.procs t with
    | .gated k none => (s.setGate k false).setProc t .idle
    | _ => s
  | .take t =>
    match s.procs t with
    | .gated k rest => { s with cells := s.cells.filter (· ≠ k) }.setProc t (.closing k rest)
    | _ => s
  | .close t =>
    match s.procs t with
    | .closing k rest => s.setProc t (.closed k rest)
    | _ => s
  | .evictDone t =>
    match s.procs t with
    | .closed k rest => (s.setGate k false).setProc t (resume rest)
    | _ => s
  | .evictOne t k =>
    if s.procs t = .idle ∧ k ∈ s.cells ∧ s.free k then
      { s with cells := s.cells.filter (· ≠ k) }.setGate k true |>.setProc t (.closing k none)
    else s
  | .deleteNamespace t ns =>
    if s.procs t = .idle then s.setProc t (.deleting ns (s.cells.filter (·.ns = ns))) else s
  | .forgetNext t =>
    match s.procs t with
    | .deleting ns (k :: scopes) =>
      if s.free k then (s.setGate k true).setProc t (.gated k (some (ns, scopes))) else s
    | _ => s
  -- a cancelled wait
  | .deleteAborted t =>
    match s.procs t with
    | .deleting _ (_ :: _) => s.setProc t .idle
    | _ => s
  | .removeAll t =>
    match s.procs t with
    | .deleting _ [] => s.setProc t .idle
    | _ => s

end Store

def run (events : List Event) : Store := events.foldl Store.step {}

/-! ## Exclusion -/

/-- The cell a goroutine evicts. -/
def Proc.evicts : Proc → Option Scope
  | .gated k _ | .closing k _ | .closed k _ => some k
  | _ => none

def Proc.opens : Proc → Option Scope
  | .opening k _ => some k
  | _ => none

/-- The namespace a goroutine deletes. -/
def Proc.deletes : Proc → Option Bytes
  | .deleting ns _ => some ns
  | .gated _ rest | .closing _ rest | .closed _ rest => rest.map Prod.fst
  | _ => none

/-- The step closes a cell or removes its files. -/
def Removes (s : Store) (e : Event) (k : Scope) : Prop :=
  match e with
  | .close t => ∃ rest, s.procs t = .closing k rest
  | .removeAll t => s.procs t = .deleting k.ns []
  | _ => False

def Admits (s : Store) (e : Event) (k : Scope) : Prop := e = .beginRequest k ∧ s.evicting k = false

/-- No cell is removed under a request, no request is admitted during an eviction or deletion, and
one goroutine at a time opens a cell. -/
structure Exclusive (s : Store) (e : Event) : Prop where
  removal : ∀ k, Removes s e k → k ∉ s.requests
  admission : ∀ k, Admits s e k → ∀ t, (s.procs t).evicts ≠ some k ∧ (s.procs t).deletes ≠ some k.ns
  opening : ∀ k t t', (s.procs t).opens = some k → (s.procs t').opens = some k → t = t'

/-- The directory of a namespace is removed with no request in it, and no request is admitted while
the namespace is being deleted. -/
structure Quiet (s : Store) (e : Event) : Prop where
  removal : ∀ t ns, e = .removeAll t → s.procs t = .deleting ns [] → ∀ k ∈ s.requests, k.ns ≠ ns
  admission : ∀ k, Admits s e k → ∀ t, (s.procs t).deletes ≠ some k.ns

/-- The maps say what the goroutines do. -/
structure Gates (s : Store) : Prop where
  busy : ∀ k, s.busy k = s.requests.count k
  idle : ∀ k, s.evicting k = true → s.busy k = 0
  evict : Holds s.evicting (Proc.evicts ∘ s.procs)
  opens : Holds s.opening (Proc.opens ∘ s.procs)

namespace Gates

variable {s : Store} {t : Nat} {k : Scope} {p : Proc}

theorem setProc (h : Gates s) (hevicts : p.evicts = none ∨ p.evicts = (s.procs t).evicts)
    (hopens : p.opens = none ∨ p.opens = (s.procs t).opens) : Gates (s.setProc t p) := by
  refine ⟨h.busy, h.idle, ?_, ?_⟩
  · rw [Store.setProc, Function.comp_update]
    exact h.evict.keep hevicts
  · rw [Store.setProc, Function.comp_update]
    exact h.opens.keep hopens

theorem acquire (h : Gates s) (hfree : s.free k = true) (hevicts : p.evicts = some k)
    (hopens : p.opens = none) : Gates ((s.setGate k true).setProc t p) := by
  simp only [Store.free, Bool.and_eq_true, Bool.not_eq_true', decide_eq_true_eq] at hfree
  refine ⟨h.busy, fun k' hk' => ?_, ?_, ?_⟩
  · by_cases heq : k' = k
    · exact heq ▸ hfree.2
    · exact h.idle k' (by simpa [Store.setProc, Store.setGate, heq] using hk')
  · simp only [Store.setProc, Function.comp_update, hevicts]
    exact h.evict.acquire hfree.1.1 t
  · simp only [Store.setProc, Function.comp_update]
    exact h.opens.keep (.inl hopens)

theorem release (h : Gates s) (hold : (s.procs t).evicts = some k) (hevicts : p.evicts = none)
    (hopens : p.opens = none) : Gates ((s.setGate k false).setProc t p) := by
  refine ⟨h.busy, fun k' hk' => ?_, ?_, ?_⟩
  · by_cases heq : k' = k
    · simp [Store.setProc, Store.setGate, heq] at hk'
    · exact h.idle k' (by simpa [Store.setProc, Store.setGate, heq] using hk')
  · simp only [Store.setProc, Function.comp_update, hevicts]
    exact h.evict.release hold
  · simp only [Store.setProc, Function.comp_update]
    exact h.opens.keep (.inl hopens)

theorem setOpening (h : Gates s) (hfree : s.opening k = false) (hevicts : p.evicts = none)
    (hopens : p.opens = some k) : Gates ((s.setOpening k true).setProc t p) := by
  refine ⟨h.busy, h.idle, ?_, ?_⟩
  · simp only [Store.setProc, Function.comp_update]
    exact h.evict.keep (.inl hevicts)
  · simp only [Store.setProc, Function.comp_update, hopens]
    exact h.opens.acquire hfree t

theorem clearOpening (h : Gates s) (hold : (s.procs t).opens = some k) :
    Gates ((s.setOpening k false).setProc t .idle) := by
  refine ⟨h.busy, h.idle, ?_, ?_⟩
  · simp only [Store.setProc, Function.comp_update]
    exact h.evict.keep (.inl rfl)
  · simp only [Store.setProc, Function.comp_update]
    exact h.opens.release hold

theorem withCells (h : Gates s) (cells : List Scope) : Gates { s with cells := cells } :=
  ⟨h.busy, h.idle, h.evict, h.opens⟩

theorem step (h : Gates s) (e : Event) : Gates (s.step e) := by
  cases e with
  | beginRequest k =>
    simp only [Store.step]
    split
    · exact h
    next hgate =>
    refine ⟨fun k' => ?_, fun k' hk' => ?_, h.evict, h.opens⟩
    · have := h.busy k'
      by_cases heq : k' = k
      · subst heq
        simp [this]
      · have hne : k ≠ k' := fun h => heq h.symm
        simp [heq, hne, this]
    · have hne : k' ≠ k := fun heq => hgate (heq ▸ hk')
      simpa [hne] using h.idle k' hk'
  | endRequest k =>
    simp only [Store.step]
    split
    · refine ⟨fun k' => ?_, fun k' hk' => ?_, h.evict, h.opens⟩
      · have := h.busy k'
        by_cases heq : k' = k
        · subst heq
          simp [this]
        · simp [heq, this, List.count_erase_of_ne heq]
      · have := h.idle k' hk'
        by_cases heq : k' = k
        · subst heq
          simp [this]
        · simp [heq, this]
    · exact h
  | cell t k =>
    simp only [Store.step]
    split
    · next henabled => exact h.setOpening henabled.2.2.1 rfl rfl
    · exact h
  | opened t =>
    simp only [Store.step]
    split
    · next k hp => exact (h.withCells _).setProc (.inl rfl) (.inr (by rw [hp]; rfl))
    · exact h
  | openDone t =>
    simp only [Store.step]
    split
    · next k c hp => exact h.clearOpening (by rw [hp]; rfl)
    · exact h
  | forget t k =>
    simp only [Store.step]
    split
    · next henabled => exact h.acquire henabled.2 rfl rfl
    · exact h
  | verifyFailed t =>
    simp only [Store.step]
    split
    · next k hp => exact h.release (by rw [hp]; rfl) rfl rfl
    · exact h
  | take t =>
    simp only [Store.step]
    split
    · next k rest hp => exact (h.withCells _).setProc (.inr (by rw [hp]; rfl)) (.inl rfl)
    · exact h
  | close t =>
    simp only [Store.step]
    split
    · next k rest hp => exact h.setProc (.inr (by rw [hp]; rfl)) (.inl rfl)
    · exact h
  | evictDone t =>
    simp only [Store.step]
    split
    · next k rest hp =>
      refine h.release (by rw [hp]; rfl) ?_ ?_ <;> cases rest <;> rfl
    · exact h
  | evictOne t k =>
    simp only [Store.step]
    split
    · next henabled => exact (h.withCells _).acquire henabled.2.2 rfl rfl
    · exact h
  | deleteNamespace | deleteAborted | removeAll =>
    simp only [Store.step]
    split
    · exact h.setProc (.inl rfl) (.inl rfl)
    · exact h
  | forgetNext t =>
    simp only [Store.step]
    split
    · split
      · next hfree => exact h.acquire hfree rfl rfl
      · exact h
    · exact h

theorem run (events : List Event) : Gates (run events) := by
  have hstart : Gates {} := ⟨fun _ => rfl, nofun, nofun, nofun⟩
  exact List.foldlRecOn events Store.step hstart fun s hs e _ => hs.step e

end Gates

/-- In every state of every run, a step keeps requests, opens and removals apart exactly when no
namespace is deleted under a request and no request admitted into a deletion. -/
theorem exclusive_iff (events : List Event) (e : Event) :
    Exclusive (run events) e ↔ Quiet (run events) e := by
  have h := Gates.run events
  constructor
  · intro hexcl
    refine ⟨fun t ns he hp k hk hns => ?_, fun k hk t => (hexcl.admission k hk t).2⟩
    subst he hns
    exact hexcl.removal k hp hk
  · intro hquiet
    refine ⟨fun k hk hmem => ?_, fun k hk t => ⟨fun hevicts => ?_, hquiet.admission k hk t⟩,
      fun k t t' ht ht' => (h.opens t' k ht').2 t ht⟩
    · unfold Removes at hk
      split at hk
      · next t =>
        obtain ⟨rest, hp⟩ := hk
        have hbusy := h.idle k (h.evict t k (by rw [Function.comp_apply, hp]; rfl)).1
        rw [h.busy, List.count_eq_zero] at hbusy
        exact hbusy hmem
      · next t => exact hquiet.removal t k.ns rfl hk k hmem rfl
      · exact hk
    · have hgate := (h.evict t k hevicts).1
      rw [hk.2] at hgate
      cases hgate

/-- An eviction has its cell to itself: no admitted request and no second eviction. -/
def Undisturbed (s : Store) : Prop :=
  ∀ t k, (s.procs t).evicts = some k →
    k ∉ s.requests ∧ ∀ t', (s.procs t').evicts = some k → t' = t

theorem evictions_undisturbed (events : List Event) : Undisturbed (run events) := by
  have h := Gates.run events
  intro t k hevicts
  obtain ⟨hgate, hone⟩ := h.evict t k hevicts
  have hbusy := h.idle k hgate
  rw [h.busy, List.count_eq_zero] at hbusy
  exact ⟨hbusy, hone⟩

/-- A request is admitted for a cell that is not cached; `DeleteNamespace` finds nothing to drain
and removes the directory. -/
theorem deleteNamespace_under_request :
    let k : Scope := ⟨[97], [98], [99]⟩
    ¬ Exclusive (run [.beginRequest k, .deleteNamespace 0 [97]]) (.removeAll 0) := by
  intro k hexcl
  exact hexcl.removal k (show (run _).procs 0 = .deleting [97] [] by decide) (by decide)

end CellHive.CellStore
