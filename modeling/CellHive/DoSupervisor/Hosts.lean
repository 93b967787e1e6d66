import CellHive.Cell.Scope
import CellHive.Go.Strings
import CellHive.Util.Prefixes
import Mathlib.Tactic.FinCases

/-!
# Where the bytes of a host are

`internal/dosupervisor/objects.go` and the host manifest of `dosupervisor.go`. The scope a file is
captured under is fixed when the file is first seen (`fileFor`); the manifest that a restore goes by
works it out again from the host bindings and facet tables known by then.

Paths and names are Go strings, that is, bytes; a file is known by its path relative to the
supervisor's directory. A facet table is known by the hash in its name.
-/

namespace CellHive.DoSupervisor.Hosts

open Go Cell

/-! ## Names -/

/-- The alphabet of `base64.RawURLEncoding`. -/
def base64Digit (n : UInt8) : UInt8 :=
  if n < 26 then 65 + n
  else if n < 52 then 71 + n
  else if n < 62 then n - 4
  else if n = 62 then 45
  else 95

def base64URL : Bytes → Bytes
  | a :: b :: c :: rest =>
    base64Digit (a >>> 2) :: base64Digit ((a <<< 4 ||| b >>> 4) &&& 63) ::
      base64Digit ((b <<< 2 ||| c >>> 6) &&& 63) :: base64Digit (c &&& 63) :: base64URL rest
  | [a, b] =>
    [base64Digit (a >>> 2), base64Digit ((a <<< 4 ||| b >>> 4) &&& 63),
      base64Digit ((b <<< 2) &&& 63)]
  | [a] => [base64Digit (a >>> 2), base64Digit ((a <<< 4) &&& 63)]
  | [] => []

def objScopeID (storageID cls name : Bytes) : Bytes :=
  base64URL (storageID ++ Scope.slash :: (cls ++ Scope.slash :: name))

def baseName (rel : Bytes) : Bytes := (rel.reverse.takeWhile (· ≠ Scope.slash)).reverse

def dot : UInt8 := 46

def sqliteSuffix : Bytes := [46, 115, 113, 108, 105, 116, 101]

/-- The hash and the number in the name of a facet file, `<hosthash>.<n>.sqlite`. -/
def facetOf (rel : Bytes) : Option (Bytes × Nat) :=
  let base := baseName rel
  if sqliteSuffix.isSuffixOf base = false then none
  else
    let core := (base.take (base.length - sqliteSuffix.length)).reverse
    match core.dropWhile (· ≠ dot) with
    | _ :: hash =>
      if hash = [] then none
      else
        match atoi ((core.takeWhile (· ≠ dot)).reverse.map fun x => Char.ofNat x.toNat) with
        | some n => if n < 1 then none else some (hash.reverse, n.toNat)
        | none => none
    | [] => none

/-- The files of `filterHostPaths`. -/
def ofHost (hash rel : Bytes) : Bool :=
  baseName rel = hash ++ sqliteSuffix || (hash ++ [dot]).isPrefixOf (baseName rel)

/-! ## The supervisor -/

structure HostBinding where
  hostHash : Bytes := []
  storageID : Bytes := []
  cls : Bytes := []
deriving DecidableEq, Repr

structure ObjectEntry where
  rel : Bytes
  hostHash : Bytes
  n : Nat
  name : Bytes
  storageID : Bytes
  cls : Bytes
  scope : Bytes
deriving DecidableEq, Repr

structure ManifestDoc where
  files : List Bytes
  host : HostBinding
  objects : List ObjectEntry
deriving DecidableEq, Repr

/-- `scopes` are the scopes of the file states; the facet tables are on disk, their names as last
read in memory. -/
structure Supervisor where
  scopePrefix : Bytes
  hosts : Bytes → Option HostBinding := fun _ => none
  hashTo : Bytes → Option Bytes := fun _ => none
  facetTables : Bytes → Option (List Bytes) := fun _ => none
  facetNames : Bytes → List Bytes := fun _ => []
  files : List Bytes := []
  scopes : Bytes → Option Scope := fun _ => none
  manifests : Bytes → Option ManifestDoc := fun _ => none

namespace Supervisor

variable (s : Supervisor)

def bind (hostID hostHash storageID cls : Bytes) : Supervisor :=
  if hostID = [] then s
  else
    let b := (s.hosts hostID).getD {}
    { s with
      hosts := Function.update s.hosts hostID (some
        { hostHash := if hostHash = [] then b.hostHash else hostHash
          storageID := if storageID = [] then b.storageID else storageID
          cls := if cls = [] then b.cls else cls })
      hashTo :=
        if hostHash = [] then s.hashTo else Function.update s.hashTo hostHash (some hostID) }

def bindingForHash (hash : Bytes) : Option HostBinding := (s.hashTo hash).bind s.hosts

/-- Reads the tables that changed and can be parsed. -/
def refreshFacets (readable : Bytes → Bool) : Supervisor :=
  { s with
    facetNames := fun hash =>
      if readable hash then (s.facetTables hash).getD (s.facetNames hash) else s.facetNames hash }

def prefixNs : Bytes := s.scopePrefix.takeWhile (· ≠ Scope.slash)

def prefixClass : Bytes := (s.scopePrefix.dropWhile (· ≠ Scope.slash)).drop 1

def objectForRel (rel : Bytes) : Option ObjectEntry :=
  match facetOf rel with
  | none => none
  | some (hash, n) =>
    match s.bindingForHash hash with
    | none => none
    | some b =>
      if b.storageID = [] ∨ b.cls = [] then none
      else
        ((s.facetNames hash)[n - 1]?).map fun name =>
          let scope : Scope := ⟨s.prefixNs, b.cls, objScopeID b.storageID b.cls name⟩
          ⟨rel, hash, n, name, b.storageID, b.cls, scope.string⟩

def hostScopeForRel (rel : Bytes) : Scope := ⟨s.prefixNs, s.prefixClass, base64URL rel⟩

def scopeForRel (rel : Bytes) : Scope :=
  match (s.objectForRel rel).bind fun o => Scope.parse o.scope with
  | some scope => scope
  | none => s.hostScopeForRel rel

/-- `fileFor` of each file. -/
def filesFor (rels : List Bytes) : Supervisor :=
  { s with
    scopes := fun rel =>
      if rel ∈ rels then some ((s.scopes rel).getD (s.scopeForRel rel)) else s.scopes rel }

def writeHostManifest (hostID : Bytes) (host : HostBinding) (rels : List Bytes) : Supervisor :=
  let doc : ManifestDoc := ⟨rels, host, rels.filterMap s.objectForRel⟩
  { s with manifests := Function.update s.manifests hostID (some doc) }

/-- `SyncHost`, with the facet tables it can read at its start and before the manifest. -/
def syncHost (hostID : Bytes) (first second : Bytes → Bool) : Supervisor :=
  match s.hosts hostID with
  | none => s
  | some host =>
    let rels := s.files.filter (ofHost host.hostHash)
    if host.hostHash = [] then s
    else if rels = [] then s.refreshFacets first
    else
      (((s.refreshFacets first).filesFor rels).refreshFacets second).writeHostManifest hostID host
        rels

/-- The scope `RestoreHostClaimed` takes a file of the manifest from. -/
def restoreScope (doc : ManifestDoc) (rel : Bytes) : Option Scope :=
  match doc.objects.find? (·.rel = rel) with
  | some o => Scope.parse o.scope
  | none => some (s.hostScopeForRel rel)

end Supervisor

/-! ## Runs -/

inductive Event
  | createFile (rel : Bytes)
  | bind (hostID hostHash storageID cls : Bytes)
  | setFacets (hash : Bytes) (names : List Bytes)
  | syncHost (hostID : Bytes) (first second : Bytes → Bool)

namespace Supervisor

variable (s : Supervisor)

def step : Event → Supervisor
  | .createFile rel => { s with files := s.files ++ [rel] }
  | .bind hostID hostHash storageID cls => s.bind hostID hostHash storageID cls
  | .setFacets hash names =>
    { s with facetTables := Function.update s.facetTables hash (some names) }
  | .syncHost hostID first second => s.syncHost hostID first second

/-- Every file of a stored manifest is restored from the scope it is captured under. -/
def Agrees : Prop :=
  ∀ hostID doc, s.manifests hostID = some doc → ∀ rel ∈ doc.files,
    (s.scopes rel).isSome ∧ s.restoreScope doc rel = s.scopes rel

/-- The names of captured files keep resolving to the same objects, whose scopes are valid. -/
def Settled : Event → Prop
  | .bind hostID hostHash storageID cls => ∀ rel, (s.scopes rel).isSome →
    (s.bind hostID hostHash storageID cls).objectForRel rel = s.objectForRel rel
  | .syncHost _ first second =>
    let s₁ := s.refreshFacets first
    (∀ rel, (s.scopes rel).isSome → s₁.objectForRel rel = s.objectForRel rel) ∧
      (∀ rel, (s₁.refreshFacets second).objectForRel rel = s₁.objectForRel rel) ∧
      ∀ rel ∈ s.files, ∀ o, s₁.objectForRel rel = some o → (Scope.parse o.scope).isSome
  | _ => True

end Supervisor

def run (scopePrefix : Bytes) (events : List Event) : Supervisor :=
  events.foldl Supervisor.step { scopePrefix }

/-! ## Captured files -/

namespace Supervisor

variable {s s' : Supervisor}

/-- The scope a restore that goes by the present bindings takes a file from. -/
def resolved (s : Supervisor) (rel : Bytes) : Option Scope :=
  match s.objectForRel rel with
  | some o => Scope.parse o.scope
  | none => some (s.hostScopeForRel rel)

variable {rel : Bytes} {rels : List Bytes}

theorem scopeForRel_of_resolved {scope : Scope} (h : s.resolved rel = some scope) :
    s.scopeForRel rel = scope := by
  unfold resolved at h
  unfold scopeForRel
  cases ho : s.objectForRel rel with
  | none => simpa [ho] using h
  | some o => simp [ho] at h ⊢; simp [h]

theorem rel_of_objectForRel {o : ObjectEntry} (h : s.objectForRel rel = some o) : o.rel = rel := by
  unfold objectForRel at h
  grind

theorem find_objects (hrel : rel ∈ rels) :
    (rels.filterMap s.objectForRel).find? (·.rel = rel) = s.objectForRel rel := by
  induction rels with
  | nil => cases hrel
  | cons r rels ih =>
    cases ho : s.objectForRel r with
    | none =>
      rw [List.filterMap_cons_none ho]
      rcases List.mem_cons.1 hrel with rfl | hrel
      · rw [ho, List.find?_eq_none]
        intro o hmem hrel'
        obtain ⟨r', -, ho'⟩ := List.mem_filterMap.1 hmem
        rw [← of_decide_eq_true hrel', rel_of_objectForRel ho', ho'] at ho
        cases ho
      · exact ih hrel
    | some o =>
      have hr := rel_of_objectForRel ho
      rw [List.filterMap_cons_some ho]
      by_cases heq : r = rel
      · subst heq
        rw [List.find?_cons_of_pos (by simp [hr]), ho]
      · rw [List.find?_cons_of_neg (by simp [hr, heq])]
        exact ih ((List.mem_cons.1 hrel).resolve_left fun h => heq h.symm)

/-- What is captured is where the present bindings would have it restored from. -/
structure Inv (s : Supervisor) : Prop where
  resolved : ∀ rel scope, s.scopes rel = some scope → s.resolved rel = some scope
  agrees : s.Agrees

theorem resolved_congr (hsame : s'.scopePrefix = s.scopePrefix)
    (hobject : s'.objectForRel rel = s.objectForRel rel) : s'.resolved rel = s.resolved rel := by
  unfold resolved hostScopeForRel prefixNs prefixClass
  rw [hobject, hsame]

theorem Inv.rebound (h : Inv s) (hsame : s'.scopePrefix = s.scopePrefix)
    (hscopes : s'.scopes = s.scopes) (hmanifests : s'.manifests = s.manifests)
    (hobject : ∀ rel, (s.scopes rel).isSome → s'.objectForRel rel = s.objectForRel rel) :
    Inv s' := by
  refine ⟨fun rel scope hscope => ?_, fun hostID doc hdoc rel hrel => ?_⟩
  · rw [hscopes] at hscope
    rw [resolved_congr hsame (hobject rel (by simp [hscope]))]
    exact h.resolved rel scope hscope
  · rw [hmanifests] at hdoc
    have hold := h.agrees hostID doc hdoc rel hrel
    unfold restoreScope hostScopeForRel prefixNs prefixClass at hold ⊢
    rwa [hsame, hscopes]

theorem Inv.filesFor (h : Inv s)
    (hvalid : ∀ rel ∈ rels, ∀ o, s.objectForRel rel = some o → (Scope.parse o.scope).isSome) :
    Inv (s.filesFor rels) := by
  have hkeep : ∀ rel, (s.scopes rel).isSome → (s.filesFor rels).scopes rel = s.scopes rel := by
    intro rel hrel
    obtain ⟨scope, hscope⟩ := Option.isSome_iff_exists.1 hrel
    simp [Supervisor.filesFor, hscope]
  refine ⟨fun rel scope hscope => ?_, fun hostID doc hdoc rel hrel => ?_⟩
  · change s.resolved rel = some scope
    cases hold : s.scopes rel with
    | some old =>
      rw [hkeep rel (by simp [hold]), hold] at hscope
      exact h.resolved rel scope (hold.trans hscope)
    | none =>
      by_cases hmem : rel ∈ rels
      · have hsome : (s.resolved rel).isSome := by
          unfold Supervisor.resolved
          cases ho : s.objectForRel rel with
          | none => rfl
          | some o => exact hvalid rel hmem o ho
        obtain ⟨new, hnew⟩ := Option.isSome_iff_exists.1 hsome
        simp only [Supervisor.filesFor, if_pos hmem, hold, Option.getD_none,
          Option.some.injEq] at hscope
        rw [hnew, ← hscope, scopeForRel_of_resolved hnew]
      · simp [Supervisor.filesFor, hmem, hold] at hscope
  · have hold := h.agrees hostID doc hdoc rel hrel
    rw [hkeep rel hold.1]
    exact hold

theorem Inv.writeHostManifest (h : Inv s) {hostID : Bytes} {host : HostBinding}
    (hrels : ∀ rel ∈ rels, (s.scopes rel).isSome) : Inv (s.writeHostManifest hostID host rels) := by
  refine ⟨h.resolved, fun id doc hdoc rel hrel => ?_⟩
  by_cases hid : id = hostID
  · subst hid
    simp only [Supervisor.writeHostManifest, Function.update_self, Option.some.injEq] at hdoc
    subst hdoc
    obtain ⟨scope, hscope⟩ := Option.isSome_iff_exists.1 (hrels rel hrel)
    refine ⟨hrels rel hrel, ?_⟩
    change s.restoreScope _ rel = s.scopes rel
    rw [hscope, ← h.resolved rel scope hscope, restoreScope, find_objects hrel]
    rfl
  · simp only [Supervisor.writeHostManifest, Function.update_of_ne hid] at hdoc
    exact h.agrees id doc hdoc rel hrel

theorem Inv.syncHost (h : Inv s) {hostID : Bytes} {first second : Bytes → Bool}
    (hop : s.Settled (.syncHost hostID first second)) : Inv (s.syncHost hostID first second) := by
  obtain ⟨hfirst, hsecond, hvalid⟩ := hop
  have hrefreshed : Inv (s.refreshFacets first) := h.rebound rfl rfl rfl hfirst
  unfold Supervisor.syncHost
  split
  · exact h
  next host _ =>
  dsimp only
  split
  · exact h
  split
  · exact hrefreshed
  let rels := s.files.filter (ofHost host.hostHash)
  have hcaptured : Inv ((s.refreshFacets first).filesFor rels) :=
    hrefreshed.filesFor fun rel hrel => hvalid rel (List.mem_of_mem_filter hrel)
  have hready : Inv (((s.refreshFacets first).filesFor rels).refreshFacets second) :=
    hcaptured.rebound rfl rfl rfl fun rel _ => hsecond rel
  refine hready.writeHostManifest fun rel hrel => ?_
  simp only [Supervisor.refreshFacets, Supervisor.filesFor, rels, if_pos hrel,
    Option.isSome_some]

theorem Inv.step (h : Inv s) {ev : Event} (hop : s.Settled ev) : Inv (s.step ev) := by
  cases ev with
  | createFile rel => exact h.rebound rfl rfl rfl fun _ _ => rfl
  | bind hostID hostHash storageID cls =>
    refine h.rebound ?_ ?_ ?_ hop <;> simp only [Supervisor.step, Supervisor.bind] <;> split <;> rfl
  | setFacets hash names => exact h.rebound rfl rfl rfl fun _ _ => rfl
  | syncHost hostID first second => exact h.syncHost hop

theorem refreshFacets_idem (readable : Bytes → Bool) :
    (s.refreshFacets readable).refreshFacets readable = s.refreshFacets readable := by
  simp only [Supervisor.refreshFacets, Supervisor.mk.injEq, true_and, and_true]
  funext hash
  split <;> cases s.facetTables hash <;> simp_all

theorem Inv.start (scopePrefix : Bytes) : Inv { scopePrefix } := by
  constructor <;> intro _ _ h <;> cases h

end Supervisor

/-- Every file of a stored host manifest is restored from the scope it is captured under, as long
as captured files keep resolving to the same objects. -/
theorem capture_restore_agree (scopePrefix : Bytes) (events : List Event)
    (hops : ∀ before ev, before ++ [ev] <+: events → (run scopePrefix before).Settled ev) :
    ∀ before, before <+: events → (run scopePrefix before).Agrees := fun before hbefore =>
  (Util.invariant_of_steps (Supervisor.Inv.start scopePrefix) (fun _ _ h hop => h.step hop) hops
    before hbefore).agrees

/-- Host `h` with hash `a` and the facet file `a.1.sqlite`. -/
def facetFile : Bytes := [97, 46, 49] ++ sqliteSuffix

/-- The binding and the facet table are there before the file is captured. -/
def boundFirst : List Event :=
  [.bind [104] [97] [115] [99], .setFacets [97] [[111]], .createFile facetFile,
    .syncHost [104] (fun _ => true) (fun _ => true)]

theorem capture_restore_agree_boundFirst :
    (∀ before ev, before ++ [ev] <+: boundFirst → (run [110, 47, 100] before).Settled ev) ∧
      ∀ before, before <+: boundFirst → (run [110, 47, 100] before).Agrees := by
  have hops : ∀ before ev, before ++ [ev] <+: boundFirst →
      (run [110, 47, 100] before).Settled ev := by
    rw [Util.forall_concat_isPrefix]
    intro k
    fin_cases k
    · exact fun rel hrel => nomatch hrel
    · trivial
    · trivial
    · refine ⟨fun _ => nofun, fun rel => ?_, fun rel hrel o ho => ?_⟩
      · rw [Supervisor.refreshFacets_idem]
      · obtain rfl := List.mem_singleton.1 hrel
        have hvalid : (((run [110, 47, 100] (boundFirst.take 3)).refreshFacets
            fun _ => true).objectForRel facetFile).all fun o =>
              (Scope.parse o.scope).isSome := by decide +kernel
        rw [Option.all_eq_true] at hvalid
        exact hvalid o ho
  exact ⟨hops, capture_restore_agree _ _ hops⟩

/-- The file is captured before its class is known. -/
def boundLate : List Event :=
  [.bind [104] [97] [] [], .setFacets [97] [[111]], .createFile facetFile,
    .syncHost [104] (fun _ => true) (fun _ => true), .bind [104] [] [115] [99],
    .syncHost [104] (fun _ => true) (fun _ => true)]

/-- The file stays under its path, and the manifest names the object. -/
theorem late_binding_moves_restore : ¬ (run [110, 47, 100] boundLate).Agrees := by
  intro h
  let s := run [110, 47, 100] boundLate
  have hlisted : (s.manifests [104]).map (fun doc => (doc.files, s.restoreScope doc facetFile)) =
      some ([facetFile], some ⟨[110], [99], objScopeID [115] [99] [111]⟩) := by decide +kernel
  have hcaptured : s.scopes facetFile = some ⟨[110], [100], base64URL facetFile⟩ := by
    decide +kernel
  obtain ⟨doc, hdoc, heq⟩ := Option.map_eq_some_iff.1 hlisted
  obtain ⟨hfiles, hscope⟩ := Prod.mk.inj heq
  have hagree := (h [104] doc hdoc facetFile (by rw [hfiles]; exact List.mem_singleton_self _)).2
  exact absurd ((hscope.symm.trans hagree).trans hcaptured) (by decide +kernel)

end CellHive.DoSupervisor.Hosts
