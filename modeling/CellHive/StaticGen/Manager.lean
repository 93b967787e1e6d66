import CellHive.Go.Strings
import CellHive.Util.Prefixes
import Mathlib.Tactic.FinCases

/-!
# Static generations

`internal/staticgen`: `Apply` starts a generation for a plan and publishes its routing table,
`DropHosts` takes hosts out of the published one. There is one `Apply` at a time; `mu` is held by
`DropHosts` and by an `Apply` that starts nothing, but not while a new generation is started and its
table written.
-/

namespace CellHive.StaticGen

open Go

variable {σ : Type}

/-- Services and networks are only compared. -/
structure Plan (σ : Type) where
  services : List σ
  networks : List σ := []
  /-- the service behind each -/
  sockets : List Str
  /-- hosts and services -/
  routes : List (Str × Str)

structure Table where
  routes : List (Str × Str) := []
  version : Str
deriving DecidableEq

structure Config (σ : Type) where
  portBase : Nat
  /-- `TablePath` is set -/
  tablePath : Bool
  validatePlan : Plan σ → Bool
  normalizeHost : Str → Str

structure Generation (σ : Type) where
  plan : Plan σ
  ports : List Nat
  routeBy : Str → Option Str
  table : Table

def allocatePorts (base gen n : Nat) : List Nat :=
  (List.range n).map (base + (gen - 1) * (n + 8) + ·)

def address (port : Nat) : Str := "127.0.0.1:".toList ++ formatUint port

/-- The addresses `render` gives; of the sockets of a service the last counts. -/
def portByService (sockets : List Str) (ports : List Nat) (service : Str) : Option Str :=
  ((sockets.zip ports).reverse.find? (·.1 = service)).map fun socket => address socket.2

/-- The table of a plan, if every service it routes to has a socket. -/
def tableFor (plan : Plan σ) (routeBy : Str → Option Str) (version : Nat) : Option Table :=
  if plan.routes.all fun route => (routeBy route.2).isSome then
    some ⟨plan.routes.map fun route => (route.1, "http://".toList ++ (routeBy route.2).getD []),
      formatUint version⟩
  else none

def Table.dropHosts (t : Table) (hosts : List Str) : Table :=
  ⟨t.routes.filter (·.1 ∉ hosts), t.version ++ "-dynamic".toList⟩

structure Manager (σ : Type) where
  gen : Nat := 0
  current : Option (Generation σ) := none
  file : Option Table := none
  /-- the generation of an `Apply` that let go of `mu`, and whether its table is written -/
  next : Option (Generation σ × Bool) := none
  /-- the routes of the last `Apply` that got `applyMu` -/
  routes : List (Str × Str) := []
  /-- the hosts of each `DropHosts` that returned since -/
  dropped : List Str := []

/-- With each write of the table, whether it succeeds. -/
inductive Event (σ : Type)
  | dropHosts (hosts : List Str) (ok : Bool)
  | apply (plan : Plan σ) (ok : Bool)
  /-- `Apply` finds its sockets ready and writes the table -/
  | write (ok : Bool)
  | fail
  | publish

namespace Manager

variable [DecidableEq σ] (cfg : Config σ) (s : Manager σ)

def dropHosts (hosts : List Str) (ok : Bool) : Manager σ :=
  let hosts := hosts.map cfg.normalizeHost
  match s.current with
  | some g =>
    if hosts = [] ∨ cfg.tablePath = false then { s with dropped := s.dropped ++ hosts }
    else if ok then
      let table := g.table.dropHosts hosts
      { s with
        file := some table
        current := some { g with table := table }
        dropped := s.dropped ++ hosts }
    else s
  | none => { s with dropped := s.dropped ++ hosts }

def sameRuntime (a b : Plan σ) : Bool :=
  a.services = b.services && a.networks = b.networks && a.sockets = b.sockets

/-- A table is published without letting go of `mu`. -/
def published (table : Table) (current : Option (Generation σ)) : Manager σ :=
  { s with
    gen := s.gen + 1
    file := if cfg.tablePath then some table else s.file
    current := current }

/-- `Apply`, up to where it lets go of `mu`. -/
def beginApply (plan : Plan σ) (ok : Bool) : Manager σ :=
  let s := { s with routes := plan.routes, dropped := [] }
  if plan.services = [] then
    if cfg.tablePath && !ok then s else s.published cfg ⟨[], "empty".toList⟩ none
  else
    match s.current.filter (sameRuntime ·.plan plan) with
    | some g =>
      match tableFor plan g.routeBy (s.gen + 1) with
      | none => s
      | some table =>
        if cfg.tablePath && !ok then s
        else s.published cfg table (some { g with plan := plan, table := table })
    | none =>
      let ports := allocatePorts cfg.portBase (s.gen + 1) plan.sockets.length
      let routeBy := portByService plan.sockets ports
      match tableFor plan routeBy (s.gen + 1) with
      | none => s
      | some table => { s with next := some (⟨plan, ports, routeBy, table⟩, false) }

/-- A step that has to wait for `applyMu` is not taken. -/
def step : Event σ → Manager σ
  | .dropHosts hosts ok => s.dropHosts cfg hosts ok
  | .apply plan ok =>
    if s.next.isSome ∨ cfg.validatePlan plan = false then s else s.beginApply cfg plan ok
  | .write ok =>
    match s.next with
    | some (g, false) =>
      if cfg.tablePath && !ok then { s with next := none }
      else
        { s with
          file := if cfg.tablePath then some g.table else s.file
          next := some (g, true) }
    | _ => s
  | .fail =>
    match s.next with
    | some (_, false) => { s with next := none }
    | _ => s
  | .publish =>
    match s.next with
    | some (g, true) => { s with gen := s.gen + 1, current := some g, next := none }
    | _ => s

end Manager

/-- Every address is that of a socket of the generation. -/
def Generation.Owns (g : Generation σ) : Prop :=
  ∀ route ∈ g.table.routes, ∃ port ∈ g.ports, route.2 = "http://".toList ++ address port

namespace Manager

variable (cfg : Config σ) (s : Manager σ)

/-- The file has the table of the current generation, or nothing. -/
def Shown : Prop :=
  match s.current with
  | some g => s.file = some g.table
  | none => ∀ t ∈ s.file, t.routes = []

/-- A host that was dropped is routed only where the last plan has it. -/
def Absent : Prop :=
  ∀ g ∈ s.current, ∀ route ∈ g.table.routes, route.1 ∈ s.dropped → route.1 ∈ s.routes.map (·.1)

structure Consistent : Prop where
  shown : cfg.tablePath = true → s.Shown
  owns : ∀ g ∈ s.current, g.Owns
  absent : s.Absent

/-- Hosts are not dropped where there is no table file, nor from when an `Apply` writes its table
to when it publishes the generation. -/
def Meets : Event σ → Prop
  | .dropHosts hosts _ => hosts ≠ [] → s.current.isSome →
    cfg.tablePath = true ∧ ∀ g, s.next ≠ some (g, true)
  | _ => True

end Manager

def run [DecidableEq σ] (cfg : Config σ) (events : List (Event σ)) : Manager σ :=
  events.foldl (Manager.step cfg) {}

/-! ## Every run -/

section Runs

variable {cfg : Config σ} {s : Manager σ} {plan : Plan σ} {routeBy : Str → Option Str} {t : Table}

/-- Every address of the table, and every one it can be given, is that of a socket. -/
structure Generation.Ok (g : Generation σ) : Prop where
  owns : g.Owns
  routeBy : ∀ service addr, g.routeBy service = some addr → ∃ port ∈ g.ports, addr = address port

theorem portByService_mem {sockets : List Str} {ports : List Nat} {service addr : Str}
    (h : portByService sockets ports service = some addr) :
    ∃ port ∈ ports, addr = address port := by
  obtain ⟨socket, hfind, rfl⟩ := Option.map_eq_some_iff.1 h
  have hmem := List.mem_reverse.1 (List.mem_of_find?_eq_some hfind)
  exact ⟨socket.2, (List.of_mem_zip hmem).2, rfl⟩

theorem tableFor_spec {version : Nat} {ports : List Nat}
    (h : tableFor plan routeBy version = some t)
    (hports : ∀ service addr, routeBy service = some addr → ∃ port ∈ ports, addr = address port) :
    Generation.Ok ⟨plan, ports, routeBy, t⟩ ∧ t.routes.map (·.1) = plan.routes.map (·.1) := by
  obtain ⟨hall, heq⟩ := Option.ite_none_right_eq_some.1 h
  obtain rfl := Option.some.inj heq
  refine ⟨⟨fun route hroute => ?_, hports⟩, by simp⟩
  obtain ⟨r, hr, rfl⟩ := List.mem_map.1 hroute
  obtain ⟨addr, haddr⟩ := Option.isSome_iff_exists.1 (List.all_eq_true.1 hall r hr)
  obtain ⟨port, hport, rfl⟩ := hports r.2 addr haddr
  exact ⟨port, hport, by rw [haddr]; rfl⟩

namespace Manager

variable (cfg s) in
structure Inv : Prop where
  current : ∀ g ∈ s.current, g.Ok
  next : ∀ g written, s.next = some (g, written) →
    g.Ok ∧ g.table.routes.map (·.1) = s.routes.map (·.1)
  absent : s.Absent
  shown : cfg.tablePath = true → (∀ g, s.next ≠ some (g, true)) → s.Shown
  written : cfg.tablePath = true → ∀ g, s.next = some (g, true) → s.file = some g.table

theorem Inv.dropHosts (h : Inv cfg s) {hosts : List Str} {ok : Bool}
    (hmeets : s.Meets cfg (.dropHosts hosts ok)) : Inv cfg (s.dropHosts cfg hosts ok) := by
  unfold Manager.dropHosts
  split
  · next g hg =>
    by_cases hhosts : hosts = []
    · simpa [hhosts] using h
    obtain ⟨hpath, hnext⟩ := hmeets hhosts (by simp [hg])
    rw [if_neg (by simp [hhosts, hpath])]
    split
    · refine ⟨?_, h.next, ?_, fun _ _ => rfl, fun _ g hwritten => absurd hwritten (hnext g)⟩
      · rintro _ ⟨⟩
        have hok := h.current g hg
        exact ⟨fun route hroute => hok.owns route (List.mem_filter.1 hroute).1, hok.routeBy⟩
      · rintro _ ⟨⟩ route hroute hdropped
        obtain ⟨hroute, hkept⟩ := List.mem_filter.1 hroute
        have hold := (List.mem_append.1 hdropped).resolve_right (by simpa using hkept)
        exact h.absent g hg route hroute hold
    · exact h
  · next hnone => exact ⟨h.current, h.next, by simp [Absent, hnone], h.shown, h.written⟩

theorem Inv.beginApply [DecidableEq σ] (h : Inv cfg s) (hnext : s.next = none) (plan : Plan σ)
    (ok : Bool) : Inv cfg (s.beginApply cfg plan ok) := by
  have hbegun : Inv cfg { s with routes := plan.routes, dropped := [] } :=
    ⟨h.current, by simp [hnext], by simp [Absent], h.shown, h.written⟩
  have hpublished : ∀ table current, (∀ g ∈ current, g.Ok ∧ g.table = table) →
      (current = none → table.routes = []) →
      Inv cfg (published cfg { s with routes := plan.routes, dropped := [] } table current) := by
    intro table current hcurrent hnone
    refine ⟨fun g hg => (hcurrent g hg).1, by simp [published, hnext], by simp [published, Absent],
      fun hpath _ => ?_, by simp [published, hnext]⟩
    cases current with
    | none => simpa [Shown, published, hpath] using hnone rfl
    | some g => simp [Shown, published, hpath, (hcurrent g rfl).2]
  unfold Manager.beginApply
  dsimp only
  split
  · split
    · exact hbegun
    · exact hpublished _ _ nofun fun _ => rfl
  split
  · next g hg =>
    have hok := h.current g (Option.filter_eq_some_iff.1 hg).1
    split
    · exact hbegun
    next table htable =>
    split
    · exact hbegun
    · refine hpublished _ _ ?_ nofun
      rintro _ ⟨⟩
      exact ⟨(tableFor_spec htable hok.routeBy).1, rfl⟩
  · split
    · exact hbegun
    · next table htable =>
      refine ⟨h.current, ?_, hbegun.absent, fun hpath _ => h.shown hpath (by simp [hnext]), nofun⟩
      rintro _ _ ⟨⟩
      exact tableFor_spec htable fun _ _ => portByService_mem

theorem Inv.failed (h : Inv cfg s) {g : Generation σ} (hnext : s.next = some (g, false)) :
    Inv cfg { s with next := none } :=
  ⟨h.current, nofun, h.absent, fun hpath _ => h.shown hpath (by simp [hnext]), nofun⟩

theorem Inv.step [DecidableEq σ] (h : Inv cfg s) {ev : Event σ} (hmeets : s.Meets cfg ev) :
    Inv cfg (s.step cfg ev) := by
  cases ev with
  | dropHosts hosts ok => exact h.dropHosts hmeets
  | apply plan ok =>
    simp only [Manager.step]
    split
    · exact h
    · next hfree =>
      simp only [not_or, Option.not_isSome_iff_eq_none] at hfree
      exact h.beginApply hfree.1 plan ok
  | write ok =>
    simp only [Manager.step]
    split
    · next g hnext =>
      split
      · exact h.failed hnext
      refine ⟨h.current, ?_, h.absent, fun _ hnot => absurd rfl (hnot g), ?_⟩
      · rintro _ _ ⟨⟩
        exact h.next g _ hnext
      · rintro hpath _ ⟨⟩
        exact if_pos hpath
    · exact h
  | fail =>
    simp only [Manager.step]
    split
    · next hnext => exact h.failed hnext
    · exact h
  | publish =>
    simp only [Manager.step]
    split
    · next g hnext =>
      obtain ⟨hok, hhosts⟩ := h.next g _ hnext
      refine ⟨?_, nofun, ?_, fun hpath _ => h.written hpath g hnext, nofun⟩
      · rintro _ ⟨⟩
        exact hok
      · rintro _ ⟨⟩ route hroute -
        exact hhosts ▸ List.mem_map_of_mem hroute
    · exact h

end Manager

/-- Whenever no call is in progress, the table file is the table of the current generation, which
routes to its own sockets only and has no dropped host that the last plan does not route, if hosts
are not dropped between the two publications of an `Apply`. -/
theorem published_table_consistent [DecidableEq σ] (cfg : Config σ) (events : List (Event σ))
    (hmeets : ∀ before ev, before ++ [ev] <+: events → (run cfg before).Meets cfg ev) :
    ∀ before, before <+: events → (run cfg before).next = none →
      (run cfg before).Consistent cfg := by
  intro before hbefore hnext
  have hinv : Manager.Inv cfg (run cfg before) :=
    Util.invariant_of_steps ⟨nofun, nofun, nofun, fun _ _ => nofun, nofun⟩
      (fun _ _ h hmeets => h.step hmeets) hmeets before hbefore
  exact ⟨fun hpath => hinv.shown hpath (by simp [hnext]), fun g hg => (hinv.current g hg).owns,
    hinv.absent⟩

def plainConfig : Config Nat := ⟨19000, true, fun _ => true, id⟩

/-- One service behind one host. -/
def onePlan (service : Nat) : Plan Nat := ⟨[service], [], [['s']], [(['h'], ['s'])]⟩

/-- A plan is applied, then its host is dropped. -/
def appliedAndDropped : List (Event Nat) :=
  [.apply (onePlan 1) true, .write true, .publish, .dropHosts [['h']] true]

theorem published_table_consistent_dropped :
    (∀ before ev, before ++ [ev] <+: appliedAndDropped →
        (run plainConfig before).Meets plainConfig ev) ∧
      (run plainConfig appliedAndDropped).current.isSome ∧
      (run plainConfig appliedAndDropped).Consistent plainConfig := by
  have hmeets : ∀ before ev, before ++ [ev] <+: appliedAndDropped →
      (run plainConfig before).Meets plainConfig ev := by
    rw [Util.forall_concat_isPrefix]
    intro k
    fin_cases k
    case «3» => exact fun _ _ => ⟨rfl, nofun⟩
    all_goals trivial
  exact ⟨hmeets, rfl, published_table_consistent _ _ hmeets _ List.prefix_rfl rfl⟩

/-- Hosts dropped after an `Apply` has written its table: the file keeps the table of the generation
that is drained. -/
theorem dropped_hosts_outlive_generation :
    let events := [.apply (onePlan 1) true, .write true, .publish, .apply (onePlan 2) true,
      .write true, .dropHosts [['h']] true, .publish]
    (run plainConfig events).next = none ∧ ¬ (run plainConfig events).Consistent plainConfig := by
  refine ⟨rfl, fun h => ?_⟩
  exact absurd (congrArg (Option.map Table.version) (h.shown rfl)) (by decide +kernel)

end Runs

end CellHive.StaticGen
