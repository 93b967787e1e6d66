import CellHive.Server.FleetSession

/-!
# Fleet acknowledgements are recorded

A call is let through to the shipper only if an open record of the session is stored that
names all its followers: by address, or by the identities their addresses are bound to. The
bindings never change and records keep their followers, so this still holds when the segment
is sent. `fleet_ack_recorded` says it of every acknowledgement of every run.
-/

namespace CellHive.Server.FleetSession

open Go NodeLog Cell

def Names (cfg : Config) (targets : ByAddress PeerIdentity) (r : Record) (f : Str) : Prop :=
  if cfg.identified then
    ∃ id, targets.lookup f = some id ∧
      ∃ addr ∈ r.followers, r.followerRefs.lookup addr = some id
  else f ∈ r.followers

structure OpenRecord (cfg : Config) (s : State) (r : Record) : Prop where
  mem : r ∈ s.stored
  status : r.status = .opened
  node : r.node = cfg.node
  session : r.session = cfg.session

def Vouched (cfg : Config) (s : State) (followers : List Str) : Prop :=
  ∃ r, OpenRecord cfg s r ∧ ∀ f ∈ followers, Names cfg s.targets r f

/-- Records are added, bindings are added. -/
structure Extends (s s' : State) : Prop where
  stored : s.stored ⊆ s'.stored
  targets : ∀ addr id, s.targets.lookup addr = some id → s'.targets.lookup addr = some id

variable {cfg : Config} {s s' : State} {r : Record} {i : Nat} {c : Call} {followers : List Str}
  {f : Str}

theorem Names.extends (he : Extends s s') (h : Names cfg s.targets r f) :
    Names cfg s'.targets r f := by
  unfold Names at h ⊢
  split
  · next hid =>
    rw [if_pos hid] at h
    obtain ⟨id, hbound, hrec⟩ := h
    exact ⟨id, he.targets f id hbound, hrec⟩
  · next hid =>
    rw [if_neg hid] at h
    exact h

theorem OpenRecord.extends (he : Extends s s') (h : OpenRecord cfg s r) : OpenRecord cfg s' r :=
  ⟨he.stored h.mem, h.status, h.node, h.session⟩

theorem Vouched.extends (he : Extends s s') (h : Vouched cfg s followers) :
    Vouched cfg s' followers := by
  obtain ⟨r, hr, hall⟩ := h
  exact ⟨r, hr.extends he, fun f hf => (hall f hf).extends he⟩

/-! ## References and bindings -/

section Refs

variable {targets refs : ByAddress PeerIdentity}

theorem mem_collectRefs {refs' : ByAddress PeerIdentity} {samples : List (Option PeerIdentity)}
    (h : collectRefs refs followers samples = some refs') :
    (∀ f ∈ refs, f ∈ refs') ∧ ∀ f ∈ followers, f ∈ refs' := by
  induction followers generalizing refs samples with
  | nil =>
    cases h
    exact ⟨fun _ hf => hf, by simp⟩
  | cons addr rest ih =>
    match samples, h with
    | some id :: samples, h =>
      obtain ⟨hkeep, hall⟩ := ih h
      refine ⟨fun f hf => hkeep f (AList.mem_insert refs |>.2 (.inr hf)), fun f hf => ?_⟩
      rcases List.mem_cons.1 hf with rfl | hf
      · exact hkeep f (AList.mem_insert refs |>.2 (.inl rfl))
      · exact hall f hf

/-- Bindings are added, and none is changed. -/
theorem bind_eq_some {targets' : ByAddress PeerIdentity} (h : bind targets refs = some targets') :
    (∀ addr id, targets.lookup addr = some id → targets'.lookup addr = some id) ∧
      ∀ addr id, refs.lookup addr = some id → targets'.lookup addr = some id := by
  unfold bind at h
  split at h
  · next hall =>
    cases h
    have hnew : ∀ addr id, refs.lookup addr = some id → (refs ∪ targets).lookup addr = some id :=
      fun addr id hid => by
        rw [AList.lookup_union_left (AList.lookup_isSome.1 (by rw [hid]; rfl)), hid]
    refine ⟨fun addr id hid => ?_, hnew⟩
    cases href : refs.lookup addr with
    | none =>
      rw [AList.lookup_union_right (AList.lookup_eq_none.1 href), hid]
    | some id' =>
      -- the address is bound already, to the same identity
      rw [hnew addr id' href]
      have hmem : (⟨addr, id'⟩ : Sigma fun _ : Str => PeerIdentity) ∈ refs.entries :=
        AList.mem_lookup_iff.1 href
      have hsame := List.all_eq_true.1 hall _ hmem
      rw [of_decide_eq_true hsame id hid]
  · cases h

/-- The references of a call's followers, all of them bound. -/
structure Bound (targets : ByAddress PeerIdentity) (followers : List Str)
    (refs : ByAddress PeerIdentity) : Prop where
  all : ∀ f ∈ followers, f ∈ refs
  bound : ∀ addr id, refs.lookup addr = some id → targets.lookup addr = some id

theorem mem_identities {id : PeerIdentity} (h : id ∈ identities refs) :
    ∃ addr, refs.lookup addr = some id := by
  rw [identities, List.mem_toFinset, List.mem_map] at h
  obtain ⟨⟨addr, id'⟩, hmem, rfl⟩ := h
  exact ⟨addr, AList.mem_lookup_iff.2 hmem⟩

end Refs

/-! ## The invariant -/

def Covers (r : Record) (followers : List Str) : Option (ByAddress PeerIdentity) → Prop
  | none => ∀ f ∈ followers, f ∈ r.followers
  | some refs => ∀ addr id, refs.lookup addr = some id →
      addr ∈ r.followers ∧ r.followerRefs.lookup addr = some id

/-- References are collected if the process runs with identities. -/
def RefsOk (cfg : Config) (s : State) (followers : List Str) :
    Option (ByAddress PeerIdentity) → Prop
  | none => cfg.identified = false
  | some refs => cfg.identified = true ∧ Bound s.targets followers refs

def PhaseOk (cfg : Config) (s : State) (followers : List Str) : Phase → Prop
  | .preparing refs => RefsOk cfg s followers (some refs)
  | .creating refs => RefsOk cfg s followers refs
  | .comparing refs => RefsOk cfg s followers refs
  | .decided (some refs) =>
    RefsOk cfg s followers refs ∧ ∃ r, OpenRecord cfg s r ∧ Covers r followers refs
  | .passed => Vouched cfg s followers
  | _ => True

def SessionOk (cfg : Config) (s : State) : Prop :=
  s.sessionOpen = true → ∃ r, OpenRecord cfg s r ∧
    (cfg.identified = false → ∀ f ∈ s.sessionFollowers, f ∈ r.followers) ∧
    (cfg.identified = true → ∀ id ∈ s.sessionRefs,
      ∃ addr ∈ r.followers, r.followerRefs.lookup addr = some id)

structure Inv (cfg : Config) (s : State) : Prop where
  session : SessionOk cfg s
  phases : ∀ c ∈ s.calls, PhaseOk cfg s c.followers c.phase

variable {refs : Option (ByAddress PeerIdentity)} {phase : Phase}
  {samples : List (Option PeerIdentity)}

theorem RefsOk.extends (he : Extends s s') (h : RefsOk cfg s followers refs) :
    RefsOk cfg s' followers refs := by
  cases refs with
  | none => exact h
  | some refs =>
    obtain ⟨hid, hall, hbound⟩ := h
    exact ⟨hid, hall, fun addr id hr => he.targets addr id (hbound addr id hr)⟩

theorem PhaseOk.extends (he : Extends s s') (h : PhaseOk cfg s followers phase) :
    PhaseOk cfg s' followers phase := by
  cases phase with
  | preparing refs => exact @RefsOk.extends cfg s s' followers (some refs) he h
  | creating | comparing => exact RefsOk.extends he h
  | decided refs =>
    cases refs with
    | none => trivial
    | some refs =>
      obtain ⟨hrefs, r, hr, hcov⟩ := h
      exact ⟨hrefs.extends he, r, hr.extends he, hcov⟩
  | passed => exact Vouched.extends he h
  | entering | opening | sent | fallback | done => trivial

theorem SessionOk.extends (he : Extends s s') (h : SessionOk cfg s)
    (hopen : s'.sessionOpen = s.sessionOpen) (hfollowers : s'.sessionFollowers = s.sessionFollowers)
    (hrefs : s'.sessionRefs = s.sessionRefs) : SessionOk cfg s' := by
  intro hs
  rw [hopen] at hs
  obtain ⟨r, hr, haddr, hids⟩ := h hs
  refine ⟨r, hr.extends he, ?_, ?_⟩
  · rw [hfollowers]
    exact haddr
  · rw [hrefs]
    exact hids

theorem getElem?_setPhase (hc : s.calls[i]? = some c) (j : Nat) :
    (s.setPhase i phase).calls[j]? = if j = i then some { c with phase } else s.calls[j]? := by
  unfold State.setPhase
  rw [List.getElem?_modify]
  by_cases hj : i = j
  · subst hj
    rw [hc]
    simp
  · rw [if_neg fun h => hj h.symm]
    simp [hj]

theorem Inv.moved (h : Inv cfg s) (hc : s.calls[i]? = some c) (he : Extends s s')
    (hcalls : s'.calls = (s.setPhase i phase).calls) (hphase : PhaseOk cfg s' c.followers phase)
    (hsession : SessionOk cfg s') : Inv cfg s' := by
  refine ⟨hsession, fun c' hc' => ?_⟩
  rw [hcalls] at hc'
  obtain ⟨j, hj⟩ := List.mem_iff_getElem?.1 hc'
  rw [getElem?_setPhase hc] at hj
  split at hj
  · cases hj
    exact hphase
  · exact (h.phases c' (List.mem_of_getElem? hj)).extends he

/-- The same where the session stays as it is. -/
theorem Inv.kept (h : Inv cfg s) (hc : s.calls[i]? = some c) (hstored : s.stored ⊆ s'.stored)
    (htargets : ∀ addr id, s.targets.lookup addr = some id → s'.targets.lookup addr = some id)
    (hcalls : s'.calls = (s.setPhase i phase).calls)
    (hphase : Extends s s' → PhaseOk cfg s' c.followers phase)
    (hopen : s'.sessionOpen = s.sessionOpen) (hfollowers : s'.sessionFollowers = s.sessionFollowers)
    (hrefs : s'.sessionRefs = s.sessionRefs) : Inv cfg s' := by
  have he : Extends s s' := ⟨hstored, htargets⟩
  exact h.moved hc he hcalls (hphase he) (h.session.extends he hopen hfollowers hrefs)

theorem Inv.setPhase (h : Inv cfg s) (hc : s.calls[i]? = some c)
    (hphase : PhaseOk cfg s c.followers phase) : Inv cfg (s.setPhase i phase) :=
  h.kept hc (fun _ hr => hr) (fun _ _ ht => ht) rfl (fun he => hphase.extends he) rfl rfl rfl

theorem Inv.withCalls {calls : List Call} (h : Inv cfg s)
    (hcalls : ∀ c ∈ calls, PhaseOk cfg s c.followers c.phase) : Inv cfg { s with calls } := by
  have he : Extends s { s with calls } := ⟨fun _ hr => hr, fun _ _ ht => ht⟩
  exact ⟨h.session.extends he rfl rfl rfl, fun c hc => (hcalls c hc).extends he⟩

/-! ## Steps -/

theorem sessionMatches_sound {found : Bool} {targets : ByAddress PeerIdentity} (h : SessionOk cfg s)
    (hopen : s.sessionOpen = true)
    (hm : sessionMatches cfg s followers samples = (found, targets)) :
    (∀ addr id, s.targets.lookup addr = some id → targets.lookup addr = some id) ∧
      (found = true → ∃ r, OpenRecord cfg s r ∧ ∀ f ∈ followers, Names cfg targets r f) := by
  obtain ⟨r, hr, haddr, hids⟩ := h hopen
  unfold sessionMatches at hm
  split at hm
  · next hid =>
    cases hm
    refine ⟨fun _ _ h => h, fun hfound => ⟨r, hr, fun f hf => ?_⟩⟩
    rw [Names, if_neg (by rw [hid]; exact Bool.false_ne_true)]
    rw [← beq_iff_eq.1 hfound] at hf
    exact haddr hid f hf
  · next hid =>
    have hid : cfg.identified = true := by simpa using hid
    cases hrefs : collectRefs ∅ followers samples with
    | none =>
      rw [hrefs] at hm
      cases hm
      exact ⟨fun _ _ h => h, nofun⟩
    | some refs =>
      rw [hrefs] at hm
      dsimp only at hm
      split at hm
      · cases hm
        exact ⟨fun _ _ h => h, nofun⟩
      split at hm
      · next hall =>
        cases hbind : bind s.targets refs with
        | none =>
          rw [hbind] at hm
          cases hm
          exact ⟨fun _ _ h => h, nofun⟩
        | some targets' =>
          rw [hbind] at hm
          cases hm
          obtain ⟨hkeep, hnew⟩ := bind_eq_some hbind
          refine ⟨hkeep, fun _ => ⟨r, hr, fun f hf => ?_⟩⟩
          rw [Names, if_pos hid]
          obtain ⟨id, hlookup⟩ := Option.isSome_iff_exists.1
            (AList.lookup_isSome.2 ((mem_collectRefs hrefs).2 f hf))
          refine ⟨id, hnew f id hlookup, hids hid id ?_⟩
          have hmem : (⟨f, id⟩ : Sigma fun _ : Str => PeerIdentity) ∈ refs.entries :=
            AList.mem_lookup_iff.1 hlookup
          exact of_decide_eq_true (List.all_eq_true.1 hall _ hmem)
      · cases hm
        exact ⟨fun _ _ h => h, nofun⟩

theorem record_covers (hr : c.record cfg refs = some r) :
    r.status = .opened ∧ r.node = cfg.node ∧ r.session = cfg.session ∧ Covers r c.followers refs := by
  cases refs with
  | none =>
    cases hr
    refine ⟨rfl, rfl, rfl, fun f hf => ?_⟩
    exact mem_canonicalFollowers.2 (mem_canonicalFollowers.2 hf)
  | some refs =>
    obtain ⟨followers, hfollowers, rfl⟩ := Option.map_eq_some_iff.1 hr
    refine ⟨rfl, rfl, rfl, fun addr id hid => ⟨?_, hid⟩⟩
    unfold identifiedFollowers at hfollowers
    split at hfollowers
    · cases hfollowers
    split at hfollowers
    · cases hfollowers
    split at hfollowers
    · cases hfollowers
      exact mem_canonicalFollowers.2 (AList.lookup_isSome.1 (by rw [hid]; rfl))
    · cases hfollowers

theorem Covers.reopens {existing : Record} (h : Covers r followers refs)
    (hre : existing.reopens r = true) : Covers existing followers refs := by
  obtain ⟨-, -, hfollowers, hrefs, -⟩ := Record.reopens_eq_true hre
  cases refs with
  | none => exact fun f hf => mem_of_sameFollowers hfollowers (h f hf)
  | some refs =>
    intro addr id hid
    obtain ⟨hmem, hlookup⟩ := h addr id hid
    exact ⟨mem_of_sameFollowers hfollowers hmem, lookup_of_sameRefs hrefs hlookup⟩

section Phases

variable (h : Inv cfg s) (hc : s.calls[i]? = some c)
include h hc

theorem inv_enter (hs : enterSession cfg s i c samples = some s') : Inv cfg s' := by
  unfold enterSession at hs
  split at hs
  · cases hs
    exact h.setPhase hc trivial
  split at hs
  · next hopen =>
    obtain ⟨⟨found, targets⟩, hm⟩ : ∃ m,
        sessionMatches cfg s (canonicalFollowers c.followers) samples = m := ⟨_, rfl⟩
    rw [hm, Option.some.injEq] at hs
    subst hs
    obtain ⟨hkeep, hfound⟩ := sessionMatches_sound h.session hopen hm
    refine h.kept hc (fun _ hr => hr) hkeep rfl (fun he => ?_) rfl rfl rfl
    cases found with
    | false => trivial
    | true =>
      obtain ⟨r, hr, hall⟩ := hfound rfl
      exact ⟨r, hr.extends he, fun f hf => hall f (mem_canonicalFollowers.2 hf)⟩
  split at hs
  · cases hs
  cases hs
  exact h.kept hc (fun _ hr => hr) (fun _ _ ht => ht) rfl (fun _ => trivial) rfl rfl rfl

theorem inv_resolve : Inv cfg (resolveFollowers cfg s i c samples) := by
  unfold resolveFollowers
  split
  · next hid => exact h.setPhase hc hid
  next hid =>
  split
  · exact h.setPhase hc trivial
  next refs hrefs =>
  split
  · exact h.setPhase hc trivial
  next targets hbind =>
  obtain ⟨hkeep, hnew⟩ := bind_eq_some hbind
  refine h.kept hc (fun _ hr => hr) hkeep rfl
    (fun _ => ⟨by simpa using hid, fun f hf => ?_, hnew⟩) rfl rfl rfl
  exact (mem_collectRefs hrefs).2 f (mem_canonicalFollowers.2 hf)

theorem inv_create {fault : Option Bool} (hrefs : RefsOk cfg s c.followers refs) :
    Inv cfg (createRecord cfg s i c refs fault) := by
  unfold createRecord
  split
  · exact h.setPhase hc trivial
  next r hr =>
  obtain ⟨hstatus, hnode, hsession, hcov⟩ := record_covers hr
  cases hstored : s.stored with
  | nil =>
    have hadd : s.stored ⊆ [r] := by
      rw [hstored]
      exact List.nil_subset _
    match fault with
    | none =>
      refine h.kept hc hadd (fun _ _ ht => ht) rfl (fun he => ⟨hrefs.extends he, r, ?_, hcov⟩)
        rfl rfl rfl
      exact ⟨List.mem_singleton_self r, hstatus, hnode, hsession⟩
    | some true =>
      exact h.kept hc hadd (fun _ _ ht => ht) rfl (fun _ => trivial) rfl rfl rfl
    | some false => exact h.setPhase hc trivial
  | cons r' rest =>
    cases fault with
    | none => exact h.setPhase hc hrefs
    | some e => exact h.setPhase hc trivial

theorem inv_compare (hrefs : RefsOk cfg s c.followers refs) :
    Inv cfg (compareRecord cfg s i c refs) := by
  unfold compareRecord
  split
  · next r existing rest hr hstored =>
    apply h.setPhase hc
    split
    · next hre =>
      obtain ⟨hstatus, hnode, hsession, hcov⟩ := record_covers hr
      obtain ⟨hnode', hsession', -, -, hopen⟩ := Record.reopens_eq_true hre
      refine ⟨hrefs, existing, ⟨?_, hopen, ?_, ?_⟩, hcov.reopens hre⟩
      · rw [hstored]
        exact List.mem_cons_self
      · rw [hnode', hnode]
      · rw [hsession', hsession]
    · trivial
  · exact h.setPhase hc trivial

theorem inv_finish {refs : Option (Option (ByAddress PeerIdentity))}
    (hphase : PhaseOk cfg s c.followers (.decided refs)) :
    Inv cfg (finishOpening s i c refs) := by
  cases refs with
  | none =>
    exact h.kept hc (fun _ hr => hr) (fun _ _ ht => ht) rfl (fun _ => trivial) rfl rfl rfl
  | some refs =>
    have he : Extends s (finishOpening s i c (some refs)) := ⟨fun _ hr => hr, fun _ _ ht => ht⟩
    obtain ⟨hrefs, r, hr, hcov⟩ := hphase
    refine h.moved hc he rfl ⟨r, hr.extends he, fun f hf => ?_⟩
      (fun _ => ⟨r, hr.extends he, fun hid f hf => ?_, fun hid id hmem => ?_⟩)
    · cases refs with
      | none =>
        rw [Names, if_neg (by rw [show cfg.identified = false from hrefs]; exact Bool.false_ne_true)]
        exact hcov f hf
      | some refs =>
        obtain ⟨hid, hall, hbound⟩ := hrefs
        rw [Names, if_pos hid]
        obtain ⟨id, hlookup⟩ := Option.isSome_iff_exists.1 (AList.lookup_isSome.2 (hall f hf))
        obtain ⟨hmem, href⟩ := hcov f id hlookup
        exact ⟨id, hbound f id hlookup, f, hmem, href⟩
    · cases refs with
      | none => exact hcov f (mem_canonicalFollowers.1 hf)
      | some refs =>
        rw [hrefs.1] at hid
        cases hid
    · cases refs with
      | none => exact absurd hmem (Finset.notMem_empty id)
      | some refs =>
        obtain ⟨addr, hlookup⟩ := mem_identities hmem
        obtain ⟨haddr, href⟩ := hcov addr id hlookup
        exact ⟨addr, haddr, href⟩

theorem inv_act {a : Action} (hs : act cfg s i c a = some s') : Inv cfg s' := by
  have hphase := h.phases c (List.mem_of_getElem? hc)
  unfold act at hs
  split at hs
  · exact inv_enter h hc hs
  · cases hs
    exact inv_resolve h hc
  · next ok refs hp =>
    cases hs
    apply h.setPhase hc
    rw [hp] at hphase
    cases ok with
    | true => exact hphase
    | false => trivial
  · next fault refs hp =>
    cases hs
    rw [hp] at hphase
    exact inv_create h hc hphase
  · next ok refs hp =>
    cases hs
    rw [hp] at hphase
    cases ok with
    | true => exact inv_compare h hc hphase
    | false => exact h.setPhase hc trivial
  · next refs hp =>
    cases hs
    rw [hp] at hphase
    exact inv_finish h hc hphase
  · cases hs
    exact h.setPhase hc trivial
  · next invalid hp =>
    cases hs
    apply h.setPhase hc
    cases invalid with
    | true | false => trivial
  · split at hs
    · cases hs
      exact h.setPhase hc trivial
    · cases hs
  · cases hs
    exact h.setPhase hc trivial
  · cases hs
    exact h.setPhase hc trivial
  · cases hs

end Phases

theorem inv_step {e : Event} (h : Inv cfg s) (hs : step cfg s e = some s') : Inv cfg s' := by
  cases e with
  | call scope epoch followers requireBucket =>
    cases hs
    refine h.withCalls fun c hc => ?_
    rcases List.mem_append.1 hc with hc | hc
    · exact h.phases c hc
    · rw [List.mem_singleton.1 hc]
      split
      · trivial
      · trivial
  | act i a =>
    dsimp only [step] at hs
    split at hs
    · cases hs
    · next c hc => exact inv_act h hc hs
  | send batch =>
    dsimp only [step] at hs
    split at hs
    · cases hs
    next first _ =>
    split at hs
    · cases hs
      refine h.withCalls fun c hc => ?_
      obtain ⟨j, hj⟩ := List.mem_iff_getElem?.1 hc
      rw [List.getElem?_mapIdx, Option.map_eq_some_iff] at hj
      obtain ⟨c', hc', rfl⟩ := hj
      split
      · trivial
      · exact h.phases c' (List.mem_of_getElem? hc')
    · cases hs
  | update status progress covered =>
    dsimp only [step] at hs
    split at hs
    · cases hs
    next r rest hstored =>
    cases hs
    have he : Extends s { s with
        stored := { r with status, progress, coveredSeq := covered } :: s.stored } :=
      ⟨List.subset_cons_self _ _, fun _ _ ht => ht⟩
    exact ⟨h.session.extends he rfl rfl rfl, fun c hc => (h.phases c hc).extends he⟩

/-! ## Runs -/

variable {events : List Event}

theorem run_eq_foldlM {s₀ : State} : run cfg s₀ events = events.foldlM (step cfg) s₀ := by
  induction events generalizing s₀ with
  | nil => rfl
  | cons e rest ih =>
    rw [run, List.foldlM_cons]
    cases step cfg s₀ e with
    | none => rfl
    | some s => exact ih

theorem run_concat {s₀ : State} {e : Event} (h : run cfg s₀ (events ++ [e]) = some s') :
    ∃ s, run cfg s₀ events = some s ∧ step cfg s e = some s' := by
  simpa [run_eq_foldlM, Option.bind_eq_some_iff] using h

theorem inv_start : Inv cfg {} := ⟨nofun, nofun⟩

theorem inv_run (h : run cfg {} events = some s) : Inv cfg s := by
  induction events using List.reverseRecOn generalizing s with
  | nil =>
    cases h
    exact inv_start
  | append_singleton events e ih =>
    obtain ⟨s₁, hrun, hstep⟩ := run_concat h
    exact inv_step (ih hrun) hstep

/-- The segment of call `i` was sent when an open record that names `f` was stored. -/
def SentAt (cfg : Config) (events : List Event) (i : Nat) (f : Str) : Prop :=
  ∃ before batch after s₀ r, events = before ++ .send batch :: after ∧ i ∈ batch ∧
    run cfg {} before = some s₀ ∧ OpenRecord cfg s₀ r ∧ Names cfg s₀.targets r f

theorem SentAt.concat {e : Event} (h : SentAt cfg events i f) : SentAt cfg (events ++ [e]) i f := by
  obtain ⟨before, batch, after, s₀, r, rfl, hrest⟩ := h
  exact ⟨before, batch, after ++ [e], s₀, r, by simp, hrest⟩

/-- The followers a call's segment was sent to, or the one that acknowledged it. -/
def Phase.reached : Phase → List Str
  | .sent followers => followers
  | .done (some (.fleet f)) => [f]
  | _ => []

theorem reached_ite {p q : Phase} {ok : Bool} (hp : p.reached = []) (hq : q.reached = []) :
    (if ok then p else q).reached = [] := by
  cases ok with
  | true => exact hp
  | false => exact hq

theorem reached_settled {ok requireBucket : Bool} :
    (Phase.done (if ok then some (bucketMode cfg requireBucket) else none)).reached = [] := by
  rcases ok with _ | _
  · rfl
  unfold bucketMode
  rw [if_pos rfl]
  split
  · rfl
  split
  · rfl
  · rfl

theorem act_reached {a : Action} (hs : act cfg s i c a = some s') :
    ∃ phase : Phase, s'.calls = (s.setPhase i phase).calls ∧
      ∀ f ∈ phase.reached, f ∈ c.phase.reached := by
  have hnone : ∀ phase : Phase, phase.reached = [] →
      ∀ f ∈ phase.reached, f ∈ c.phase.reached := fun phase h f hf => by
    rw [h] at hf
    cases hf
  unfold act at hs
  split at hs
  · unfold enterSession at hs
    split at hs
    · cases hs
      exact ⟨_, rfl, hnone _ rfl⟩
    split at hs
    · cases hs
      exact ⟨_, rfl, hnone _ (reached_ite rfl rfl)⟩
    split at hs
    · cases hs
    · cases hs
      exact ⟨_, rfl, hnone _ rfl⟩
  · cases hs
    unfold resolveFollowers
    split
    · exact ⟨_, rfl, hnone _ rfl⟩
    split
    · exact ⟨_, rfl, hnone _ rfl⟩
    split
    · exact ⟨_, rfl, hnone _ rfl⟩
    · exact ⟨_, rfl, hnone _ rfl⟩
  · cases hs
    exact ⟨_, rfl, hnone _ (reached_ite rfl rfl)⟩
  · cases hs
    unfold createRecord
    split
    · exact ⟨_, rfl, hnone _ rfl⟩
    split
    all_goals exact ⟨_, rfl, hnone _ rfl⟩
  · cases hs
    split
    · unfold compareRecord
      split
      all_goals exact ⟨_, rfl, hnone _ rfl⟩
    · exact ⟨_, rfl, hnone _ rfl⟩
  · next refs _ =>
    cases hs
    cases refs with
    | none | some => exact ⟨_, rfl, hnone _ rfl⟩
  · cases hs
    exact ⟨_, rfl, hnone _ rfl⟩
  · cases hs
    exact ⟨_, rfl, hnone _ (reached_ite rfl rfl)⟩
  · next follower followers hp =>
    split at hs
    · next hmem =>
      cases hs
      refine ⟨_, rfl, fun f hf => ?_⟩
      rw [hp, List.mem_singleton.1 hf]
      exact hmem
    · cases hs
  · cases hs
    exact ⟨_, rfl, hnone _ rfl⟩
  · cases hs
    exact ⟨_, rfl, hnone _ reached_settled⟩
  · cases hs

theorem vouched_of_ships {first : Call} (h : Inv cfg s) (hc : s.calls[i]? = some c)
    (hs : s.ships first i = true) : Vouched cfg s c.followers := by
  have hphase := h.phases c (List.mem_of_getElem? hc)
  unfold State.ships at hs
  rw [hc] at hs
  rw [Bool.and_eq_true] at hs
  cases hp : c.phase with
  | passed =>
    rw [hp] at hphase
    exact hphase
  | _ =>
    rw [hp] at hs
    cases hs.1

theorem reached_sentAt (h : run cfg {} events = some s) (hc : s.calls[i]? = some c)
    (hf : f ∈ c.phase.reached) : SentAt cfg events i f := by
  induction events using List.reverseRecOn generalizing s c i f with
  | nil =>
    cases h
    cases hc
  | append_singleton events e ih =>
    obtain ⟨s₁, hrun, hstep⟩ := run_concat h
    cases e with
    | call scope epoch followers requireBucket =>
      cases hstep
      rw [List.getElem?_append] at hc
      split at hc
      · exact (ih hrun hc hf).concat
      · rw [List.mem_singleton.1 (List.mem_of_getElem? hc)] at hf
        rw [reached_ite rfl rfl] at hf
        cases hf
    | act j a =>
      dsimp only [step] at hstep
      split at hstep
      · cases hstep
      next c₁ hc₁ =>
      obtain ⟨phase, hcalls, hreached⟩ := act_reached hstep
      rw [hcalls, getElem?_setPhase hc₁] at hc
      split at hc
      · next hij =>
        subst hij
        cases hc
        exact (ih hrun hc₁ (hreached f hf)).concat
      · exact (ih hrun hc hf).concat
    | send batch =>
      dsimp only [step] at hstep
      split at hstep
      · cases hstep
      next first hfirst =>
      split at hstep
      · next hall =>
        cases hstep
        rw [List.getElem?_mapIdx, Option.map_eq_some_iff] at hc
        obtain ⟨c₁, hc₁, rfl⟩ := hc
        split at hf
        · next hmem =>
          -- the first call of the batch was let through
          obtain ⟨j, hj, hjc⟩ := Option.bind_eq_some_iff.1 hfirst
          have hships := List.all_eq_true.1 hall j (List.mem_of_head? hj)
          obtain ⟨r, hr, hnames⟩ := vouched_of_ships (inv_run hrun) hjc hships
          exact ⟨events, batch, [], s₁, r, rfl, hmem, hrun, hr, hnames f hf⟩
        · exact (ih hrun hc₁ hf).concat
      · cases hstep
    | update status progress covered =>
      dsimp only [step] at hstep
      split at hstep
      · cases hstep
      · cases hstep
        exact (ih hrun hc hf).concat

/-- In every run, whenever a commit was acknowledged by follower `f`, an open record of the
session that names `f` was stored before its segment was sent: by the address of `f`, or by
the identity that address is bound to if the process runs with identities. -/
theorem fleet_ack_recorded {cfg : Config} {events : List Event} {s : State} {i : Nat} {c : Call}
    {f : Str} (hrun : run cfg {} events = some s) (hc : s.calls[i]? = some c)
    (hdone : c.phase = .done (some (.fleet f))) :
    ∃ before batch after s₀ r, events = before ++ .send batch :: after ∧ i ∈ batch ∧
      run cfg {} before = some s₀ ∧ OpenRecord cfg s₀ r ∧ Names cfg s₀.targets r f := by
  apply reached_sentAt hrun hc
  rw [hdone]
  exact List.mem_singleton_self f

/-! ## A follower that moved -/

def identifiedConfig : Config where
  node := ['p']
  session := ['s']
  identified := true
  nodeLog := true
  peerMgr := true
  uploader := true
  durability := .auto
  bucketWait := false

def follower : PeerIdentity := ⟨['q'], ['k']⟩

/-- The session is opened when the follower is at address `a`. It moves to address `b`, where
it acknowledges the segment of a second call. -/
def movedFollower : List Event :=
  [.call ⟨[], [], []⟩ 1 [['a']] false, .act 0 (.enter []), .act 0 (.resolve [some follower]),
    .act 0 (.prepare true), .act 0 (.create none), .act 0 .finish,
    .call ⟨[], [], []⟩ 1 [['b']] false, .act 1 (.enter [some follower]), .send [1],
    .act 1 (.ack ['b'])]

theorem fleet_ack_recorded_moved : ∃ s c before batch after s₀ r,
    run identifiedConfig {} movedFollower = some s ∧ s.calls[1]? = some c ∧
      c.phase = .done (some (.fleet ['b'])) ∧
      movedFollower = before ++ .send batch :: after ∧ 1 ∈ batch ∧
      run identifiedConfig {} before = some s₀ ∧ OpenRecord identifiedConfig s₀ r ∧
      Names identifiedConfig s₀.targets r ['b'] := by
  obtain ⟨s, hrun⟩ : ∃ s, run identifiedConfig {} movedFollower = some s := ⟨_, rfl⟩
  obtain ⟨c, hc, hdone⟩ : ∃ c, s.calls[1]? = some c ∧ c.phase = .done (some (.fleet ['b'])) := by
    cases hrun
    exact ⟨_, rfl, rfl⟩
  obtain ⟨before, batch, after, s₀, r, h⟩ := fleet_ack_recorded hrun hc hdone
  exact ⟨s, c, before, batch, after, s₀, r, hrun, hc, hdone, h⟩

/-- No record that was ever stored has the address `b`. -/
theorem moved_follower_address_missing : ∃ s c, run identifiedConfig {} movedFollower = some s ∧
    s.calls[1]? = some c ∧ c.phase = .done (some (.fleet ['b'])) ∧
    ∀ r ∈ s.stored, ['b'] ∉ r.followers ∧ r.followerRefs.lookup ['b'] = none := by
  obtain ⟨s, hrun⟩ : ∃ s, run identifiedConfig {} movedFollower = some s := ⟨_, rfl⟩
  refine ⟨s, ?_⟩
  cases hrun
  refine ⟨_, rfl, rfl, rfl, ?_⟩
  intro r hr
  rw [List.mem_singleton.1 hr]
  decide

end CellHive.Server.FleetSession
