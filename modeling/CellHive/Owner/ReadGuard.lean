import CellHive.Owner.Readers

/-!
# Read guards are sound

A check function compares the epoch and the revision of its scope with those it was
created under. Read as one number pair in lexicographic order, the stamp of a scope never
goes back: invalidations advance the revision, and dropping revisions advances the epoch.
So an equal stamp means that nothing happened to the scope in between.
-/

namespace CellHive.Owner

open Go Lease

/-! ## Counters -/

variable {key other : Str}

@[simp] theorem ScopeMap.count_raise_self (m : ScopeMap Nat) (key : Str) :
    ScopeMap.count (ScopeMap.raise m key) key = ScopeMap.count m key + 1 := by
  rw [ScopeMap.raise, ScopeMap.count, AList.lookup_insert]
  rfl

theorem ScopeMap.count_raise_ne (m : ScopeMap Nat) (h : key ≠ other) :
    ScopeMap.count (ScopeMap.raise m other) key = ScopeMap.count m key := by
  rw [ScopeMap.raise, ScopeMap.count, AList.lookup_insert_ne h]
  rfl

theorem ScopeMap.count_lower_ne (m : ScopeMap Nat) (h : key ≠ other) :
    ScopeMap.count (ScopeMap.lower m other) key = ScopeMap.count m key := by
  unfold ScopeMap.lower
  split
  · rw [ScopeMap.count, AList.lookup_insert_ne h]
    rfl
  · simp [ScopeMap.count, AList.lookup_erase_ne h]

/-! ## Stamps -/

namespace Caches

/-- The epoch and the revision of a scope, in lexicographic order. -/
def stamp (c : Caches) (key : Str) : Nat ×ₗ Nat := toLex (c.cacheEpoch, c.rev key)

variable {o : Orders} {r : Readings} {now : Time} {c : Caches} {key : Str}

/-- What trimming does to a scope: its stamp does not go back, and no release of it and
no route appears. -/
structure Trimmed (c c' : Caches) : Prop where
  stamp : ∀ key, c.stamp key ≤ c'.stamp key
  releasing : c'.releasing = c.releasing
  routes : c'.routes = c.routes
  flights : c'.routeFlights = c.routeFlights

theorem Trimmed.refl (c : Caches) : Trimmed c c := ⟨fun _ => le_refl _, rfl, rfl, rfl⟩

theorem Trimmed.trans {a b : Caches} (hab : Trimmed a b) (hbc : Trimmed b c) : Trimmed a c :=
  ⟨fun key => (hab.stamp key).trans (hbc.stamp key), hbc.releasing.trans hab.releasing,
    hbc.routes.trans hab.routes, hbc.flights.trans hab.flights⟩

theorem Trimmed.foldl {f : Caches → Str → Caches} (hf : ∀ c key, Trimmed c (f c key))
    (keys : List Str) (c : Caches) : Trimmed c (keys.foldl f c) := by
  induction keys generalizing c with
  | nil => exact Trimmed.refl c
  | cons key keys ih => exact (hf c key).trans (ih (f c key))

variable (o r now c key)

theorem trimmed_dropRev : Trimmed c (c.dropRev key) :=
  ⟨fun _ => le_of_lt (Prod.Lex.toLex_lt_toLex.2 (.inl (Nat.lt_succ_self _))), rfl, rfl, rfl⟩

theorem trimmed_evictIdle : Trimmed c (evictIdle now c key) := by
  unfold evictIdle
  split
  · exact Trimmed.refl c
  · split
    · exact ⟨fun _ => le_rfl, rfl, rfl, rfl⟩
    · exact Trimmed.refl c

theorem trimmed_evictExcess : Trimmed c (evictExcess c key) := by
  unfold evictExcess
  split
  · exact Trimmed.refl c
  · exact ⟨fun _ => le_rfl, rfl, rfl, rfl⟩

theorem trimmed_dropIdle : Trimmed c (dropIdle now c key) := by
  unfold dropIdle
  split
  · exact Trimmed.refl c
  split
  · exact trimmed_dropRev c key
  · split
    · exact trimmed_dropRev c key
    · exact Trimmed.refl c

theorem trimmed_dropExcess : Trimmed c (dropExcess c key) := by
  unfold dropExcess
  split
  · exact Trimmed.refl c
  · split
    · exact Trimmed.refl c
    · exact trimmed_dropRev c key

theorem trimmed_trimCaches : Trimmed c (c.trimCaches o now) := by
  have hcache : Trimmed c (c.trimCache o now) := by
    unfold trimCache
    split
    · exact Trimmed.refl c
    · exact (Trimmed.foldl (trimmed_evictIdle now) _ c).trans
        (Trimmed.foldl trimmed_evictExcess _ _)
  refine hcache.trans ?_
  unfold trimCaches trimRevs
  split
  · exact Trimmed.refl _
  · exact (Trimmed.foldl (trimmed_dropIdle now) _ _).trans (Trimmed.foldl trimmed_dropExcess _ _)

theorem stamp_advance_self : c.stamp key < (c.advance key now).stamp key := by
  refine Prod.Lex.toLex_lt_toLex.2 (.inr ⟨rfl, ?_⟩)
  simp [rev, advance]

variable {key} in
theorem stamp_advance_ne {other : Str} (h : key ≠ other) :
    (c.advance other now).stamp key = c.stamp key := by
  simp [stamp, rev, advance, ScopeMap.count_raise_ne _ h]

theorem stamp_invalidate_self : c.stamp key < (c.invalidate o r key).stamp key :=
  lt_of_lt_of_le (stamp_advance_self r.first c key)
    ((trimmed_trimCaches o r.second (c.advance key r.first)).stamp key)

theorem stamp_invalidate (other : Str) :
    c.stamp key ≤ (c.invalidate o r other).stamp key := by
  by_cases h : key = other
  · subst h
    exact le_of_lt (stamp_invalidate_self o r c key)
  · have htrim := (trimmed_trimCaches o r.second (c.advance other r.first)).stamp key
    rwa [stamp_advance_ne r.first c h] at htrim

theorem trimmed_invalidate : Trimmed (c.advance key r.first) (c.invalidate o r key) :=
  trimmed_trimCaches o r.second (c.advance key r.first)

theorem trimmed_finishResolve (rev : Nat) (answer : Option (Record × Str)) :
    Trimmed c (c.finishResolve o r key rev answer) := by
  unfold finishResolve
  split
  · exact ⟨fun _ => le_rfl, rfl, rfl, rfl⟩
  · refine Trimmed.trans ?_ (trimmed_trimCaches o r.second _)
    split
    all_goals exact ⟨fun _ => le_rfl, rfl, rfl, rfl⟩

end Caches

namespace Process

/-! ## One step -/

/-- The actions that change who owns a scope, as far as this process knows. -/
def Action.Ends (key : Str) : Action → Prop
  | .invalidate k _ => k = key
  | .beginRelease k _ => k = key
  | .endRelease k _ => k = key
  | _ => False

/-- What a lookup under way has read is covered by the lease. -/
def LookupCovered (l : Held) : Lookup → Prop
  | .started => True
  | .sampled localUntil _ => l.Covers localUntil
  | .answered c _ _ => c.isLocal = true → l.Covers c.deadline

theorem LookupCovered.later {l l' : Held} (h : Held.Later l l') :
    ∀ {k : Lookup}, LookupCovered l k → LookupCovered l' k
  | .started, _ => trivial
  | .sampled _ _, hk => Held.Covers.later hk h
  | .answered _ _ _, hk => fun hlocal => (hk hlocal).later h

/-- What holds of the parts of the state that guards rest on. A local deadline never
lies after the safe deadline of the lease. -/
structure Sound (s : Process) : Prop where
  routes : ∀ key c, s.caches.routes.lookup key = some c → c.isLocal = true →
    s.lease.Covers c.deadline
  flights : ∀ key f, s.caches.routeFlights.lookup key = some f → LookupCovered s.lease f.lookup
  publishing : ∀ expiry e, s.publishing = some expiry → s.lease.publishedExpiry = some e →
    e.mono ≤ expiry.mono

theorem sound_start (ttl : Int) (clock : Time) : Sound (start ttl clock) := by
  refine ⟨?_, ?_, ?_⟩
  · intro key c h
    simp [start, Caches.empty] at h
  · intro key f h
    simp [start, Caches.empty] at h
  · intro expiry e h
    simp [start] at h

/-- What a step leaves behind when it changes no owner: stamps, releases and guards stay,
the lease moves on. -/
structure Quiet (s s' : Process) : Prop where
  stamp : ∀ key, s.caches.stamp key ≤ s'.caches.stamp key
  releasing : s'.caches.releasing = s.caches.releasing
  lease : Held.Later s.lease s'.lease
  published : s'.lease.publishedExpiry = s.lease.publishedExpiry
  publishing : s'.publishing = s.publishing

variable {b s s' : Process} {key : Str} {id : Nat} {f : Fence} {r : Readings} {es : List Event}

theorem Quiet.trans {a c : Process} (hab : Quiet a b) (hbc : Quiet b c) : Quiet a c :=
  ⟨fun key => (hab.stamp key).trans (hbc.stamp key), hbc.releasing.trans hab.releasing,
    hab.lease.trans hbc.lease, hbc.published.trans hab.published,
    hbc.publishing.trans hab.publishing⟩

/-- The guards handed out stay, up to their being released. -/
def Kept (s s' : Process) : Prop :=
  ∀ id f, s.fences.lookup id = some f →
    ∃ b, s'.fences.lookup id = some { f with released := b }

theorem kept_of_eq (h : s'.fences = s.fences) : Kept s s' :=
  fun _ f hf => ⟨f.released, by rw [h]; exact hf⟩

theorem Kept.trans {a c : Process} (hab : Kept a b) (hbc : Kept b c) : Kept a c := by
  intro id f hf
  obtain ⟨x, hx⟩ := hab id f hf
  obtain ⟨y, hy⟩ := hbc id _ hx
  exact ⟨y, hy⟩

/-- A quiet step that keeps the guards, and whose new routes and lookups the lease covers. -/
structure Calm (s s' : Process) : Prop extends Quiet s s' where
  fences : Kept s s'
  routes : ∀ key c, s'.caches.routes.lookup key = some c → c.isLocal = true →
    s.caches.routes.lookup key = some c ∨ s'.lease.Covers c.deadline
  flights : ∀ key f, s'.caches.routeFlights.lookup key = some f →
    s.caches.routeFlights.lookup key = some f ∨ LookupCovered s'.lease f.lookup

theorem Calm.trans {a c : Process} (hab : Calm a b) (hbc : Calm b c) : Calm a c := by
  refine ⟨hab.toQuiet.trans hbc.toQuiet, hab.fences.trans hbc.fences, fun key r hr hlocal => ?_,
    fun key f hf => ?_⟩
  · obtain hold | hnew := hbc.routes key r hr hlocal
    · exact (hab.routes key r hold hlocal).imp_right (·.later hbc.lease)
    · exact .inr hnew
  · obtain hold | hnew := hbc.flights key f hf
    · exact (hab.flights key f hold).imp_right (·.later hbc.lease)
    · exact .inr hnew

theorem Sound.calm (h : Sound s) (hc : Calm s s') : Sound s' := by
  refine ⟨fun key c hr hlocal => ?_, fun key f hf => ?_, fun expiry e hx he => ?_⟩
  · obtain hold | hnew := hc.routes key c hr hlocal
    · exact (h.routes key c hold hlocal).later hc.lease
    · exact hnew
  · obtain hold | hnew := hc.flights key f hf
    · exact (h.flights key f hold).later hc.lease
    · exact hnew
  · rw [hc.publishing] at hx
    rw [hc.published] at he
    exact h.publishing expiry e hx he

theorem calm_lease (s : Process) {l : Held} (hl : Held.Later s.lease l)
    (hp : l.publishedExpiry = s.lease.publishedExpiry) : Calm s { s with lease := l } :=
  ⟨⟨fun _ => le_refl _, rfl, hl, hp, rfl⟩, kept_of_eq rfl, fun _ _ hc _ => .inl hc,
    fun _ _ hf => .inl hf⟩

theorem Calm.refl (s : Process) : Calm s s := calm_lease s (Held.Later.refl _) rfl

theorem calm_expired (s : Process) (now : Time) :
    Calm s { s with lease := s.lease.expired now } :=
  calm_lease s (Held.later_expired s.lease now) (by simp)

theorem calm_healthy (s : Process) (now after : Time) :
    Calm s { s with lease := s.lease.afterHealthy now after } :=
  calm_lease s (Held.later_afterHealthy s.lease now after) (by simp [Held.afterHealthy])

theorem calm_caches (s : Process) {c : Caches} (he : c.cacheEpoch = s.caches.cacheEpoch)
    (hr : c.cacheRev = s.caches.cacheRev) (hrel : c.releasing = s.caches.releasing)
    (hroutes : ∀ key r, c.routes.lookup key = some r → r.isLocal = true →
      s.caches.routes.lookup key = some r ∨ s.lease.Covers r.deadline)
    (hflights : ∀ key f, c.routeFlights.lookup key = some f →
      s.caches.routeFlights.lookup key = some f ∨ LookupCovered s.lease f.lookup) :
    Calm s { s with caches := c } :=
  ⟨⟨fun _ => by simp [Caches.stamp, Caches.rev, he, hr], hrel, Held.Later.refl _, rfl, rfl⟩,
    kept_of_eq rfl, hroutes, hflights⟩

theorem lookup_of_erase {α : Type} {m : ScopeMap α} {other : Str} {v : α}
    (h : (m.erase other).lookup key = some v) : m.lookup key = some v := by
  by_cases hk : key = other
  · subst hk
    simp at h
  · rwa [AList.lookup_erase_ne hk] at h

theorem lookup_of_insert {α : Type} {m : ScopeMap α} {other : Str} {v w : α}
    (h : (m.insert other w).lookup key = some v) : m.lookup key = some v ∨ v = w := by
  by_cases hk : key = other
  · subst hk
    rw [AList.lookup_insert] at h
    exact .inr (Option.some.inj h).symm
  · rw [AList.lookup_insert_ne hk] at h
    exact .inl h

/-! ### Routes -/

theorem calm_startFlight (s : Process) (key : Str) : Calm s (startFlight s key) := by
  unfold startFlight
  split
  · exact Calm.refl s
  · refine calm_caches s rfl rfl rfl (fun _ _ hc _ => .inl hc) fun k f hf => ?_
    obtain hold | rfl := lookup_of_insert hf
    · exact .inl hold
    · exact .inr trivial

theorem calm_dropRoute (s : Process) (key : Str) : Calm s (dropRoute s key) := by
  have herase : Calm s (eraseRoute s key) :=
    calm_caches s rfl rfl rfl (fun _ _ hc _ => .inl (lookup_of_erase hc)) fun _ _ hf => .inl hf
  exact herase.trans (calm_startFlight _ key)

theorem calm_setLookup (s : Process) (key : Str) (f : RouteFlight) {l : Lookup}
    (hl : LookupCovered s.lease l) : Calm s (setLookup s key f l) := by
  refine calm_caches s rfl rfl rfl (fun _ _ hc _ => .inl hc) fun k g hg => ?_
  obtain hold | rfl := lookup_of_insert hg
  · exact .inl hold
  · exact .inr hl

theorem calm_resolveRoute (m : Identity) (s : Process) (key : Str) (r : Readings) :
    Calm s (resolveRoute m s key r) := by
  unfold resolveRoute
  split
  · exact calm_startFlight s key
  split
  · split
    · split
      · have hhealthy := calm_healthy s r.first r.second
        split
        · -- the stored deadline is renewed to the present safe deadline
          have hx := Held.later_expired (s.lease.afterHealthy r.first r.second) r.third
          refine (hhealthy.trans (calm_expired _ r.third)).trans
            (calm_caches _ rfl rfl rfl ?_ fun _ _ hf => .inl hf)
          intro k c' hc' _
          obtain hold | rfl := lookup_of_insert hc'
          · exact .inl hold
          · exact .inr ((Held.covers_healthyUntil _ r.third).later hx)
        · exact hhealthy.trans (calm_dropRoute _ key)
      · exact calm_dropRoute s key
    · exact Calm.refl s
  · exact calm_dropRoute s key

theorem routeOf_local {m : Identity} {localUntil : Option Time} {issued now : Time}
    {owner : Record} {etag : Str} {peer : Option (Option NodeLease)} {c : OwnerRoute}
    (h : routeOf m localUntil issued now owner etag peer = some c) (hlocal : c.isLocal = true) :
    c.deadline = localUntil := by
  unfold routeOf at h
  split at h
  · cases h
    rfl
  split at h
  · split at h
    · cases h
    · cases h
      cases hlocal
    · split at h
      · cases h
        cases hlocal
      · cases h
        cases hlocal
  · cases h
    cases hlocal

theorem calm_routeAnswered (m : Identity) (s : Process) (key : Str) (f : RouteFlight)
    {localUntil : Option Time} (issued : Time) (answer : Option (Record × Str))
    (peer : Option (Option NodeLease)) (r : Readings) (hu : s.lease.Covers localUntil) :
    Calm s (routeAnswered m s key f localUntil issued answer peer r) := by
  unfold routeAnswered
  split
  · refine calm_setLookup s key f ?_
    intro hlocal
    cases hlocal
  rename_i c hc
  have hcov : c.isLocal = true → s.lease.Covers c.deadline := by
    intro hlocal
    obtain ⟨a, _, ha⟩ := Option.bind_eq_some_iff.1 hc
    rw [routeOf_local ha hlocal]
    exact hu
  split
  · have hhealthy := calm_healthy s r.second r.third
    exact hhealthy.trans (calm_setLookup _ key f fun hlocal => (hcov hlocal).later hhealthy.lease)
  · exact calm_setLookup s key f hcov

theorem lookup_putRoute {o : Orders} {c : Caches} {k : Str} {route x : OwnerRoute}
    (h : (c.putRoute o key route).routes.lookup k = some x) :
    c.routes.lookup k = some x ∨ x = route := by
  obtain hold | hnew := lookup_of_insert h
  · left
    split at hold
    · split at hold
      · exact hold
      · exact lookup_of_erase hold
    · exact hold
  · exact .inr hnew

theorem calm_routeDone (o : Orders) (s : Process) (key : Str) (f : RouteFlight) {c : OwnerRoute}
    (ok : Bool) (r : Readings) (hc : c.isLocal = true → s.lease.Covers c.deadline) :
    Calm s (routeDone o s key f c ok r) := by
  unfold routeDone
  split
  · refine calm_caches s rfl rfl rfl ?_ fun _ _ hg => .inl (lookup_of_erase hg)
    intro k x hx hlocal
    obtain hold | rfl := lookup_putRoute hx
    · exact .inl hold
    · exact .inr (hc hlocal)
  · exact calm_caches s rfl rfl rfl (fun _ _ hx _ => .inl hx) fun _ _ hg => .inl (lookup_of_erase hg)

/-! ### Guards -/

theorem calm_handOut (hid : s.fences.lookup id = none) (key : Str) (route : Option OwnerRoute) :
    Calm s (handOut s id key route) := by
  refine ⟨⟨fun _ => le_rfl, rfl, Held.Later.refl _, rfl, rfl⟩,
    fun i f hf => ?_, fun _ _ hc _ => .inl hc, fun _ _ hf => .inl hf⟩
  have hne : i ≠ id := by
    rintro rfl
    rw [hid] at hf
    cases hf
  exact ⟨f.released, by rw [handOut, AList.lookup_insert_ne hne]; exact hf⟩

theorem calm_localReadGuard (m : Identity) (hid : s.fences.lookup id = none) (key : Str)
    (r : Readings) : Calm s (localReadGuard m s id key r) := by
  unfold localReadGuard
  split
  · exact Calm.refl s
  split
  · have hhealthy := calm_healthy s r.first r.second
    split
    · refine hhealthy.trans (calm_handOut ?_ key _)
      exact hid
    · exact hhealthy
  · exact Calm.refl s

theorem calm_readFence (hid : s.fences.lookup id = none) (key : Str) :
    Calm s (readFence s id key) := by
  unfold readFence
  split
  · exact Calm.refl s
  · exact calm_handOut hid key none

theorem calm_checkedLease (m : Identity) (s : Process) (f : Fence) (r : Readings) :
    Calm s { s with lease := s.checkedLease m f r } := by
  unfold checkedLease
  split
  · exact Calm.refl s
  · split
    · exact calm_healthy s r.first r.second
    · exact Calm.refl s

theorem calm_check (m : Identity) (hid : s.fences.lookup id = some f) (r : Readings) :
    Calm s (s.check m id f r) := by
  have hcaches : Calm s { s with
      caches := if f.released then s.caches else s.caches.releaseGuard f.key } := by
    split
    · exact Calm.refl s
    · exact calm_caches s rfl rfl rfl (fun _ _ hc _ => .inl hc) fun _ _ hf => .inl hf
  have hboth := hcaches.trans
    (calm_lease _ (calm_checkedLease m s f r).lease (calm_checkedLease m s f r).published)
  refine ⟨⟨hboth.stamp, hboth.releasing, hboth.lease, hboth.published, hboth.publishing⟩, ?_,
    hboth.routes, hboth.flights⟩
  intro i g hg
  by_cases hi : i = id
  · subst hi
    rw [hid] at hg
    cases hg
    exact ⟨true, by rw [check, AList.lookup_insert]⟩
  · exact ⟨g.released, by rw [check, AList.lookup_insert_ne hi]; exact hg⟩

/-! ### All actions -/

structure Advances (a : Action) (s s' : Process) : Prop where
  stamp : ∀ key, s.caches.stamp key ≤ s'.caches.stamp key
  ends : ∀ key, a.Ends key → s.caches.stamp key < s'.caches.stamp key
  releasing : ∀ key, ¬ a.Ends key →
    ScopeMap.count s'.caches.releasing key = ScopeMap.count s.caches.releasing key
  lease : Held.Later s.lease s'.lease
  fences : Kept s s'

theorem Calm.advances {a : Action} (hc : Calm s s') (ha : ∀ key, ¬ a.Ends key) (h : Sound s) :
    Sound s' ∧ Advances a s s' :=
  ⟨h.calm hc, hc.stamp, fun key hends => absurd hends (ha key), fun _ _ => by rw [hc.releasing],
    hc.lease, hc.fences⟩

theorem invalidate_spec (h : Sound s) (o : Orders) (r : Readings) (key : Str) {rel : ScopeMap Nat}
    (hrel : ∀ k, k ≠ key → ScopeMap.count rel k = ScopeMap.count s.caches.releasing k) {a : Action}
    (ha : ∀ k, a.Ends k ↔ key = k) :
    Sound { s with caches := Caches.invalidate o r { s.caches with releasing := rel } key } ∧
      Advances a s
        { s with caches := Caches.invalidate o r { s.caches with releasing := rel } key } := by
  have hstamp : ∀ k, s.caches.stamp k = ({ s.caches with releasing := rel } : Caches).stamp k :=
    fun k => rfl
  refine ⟨⟨?_, ?_, h.publishing⟩, ?_, ?_, ?_, Held.Later.refl _, kept_of_eq rfl⟩
  · intro k c hc hlocal
    rw [(Caches.trimmed_invalidate ..).routes] at hc
    exact h.routes k c (lookup_of_erase hc) hlocal
  · intro k f hf
    rw [(Caches.trimmed_invalidate ..).flights] at hf
    exact h.flights k f hf
  · intro k
    rw [hstamp]
    exact Caches.stamp_invalidate o r _ k key
  · intro k hk
    rw [ha] at hk
    subst hk
    rw [hstamp]
    exact Caches.stamp_invalidate_self o r _ key
  · intro k hk
    rw [ha] at hk
    rw [(Caches.trimmed_invalidate ..).releasing]
    exact hrel k fun h' => hk h'.symm

variable {m : Identity}

theorem publish_spec (h : Sound s) (hact : act m s r .beginPublish = some s') :
    Sound s' ∧ Advances .beginPublish s s' := by
  simp only [act] at hact
  split at hact
  · cases hact
  split at hact
  · cases hact
    exact (calm_expired s r.first).advances (fun _ => not_false) h
  cases hact
  refine ⟨⟨h.routes, h.flights, ?_⟩, ?_⟩
  · intro expiry e hx he
    cases hx
    exact Held.deadline_ge s.lease r.second he
  · exact ⟨fun _ => le_refl _, fun _ hends => hends.elim, fun _ _ => rfl, Held.Later.refl _,
      kept_of_eq rfl⟩

theorem settle_spec (h : Sound s) {w : Held.Written}
    (hact : act m s r (.endPublish w) = some s') : Sound s' ∧ Advances (.endPublish w) s s' := by
  simp only [act] at hact
  split at hact
  · cases hact
  rename_i expiry hx
  cases hact
  have hl : Held.Later s.lease (s.lease.settle expiry r.first w) :=
    Held.later_settle s.lease w fun e he => h.publishing expiry e hx he
  refine ⟨⟨?_, ?_, ?_⟩, ?_⟩
  · intro key c hc hlocal
    exact (h.routes key c hc hlocal).later hl
  · intro key f hf
    exact (h.flights key f hf).later hl
  · intro _ _ hnone
    cases hnone
  · exact ⟨fun _ => le_refl _, fun _ hends => hends.elim, fun _ _ => rfl, hl, kept_of_eq rfl⟩

theorem act_spec (h : Sound s) {a : Action} (hact : act m s r a = some s') :
    Sound s' ∧ Advances a s s' := by
  have hnever : ∀ _ : Str, ¬ False := fun _ => not_false
  cases a with
  | invalidate key o =>
    cases hact
    exact invalidate_spec h o r key (fun _ _ => rfl) fun _ => Iff.rfl
  | beginRelease key o =>
    cases hact
    exact invalidate_spec h o r key (fun _ hk => ScopeMap.count_raise_ne _ hk) fun _ => Iff.rfl
  | endRelease key o =>
    simp only [act] at hact
    split at hact
    · cases hact
      exact invalidate_spec h o r key (fun _ hk => ScopeMap.count_lower_ne _ hk) fun _ => Iff.rfl
    · cases hact
  | resolveCached key ttl =>
    simp only [act] at hact
    split at hact
    · cases hact
      exact (Calm.refl s).advances hnever h
    · cases hact
      exact ⟨⟨h.routes, h.flights, h.publishing⟩, fun _ => le_refl _, fun _ hends => hends.elim,
        fun _ _ => rfl, Held.Later.refl _, kept_of_eq rfl⟩
  | resolvedCached call answer o =>
    simp only [act] at hact
    split at hact
    · cases hact
    rename_i key rev _
    cases hact
    have ht := Caches.trimmed_finishResolve o r s.caches key rev answer
    refine Calm.advances ⟨⟨ht.stamp, ht.releasing, Held.Later.refl _, rfl, rfl⟩, kept_of_eq rfl,
      fun k c hc _ => ?_, fun k f hf => ?_⟩ hnever h
    · exact .inl (ht.routes ▸ hc)
    · exact .inl (ht.flights ▸ hf)
  | resolveRoute key =>
    cases hact
    exact (calm_resolveRoute m s key r).advances hnever h
  | sampleLease key =>
    simp only [act] at hact
    split at hact
    · split at hact
      · cases hact
        have hexpired := calm_expired s r.first
        have hcov := (Held.covers_healthyUntil s.lease r.first).later hexpired.lease
        refine (hexpired.trans (calm_setLookup _ key _ ?_)).advances hnever h
        exact hcov
      · cases hact
        refine (calm_setLookup s key _ ?_).advances hnever h
        exact Held.covers_none _
    · cases hact
  | routeAnswered key answer peer =>
    simp only [act] at hact
    split at hact
    · rename_i rev localUntil issued hf
      cases hact
      exact (calm_routeAnswered m s key _ issued answer peer r (h.flights key _ hf)).advances
        hnever h
    · cases hact
  | routeDone key o =>
    simp only [act] at hact
    split at hact
    · rename_i rev c ok retry hf
      cases hact
      exact (calm_routeDone o s key _ ok r (h.flights key _ hf)).advances hnever h
    · cases hact
  | localReadGuard id key =>
    simp only [act] at hact
    split at hact
    · cases hact
    rename_i hid
    cases hact
    exact (calm_localReadGuard m (by simpa using hid) key r).advances hnever h
  | readFence id key =>
    simp only [act] at hact
    split at hact
    · cases hact
    rename_i hid
    cases hact
    exact (calm_readFence (by simpa using hid) key).advances hnever h
  | check id =>
    simp only [act] at hact
    split at hact
    · cases hact
    rename_i f hf
    cases hact
    exact (calm_check m hf r).advances hnever h
  | beginPublish => exact publish_spec h hact
  | endPublish w => exact settle_spec h hact
  | watchFenced =>
    cases hact
    exact (calm_expired s r.first).advances hnever h
  | watchHealthy =>
    cases hact
    exact (calm_healthy s r.first r.second).advances hnever h

/-! ## Runs -/

theorem step_spec {e : Event} (h : Sound s) (hstep : step m s e = some s') :
    Sound s' ∧ Advances e.action s s' ∧ s.clock.mono ≤ e.readings.first.mono ∧
      s'.clock = e.readings.third := by
  unfold step at hstep
  split at hstep
  · rename_i hclock
    obtain ⟨t, ht, rfl⟩ := Option.map_eq_some_iff.1 hstep
    obtain ⟨hs, ha⟩ := act_spec h ht
    exact ⟨⟨hs.routes, hs.flights, hs.publishing⟩,
      ⟨ha.stamp, ha.ends, ha.releasing, ha.lease, ha.fences⟩, hclock, rfl⟩
  · cases hstep

/-- What a run leaves behind: stamps, the lease and the clock move on, guards stay. -/
structure Continues (s s' : Process) : Prop where
  sound : Sound s'
  stamp : ∀ key, s.caches.stamp key ≤ s'.caches.stamp key
  lease : Held.Later s.lease s'.lease
  fences : Kept s s'

theorem Continues.refl (h : Sound s) : Continues s s :=
  ⟨h, fun _ => le_refl _, Held.Later.refl _, kept_of_eq rfl⟩

theorem continues_run (h : Sound s) (hrun : run m s es = some s') :
    Continues s s' := by
  induction es generalizing s with
  | nil =>
    cases hrun
    exact Continues.refl h
  | cons e es ih =>
    obtain ⟨t, ht, hrest⟩ := Option.bind_eq_some_iff.1 hrun
    obtain ⟨hs, ha, -, -⟩ := step_spec h ht
    have hc := ih hs hrest
    exact ⟨hc.sound, fun key => (ha.stamp key).trans (hc.stamp key), ha.lease.trans hc.lease,
      ha.fences.trans hc.fences⟩

theorem run_append {fs : List Event} :
    run m s (es ++ fs) = some s' ↔ ∃ t, run m s es = some t ∧ run m t fs = some s' := by
  induction es generalizing s with
  | nil => simp [run]
  | cons e es ih =>
    simp only [List.cons_append, run, Option.bind_eq_some_iff, ih]
    constructor
    · rintro ⟨u, hu, t, ht, hrest⟩
      exact ⟨t, ⟨u, hu, ht⟩, hrest⟩
    · rintro ⟨t, ⟨u, hu, ht⟩, hrest⟩
      exact ⟨u, hu, t, ht, hrest⟩

theorem clock_run (h : Sound s) (hrun : run m s es = some s') :
    s.clock.mono ≤ s'.clock.mono := by
  induction es generalizing s with
  | nil =>
    cases hrun
    exact Int.le_refl _
  | cons e es ih =>
    obtain ⟨t, ht, hrest⟩ := Option.bind_eq_some_iff.1 hrun
    obtain ⟨hs, -, hle, hclock⟩ := step_spec h ht
    have hthird := e.readings.ordered.1.trans e.readings.ordered.2
    have hrec := ih hs hrest
    rw [hclock] at hrec
    omega

/-- A run after which the stamp of a scope is what it was changed nothing about the
scope. -/
theorem same_stamp_run (h : Sound s) (hrun : run m s es = some s')
    (hstamp : s'.caches.stamp key = s.caches.stamp key) : (∀ e ∈ es, ¬ e.action.Ends key) ∧
      ScopeMap.count s'.caches.releasing key = ScopeMap.count s.caches.releasing key := by
  induction es generalizing s with
  | nil =>
    cases hrun
    exact ⟨fun _ he => absurd he List.not_mem_nil, rfl⟩
  | cons e es ih =>
    obtain ⟨t, ht, hrest⟩ := Option.bind_eq_some_iff.1 hrun
    obtain ⟨hs, ha, -, -⟩ := step_spec h ht
    have hle := (continues_run hs hrest).stamp key
    rw [hstamp] at hle
    have hends : ¬ e.action.Ends key := fun he => absurd hle (not_le_of_gt (ha.ends key he))
    have heq : s'.caches.stamp key = t.caches.stamp key :=
      hstamp.trans (le_antisymm (ha.stamp key) hle)
    obtain ⟨hes, hcount⟩ := ih hs hrest heq
    refine ⟨?_, hcount.trans (ha.releasing key hends)⟩
    intro e' he'
    obtain rfl | he' := List.mem_cons.1 he'
    · exact hends
    · exact hes e' he'

/-! ## Guards that pass -/

/-- How a guard comes about: its stamp is that of its scope, which no release is under
way for, and the route it keeps is a local one with a deadline the lease covers. -/
structure Issued (s : Process) (key : Str) (f : Fence) : Prop where
  scope : f.key = key
  stamp : s.caches.stamp key = toLex (f.epoch, f.rev)
  releasing : ScopeMap.count s.caches.releasing key = 0
  route : ∀ c, f.route = some c → s.lease.Covers c.deadline

theorem issued_handOut {route : Option OwnerRoute}
    (hf : (handOut s id key route).fences.lookup id = some f)
    (hrel : ScopeMap.count s.caches.releasing key = 0)
    (hroute : ∀ c, route = some c → s.lease.Covers c.deadline) :
    Issued (handOut s id key route) key f ∧ f.route = route := by
  rw [handOut, AList.lookup_insert] at hf
  cases hf
  exact ⟨⟨rfl, rfl, hrel, hroute⟩, rfl⟩

theorem localReadGuard_issued (h : Sound s) (hnone : s.fences.lookup id = none)
    (hf : (localReadGuard m s id key r).fences.lookup id = some f) :
    Issued (localReadGuard m s id key r) key f ∧ f.route.isSome := by
  cases hc : s.caches.routes.lookup key with
  | none =>
    simp [localReadGuard, hc, hnone] at hf
  | some c =>
    by_cases hg : guardable m s key c r.first = true
    · by_cases hh : s.lease.healthy r.first r.second = true
      · have heq : localReadGuard m s id key r =
            handOut { s with lease := s.lease.afterHealthy r.first r.second } id key (some c) := by
          simp [localReadGuard, hc, hg, hh]
        rw [heq] at hf ⊢
        simp only [guardable, Bool.and_eq_true, decide_eq_true_eq] at hg
        have hcov : ∀ c', some c = some c' →
            (s.lease.afterHealthy r.first r.second).Covers c'.deadline := by
          intro c' hc'
          cases hc'
          exact (h.routes key c hc hg.1.1.1).later (Held.later_afterHealthy _ _ _)
        obtain ⟨hi, hroute⟩ := issued_handOut hf hg.1.2 hcov
        exact ⟨hi, by rw [hroute]; rfl⟩
      · simp [localReadGuard, hc, hg, hh, hnone] at hf
    · simp [localReadGuard, hc, hg, hnone] at hf

theorem readFence_issued (hnone : s.fences.lookup id = none)
    (hf : (readFence s id key).fences.lookup id = some f) : Issued (readFence s id key) key f := by
  unfold readFence at hf ⊢
  split at hf
  · rw [hnone] at hf
    cases hf
  · rename_i hbusy
    rw [if_neg hbusy]
    exact (issued_handOut hf (Nat.eq_zero_of_not_pos hbusy) (fun _ hc => nomatch hc)).1

theorem issued_of_guard {s₁ : Process} {g : Event} (h : Sound s)
    (hguard : g.action = .localReadGuard id key ∨ g.action = .readFence id key)
    (hstep : step m s g = some s₁) (hf : s₁.fences.lookup id = some f) :
    Issued s₁ key f ∧ (g.action = .localReadGuard id key → f.route.isSome) := by
  unfold step at hstep
  split at hstep
  swap
  · cases hstep
  obtain ⟨t, ht, rfl⟩ := Option.map_eq_some_iff.1 hstep
  have hclock : ∀ {t : Process} {now : Time}, Issued t key f → Issued { t with clock := now } key f :=
    fun hi => ⟨hi.scope, hi.stamp, hi.releasing, hi.route⟩
  obtain hg | hg := hguard
  · rw [hg] at ht
    simp only [act] at ht
    split at ht
    · cases ht
    rename_i hid
    cases ht
    obtain ⟨hi, hroute⟩ := localReadGuard_issued h (by simpa using hid) hf
    exact ⟨hclock hi, fun _ => hroute⟩
  · rw [hg] at ht ⊢
    simp only [act] at ht
    split at ht
    · cases ht
    rename_i hid
    cases ht
    refine ⟨hclock (readFence_issued (by simpa using hid) hf), fun hlocal => ?_⟩
    cases hlocal

theorem passes_stamp (h : s.passes m f r = true) :
    s.caches.stamp f.key = toLex (f.epoch, f.rev) := by
  simp only [passes, unchanged, Bool.and_eq_true, decide_eq_true_eq] at h
  simp [Caches.stamp, h.1.1.1, h.1.1.2]

theorem passes_route {c : OwnerRoute} (h : s.passes m f r = true)
    (hc : f.route = some c) : s.lease.healthy r.first r.second = true ∧
      (∃ d, c.deadline = some d ∧ r.first.mono < d.mono) ∧
      r.first.unixMilli < c.wallExpiry := by
  simp only [passes, hc, sameRoute, unexpired, Bool.and_eq_true, decide_eq_true_eq,
    beforeZero_iff] at h
  exact ⟨h.2.2, h.2.1.2.1, h.2.1.2.2⟩

def Event.atSecond (n : Int) (a : Action) : Event :=
  ⟨a, Readings.still ⟨n * second, n * second⟩⟩

def guardNode : Identity := ⟨"n1", "s1", .manager "n1" "s1"⟩

/-- The record of a scope that manager owns. -/
def guardRecord : Record :=
  ⟨"n1", .cellAgent, "s1", 1, 0, .nodeLease, "", "", "v1"⟩

/-- The manager publishes its lease of ten seconds and learns that it owns scope `a`. -/
def learnsOwner : List Event :=
  [.atSecond 1 .beginPublish, .atSecond 1 (.endPublish .stored),
    .atSecond 2 (.resolveRoute ['a']), .atSecond 2 (.sampleLease ['a']),
    .atSecond 2 (.routeAnswered ['a'] (some (guardRecord, [])) none),
    .atSecond 3 (.routeDone ['a'] .asIs)]

/-- What happens while scope `a` is read: another scope is released, and the lease is
renewed. -/
def elsewhere : List Event :=
  [.atSecond 5 (.beginRelease ['b'] .asIs), .atSecond 5 .beginPublish,
    .atSecond 6 (.endRelease ['b'] .asIs), .atSecond 6 (.endPublish .stored)]

end Process

end CellHive.Owner
