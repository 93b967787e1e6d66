import CellHive.Fencing.Linear

/-!
# What the calls do

One specification for each program. A change of the fence is stored over the fence it was
computed from. A write that succeeds has seen, after all its creates, a fence that does not
block its epoch, if its last check went to the bucket.
-/

namespace CellHive.Fencing

open Go Ltx Bucket Concurrent Replica Replica.Manager

section Specs

variable {kind : Bool} {base : Fence} {i m rounds : Nat} {s : Traced ops World}

/-! ## Changing the fence -/

def Stored (i : Nat) (u : Update) (trace : List (Step ops)) : Prop :=
  ∃ step ∈ trace, step.thread = i ∧ (storedBy step).map (·.1) = some u

variable {u : Update} {t t' : List (Step ops)} {f' : Fence} {s₀ : Traced ops World}
  {key scope : Key}

theorem Stored.mono (h : Stored i u t) (ht : t <+: t') : Stored i u t' := by
  obtain ⟨step, hstep, hrest⟩ := h
  exact ⟨step, ht.subset hstep, hrest⟩

def UpdatePost (kind : Bool) (base : Fence) (i : Nat) (u : Update) (s : Traced ops World)
    (res : Res Unit) (s' : Traced ops World) : Prop :=
  Evolves kind base s s' ∧ (res = .ok () → Stored i u s'.trace)

theorem createFence_spec (hkind : kind = false) (hnamed : u.Named)
    (hchange : u.change {} = .ok f') :
    Spec exec (Evolves kind base) i (ask (.createFence (some u) (some f')))
      (fun r s' => Evolves kind base s s' ∧ (∀ tag, r = .ok tag → Stored i u s'.trace)) s := by
  apply Spec.perform
  intro s₁ hs _ c r x hexec
  rcases exec_createFence hexec with ⟨⟨e, rfl⟩, hfence, hleg⟩ | ⟨rfl, hnone, hfence, hleg⟩
  · have hstep : Evolves kind base s₁ (s₁.push i (.createFence (some u) (some f')) (.error e) x) :=
      evolves_quiet rfl hfence hleg
    exact ⟨hstep, hs.trans hstep, fun _ => nofun⟩
  · have hstep : Evolves kind base s₁ (s₁.push i (.createFence (some u) (some f'))
        (.ok s₁.shared.fence.fresh) x) := by
      refine evolves_update rfl hfence hleg hnamed hchange fun hinv => ?_
      obtain ⟨hempty, hbase⟩ := hinv.absent hnone
      simp only [BaseOf, hnone, hkind, Bool.false_eq_true, if_false] at hbase
      rw [hempty, hbase]
      exact .start
    refine ⟨hstep, hs.trans hstep, fun tag _ => ?_⟩
    exact ⟨_, List.mem_append_right _ List.mem_cons_self, rfl, rfl⟩

theorem casFence_spec {f : Fence} {tag : Nat} (hnamed : u.Named) (hchange : u.change f = .ok f')
    (hlt : tag < s.shared.fence.fresh)
    (hknown : ∀ y ∈ s.shared.fence.cur, y.2 = tag → y.1 = some f) :
    Spec exec (Evolves kind base) i (ask (.casFence u f' tag))
      (fun r s' => Evolves kind base s s' ∧ (r = .ok () → Stored i u s'.trace)) s := by
  apply Spec.perform
  intro s₁ hs _ c r x hexec
  rcases exec_casFence hexec with ⟨⟨e, rfl⟩, hfence, hleg⟩ | ⟨rfl, ⟨content, hcur⟩, hfence, hleg⟩
  · have hstep : Evolves kind base s₁ (s₁.push i (.casFence u f' tag) (.error e) x) :=
      evolves_quiet rfl hfence hleg
    exact ⟨hstep, hs.trans hstep, nofun⟩
  · have hstep : Evolves kind base s₁ (s₁.push i (.casFence u f' tag) (.ok ()) x) := by
      refine evolves_update rfl hfence hleg hnamed hchange fun hinv => ?_
      have hsame := hknown _ (hs.fence.2 _ hcur hlt) rfl
      dsimp only at hsame
      rw [hsame] at hcur
      exact hinv.reached f tag hcur
    refine ⟨hstep, hs.trans hstep, fun _ => ?_⟩
    exact ⟨_, List.mem_append_right _ List.mem_cons_self, rfl, rfl⟩

theorem storeFence_spec {f : Fence} {etag : Option Nat} (hnamed : u.Named)
    (hchange : u.change f = .ok f') (hfresh : FreshRead kind base i s₀ s f etag) :
    Spec exec (Evolves kind base) i (storeFence u f' etag) (UpdatePost kind base i u s) s := by
  cases kind with
  | false =>
    obtain ⟨rfl, rfl⟩ := hfresh.plain rfl
    refine Spec.seq (createFence_spec rfl hnamed hchange) ?_
    rintro r s₁ ⟨hs, hdone⟩
    cases r with
    | ok tag => exact ⟨hs, fun _ => hdone tag rfl⟩
    | error e => exact ⟨hs, nofun⟩
  | true =>
    obtain ⟨tag, rfl, hlt, hknown⟩ := hfresh.known rfl
    exact casFence_spec hnamed hchange hlt hknown

theorem updateFrom_spec (hnamed : u.Named) (attempts : Nat) : ∀ s, Inv kind base s →
      Spec exec (Evolves kind base) i (updateFrom kind m u attempts) (UpdatePost kind base i u s)
        s := by
  induction attempts with
  | zero => exact fun s _ => ⟨.refl s, nofun⟩
  | succ attempts ih =>
    intro s hinv
    refine Spec.seq (readResourceFenceFresh_spec hinv) ?_
    rintro res s₁ ⟨hpass, hread⟩
    rcases res with e | read
    · exact ⟨hpass.evolves, nofun⟩
    obtain ⟨f, etag⟩ := read
    dsimp only
    rcases hchange : u.change f with e | f'
    · exact ⟨hpass.evolves, nofun⟩
    refine Spec.seq (storeFence_spec hnamed hchange (hread f etag rfl)) ?_
    rintro stored s₂ ⟨hs, hdone⟩
    have hs' := hpass.evolves.trans hs
    cases stored with
    | ok _ =>
      apply Spec.bind
      refine spec_quiet rfl (fun _ => rfl) fun s₃ c r x _ _ hpass' => ?_
      exact ⟨hs'.trans hpass'.evolves, fun _ => (hdone rfl).mono hpass'.evolves.trace⟩
    | error e =>
      dsimp only
      split
      · exact (ih s₂ (hs'.inv hinv)).mono fun res s₃ h => ⟨hs'.trans h.1, h.2⟩
      · exact ⟨hs', nofun⟩

theorem updateResourceFence_spec (hnamed : u.Named) (hinv : Inv kind base s) :
    Spec exec (Evolves kind base) i (updateResourceFence kind m u) (UpdatePost kind base i u s)
      s := by
  apply Spec.bind
  refine spec_quiet rfl (fun _ => rfl) fun s₁ c r x _ _ hpass => ?_
  refine Spec.seq (updateFrom_spec hnamed 8 _ (hpass.evolves.inv hinv)) ?_
  rintro res s₂ ⟨hs, hdone⟩
  apply Spec.bind
  refine spec_quiet rfl (fun _ => rfl) fun s₃ c r x _ _ hpass' => ?_
  exact ⟨(hpass.evolves.trans hs).trans hpass'.evolves, fun hok =>
    (hdone hok).mono hpass'.evolves.trace⟩

/-! ## Reading through the cache -/

/-- The lookup was answered from the cache, or from a read of somebody else. -/
def sharedLookup (step : Step ops) : Bool :=
  match step.op, step.reply with
  | .lookup _ _, .ok .hit => true
  | .lookup _ _, .ok (.join _) => true
  | _, _ => false

/-- Every lookup of the thread led to a read of its own. -/
def Unshared (i : Nat) (trace : List (Step ops)) : Prop :=
  ∀ step ∈ trace, step.thread = i → sharedLookup step = false

theorem Unshared.mono (h : Unshared i t') (ht : t <+: t') : Unshared i t :=
  fun step hstep => h step (ht.subset hstep)

/-- The fence was the current one at a moment after which the thread created nothing. -/
def SeenAt (base : Fence) (i : Nat) (s s' : Traced ops World) (f : Fence) : Prop :=
  ∃ t, s.trace <+: t ∧ Idle i t s'.trace ∧ Reaches base (updates t) f

def SharedPost (kind : Bool) (base : Fence) (i : Nat) (s : Traced ops World) (res : Res FenceRead)
    (s' : Traced ops World) : Prop :=
  Passed kind base i s s' ∧ ∀ f etag, res = .ok (f, etag) → kind = true →
    Unshared i s'.trace → SeenAt base i s s' f

theorem SharedPost.earlier {s₁ s₂ : Traced ops World} {res : Res FenceRead}
    (h : SharedPost kind base i s₁ res s₂) (hpass : Passed kind base i s₀ s₁) :
    SharedPost kind base i s₀ res s₂ := by
  refine ⟨hpass.trans h.1, fun f etag hres hkind hun => ?_⟩
  obtain ⟨t, ht, hrest⟩ := h.2 f etag hres hkind hun
  exact ⟨t, hpass.evolves.trace.trans ht, hrest⟩

/-- A read that found its fence in the cache or with somebody else promises nothing. -/
theorem SharedPost.of_shared {op : Op} {r : Reply op} {x : World} {s' : Traced ops World}
    {res : Res FenceRead} (hshared : sharedLookup ⟨i, op, r⟩ = true)
    (hpass : Passed kind base i s₀ (s.push i op r x))
    (hpass' : Passed kind base i (s.push i op r x) s') : SharedPost kind base i s₀ res s' := by
  refine ⟨hpass.trans hpass', fun f etag _ _ hun => ?_⟩
  have hmem : (⟨i, op, r⟩ : Step ops) ∈ s'.trace :=
    hpass'.evolves.trace.subset (List.mem_append_right _ List.mem_cons_self)
  exact absurd (hun _ hmem rfl) (by simp [hshared])

theorem readResourceFenceShared_spec (refresh : Bool) (rounds : Nat) :
    ∀ s, Inv kind base s → Spec exec (Evolves kind base) i
      (readResourceFenceShared kind m refresh rounds) (SharedPost kind base i s) s := by
  induction rounds with
  | zero => exact fun s _ => ⟨.refl s, fun _ _ => nofun⟩
  | succ rounds ih =>
    intro s hinv
    apply Spec.bind
    refine spec_quiet rfl (fun _ => rfl) fun s₁ c r x _ _ hpass => ?_
    rcases r with e | found
    · exact ⟨hpass, fun _ _ => nofun⟩
    cases found with
    | hit => exact .of_shared rfl hpass (.refl _)
    | join flight =>
      apply Spec.bind
      refine spec_quiet rfl (fun _ => rfl) fun s₂ c r x _ _ hpass₂ => ?_
      rcases r with e | out
      · exact ⟨hpass.trans hpass₂, fun _ _ => nofun⟩
      obtain ⟨res, again⟩ := out
      dsimp only
      split
      · refine (ih _ ((hpass.trans hpass₂).evolves.inv hinv)).mono fun res s₃ h => ?_
        exact .of_shared rfl hpass (hpass₂.trans h.1)
      · exact .of_shared rfl hpass hpass₂
    | own flight rev =>
      refine Spec.seq (readResourceFenceFresh_spec (hpass.evolves.inv hinv)) ?_
      rintro res s₂ ⟨hpass₂, hread⟩
      refine Spec.seq (P := fun _ s₃ => Passed kind base i s₂ s₃) ?_ ?_
      · cases res with
        | error e => exact .refl s₂
        | ok read => exact spec_quiet rfl (fun _ => rfl) fun _ _ _ _ _ _ hpass₃ => hpass₃
      · intro _ s₃ hpass₃
        apply Spec.bind
        refine spec_quiet rfl (fun _ => rfl) fun s₄ c r x _ _ hpass₄ => ?_
        have hpass' := ((hpass.trans hpass₂).trans hpass₃).trans hpass₄
        cases r with
        | true =>
          refine ⟨hpass', fun f etag hres hkind _ => ?_⟩
          obtain ⟨t, ht, hidle, hreach⟩ := (hread f etag hres).readAt hkind
          exact ⟨t, hpass.evolves.trace.trans ht, hidle.trans (hpass₃.idle.trans hpass₄.idle),
            hreach⟩
        | false => exact (ih _ (hpass'.evolves.inv hinv)).mono fun res s₅ h => h.earlier hpass'

theorem readResourceFence_spec (hinv : Inv kind base s) :
    Spec exec (Evolves kind base) i (readResourceFence kind m rounds) (SharedPost kind base i s)
      s := by
  unfold readResourceFence
  split
  next hkind => exact ⟨.refl s, by simp [hkind]⟩
  · exact readResourceFenceShared_spec false rounds s hinv

/-! ## Writing -/

/-- After all its creates the thread has seen a fence that lets its epoch pass. -/
def Cleared (base : Fence) (i : Nat) (epoch : UInt64) (trace : List (Step ops)) : Prop :=
  ∃ t f, Idle i t trace ∧ Reaches base (updates t) f ∧ f.blocks epoch = false

theorem Cleared.idle {epoch : UInt64} (h : Cleared base i epoch t) (hidle : Idle i t t') :
    Cleared base i epoch t' := by
  obtain ⟨t₀, f, hidle₀, hrest⟩ := h
  exact ⟨t₀, f, hidle₀.trans hidle, hrest⟩

def WritePost (kind : Bool) (base : Fence) (i : Nat) (epoch : UInt64) (s : Traced ops World)
    (res : Res Unit) (s' : Traced ops World) : Prop :=
  Evolves kind base s s' ∧ (res = .ok () → kind = true → Unshared i s'.trace →
    Cleared base i epoch s'.trace)

abbrev Writes (kind : Bool) (base : Fence) (i : Nat) (epoch : UInt64) (write : Prog ops (Res Unit))
    (s : Traced ops World) : Prop :=
  Spec exec (Evolves kind base) i write (WritePost kind base i epoch s) s

variable {epoch : UInt64}

theorem WritePost.error {s' : Traced ops World} {e : Err} (h : Evolves kind base s s') :
    WritePost kind base i epoch s (.error e) s' := ⟨h, nofun⟩

theorem WritePost.earlier {s₁ s₂ : Traced ops World} {res : Res Unit}
    (h : WritePost kind base i epoch s₁ res s₂) (hs : Evolves kind base s₀ s₁) :
    WritePost kind base i epoch s₀ res s₂ := ⟨hs.trans h.1, h.2⟩

theorem spec_of_quiet {α : Type} {p : Prog ops α} (hp : p.Within fun op : Op => op.quiet = true) :
    Spec exec (Evolves kind base) i p (fun _ s' => Evolves kind base s s') s :=
  ((Spec.of_within hp fun _ hop _ _ _ _ hexec => evolves_of_quiet hop hexec).reached Evolves.refl
    fun _ _ _ => Evolves.trans).mono fun _ _ h => h.1

theorem createSegment_quiet {data : Bytes} :
    (createSegment key data).Within fun op : Op => op.quiet = true := by
  refine .perform_bind rfl fun r => ?_
  cases r with
  | ok tag => trivial
  | error e =>
    dsimp only
    split
    · refine .perform_bind rfl fun r => ?_
      rcases r with e | old
      · trivial
      dsimp only
      split <;> trivial
    · trivial

theorem cleanUp_quiet {created : Option Nat} :
    (cleanUp key created).Within fun op : Op => op.quiet = true := by
  rcases created with _ | tag
  · trivial
  refine .perform_bind rfl fun r => ?_
  cases r with
  | ok _ => trivial
  | error e =>
    dsimp only
    split <;> trivial

theorem claimKey_quiet {seg : Bytes} :
    (claimKey epoch key seg).Within fun op : Op => op.quiet = true := by
  refine .perform_bind rfl fun r => ?_
  cases r with
  | ok _ => trivial
  | error e =>
    dsimp only
    split
    · refine .perform_bind rfl fun r => ?_
      rcases r with e | old
      · trivial
      dsimp only
      split <;> trivial
    · trivial

variable (hinv : Inv kind base s)
include hinv

theorem checked_spec {write : Prog ops (Res Unit)}
    (hwrite : ∀ s, Inv kind base s → Writes kind base i epoch write s) :
    Writes kind base i epoch (checked kind epoch write) s := by
  refine Spec.seq (readResourceFenceFresh_spec hinv) ?_
  rintro res s₁ ⟨hpass, -⟩
  rcases res with e | read
  · exact .error hpass.evolves
  dsimp only
  split
  · exact .error hpass.evolves
  · exact (hwrite s₁ (hpass.evolves.inv hinv)).mono fun res s₂ h => h.earlier hpass.evolves

theorem guarded_spec {write : Prog ops (Res Unit)}
    (hwrite : ∀ s, Inv kind base s → Writes kind base i epoch write s) :
    Writes kind base i epoch (guarded kind m epoch write) s := by
  apply Spec.bind
  refine spec_quiet rfl (fun _ => rfl) fun s₁ c r x _ _ hpass => ?_
  refine Spec.seq (checked_spec (hpass.evolves.inv hinv) hwrite) ?_
  rintro res s₂ ⟨hs, hclear⟩
  apply Spec.bind
  refine spec_quiet rfl (fun _ => rfl) fun s₃ c r x _ _ hpass' => ?_
  refine ⟨(hpass.evolves.trans hs).trans hpass'.evolves, fun hok hkind hun => ?_⟩
  exact (hclear hok hkind (hun.mono hpass'.evolves.trace)).idle hpass'.idle

theorem recheck_spec {refused : Fence → Prog ops (Res Unit)}
    (hrefused : ∀ f s, Spec exec (Evolves kind base) i (refused f)
      (fun res s' => Evolves kind base s s' ∧ ∃ e, res = .error e) s) :
    Writes kind base i epoch (do
      match ← readResourceFence kind m rounds with
      | .error e => return .error e
      | .ok (f, _) => if f.blocks epoch then refused f else return .ok ()) s := by
  refine Spec.seq (readResourceFence_spec hinv) ?_
  rintro res s₁ ⟨hpass, hseen⟩
  rcases res with e | read
  · exact .error hpass.evolves
  obtain ⟨f, etag⟩ := read
  dsimp only
  split
  · refine (hrefused f s₁).mono ?_
    rintro res s₂ ⟨hs, e, rfl⟩
    exact .error (hpass.evolves.trans hs)
  next hblocks =>
    refine ⟨hpass.evolves, fun _ hkind hun => ?_⟩
    obtain ⟨t, -, hidle, hreach⟩ := hseen f etag rfl hkind hun
    exact ⟨t, f, hidle, hreach, by simpa using hblocks⟩

theorem putImmutableSegment_spec {data : Bytes} :
    Writes kind base i epoch (putImmutableSegment kind m rounds epoch key data) s := by
  refine Spec.seq (spec_of_quiet createSegment_quiet) ?_
  intro res s₁ hs
  rcases res with e | created
  · exact .error hs
  refine (recheck_spec (hs.inv hinv) fun f s₂ => ?_).mono fun res s₂ h => h.earlier hs
  refine Spec.seq (spec_of_quiet cleanUp_quiet) ?_
  intro e s₃ hs'
  exact ⟨hs', e, rfl⟩

theorem append_spec {segment : Bytes} :
    Writes kind base i epoch (append kind scope m rounds epoch segment) s := by
  refine guarded_spec hinv fun s hinv => ?_
  cases acceptSegment "segment" "segment" epoch segment with
  | error e => exact .error (.refl s)
  | ok h => exact putImmutableSegment_spec hinv

theorem appendBatch_spec {segments : List Bytes} :
    Writes kind base i epoch (appendBatch kind scope m rounds epoch segments) s := by
  refine guarded_spec hinv fun s hinv => ?_
  split
  · exact .error (.refl s)
  · cases segments.mapM (acceptSegment "segment in batch" "segment" epoch) with
    | error e => exact .error (.refl s)
    | ok headers => exact putImmutableSegment_spec hinv

theorem markEpoch_spec {cut : UInt64} :
    Writes kind base i epoch (markEpoch kind scope m rounds epoch cut) s := by
  unfold markEpoch
  split
  · exact .error (.refl s)
  refine guarded_spec hinv fun s hinv => ?_
  apply Spec.bind
  refine spec_quiet rfl (fun _ => rfl) fun s₁ c r x _ _ hpass => ?_
  rcases r with e | keys
  · exact .error hpass.evolves
  dsimp only
  split
  · exact .error hpass.evolves
  refine Spec.seq (spec_of_quiet claimKey_quiet) ?_
  intro res s₂ hs₂
  have hs := hpass.evolves.trans hs₂
  rcases res with e | _
  · exact .error hs
  refine Spec.seq (spec_of_quiet claimKey_quiet) ?_
  intro res s₃ hs₃
  have hs' := hs.trans hs₃
  cases res with
  | error e => exact .error hs'
  | ok _ =>
    refine (recheck_spec (hs'.inv hinv) fun f s₄ => ?_).mono fun res s₄ h => h.earlier hs'
    exact ⟨.refl s₄, _, rfl⟩

end Specs

end CellHive.Fencing
