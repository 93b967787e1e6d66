import CellHive.Fencing.Calls

/-!
# The fence is updated atomically

The updates that a run stores, in the order of the trace, are a run of the pure `change`
functions from the fence there was at the start (`Inv`): a stored fence replaces the one its
call read, because the etag is still the one that was read.
-/

namespace CellHive.Fencing

open Go Ltx Bucket Concurrent Replica

/-! ## Runs of updates -/

def Update.Named : Update → Prop
  | .block job => job ≠ []
  | .fence _ _ => True
  | .allow _ => True

/-- The updates lead from one fence to the other. -/
inductive Reaches (base : Fence) : List Update → Fence → Prop
  | start : Reaches base [] base
  | step {us : List Update} {f f' : Fence} {u : Update} (h : Reaches base us f)
      (hchange : u.change f = .ok f') : Reaches base (us ++ [u]) f'

section Reaches

variable {base f f' : Fence} {us vs : List Update} {u : Update}

theorem reaches_iff : Reaches base us f ↔ us.foldlM (fun f u => u.change f) base = Except.ok f := by
  constructor
  · intro h
    induction h with
    | start => rfl
    | step _ hchange ih =>
      rw [List.foldlM_append, ih, ok_bind, List.foldlM_cons, hchange]
      rfl
  · intro h
    induction us using List.reverseRecOn generalizing f with
    | nil =>
      cases h
      exact .start
    | append_singleton us u ih =>
      rw [List.foldlM_append, bind_eq_ok] at h
      obtain ⟨g, hg, hu⟩ := h
      rw [List.foldlM_cons, bind_eq_ok] at hu
      obtain ⟨f', hchange, hf⟩ := hu
      cases hf
      exact .step (ih hg) hchange

theorem reaches_append : Reaches base (us ++ vs) f' ↔
    ∃ f, Reaches base us f ∧ Reaches f vs f' := by
  simp only [reaches_iff, List.foldlM_append, bind_eq_ok]

theorem reaches_cons : Reaches base (u :: us) f' ↔ ∃ f, u.change base = .ok f ∧ Reaches f us f' := by
  simp only [reaches_iff, List.foldlM_cons, bind_eq_ok]

theorem Reaches.unique (h : Reaches base us f) (h' : Reaches base us f') : f = f' :=
  Except.ok.inj ((reaches_iff.1 h).symm.trans (reaches_iff.1 h'))

theorem change_block {job : Str} : (Update.block job).change f = .ok f' ↔
    (f.deleted = true ↔ f.jobID = job) ∧ f' = { f with deleted := true, jobID := job } := by
  simp only [Update.change]
  by_cases hdel : f.deleted = true
  · by_cases hjob : f.jobID = job
    · simp [hdel, hjob, eq_comm]
    · simp [hdel, hjob]
  · by_cases hjob : f.jobID = job
    · simp [hdel, hjob]
    · simp [hdel, hjob, eq_comm]

theorem change_fence {job : Str} {epoch : UInt64} : (Update.fence job epoch).change f = .ok f' ↔
    f.deleted = true ∧ f.jobID = job ∧ f' = if f.epoch < epoch then { f with epoch } else f := by
  simp only [Update.change]
  by_cases hdel : f.deleted = true
  · by_cases hjob : f.jobID = job
    · simp [hdel, hjob, eq_comm]
    · simp [hdel, hjob]
  · simp [hdel]

theorem change_allow {job : Str} : (Update.allow job).change f = .ok f' ↔
    f.jobID = job ∧ f' = { f with deleted := false } := by
  simp only [Update.change]
  by_cases hjob : f.jobID = job
  · simp [hjob, eq_comm]
  · simp [hjob]

theorem epoch_le_of_change (h : u.change f = .ok f') : f.epoch ≤ f'.epoch := by
  cases u with
  | block job =>
    rw [(change_block.1 h).2]
    exact UInt64.le_refl _
  | fence job epoch =>
    rw [(change_fence.1 h).2.2]
    split
    next hlt => exact UInt64.le_of_lt hlt
    · exact UInt64.le_refl _
  | allow job =>
    rw [(change_allow.1 h).2]
    exact UInt64.le_refl _

theorem Reaches.epoch_le (h : Reaches base us f) : base.epoch ≤ f.epoch := by
  induction h with
  | start => exact UInt64.le_refl _
  | step _ hchange ih => exact UInt64.le_trans ih (epoch_le_of_change hchange)

theorem jobID_of_change (h : u.change f = .ok f') (hnamed : u.Named) (hjob : f.jobID ≠ []) :
    f'.jobID ≠ [] := by
  cases u with
  | block job =>
    rw [(change_block.1 h).2]
    exact hnamed
  | fence job epoch =>
    rw [(change_fence.1 h).2.2]
    split
    · exact hjob
    · exact hjob
  | allow job =>
    rw [(change_allow.1 h).2]
    exact hjob

theorem Reaches.jobID_ne (h : Reaches base us f) (hnamed : ∀ u ∈ us, u.Named)
    (hjob : base.jobID ≠ []) : f.jobID ≠ [] := by
  induction h with
  | start => exact hjob
  | step _ hchange ih =>
    apply jobID_of_change hchange (hnamed _ (List.mem_append_right _ List.mem_cons_self))
    exact ih fun u hu => hnamed u (List.mem_append_left _ hu)

theorem Reaches.allowed (h : Reaches f us f') (hallowed : f.deleted = false)
    (hno : ∀ job, .block job ∈ us → job = f.jobID) : f'.deleted = false ∧ f'.jobID = f.jobID := by
  induction h with
  | start => exact ⟨hallowed, rfl⟩
  | @step us g f' u h hchange ih =>
    obtain ⟨hdel, hjob⟩ := ih fun job hin => hno job (List.mem_append_left _ hin)
    cases u with
    | block job =>
      have heq : job = f.jobID := hno job (List.mem_append_right _ List.mem_cons_self)
      have hdeleted := (change_block.1 hchange).1.2 (hjob.trans heq.symm)
      rw [hdel] at hdeleted
      cases hdeleted
    | fence job epoch =>
      have hdeleted := (change_fence.1 hchange).1
      rw [hdel] at hdeleted
      cases hdeleted
    | allow job =>
      rw [(change_allow.1 hchange).2]
      exact ⟨rfl, hjob⟩

end Reaches

/-! ## The updates of a trace -/

def storedBy (step : Step ops) : Option (Update × Fence) :=
  match step.op, step.reply with
  | .createFence (some u) (some f), .ok _ => some (u, f)
  | .casFence u f _, .ok _ => some (u, f)
  | _, _ => none

def updates (trace : List (Step ops)) : List Update :=
  trace.filterMap fun step => (storedBy step).map (·.1)

@[simp] theorem updates_append (t t' : List (Step ops)) :
    updates (t ++ t') = updates t ++ updates t' := List.filterMap_append

/-- The fence that updates start from: the stored one, or the one a migration will store. -/
def BaseOf (kind : Bool) (base : Fence) (w : World) : Prop :=
  match w.fence.cur with
  | none => if kind then ∀ f, w.legacy.content = some (some f) → base = f else base = {}
  | some (none, _) => True
  | some (some f, _) => base = f

structure Inv (kind : Bool) (base : Fence) (s : Traced ops World) : Prop where
  absent : s.shared.fence.cur = none → updates s.trace = [] ∧ BaseOf kind base s.shared
  corrupt : ∀ tag, s.shared.fence.cur = some (none, tag) → updates s.trace = []
  reached : ∀ f tag, s.shared.fence.cur = some (some f, tag) → Reaches base (updates s.trace) f
  stored : ∀ before step after u f, s.trace = before ++ step :: after →
    storedBy step = some (u, f) → Reaches base (updates before ++ [u]) f ∧ u.Named

/-- How any call moves the shared state. -/
structure Evolves (kind : Bool) (base : Fence) (s s' : Traced ops World) : Prop where
  trace : s.trace <+: s'.trace
  fence : s.shared.fence.Later s'.shared.fence
  legacy : s'.shared.legacy = s.shared.legacy
  inv : Inv kind base s → Inv kind base s'

variable {kind : Bool} {base : Fence} {s s' : Traced ops World} {i : Nat} {op : Op} {r : Reply op}
  {x : World}

theorem Evolves.refl (s : Traced ops World) : Evolves kind base s s :=
  ⟨List.prefix_refl _, .refl _, rfl, id⟩

theorem Evolves.trans {s₁ s₂ s₃ : Traced ops World} (h : Evolves kind base s₁ s₂)
    (h' : Evolves kind base s₂ s₃) : Evolves kind base s₁ s₃ :=
  ⟨h.trace.trans h'.trace, h.fence.trans h'.fence, h'.legacy.trans h.legacy, h'.inv ∘ h.inv⟩

theorem split_push {before after : List (Step ops)} {step : Step ops}
    (h : (s.push i op r x).trace = before ++ step :: after) :
    step = ⟨i, op, r⟩ ∧ before = s.trace ∨ ∃ after', s.trace = before ++ step :: after' := by
  have h' : s.trace ++ [⟨i, op, r⟩] = before ++ step :: after := h
  rcases List.eq_nil_or_concat' after with rfl | ⟨after', z, rfl⟩
  · left
    obtain ⟨hleft, hright⟩ := List.append_inj' h' rfl
    exact ⟨(List.singleton_inj.1 hright).symm, hleft.symm⟩
  · right
    rw [← List.cons_append, ← List.append_assoc] at h'
    exact ⟨after', (List.append_inj' h' rfl).1⟩

theorem updates_push : updates (s.push i op r x).trace =
    updates s.trace ++ ((storedBy ⟨i, op, r⟩).map (·.1)).toList := by
  cases h : storedBy ⟨i, op, r⟩ <;> simp [updates, Traced.push, h]

theorem Inv.stored_push (hinv : Inv kind base s) (hnew : ∀ u f, storedBy ⟨i, op, r⟩ = some (u, f) →
      Reaches base (updates s.trace ++ [u]) f ∧ u.Named)
    (before : List (Step ops)) (step : Step ops) (after : List (Step ops)) (u : Update) (f : Fence)
    (hsplit : (s.push i op r x).trace = before ++ step :: after)
    (hstep : storedBy step = some (u, f)) : Reaches base (updates before ++ [u]) f ∧ u.Named := by
  rcases split_push hsplit with ⟨rfl, rfl⟩ | ⟨after', hbefore⟩
  · exact hnew u f hstep
  · exact hinv.stored before step after' u f hbefore hstep

theorem evolves_quiet (hstored : storedBy ⟨i, op, r⟩ = none) (hfence : x.fence = s.shared.fence)
    (hlegacy : x.legacy = s.shared.legacy) : Evolves kind base s (s.push i op r x) := by
  have hupdates : updates (s.push i op r x).trace = updates s.trace := by
    simp [updates_push, hstored]
  have hcur : (s.push i op r x).shared.fence = s.shared.fence := hfence
  have hbase : BaseOf kind base x = BaseOf kind base s.shared := by
    rw [BaseOf, BaseOf, hfence, hlegacy]
  refine ⟨List.prefix_append _ _, hcur ▸ .refl _, hlegacy, fun hinv =>
    ⟨fun hnone => ?_, fun tag hnone => ?_, fun f tag hsome => ?_, hinv.stored_push (by simp [hstored])⟩⟩
  · rw [hcur] at hnone
    exact ⟨hupdates.trans (hinv.absent hnone).1, hbase.mpr (hinv.absent hnone).2⟩
  · rw [hcur] at hnone
    exact hupdates.trans (hinv.corrupt tag hnone)
  · rw [hcur] at hsome
    rw [hupdates]
    exact hinv.reached f tag hsome

theorem evolves_migrate {content : Option Fence} (hstored : storedBy ⟨i, op, r⟩ = none)
    (hnone : s.shared.fence.cur = none) (hfence : x.fence = s.shared.fence.store content)
    (hlegacy : x.legacy = s.shared.legacy) (hkind : kind = true)
    (hcontent : s.shared.legacy.content = some content) :
    Evolves kind base s (s.push i op r x) := by
  have hupdates : updates (s.push i op r x).trace = updates s.trace := by
    simp [updates_push, hstored]
  have hcur : (s.push i op r x).shared.fence = s.shared.fence.store content := hfence
  refine ⟨List.prefix_append _ _, hcur ▸ Versioned.later_store _ _, hlegacy, fun hinv =>
    ⟨fun hno => ?_, fun tag _ => ?_, fun f tag hsome => ?_, hinv.stored_push (by simp [hstored])⟩⟩
  · rw [hcur] at hno
    cases hno
  · exact hupdates.trans (hinv.absent hnone).1
  · obtain ⟨hempty, hbase⟩ := hinv.absent hnone
    rw [hcur] at hsome
    obtain ⟨rfl, -⟩ := Prod.mk.inj (Option.some.inj hsome)
    simp only [BaseOf, hnone, if_pos hkind] at hbase
    rw [hupdates, hempty, hbase f hcontent]
    exact .start

theorem evolves_update {u : Update} {f f' : Fence} (hstored : storedBy ⟨i, op, r⟩ = some (u, f'))
    (hfence : x.fence = s.shared.fence.store (some f')) (hlegacy : x.legacy = s.shared.legacy)
    (hnamed : u.Named) (hchange : u.change f = .ok f')
    (hreached : Inv kind base s → Reaches base (updates s.trace) f) :
    Evolves kind base s (s.push i op r x) := by
  have hcur : (s.push i op r x).shared.fence = s.shared.fence.store (some f') := hfence
  refine ⟨List.prefix_append _ _, hcur ▸ Versioned.later_store _ _, hlegacy, fun hinv => ?_⟩
  have hnew : Reaches base (updates s.trace ++ [u]) f' := .step (hreached hinv) hchange
  refine ⟨fun hnone => ?_, fun tag hnone => ?_, fun g tag hsome => ?_, hinv.stored_push ?_⟩
  · rw [hcur] at hnone
    cases hnone
  · rw [hcur] at hnone
    cases hnone
  · rw [hcur] at hsome
    cases hsome
    rw [updates_push, hstored]
    exact hnew
  · rintro v g h
    rw [hstored] at h
    cases h
    exact ⟨hnew, hnamed⟩

/-! ## Operations -/

/-- Every operation but the two that store a fence. -/
def Op.quiet : Op → Bool
  | .createFence _ _ => false
  | .casFence _ _ _ => false
  | _ => true

/-- Operations that leave the objects alone. -/
def Op.still : Op → Bool
  | .create _ _ => false
  | .delete _ _ => false
  | _ => true

def isCreate (step : Step ops) : Bool :=
  match step.op with
  | .create _ _ => true
  | _ => false

variable {c : Choice} {w : World}

/-- What one operation writes: the fence only by the two that store one, the objects only by a
create or a delete, the legacy fence never. -/
theorem exec_writes (h : exec op c w = some (r, x)) :
    x.legacy = w.legacy ∧ (op.quiet = true → x.fence = w.fence) ∧
      (op.still = true → x.objects = w.objects) := by
  unfold exec at h
  split at h
  · obtain ⟨_, -, heq⟩ := Option.map_eq_some_iff.1 h
    obtain ⟨-, rfl⟩ := Prod.mk.inj heq
    exact ⟨rfl, fun _ => rfl, fun _ => rfl⟩
  · cases op with
    | createFence | casFence =>
      simp only [effect] at h
      split at h <;> cases h <;> exact ⟨rfl, nofun, fun _ => rfl⟩
    | create | delete =>
      simp only [effect] at h
      split at h <;> cases h <;> exact ⟨rfl, fun _ => rfl, nofun⟩
    | rlock m | lock m | getFence | getLegacy | await m id | get key =>
      simp only [effect] at h
      split at h <;> cases h <;> exact ⟨rfl, fun _ => rfl, fun _ => rfl⟩
    | _ => cases h; exact ⟨rfl, fun _ => rfl, fun _ => rfl⟩

theorem exec_quiet (hop : op.quiet = true) (h : exec op c w = some (r, x)) :
    x.fence = w.fence ∧ x.legacy = w.legacy :=
  ⟨(exec_writes h).2.1 hop, (exec_writes h).1⟩

theorem storedBy_quiet (hop : op.quiet = true) : storedBy ⟨i, op, r⟩ = none := by
  cases op with
  | createFence | casFence => cases hop
  | _ => rfl

theorem evolves_of_quiet (hop : op.quiet = true) (h : exec op c s.shared = some (r, x)) :
    Evolves kind base s (s.push i op r x) :=
  evolves_quiet (storedBy_quiet hop) (exec_quiet hop h).1 (exec_quiet hop h).2

theorem exec_getFence {y : Option Fence × Nat} (h : exec .getFence c w = some (Except.ok y, x)) :
    w.fence.cur = some y := by
  unfold exec at h
  split at h
  · cases h
  simp only [effect] at h
  split at h
  · cases h
  next hcur =>
    cases h
    exact hcur

theorem exec_getLegacy {l : Legacy} (h : exec .getLegacy c w = some (Except.ok l, x)) :
    w.legacy = l := by
  unfold exec at h
  split at h
  · cases h
  simp only [effect] at h
  split at h
  · cases h
  · cases h
    rfl

theorem exec_getLegacy_missing {e : Err} (h : exec .getLegacy c w = some (Except.error e, x))
    (he : e.is .bucketNotFound = true) : w.legacy = .missing := by
  unfold exec at h
  split at h
  · cases h
    cases he
  · simp only [effect] at h
    split at h
    next hmissing => exact hmissing
    · cases h

theorem exec_createFence {u : Option Update} {content : Option Fence} {r : Res Nat}
    (h : exec (.createFence u content) c w = some (r, x)) :
    ((∃ e, r = .error e) ∧ x.fence = w.fence ∧ x.legacy = w.legacy) ∨
      r = .ok w.fence.fresh ∧ w.fence.cur = none ∧ x.fence = w.fence.store content ∧
        x.legacy = w.legacy := by
  unfold exec at h
  split at h
  · cases h
    exact .inl ⟨⟨_, rfl⟩, rfl, rfl⟩
  simp only [effect] at h
  split at h
  · cases h
    exact .inl ⟨⟨_, rfl⟩, rfl, rfl⟩
  next v hv =>
    cases h
    obtain ⟨hnone, rfl⟩ := Versioned.create_eq_some hv
    exact .inr ⟨rfl, hnone, rfl, rfl⟩

theorem exec_casFence {u : Update} {f : Fence} {tag : Nat} {r : Res Unit}
    (h : exec (.casFence u f tag) c w = some (r, x)) :
    ((∃ e, r = .error e) ∧ x.fence = w.fence ∧ x.legacy = w.legacy) ∨
      r = .ok () ∧ (∃ content, w.fence.cur = some (content, tag)) ∧
        x.fence = w.fence.store (some f) ∧ x.legacy = w.legacy := by
  unfold exec at h
  split at h
  · cases h
    exact .inl ⟨⟨_, rfl⟩, rfl, rfl⟩
  simp only [effect] at h
  split at h
  · cases h
    exact .inl ⟨⟨_, rfl⟩, rfl, rfl⟩
  next v hv =>
    cases h
    obtain ⟨hcur, rfl⟩ := Versioned.cas_eq_some hv
    exact .inr ⟨rfl, hcur, rfl, rfl⟩

/-! ## Reading the fence -/

variable {t t' t'' : List (Step ops)}

/-- Between two moments of a trace the thread created no object. -/
def Idle (i : Nat) (t t' : List (Step ops)) : Prop :=
  ∃ rest, t' = t ++ rest ∧ ∀ step ∈ rest, step.thread = i → isCreate step = false

theorem Idle.refl (t : List (Step ops)) : Idle i t t :=
  ⟨[], (List.append_nil t).symm, fun _ h => absurd h List.not_mem_nil⟩

theorem Idle.trans (h : Idle i t t') (h' : Idle i t' t'') : Idle i t t'' := by
  obtain ⟨rest, rfl, hrest⟩ := h
  obtain ⟨rest', rfl, hrest'⟩ := h'
  refine ⟨rest ++ rest', List.append_assoc _ _ _, fun step hstep => ?_⟩
  rcases List.mem_append.1 hstep with hstep | hstep
  · exact hrest step hstep
  · exact hrest' step hstep

theorem Idle.of_others (h : Others i s s') : Idle i s.trace s'.trace := by
  obtain ⟨steps, htrace, hother⟩ := h
  exact ⟨steps, htrace, fun step hstep heq => absurd heq (hother step hstep)⟩

theorem Idle.push (h : isCreate ⟨i, op, r⟩ = false) :
    Idle i s.trace (s.push i op r x).trace := by
  refine ⟨[⟨i, op, r⟩], rfl, fun step hstep _ => ?_⟩
  rw [List.mem_singleton.1 hstep]
  exact h

structure FreshRead (kind : Bool) (base : Fence) (i : Nat) (s s' : Traced ops World) (f : Fence)
    (etag : Option Nat) : Prop where
  plain : kind = false → f = {} ∧ etag = none
  known : kind = true → ∃ tag, etag = some tag ∧ tag < s'.shared.fence.fresh ∧
    ∀ y ∈ s'.shared.fence.cur, y.2 = tag → y.1 = some f
  readAt : kind = true → ∃ t, s.trace <+: t ∧ Idle i t s'.trace ∧ Reaches base (updates t) f

theorem FreshRead.current {f : Fence} {tag : Nat} (hkind : kind = true)
    (hinv : Inv kind base s') (htrace : s.trace <+: s'.trace)
    (hcur : s'.shared.fence.cur = some (some f, tag)) :
    FreshRead kind base i s s' f (some tag) := by
  refine ⟨by simp [hkind], fun _ => ⟨tag, rfl, s'.shared.fence.tag_lt _ hcur, fun y hy _ => ?_⟩,
    fun _ => ⟨s'.trace, htrace, .refl _, hinv.reached f tag hcur⟩⟩
  rw [hcur] at hy
  cases hy
  rfl

/-- A thread has come from one state to another without creating an object. -/
structure Passed (kind : Bool) (base : Fence) (i : Nat) (s s' : Traced ops World) : Prop where
  evolves : Evolves kind base s s'
  idle : Idle i s.trace s'.trace

theorem Passed.refl (s : Traced ops World) : Passed kind base i s s := ⟨.refl s, .refl _⟩

theorem Passed.trans {s₁ s₂ s₃ : Traced ops World} (h : Passed kind base i s₁ s₂)
    (h' : Passed kind base i s₂ s₃) : Passed kind base i s₁ s₃ :=
  ⟨h.evolves.trans h'.evolves, h.idle.trans h'.idle⟩

theorem spec_quiet {Q : Reply op → Traced ops World → Prop} (hop : op.quiet = true)
    (hcreate : ∀ r, isCreate ⟨i, op, r⟩ = false)
    (h : ∀ s₁ c r x, Passed kind base i s s₁ → exec op c s₁.shared = some (r, x) →
      Passed kind base i s (s₁.push i op r x) → Q r (s₁.push i op r x)) :
    Spec exec (Evolves kind base) i (ask op) Q s := by
  intro s₁ hs ho c r x hexec
  have hpass : Passed kind base i s s₁ := ⟨hs, .of_others ho⟩
  have hstep : Evolves kind base s₁ (s₁.push i op r x) := evolves_of_quiet hop hexec
  exact ⟨hstep, h s₁ c r x hpass hexec (hpass.trans ⟨hstep, .push (hcreate r)⟩)⟩

def ReadPost (kind : Bool) (base : Fence) (i : Nat) (s : Traced ops World) (res : Res FenceRead)
    (s' : Traced ops World) : Prop :=
  Passed kind base i s s' ∧
    ∀ f etag, res = .ok (f, etag) → FreshRead kind base i s s' f etag

/-- What a read after some way says of the whole way. -/
theorem ReadPost.earlier {s₁ s₂ : Traced ops World} {res : Res FenceRead}
    (h : ReadPost kind base i s₁ res s₂) (hpass : Passed kind base i s s₁) :
    ReadPost kind base i s res s₂ := by
  refine ⟨hpass.trans h.1, fun f etag hres => ?_⟩
  obtain ⟨hplain, hknown, hread⟩ := h.2 f etag hres
  refine ⟨hplain, hknown, fun hkind => ?_⟩
  obtain ⟨t, ht, hidle, hreach⟩ := hread hkind
  exact ⟨t, hpass.evolves.trace.trans ht, hidle, hreach⟩

theorem getFence_spec (hkind : kind = true) (hinv : Inv kind base s) :
    Spec exec (Evolves kind base) i (ask .getFence) (fun r s' => Passed kind base i s s' ∧
      ∀ content tag, r = .ok (content, tag) →
        ReadPost kind base i s (readFence content tag) s') s := by
  refine spec_quiet rfl (fun _ => rfl) fun s₁ c r x hpass hexec hpass' => ⟨hpass', ?_⟩
  rintro content tag rfl
  refine ⟨hpass', fun f etag hres => ?_⟩
  cases content with
  | none => cases hres
  | some g =>
    cases hres
    refine FreshRead.current hkind (hpass'.evolves.inv hinv) hpass'.evolves.trace ?_
    exact (congrArg Versioned.cur (exec_quiet rfl hexec).1).trans (exec_getFence hexec)

theorem migrateFence_spec {legacy : Legacy} (hkind : kind = true) (hinv : Inv kind base s)
    (hlegacy : s.shared.legacy = legacy) :
    Spec exec (Evolves kind base) i (migrateFence legacy) (ReadPost kind base i s) s := by
  unfold migrateFence
  rcases hcontent : legacy.content with _ | content
  · exact ⟨.refl s, fun _ _ => nofun⟩
  apply Spec.perform_bind
  intro s₁ hs ho c r x hexec
  have hpass : Passed kind base i s s₁ := ⟨hs, .of_others ho⟩
  rcases exec_createFence hexec with ⟨⟨e, rfl⟩, hfence, hleg⟩ | ⟨rfl, hnone, hfence, hleg⟩
  · have hstep : Evolves kind base s₁ (s₁.push i (.createFence none content) (.error e) x) :=
      evolves_quiet rfl hfence hleg
    refine ⟨hstep, ?_⟩
    have hpass' := hpass.trans ⟨hstep, .push rfl⟩
    dsimp only
    split
    · refine Spec.seq (getFence_spec hkind (hpass'.evolves.inv hinv)) ?_
      rintro r s₂ ⟨hpass₂, hread⟩
      cases r with
      | ok y => exact (hread y.1 y.2 rfl).earlier hpass'
      | error e => exact ⟨hpass'.trans hpass₂, fun _ _ => nofun⟩
    · exact ⟨hpass', fun _ _ => nofun⟩
  · have hstep : Evolves kind base s₁ (s₁.push i (.createFence none content)
        (.ok s₁.shared.fence.fresh) x) := by
      refine evolves_migrate rfl hnone hfence hleg hkind ?_
      rw [hs.legacy, hlegacy]
      exact hcontent
    refine ⟨hstep, ?_⟩
    have hpass' := hpass.trans ⟨hstep, .push rfl⟩
    refine ⟨hpass', fun f etag hres => ?_⟩
    cases content with
    | none => cases hres
    | some g =>
      cases hres
      exact FreshRead.current hkind (hpass'.evolves.inv hinv) hpass'.evolves.trace
        (congrArg Versioned.cur hfence)

theorem readResourceFenceFresh_spec (hinv : Inv kind base s) :
    Spec exec (Evolves kind base) i (readResourceFenceFresh kind) (ReadPost kind base i s) s := by
  unfold readResourceFenceFresh
  split
  next hkind =>
    refine ⟨.refl s, fun f etag hres => ?_⟩
    cases hres
    exact ⟨fun _ => ⟨rfl, rfl⟩, by simp [hkind], by simp [hkind]⟩
  next hkind =>
    have hkind' : kind = true := by simpa using hkind
    refine Spec.seq (getFence_spec hkind' hinv) ?_
    rintro r s₁ ⟨hpass, hread⟩
    cases r with
    | ok y => exact hread y.1 y.2 rfl
    | error e =>
      dsimp only
      split
      · apply Spec.bind
        refine spec_quiet rfl (fun _ => rfl) fun s₂ c r x hpass₂ hexec hpass₂' => ?_
        have hpass' := hpass.trans hpass₂'
        have hmigrate : ∀ {l : Legacy}, s₂.shared.legacy = l →
            Spec exec (Evolves kind base) i (migrateFence l) (ReadPost kind base i s)
              (s₂.push i .getLegacy r x) := fun hl =>
          (migrateFence_spec hkind' (hpass'.evolves.inv hinv)
            ((exec_quiet rfl hexec).2.trans hl)).mono fun _ _ h => h.earlier hpass'
        cases r with
        | ok l => exact hmigrate (exec_getLegacy hexec)
        | error e =>
          dsimp only
          split
          next he => exact hmigrate (exec_getLegacy_missing hexec he)
          · exact ⟨hpass', fun _ _ => nofun⟩
      · exact ⟨hpass, fun _ _ => nofun⟩

end CellHive.Fencing
