import CellHive.Recovery.Covered

/-!
# What the programs of a recoverer keep

`Keeps i p Q s` says that the program `p` of thread `i`, started in `s`, moves the shared
state along `Evolves` whatever the others do, and ends with `Q`. There is one lemma for each
program of `Recover`, from the publication of a batch up to the whole call.
-/

namespace CellHive.Recovery

open Go Ltx Bucket Concurrent NodeLog Cell Replica Replica.Manager

/-- The steps of the run move the shared state along `Evolves`. -/
def Moves (s s' : Traced ops World) : Prop := Evolves s.shared s'.shared

def Keeps {α : Type} (i : Nat) (p : Prog ops α) (Q : α → World → Prop) (s : Traced ops World) :
    Prop :=
  Spec exec Moves i p (fun a s' => Evolves s.shared s'.shared ∧ Q a s'.shared) s

/-- What the answer to an operation says of the state behind it. No operation fails because a
resource is deleted. -/
structure Outcome (op : Op) (w : World) (r : Res (Answer op)) (w' : World) : Prop where
  ok : ∀ a, r = .ok a → ∃ c w₁, Evolves w w₁ ∧ effect c w₁ op = (.ok a, w')
  error : ∀ e, r = .error e → e.is .resourceDeleted = false

variable {α β : Type} {i : Nat} {s : Traced ops World} {c : Choice} {w : World} {op : Op}

theorem Keeps.ret {a : α} {Q : α → World → Prop} (h : Q a s.shared) :
    Keeps i (pure a) Q s := ⟨.refl _, h⟩

theorem Keeps.seq {p : Prog ops α} {f : α → Prog ops β} {P : α → World → Prop}
    {Q : β → World → Prop} (hp : Keeps i p P s)
    (hf : ∀ a s', Evolves s.shared s'.shared → P a s'.shared → Keeps i (f a) Q s') :
    Keeps i (p >>= f) Q s := by
  apply Spec.seq hp
  rintro a s' ⟨he, hP⟩
  apply Spec.mono (hf a s' he hP)
  rintro b s'' ⟨he', hQ⟩
  exact ⟨he.trans he', hQ⟩

theorem Keeps.mono {p : Prog ops α} {P Q : α → World → Prop} (hp : Keeps i p P s)
    (h : ∀ a w, Evolves s.shared w → P a w → Q a w) : Keeps i p Q s :=
  Spec.mono hp fun a s' ⟨he, hP⟩ => ⟨he, h a s'.shared he hP⟩

theorem Keeps.seqOk {p : Prog ops (Res α)} {f : Res α → Prog ops β} {P : Res α → World → Prop}
    {Q : β → World → Prop} (hp : Keeps i p P s)
    (herr : ∀ e s', P (.error e) s'.shared → Keeps i (f (.error e)) Q s')
    (hf : ∀ a s', Evolves s.shared s'.shared → P (.ok a) s'.shared → Keeps i (f (.ok a)) Q s') :
    Keeps i (p >>= f) Q s := by
  refine Keeps.seq hp fun r s' he h => ?_
  cases r with
  | error e => exact herr e s' h
  | ok a => exact hf a s' he h

theorem effect_error {e : Err} (h : (effect c w op).1 = .error e) :
    e.is .resourceDeleted = false := by
  cases op <;> dsimp only [effect] at h <;> (try split at h) <;> (try split at h) <;> cases h <;> rfl

theorem Keeps.perform (op : Op)
    (hmove : ∀ c w, Evolves s.shared w → Evolves w (effect c w op).2) :
    Keeps i (ask op) (Outcome op s.shared) s := by
  apply Spec.perform
  intro s₁ hs _ c r x hexec
  have hev : Evolves s₁.shared (effect c s₁.shared op).2 := hmove c s₁.shared hs
  dsimp only [exec] at hexec
  split at hexec
  · rw [Option.some.injEq] at hexec
    have hx : (effect c s₁.shared op).2 = x := congrArg Prod.snd hexec
    rw [hx] at hev
    refine ⟨hev, hs.trans hev, ?_, ?_⟩
    · rintro a rfl
      exact ⟨c, s₁.shared, hs, hexec⟩
    · rintro e rfl
      exact effect_error (congrArg Prod.fst hexec)
  · next fault _ =>
    obtain ⟨rfl, rfl⟩ := hexec
    have hev' : Evolves s₁.shared (if fault.effective then (effect c s₁.shared op).2 else s₁.shared) := by
      split
      · exact hev
      · exact .refl _
    refine ⟨hev', hs.trans hev', ?_, ?_⟩
    · intro a ha
      cases ha
    · intro e he
      cases he
      rfl

def Op.reads : Op → Bool
  | .getRecord | .checkSession | .resolve _ | .tail _ _ | .held _ | .readFence _ _ | .get _ => true
  | _ => false

theorem effect_reads (hop : op.reads = true) : (effect c w op).2 = w := by
  cases op <;> dsimp only [effect] <;> (try split) <;> (try split) <;> first | rfl | cases hop

theorem Keeps.read (op : Op) (hop : op.reads = true) :
    Keeps i (ask op) (Outcome op s.shared) s := by
  apply Keeps.perform
  intro c w _
  rw [effect_reads hop]
  exact .refl w

/-! ## Publishing segments -/

structure Published (scope : Scope) (epoch : UInt64) (segments : List Bytes) (res : Res Unit)
    (w : World) : Prop where
  ok : res.isOk = true → ∀ segment ∈ segments, Kept w scope epoch segment
  deleted : ∀ e, res = .error e → e.is .resourceDeleted = true → Blocked w scope epoch

variable {scope : Scope} {epoch : UInt64} {segments : List Bytes} {key : ObjectKey}

theorem Published.failed {e : Err} (he : e.is .resourceDeleted = false) :
    Published scope epoch segments (.error e) w := by
  refine ⟨?_, ?_⟩
  · intro h
    cases h
  · intro e' he' his
    cases he'
    rw [he] at his
    cases his

theorem cleanUp_keeps {created : Option Nat} (hb : Blocked s.shared key.scope key.epoch) :
    Keeps i (cleanUp key created) (fun _ w => Blocked w key.scope key.epoch) s := by
  rcases created with _ | tag
  · exact Keeps.ret hb
  apply Keeps.seq
  · apply Keeps.perform (.delete key tag)
    intro c w he
    exact evolves_delete (he.grows.blocked _ _ hb)
  · intro r s' he _
    have hb' := he.grows.blocked _ _ hb
    cases r with
    | ok a => exact Keeps.ret hb'
    | error e =>
      dsimp only
      split
      · exact Keeps.ret hb'
      · exact Keeps.ret hb'

theorem createSegment_keeps {parts : List Bytes} (hparts : ∀ p ∈ parts, OfEpoch key.epoch p) :
    Keeps i (createSegment key parts.flatten) (fun r w =>
      (r.isOk = true → ∀ p ∈ parts, Kept w key.scope key.epoch p) ∧
        ∀ e, r = .error e → e.is .resourceDeleted = false) s := by
  have hstored : ∀ (w : World) (tag : Nat), w.objects.get key = some (parts.flatten, tag) →
      ∀ p ∈ parts, Kept w key.scope key.epoch p := fun w tag hget p hp =>
    .inl ⟨key.name, parts, tag, hget, hp, hparts⟩
  apply Keeps.seq
  · apply Keeps.perform (.create key parts.flatten)
    intro c w _
    exact evolves_create
  · intro r s' _ hr
    cases r with
    | ok tag =>
      apply Keeps.ret
      refine ⟨fun _ => ?_, nofun⟩
      obtain ⟨c, w, _, heff⟩ := hr.ok tag rfl
      dsimp only [effect] at heff
      split at heff
      · cases heff
      next o ho =>
      obtain ⟨-, hw⟩ := Prod.mk.inj heff
      rw [← hw]
      apply hstored _ w.objects.fresh
      obtain ⟨-, -, hget⟩ := Objects.create_eq_some ho
      rw [hget, if_pos rfl]
    | error e =>
      have hne := hr.error e rfl
      dsimp only
      split
      · apply Keeps.seq
        · exact Keeps.read (.get key) rfl
        · intro r s'' _ hr
          cases r with
          | error e' =>
            apply Keeps.ret
            refine ⟨nofun, ?_⟩
            rintro _ ⟨rfl⟩
            exact hr.error _ rfl
          | ok x =>
            obtain ⟨old, tag⟩ := x
            dsimp only
            split
            · apply Keeps.ret
              refine ⟨nofun, ?_⟩
              rintro _ ⟨rfl⟩
              rfl
            · next hsame =>
              apply Keeps.ret
              refine ⟨fun _ => ?_, nofun⟩
              obtain ⟨c, w, _, heff⟩ := hr.ok (old, tag) rfl
              dsimp only [effect] at heff
              split at heff
              · cases heff
              next y hy =>
              obtain ⟨hxy, hw⟩ := Prod.mk.inj heff
              cases hxy
              rw [← hw]
              apply hstored _ tag
              rw [hy, ← not_not.1 hsame]
      · apply Keeps.ret
        refine ⟨nofun, ?_⟩
        rintro _ ⟨rfl⟩
        exact hne

theorem readFence_blocked {shared : Bool} {w w' : World} {f : Fence}
    (h : Outcome (.readFence scope shared) w (.ok f) w') (hf : f.blocks epoch = true) :
    Blocked w' scope epoch := by
  obtain ⟨c, w₁, -, heff⟩ := h.ok f rfl
  dsimp only [effect] at heff
  split at heff
  · -- the cache only holds an absent fence
    cases heff
    simp [Fence.blocks] at hf
  · obtain ⟨hf', rfl⟩ := Prod.mk.inj heff
    cases hf'
    exact blocks_of_fence hf

theorem putImmutableSegment_keeps {parts : List Bytes} (hparts : ∀ p ∈ parts, OfEpoch key.epoch p) :
    Keeps i (putImmutableSegment key parts.flatten) (Published key.scope key.epoch parts) s := by
  refine Keeps.seqOk (createSegment_keeps hparts)
    (fun e _ h => Keeps.ret (.failed (h.2 e rfl))) fun created s₁ _ hstored => ?_
  refine Keeps.seqOk (Keeps.read (.readFence key.scope true) rfl)
    (fun e _ h => Keeps.ret (.failed (h.error e rfl))) fun f s₂ he hr => ?_
  dsimp only
  split
  · next hf =>
    apply Keeps.seq (cleanUp_keeps (readFence_blocked hr hf))
    intro e s₃ _ hb
    exact Keeps.ret ⟨nofun, fun _ _ _ => hb⟩
  · apply Keeps.ret
    exact ⟨fun _ p hp => he.grows.kept _ _ _ (hstored.1 rfl p hp), nofun⟩

theorem guarded_keeps {write : Prog ops (Res Unit)}
    (hwrite : ∀ s, Keeps i write (Published scope epoch segments) s) :
    Keeps i (guarded scope epoch write) (Published scope epoch segments) s := by
  refine Keeps.seqOk (Keeps.read (.readFence scope false) rfl)
    (fun e _ h => Keeps.ret (.failed (h.error e rfl))) fun f s' _ hr => ?_
  dsimp only
  split
  · next hf => exact Keeps.ret ⟨nofun, fun _ _ _ => readFence_blocked hr hf⟩
  · exact hwrite s'

theorem decode_error {b : Bytes} {e : Err} (h : decode b = .error e) :
    e.is .resourceDeleted = false := by
  unfold decode at h
  split at h
  · cases h; rfl
  split at h
  · cases h; rfl
  dsimp only at h
  split at h
  · cases h; rfl
  split at h
  · cases h; rfl
  split at h
  · cases h; rfl
  · cases h

theorem acceptSegment_cases {invalid label : String} {b : Bytes} :
    (∃ h, acceptSegment invalid label epoch b = .ok h ∧ OfEpoch epoch b) ∨
      ∃ e, acceptSegment invalid label epoch b = .error e ∧ e.is .resourceDeleted = false := by
  unfold acceptSegment
  cases hd : decode b with
  | error e =>
    refine .inr ⟨_, rfl, ?_⟩
    rw [GoError.is]
    exact decode_error hd
  | ok d =>
    obtain ⟨h, payload⟩ := d
    by_cases heq : h.epoch = epoch
    · exact .inl ⟨h, if_neg (not_not.2 heq), h, payload, hd, heq⟩
    · exact .inr ⟨_, if_pos heq, rfl⟩

theorem acceptSegments_cases {invalid label : String} :
    (∃ hs, segments.mapM (acceptSegment invalid label epoch) = .ok hs ∧
      ∀ p ∈ segments, OfEpoch epoch p) ∨
      ∃ e, segments.mapM (acceptSegment invalid label epoch) = .error e ∧
        e.is .resourceDeleted = false := by
  induction segments with
  | nil => exact .inl ⟨[], rfl, by simp⟩
  | cons b rest ih =>
    rw [List.mapM_cons]
    rcases @acceptSegment_cases epoch invalid label b with ⟨h, hb, hof⟩ | ⟨e, hb, he⟩
    · rw [hb]
      rcases ih with ⟨hs, hrest, hall⟩ | ⟨e, hrest, he⟩
      · rw [hrest]
        refine .inl ⟨h :: hs, rfl, ?_⟩
        intro p hp
        rcases List.mem_cons.1 hp with rfl | hp
        · exact hof
        · exact hall p hp
      · rw [hrest]
        exact .inr ⟨e, rfl, he⟩
    · rw [hb]
      exact .inr ⟨e, rfl, he⟩

theorem append_keeps {segment : Bytes} :
    Keeps i (append scope epoch segment) (Published scope epoch [segment]) s := by
  apply guarded_keeps
  intro s
  rcases @acceptSegment_cases epoch "segment" "segment" segment with ⟨h, hb, hof⟩ | ⟨e, hb, he⟩
  · rw [hb]
    have hput := @putImmutableSegment_keeps i s ⟨scope, epoch, segmentName h⟩ [segment]
      (by simpa using hof)
    rwa [List.flatten_singleton] at hput
  · rw [hb]
    exact Keeps.ret (.failed he)

theorem appendBatch_keeps :
    Keeps i (appendBatch scope epoch segments) (Published scope epoch segments) s := by
  apply guarded_keeps
  intro s
  split
  · exact Keeps.ret (.failed rfl)
  rcases @acceptSegments_cases epoch segments "segment in batch" "segment" with
    ⟨hs, hb, hall⟩ | ⟨e, hb, he⟩
  · rw [hb]
    exact @putImmutableSegment_keeps i s ⟨scope, epoch, groupName hs⟩ segments hall
  · rw [hb]
    exact Keeps.ret (.failed he)

/-! ## Batches -/

/-- A segment is kept, or waits in the open run. -/
def Due (w : World) (b : RecoveryBatch) (scope : Scope) (epoch : UInt64) (segment : Bytes) : Prop :=
  Kept w scope epoch segment ∨ (segment ∈ b.segments ∧ b.scope = scope ∧ b.epoch = epoch)

def Carried (w : World) (b : RecoveryBatch) (w' : World) (b' : RecoveryBatch) : Prop :=
  ∀ scope epoch segment, Due w b scope epoch segment → Due w' b' scope epoch segment

theorem Carried.refl {w w' : World} (he : Evolves w w') (b : RecoveryBatch) :
    Carried w b w' b := fun _ _ _ h => h.imp (he.grows.kept _ _ _) id

theorem Carried.trans {w w' w'' : World} {b b' b'' : RecoveryBatch} (h : Carried w b w' b')
    (h' : Carried w' b' w'' b'') : Carried w b w'' b'' :=
  fun scope epoch segment hd => h' scope epoch segment (h scope epoch segment hd)

namespace RecoveryBatch

variable {b : RecoveryBatch}

theorem flush_keeps : Keeps i b.flush (fun r w => r.2 = none →
    r.1.segments = [] ∧ ∀ scope epoch segment, Due s.shared b scope epoch segment →
      Kept w scope epoch segment) s := by
  unfold flush
  split
  · next hnil =>
    apply Keeps.ret
    intro _
    refine ⟨hnil, fun scope epoch segment hd => ?_⟩
    rcases hd with hk | ⟨hmem, -⟩
    · exact hk
    · rw [hnil] at hmem
      cases hmem
  · apply Keeps.seq appendBatch_keeps
    intro r s' he hr
    -- either way the run is kept, and so is what was kept before
    have hall : (∀ segment ∈ b.segments, Kept s'.shared b.scope b.epoch segment) →
        ∀ scope epoch segment, Due s.shared b scope epoch segment →
          Kept s'.shared scope epoch segment := by
      rintro hrun scope epoch segment (hk | ⟨hmem, rfl, rfl⟩)
      · exact he.grows.kept _ _ _ hk
      · exact hrun segment hmem
    cases r with
    | ok a => exact Keeps.ret fun _ => ⟨rfl, hall (hr.ok rfl)⟩
    | error e =>
      dsimp only
      split
      · next hdel =>
        exact Keeps.ret fun _ => ⟨rfl, hall fun _ _ => .inr (hr.deleted e rfl hdel)⟩
      · exact Keeps.ret nofun

theorem join_keeps {h : Header} {raw : Bytes}
    (hrun : b.segments = [] ∨ (b.scope = scope ∧ b.epoch = epoch)) :
    Keeps i (b.join scope epoch h raw) (fun r w => r.2 = none →
      Carried s.shared b w r.1 ∧ Due w r.1 scope epoch raw) s := by
  have hnew : ∀ w, Due w (b.push scope epoch h raw) scope epoch raw := fun w =>
    .inr ⟨by simp [push], rfl, rfl⟩
  have hcarried : Carried s.shared b s.shared (b.push scope epoch h raw) := by
    rintro scope' epoch' segment (hk | ⟨hmem, rfl, rfl⟩)
    · exact .inl hk
    · rcases hrun with hnil | ⟨rfl, rfl⟩
      · rw [hnil] at hmem
        cases hmem
      · exact .inr ⟨List.mem_append_left _ hmem, rfl, rfl⟩
  unfold join
  dsimp only
  split
  · apply Keeps.mono flush_keeps
    intro r w _ hr hnone
    obtain ⟨-, hkept⟩ := hr hnone
    refine ⟨fun scope' epoch' segment hd => ?_, .inl (hkept _ _ _ (hnew _))⟩
    exact .inl (hkept _ _ _ (hcarried _ _ _ hd))
  · exact Keeps.ret fun _ => ⟨hcarried, hnew _⟩

theorem add_keeps {raw : Bytes} :
    Keeps i (b.add scope epoch raw) (fun r w => r.2 = none →
      Carried s.shared b w r.1 ∧ Due w r.1 scope epoch raw) s := by
  unfold add
  rcases decode raw with e | d
  · exact Keeps.ret nofun
  obtain ⟨h, payload⟩ := d
  dsimp only
  split
  · apply Keeps.seq flush_keeps
    rintro ⟨b', e⟩ s' he hr
    cases e with
    | some e => exact Keeps.ret nofun
    | none =>
      obtain ⟨hnil, hkept⟩ := hr rfl
      apply Keeps.mono (join_keeps (.inl hnil))
      intro r w he' hr hnone
      obtain ⟨hcar, hdue⟩ := hr hnone
      refine ⟨fun scope' epoch' segment hd => ?_, hdue⟩
      exact hcar _ _ _ (.inl (hkept _ _ _ hd))
  · next hsplit =>
    apply join_keeps
    by_cases hnil : b.segments = []
    · exact .inl hnil
    · right
      simp only [splits, hnil, ne_eq, not_false_eq_true, decide_true, Bool.true_and,
        Bool.or_eq_true, decide_eq_true_eq, not_or, not_not] at hsplit
      exact ⟨hsplit.1.1.1.1.1.1.symm, hsplit.1.1.1.1.1.2.symm⟩

theorem addAll_keeps : Keeps i (addAll scope epoch segments b) (fun r w => r.2 = none →
      Carried s.shared b w r.1 ∧ ∀ raw ∈ segments, Due w r.1 scope epoch raw) s := by
  induction segments generalizing b s with
  | nil => exact Keeps.ret fun _ => ⟨.refl (.refl _) b, by simp⟩
  | cons raw rest ih =>
    apply Keeps.seq add_keeps
    rintro ⟨b', e⟩ s' he hr
    cases e with
    | some e => exact Keeps.ret nofun
    | none =>
      obtain ⟨hcar, hdue⟩ := hr rfl
      apply Keeps.mono ih
      intro r w he' hr hnone
      obtain ⟨hcar', hall⟩ := hr hnone
      refine ⟨hcar.trans hcar', fun x hx => ?_⟩
      rcases List.mem_cons.1 hx with rfl | hx
      · exact hcar' _ _ _ hdue
      · exact hall x hx

end RecoveryBatch

end CellHive.Recovery
