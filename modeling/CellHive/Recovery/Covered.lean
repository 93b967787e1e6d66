import CellHive.Recovery.Recover

/-!
# What is covered

A segment is kept if an object of its scope and epoch holds it, or if the fence of the scope
has blocked the epoch. `RecordOk` says what the node-log record promises: up to a stored
checkpoint every frame is kept, and a sealed record has only frozen and completely kept logs.
`Evolves` is how the shared state moves: logs only grow and stop at a seal, what is kept stays
kept, the coordinates of the record stay. One lemma for each operation says that it
moves the state that way.
-/

namespace CellHive.Recovery

open Go Ltx Bucket Concurrent NodeLog Cell Replica Replica.Manager

/-- A segment of the epoch: it decodes, and its header names the epoch. -/
def OfEpoch (epoch : UInt64) (segment : Bytes) : Prop :=
  ∃ h payload, decode segment = .ok (h, payload) ∧ h.epoch = epoch

def Stored (w : World) (scope : Scope) (epoch : UInt64) (segment : Bytes) : Prop :=
  ∃ (name : Str) (parts : List Bytes) (tag : Nat),
    w.objects.get ⟨scope, epoch, name⟩ = some (parts.flatten, tag) ∧ segment ∈ parts ∧
      ∀ p ∈ parts, OfEpoch epoch p

def Blocked (w : World) (scope : Scope) (epoch : UInt64) : Prop :=
  ∃ f ∈ w.fences scope, f.blocks epoch = true

def Kept (w : World) (scope : Scope) (epoch : UInt64) (segment : Bytes) : Prop :=
  Stored w scope epoch segment ∨ Blocked w scope epoch

def FrameKept (w : World) (frame : Frame) : Prop :=
  ∃ scope, Scope.parse frame.scope = some scope ∧
    ∀ segment ∈ frame.segments, Kept w scope frame.epoch segment

def CoveredTo (w : World) (h : Holder) (n : Nat) : Prop :=
  ∀ k < n, ∃ frame, (w.logs h).frames[k]? = some frame ∧ FrameKept w frame

structure Covered (w : World) (h : Holder) : Prop where
  frozen : (w.logs h).sealed = true
  kept : CoveredTo w h (w.logs h).frames.length

structure RecordOk (w : World) (r : Record) : Prop where
  progress : ∀ addr n h, r.progress.lookup addr = some n → holder r addr = some h →
    CoveredTo w h n
  done : r.status = .sealed → r.protoVersion.sessionLogs = true → ∀ addr ∈ r.followers,
    ∃ h, holder r addr = some h ∧ Covered w h
  idle : r.protoVersion.sessionLogs = false → ∀ h, (w.logs h).sealed = false

def Inv (w : World) : Prop := ∀ x ∈ w.record.cur, RecordOk w x.1

structure Grows (w w' : World) : Prop where
  frames : ∀ h, (w.logs h).frames <+: (w'.logs h).frames
  frozen : ∀ h, (w.logs h).sealed = true →
    (w'.logs h).sealed = true ∧ (w'.logs h).frames = (w.logs h).frames
  kept : ∀ scope epoch segment, Kept w scope epoch segment → Kept w' scope epoch segment
  blocked : ∀ scope epoch, Blocked w scope epoch → Blocked w' scope epoch

def HasCoords (w : World) (r : Record) : Prop :=
  ∃ x, w.record.cur = some x ∧ Record.SameCoords r x.1

/-- How the shared state moves. -/
structure Evolves (w w' : World) : Prop where
  grows : Grows w w'
  later : Versioned.Later w.record w'.record
  coords : ∀ r, HasCoords w r → HasCoords w' r
  inv : Inv w → Inv w'

section Grows

variable {w w' w'' : World} {h : Holder} {n : Nat} {r : Record}

theorem Grows.refl (w : World) : Grows w w :=
  ⟨fun _ => List.prefix_rfl, fun _ hs => ⟨hs, rfl⟩, fun _ _ _ hk => hk, fun _ _ hb => hb⟩

theorem Grows.trans (hg : Grows w w') (hg' : Grows w' w'') : Grows w w'' where
  frames h := (hg.frames h).trans (hg'.frames h)
  frozen h hs := by
    obtain ⟨hs', hf⟩ := hg.frozen h hs
    obtain ⟨hs'', hf'⟩ := hg'.frozen h hs'
    exact ⟨hs'', hf'.trans hf⟩
  kept scope epoch segment hk := hg'.kept _ _ _ (hg.kept _ _ _ hk)
  blocked scope epoch hb := hg'.blocked _ _ (hg.blocked _ _ hb)

theorem Grows.coveredTo (hg : Grows w w') (hc : CoveredTo w h n) : CoveredTo w' h n := by
  intro k hk
  obtain ⟨frame, hframe, scope, hscope, hall⟩ := hc k hk
  obtain ⟨rest, hrest⟩ := hg.frames h
  refine ⟨frame, ?_, scope, hscope, fun segment hs => hg.kept _ _ _ (hall segment hs)⟩
  have hlt : k < (w.logs h).frames.length := (List.getElem?_eq_some_iff.1 hframe).1
  rw [← hrest, List.getElem?_append_left hlt]
  exact hframe

theorem Grows.covered (hg : Grows w w') (hc : Covered w h) : Covered w' h := by
  obtain ⟨hs, hf⟩ := hg.frozen h hc.frozen
  refine ⟨hs, ?_⟩
  rw [hf]
  exact hg.coveredTo hc.kept

theorem RecordOk.grows (hr : RecordOk w r) (hg : Grows w w')
    (hidle : r.protoVersion.sessionLogs = false → ∀ h, (w'.logs h).sealed = (w.logs h).sealed) :
    RecordOk w' r where
  progress addr n h hp hh := hg.coveredTo (hr.progress addr n h hp hh)
  done hs hv addr ha := by
    obtain ⟨h, hh, hc⟩ := hr.done hs hv addr ha
    exact ⟨h, hh, hg.covered hc⟩
  idle hv h := (hidle hv h).trans (hr.idle hv h)

theorem Evolves.refl (w : World) : Evolves w w :=
  ⟨.refl w, .refl _, fun _ h => h, fun h => h⟩

theorem Evolves.trans (he : Evolves w w') (he' : Evolves w' w'') : Evolves w w'' where
  grows := he.grows.trans he'.grows
  later := he.later.trans he'.later
  coords r hc := he'.coords r (he.coords r hc)
  inv hi := he'.inv (he.inv hi)

theorem evolves_of_grows (hg : Grows w w') (hrecord : w'.record = w.record)
    (hidle : ∀ x, w.record.cur = some x → x.1.protoVersion.sessionLogs = false →
      ∀ h, (w'.logs h).sealed = (w.logs h).sealed) : Evolves w w' where
  grows := hg
  later := by
    rw [hrecord]
    exact .refl _
  coords r hc := by
    unfold HasCoords
    rw [hrecord]
    exact hc
  inv hi x hx := by
    rw [hrecord] at hx
    exact (hi x hx).grows hg (hidle x hx)

/-! ## The operations -/

theorem blocks_of_fence {scope : Scope} {epoch : UInt64}
    (hb : (w.fence scope).blocks epoch = true) : Blocked w scope epoch := by
  unfold World.fence at hb
  cases hf : w.fences scope with
  | nil =>
    rw [hf] at hb
    simp [Fence.blocks] at hb
  | cons f rest =>
    rw [hf] at hb
    exact ⟨f, by rw [hf]; exact List.mem_cons_self, hb⟩

/-- A change of the objects that only removes what a fence has blocked. -/
theorem grows_objects {objects : Objects ObjectKey Bytes}
    (hobj : ∀ k x, w.objects.get k = some x →
      objects.get k = some x ∨ Blocked w k.scope k.epoch) : Grows w { w with objects } where
  frames _ := List.prefix_rfl
  frozen _ hs := ⟨hs, rfl⟩
  kept scope epoch segment hk := by
    rcases hk with ⟨name, parts, tag, hget, hmem, hparts⟩ | hb
    · rcases hobj _ _ hget with hget' | hb
      · exact .inl ⟨name, parts, tag, hget', hmem, hparts⟩
      · exact .inr hb
    · exact .inr hb
  blocked _ _ hb := hb

theorem evolves_objects {objects : Objects ObjectKey Bytes}
    (hobj : ∀ k x, w.objects.get k = some x →
      objects.get k = some x ∨ Blocked w k.scope k.epoch) : Evolves w { w with objects } :=
  evolves_of_grows (grows_objects hobj) rfl fun _ _ _ _ => rfl

variable {c : Choice}

theorem evolves_create {key : ObjectKey} {data : Bytes} :
    Evolves w (effect c w (.create key data)).2 := by
  dsimp only [effect]
  split
  · exact .refl w
  next o ho =>
  obtain ⟨hnew, -, hget⟩ := Objects.create_eq_some ho
  apply evolves_objects
  intro k x hx
  left
  rw [hget, if_neg]
  · exact hx
  · rintro rfl
    rw [Objects.get_eq_none.2 hnew] at hx
    cases hx

theorem evolves_delete {key : ObjectKey} {tag : Nat} (hb : Blocked w key.scope key.epoch) :
    Evolves w (effect c w (.delete key tag)).2 := by
  dsimp only [effect]
  split
  · exact .refl w
  next o ho =>
  apply evolves_objects
  intro k x hx
  by_cases hk : k = key
  · subst hk
    exact .inr hb
  · left
    rw [Objects.delete_eq_some ho, if_neg hk]
    exact hx

theorem grows_setLog {l : SessionLog} (hframes : (w.logs h).frames <+: l.frames)
    (hfrozen : (w.logs h).sealed = true → l.sealed = true ∧ l.frames = (w.logs h).frames) :
    Grows w (w.setLog h l) where
  frames h' := by
    unfold World.setLog
    dsimp only
    split
    · next heq => rw [heq]; exact hframes
    · exact List.prefix_rfl
  frozen h' hs := by
    unfold World.setLog
    dsimp only
    split
    · next heq => rw [heq] at hs ⊢; exact hfrozen hs
    · exact ⟨hs, rfl⟩
  kept _ _ _ hk := hk
  blocked _ _ hb := hb

theorem sealed_setLog {l : SessionLog} (hl : l.sealed = (w.logs h).sealed) (h' : Holder) :
    ((w.setLog h l).logs h').sealed = (w.logs h').sealed := by
  unfold World.setLog
  dsimp only
  split
  · next heq => rw [heq]; exact hl
  · rfl

theorem evolves_seal (hc : HasCoords w r) (hv : r.protoVersion.sessionLogs = true) :
    Evolves w (effect c w (.seal h)).2 := by
  apply evolves_of_grows
  · exact grows_setLog List.prefix_rfl fun _ => ⟨rfl, rfl⟩
  · rfl
  · intro x hx hno
    obtain ⟨y, hy, hsame⟩ := hc
    rw [hx, Option.some.injEq] at hy
    subst hy
    rw [hsame.protoVersion, hv] at hno
    cases hno

theorem evolves_reclaim : Evolves w (effect c w (.reclaim h)).2 := by
  dsimp only [effect]
  split
  · exact .refl w
  · exact evolves_of_grows (grows_setLog List.prefix_rfl fun hs => ⟨hs, rfl⟩) rfl
      fun _ _ _ => sealed_setLog rfl

theorem evolves_ship {frames : List Frame} : Evolves w (effect c w (.ship h frames)).2 := by
  dsimp only [effect]
  split
  · exact .refl w
  · next hs =>
    exact evolves_of_grows (grows_setLog (List.prefix_append _ _) fun hs' => absurd hs' hs) rfl
      fun _ _ _ => sealed_setLog rfl

theorem evolves_setFence {scope : Scope} {f : Fence} :
    Evolves w (effect c w (.setFence scope f)).2 := by
  have hmono : ∀ s epoch, Blocked w s epoch → Blocked (w.setFence scope f) s epoch := by
    rintro s epoch ⟨f', hf', hb⟩
    refine ⟨f', ?_, hb⟩
    unfold World.setFence
    dsimp only
    split
    · exact List.mem_cons_of_mem _ hf'
    · exact hf'
  apply evolves_of_grows
  · exact
      { frames := fun _ => List.prefix_rfl
        frozen := fun _ hs => ⟨hs, rfl⟩
        kept := fun s epoch segment hk => hk.imp id (hmono s epoch)
        blocked := hmono }
  · rfl
  · intro x _ _ h
    rfl

theorem evolves_casRecord {tag : Nat} {new : Record}
    (hcur : ∀ x, w.record.cur = some x → x.2 = tag →
      Record.SameCoords x.1 new ∧ (Inv w → RecordOk w new)) :
    Evolves w (effect c w (.casRecord new tag)).2 := by
  dsimp only [effect]
  split
  · exact .refl w
  next v hv =>
  obtain ⟨⟨old, hold⟩, rfl⟩ := Versioned.cas_eq_some hv
  obtain ⟨hsame, hok⟩ := hcur _ hold rfl
  have hgrows : Grows w { w with record := w.record.store new } :=
    { frames := fun _ => List.prefix_rfl
      frozen := fun _ hs => ⟨hs, rfl⟩
      kept := fun _ _ _ hk => hk
      blocked := fun _ _ hb => hb }
  refine ⟨hgrows, Versioned.later_store _ _, ?_, ?_⟩
  · rintro r ⟨x, hx, hr⟩
    rw [hold, Option.some.injEq] at hx
    subst hx
    exact ⟨_, rfl, hr.trans hsame⟩
  · intro hi x hx
    obtain rfl : (new, w.record.fresh) = x := Option.some.inj hx
    exact (hok hi).grows hgrows fun _ _ => rfl

end Grows

end CellHive.Recovery
