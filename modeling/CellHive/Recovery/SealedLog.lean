import CellHive.Recovery.RecoverSpec

/-!
# A sealed node log has lost nothing

A recoverer stores a checkpoint only for frames it has read from a frozen log and uploaded,
and it seals the record only when every recorded follower is covered. So over every run of
recoverers, with their crashes and retries, the record keeps its promises
(`sealed_record_covers`).
-/

namespace CellHive.Recovery

open Go Ltx Bucket Concurrent NodeLog Cell Replica Replica.Manager

/-! ## The node log -/

variable {i : Nat} {s : Traced ops World} {r : Record}

theorem holder_congr {r' : Record} (h : Record.SameCoords r r') (addr : Str) :
    holder r' addr = holder r addr := by
  unfold holder
  rw [h.protoVersion, h.followerRefs]

theorem getRecord_keeps : Keeps i getRecord (fun res w =>
    ∀ x, res = .ok (some x) → w.record.cur = some x) s := by
  apply Keeps.seq (Keeps.read .getRecord rfl)
  intro res s' _ hres
  cases res with
  | ok x =>
    apply Keeps.ret
    rintro _ ⟨rfl⟩
    obtain ⟨c, w, -, heff⟩ := hres.ok x rfl
    dsimp only [effect] at heff
    split at heff
    · cases heff
    next y hy =>
    obtain ⟨hxy, hw⟩ := Prod.mk.inj heff
    cases hxy
    rw [← hw]
    exact hy
  | error e =>
    dsimp only
    split <;> exact Keeps.ret (by rintro _ ⟨⟩)

theorem needRecord_keeps : Keeps i needRecord (fun res w =>
    ∀ x, res = .ok x → w.record.cur = some x) s := by
  apply Keeps.seq getRecord_keeps
  intro res s' _ hres
  match res with
  | .error e => exact Keeps.ret nofun
  | .ok none => exact Keeps.ret nofun
  | .ok (some x) =>
    apply Keeps.ret
    rintro _ ⟨rfl⟩
    exact hres x rfl

theorem casRecord_keeps {x : Record × Nat} {new : Record} (hcur : s.shared.record.cur = some x)
    (hsame : Record.SameCoords x.1 new)
    (hok : ∀ w, Evolves s.shared w → RecordOk w x.1 → RecordOk w new) :
    Keeps i (ask (.casRecord new x.2)) (fun _ _ => True) s := by
  apply Keeps.mono (Keeps.perform (.casRecord new x.2) ?_) fun _ _ _ _ => trivial
  intro c w he
  apply evolves_casRecord
  intro y hy htag
  -- the version with the tag is the one that was read
  have hyx : y = x := he.later.eq_of_tag hcur hy htag
  subst hyx
  exact ⟨hsame, fun hi => hok w he (hi y hy)⟩

theorem setRecovering_keeps : Keeps i setRecovering (fun _ _ => True) s := by
  refine Keeps.seqOk needRecord_keeps (fun _ _ _ => Keeps.ret trivial) ?_
  rintro ⟨r, tag⟩ s' _ hres
  by_cases hs : r.status = .sealed
  · dsimp only
    rw [if_pos hs]
    exact Keeps.ret trivial
  · dsimp only
    rw [if_neg hs]
    refine casRecord_keeps (hres _ rfl) ⟨rfl, rfl, rfl, rfl, rfl⟩ fun w _ hw => ?_
    exact ⟨hw.progress, nofun, hw.idle⟩

theorem Evolves.sameCoords {w w' : World} {x : Record × Nat} (he : Evolves w w')
    (hcoords : HasCoords w r) (hcur : w'.record.cur = some x) : Record.SameCoords r x.1 := by
  obtain ⟨y, hy, hsame⟩ := he.coords r hcoords
  rw [hcur, Option.some.injEq] at hy
  exact hy ▸ hsame

theorem checkpointFrom_keeps {addr : Str} {h : Holder} {after : Nat} (attempts : Nat)
    (hcoords : HasCoords s.shared r) (hh : holder r addr = some h)
    (hc : CoveredTo s.shared h after) :
    Keeps i (checkpointFrom addr after attempts) (fun _ _ => True) s := by
  induction attempts generalizing s with
  | zero => exact Keeps.ret trivial
  | succ attempts ih =>
    refine Keeps.seqOk needRecord_keeps (fun _ _ _ => Keeps.ret trivial) ?_
    rintro ⟨r', tag⟩ s' he hres
    have hcur : s'.shared.record.cur = some (r', tag) := hres _ rfl
    have hsame := he.sameCoords hcoords hcur
    dsimp only
    split
    · exact Keeps.ret trivial
    split
    · exact Keeps.ret trivial
    refine Keeps.seq (P := fun _ _ => True) (casRecord_keeps hcur ⟨rfl, rfl, rfl, rfl, rfl⟩ ?_) ?_
    · intro w hw hr'
      refine ⟨fun addr' n h' hn hh' => ?_, hr'.done, hr'.idle⟩
      change holder r' addr' = some h' at hh'
      by_cases haddr : addr' = addr
      · subst haddr
        rw [AList.lookup_insert, Option.some.injEq] at hn
        subst hn
        rw [holder_congr hsame, hh, Option.some.injEq] at hh'
        subst hh'
        exact hw.grows.coveredTo (he.grows.coveredTo hc)
      · rw [AList.lookup_insert_ne haddr] at hn
        exact hr'.progress addr' n h' hn hh'
    · intro res s'' he' _
      cases res with
      | ok a => exact Keeps.ret trivial
      | error e =>
        dsimp only
        split
        · exact ih (he'.coords r (he.coords r hcoords))
            (he'.grows.coveredTo (he.grows.coveredTo hc))
        · exact Keeps.ret trivial

theorem sealCovered_keeps {covered : ByAddress Nat} (hcoords : HasCoords s.shared r)
    (hall : r.protoVersion.sessionLogs = true → ∀ addr ∈ r.followers,
      ∃ h, holder r addr = some h ∧ Covered s.shared h) :
    Keeps i (sealCovered covered) (fun _ _ => True) s := by
  refine Keeps.seqOk needRecord_keeps (fun _ _ _ => Keeps.ret trivial) ?_
  rintro ⟨r', tag⟩ s' he hres
  have hcur : s'.shared.record.cur = some (r', tag) := hres _ rfl
  have hsame := he.sameCoords hcoords hcur
  refine casRecord_keeps hcur ⟨rfl, rfl, rfl, rfl, rfl⟩ fun w hw hr' => ?_
  refine ⟨hr'.progress, fun _ hv addr haddr => ?_, hr'.idle⟩
  obtain ⟨h, hh, hcov⟩ := hall (hsame.protoVersion ▸ hv) addr (hsame.followers ▸ haddr)
  refine ⟨h, ?_, hw.grows.covered (he.grows.covered hcov)⟩
  rw [← hh]
  exact holder_congr hsame addr

/-! ## The tail of a follower -/

def Frozen (w : World) (h : Holder) (frames : List Frame) : Prop :=
  (w.logs h).sealed = true ∧ (w.logs h).frames = frames

theorem Frozen.evolves {w w' : World} {h : Holder} {frames : List Frame} (hf : Frozen w h frames)
    (he : Evolves w w') : Frozen w' h frames := by
  obtain ⟨hs, hframes⟩ := he.grows.frozen h hf.1
  exact ⟨hs, hframes.trans hf.2⟩

def FragmentOf (frames : List Frame) (x : SessionFragment) : Prop :=
  ∃ k, frames[k]? = some x.frame ∧ x.sequence = k + 1

theorem fragmentOf_fragments {l : SessionLog} {k : Nat} {x : SessionFragment}
    (h : l.fragments[k]? = some x) : FragmentOf l.frames x := by
  unfold SessionLog.fragments at h
  rw [List.getElem?_map, Option.map_eq_some_iff] at h
  obtain ⟨⟨frame, j⟩, hj, rfl⟩ := h
  rw [List.getElem?_zipIdx, Option.map_eq_some_iff] at hj
  obtain ⟨frame', hframe, heq⟩ := hj
  cases heq
  exact ⟨k, hframe, congrArg (· + 1) (Nat.zero_add k)⟩

def FrameDue (w : World) (b : RecoveryBatch) (frame : Frame) : Prop :=
  ∃ scope, Scope.parse frame.scope = some scope ∧
    ∀ segment ∈ frame.segments, Due w b scope frame.epoch segment

variable {h : Holder} {addr : Str} {addrs : List Str} {frames : List Frame} {t : Tally}
  {final after total : Nat}

theorem tail_keeps (hf : Frozen s.shared h frames) :
    Keeps i (ask (.tail h after)) (fun res _ =>
      ∀ page : List SessionFragment, res = .ok page → ∀ x ∈ page, FragmentOf frames x) s := by
  apply Keeps.mono (Keeps.read (.tail h after) rfl)
  rintro res w _ hres page rfl x hx
  obtain ⟨c, w₁, he, heff⟩ := hres.ok page rfl
  obtain ⟨-, hframes⟩ := hf.evolves he
  dsimp only [effect] at heff
  split at heff
  · cases heff
  split at heff
  · cases heff
    cases hx
  · obtain ⟨hpage, -⟩ := Prod.mk.inj heff
    cases hpage
    obtain ⟨k, -, hk⟩ := List.mem_filterMap.1 hx
    rw [← hframes]
    exact fragmentOf_fragments hk

theorem takePage_keeps {page : List SessionFragment} {b : RecoveryBatch}
    (hpage : ∀ x ∈ page, FragmentOf frames x) :
    Keeps i (takePage addr final page after b) (fun res w => ∀ n, res.2 = .ok n →
      n = after + page.length ∧ (page ≠ [] → n ≤ final) ∧ Carried s.shared b w res.1 ∧
        ∀ k, after ≤ k → k < n → ∃ frame, frames[k]? = some frame ∧ FrameDue w res.1 frame) s := by
  induction page generalizing after b s with
  | nil =>
    apply Keeps.ret
    rintro n ⟨rfl⟩
    refine ⟨rfl, fun h => absurd rfl h, .refl (.refl _) b, fun k hk hk' => ?_⟩
    omega
  | cons x rest ih =>
    unfold takePage
    split
    · exact Keeps.ret nofun
    next hseq =>
    obtain ⟨hnext, hfinal⟩ : x.sequence = after + 1 ∧ x.sequence ≤ final := by omega
    rcases hscope : Scope.parse x.frame.scope with _ | scope
    · exact Keeps.ret nofun
    apply Keeps.seq RecoveryBatch.addAll_keeps
    rintro ⟨b', e⟩ s' he hadd
    cases e with
    | some e => exact Keeps.ret nofun
    | none =>
      obtain ⟨hcar, hdue⟩ := hadd rfl
      apply Keeps.mono (ih fun y hy => hpage y (List.mem_cons_of_mem x hy))
      intro res w he' hres n hn
      obtain ⟨hlen, hle, hcar', hrest⟩ := hres n hn
      refine ⟨?_, fun _ => ?_, hcar.trans hcar', fun k hk hk' => ?_⟩
      · rw [hlen, List.length_cons]
        omega
      · by_cases hnil : rest = []
        · rw [hlen, hnil]
          omega
        · exact hle hnil
      · by_cases hka : k = after
        · -- the first frame of the page
          obtain ⟨j, hj, hjseq⟩ := hpage x List.mem_cons_self
          obtain rfl : j = k := by omega
          exact ⟨x.frame, hj, scope, hscope, fun segment hs => hcar' _ _ _ (hdue segment hs)⟩
        · exact hrest k (by omega) hk'

theorem tailRound_keeps (hcoords : HasCoords s.shared r) (hh : holder r addr = some h)
    (hf : Frozen s.shared h frames) (hc : CoveredTo s.shared h after) :
    Keeps i (tailRound h addr final after) (fun res w => ∀ n, res.2 = .ok n →
      after < n ∧ n ≤ final ∧ CoveredTo w h n) s := by
  refine Keeps.seqOk (tail_keeps hf) (fun _ _ _ => Keeps.ret nofun) fun page s₁ he₁ hpage => ?_
  dsimp only
  split
  · exact Keeps.ret nofun
  next hne =>
  have hne : page ≠ [] := fun h => hne (by rw [h]; rfl)
  apply Keeps.seq (takePage_keeps (hpage page rfl))
  rintro ⟨b, res⟩ s₂ he₂ hres
  rcases res with e | n
  · exact Keeps.ret nofun
  obtain ⟨hlen, hle, -, hdue⟩ := hres n rfl
  apply Keeps.seq RecoveryBatch.flush_keeps
  rintro ⟨b', e⟩ s₃ he₃ hflush
  cases e with
  | some e => exact Keeps.ret nofun
  | none =>
    obtain ⟨-, hkept⟩ := hflush rfl
    have he : Evolves s.shared s₃.shared := (he₁.trans he₂).trans he₃
    have hcov : CoveredTo s₃.shared h n := by
      intro k hk
      by_cases hka : k < after
      · exact he.grows.coveredTo hc k hka
      · obtain ⟨frame, hframe, scope, hscope, hall⟩ := hdue k (by omega) hk
        refine ⟨frame, ?_, scope, hscope, fun x hx => hkept _ _ _ (hall x hx)⟩
        rw [(hf.evolves he).2]
        exact hframe
    refine Keeps.seqOk (checkpointFrom_keeps 8 (he.coords r hcoords) hh hcov)
      (fun _ _ _ => Keeps.ret nofun) fun _ s₄ he₄ _ => ?_
    apply Keeps.ret
    rintro _ ⟨rfl⟩
    have hpos : 0 < page.length := List.length_pos_of_ne_nil hne
    exact ⟨by omega, hle hne, he₄.grows.coveredTo hcov⟩

theorem tailLoop_keeps {rounds : Nat} (hcoords : HasCoords s.shared r)
    (hh : holder r addr = some h) (hf : Frozen s.shared h frames)
    (hc : CoveredTo s.shared h after) (hrounds : final - after ≤ rounds) (hle : after ≤ final) :
    Keeps i (tailLoop h addr final rounds after total) (fun res w => res.2 = none →
      CoveredTo w h final) s := by
  induction rounds generalizing after total s with
  | zero =>
    obtain rfl : after = final := by omega
    exact Keeps.ret fun _ => hc
  | succ rounds ih =>
    unfold tailLoop
    split
    · next hge =>
      obtain rfl : after = final := by omega
      exact Keeps.ret fun _ => hc
    · apply Keeps.seq (tailRound_keeps hcoords hh hf hc)
      rintro ⟨n, res⟩ s' he hres
      cases res with
      | error e => exact Keeps.ret nofun
      | ok next =>
        obtain ⟨hlt, hnext, hcov⟩ := hres next rfl
        exact ih (he.coords r hcoords) (hf.evolves he) hcov (by omega) hnext

/-- The checkpoints of a record that was read are still behind what is kept. -/
def Checkpointed (w : World) (r : Record) : Prop :=
  ∀ addr n h, r.progress.lookup addr = some n → holder r addr = some h → CoveredTo w h n

theorem Checkpointed.evolves {w w' : World} (hp : Checkpointed w r) (he : Evolves w w') :
    Checkpointed w' r := fun addr n h hn hh => he.grows.coveredTo (hp addr n h hn hh)

theorem Checkpointed.progressOf {w : World} (hp : Checkpointed w r)
    (hh : holder r addr = some h) : CoveredTo w h (r.progressOf addr) := by
  unfold Record.progressOf
  cases hn : r.progress.lookup addr with
  | none =>
    intro k hk
    cases hk
  | some n => exact hp addr n h hn hh

theorem collectTail_keeps (hcoords : HasCoords s.shared r)
    (hp : Checkpointed s.shared r) (hh : holder r addr = some h)
    (hf : Frozen s.shared h frames) :
    Keeps i (collectTail r addr t h frames.length) (fun res w => res.2 = none → Covered w h) s := by
  unfold collectTail
  split
  · exact Keeps.ret nofun
  next hle =>
  apply Keeps.seq (tailLoop_keeps hcoords hh hf (hp.progressOf hh) le_rfl (by omega))
  rintro ⟨total, e⟩ s' he hres
  cases e with
  | some e => exact Keeps.ret nofun
  | none =>
    apply Keeps.ret
    intro _
    obtain ⟨hs, hframes⟩ := hf.evolves he
    exact ⟨hs, hframes ▸ hres rfl⟩

/-! ## All followers -/

variable {resolver : Bool} {last : Option Err}

theorem follower_keeps : Keeps i (follower resolver r addr) (fun res _ =>
    ∀ h, res = .ok h → holder r addr = some h) s := by
  unfold follower
  split
  · exact Keeps.ret nofun
  · next a ha =>
    apply Keeps.ret
    rintro _ ⟨rfl⟩
    exact ha
  · next id hid =>
    split
    · exact Keeps.ret nofun
    refine Keeps.seqOk (Keeps.read (.resolve id) rfl) (fun _ _ _ => Keeps.ret nofun) ?_
    intro a s' _ _
    apply Keeps.ret
    rintro _ ⟨rfl⟩
    exact hid

theorem seal_keeps (hcoords : HasCoords s.shared r)
    (hv : r.protoVersion.sessionLogs = true) : Keeps i (ask (.seal h)) (fun res w =>
      ∀ final, res = .ok final → ∃ frames, Frozen w h frames ∧ frames.length = final) s := by
  refine Keeps.mono (Keeps.perform (.seal h) fun c w he => evolves_seal (he.coords r hcoords) hv) ?_
  rintro res w' _ hres final rfl
  obtain ⟨c, w, -, heff⟩ := hres.ok final rfl
  obtain ⟨hfinal, rfl⟩ := Prod.mk.inj heff
  cases hfinal
  refine ⟨(w.logs h).frames, ⟨?_, ?_⟩, rfl⟩
  · simp [World.setLog]
  · simp [World.setLog]

theorem collectFollower_keeps (hcoords : HasCoords s.shared r)
    (hp : Checkpointed s.shared r) (hv : r.protoVersion.sessionLogs = true) :
    Keeps i (collectFollower resolver r addr t) (fun res w => res.2 = none →
      ∃ h, holder r addr = some h ∧ Covered w h) s := by
  refine Keeps.seqOk follower_keeps (fun _ _ _ => Keeps.ret nofun) fun h s₁ he₁ hres => ?_
  have hh := hres h rfl
  refine Keeps.seqOk (seal_keeps (he₁.coords r hcoords) hv) (fun _ _ _ => Keeps.ret nofun) ?_
  intro final s₂ he₂ hseal
  obtain ⟨frames, hf, rfl⟩ := hseal final rfl
  have he := he₁.trans he₂
  apply Keeps.mono (collectTail_keeps (he.coords r hcoords) (hp.evolves he) hh hf)
  intro res w _ hcov hnone
  exact ⟨h, hh, hcov hnone⟩

theorem collectFrom_keeps (hcoords : HasCoords s.shared r)
    (hp : Checkpointed s.shared r) (hv : r.protoVersion.sessionLogs = true) :
    Keeps i (collectFrom resolver r addrs t) (fun res w => res.2 = none →
      ∀ addr ∈ addrs, ∃ h, holder r addr = some h ∧ Covered w h) s := by
  induction addrs generalizing t s with
  | nil => exact Keeps.ret fun _ => by simp
  | cons addr rest ih =>
    apply Keeps.seq (collectFollower_keeps hcoords hp hv)
    rintro ⟨t', e⟩ s' he hres
    cases e with
    | some e => exact Keeps.ret nofun
    | none =>
      obtain ⟨h, hh, hcov⟩ := hres rfl
      apply Keeps.mono (ih (he.coords r hcoords) (hp.evolves he))
      intro res w he' hall hnone x hx
      rcases List.mem_cons.1 hx with rfl | hx
      · exact ⟨h, hh, he'.grows.covered hcov⟩
      · exact hall hnone x hx

/-! ### The first protocol -/

theorem collectHeld_keeps {held : List Held} :
    Keeps i (collectHeld held total last) (fun _ _ => True) s := by
  induction held generalizing total last s with
  | nil => exact Keeps.ret trivial
  | cons x rest ih =>
    unfold collectHeld
    split
    · exact ih
    apply Keeps.seq append_keeps
    intro res s' _ _
    cases res with
    | ok a => exact ih
    | error e =>
      dsimp only
      split
      · exact ih
      · exact ih

theorem collectSpools_keeps : Keeps i (collectSpools addrs total last) (fun _ _ => True) s := by
  induction addrs generalizing total last s with
  | nil => exact Keeps.ret trivial
  | cons addr rest ih =>
    apply Keeps.seq (Keeps.read (.held addr) rfl)
    intro res s' _ _
    cases res with
    | error e => exact ih
    | ok held => exact Keeps.seq collectHeld_keeps fun _ _ _ _ => ih

theorem collect_keeps : Keeps i (collect addrs) (fun _ _ => True) s := by
  apply Keeps.seq collectSpools_keeps
  rintro ⟨total, e⟩ s' _ _
  cases e with
  | none | some => exact Keeps.ret trivial

/-! ## Whole calls -/

variable {m : Manager} {node session : Str}

theorem copyFollowers_keeps (hcoords : HasCoords s.shared r) (hp : Checkpointed s.shared r) :
    Keeps i (copyFollowers m r) (fun res w => res.2 = none →
      r.protoVersion.sessionLogs = true → ∀ addr ∈ r.followers,
        ∃ h, holder r addr = some h ∧ Covered w h) s := by
  unfold copyFollowers
  split
  · next hnil =>
    apply Keeps.ret
    intro _ _ addr haddr
    rw [hnil] at haddr
    cases haddr
  split
  · next hv =>
    unfold collectSealed
    split
    · exact Keeps.ret nofun
    · exact Keeps.mono (collectFrom_keeps hcoords hp hv) fun _ _ _ h hnone _ => h hnone
  · next hv =>
    refine Keeps.seq collect_keeps fun res s' _ _ => ?_
    exact Keeps.ret fun _ hv' => absurd hv' hv

theorem reclaimAll_keeps : Keeps i (reclaimAll m r addrs) (fun _ _ => True) s := by
  induction addrs generalizing s with
  | nil => exact Keeps.ret trivial
  | cons addr rest ih =>
    apply Keeps.seq follower_keeps
    intro res s' _ _
    cases res with
    | error e => exact ih
    | ok h =>
      apply Keeps.seq (Keeps.perform (.reclaim h) fun _ _ _ => evolves_reclaim)
      intro _ _ _ _
      exact ih

theorem recoverFenced_keeps (hcoords : HasCoords s.shared r) (hp : Checkpointed s.shared r) :
    Keeps i (recoverFenced m r) (fun _ _ => True) s := by
  apply Keeps.seq (copyFollowers_keeps hcoords hp)
  rintro ⟨t, e⟩ s₁ he₁ hres
  cases e with
  | some e => exact Keeps.ret trivial
  | none =>
    refine Keeps.seqOk (sealCovered_keeps (he₁.coords r hcoords) (hres rfl))
      (fun _ _ _ => Keeps.ret trivial) fun _ _ _ _ => ?_
    exact Keeps.seq reclaimAll_keeps fun _ _ _ _ => Keeps.ret trivial

theorem recover_keeps (hinv : Inv s.shared) :
    Keeps i (recover m node session) (fun _ _ => True) s := by
  apply Keeps.seq getRecord_keeps
  intro res s₁ he₁ hres
  match res with
  | .error e => exact Keeps.ret trivial
  | .ok none => exact Keeps.ret trivial
  | .ok (some (r, tag)) =>
    have hcur : s₁.shared.record.cur = some (r, tag) := hres _ rfl
    have hcoords : HasCoords s₁.shared r := ⟨_, hcur, .refl r⟩
    have hp : Checkpointed s₁.shared r := (he₁.inv hinv _ hcur).progress
    dsimp only
    split
    · exact Keeps.ret trivial
    split
    · exact Keeps.ret trivial
    split
    · exact Keeps.ret trivial
    refine Keeps.seqOk (Keeps.read .checkSession rfl) (fun _ _ _ => Keeps.ret trivial) ?_
    intro _ s₂ he₂ _
    dsimp only
    split
    · exact Keeps.ret trivial
    refine Keeps.seqOk setRecovering_keeps (fun _ _ _ => Keeps.ret trivial) fun _ s₃ he₃ _ => ?_
    have he := he₂.trans he₃
    exact recoverFenced_keeps (he.coords r hcoords) (hp.evolves he)

theorem purge_keeps {key : ObjectKey} : Keeps i (purge key) (fun _ _ => True) s := by
  refine Keeps.seqOk (Keeps.read (.readFence key.scope false) rfl)
    (fun _ _ _ => Keeps.ret trivial) fun f s₁ _ hres => ?_
  dsimp only
  split
  · next hf =>
    have hb := readFence_blocked hres hf
    refine Keeps.seqOk (Keeps.read (.get key) rfl) (fun _ _ _ => Keeps.ret trivial) ?_
    intro x s₂ he₂ _
    refine Keeps.seq (Keeps.perform (.delete key x.2) fun c w he => ?_) fun _ _ _ _ =>
      Keeps.ret trivial
    exact evolves_delete (he.grows.blocked _ _ (he₂.grows.blocked _ _ hb))
  · exact Keeps.ret trivial

theorem call_keeps {call : Call} (hinv : Inv s.shared) :
    Keeps i (call.prog node session) (fun _ _ => True) s := by
  cases call with
  | recover m => exact recover_keeps hinv
  | ship h frames =>
    exact Keeps.seq (Keeps.perform (.ship h frames) fun _ _ _ => evolves_ship) fun _ _ _ _ =>
      Keeps.ret trivial
  | setFence scope f =>
    exact Keeps.seq (Keeps.perform (.setFence scope f) fun _ _ _ => evolves_setFence)
      fun _ _ _ _ => Keeps.ret trivial
  | purge key => exact Keeps.seq purge_keeps fun _ _ _ _ => Keeps.ret trivial

/-! ## Runs -/

/-- Before any recovery: no checkpoint is stored and no log is frozen. -/
structure Fresh (w : World) : Prop where
  record : ∀ x ∈ w.record.cur, x.1.status ≠ .sealed ∧ x.1.progress = ∅
  logs : ∀ h, (w.logs h).sealed = false

/-- Callers about to make some calls. -/
def start (node session : Str) (w : World) (calls : List Call) : Pool ops World (Nat × Option Err) :=
  ⟨⟨w, []⟩, calls.map (Call.prog node session)⟩

theorem Fresh.inv {w : World} (h : Fresh w) : Inv w := by
  intro x hx
  obtain ⟨hstatus, hprogress⟩ := h.record x hx
  refine ⟨fun addr n h' hn _ => ?_, fun hs => absurd hs hstatus, fun _ => h.logs⟩
  rw [hprogress] at hn
  cases hn

theorem inv_run {node session : Str} {w : World} {calls : List Call}
    {schedule : List (Nat × Choice)} {pool : Pool ops World (Nat × Option Err)}
    (hfresh : Fresh w) (hrun : (start node session w calls).run exec schedule = some pool) :
    Inv pool.state.shared := by
  have hmoves : Moves (start node session w calls).state pool.state := by
    refine Pool.run_evolves (R := Moves) (fun _ _ _ => Evolves.trans) (fun _ => Evolves.refl _) ?_ hrun
    intro i p hp
    rw [start, List.getElem?_map, Option.map_eq_some_iff] at hp
    obtain ⟨call, -, rfl⟩ := hp
    exact Spec.mono (call_keeps hfresh.inv) fun _ _ _ => trivial
  exact hmoves.inv hfresh.inv

/-- In every run of recoverers and of those around them that ends with a sealed record, the
log of every recorded follower is frozen if the session has such logs, and every segment of
every frame of a frozen log is stored under its scope and epoch, or the fence of its scope
has blocked the epoch. -/
theorem sealed_record_covers {node session : Str} {w : World} {calls : List Call}
    {schedule : List (Nat × Choice)} {pool : Pool ops World (Nat × Option Err)} {r : Record}
    {tag : Nat} (hfresh : Fresh w)
    (hrun : (start node session w calls).run exec schedule = some pool)
    (hcur : pool.state.shared.record.cur = some (r, tag)) (hsealed : r.status = .sealed) :
    ∀ addr ∈ r.followers,
      (r.protoVersion.sessionLogs = true →
        ∃ h, holder r addr = some h ∧ (pool.state.shared.logs h).sealed = true) ∧
      ∀ h, holder r addr = some h → (pool.state.shared.logs h).sealed = true →
        ∀ frame ∈ (pool.state.shared.logs h).frames,
          ∃ scope, Scope.parse frame.scope = some scope ∧ ∀ segment ∈ frame.segments,
            Stored pool.state.shared scope frame.epoch segment ∨
              Blocked pool.state.shared scope frame.epoch := by
  have hok : RecordOk pool.state.shared r := inv_run hfresh hrun _ hcur
  intro addr haddr
  refine ⟨fun hv => ?_, fun h hh hs frame hframe => ?_⟩
  · obtain ⟨h, hh, hcov⟩ := hok.done hsealed hv addr haddr
    exact ⟨h, hh, hcov.frozen⟩
  · have hv : r.protoVersion.sessionLogs = true := by
      by_contra hno
      rw [hok.idle (Bool.eq_false_of_not_eq_true hno) h] at hs
      cases hs
    obtain ⟨h', hh', hcov⟩ := hok.done hsealed hv addr haddr
    rw [hh, Option.some.injEq] at hh'
    subst hh'
    obtain ⟨k, hk, hget⟩ := List.getElem_of_mem hframe
    obtain ⟨frame', hframe', hkept⟩ := hcov.kept k hk
    rw [List.getElem?_eq_getElem hk, hget, Option.some.injEq] at hframe'
    subst hframe'
    exact hkept

/-- In every run, the frames below a recorded checkpoint are stored or blocked: a retry may skip
them. -/
theorem checkpoints_covered {node session : Str} {w : World} {calls : List Call}
    {schedule : List (Nat × Choice)} {pool : Pool ops World (Nat × Option Err)} {r : Record}
    {tag : Nat} (hfresh : Fresh w)
    (hrun : (start node session w calls).run exec schedule = some pool)
    (hcur : pool.state.shared.record.cur = some (r, tag)) : Checkpointed pool.state.shared r :=
  (inv_run hfresh hrun _ hcur).progress

/-! ## A run -/

/-- A delta of one transaction without pages. -/
def oneSegment : Bytes :=
  encode { version := 1, kind := kindDelta, flags := 0, epoch := 1, startTxID := 1, endTxID := 1,
           length := 0, crc := 0 } []

def oneFrame : Frame := ⟨[110, 47, 99, 47, 105], 1, [oneSegment]⟩

def oneFollower : World where
  record := Versioned.absent.store
    { node := ['n'], session := ['s'], epoch := 1, followerRefs := ∅, progress := ∅,
      followers := [['a']], status := .opened, protoVersion := .session, coveredSeq := ∅ }
  logs := fun _ => ⟨[oneFrame], false, false⟩
  objects := ⟨[], 0⟩
  fences := fun _ => []

def oneRecovery : List (Nat × Choice) := List.replicate 14 (0, ⟨none, [0], [], false⟩)

theorem oneFollower_fresh : Fresh oneFollower where
  record := by
    rintro x hx
    cases hx
    exact ⟨nofun, rfl⟩
  logs _ := rfl

theorem sealed_record_covers_one : ∃ pool r tag,
    (start ['n'] ['s'] oneFollower [.recover ⟨true, true⟩]).run exec oneRecovery = some pool ∧
      pool.state.shared.record.cur = some (r, tag) ∧ r.status = .sealed ∧ ['a'] ∈ r.followers ∧
      ∀ frame ∈ (pool.state.shared.logs (.address ['a'])).frames,
        ∃ scope, Scope.parse frame.scope = some scope ∧ ∀ segment ∈ frame.segments,
          Stored pool.state.shared scope frame.epoch segment ∨
            Blocked pool.state.shared scope frame.epoch := by
  have hview : ((start ['n'] ['s'] oneFollower [.recover ⟨true, true⟩]).run exec oneRecovery).map
      (fun pool => pool.state.shared.record.cur.map fun x =>
        (x.1.status, x.1.followers, x.1.protoVersion)) =
      some (some (.sealed, [['a']], .session)) := by
    decide +kernel
  obtain ⟨pool, hrun, hcur⟩ := Option.map_eq_some_iff.1 hview
  obtain ⟨⟨r, tag⟩, hcur, hr⟩ := Option.map_eq_some_iff.1 hcur
  simp only [Prod.mk.injEq] at hr
  obtain ⟨hstatus, hfollowers, hproto⟩ := hr
  have hmem : ['a'] ∈ r.followers := by
    rw [hfollowers]
    exact List.mem_singleton_self _
  have hholder : holder r ['a'] = some (.address ['a']) := by
    unfold holder
    rw [hproto]
    rfl
  obtain ⟨hfrozen, hall⟩ := sealed_record_covers oneFollower_fresh hrun hcur hstatus _ hmem
  obtain ⟨h, hh, hs⟩ := hfrozen (by rw [hproto]; rfl)
  rw [hholder, Option.some.injEq] at hh
  subst hh
  exact ⟨pool, r, tag, hrun, hcur, hstatus, hmem, hall _ hholder hs⟩

theorem checkpoints_covered_one : ∃ pool r tag,
    (start ['n'] ['s'] oneFollower [.recover ⟨true, true⟩]).run exec oneRecovery = some pool ∧
      pool.state.shared.record.cur = some (r, tag) ∧ r.progress.lookup ['a'] = some 1 ∧
      Checkpointed pool.state.shared r := by
  have hview : ((start ['n'] ['s'] oneFollower [.recover ⟨true, true⟩]).run exec oneRecovery).map
      (fun pool => pool.state.shared.record.cur.map fun x => x.1.progress.lookup ['a']) =
      some (some (some 1)) := by
    decide +kernel
  obtain ⟨pool, hrun, hcur⟩ := Option.map_eq_some_iff.1 hview
  obtain ⟨⟨r, tag⟩, hcur, hr⟩ := Option.map_eq_some_iff.1 hcur
  exact ⟨pool, r, tag, hrun, hcur, hr, checkpoints_covered oneFollower_fresh hrun hcur⟩

end CellHive.Recovery
