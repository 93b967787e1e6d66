import CellHive.SqlCapture.Loop

/-!
# Covered transactions

A transaction is covered by committed segments when a complete snapshot, or the baseline
the capture started from, is followed by deltas without a hole up to it. The barrier of a
sound fleet stands at a covered transaction. What the loop has in flight is a queue: each
commit covers its end once it and those before it have succeeded.
-/

namespace CellHive.SqlCapture

open Go Concurrent Ltx

/-! ## Deltas in a row -/

def IsDelta (epoch startTxID endTxID : UInt64) (segment : Bytes) : Prop :=
  ∃ payload, segment = encode ⟨version, kindDelta, 0, epoch, startTxID, endTxID, 0, 0⟩ payload

/-- Deltas that begin behind `s`, each behind the end of the one before, up to `e`. -/
inductive Follows (epoch s : UInt64) : List Bytes → UInt64 → Prop where
  | nil : Follows epoch s [] s
  | snoc {deltas : List Bytes} {e : UInt64} {segment : Bytes} {n : Nat} :
    Follows epoch s deltas e → n ≤ maxCaptureTransactions →
    IsDelta epoch (e + 1) (e + UInt64.ofNat n) segment →
    Follows epoch s (deltas ++ [segment]) (e + UInt64.ofNat n)

/-- Some delta's range has the transaction. -/
def InSome (epoch : UInt64) (deltas : List Bytes) (t : UInt64) : Prop :=
  ∃ d ∈ deltas, ∃ a b, IsDelta epoch a b d ∧ a ≤ t ∧ t ≤ b

section Follows

variable {epoch s e : UInt64} {deltas : List Bytes}

/-- Counted without wrapping around: `N` transactions behind `s`, each in one delta. -/
theorem Follows.positions (h : Follows epoch s deltas e) :
    ∃ N, e = UInt64.ofNat (s.toNat + N) ∧ ∀ T, s.toNat < T → T ≤ s.toNat + N →
      ∃ d ∈ deltas, ∃ P n, n ≤ maxCaptureTransactions ∧ P < T ∧ T ≤ P + n ∧ P + n ≤ s.toNat + N ∧
        IsDelta epoch (UInt64.ofNat (P + 1)) (UInt64.ofNat (P + n)) d := by
  induction h with
  | nil =>
    refine ⟨0, by simp, fun T h1 h2 => ?_⟩
    omega
  | @snoc deltas e segment n _ hn hdelta ih =>
    obtain ⟨N, rfl, hall⟩ := ih
    refine ⟨N + n, ?_, ?_⟩
    · rw [← Nat.add_assoc]
      exact (UInt64.ofNat_add _ _).symm
    intro T h1 h2
    by_cases hT : T ≤ s.toNat + N
    · obtain ⟨d, hd, P, m, hm, hP, hPT, hPm, hisDelta⟩ := hall T h1 hT
      exact ⟨d, List.mem_append_left _ hd, P, m, hm, hP, hPT, by omega, hisDelta⟩
    refine ⟨segment, List.mem_append_right _ List.mem_cons_self, s.toNat + N, n, hn, by omega,
      by omega, by omega, ?_⟩
    have hstart : UInt64.ofNat (s.toNat + N + 1) = UInt64.ofNat (s.toNat + N) + 1 :=
      UInt64.ofNat_add _ _
    have hend : UInt64.ofNat (s.toNat + N + n) = UInt64.ofNat (s.toNat + N) + UInt64.ofNat n :=
      UInt64.ofNat_add _ _
    rw [hstart, hend]
    exact hdelta

theorem Follows.inSome (h : Follows epoch s deltas e) {t : UInt64} (hs : s < t) (he : t ≤ e) :
    InSome epoch deltas t := by
  obtain ⟨N, rfl, hall⟩ := h.positions
  rw [UInt64.lt_iff_toNat_lt] at hs
  rw [UInt64.le_iff_toNat_le, UInt64.toNat_ofNat'] at he
  have hlt : ∀ n ≤ maxCaptureTransactions, n ≤ 512 := fun n hn => hn
  -- the last time the count passes `t`, and the first one
  obtain ⟨q, hq⟩ : ∃ q, q = (s.toNat + N) / 2 ^ 64 := ⟨_, rfl⟩
  obtain ⟨d, hd, P, n, hn, hP, hPT, hPn, hdelta⟩ :=
    hall (t.toNat + 2 ^ 64 * q) (by omega) (by omega)
  have hn' := hlt n hn
  by_cases hstraddle : 2 ^ 64 * q ≤ P
  · refine ⟨d, hd, _, _, hdelta, ?_, ?_⟩
    all_goals
      rw [UInt64.le_iff_toNat_le, UInt64.toNat_ofNat']
      omega
  · obtain ⟨d, hd, P', n', hn, hP', hPT', hPn', hdelta⟩ := hall t.toNat hs (by omega)
    have hn' := hlt n' hn
    refine ⟨d, hd, _, _, hdelta, ?_, ?_⟩
    all_goals
      rw [UInt64.le_iff_toNat_le, UInt64.toNat_ofNat']
      omega

end Follows

/-! ## Snapshots -/

/-- The parts of one snapshot are among the segments: part `i` has the `i`-th run of pages,
and the runs together are the pages 1 to `commit`. -/
def CompleteSnapshot (epoch label : UInt64) (segments : List Bytes) : Prop :=
  ∃ (compress : Bool) (pageSize commit : UInt32) (parts : List (List WALPage × Bytes)),
    0 < commit.toNat ∧
    (parts.flatMap (·.1)).map (·.pageNo.toNat) = List.range' 1 commit.toNat ∧
    (∀ i p, parts[i]? = some p → encodeSnapshotPart compress
      ⟨version, kindSnapshot, 0, epoch, label, label, 0, 0⟩ pageSize commit p.1 i parts.length =
        .ok p.2) ∧
    ∀ p ∈ parts, p.2 ∈ segments

def Anchored (epoch baseline : UInt64) (segments : List Bytes) (s : UInt64) : Prop :=
  s = baseline ∨ CompleteSnapshot epoch s segments

/-- A complete snapshot or the baseline `s` is among the segments with deltas in a row from
`s` on to `txid` or further (none if `txid ≤ s`). -/
def Covered (epoch baseline : UInt64) (segments : List Bytes) (txid : UInt64) : Prop :=
  ∃ s deltas e, Anchored epoch baseline segments s ∧ Follows epoch s deltas e ∧
    (∀ d ∈ deltas, d ∈ segments) ∧ txid ≤ e ∧ ∀ t, s < t → t ≤ txid → InSome epoch deltas t

/-- The deltas are committed or among `extra`, and end exactly at `e`. -/
def Claimed (epoch baseline : UInt64) (segments extra : List Bytes) (e : UInt64) : Prop :=
  ∃ s deltas, Anchored epoch baseline segments s ∧ Follows epoch s deltas e ∧
    ∀ d ∈ deltas, d ∈ segments ∨ d ∈ extra

section Covered

variable {epoch baseline : UInt64} {segments segments' extra extra' : List Bytes} {e txid : UInt64}

section Mono

variable (hsub : ∀ d ∈ segments, d ∈ segments')
include hsub

theorem CompleteSnapshot.mono (h : CompleteSnapshot epoch e segments) :
    CompleteSnapshot epoch e segments' := by
  obtain ⟨compress, pageSize, commit, parts, hpos, hpages, henc, hmem⟩ := h
  exact ⟨compress, pageSize, commit, parts, hpos, hpages, henc, fun p hp => hsub _ (hmem p hp)⟩

theorem Anchored.mono (h : Anchored epoch baseline segments e) :
    Anchored epoch baseline segments' e :=
  h.imp_right fun h => h.mono hsub

theorem Covered.mono (h : Covered epoch baseline segments txid) :
    Covered epoch baseline segments' txid := by
  obtain ⟨s, deltas, e, hs, hfollows, hmem, hle, hall⟩ := h
  exact ⟨s, deltas, e, hs.mono hsub, hfollows, fun d hd => hsub d (hmem d hd), hle, hall⟩

theorem Claimed.mono (h : Claimed epoch baseline segments extra e)
    (hextra : ∀ d ∈ extra, d ∈ segments' ∨ d ∈ extra') :
    Claimed epoch baseline segments' extra' e := by
  obtain ⟨s, deltas, hs, hfollows, hmem⟩ := h
  refine ⟨s, deltas, hs.mono hsub, hfollows, fun d hd => ?_⟩
  rcases hmem d hd with hd | hd
  · exact .inl (hsub d hd)
  · exact hextra d hd

end Mono

theorem Covered.of_le (h : Covered epoch baseline segments e) (hle : txid ≤ e) :
    Covered epoch baseline segments txid := by
  obtain ⟨s, deltas, e', hs, hfollows, hmem, hle', hall⟩ := h
  exact ⟨s, deltas, e', hs, hfollows, hmem, UInt64.le_trans hle hle',
    fun t h1 h2 => hall t h1 (UInt64.le_trans h2 hle)⟩

theorem Claimed.covered (h : Claimed epoch baseline segments [] e) :
    Covered epoch baseline segments e := by
  obtain ⟨s, deltas, hs, hfollows, hmem⟩ := h
  refine ⟨s, deltas, e, hs, hfollows, fun d hd => ?_, UInt64.le_refl e,
    fun t h1 h2 => hfollows.inSome h1 h2⟩
  exact (hmem d hd).resolve_right List.not_mem_nil

theorem Claimed.snapshot (h : CompleteSnapshot epoch e segments) :
    Claimed epoch baseline segments extra e :=
  ⟨e, [], .inr h, .nil, fun _ hd => absurd hd List.not_mem_nil⟩

theorem Claimed.snoc (h : Claimed epoch baseline segments extra e) {segment : Bytes} {n : Nat}
    (hn : n ≤ maxCaptureTransactions)
    (hdelta : IsDelta epoch (e + 1) (e + UInt64.ofNat n) segment) :
    Claimed epoch baseline segments (extra ++ [segment]) (e + UInt64.ofNat n) := by
  obtain ⟨s, deltas, hs, hfollows, hmem⟩ := h
  refine ⟨s, deltas ++ [segment], hs, hfollows.snoc hn hdelta, fun d hd => ?_⟩
  rcases List.mem_append.1 hd with hd | hd
  · exact (hmem d hd).imp_right fun hd => List.mem_append_left _ hd
  · exact .inr (List.mem_append_right _ hd)

end Covered

/-! ## Sound fleets -/

/-- The barrier stands at the baseline or at a covered transaction; a commit that has
succeeded has its segment among the proven ones; a writer was released at most up to the
barrier. -/
structure Sound (epoch baseline : UInt64) (w : Fleet) : Prop where
  covered : baseline < w.barrier.durableTxID →
    Covered epoch baseline w.proven w.barrier.durableTxID
  results : ∀ (n : Nat) (segment : Bytes), w.calls[n]? = some (segment, some (.ok ())) →
    segment ∈ w.proven
  released : ∀ a ∈ w.answers, a.2 = none → a.1.txid ≤ w.barrier.durableTxID

/-- What every operation of every thread does to the shared state. -/
structure Grows (epoch baseline : UInt64) (w w' : Fleet) : Prop where
  proven : ∀ segment ∈ w.proven, segment ∈ w'.proven
  calls : ∀ (n : Nat) (segment : Bytes) (r : Option (Res Unit)), w.calls[n]? = some (segment, r) →
    ∃ r', w'.calls[n]? = some (segment, r')
  durable : w.barrier.durableTxID ≤ w'.barrier.durableTxID
  sound : Sound epoch baseline w → Sound epoch baseline w'

namespace Grows

variable {epoch baseline : UInt64} {w w' w'' : Fleet}

theorem refl (w : Fleet) : Grows epoch baseline w w :=
  ⟨fun _ h => h, fun _ _ r h => ⟨r, h⟩, UInt64.le_refl _, id⟩

theorem trans (h : Grows epoch baseline w w') (h' : Grows epoch baseline w' w'') :
    Grows epoch baseline w w'' := by
  refine ⟨fun x hx => h'.proven x (h.proven x hx), ?_, UInt64.le_trans h.durable h'.durable,
    fun hs => h'.sound (h.sound hs)⟩
  intro n segment r hr
  obtain ⟨r', hr'⟩ := h.calls n segment r hr
  exact h'.calls n segment r' hr'

/-- A step that touches neither the commits nor the barrier's position. -/
theorem of_same (hproven : w'.proven = w.proven) (hcalls : w'.calls = w.calls)
    (hdurable : w'.barrier.durableTxID = w.barrier.durableTxID)
    (hanswers : ∀ a ∈ w'.answers, a ∈ w.answers ∨ a.2 ≠ none) : Grows epoch baseline w w' := by
  refine ⟨fun x hx => hproven ▸ hx, fun n segment r hr => ⟨r, hcalls ▸ hr⟩, ?_, fun hs => ⟨?_, ?_, ?_⟩⟩
  · rw [hdurable]
    exact UInt64.le_refl _
  · rw [hdurable, hproven]
    exact hs.covered
  · rw [hcalls, hproven]
    exact hs.results
  · intro a ha hnone
    rw [hdurable]
    rcases hanswers a ha with ha | hne
    · exact hs.released a ha hnone
    · exact absurd hnone hne

theorem prove (w : Fleet) (segments : List Bytes) : Grows epoch baseline w (w.prove segments) := by
  have hsub : ∀ x ∈ w.proven, x ∈ (w.prove segments).proven := fun x hx => List.mem_append_left _ hx
  refine ⟨hsub, fun n segment r hr => ⟨r, hr⟩, UInt64.le_refl _, fun hs => ⟨?_, ?_, hs.released⟩⟩
  · exact fun hlt => (hs.covered hlt).mono hsub
  · exact fun n segment hr => hsub _ (hs.results n segment hr)

theorem commitAsync (w : Fleet) (segment : Bytes) :
    Grows epoch baseline w { w with calls := w.calls ++ [(segment, none)] } := by
  refine ⟨fun _ h => h, ?_, UInt64.le_refl _, fun hs => ⟨hs.covered, ?_, hs.released⟩⟩
  · intro n x r hr
    exact ⟨r, List.getElem?_append_left (List.getElem?_eq_some_iff.1 hr).1 ▸ hr⟩
  · intro n x hr
    rw [List.getElem?_append] at hr
    split at hr
    · exact hs.results n x hr
    · have heq := List.mem_singleton.1 (List.mem_of_getElem? hr)
      cases heq

theorem advance {endTxID : UInt64} (h : Covered epoch baseline w.proven endTxID) :
    Grows epoch baseline w (w.advance endTxID) := by
  unfold Fleet.advance
  split
  · exact refl w
  next hmove =>
    rw [not_or] at hmove
    have hle : w.barrier.durableTxID ≤ endTxID := by
      have hlt := hmove.2
      rw [UInt64.le_iff_toNat_le] at hlt ⊢
      omega
    refine ⟨fun _ hx => hx, fun n segment r hr => ⟨r, hr⟩, hle, fun hs => ⟨fun _ => h, hs.results, ?_⟩⟩
    intro a ha hnone
    rcases List.mem_append.1 ha with ha | ha
    · exact UInt64.le_trans (hs.released a ha hnone) hle
    · obtain ⟨x, hx, rfl⟩ := List.mem_map.1 ha
      exact of_decide_eq_true (List.mem_filter.1 hx).2

theorem fail (w : Fleet) (e : Err) : Grows epoch baseline w (w.fail e) := by
  unfold Fleet.fail
  split
  · exact refl w
  refine of_same rfl rfl rfl ?_
  intro a ha
  rcases List.mem_append.1 ha with ha | ha
  · exact .inl ha
  · obtain ⟨x, -, rfl⟩ := List.mem_map.1 ha
    exact .inr (Option.some_ne_none _)

theorem wait (w : Fleet) (txid : UInt64) : Grows epoch baseline w (w.wait txid).2 := by
  unfold Fleet.wait
  split
  · exact refl w
  · split
    · exact refl w
    · exact of_same rfl rfl rfl fun a ha => .inl ha

theorem deliver {call : Nat} {r : Res Unit} (h : w.deliver call r = some w') :
    Grows epoch baseline w w' := by
  unfold Fleet.deliver at h
  split at h
  · next segment hcall =>
    have hlt : call < w.calls.length := (List.getElem?_eq_some_iff.1 hcall).1
    -- the result is noted first; it is sound when the segment is proven by it
    have hnoted : ∀ proven, (∀ x ∈ w.proven, x ∈ proven) → (r = .ok () → segment ∈ proven) →
        Grows epoch baseline w
          { w with calls := w.calls.set call (segment, some r), proven := proven } := by
      intro proven hsub hproven
      refine ⟨hsub, ?_, UInt64.le_refl _, fun hs => ⟨?_, ?_, hs.released⟩⟩
      · intro n x r' hr
        by_cases hn : call = n
        · subst hn
          rw [hcall] at hr
          cases hr
          exact ⟨some r, List.getElem?_set_self hlt⟩
        · exact ⟨r', (List.getElem?_set_ne hn).trans hr⟩
      · exact fun hlt => (hs.covered hlt).mono hsub
      · intro n x hr
        by_cases hn : call = n
        · subst hn
          rw [List.getElem?_set_self hlt] at hr
          cases hr
          exact hproven rfl
        · rw [List.getElem?_set_ne hn] at hr
          exact hsub _ (hs.results n x hr)
    cases h
    cases r with
    | error e => exact hnoted w.proven (fun _ hx => hx) (fun hr => by cases hr)
    | ok u =>
      exact hnoted (w.proven ++ [segment]) (fun _ hx => List.mem_append_left _ hx)
        fun _ => List.mem_append_right _ List.mem_cons_self
  · cases h

end Grows

/-! ## Commits in flight -/

/-- Each future covers its end once it, those before it and `extra` are proven; all of them
together cover `next`. -/
def Queue (epoch baseline : UInt64) (w : Fleet) :
    List Bytes → List ChunkFuture → UInt64 → Prop
  | extra, [], next => Claimed epoch baseline w.proven extra next
  | extra, f :: rest, next => ∃ segment r, w.calls[f.call]? = some (segment, r) ∧
      Claimed epoch baseline w.proven (extra ++ [segment]) f.endTxID ∧
      Queue epoch baseline w (extra ++ [segment]) rest next

namespace Queue

variable {epoch baseline : UInt64} {w w' : Fleet} {extra extra' : List Bytes}
  {futures : List ChunkFuture} {next : UInt64}

theorem mono (h : Queue epoch baseline w extra futures next) (hw : Grows epoch baseline w w')
    (hextra : ∀ d ∈ extra, d ∈ w'.proven ∨ d ∈ extra') :
    Queue epoch baseline w' extra' futures next := by
  induction futures generalizing extra extra' with
  | nil => exact Claimed.mono hw.proven h hextra
  | cons f rest ih =>
    obtain ⟨segment, r, hcall, hclaimed, hrest⟩ := h
    obtain ⟨r', hcall'⟩ := hw.calls _ _ _ hcall
    have hextra' : ∀ d ∈ extra ++ [segment], d ∈ w'.proven ∨ d ∈ extra' ++ [segment] := by
      intro d hd
      rcases List.mem_append.1 hd with hd | hd
      · exact (hextra d hd).imp_right fun hd => List.mem_append_left _ hd
      · exact .inr (List.mem_append_right _ hd)
    exact ⟨segment, r', hcall', hclaimed.mono hw.proven hextra', ih hrest hextra'⟩

theorem tail {f : ChunkFuture} (h : Queue epoch baseline w [] (f :: futures) next)
    (hs : Sound epoch baseline w) (hdone : ∃ segment, w.calls[f.call]? = some (segment, some (.ok ()))) :
    Covered epoch baseline w.proven f.endTxID ∧ Queue epoch baseline w [] futures next := by
  obtain ⟨segment, r, hcall, hclaimed, hrest⟩ := h
  obtain ⟨segment', hcall'⟩ := hdone
  rw [hcall] at hcall'
  cases hcall'
  have hproven := hs.results _ _ hcall
  have hextra : ∀ d ∈ [] ++ [segment], d ∈ w.proven ∨ d ∈ ([] : List Bytes) := by
    intro d hd
    rw [List.nil_append, List.mem_singleton] at hd
    rw [hd]
    exact .inl hproven
  exact ⟨(hclaimed.mono (fun _ hx => hx) hextra).covered, hrest.mono (.refl w) hextra⟩

theorem snoc (h : Queue epoch baseline w extra futures next) {call n : Nat} {segment : Bytes}
    {r : Option (Res Unit)} (hcall : w.calls[call]? = some (segment, r))
    (hn : n ≤ maxCaptureTransactions)
    (hdelta : IsDelta epoch (next + 1) (next + UInt64.ofNat n) segment) :
    Queue epoch baseline w extra (futures ++ [⟨next + UInt64.ofNat n, call⟩])
      (next + UInt64.ofNat n) := by
  induction futures generalizing extra with
  | nil => exact ⟨segment, r, hcall, Claimed.snoc h hn hdelta, Claimed.snoc h hn hdelta⟩
  | cons f rest ih =>
    obtain ⟨segment', r', hcall', hclaimed, hrest⟩ := h
    exact ⟨segment', r', hcall', hclaimed, ih hrest⟩

theorem jump (h : Queue epoch baseline w extra futures next) {label : UInt64}
    (hlabel : CompleteSnapshot epoch label w.proven) :
    Queue epoch baseline w extra futures label := by
  induction futures generalizing extra with
  | nil => exact Claimed.snapshot hlabel
  | cons f rest ih =>
    obtain ⟨segment, r, hcall, hclaimed, hrest⟩ := h
    exact ⟨segment, r, hcall, hclaimed, ih hrest⟩

end Queue

end CellHive.SqlCapture
