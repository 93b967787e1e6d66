import CellHive.SqlCapture.Coverage

/-!
# A streamed snapshot is complete

When the stream of a snapshot ends without an error, every part of one image has been
committed under one label. Programs are specified by triples whose conditions survive
whatever the other threads do; a sound fleet stays sound throughout.
-/

namespace CellHive.SqlCapture

open Go Concurrent Prog Ltx

/-! ## Triples -/

section Triples

variable (epoch baseline : UInt64)

/-- A condition that the steps of other threads keep. -/
def Stable (P : Fleet → Prop) : Prop := ∀ w w', Grows epoch baseline w w' → P w → P w'

/-- From a sound state with `P` the program keeps the fleet growing, and ends with `Q`. -/
def Keeps (i : Nat) {α : Type} (p : Prog ops α) (P : Fleet → Prop) (Q : α → Fleet → Prop) : Prop :=
  ∀ s : Traced ops Fleet, Sound epoch baseline s.shared → P s.shared →
    Spec exec (fun s s' => Grows epoch baseline s.shared s'.shared) i p
      (fun a s => Sound epoch baseline s.shared ∧ Q a s.shared) s

end Triples

section Rules

variable {epoch baseline : UInt64} {i : Nat} {α β : Type}
  {P : Fleet → Prop} {Q : α → Fleet → Prop} {p : Prog ops α} {op : Op}

theorem Keeps.ret {a : α} (h : ∀ w, P w → Q a w) :
    Keeps epoch baseline i (pure a) P Q :=
  fun s hs hP => ⟨hs, h s.shared hP⟩

theorem Keeps.mono {P' : Fleet → Prop} {Q Q' : α → Fleet → Prop} (h : Keeps epoch baseline i p P Q)
    (hP : ∀ w, P' w → P w) (hQ : ∀ a w, Q a w → Q' a w) : Keeps epoch baseline i p P' Q' :=
  fun s hs h' => (h s hs (hP s.shared h')).mono fun a s hQa => ⟨hQa.1, hQ a s.shared hQa.2⟩

theorem Keeps.pre {P' : Fleet → Prop} (h : Keeps epoch baseline i p P Q)
    (hP : ∀ w, P' w → P w) : Keeps epoch baseline i p P' Q :=
  h.mono hP fun _ _ => id

theorem Keeps.bind {f : α → Prog ops β} {M : α → Fleet → Prop} {Q : β → Fleet → Prop}
    (hp : Keeps epoch baseline i p P M) (hf : ∀ a, Keeps epoch baseline i (f a) (M a) Q) :
    Keeps epoch baseline i (p >>= f) P Q :=
  fun s hs hP => Spec.seq (hp s hs hP) fun a s hM => hf a s hM.1 hM.2

/-- A step that may fail, with nothing known after an error. -/
theorem Keeps.seqOk {p : Prog ops (Res α)} {f : Res α → Prog ops β} {M : α → Fleet → Prop}
    {Q : β → Fleet → Prop} (hp : Keeps epoch baseline i p P fun r w => ∀ a, r = .ok a → M a w)
    (herr : ∀ e, Keeps epoch baseline i (f (.error e)) (fun _ => True) Q)
    (hok : ∀ a, Keeps epoch baseline i (f (.ok a)) (M a) Q) :
    Keeps epoch baseline i (p >>= f) P Q := by
  refine hp.bind fun r => ?_
  cases r with
  | error e => exact (herr e).pre fun _ _ => trivial
  | ok a => exact (hok a).pre fun _ h => h a rfl

/-- A fact about the data alone may be assumed. -/
theorem Keeps.of_pure {φ : Prop} (h : φ → Keeps epoch baseline i p P Q) :
    Keeps epoch baseline i p (fun w => φ ∧ P w) Q :=
  fun s hs hP => h hP.1 s hs hP.2

/-- Conditions that others keep are kept by the program too. -/
theorem Keeps.frame {F : Fleet → Prop} (h : Keeps epoch baseline i p P Q)
    (hF : Stable epoch baseline F) :
    Keeps epoch baseline i p (fun w => F w ∧ P w) (fun a w => F w ∧ Q a w) := by
  intro s hs hFP
  refine Spec.mono (Spec.reached ?_ ?_ (h s hs hFP.2)) ?_
  · exact fun s => .refl s.shared
  · exact fun _ _ _ hab hbc => hab.trans hbc
  · rintro a s' ⟨hgrows, hs', hQ⟩
    exact ⟨hs', hF _ _ hgrows hFP.1, hQ⟩

theorem Keeps.ask {Q : Reply op → Fleet → Prop} (hstable : Stable epoch baseline P)
    (hstep : ∀ w c r w', Sound epoch baseline w → P w → exec op c w = some (r, w') →
      Grows epoch baseline w w' ∧ Q r w') : Keeps epoch baseline i (ask op) P Q := by
  intro s hs hP
  apply Spec.perform
  intro s₁ hgrows _ c r x hexec
  obtain ⟨hstep', hQ⟩ := hstep s₁.shared c r x (hgrows.sound hs) (hstable _ _ hgrows hP) hexec
  exact ⟨hstep', hstep'.sound (hgrows.sound hs), hQ⟩

/-- Operations that change nothing. -/
def Op.quiet : Op → Bool
  | .awake | .observeWal | .slow | .committedTicket | .checkpointer | .walGrown | .statDatabase
  | .prepareImage _ | .openImage | .readHeader | .readRun _ _ | .cancelled | .startMarker _
  | .receive _ _ | .take _ => true
  | _ => false

theorem exec_quiet {c : Choice} {r : Reply op} {w w' : Fleet} (hop : op.quiet = true)
    (h : exec op c w = some (r, w')) : w' = w := by
  cases op with
  | receive call block =>
    cases c with
    | proceed =>
      obtain ⟨_, -, heq⟩ := Option.map_eq_some_iff.1 h
      exact (congrArg Prod.snd heq).symm
    | refuse e =>
      cases block with
      | false => cases h
      | true => cases h; rfl
    | _ => cases h
  | take waiter =>
    cases c with
    | proceed =>
      obtain ⟨_, -, heq⟩ := Option.map_eq_some_iff.1 h
      exact (congrArg Prod.snd heq).symm
    | refuse e => cases h; rfl
    | _ => cases h
  | readHeader | readRun =>
    cases c with
    | data b =>
      simp only [exec, Option.ite_none_right_eq_some, Option.some.injEq] at h
      exact (congrArg Prod.snd h.2).symm
    | refuse e => cases h; rfl
    | _ => cases h
  | lockPoll | unlockPoll | commit | commitAsync | advance | fail | wait | deliver => cases hop
  | _ => cases c <;> first | (cases h; rfl) | cases h

theorem Keeps.quiet (hop : op.quiet = true) (hstable : Stable epoch baseline P) :
    Keeps epoch baseline i (SqlCapture.ask op) P (fun _ => P) := by
  apply Keeps.ask hstable
  intro w c r w' _ hP hexec
  rw [exec_quiet hop hexec]
  exact ⟨.refl w, hP⟩

end Rules

/-! ## The parts of an image -/

namespace Snapshotter

variable {z : Snapshotter} {pageSize commit : UInt32} {perPart total : Nat} {label : UInt64}

/-- The parts made so far: consecutive pages from page 1 on. -/
structure Parts (z : Snapshotter) (pageSize commit : UInt32) (perPart total : Nat) (label : UInt64)
    (parts : List (List WALPage × Bytes)) : Prop where
  pages : (parts.flatMap (·.1)).map (·.pageNo.toNat) =
    List.range' 1 (min (parts.length * perPart) commit.toNat)
  encoded : ∀ i p, parts[i]? = some p → encodeSnapshotPart z.capture.compress (z.header label)
    pageSize commit p.1 i total = .ok p.2

theorem Parts.nil : Parts z pageSize commit perPart total label [] := by
  constructor
  · simp
  · intro i p hp
    cases hp

theorem pageNo_walPages (pageSize : UInt32) {commit : UInt32} {k count : Nat}
    (hle : k + count ≤ commit.toNat) (run : Bytes) :
    (walPages (UInt32.ofNat (1 + k)) (pagesOf pageSize count run)).map (·.pageNo.toNat) =
      List.range' (1 + k) count := by
  have hlt := commit.toNat_lt
  apply List.ext_getElem
  · simp [walPages, pagesOf]
  · intro i h1 h2
    have hi : i < count := by simpa using h2
    simp only [walPages, List.getElem_map, List.getElem_mapIdx, List.getElem_range']
    rw [← UInt32.ofNat_add, UInt32.toNat_ofNat']
    omega

theorem Parts.snoc {parts : List (List WALPage × Bytes)} {run segment : Bytes}
    (h : Parts z pageSize commit perPart total label parts)
    (hsegment : encodeSnapshotPart z.capture.compress (z.header label) pageSize commit
      (walPages (UInt32.ofNat (1 + min (parts.length * perPart) commit.toNat))
        (pagesOf pageSize (min perPart (commit.toNat - parts.length * perPart)) run))
      parts.length total = .ok segment) :
    Parts z pageSize commit perPart total label
      (parts ++ [(walPages (UInt32.ofNat (1 + min (parts.length * perPart) commit.toNat))
        (pagesOf pageSize (min perPart (commit.toNat - parts.length * perPart)) run), segment)]) := by
  constructor
  · have hle : min (parts.length * perPart) commit.toNat +
        min perPart (commit.toNat - parts.length * perPart) ≤ commit.toNat := by omega
    have hnext := pageNo_walPages pageSize hle run
    have hsum : min ((parts.length + 1) * perPart) commit.toNat =
        min (parts.length * perPart) commit.toNat +
          min perPart (commit.toNat - parts.length * perPart) := by
      rw [Nat.succ_mul]
      omega
    rw [List.flatMap_append, List.map_append, h.pages, List.flatMap_singleton, hnext,
      List.length_append, List.length_singleton, hsum, List.range'_append_1]
  · intro i p hp
    rw [List.getElem?_append] at hp
    split at hp
    · exact h.encoded i p hp
    next hi =>
      rcases Nat.lt_or_ge (i - parts.length) 1 with hzero | hge
      · have hi' : i = parts.length := by omega
        subst hi'
        rw [Nat.sub_self] at hp
        cases hp
        exact hsegment
      · rw [List.getElem?_eq_none (by simpa using hge)] at hp
        cases hp

theorem Parts.complete {parts : List (List WALPage × Bytes)} {w : Fleet}
    (h : Parts z pageSize commit perPart parts.length label parts)
    (hall : commit.toNat ≤ parts.length * perPart) (hpos : 0 < commit.toNat)
    (hmem : ∀ p ∈ parts, p.2 ∈ w.proven) :
    CompleteSnapshot z.capture.epoch label w.proven := by
  refine ⟨z.capture.compress, pageSize, commit, parts, hpos, ?_, h.encoded, hmem⟩
  rw [h.pages, Nat.min_eq_right hall]

/-! ## The stream -/

section Programs

variable {epoch baseline : UInt64} {i : Nat} {st : StreamState} {X : List Bytes}

def Kept (X batch : List Bytes) (w : Fleet) : Prop := ∀ x ∈ X, x ∈ w.proven ∨ x ∈ batch

theorem kept_stable (X batch : List Bytes) : Stable epoch baseline (Kept X batch) :=
  fun _ _ hw h x hx => (h x hx).imp_left (hw.proven x)

variable {w : Fleet}

theorem Kept.snoc {batch : List Bytes} {segment : Bytes} (h : Kept X batch w)
    (hsegment : segment ∈ w.proven ∨ segment ∈ batch) : Kept (X ++ [segment]) batch w := by
  intro x hx
  rcases List.mem_append.1 hx with hx | hx
  · exact h x hx
  · rw [List.mem_singleton.1 hx]
    exact hsegment

theorem keeps_commit (segments : List Bytes) {P : Fleet → Prop} (hP : Stable epoch baseline P) :
    Keeps epoch baseline i (ask (.commit segments)) P
      (fun r w => P w ∧ (r = .ok () → ∀ x ∈ segments, x ∈ w.proven)) := by
  apply Keeps.ask hP
  intro w c r w' _ hw hexec
  cases c with
  | proceed =>
    cases hexec
    have hgrows : Grows epoch baseline w (w.prove segments) := Grows.prove w segments
    exact ⟨hgrows, hP _ _ hgrows hw, fun _ x hx => List.mem_append_right _ hx⟩
  | refuse e =>
    cases hexec
    exact ⟨.refl w, hw, nofun⟩
  | _ => cases hexec

/-- Without batches nothing waits. -/
def Batchless (z : Snapshotter) (st : StreamState) : Prop := z.batches = false → st.batch = []

/-- A step of the stream that ends without an error has the label and the segments. -/
def Went (z : Snapshotter) (X : List Bytes) (label : UInt64) (r : Streamed) (w : Fleet) : Prop :=
  r.1 = none → (r.2.label = label ∧ Batchless z r.2) ∧ Kept X r.2.batch w

theorem Went.of_error {e : Err} : Went z X label (some e, st) w :=
  nofun

theorem flush_spec : Keeps epoch baseline i (flush st) (Kept X st.batch)
    (fun r w => r.1 = none → (r.2.label = st.label ∧ r.2.batch = []) ∧ Kept X [] w) := by
  unfold flush
  split
  · next hempty =>
    apply Keeps.ret
    intro w hw _
    rw [hempty] at hw
    exact ⟨⟨rfl, hempty⟩, hw⟩
  · apply Keeps.bind (keeps_commit st.batch (kept_stable X st.batch))
    intro r
    rcases r with e | u
    · exact Keeps.ret fun _ _ => nofun
    apply Keeps.ret
    rintro w ⟨hw, hproven⟩ _
    refine ⟨⟨rfl, rfl⟩, fun x hx => .inl ?_⟩
    exact (hw x hx).elim id (hproven rfl x)

theorem flush_went (hlabel : st.label = label) :
    Keeps epoch baseline i (flush st) (Kept X st.batch) (Went z X label) := by
  apply flush_spec.mono (fun _ h => h)
  intro r w h hnone
  obtain ⟨⟨hr, hbatch⟩, hkept⟩ := h hnone
  rw [← hbatch] at hkept
  exact ⟨⟨hr.trans hlabel, fun _ => hbatch⟩, hkept⟩

theorem sendPart_spec (hst : Batchless z st) (partIndex total : Nat) (segment : Bytes) :
    Keeps epoch baseline i (z.sendPart partIndex total segment st) (Kept X st.batch)
      (Went z (X ++ [segment]) st.label) := by
  unfold sendPart
  split
  · apply Keeps.bind (keeps_commit [segment] (kept_stable X st.batch))
    intro r
    cases r with
    | error e => exact Keeps.ret fun w _ => Went.of_error
    | ok u =>
      apply Keeps.ret
      rintro w ⟨hw, hproven⟩ _
      exact ⟨⟨rfl, hst⟩, hw.snoc (.inl (hproven rfl segment List.mem_cons_self))⟩
  next hbatches =>
    refine Keeps.bind (M := Went z X st.label) ?_ ?_
    · unfold makeRoom
      split
      · exact flush_went rfl
      · exact Keeps.ret fun w hw _ => ⟨⟨rfl, hst⟩, hw⟩
    rintro ⟨err, st'⟩
    cases err with
    | some e => exact Keeps.ret fun w _ => Went.of_error
    | none =>
      dsimp only
      have hjoined : ∀ w, Went z X st.label (none, st') w →
          st'.label = st.label ∧ Kept (X ++ [segment]) (st'.batch ++ [segment]) w := by
        intro w hw
        obtain ⟨⟨hlabel, -⟩, hkept⟩ := hw rfl
        refine ⟨hlabel, Kept.snoc (fun x hx => (hkept x hx).imp_right (List.mem_append_left _)) ?_⟩
        exact .inr (List.mem_append_right _ List.mem_cons_self)
      split
      · exact Keeps.pre (Keeps.of_pure fun hlabel => flush_went hlabel) hjoined
      · apply Keeps.ret
        intro w hw _
        exact ⟨⟨(hjoined w hw).1, fun hfalse => absurd hfalse hbatches⟩, (hjoined w hw).2⟩

def HookKeeps (epoch baseline : UInt64) (i : Nat) (z : Snapshotter) : Prop :=
  ∀ hook, z.onStart = some hook → ∀ (label : UInt64) (P : Fleet → Prop), Stable epoch baseline P →
    Keeps epoch baseline i (hook label) P (fun _ => P)

def labelAt (z : Snapshotter) (k : Nat) (watermark label : UInt64) : UInt64 :=
  if z.mode ≠ .pages ∧ k = 0 then watermark else label

/-- The stream has made `count` parts, all under the label `label` once there is one. -/
def Streaming (z : Snapshotter) (pageSize commit : UInt32) (perPart total : Nat) (label : UInt64)
    (count : Nat) (st : StreamState) (w : Fleet) : Prop :=
  ∃ parts : List (List WALPage × Bytes), parts.length = count ∧
    Parts z pageSize commit perPart total label parts ∧
    (z.mode ≠ .pages ∧ count = 0 ∨ st.label = label) ∧ Batchless z st ∧
    Kept (parts.map (·.2)) st.batch w

theorem streaming_stable (count : Nat) (st : StreamState) :
    Stable epoch baseline (Streaming z pageSize commit perPart total label count st) := by
  rintro w w' hw ⟨parts, hlen, hparts, hlabel, hst, hkept⟩
  exact ⟨parts, hlen, hparts, hlabel, hst, kept_stable _ _ w w' hw hkept⟩

theorem labelAt_eq {k : Nat} {watermark : UInt64} (hwatermark : z.mode ≠ .pages → label = watermark)
    (hlabel : z.mode ≠ .pages ∧ k = 0 ∨ st.label = label) :
    labelAt z k watermark st.label = label := by
  unfold labelAt
  split
  next hfirst => exact (hwatermark hfirst.1).symm
  next hlater => exact hlabel.resolve_left hlater

def Imaged (z : Snapshotter) (label : UInt64) (st : StreamState) (w : Fleet) : Prop :=
  st.label = label ∧ Batchless z st ∧
    ∃ (pageSize commit : UInt32) (perPart : Nat) (parts : List (List WALPage × Bytes)),
      Parts z pageSize commit perPart parts.length label parts ∧
      commit.toNat ≤ parts.length * perPart ∧ 0 < commit.toNat ∧
      Kept (parts.map (·.2)) st.batch w

theorem Imaged.complete (h : Imaged z label st w) (hproven : st.batch = []) :
    CompleteSnapshot z.capture.epoch label w.proven := by
  obtain ⟨-, -, pageSize, commit, perPart, parts, hparts, hall, hpos, hkept⟩ := h
  apply hparts.complete hall hpos
  intro p hp
  rw [hproven] at hkept
  exact (hkept _ (List.mem_map_of_mem hp)).resolve_right List.not_mem_nil

section Hooked

variable (hhook : HookKeeps epoch baseline i z)
include hhook

theorem beginPart_spec (hst : Batchless z st) (k : Nat) (watermark : UInt64) :
    Keeps epoch baseline i (z.beginPart k watermark st) (Kept X st.batch)
      (Went z X (labelAt z k watermark st.label)) := by
  unfold beginPart labelAt
  split
  · split
    · exact Keeps.ret fun w hw _ => ⟨⟨rfl, hst⟩, hw⟩
    next hook hsome =>
      apply Keeps.bind (hhook hook hsome watermark _ (kept_stable X st.batch))
      intro r
      cases r with
      | error e => exact Keeps.ret fun w _ => Went.of_error
      | ok u => exact Keeps.ret fun w hw _ => ⟨⟨rfl, hst⟩, hw⟩
  · exact Keeps.ret fun w hw _ => ⟨⟨rfl, hst⟩, hw⟩

theorem streamPart_spec (hst : Batchless z st) (total : Nat) (watermark : UInt64)
    (pageSize commit : UInt32) (k : Nat) (firstPage : UInt32) (pages : List Bytes) :
    Keeps epoch baseline i (z.streamPart total watermark pageSize commit k firstPage pages st)
      (Kept X st.batch)
      (fun r w => r.1 = none → ∃ segment, encodeSnapshotPart z.capture.compress
          (z.header (labelAt z k watermark st.label)) pageSize commit (walPages firstPage pages) k
          total = .ok segment ∧
        Went z (X ++ [segment]) (labelAt z k watermark st.label) r w) := by
  unfold streamPart
  dsimp only
  split
  · exact Keeps.ret fun _ _ => nofun
  apply Keeps.bind (beginPart_spec hhook hst k watermark)
  rintro ⟨err, st'⟩
  cases err with
  | some e => exact Keeps.ret fun _ _ => nofun
  | none =>
    dsimp only
    have hbegun : ∀ w, Went z X (labelAt z k watermark st.label) (none, st') w →
        (st'.label = labelAt z k watermark st.label ∧ Batchless z st') ∧ Kept X st'.batch w :=
      fun w hw => hw rfl
    refine Keeps.pre (Keeps.of_pure fun hst' => ?_) hbegun
    obtain ⟨hlabel, hbatchless⟩ := hst'
    rw [hlabel]
    split
    · exact Keeps.ret fun _ _ => nofun
    next segment hsegment =>
      apply (sendPart_spec hbatchless k total segment).mono (fun _ h => h)
      intro r w h _
      rw [hlabel] at h
      exact ⟨segment, hsegment, h⟩

theorem streamParts_spec (pageSize commit : UInt32) (perPart total : Nat) {watermark : UInt64}
    (hwatermark : z.mode ≠ .pages → label = watermark) (left k : Nat) (st : StreamState) :
    Keeps epoch baseline i
      (z.streamParts watermark pageSize commit perPart total left k
        (UInt32.ofNat (1 + min (k * perPart) commit.toNat)) st)
      (Streaming z pageSize commit perPart total label k st)
      (fun r w => r.1 = none →
        Streaming z pageSize commit perPart total label (k + left) r.2 w) := by
  induction left generalizing k st with
  | zero => exact Keeps.ret fun w hw _ => hw
  | succ left ih =>
    apply Keeps.bind (Keeps.quiet rfl (streaming_stable k st))
    intro cancelled
    cases cancelled with
    | some e => exact Keeps.ret fun _ _ => nofun
    | none =>
      apply Keeps.bind (Keeps.quiet rfl (streaming_stable k st))
      intro read
      rcases read with e | run
      · exact Keeps.ret fun _ _ => nofun
      -- the part is made from this run; then the loop goes on
      refine Keeps.bind (M := fun r w => r.1 = none →
        Streaming z pageSize commit perPart total label (k + 1) r.2 w) ?_ ?_
      · intro s hs hstreaming
        obtain ⟨parts, hlen, hparts, hlabel, hst, hkept⟩ := hstreaming
        have hpart := streamPart_spec hhook hst (X := parts.map (·.2)) total watermark pageSize
          commit k (UInt32.ofNat (1 + min (k * perPart) commit.toNat))
          (pagesOf pageSize (min perPart (commit.toNat - k * perPart)) run)
        refine (hpart s hs hkept).mono ?_
        rintro r s' ⟨hs', h⟩
        refine ⟨hs', fun hnone => ?_⟩
        obtain ⟨segment, hsegment, hwent⟩ := h hnone
        obtain ⟨⟨hr, hst'⟩, hkept'⟩ := hwent hnone
        rw [labelAt_eq hwatermark hlabel] at hsegment hr
        subst hlen
        refine ⟨_, ?_, hparts.snoc hsegment, .inr hr, hst', ?_⟩
        · rw [List.length_append, List.length_singleton]
        · rw [List.map_append]
          exact hkept'
      · rintro ⟨err, st'⟩
        cases err with
        | some e => exact Keeps.ret fun _ _ => nofun
        | none =>
          have hfirst : UInt32.ofNat (1 + min (k * perPart) commit.toNat) +
              UInt32.ofNat (min perPart (commit.toNat - k * perPart)) =
              UInt32.ofNat (1 + min ((k + 1) * perPart) commit.toNat) := by
            rw [← UInt32.ofNat_add, Nat.succ_mul]
            congr 1
            omega
          rw [hfirst]
          apply (ih (k + 1) st').mono (fun w hw => hw rfl)
          intro r w h hnone
          have hsum : k + (left + 1) = k + 1 + left := by omega
          rw [hsum]
          exact h hnone

/-- The label of an image: its watermark, unless the caller has prepared it. -/
def imageLabel (z : Snapshotter) (watermark label : UInt64) : UInt64 :=
  if z.mode = .pages then label else watermark

theorem snapshotStream_spec (hst : Batchless z st) (partBytes : Int) :
    Keeps epoch baseline i (z.snapshotStream partBytes st) (fun _ => True)
      (fun r w => ∀ watermark, r.1 = .ok watermark →
        Imaged z (imageLabel z watermark st.label) r.2 w) := by
  have htrue : Stable epoch baseline (fun _ => True) := fun _ _ _ _ => trivial
  apply Keeps.bind (Keeps.quiet rfl htrue)
  intro opened
  cases opened with
  | error e => exact Keeps.ret fun _ _ => nofun
  | ok opened =>
  obtain ⟨watermark, size⟩ := opened
  dsimp only
  split
  · exact Keeps.ret fun _ _ => nofun
  apply Keeps.bind (Keeps.quiet rfl htrue)
  intro read
  cases read with
  | error e => exact Keeps.ret fun _ _ => nofun
  | ok bytes =>
  dsimp only
  split
  · exact Keeps.ret fun _ _ => nofun
  split
  · exact Keeps.ret fun _ _ => nofun
  next hbound =>
  split
  · exact Keeps.ret fun _ _ => nofun
  next hpages =>
  split
  · exact Keeps.ret fun _ _ => nofun
  next perPart hperPart =>
  have hpos : 0 < perPart := by
    unfold snapshotPagesPerPart at hperPart
    dsimp only at hperPart
    split at hperPart
    · cases hperPart
    next hone =>
      cases hperPart
      omega
  obtain ⟨pages, hsize⟩ : ∃ pages, pages = size / (imagePageSize bytes).toNat := ⟨_, rfl⟩
  rw [← hsize] at hbound hpages ⊢
  have hcommit : (UInt32.ofNat pages).toNat = pages := by
    rw [UInt32.toNat_ofNat', Nat.mod_eq_of_lt (by omega)]
  have htotal : pages ≤ (pages + perPart - 1) / perPart * perPart := by
    have hdiv := Nat.div_add_mod (pages + perPart - 1) perPart
    have hmod := Nat.mod_lt (pages + perPart - 1) hpos
    rw [Nat.mul_comm] at hdiv
    omega
  have hsome : (pages + perPart - 1) / perPart ≠ 0 := by
    intro hzero
    rw [hzero] at htotal
    omega
  refine Keeps.bind ?_ ?_ (M := fun r w => r.1 = none → Streaming z (imagePageSize bytes)
    (UInt32.ofNat pages) perPart ((pages + perPart - 1) / perPart)
    (imageLabel z watermark st.label) ((pages + perPart - 1) / perPart) r.2 w)
  · have hlabel : z.mode ≠ .pages → imageLabel z watermark st.label = watermark :=
      fun hmode => if_neg hmode
    have hstream := streamParts_spec hhook (imagePageSize bytes) (UInt32.ofNat pages) perPart
      ((pages + perPart - 1) / perPart) hlabel ((pages + perPart - 1) / perPart) 0 st
    rw [Nat.zero_mul, Nat.zero_min, Nat.zero_add] at hstream
    apply hstream.pre _
    intro w _
    refine ⟨[], rfl, Parts.nil, ?_, hst, fun x hx => absurd hx List.not_mem_nil⟩
    by_cases hmode : z.mode = .pages
    · exact .inr (if_pos hmode).symm
    · exact .inl ⟨hmode, rfl⟩
  · rintro ⟨err, st'⟩
    cases err with
    | some e => exact Keeps.ret fun _ _ => nofun
    | none =>
      apply Keeps.ret
      intro w hw watermark' heq
      cases heq
      obtain ⟨parts, hlen, hparts, hlabel, hst', hkept⟩ := hw rfl
      rw [← hlen] at hparts htotal hsome hlabel
      refine ⟨hlabel.resolve_left fun h => hsome h.2, hst', imagePageSize bytes, UInt32.ofNat pages,
        perPart, parts, hparts, ?_, ?_, hkept⟩
      · rw [hcommit]
        exact htotal
      · omega

theorem streamImage_spec (hst : Batchless z st) :
    Keeps epoch baseline i (z.streamImage st) (fun _ => True)
      (fun r w => r.1 = none → Imaged z r.2.label r.2 w) := by
  apply Keeps.bind (Keeps.quiet rfl (fun _ _ _ _ => trivial))
  intro prepared
  cases prepared with
  | error e => exact Keeps.ret fun _ _ => nofun
  | ok u =>
  apply Keeps.bind (snapshotStream_spec hhook hst _)
  rintro ⟨result, st'⟩
  rcases result with e | watermark
  · exact Keeps.ret fun _ _ => nofun
  apply Keeps.ret
  intro w hw _
  have himaged := hw watermark rfl
  unfold imageLabel at himaged
  split
  next hmode =>
    rw [himaged.1]
    exact himaged
  next hmode =>
    rw [if_neg hmode] at himaged
    exact ⟨rfl, himaged.2⟩

theorem run_spec (watermark : UInt64) :
    Keeps epoch baseline i (z.run watermark) (fun _ => True)
      (fun r w => r.1 = none → CompleteSnapshot z.capture.epoch r.2.label w.proven) := by
  have htrue : Stable epoch baseline (fun _ => True) := fun _ _ _ _ => trivial
  refine Keeps.bind (M := fun _ _ => True) ?_ ?_
  · unfold overBudget
    split
    · apply Keeps.bind (Keeps.quiet rfl htrue)
      intro size
      rcases size with _ | size
      · exact Keeps.ret fun _ _ => trivial
      dsimp only
      split
      all_goals exact Keeps.ret fun _ _ => trivial
    · exact Keeps.ret fun _ _ => trivial
  intro excess
  cases excess with
  | some e => exact Keeps.ret fun _ _ => nofun
  | none =>
  refine Keeps.bind (M := fun r _ => r.2.batch = [] ∧ True) ?_ ?_
  · unfold beginPages
    split
    · split
      · exact Keeps.ret fun _ _ => ⟨rfl, trivial⟩
      next hook hsome =>
        apply Keeps.bind (hhook hook hsome watermark _ htrue)
        intro r
        cases r with
        | error | ok => exact Keeps.ret fun _ _ => ⟨rfl, trivial⟩
    · exact Keeps.ret fun _ _ => ⟨rfl, trivial⟩
  rintro ⟨err, st⟩
  apply Keeps.of_pure
  intro hempty
  cases err with
  | some e => exact Keeps.ret fun _ _ => nofun
  | none =>
  apply Keeps.bind (streamImage_spec hhook fun _ => hempty)
  rintro ⟨err, st⟩
  cases err with
  | some e => exact Keeps.ret fun _ _ => nofun
  | none =>
  dsimp only
  split
  next hbatches =>
    intro s hs himaged
    obtain ⟨-, -, pageSize, commit, perPart, parts, hparts, hall, hpos, hkept⟩ := himaged rfl
    refine (flush_spec s hs hkept).mono ?_
    rintro r s' ⟨hs', h⟩
    refine ⟨hs', fun hnone => ?_⟩
    obtain ⟨⟨hlabel, hbatch⟩, hkept'⟩ := h hnone
    rw [hlabel]
    exact hparts.complete hall hpos fun p hp =>
      (hkept' _ (List.mem_map_of_mem hp)).resolve_right List.not_mem_nil
  next hbatches =>
    apply Keeps.ret
    intro w himaged _
    have himaged' := himaged rfl
    exact himaged'.complete (himaged'.2.1 (Bool.eq_false_of_not_eq_true hbatches))

end Hooked

end Programs

end Snapshotter

end CellHive.SqlCapture
