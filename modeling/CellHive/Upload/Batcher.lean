import CellHive.Compaction.Preflight
import CellHive.Replica.Accepted
import CellHive.Replica.Fetch

/-!
# Group commits and their names

`internal/upload/upload.go` groups whatever is queued for one scope and epoch and stores
each group as one object. The object's name comes from the first and the last segment
alone, while a restore, the page fetcher and compaction leave an object unread when its
name says that a watermark covers it. A name is sound when all contained segments are
what it says; that holds exactly when the two ends tell about everything between them.
-/

namespace CellHive.Upload

open Go Ltx Bucket Replica

/-! ## Grouping -/

/-- A queued upload: one segment, or several that were submitted together. -/
structure Item where
  scope : Key
  epoch : UInt64
  segments : List Bytes

structure Group where
  scope : Key
  epoch : UInt64
  segments : List Bytes

def addItem : List Group → Item → List Group
  | [], it => [⟨it.scope, it.epoch, it.segments⟩]
  | g :: rest, it =>
    if g.scope = it.scope ∧ g.epoch = it.epoch then
      { g with segments := g.segments ++ it.segments } :: rest
    else g :: addItem rest it

def flushGroups (items : List Item) : List Group := items.foldl addItem []

/-- The object `key` holds a group of the flushed items. -/
def Stored (items : List Item) (m : Manager) (key : Key) (segments : List Bytes) (m' : Manager) :
    Prop :=
  ∃ g ∈ flushGroups items, m.scope = g.scope ∧ g.segments = segments ∧
    m.appendBatch g.epoch segments = .ok (key, m')

/-! ## Sound names -/

/-- One of the three readers that trust names leaves the object unread at a watermark. -/
def skippedByName (floor : UInt64) (key : Key) : Bool :=
  Manager.coveredByManifest floor key || coveredByName floor key || Compaction.coveredL0 floor key

/-- The name of an object is right about the headers of its segments. -/
structure SoundName (key : Key) (headers : List Header) : Prop where
  deltas : hasSuffix (nameOf key) dotDeltaBatch = true →
    ∃ a b, nameOf key = rangeText a b ++ dotDeltaBatch ∧
      ∀ h ∈ headers, h.kind = kindDelta ∧ a ≤ h.startTxID ∧ h.endTxID ≤ b
  snapshots : hasSuffix (nameOf key) dotSnapshotBatch = true →
    ∃ n parts, nameOf key = formatUint n ++ (['.', 'p'] ++ parts) ++ dotSnapshotBatch ∧
      ∀ h ∈ headers, h.kind = kindSnapshot ∧ h.endTxID.toNat = n
  skipped : ∀ floor, skippedByName floor key = true → ∀ h ∈ headers, h.endTxID ≤ floor

/-- The first and the last segment tell about all of them: between two segments of one
snapshot lies nothing but that snapshot, and between two segments that are no snapshots
nothing but deltas, none of which starts before the first or ends after the last. -/
def EndsTell (headers : List Header) : Prop :=
  ∀ first last, headers.head? = some first → headers.getLast? = some last → 2 ≤ headers.length →
    (SameSnapshot first last →
      ∀ h ∈ headers, h.kind = kindSnapshot ∧ h.endTxID = first.endTxID) ∧
    (first.kind ≠ kindSnapshot → last.kind ≠ kindSnapshot →
      ∀ h ∈ headers, h.kind = kindDelta ∧ first.startTxID ≤ h.startTxID ∧ h.endTxID ≤ last.endTxID)

/-! ## The name of a key -/

theorem nameOf_epochDir {name : Str} (h : '/' ∉ name) (scope : Key) (epoch : UInt64) :
    nameOf (epochDir scope epoch ++ name) = name := by
  have hsplit : epochDir scope epoch ++ name =
      (ltxDir scope ++ ('e' :: formatUint epoch.toNat)) ++ '/' :: name := by
    simp [epochDir]
  rw [nameOf, hsplit, afterLast_append h]

theorem not_mem_segmentName (h : Header) : '/' ∉ segmentName h := by
  have hdigits : ∀ n, '/' ∉ formatUint n := not_mem_formatUint (by decide)
  unfold segmentName
  split
  · split <;> simp [hdigits, dotSnapshot]
  split
  · simp [hdigits, dotLink]
  split
  · simp [hdigits, dotMarker]
  · simp [hdigits, dotLtx]

theorem not_mem_batchName (first last : Header) : '/' ∉ batchName first last := by
  have hdigits : ∀ n, '/' ∉ formatUint n := not_mem_formatUint (by decide)
  unfold batchName
  split
  · simp [hdigits, dotSnapshotBatch]
  split
  · simp [hdigits, dotMixedBatch]
  · simp [hdigits, dotDeltaBatch]

/-! ## What a skipped name says -/

section Skipped

variable {floor : UInt64} {key : Key} (h : skippedByName floor key = true)
include h

theorem skipped_range {suffix : Str} {a b : UInt64} (hs : suffix = dotLtx ∨ suffix = dotDeltaBatch)
    (hname : nameOf key = rangeText a b ++ suffix) : b ≤ floor := by
  have hspan : parseSegmentSpan (rangeText a b ++ suffix) = parseSegmentRange (rangeText a b) := by
    rcases hs with rfl | rfl
    · exact parseSegmentSpan_ltx _
    · exact parseSegmentSpan_deltaBatch a b
  have hstrict := Compaction.strictRangeEnd_rangeText a b
  cases hrange : parseSegmentRange (rangeText a b) <;> rcases hs with rfl | rfl <;>
    simp (disch := decide) [skippedByName, Manager.coveredByManifest, coveredByName,
      Compaction.coveredL0, Compaction.strictCoveredNameEnd, hname, hspan, hrange, hstrict,
      hasSuffix_append_of_apart, hasSuffix_append_of_suffix, cutSuffix_append, cutSuffix_apart,
      canonicalSnapshotTxID_apart] at h
  all_goals
    next span =>
    have hle : span.end ≤ floor.toNat := by tauto
    rw [parseSegmentRange_format] at hrange
    split at hrange <;> cases hrange
    exact UInt64.le_iff_toNat_le.2 hle

theorem skipped_snapshot {n : UInt64} {base : Str}
    (hspan : parseSnapshotSpan base = some { start := n.toNat, «end» := n.toNat, snapshot := true })
    (hcanon : canonicalSnapshotTxID (base ++ dotSnapshot) = some n.toNat)
    (hname : nameOf key = base ++ dotSnapshot) : n ≤ floor := by
  simp (disch := decide) [skippedByName, Manager.coveredByManifest, coveredByName,
    Compaction.coveredL0, Compaction.strictCoveredNameEnd, hname, parseSegmentSpan_snapshot, hspan,
    hcanon, hasSuffix_append_of_apart] at h
  tauto

theorem skipped_other {base suffix : Str}
    (hs : suffix = dotLink ∨ suffix = dotMarker ∨ suffix = dotMixedBatch ∨ suffix = dotSnapshotBatch)
    (hname : nameOf key = base ++ suffix) : Manager.coveredByManifest floor key = true := by
  rcases hs with rfl | rfl | rfl | rfl <;>
    simpa (disch := decide) [skippedByName, coveredByName, Compaction.coveredL0,
      Compaction.strictCoveredNameEnd, hname, hasSuffix_append_of_apart, cutSuffix_apart,
      canonicalSnapshotTxID_apart] using h

end Skipped

/-! ## Single segments -/

theorem segmentName_not_batch (h : Header) {suffix : Str}
    (hs : suffix = dotDeltaBatch ∨ suffix = dotSnapshotBatch) :
    hasSuffix (segmentName h) suffix = false := by
  unfold segmentName
  rcases hs with rfl | rfl
  all_goals
    repeat' split
    all_goals exact hasSuffix_append_of_apart (by decide) (by decide) _

theorem soundName_single {key : Key} {h : Header} (hname : nameOf key = segmentName h) :
    SoundName key [h] := by
  refine ⟨?_, ?_, ?_⟩
  · rw [hname, segmentName_not_batch h (.inl rfl)]
    nofun
  · rw [hname, segmentName_not_batch h (.inr rfl)]
    nofun
  intro floor hskip h' hh'
  obtain rfl := List.mem_singleton.1 hh'
  by_cases hsnap : h'.kind = kindSnapshot
  · obtain ⟨base, hbase, hspan, hcanon⟩ := segmentName_snapshot hsnap
    exact skipped_snapshot hskip hspan hcanon (hname.trans hbase)
  by_cases hlink : h'.kind = kindLink
  · rw [segmentName, if_neg hsnap, if_pos hlink] at hname
    have hcovered := skipped_other hskip (.inl rfl) hname
    simp [Manager.coveredByManifest, hname, parseSegmentSpan_link] at hcovered
  by_cases hmarker : h'.kind = kindMarker
  · rw [segmentName, if_neg hsnap, if_neg hlink, if_pos hmarker] at hname
    have hcovered := skipped_other hskip (.inr (.inl rfl)) hname
    rw [Manager.coveredByManifest, hname, parseSegmentSpan_marker, parseMarkerSpan_format] at hcovered
    by_cases hstart : h'.startTxID = 0 <;> simp [hstart] at hcovered
  · rw [segmentName_delta ⟨hsnap, hlink, hmarker⟩] at hname
    exact skipped_range hskip (.inl rfl) hname

/-! ## Batches -/

section Batch

variable {key : Key} {headers : List Header} {first last : Header}
  (hname : nameOf key = batchName first last)
include hname

theorem soundName_of_mixed (h : ¬ SameSnapshot first last)
    (hs : first.kind = kindSnapshot ∨ last.kind = kindSnapshot) : SoundName key headers := by
  rw [batchName_mixed h hs] at hname
  refine ⟨?_, ?_, fun floor hskip => ?_⟩
  iterate 2
    rw [hname, hasSuffix_append_of_apart (by decide) (by decide)]
    nofun
  have hcovered := skipped_other hskip (.inr (.inr (.inl rfl))) hname
  rw [Manager.coveredByManifest, hname] at hcovered
  split at hcovered
  · cases hcovered
  · simp (disch := decide) [batchSpanKnown, hasSuffix_append_of_apart,
      hasSuffix_append_of_suffix] at hcovered

theorem soundName_parts_iff (h : SameSnapshot first last) :
    SoundName key headers ↔ ∀ g ∈ headers, g.kind = kindSnapshot ∧ g.endTxID = first.endTxID := by
  rw [batchName_parts h] at hname
  constructor
  · intro hsound
    have hsuffix : hasSuffix (nameOf key) dotSnapshotBatch = true := by
      rw [hname]
      exact hasSuffix_append_self _ _
    obtain ⟨n, parts, htext, hall⟩ := hsound.snapshots hsuffix
    -- both texts have the transaction before the first dot
    have hcut := congrArg (cutAt '.') (hname.symm.trans htext)
    have hsplit : ∀ (k : Nat) (rest : Str), cutAt '.' (formatUint k ++ (['.', 'p'] ++ rest) ++
        dotSnapshotBatch) = some (formatUint k, 'p' :: (rest ++ dotSnapshotBatch)) := by
      intro k rest
      rw [List.append_assoc]
      exact cutAt_append (not_mem_formatUint (by decide) k) _
    rw [hsplit, hsplit, Option.some.injEq, Prod.mk.injEq] at hcut
    have hn := formatUint_injective hcut.1
    intro g hg
    exact ⟨(hall g hg).1, UInt64.toNat_inj.1 ((hall g hg).2.trans hn.symm)⟩
  · intro hall
    refine ⟨?_, ?_, ?_⟩
    · rw [hname, hasSuffix_append_of_apart (by decide) (by decide)]
      nofun
    · intro _
      exact ⟨_, _, hname, fun g hg => ⟨(hall g hg).1, by rw [(hall g hg).2]⟩⟩
    · intro floor hskip g hg
      have hcovered := skipped_other hskip (.inr (.inr (.inr rfl))) hname
      rw [← batchName_parts h] at hname
      rw [Manager.coveredByManifest, hname, parseSegmentSpan_parts h] at hcovered
      rw [UInt64.le_iff_toNat_le]
      grind

theorem soundName_deltas_iff (hf : first.kind ≠ kindSnapshot) (hl : last.kind ≠ kindSnapshot) :
    SoundName key headers ↔ ∀ g ∈ headers, g.kind = kindDelta ∧ first.startTxID ≤ g.startTxID ∧
      g.endTxID ≤ last.endTxID := by
  rw [batchName_deltas hf hl] at hname
  constructor
  · intro hsound
    have hsuffix : hasSuffix (nameOf key) dotDeltaBatch = true := by
      rw [hname]
      exact hasSuffix_append_self _ _
    obtain ⟨a, b, htext, hall⟩ := hsound.deltas hsuffix
    have htexts := List.append_cancel_right (hname.symm.trans htext)
    have hcut := congrArg (cutAt '-') htexts
    rw [cutAt_rangeText, cutAt_rangeText, Option.some.injEq, Prod.mk.injEq] at hcut
    have ha : first.startTxID = a := UInt64.toNat_inj.1 (formatUint_injective hcut.1)
    have hb : last.endTxID = b := UInt64.toNat_inj.1 (formatUint_injective hcut.2)
    rw [ha, hb]
    exact hall
  · intro hall
    refine ⟨?_, ?_, ?_⟩
    · intro _
      exact ⟨_, _, hname, hall⟩
    · rw [hname, hasSuffix_append_of_apart (by decide) (by decide)]
      nofun
    · intro floor hskip g hg
      have hle := skipped_range hskip (.inr rfl) hname
      have hend := (hall g hg).2.2
      rw [UInt64.le_iff_toNat_le] at *
      omega

end Batch

/-! ## Stored groups -/

theorem acceptedHeader_of_accept {invalid label : String} {epoch : UInt64} {segments : List Bytes}
    {headers : List Header}
    (h : segments.mapM (Manager.acceptSegment invalid label epoch) = .ok headers) :
    segments.mapM acceptedHeader = .ok headers := by
  induction segments generalizing headers with
  | nil => exact h
  | cons s segments ih =>
    rw [List.mapM_cons] at h ⊢
    obtain ⟨hdr, hacc, h⟩ := bind_eq_ok.1 h
    obtain ⟨rest, hrest, h⟩ := bind_eq_ok.1 h
    obtain ⟨⟨payload, hd⟩, -⟩ := acceptSegment_eq_ok.1 hacc
    cases h
    rw [acceptedHeader, hd, ih hrest]
    rfl

theorem groupName_eq_batchName {headers : List Header} {first last : Header}
    (hf : headers.head? = some first) (hl : headers.getLast? = some last)
    (hlen : 2 ≤ headers.length) : Manager.groupName headers = batchName first last := by
  match headers, hlen with
  | a :: b :: rest, _ =>
    rw [List.head?_cons, Option.some.injEq] at hf
    rw [List.getLast?_cons_cons] at hl
    rw [Manager.groupName, hl, hf]
    · rfl
    · nofun

/-- The name of a stored group is sound exactly when its two ends tell about everything
between them. -/
theorem soundName_iff_endsTell {items : List Item} {m m' : Manager} {key : Key}
    {segments : List Bytes} {headers : List Header} (h : Stored items m key segments m')
    (hh : segments.mapM acceptedHeader = .ok headers) : SoundName key headers ↔ EndsTell headers := by
  obtain ⟨g, -, -, rfl, happend⟩ := h
  obtain ⟨-, -, happend⟩ := bind_eq_ok.1 happend
  split at happend
  · cases happend
  next hne =>
  obtain ⟨headers', hacc, happend⟩ := bind_eq_ok.1 happend
  obtain ⟨m₁, -, happend⟩ := bind_eq_ok.1 happend
  cases (acceptedHeader_of_accept hacc).symm.trans hh
  cases happend
  match headers with
  | [] =>
    rcases hsegs : g.segments with _ | ⟨s, rest⟩
    · exact absurd hsegs hne
    rw [hsegs, List.mapM_cons] at hh
    obtain ⟨_, -, hh⟩ := bind_eq_ok.1 hh
    obtain ⟨_, -, hh⟩ := bind_eq_ok.1 hh
    cases hh
  | [hdr] =>
    have hsound := soundName_single (nameOf_epochDir (not_mem_segmentName hdr) m.scope g.epoch)
    exact iff_of_true hsound fun _ _ _ _ hlen => absurd hlen (by simp)
  | first :: second :: rest =>
    obtain ⟨last, hlast⟩ : ∃ last, (first :: second :: rest).getLast? = some last :=
      ⟨_, List.getLast?_eq_some_getLast (List.cons_ne_nil _ _)⟩
    have hname : nameOf (epochDir m.scope g.epoch ++ Manager.groupName (first :: second :: rest)) =
        batchName first last := by
      rw [groupName_eq_batchName rfl hlast (by simp), nameOf_epochDir (not_mem_batchName _ _)]
    have hends : EndsTell (first :: second :: rest) ↔
        (SameSnapshot first last → ∀ h ∈ first :: second :: rest,
          h.kind = kindSnapshot ∧ h.endTxID = first.endTxID) ∧
        (first.kind ≠ kindSnapshot → last.kind ≠ kindSnapshot → ∀ h ∈ first :: second :: rest,
          h.kind = kindDelta ∧ first.startTxID ≤ h.startTxID ∧ h.endTxID ≤ last.endTxID) := by
      constructor
      · intro h
        exact h first last rfl hlast (by simp)
      · intro h first' last' hf hl _
        cases hf
        cases hlast.symm.trans hl
        exact h
    rw [hends]
    by_cases hsame : SameSnapshot first last
    · rw [soundName_parts_iff hname hsame]
      exact ⟨fun h => ⟨fun _ => h, fun hf => absurd hsame.1 hf⟩, fun h => h.1 hsame⟩
    by_cases hs : first.kind = kindSnapshot ∨ last.kind = kindSnapshot
    · refine iff_of_true (soundName_of_mixed hname hsame hs) ⟨fun h => absurd h hsame, ?_⟩
      intro hf hl
      exact absurd hs (not_or.2 ⟨hf, hl⟩)
    · obtain ⟨hf, hl⟩ := not_or.1 hs
      rw [soundName_deltas_iff hname hf hl]
      exact ⟨fun h => ⟨fun h' => absurd h' hsame, fun _ _ => h⟩, fun h => h.2 hf hl⟩

/-! ## A snapshot between two deltas -/

/-- A delta, a snapshot and the next delta, queued in this order. -/
def mixedSegments : List Bytes :=
  [encode firstDelta [],
    encode { firstDelta with kind := kindSnapshot, startTxID := 5, endTxID := 5 } [],
    encode { firstDelta with startTxID := 2, endTxID := 2 } []]

def mixedItems : List Item := mixedSegments.map fun s => ⟨['s'], 1, [s]⟩

def mixedKey : Key := epochDir ['s'] 1 ++ ['1', '-', '2', '.', 'd', '.', 'b', 'a', 't', 'c', 'h']

/-- The group is stored as a batch of deltas up to transaction 2, so a watermark of 2 hides
the snapshot at transaction 5 from every reader. -/
theorem flush_hides_snapshot :
    ∃ m, Stored mixedItems emptyScope mixedKey mixedSegments m ∧
      hasSuffix (nameOf mixedKey) dotDeltaBatch = true ∧ skippedByName 2 mixedKey = true ∧
      ∃ s ∈ mixedSegments, (acceptedHeader s).map (fun h => (h.kind, h.endTxID)) =
        .ok (kindSnapshot, 5) := by
  refine ⟨{ emptyScope with objects := Store.empty.put mixedKey mixedSegments.flatten },
    ⟨⟨['s'], 1, mixedSegments⟩, ?_, rfl, rfl, ?_⟩, by decide +kernel, by decide +kernel,
    mixedSegments.getD 1 [], by simp [mixedSegments], by decide +kernel⟩
  · simp [mixedItems, mixedSegments, flushGroups, addItem]
  · decide +kernel

/-- The two deltas alone, without the snapshot between them, get a sound name. -/
def deltaSegments : List Bytes := mixedSegments.eraseIdx 1

def deltaHeaders : List Header := deltaSegments.map parseHeader

theorem soundName_two_deltas :
    (∃ m, Stored [⟨['s'], 1, deltaSegments⟩] emptyScope mixedKey deltaSegments m) ∧
      SoundName mixedKey deltaHeaders := by
  have hstored : Stored [⟨['s'], 1, deltaSegments⟩] emptyScope mixedKey deltaSegments
      { emptyScope with objects := Store.empty.put mixedKey deltaSegments.flatten } :=
    ⟨⟨['s'], 1, deltaSegments⟩, by simp [flushGroups, addItem], rfl, rfl, by decide +kernel⟩
  refine ⟨⟨_, hstored⟩, (soundName_iff_endsTell hstored (by decide +kernel)).2 ?_⟩
  intro first last hf hl _
  have hf : deltaHeaders.getD 0 default = first := Option.some.inj hf
  have hl : deltaHeaders.getD 1 default = last := Option.some.inj hl
  subst hf hl
  decide +kernel

end CellHive.Upload
