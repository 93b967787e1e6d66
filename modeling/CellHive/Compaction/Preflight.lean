import CellHive.Replica.NamesSpec
import CellHive.Replica.Restore

/-!
# Classifying L0 objects by name

The preflight of `internal/compaction/compaction.go`: a strict canonical name proves that
an L0 object is wholly at or below the manifest's watermark, or wholly above it, without
a download.
-/

namespace CellHive.Compaction

open Go Ltx Bucket Replica

def strictRangeEnd (base : Str) : Option Nat :=
  match cutAt '-' base with
  | none => none
  | some (first, last) =>
    if canonicalDecimal first = false ∨ canonicalDecimal last = false then none
    else
      match parseUint 64 first with
      | none => none
      | some start =>
        match parseUint 64 last with
        | none => none
        | some «end» => if «end» < start then none else some «end»

/-- `strictCoveredNameEnd`: the last transaction of a name and whether the object holds one
segment only; `strictSnapshotEnd` is `canonicalSnapshotTxID`. -/
def strictCoveredNameEnd (name : Str) : Option (Nat × Bool) :=
  if hasSuffix name dotSnapshot then (canonicalSnapshotTxID name).map fun n => (n, true)
  else
    match cutSuffix name dotLtx with
    | some base => (strictRangeEnd base).map fun n => (n, true)
    | none =>
      match cutSuffix name dotDeltaBatch with
      | some base => (strictRangeEnd base).map fun n => (n, false)
      | none => none

/-- `l0Preflight`, without the sizes. -/
structure L0Preflight where
  complete : Bool := true
  covered : List Key := []
  newKeys : List Key := []
  newSegments : Nat := 0
  newCountsKnown : Bool := true
  deriving DecidableEq, Repr

/-- One object's name against the watermark. -/
def preflightKey (floor : UInt64) (p : L0Preflight) (key : Key) : L0Preflight :=
  match strictCoveredNameEnd (nameOf key) with
  | none => { p with complete := false }
  | some (last, countable) =>
    if last ≤ floor.toNat then { p with covered := p.covered ++ [key] }
    else
      { p with
        newKeys := p.newKeys ++ [key]
        newSegments := if countable then p.newSegments + 1 else p.newSegments
        newCountsKnown := p.newCountsKnown && countable }

def preflightL0 (floor : UInt64) (l0 : List Key) : L0Preflight :=
  l0.foldl (preflightKey floor) {}

/-- The name of an object proves that the watermark covers it. -/
def coveredL0 (floor : UInt64) (key : Key) : Bool :=
  match strictCoveredNameEnd (nameOf key) with
  | none => false
  | some (last, _) => decide (last ≤ floor.toNat)

theorem foldl_preflightKey_covered (floor : UInt64) (p : L0Preflight) (l0 : List Key) :
    (l0.foldl (preflightKey floor) p).covered = p.covered ++ l0.filter (coveredL0 floor) := by
  induction l0 generalizing p with
  | nil => simp
  | cons key l0 ih =>
    rw [List.foldl_cons, ih, List.filter_cons]
    unfold preflightKey coveredL0
    cases strictCoveredNameEnd (nameOf key) with
    | none => simp
    | some e =>
      by_cases he : e.1 ≤ floor.toNat
      · simp [he]
      · simp [he]

theorem preflightL0_covered (floor : UInt64) (l0 : List Key) :
    (preflightL0 floor l0).covered = l0.filter (coveredL0 floor) := by
  rw [preflightL0, foldl_preflightKey_covered, List.nil_append]

/-! ## What a strict name says -/

theorem strictRangeEnd_rangeText (a b : UInt64) :
    strictRangeEnd (rangeText a b) = (parseSegmentRange (rangeText a b)).map (·.end) := by
  unfold strictRangeEnd parseSegmentRange
  rw [cutAt_rangeText]
  dsimp only
  rw [canonicalDecimal_formatUint, canonicalDecimal_formatUint, if_neg (by simp), parseUint_txid,
    parseUint_txid]
  dsimp only
  split <;> rfl

theorem strictCoveredNameEnd_segmentName (h : Header) : strictCoveredNameEnd (segmentName h) =
    if h.kind = kindMarker then none else (headerSpan h).map fun s => (s.end, true) := by
  by_cases hsnap : h.kind = kindSnapshot
  · obtain ⟨base, hbase, -, hcanon⟩ := segmentName_snapshot hsnap
    rw [strictCoveredNameEnd, hbase, if_pos (hasSuffix_append_self _ _), hcanon, headerSpan, hsnap]
    rfl
  unfold headerSpan
  by_cases hlink : h.kind = kindLink
  · rw [segmentName, if_neg hsnap, if_pos hlink, if_neg hsnap, if_pos hlink]
    simp (disch := decide) [strictCoveredNameEnd, hasSuffix_append_of_apart, cutSuffix_apart]
  by_cases hmarker : h.kind = kindMarker
  · rw [segmentName, if_neg hsnap, if_neg hlink, if_pos hmarker, if_pos hmarker]
    simp (disch := decide) [strictCoveredNameEnd, hasSuffix_append_of_apart, cutSuffix_apart]
  · rw [segmentName_delta ⟨hsnap, hlink, hmarker⟩, if_neg hmarker, if_neg hsnap, if_neg hlink,
      if_neg hmarker, ← parseSegmentRange_format]
    simp (disch := decide) [strictCoveredNameEnd, hasSuffix_append_of_apart, cutSuffix_append,
      strictRangeEnd_rangeText]
    rfl

theorem strictRangeEnd_eq_some {base : Str} {n : Nat} (h : strictRangeEnd base = some n) :
    ∃ a b : UInt64, a ≤ b ∧ b.toNat = n ∧ base = rangeText a b := by
  unfold strictRangeEnd at h
  (repeat' split at h) <;> cases h
  next hcut hcanon _ start hstart _ hend hle =>
  rw [not_or, Bool.not_eq_false, Bool.not_eq_false] at hcanon
  have hs : (UInt64.ofNat start).toNat = start := Nat.mod_eq_of_lt (parseUint_eq_some hstart).2
  have he : (UInt64.ofNat n).toNat = n := Nat.mod_eq_of_lt (parseUint_eq_some hend).2
  refine ⟨.ofNat start, .ofNat n, UInt64.le_iff_toNat_le.2 (by omega), he, ?_⟩
  rw [rangeText, hs, he, eq_append_of_cutAt hcut, eq_formatUint_of_canonical hcanon.1 hstart,
    eq_formatUint_of_canonical hcanon.2 hend]
  rfl

theorem strictCoveredNameEnd_eq_some {name : Str} {n : Nat} {one : Bool}
    (h : strictCoveredNameEnd name = some (n, one)) :
    one = true ∧ canonicalSnapshotTxID name = some n ∨
    ∃ a b : UInt64, a ≤ b ∧ b.toNat = n ∧
      name = rangeText a b ++ if one then dotLtx else dotDeltaBatch := by
  unfold strictCoveredNameEnd at h
  (repeat' split at h) <;> simp only [Option.map_eq_some_iff, Prod.mk.injEq, reduceCtorEq] at h
  all_goals obtain ⟨_, hm, rfl, rfl⟩ := h
  · exact .inl ⟨rfl, hm⟩
  all_goals
    next hbase _ =>
    obtain ⟨a, b, hab, hb, rfl⟩ := strictRangeEnd_eq_some hm
    exact .inr ⟨a, b, hab, hb, eq_append_of_cutSuffix hbase⟩

/-- The header of a delta over a range of transactions. -/
def deltaHeader (a b : UInt64) : Header := { (default : Header) with startTxID := a, endTxID := b }

/-- The readers give back what the writers' names carry, which is never the part of a snapshot,
and the strict readers take no name that no writer writes. -/
theorem names_read_back :
    (∀ h, parseSegmentSpan (segmentName h) = headerSpan h ∧
      canonicalSnapshotTxID (segmentName h) =
        (if h.kind = kindSnapshot then some h.endTxID.toNat else none) ∧
      strictCoveredNameEnd (segmentName h) =
        if h.kind = kindMarker then none else (headerSpan h).map fun s => (s.end, true)) ∧
    (∀ first last, first.kind = kindDelta → last.kind = kindDelta →
      parseSegmentSpan (batchName first last) =
        (if last.endTxID < first.startTxID then none
          else some { start := first.startTxID.toNat, «end» := last.endTxID.toNat }) ∧
      canonicalSnapshotTxID (batchName first last) = none ∧
      strictCoveredNameEnd (batchName first last) =
        if last.endTxID < first.startTxID then none else some (last.endTxID.toNat, false)) ∧
    (∀ name n, canonicalSnapshotTxID name = some n →
      ∃ h : Header, h.kind = kindSnapshot ∧ h.endTxID.toNat = n ∧ segmentName h = name) ∧
    (∀ name n, strictCoveredNameEnd name = some (n, true) →
      ∃ h : Header, (h.kind = kindSnapshot ∨ h.kind = kindDelta ∧ h.startTxID ≤ h.endTxID) ∧
        h.endTxID.toNat = n ∧ segmentName h = name) ∧
    (∀ name n, strictCoveredNameEnd name = some (n, false) →
      ∃ first last : Header, first.kind = kindDelta ∧ last.kind = kindDelta ∧
        first.startTxID ≤ last.endTxID ∧ last.endTxID.toNat = n ∧ batchName first last = name) := by
  refine ⟨fun h => ⟨parseSegmentSpan_segmentName h, ?_, strictCoveredNameEnd_segmentName h⟩,
    fun first last hf hl => ?_, fun name n => canonicalSnapshotTxID_eq_some,
    fun name n hn => ?_, fun name n hn => ?_⟩
  · split
    next hk =>
      obtain ⟨base, hbase, -, hcanon⟩ := segmentName_snapshot hk
      rw [hbase, hcanon]
    next hk =>
      unfold segmentName
      split_ifs <;> exact canonicalSnapshotTxID_apart (by decide) (by decide)
  · rw [batchName_deltas (hf ▸ by decide) (hl ▸ by decide), ← parseSegmentRange_format]
    refine ⟨parseSegmentSpan_deltaBatch _ _, canonicalSnapshotTxID_apart (by decide) (by decide), ?_⟩
    simp (disch := decide) [strictCoveredNameEnd, hasSuffix_append_of_apart, cutSuffix_append,
      cutSuffix_apart, strictRangeEnd_rangeText, parseSegmentRange_format, apply_ite]
  · rcases strictCoveredNameEnd_eq_some hn with ⟨-, hm⟩ | ⟨a, b, hab, hb, rfl⟩
    · obtain ⟨h, hk, hh⟩ := canonicalSnapshotTxID_eq_some hm
      exact ⟨h, .inl hk, hh⟩
    · exact ⟨deltaHeader a b, .inr ⟨rfl, hab⟩, hb, segmentName_delta
        (show kindDelta ≠ _ ∧ kindDelta ≠ _ ∧ kindDelta ≠ _ by decide)⟩
  · rcases strictCoveredNameEnd_eq_some hn with ⟨hone, -⟩ | ⟨a, b, hab, hb, rfl⟩
    · cases hone
    · have hkind : kindDelta ≠ kindSnapshot := by decide
      exact ⟨deltaHeader a b, deltaHeader a b, rfl, rfl, hab, hb, batchName_deltas hkind hkind⟩

def partHeader7 (part : Nat) : Header :=
  { (default : Header) with kind := kindSnapshot, flags := snapshotFlags part, endTxID := 7 }

/-- No reader tells two parts of a snapshot apart. -/
theorem names_forget_part : snapshotPart (partHeader7 0) ≠ snapshotPart (partHeader7 1) ∧
    parseSegmentSpan (segmentName (partHeader7 0)) = parseSegmentSpan (segmentName (partHeader7 1)) ∧
    canonicalSnapshotTxID (segmentName (partHeader7 0)) =
      canonicalSnapshotTxID (segmentName (partHeader7 1)) ∧
    strictCoveredNameEnd (segmentName (partHeader7 0)) =
      strictCoveredNameEnd (segmentName (partHeader7 1)) := by
  decide +kernel

end CellHive.Compaction
