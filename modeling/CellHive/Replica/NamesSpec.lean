import CellHive.Ltx.SnapshotPartsSpec
import CellHive.Replica.Names

/-!
# What names say

A name that `SegmentName` or `BatchName` wrote reads back as the transaction range of the
headers it was written from. The readers try the suffixes in a fixed order, so every
lemma here first settles which suffix a name has.
-/

namespace CellHive.Replica

open Go Ltx

/-- The span of a single segment's name. -/
def headerSpan (h : Header) : Option SegmentSpan :=
  if h.kind = kindSnapshot then
    some { start := h.endTxID.toNat, «end» := h.endTxID.toNat, snapshot := true }
  else if h.kind = kindLink then none
  else if h.kind = kindMarker then
    if h.startTxID = 0 then none
    else some { start := h.startTxID.toNat, «end» := h.startTxID.toNat - 1, marker := true }
  else if h.endTxID < h.startTxID then none
  else some { start := h.startTxID.toNat, «end» := h.endTxID.toNat }

theorem parseUint_txid (x : UInt64) : parseUint 64 (formatUint x.toNat) = some x.toNat :=
  parseUint_formatUint x.toNat_lt

def rangeText (a b : UInt64) : Str := formatUint a.toNat ++ (['-'] ++ formatUint b.toNat)

theorem cutAt_rangeText (a b : UInt64) :
    cutAt '-' (rangeText a b) = some (formatUint a.toNat, formatUint b.toNat) :=
  cutAt_append (not_mem_formatUint (by decide) _) _

theorem parseSegmentRange_format (a b : UInt64) :
    parseSegmentRange (rangeText a b) =
      if b < a then none else some { start := a.toNat, «end» := b.toNat } := by
  unfold parseSegmentRange
  rw [cutAt_rangeText]
  dsimp only
  rw [parseUint_txid, parseUint_txid]
  simp only [UInt64.lt_iff_toNat_lt]

theorem parseSnapshotSpan_format (n : UInt64) :
    parseSnapshotSpan (formatUint n.toNat) =
      some { start := n.toNat, «end» := n.toNat, snapshot := true } := by
  unfold parseSnapshotSpan
  rw [cutSub_eq_none (not_mem_formatUint (by decide) _)]
  dsimp only
  rw [parseUint_txid]
  rfl

theorem cutSub_part (n : UInt64) (part : Str) :
    cutSub ['.', 'p'] (formatUint n.toNat ++ (['.', 'p'] ++ part)) =
      some (formatUint n.toNat, part) :=
  cutSub_append (not_mem_formatUint (by decide) _) part

theorem parseSnapshotSpan_part (n : UInt64) (part : Str) :
    parseSnapshotSpan (formatUint n.toNat ++ (['.', 'p'] ++ part)) =
      some { start := n.toNat, «end» := n.toNat, snapshot := true } := by
  unfold parseSnapshotSpan
  rw [cutSub_part]
  dsimp only
  rw [if_neg (formatUint_ne_nil _), parseUint_txid]
  rfl

theorem parseMarkerSpan_format (n : UInt64) :
    parseMarkerSpan (formatUint n.toNat) =
      if n = 0 then none else some { start := n.toNat, «end» := n.toNat - 1, marker := true } := by
  unfold parseMarkerSpan
  rw [parseUint_txid]
  dsimp only
  by_cases hn : n = 0
  · subst hn
    rfl
  · rw [if_neg hn, if_neg fun h => hn (UInt64.toNat_inj.1 (h.trans UInt64.toNat_zero.symm))]

/-! ## The suffix of a name -/

theorem parseSegmentSpan_snapshot (base : Str) :
    parseSegmentSpan (base ++ dotSnapshot) = parseSnapshotSpan base := by
  unfold parseSegmentSpan
  rw [if_pos (hasSuffix_append_self _ _), trimSuffix_append]

-- no suffix ends in another, so the readers before the right one do not take the name
theorem parseSegmentSpan_batch (base : Str) :
    parseSegmentSpan (base ++ dotBatch) = parseBatchSpan base := by
  unfold parseSegmentSpan
  simp (disch := decide) [hasSuffix_append_of_apart]

theorem parseSegmentSpan_ltx (base : Str) :
    parseSegmentSpan (base ++ dotLtx) = parseSegmentRange base := by
  unfold parseSegmentSpan
  simp (disch := decide) [hasSuffix_append_of_apart]

theorem parseSegmentSpan_marker (base : Str) :
    parseSegmentSpan (base ++ dotMarker) = parseMarkerSpan base := by
  unfold parseSegmentSpan
  simp (disch := decide) [hasSuffix_append_of_apart]

theorem parseSegmentSpan_link (base : Str) : parseSegmentSpan (base ++ dotLink) = none := by
  unfold parseSegmentSpan
  simp (disch := decide) [hasSuffix_append_of_apart]

/-! ## Single segments -/

theorem parseSegmentSpan_segmentName (h : Header) :
    parseSegmentSpan (segmentName h) = headerSpan h := by
  unfold segmentName headerSpan
  split
  · split
    · rw [List.append_assoc, List.append_assoc, ← List.append_assoc ['.', 'p'],
        ← List.append_assoc, parseSegmentSpan_snapshot, parseSnapshotSpan_part]
    · rw [parseSegmentSpan_snapshot, parseSnapshotSpan_format]
  split
  · exact parseSegmentSpan_link _
  split
  · rw [parseSegmentSpan_marker, parseMarkerSpan_format]
  · rw [parseSegmentSpan_ltx, List.append_assoc]
    exact parseSegmentRange_format _ _

/-! ## Batches -/

theorem trimSuffix_rangeText {c : Char} (hc : c.isDigit = false) (a b : UInt64) :
    trimSuffix (rangeText a b) ['.', c] = rangeText a b := by
  apply trimSuffix_of_not
  rw [rangeText, ← List.append_assoc]
  exact hasSuffix_formatUint hc _ ['.'] _

theorem parseBatchSpan_range {suffix : Str}
    (hsuffix : suffix = ['.', 'd'] ∨ suffix = ['.', 'm']) (a b : UInt64) :
    parseBatchSpan (rangeText a b ++ suffix) =
      if b < a then none else some { start := a.toNat, «end» := b.toNat } := by
  have htrim : trimSuffix (trimSuffix (trimSuffix (rangeText a b ++ suffix) ['.', 'd']) ['.', 'm'])
      ['.', 's'] = rangeText a b := by
    rcases hsuffix with rfl | rfl
    · rw [trimSuffix_append, trimSuffix_rangeText (by decide), trimSuffix_rangeText (by decide)]
    · rw [trimSuffix_of_not (hasSuffix_append_of_apart (by decide) (by decide) _),
        trimSuffix_append, trimSuffix_rangeText (by decide)]
  unfold parseBatchSpan
  rw [htrim]
  dsimp only
  rw [cutSub_eq_none (by simp [rangeText, not_mem_formatUint])]
  exact parseSegmentRange_format a b

theorem parseBatchSpan_parts (n : UInt64) (part : Str) :
    parseBatchSpan (formatUint n.toNat ++ (['.', 'p'] ++ part) ++ ['.', 's']) =
      some { start := n.toNat, «end» := n.toNat, snapshot := true } := by
  unfold parseBatchSpan
  rw [trimSuffix_of_not (hasSuffix_append_of_apart (by decide) (by decide) _),
    trimSuffix_of_not (hasSuffix_append_of_apart (by decide) (by decide) _), trimSuffix_append]
  dsimp only
  rw [cutSub_part]
  dsimp only
  rw [if_neg (formatUint_ne_nil _), parseSnapshotSpan_part]

/-! ## The three kinds of batch name -/

def partsText (first last : Header) : Str :=
  formatUint ((snapshotPart first).getD 0) ++ (['-', 'p'] ++ formatUint ((snapshotPart last).getD 0))

variable {first last : Header}

theorem batchName_parts (h : SameSnapshot first last) :
    batchName first last = formatUint first.endTxID.toNat ++ (['.', 'p'] ++ partsText first last) ++
      dotSnapshotBatch := by
  rw [batchName, if_pos h, partsText]
  simp only [List.append_assoc]

theorem batchName_mixed (h : ¬ SameSnapshot first last)
    (hs : first.kind = kindSnapshot ∨ last.kind = kindSnapshot) :
    batchName first last = rangeText first.startTxID last.endTxID ++ dotMixedBatch := by
  rw [batchName, if_neg h, if_pos hs, rangeText]
  simp only [List.append_assoc]

theorem batchName_deltas (hf : first.kind ≠ kindSnapshot) (hl : last.kind ≠ kindSnapshot) :
    batchName first last = rangeText first.startTxID last.endTxID ++ dotDeltaBatch := by
  have hs : ¬ SameSnapshot first last := fun h => hf h.1
  rw [batchName, if_neg hs, if_neg (not_or.2 ⟨hf, hl⟩), rangeText]
  simp only [List.append_assoc]

theorem parseSegmentSpan_deltaBatch (a b : UInt64) :
    parseSegmentSpan (rangeText a b ++ dotDeltaBatch) = parseSegmentRange (rangeText a b) := by
  rw [show dotDeltaBatch = ['.', 'd'] ++ dotBatch from rfl, ← List.append_assoc,
    parseSegmentSpan_batch, parseBatchSpan_range (.inl rfl), parseSegmentRange_format]

theorem parseSegmentSpan_parts (h : SameSnapshot first last) :
    parseSegmentSpan (batchName first last) =
      some { start := first.endTxID.toNat, «end» := first.endTxID.toNat, snapshot := true } := by
  have hs : dotSnapshotBatch = ['.', 's'] ++ dotBatch := rfl
  rw [batchName_parts h, hs, ← List.append_assoc, parseSegmentSpan_batch, parseBatchSpan_parts]

/-! ## Canonical snapshot names -/

theorem canonicalDecimal_formatUint (n : Nat) : canonicalDecimal (formatUint n) = true := by
  have hlead : ¬ (1 < (formatUint n).length ∧ (formatUint n).head? = some '0') := by
    rintro ⟨hlen, hhead⟩
    obtain rfl : n = 0 := by_contra fun hn => head_formatUint hn hhead
    exact absurd hlen (by decide)
  rw [canonicalDecimal, if_neg (not_or.2 ⟨formatUint_ne_nil n, hlead⟩), List.all_eq_true]
  intro c hc
  have hdigit := isDigit_of_mem_formatUint hc
  rw [Char.isDigit, Bool.and_eq_true, decide_eq_true_eq, decide_eq_true_eq] at hdigit
  exact decide_eq_true hdigit

theorem snapshotPart_lt {h : Header} {part : Nat} (hp : snapshotPart h = some part) :
    part < maxSnapshotParts := by
  unfold snapshotPart at hp
  split at hp
  · cases hp
  cases hp
  exact Nat.and_lt_two_pow _ (n := 15) (by decide)

theorem canonicalSnapshotTxID_format (n : UInt64) :
    canonicalSnapshotTxID (formatUint n.toNat ++ dotSnapshot) = some n.toNat := by
  unfold canonicalSnapshotTxID
  rw [cutSuffix_append]
  dsimp only
  rw [if_neg (formatUint_ne_nil _), cutAt_eq_none (not_mem_formatUint (by decide) _)]
  rw [canonicalDecimal_formatUint, if_neg Bool.noConfusion, parseUint_txid]

theorem canonicalSnapshotTxID_part (n : UInt64) {part : Nat} (hp : part < maxSnapshotParts) :
    canonicalSnapshotTxID (formatUint n.toNat ++ (['.', 'p'] ++ formatUint part) ++ dotSnapshot) =
      some n.toNat := by
  have hcut : cutAt '.' (formatUint n.toNat ++ (['.', 'p'] ++ formatUint part)) =
      some (formatUint n.toNat, ['p'] ++ formatUint part) :=
    cutAt_append (not_mem_formatUint (by decide) _) _
  have hread : parseUint 32 (formatUint part) = some part :=
    parseUint_formatUint (lt_trans hp (by decide))
  unfold canonicalSnapshotTxID
  rw [cutSuffix_append]
  dsimp only
  rw [hcut]
  dsimp only
  rw [cutStart_append]
  dsimp only
  rw [canonicalDecimal_formatUint, canonicalDecimal_formatUint, if_neg (by simp), parseUint_txid,
    hread]
  exact if_neg (not_le.2 hp)

theorem canonicalSnapshotTxID_apart {s suffix : Str} (h : ¬ suffix <:+ dotSnapshot)
    (h' : ¬ dotSnapshot <:+ suffix) : canonicalSnapshotTxID (s ++ suffix) = none := by
  rw [canonicalSnapshotTxID, cutSuffix_apart h h']

theorem segmentName_snapshot {h : Header} (hk : h.kind = kindSnapshot) :
    ∃ base, segmentName h = base ++ dotSnapshot ∧
      parseSnapshotSpan base =
        some { start := h.endTxID.toNat, «end» := h.endTxID.toNat, snapshot := true } ∧
      canonicalSnapshotTxID (base ++ dotSnapshot) = some h.endTxID.toNat := by
  unfold segmentName
  rw [if_pos hk]
  cases hp : snapshotPart h with
  | none => exact ⟨_, rfl, parseSnapshotSpan_format _, canonicalSnapshotTxID_format _⟩
  | some part =>
    refine ⟨formatUint h.endTxID.toNat ++ (['.', 'p'] ++ formatUint part), ?_,
      parseSnapshotSpan_part _ _, canonicalSnapshotTxID_part _ (snapshotPart_lt hp)⟩
    simp only [List.append_assoc]

theorem segmentName_delta {h : Header} (hk : h.kind ≠ kindSnapshot ∧ h.kind ≠ kindLink ∧
    h.kind ≠ kindMarker) : segmentName h = rangeText h.startTxID h.endTxID ++ dotLtx := by
  rw [segmentName, if_neg hk.1, if_neg hk.2.1, if_neg hk.2.2, rangeText]
  simp only [List.append_assoc]

theorem eq_formatUint_of_canonical {s : Str} {bits n : Nat} (hc : canonicalDecimal s = true)
    (h : parseUint bits s = some n) : s = formatUint n := by
  unfold canonicalDecimal at hc
  split at hc
  · cases hc
  next hs =>
  obtain ⟨hne, hlead⟩ := not_or.1 hs
  refine (formatUint_of_digits hne (fun hzero => ?_) (parseUint_eq_some h).1).symm
  have hpos := List.length_pos_iff.2 hne
  by_contra hlen
  exact hlead ⟨by omega, hzero⟩

theorem canonicalSnapshotTxID_eq_some {name : Str} {n : Nat}
    (h : canonicalSnapshotTxID name = some n) :
    ∃ hdr : Header, hdr.kind = kindSnapshot ∧ hdr.endTxID.toNat = n ∧ segmentName hdr = name := by
  have hend : ∀ {s}, parseUint 64 s = some n → (UInt64.ofNat n).toNat = n := fun hn =>
    Nat.mod_eq_of_lt (parseUint_eq_some hn).2
  unfold canonicalSnapshotTxID at h
  split at h
  · cases h
  next base hbase =>
  obtain rfl := eq_append_of_cutSuffix hbase
  split at h
  · cases h
  split at h
  · (repeat' split at h) <;> cases h
    next hcut _ _ hpart hcanon _ _ p hp hlt hn =>
    rw [not_or, Bool.not_eq_false, Bool.not_eq_false] at hcanon
    refine ⟨{ (default : Header) with
      kind := kindSnapshot, flags := snapshotFlags p, endTxID := UInt64.ofNat n }, rfl, hend hn, ?_⟩
    rw [eq_append_of_cutAt hcut, eq_append_of_cutStart hpart,
      eq_formatUint_of_canonical hcanon.1 hn, eq_formatUint_of_canonical hcanon.2 hp]
    simp [segmentName, snapshotPart, snapshotFlags_paged, snapshotFlags_part (not_le.1 hlt),
      hend hn]
  · split at h
    · cases h
    next hcanon =>
    refine ⟨{ (default : Header) with kind := kindSnapshot, endTxID := UInt64.ofNat n }, rfl,
      hend h, ?_⟩
    rw [eq_formatUint_of_canonical (by simpa using hcanon) h]
    simp [segmentName, snapshotPart, hend h, show (default : Header).flags = 0 from rfl]

end CellHive.Replica
