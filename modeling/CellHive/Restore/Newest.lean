import CellHive.Restore.Fold

/-!
# The newest snapshot decides

Segments that stand at or below the newest snapshot do not take part in a restore: a chain
merges to the same database with or without them. `selectChain` tries the newest snapshot
first, and a candidate is judged by the segments above its transaction only.
-/

namespace CellHive.Restore

open Go Ltx

/-- No marker, no snapshot from `base` on, and no delta that reaches above it. -/
structure Below (base : UInt64) (h : Header) : Prop where
  kind : h.kind ≠ kindMarker
  snapshot : h.kind = kindSnapshot → h.startTxID < base
  delta : h.kind = kindDelta → h.endTxID ≤ base

/-- The chain at positions that are `n` further on. -/
def Selection.shift (n : Nat) (sel : Selection) : Selection :=
  ⟨sel.snapshots.map (n + ·), sel.deltas.map (n + ·), sel.watermark⟩

section Shift

variable {base epoch : UInt64} {old new : List Header}

theorem filter_range_append {q : Header → Bool} (hold : ∀ h ∈ old, q h = false) :
    (List.range (old ++ new).length).filter (fun i => q (headerAt (old ++ new) i)) =
      ((List.range new.length).filter fun i => q (headerAt new i)).map (old.length + ·) := by
  rw [range_append_eq, List.filter_append, deltaPositions, List.filter_map]
  have hnone : (List.range old.length).filter (fun i => q (headerAt (old ++ new) i)) = [] := by
    apply List.filter_eq_nil_iff.2
    intro i hi
    have hlt := List.mem_range.1 hi
    rw [headerAt_left hlt, hold _ (headerAt_mem hlt)]
    exact Bool.false_ne_true
  have hright : (fun i => q (headerAt (old ++ new) i)) ∘ (old.length + ·) =
      fun i => q (headerAt new i) := by
    funext i
    exact congrArg q (headerAt_right i)
  rw [hnone, hright, List.nil_append]

/-- The segment belongs to the snapshot of an epoch at `base`. -/
def inSet (base epoch : UInt64) (h : Header) : Bool :=
  decide (h.epoch = epoch ∧ h.startTxID = base) && decide (h.kind = kindSnapshot)

theorem snapshotSet_eq_filter (headers : List Header) :
    snapshotSet headers (List.range headers.length) base epoch =
      (List.range headers.length).filter fun i => inSet base epoch (headerAt headers i) := by
  rw [snapshotSet, snapshotIndices, List.filter_filter]
  rfl

theorem snapshotSet_shift (hold : ∀ h ∈ old, Below base h) :
    snapshotSet (old ++ new) (List.range (old ++ new).length) base epoch =
      (snapshotSet new (List.range new.length) base epoch).map (old.length + ·) := by
  rw [snapshotSet_eq_filter, snapshotSet_eq_filter]
  apply filter_range_append
  intro h hh
  by_cases hkind : h.kind = kindSnapshot
  · have hlt := (hold h hh).snapshot hkind
    have hne : h.startTxID ≠ base := UInt64.ne_of_lt hlt
    simp [inSet, hne]
  · simp [inSet, hkind]

theorem deltaTail_shift (hold : ∀ h ∈ old, Below base h) :
    deltaTail (old ++ new) (List.range (old ++ new).length) base =
      (deltaTail new (List.range new.length) base).map (old.length + ·) := by
  have hfilter := @filter_range_append old new
    (fun h => decide (h.kind = kindDelta ∧ base < h.endTxID)) (by
      intro h hh
      apply decide_eq_false
      rintro ⟨hkind, habove⟩
      exact UInt64.not_lt.2 ((hold h hh).delta hkind) habove)
  rw [deltaTail, hfilter]
  symm
  apply List.map_insertionSort
  intro a _ b _
  rw [headerAt_right, headerAt_right]

theorem completeSnapshotSet_shift (is : List Nat) :
    completeSnapshotSet (old ++ new) (is.map (old.length + ·)) = completeSnapshotSet new is := by
  have hfold : (is.map (old.length + ·)).foldlM (fun s i => scanPart s (headerAt (old ++ new) i))
      ({} : SetScan) = is.foldlM (fun s i => scanPart s (headerAt new i)) {} := by
    rw [List.foldlM_map]
    simp only [headerAt_right]
  unfold completeSnapshotSet
  rw [hfold, List.isEmpty_map]

theorem sortParts_shift (is : List Nat) :
    sortParts (old ++ new) (is.map (old.length + ·)) = (sortParts new is).map (old.length + ·) := by
  symm
  apply List.map_insertionSort
  intro a _ b _
  rw [headerAt_right, headerAt_right]

theorem checkTail_shift (expected : UInt64) (is : List Nat) :
    checkTail (old ++ new) expected (is.map (old.length + ·)) = checkTail new expected is := by
  induction is generalizing expected with
  | nil => rfl
  | cons i is ih =>
    rw [List.map_cons, checkTail, checkTail, headerAt_right]
    simp only [ih]

theorem tryCandidate_shift (hold : ∀ h ∈ old, Below base h) {sel : Selection}
    (h : tryCandidate new (List.range new.length) (base, epoch) = .ok sel) :
    tryCandidate (old ++ new) (List.range (old ++ new).length) (base, epoch) =
      .ok (sel.shift old.length) := by
  rw [tryCandidate_eq_ok] at h ⊢
  obtain ⟨hcomplete, hsnaps, hdeltas, htail⟩ := h
  rw [snapshotSet_shift hold, deltaTail_shift hold, completeSnapshotSet_shift, sortParts_shift,
    checkTail_shift]
  exact ⟨hcomplete, congrArg _ hsnaps, congrArg _ hdeltas, htail⟩

/-! ## The first candidate -/

theorem descending_eq_cons {xs : List UInt64} {x : UInt64} (hx : x ∈ xs)
    (hle : ∀ y ∈ xs, y ≤ x) : ∃ rest, descending xs = x :: rest := by
  have hmem : ∀ y, y ∈ descending xs ↔ y ∈ xs := by
    intro y
    rw [descending, List.mem_insertionSort, List.mem_dedup]
  have hsorted : (descending xs).Pairwise fun a b => b ≤ a := by
    exact List.pairwise_insertionSort _ _
  cases hdesc : descending xs with
  | nil =>
    have hin := (hmem x).2 hx
    rw [hdesc] at hin
    cases hin
  | cons y rest =>
    have hy : y ∈ xs := (hmem y).1 (hdesc ▸ List.mem_cons_self)
    rw [hdesc] at hsorted
    have hxy : x ≤ y := by
      have hin := (hmem x).2 hx
      rw [hdesc] at hin
      rcases List.mem_cons.1 hin with rfl | hrest
      · exact UInt64.le_refl _
      · exact (List.pairwise_cons.1 hsorted).1 x hrest
    exact ⟨rest, by rw [UInt64.le_antisymm hxy (hle y hy)]⟩

theorem mem_snapshotIndices_range {headers : List Header} {i : Nat} :
    i ∈ snapshotIndices headers (List.range headers.length) ↔
      i < headers.length ∧ (headerAt headers i).kind = kindSnapshot := by
  rw [snapshotIndices, List.mem_filter, List.mem_range, decide_eq_true_eq]

theorem candidates_eq_cons {snaps deltas : List Header} (hne : snaps ≠ [])
    (hold : ∀ h ∈ old, Below base h) (hs : SnapshotAt epoch base snaps)
    (hd : Contiguous base deltas) :
    ∃ rest, candidates (old ++ (snaps ++ deltas))
      (List.range (old ++ (snaps ++ deltas)).length) = (base, epoch) :: rest := by
  -- a snapshot is one of the old ones, or one of the parts
  have hcases : ∀ h ∈ old ++ (snaps ++ deltas), h.kind = kindSnapshot →
      h.startTxID < base ∨ h.startTxID = base ∧ h.epoch = epoch := by
    intro h hh hkind
    rcases List.mem_append.1 hh with hh | hh
    · exact .inl ((hold h hh).snapshot hkind)
    · rcases List.mem_append.1 hh with hh | hh
      · exact .inr ⟨(hs h hh).2.2, (hs h hh).2.1⟩
      · rw [hd.kind h hh] at hkind
        exact absurd hkind kind_ne.2.2
  obtain ⟨part, parts, rfl⟩ := List.exists_cons_of_ne_nil hne
  have hfirst : headerAt (old ++ (part :: parts ++ deltas)) old.length = part :=
    headerAt_right 0
  have hpart := hs part List.mem_cons_self
  have hindex : old.length ∈ snapshotIndices (old ++ (part :: parts ++ deltas))
      (List.range (old ++ (part :: parts ++ deltas)).length) := by
    rw [mem_snapshotIndices_range, hfirst]
    refine ⟨?_, hpart.1⟩
    simp
  obtain ⟨bases, hbases⟩ : ∃ bases, baseList (old ++ (part :: parts ++ deltas))
      (List.range (old ++ (part :: parts ++ deltas)).length) = base :: bases := by
    apply descending_eq_cons
    · rw [List.mem_map]
      exact ⟨_, hindex, by rw [hfirst, hpart.2.2]⟩
    · intro y hy
      obtain ⟨i, hi, rfl⟩ := List.mem_map.1 hy
      obtain ⟨hlt, hkind⟩ := mem_snapshotIndices_range.1 hi
      rcases hcases _ (headerAt_mem hlt) hkind with h | ⟨h, -⟩
      · exact UInt64.le_of_lt h
      · rw [h]
        exact UInt64.le_refl _
  have hepochs : epochList (old ++ (part :: parts ++ deltas))
      (List.range (old ++ (part :: parts ++ deltas)).length) base = [epoch] := by
    apply dedup_map_const
    · apply List.ne_nil_of_mem
      rw [List.mem_filter]
      exact ⟨hindex, decide_eq_true (by rw [hfirst, hpart.2.2])⟩
    · intro i hi
      obtain ⟨hi, hbase⟩ := List.mem_filter.1 hi
      obtain ⟨hlt, hkind⟩ := mem_snapshotIndices_range.1 hi
      rcases hcases _ (headerAt_mem hlt) hkind with h | ⟨-, h⟩
      · exact absurd (of_decide_eq_true hbase) (UInt64.ne_of_lt h)
      · exact h
  refine ⟨bases.flatMap fun b => (epochList (old ++ (part :: parts ++ deltas))
    (List.range (old ++ (part :: parts ++ deltas)).length) b).map fun e => (b, e), ?_⟩
  rw [candidates, hbases, List.flatMap_cons, hepochs]
  rfl

theorem selectChain_shift {snaps deltas : List Header} {sel : Selection} (hne : snaps ≠ [])
    (hold : ∀ h ∈ old, Below base h) (hs : SnapshotAt epoch base snaps)
    (hd : Contiguous base deltas) (hsel : selectChain (snaps ++ deltas) = .ok sel) :
    selectChain (old ++ (snaps ++ deltas)) = .ok (sel.shift old.length) := by
  have hmarkers : ∀ h ∈ old ++ (snaps ++ deltas), h.kind ≠ kindMarker := by
    intro h hh
    rcases List.mem_append.1 hh with hh | hh
    · exact (hold h hh).kind
    · exact no_marker_of_shape hs hd h hh
  have htry : tryCandidate (snaps ++ deltas) (List.range (snaps ++ deltas).length) (base, epoch) =
      .ok sel := by
    unfold selectChain at hsel
    rw [markerCuts_of_no_marker (no_marker_of_shape hs hd), ok_bind] at hsel
    dsimp only at hsel
    rw [keepIndices_nil, candidates_of_shape hs hd hne, firstUsable] at hsel
    cases hcand : tryCandidate (snaps ++ deltas) (List.range (snaps ++ deltas).length)
      (base, epoch) with
    | ok r =>
      rw [hcand] at hsel
      exact hsel
    | error e =>
      rw [hcand] at hsel
      cases hsel
  obtain ⟨rest, hcandidates⟩ := candidates_eq_cons hne hold hs hd
  unfold selectChain
  rw [markerCuts_of_no_marker hmarkers, ok_bind]
  dsimp only
  rw [keepIndices_nil, hcandidates, firstUsable, tryCandidate_shift hold htry]

end Shift

/-! ## Merging -/

section Merge

variable {base epoch : UInt64} {oldSegs snapSegs deltaSegs : List Bytes}
  {os ds dd : List (Header × Bytes)} {snaps deltas : List PageMap}

theorem segmentAt_right (xs ys : List (Header × Bytes)) (i : Nat) :
    segmentAt (xs ++ ys) (xs.length + i) = segmentAt ys i := by
  rw [segmentAt, segmentAt, List.getD_append_right _ _ _ _ (Nat.le_add_right _ _),
    Nat.add_sub_cancel_left]

theorem chosenMaps_shift {decoded : List (Header × Bytes)} {sel : Selection}
    (h : ChosenMaps decoded sel snaps deltas) :
    ChosenMaps (os ++ decoded) (sel.shift os.length) snaps deltas := by
  have hshift : ∀ (is : List Nat) (maps : List PageMap),
      MappedAt decoded is maps → MappedAt (os ++ decoded) (is.map (os.length + ·)) maps := by
    intro is maps h
    rw [MappedAt, List.forall₂_map_left_iff]
    simp only [segmentAt_right]
    exact h
  exact ⟨hshift _ _ h.1, hshift _ _ h.2⟩

/-- A chain merges to the same database when older segments stand in front of it. -/
theorem DecodedChain.mergeChain_newest
    (h : DecodedChain epoch base snapSegs deltaSegs ds dd snaps deltas)
    (hos : Decoded oldSegs os)
    (hold : ∀ h ∈ os.map (·.1), Below base h) (hmat : Materializable snaps deltas) :
    ∃ r, Restore.mergeChain (oldSegs ++ (snapSegs ++ deltaSegs)) = .ok r ∧
      r.view = ⟨chainPageSize snaps, chainCommit snaps deltas, lastTx base (dd.map (·.1)),
        imagePages (chainImage snaps deltas) (chainCommit snaps deltas)⟩ := by
  have hne : ds.map (·.1) ≠ [] := by simpa using h.ne
  have hcomplete := h.complete
  rw [← List.length_map (·.1)] at hcomplete
  have hsel := (selectChain_of_shape h.at_base h.contiguous hne).2 ⟨hcomplete, rfl⟩
  have hchosen : ChosenMaps (ds ++ dd) ⟨sortParts (ds.map (·.1)) (List.range ds.length),
      deltaPositions (ds.map (·.1)) (dd.map (·.1)), lastTx base (dd.map (·.1))⟩ snaps deltas :=
    chosenMaps_of_shape.2 ⟨h.snaps, h.deltas⟩
  rw [List.length_map] at hsel
  have hshift := selectChain_shift hne hold h.at_base h.contiguous hsel
  have hdec : decodeSegments 0 (oldSegs ++ (snapSegs ++ deltaSegs)) = .ok (os ++ (ds ++ dd)) :=
    decodeSegments_eq_ok.2 (List.rel_append hos (List.rel_append h.snapSegs h.deltaSegs))
  rw [List.length_map, ← List.map_append, ← List.map_append] at hshift
  exact ⟨_, mergeChain_eq_ok_iff.2 ⟨_, _, snaps, deltas, hdec, hshift, chosenMaps_shift hchosen,
    hmat, rfl⟩, rfl⟩

end Merge

end CellHive.Restore
