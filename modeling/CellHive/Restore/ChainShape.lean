import CellHive.Restore.ChainSpec

/-!
# Selection on a chain

On the headers of one snapshot followed by contiguous deltas there is nothing to
choose: `selectChain` keeps everything, tries the one candidate and takes all deltas
in order, provided the snapshot's set of parts is complete.
-/

namespace CellHive.Restore

open Go Ltx

/-- Deltas that continue transaction `w` without a gap. -/
def Contiguous : UInt64 → List Header → Prop
  | _, [] => True
  | w, h :: rest =>
    h.kind = kindDelta ∧ h.startTxID.toNat = w.toNat + 1 ∧ h.startTxID ≤ h.endTxID ∧
      Contiguous h.endTxID rest

/-- The last transaction of deltas that continue `w`. -/
def lastTx (w : UInt64) (deltas : List Header) : UInt64 :=
  deltas.foldl (fun _ h => h.endTxID) w

def SnapshotAt (epoch base : UInt64) (snaps : List Header) : Prop :=
  ∀ h ∈ snaps, h.kind = kindSnapshot ∧ h.epoch = epoch ∧ h.startTxID = base

theorem kind_ne : kindSnapshot ≠ kindMarker ∧ kindDelta ≠ kindMarker ∧ kindDelta ≠ kindSnapshot := by
  decide

theorem markerCuts_of_no_marker {cuts : List (UInt64 × UInt64)} {headers : List Header}
    (h : ∀ x ∈ headers, x.kind ≠ kindMarker) : markerCuts cuts headers = .ok cuts := by
  induction headers with
  | nil => rfl
  | cons x headers ih =>
    rw [markerCuts, if_pos (h x (by simp))]
    exact ih fun y hy => h y (List.mem_cons_of_mem _ hy)

theorem keepIndices_nil (headers : List Header) :
    keepIndices [] headers = List.range headers.length := by
  simp [keepIndices, truncated]

theorem Contiguous.kind {w : UInt64} {deltas : List Header} (h : Contiguous w deltas) :
    ∀ x ∈ deltas, x.kind = kindDelta := by
  induction deltas generalizing w with
  | nil => simp
  | cons d deltas ih =>
    obtain ⟨hkind, -, -, hrest⟩ := h
    rw [List.forall_mem_cons]
    exact ⟨hkind, ih hrest⟩

theorem Contiguous.above {w : UInt64} {deltas : List Header} (h : Contiguous w deltas) :
    ∀ x ∈ deltas, w.toNat < x.startTxID.toNat ∧ x.startTxID.toNat ≤ x.endTxID.toNat := by
  induction deltas generalizing w with
  | nil => simp
  | cons d deltas ih =>
    obtain ⟨-, hstart, hle, hrest⟩ := h
    rw [UInt64.le_iff_toNat_le] at hle
    rw [List.forall_mem_cons]
    refine ⟨⟨by omega, hle⟩, fun x hx => ?_⟩
    have := ih hrest x hx
    omega

theorem Contiguous.pairwise {w : UInt64} {deltas : List Header} (h : Contiguous w deltas) :
    deltas.Pairwise fun a b => a.startTxID < b.startTxID := by
  induction deltas generalizing w with
  | nil => exact .nil
  | cons d deltas ih =>
    obtain ⟨-, hstart, hle, hrest⟩ := h
    rw [UInt64.le_iff_toNat_le] at hle
    refine List.pairwise_cons.2 ⟨fun x hx => ?_, ih hrest⟩
    have := hrest.above x hx
    rw [UInt64.lt_iff_toNat_lt]
    omega

theorem lastTx_append (w : UInt64) (xs ys : List Header) :
    lastTx w (xs ++ ys) = lastTx (lastTx w xs) ys := by
  simp [lastTx]

theorem contiguous_append {w : UInt64} {xs ys : List Header} :
    Contiguous w (xs ++ ys) ↔ Contiguous w xs ∧ Contiguous (lastTx w xs) ys := by
  induction xs generalizing w with
  | nil => simp [Contiguous, lastTx]
  | cons x xs ih =>
    have hlast : lastTx w (x :: xs) = lastTx x.endTxID xs := rfl
    rw [List.cons_append, Contiguous, Contiguous, ih, hlast]
    simp only [and_assoc]

section Positions

variable {snaps deltas : List Header}

theorem headerAt_left {i : Nat} (h : i < snaps.length) :
    headerAt (snaps ++ deltas) i = headerAt snaps i := by
  rw [headerAt, headerAt, List.getD_append _ _ _ _ h]

theorem headerAt_right (i : Nat) :
    headerAt (snaps ++ deltas) (snaps.length + i) = headerAt deltas i := by
  rw [headerAt, headerAt, List.getD_append_right _ _ _ _ (Nat.le_add_right _ _),
    Nat.add_sub_cancel_left]

theorem headerAt_mem {headers : List Header} {i : Nat} (h : i < headers.length) :
    headerAt headers i ∈ headers := by
  rw [headerAt, List.getD_eq_getElem _ _ h]
  exact List.getElem_mem h

def deltaPositions (snaps deltas : List Header) : List Nat :=
  (List.range deltas.length).map (snaps.length + ·)

theorem range_append_eq :
    List.range (snaps ++ deltas).length = List.range snaps.length ++ deltaPositions snaps deltas := by
  rw [List.length_append, List.range_add, deltaPositions]

theorem map_headerAt_range (headers : List Header) :
    (List.range headers.length).map (headerAt headers) = headers := by
  refine List.ext_getElem (by simp) fun i h1 h2 => ?_
  rw [List.getElem_map, List.getElem_range, headerAt, List.getD_eq_getElem _ _ h2]

theorem checkTail_of_contiguous {w : UInt64} {headers : List Header} {is : List Nat}
    (h : Contiguous w (is.map (headerAt headers))) :
    checkTail headers (w + 1) is = .ok (lastTx w (is.map (headerAt headers)) + 1) := by
  induction is generalizing w with
  | nil => rfl
  | cons i is ih =>
    obtain ⟨-, hstart, hle, hrest⟩ := h
    have hne : ¬ (headerAt headers i).endTxID < (headerAt headers i).startTxID := by
      rw [UInt64.lt_iff_toNat_lt]
      rw [UInt64.le_iff_toNat_le] at hle
      omega
    have hexp : (headerAt headers i).startTxID = w + 1 := by
      apply UInt64.toNat_inj.1
      have := (headerAt headers i).startTxID.toNat_lt
      rw [hstart, UInt64.toNat_add, UInt64.toNat_one, Nat.mod_eq_of_lt (by omega)]
    rw [checkTail, if_neg hne, if_neg (by simp [hexp]), ih hrest]
    rfl

end Positions

section Shape

variable {epoch base : UInt64} {snaps deltas : List Header}

theorem dedup_map_const {is : List Nat} {f : Nat → UInt64} {c : UInt64} (hne : is ≠ [])
    (h : ∀ i ∈ is, f i = c) : descending (is.map f) = [c] := by
  have hmap : is.map f = List.replicate is.length c := List.eq_replicate_iff.2
    ⟨by simp, fun x hx => by
      obtain ⟨i, hi, rfl⟩ := List.mem_map.1 hx
      exact h i hi⟩
  rw [descending, hmap, List.replicate_dedup (List.length_eq_zero_iff.not.2 hne)]
  rfl

theorem map_headerAt_deltaPositions :
    (deltaPositions snaps deltas).map (headerAt (snaps ++ deltas)) = deltas := by
  have hcomp : (List.range deltas.length).map (headerAt (snaps ++ deltas) ∘ (snaps.length + ·)) =
      (List.range deltas.length).map (headerAt deltas) :=
    List.map_congr_left fun i _ => headerAt_right i
  rw [deltaPositions, List.map_map, hcomp, map_headerAt_range]

theorem map_headerAt_left :
    (List.range snaps.length).map (headerAt (snaps ++ deltas)) = snaps := by
  have hleft : (List.range snaps.length).map (headerAt (snaps ++ deltas)) =
      (List.range snaps.length).map (headerAt snaps) :=
    List.map_congr_left fun i hi => headerAt_left (List.mem_range.1 hi)
  rw [hleft, map_headerAt_range]

theorem completeSnapshotSet_congr {headers headers' : List Header} {is : List Nat}
    (h : is.map (headerAt headers) = is.map (headerAt headers')) :
    completeSnapshotSet headers is = completeSnapshotSet headers' is := by
  have hfold : ∀ hs : List Header,
      is.foldlM (fun s i => scanPart s (headerAt hs i)) ({} : SetScan) =
        (is.map (headerAt hs)).foldlM scanPart {} := by
    intro hs
    rw [List.foldlM_map]
  unfold completeSnapshotSet
  rw [hfold, hfold, h]

theorem sortParts_left :
    sortParts (snaps ++ deltas) (List.range snaps.length) =
      sortParts snaps (List.range snaps.length) := by
  have h := List.map_insertionSort
    (fun i j => (snapshotPart (headerAt (snaps ++ deltas) i)).getD 0 ≤
      (snapshotPart (headerAt (snaps ++ deltas) j)).getD 0)
    (fun i j => (snapshotPart (headerAt snaps i)).getD 0 ≤
      (snapshotPart (headerAt snaps j)).getD 0) id (List.range snaps.length) fun a ha b hb => by
        rw [headerAt_left (List.mem_range.1 ha), headerAt_left (List.mem_range.1 hb), id, id]
  rwa [List.map_id, List.map_id] at h

variable (hs : SnapshotAt epoch base snaps) (hd : Contiguous base deltas)
include hs hd

theorem no_marker_of_shape :
    ∀ x ∈ snaps ++ deltas, x.kind ≠ kindMarker := by
  intro x hx
  rcases List.mem_append.1 hx with hx | hx
  · rw [(hs x hx).1]
    exact kind_ne.1
  · rw [hd.kind x hx]
    exact kind_ne.2.1

theorem snapshotIndices_of_shape :
    snapshotIndices (snaps ++ deltas) (List.range (snaps ++ deltas).length) =
      List.range snaps.length := by
  have hleft : ∀ i ∈ List.range snaps.length,
      decide ((headerAt (snaps ++ deltas) i).kind = kindSnapshot) = true := by
    intro i hi
    rw [headerAt_left (List.mem_range.1 hi)]
    exact decide_eq_true (hs _ (headerAt_mem (List.mem_range.1 hi))).1
  have hright : ∀ i ∈ deltaPositions snaps deltas,
      ¬ decide ((headerAt (snaps ++ deltas) i).kind = kindSnapshot) = true := by
    intro i hi
    obtain ⟨j, hj, rfl⟩ := List.mem_map.1 hi
    rw [headerAt_right, hd.kind _ (headerAt_mem (List.mem_range.1 hj))]
    simpa using kind_ne.2.2
  rw [snapshotIndices, range_append_eq, List.filter_append, List.filter_eq_self.2 hleft,
    List.filter_eq_nil_iff.2 hright, List.append_nil]

theorem snapshotSet_of_shape :
    snapshotSet (snaps ++ deltas) (List.range (snaps ++ deltas).length) base epoch =
      List.range snaps.length := by
  rw [snapshotSet, snapshotIndices_of_shape hs hd]
  refine List.filter_eq_self.2 fun i hi => ?_
  have hlt := List.mem_range.1 hi
  rw [headerAt_left hlt]
  exact decide_eq_true (hs _ (headerAt_mem hlt)).2

theorem candidates_of_shape (hne : snaps ≠ []) :
    candidates (snaps ++ deltas) (List.range (snaps ++ deltas).length) = [(base, epoch)] := by
  have hrange : List.range snaps.length ≠ [] := by simpa using hne
  have hat : ∀ i ∈ List.range snaps.length, (headerAt (snaps ++ deltas) i).startTxID = base ∧
      (headerAt (snaps ++ deltas) i).epoch = epoch := by
    intro i hi
    have hlt := List.mem_range.1 hi
    rw [headerAt_left hlt]
    exact ⟨(hs _ (headerAt_mem hlt)).2.2, (hs _ (headerAt_mem hlt)).2.1⟩
  have hbase : baseList (snaps ++ deltas) (List.range (snaps ++ deltas).length) = [base] := by
    rw [baseList, snapshotIndices_of_shape hs hd]
    exact dedup_map_const hrange fun i hi => (hat i hi).1
  have hepoch : epochList (snaps ++ deltas) (List.range (snaps ++ deltas).length) base = [epoch] := by
    rw [epochList, snapshotIndices_of_shape hs hd]
    have hall : (List.range snaps.length).filter (fun i =>
        (headerAt (snaps ++ deltas) i).startTxID = base) = List.range snaps.length :=
      List.filter_eq_self.2 fun i hi => decide_eq_true (hat i hi).1
    rw [hall]
    exact dedup_map_const hrange fun i hi => (hat i hi).2
  rw [candidates, hbase, List.flatMap_singleton, hepoch]
  rfl

theorem deltaTail_of_shape :
    deltaTail (snaps ++ deltas) (List.range (snaps ++ deltas).length) base =
      deltaPositions snaps deltas := by
  have hfilter : (List.range (snaps ++ deltas).length).filter (fun i =>
      (headerAt (snaps ++ deltas) i).kind = kindDelta ∧
        base < (headerAt (snaps ++ deltas) i).endTxID) = deltaPositions snaps deltas := by
    rw [range_append_eq, List.filter_append, List.filter_eq_nil_iff.2, List.filter_eq_self.2,
      List.nil_append]
    · intro i hi
      obtain ⟨j, hj, rfl⟩ := List.mem_map.1 hi
      have hmem := headerAt_mem (List.mem_range.1 hj)
      have habove := hd.above _ hmem
      rw [headerAt_right]
      refine decide_eq_true ⟨hd.kind _ hmem, ?_⟩
      rw [UInt64.lt_iff_toNat_lt]
      omega
    · intro i hi
      have hlt := List.mem_range.1 hi
      rw [headerAt_left hlt]
      simp [(hs _ (headerAt_mem hlt)).1, Ne.symm kind_ne.2.2]
  rw [deltaTail, hfilter]
  refine List.Pairwise.insertionSort_eq ?_
  have hpair : ((deltaPositions snaps deltas).map (headerAt (snaps ++ deltas))).Pairwise
      (fun a b => a.startTxID < b.startTxID) := by
    rw [map_headerAt_deltaPositions]
    exact hd.pairwise
  refine (List.pairwise_map.1 hpair).imp fun hlt => ?_
  have hne := UInt64.ne_of_lt hlt
  simp [deltaLE, hne, hlt]

theorem selectChain_of_shape (hne : snaps ≠ []) {sel : Selection} :
    selectChain (snaps ++ deltas) = .ok sel ↔
      completeSnapshotSet snaps (List.range snaps.length) = true ∧
        sel = ⟨sortParts snaps (List.range snaps.length), deltaPositions snaps deltas,
          lastTx base deltas⟩ := by
  have hcuts : markerCuts [] (snaps ++ deltas) = .ok [] :=
    markerCuts_of_no_marker (no_marker_of_shape hs hd)
  have hcomplete : completeSnapshotSet (snaps ++ deltas) (List.range snaps.length) =
      completeSnapshotSet snaps (List.range snaps.length) :=
    completeSnapshotSet_congr (by rw [map_headerAt_left, map_headerAt_range])
  have hone : ∀ keep c, firstUsable (snaps ++ deltas) keep [c] = .ok sel ↔
      tryCandidate (snaps ++ deltas) keep c = .ok sel := by
    intro keep c
    unfold firstUsable
    cases tryCandidate (snaps ++ deltas) keep c <;> simp [firstUsable]
  have htail := @checkTail_of_contiguous base (snaps ++ deltas) (deltaPositions snaps deltas)
    (by rw [map_headerAt_deltaPositions]; exact hd)
  rw [map_headerAt_deltaPositions] at htail
  rw [selectChain, hcuts, ok_bind]
  dsimp only
  rw [keepIndices_nil, candidates_of_shape hs hd hne, hone, tryCandidate_eq_ok,
    snapshotSet_of_shape hs hd, deltaTail_of_shape hs hd, hcomplete, sortParts_left, htail]
  refine and_congr_right fun _ => ?_
  obtain ⟨snapshots, ds, watermark⟩ := sel
  simp only [Except.ok.injEq, Selection.mk.injEq, UInt64.add_left_inj]
  exact and_congr_right fun _ => and_congr_right fun _ => eq_comm

end Shape

end CellHive.Restore
