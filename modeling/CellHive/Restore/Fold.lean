import CellHive.Ltx.SnapshotPartsSpec
import CellHive.Restore.ChainShape
import CellHive.Restore.MergeSpec

/-!
# Folding a prefix of a chain

`Compact` replaces a snapshot and the deltas after it by one snapshot of their image.
The folded image holds the pages 1..commit only, so it forgets pages above a shrunk
page count; a chain in which every delta that grows the database brings the new
pages cannot tell the difference (`mergeChain_compact`).
-/

namespace CellHive.Restore

open Go Ltx Overlay

/-! ## Chains -/

def SnapshotSegment (epoch base : UInt64) (s : Bytes) : Prop :=
  ∃ h payload, decode s = .ok (h, payload) ∧ h.kind = kindSnapshot ∧ h.epoch = epoch ∧
    h.startTxID = base

/-- Deltas that continue a database of `c` pages at transaction `w`: contiguous, and a
delta that raises the page count holds all the pages it adds. -/
inductive DeltaRun : UInt64 → UInt32 → List Bytes → Prop
  | nil {w : UInt64} {c : UInt32} : DeltaRun w c []
  | cons {w : UInt64} {c : UInt32} {s : Bytes} {rest : List Bytes} {h : Header} {payload : Bytes}
      {m : PageMap} (hdec : decode s = .ok (h, payload)) (hkind : h.kind = kindDelta)
      (hstart : h.startTxID.toNat = w.toNat + 1) (hle : h.startTxID ≤ h.endTxID)
      (hmap : decodeWALPageMap payload = .ok m)
      (hgrow : ∀ p, c < p → p ≤ m.commit → (m.page? p).isSome)
      (hrest : DeltaRun h.endTxID (if 0 < m.commit then m.commit else c) rest) :
      DeltaRun w c (s :: rest)

/-- A complete snapshot, which alone materializes to `snapshot`, and deltas that
continue it. -/
structure ValidChain (epoch base : UInt64) (snapshot : Merged) (snaps deltas : List Bytes) :
    Prop where
  parts : ∀ s ∈ snaps, SnapshotSegment epoch base s
  complete : mergeChain snaps = .ok snapshot
  continues : DeltaRun base snapshot.commit deltas

/-- Each delta that grows a database of `c` pages holds the new pages. -/
def GrowsFilled : UInt32 → List PageMap → Prop
  | _, [] => True
  | c, m :: rest =>
    (∀ p, c < p → p ≤ m.commit → (m.page? p).isSome) ∧
      GrowsFilled (if 0 < m.commit then m.commit else c) rest

variable {c : UInt32} {epoch base : UInt64} {hs : List Header} {snapSegs deltaSegs : List Bytes}
  {deltas : List PageMap}

theorem DeltaRun.decoded {w : UInt64} {ds : List Bytes} (h : DeltaRun w c ds) :
    ∃ (dd : List (Header × Bytes)) (maps : List PageMap),
      Decoded ds dd ∧ Contiguous w (dd.map (·.1)) ∧ Mapped dd maps ∧ GrowsFilled c maps := by
  induction h with
  | nil => exact ⟨[], [], .nil, trivial, .nil, trivial⟩
  | cons hdec hkind hstart hle hmap hgrow _ ih =>
    obtain ⟨dd, maps, hdd, hcont, hmaps, hfilled⟩ := ih
    exact ⟨_ :: dd, _ :: maps, .cons hdec hdd, ⟨hkind, hstart, hle, hcont⟩, .cons hmap hmaps,
      hgrow, hfilled⟩

theorem snapshotSegments_decoded {snaps : List Bytes}
    (h : ∀ s ∈ snaps, SnapshotSegment epoch base s) :
    ∃ ds : List (Header × Bytes), Decoded snaps ds ∧ SnapshotAt epoch base (ds.map (·.1)) := by
  induction snaps with
  | nil => exact ⟨[], .nil, by simp [SnapshotAt]⟩
  | cons s snaps ih =>
    obtain ⟨hd, payload, hdec, hkind, hepoch, hbase⟩ := h s (by simp)
    obtain ⟨ds, hds, hat⟩ := ih fun t ht => h t (List.mem_cons_of_mem _ ht)
    refine ⟨(hd, payload) :: ds, .cons hdec hds, ?_⟩
    rw [List.map_cons, SnapshotAt, List.forall_mem_cons]
    exact ⟨⟨hkind, hepoch, hbase⟩, hat⟩

/-! ## Merging a chain -/

section Shape

variable {ds dd : List (Header × Bytes)}

theorem segmentAt_left {i : Nat} (h : i < ds.length) : segmentAt (ds ++ dd) i = segmentAt ds i := by
  rw [segmentAt, segmentAt, List.getD_append _ _ _ _ h]

theorem map_segmentAt_deltaPositions :
    (deltaPositions (ds.map (·.1)) (dd.map (·.1))).map (segmentAt (ds ++ dd)) = dd := by
  refine List.ext_getElem (by simp [deltaPositions]) fun i h1 h2 => ?_
  simp only [deltaPositions, List.getElem_map, List.getElem_range, List.length_map]
  rw [segmentAt, List.getD_append_right _ _ _ _ (Nat.le_add_right _ _), Nat.add_sub_cancel_left,
    List.getD_eq_getElem _ _ h2]

def SnapshotMaps (ds : List (Header × Bytes)) (snaps : List PageMap) : Prop :=
  List.Forall₂ (fun i m => decodeWALPageMap (segmentAt ds i).2 = .ok m)
    (sortParts (ds.map (·.1)) (List.range ds.length)) snaps

theorem chosenMaps_of_shape {wm : UInt64} {snaps deltas : List PageMap} :
    ChosenMaps (ds ++ dd) ⟨sortParts (ds.map (·.1)) (List.range ds.length),
        deltaPositions (ds.map (·.1)) (dd.map (·.1)), wm⟩ snaps deltas ↔
      SnapshotMaps ds snaps ∧ Mapped dd deltas := by
  have hleft : (sortParts (ds.map (·.1)) (List.range ds.length)).map (segmentAt (ds ++ dd)) =
      (sortParts (ds.map (·.1)) (List.range ds.length)).map (segmentAt ds) :=
    List.map_congr_left fun i hi => segmentAt_left (List.mem_range.1 (mem_sortParts.1 hi))
  change MappedAt _ _ _ ∧ MappedAt _ _ _ ↔ MappedAt _ _ _ ∧ _
  simp only [← mapped_segmentAt, hleft, map_segmentAt_deltaPositions]

theorem mergeChain_of_shape {epoch base : UInt64} {snapSegs deltaSegs : List Bytes}
    {deltas : List PageMap} (hne : ds ≠ [])
    (hds : Decoded snapSegs ds) (hdd : Decoded deltaSegs dd)
    (hat : SnapshotAt epoch base (ds.map (·.1))) (hcont : Contiguous base (dd.map (·.1)))
    (hmaps : Mapped dd deltas) {r : Merged} :
    mergeChain (snapSegs ++ deltaSegs) = .ok r ↔
      completeSnapshotSet (ds.map (·.1)) (List.range ds.length) = true ∧
        ∃ snaps, SnapshotMaps ds snaps ∧ Materializable snaps deltas ∧
          r = ⟨chainPageSize snaps, chainCommit snaps deltas, chainEpoch (ds ++ dd),
            lastTx base (dd.map (·.1)),
            imagePages (chainImage snaps deltas) (chainCommit snaps deltas)⟩ := by
  have hdec : decodeSegments 0 (snapSegs ++ deltaSegs) = .ok (ds ++ dd) :=
    decodeSegments_eq_ok.2 (List.rel_append hds hdd)
  have hsel := @selectChain_of_shape epoch base (ds.map (·.1)) (dd.map (·.1)) hat hcont
    (by simpa using hne)
  rw [List.length_map] at hsel
  rw [mergeChain_eq_ok_iff]
  constructor
  · rintro ⟨decoded, sel, snaps, deltas', hdec', hsel', hchosen, hmat, rfl⟩
    rw [hdec, Except.ok.injEq] at hdec'
    subst hdec'
    rw [List.map_append] at hsel'
    obtain ⟨hcomplete, rfl⟩ := hsel.1 hsel'
    obtain ⟨hsnaps, hdeltas⟩ := chosenMaps_of_shape.1 hchosen
    obtain rfl : deltas' = deltas := (hchosen.unique (chosenMaps_of_shape.2 ⟨hsnaps, hmaps⟩)).2
    exact ⟨hcomplete, snaps, hsnaps, hmat, rfl⟩
  · rintro ⟨hcomplete, snaps, hsnaps, hmat, rfl⟩
    refine ⟨ds ++ dd, _, snaps, deltas, hdec, ?_, chosenMaps_of_shape.2 ⟨hsnaps, hmaps⟩, hmat, rfl⟩
    rw [List.map_append]
    exact hsel.2 ⟨hcomplete, rfl⟩

end Shape

/-! ## The parts `Compact` writes -/

theorem foldlM_scanPart_paged {k : Nat}
    (h : hs.map snapshotPart = (List.range' k hs.length).map some) :
    hs.foldlM scanPart { parts := (List.range k).reverse } =
      some { parts := (List.range (k + hs.length)).reverse } := by
  induction hs generalizing k with
  | nil => rfl
  | cons x hs ih =>
    rw [List.map_cons, List.length_cons, List.range'_succ, List.map_cons, List.cons.injEq] at h
    have hstep : scanPart { parts := (List.range k).reverse } x =
        some { parts := (List.range (k + 1)).reverse } := by
      rw [scanPart, h.1]
      simp [List.range_succ]
    rw [List.foldlM_cons, hstep]
    have := ih h.2
    rw [List.length_cons, ← Nat.add_assoc, Nat.add_right_comm k]
    exact this

theorem completeSnapshotSet_of_parts (hne : hs ≠ []) (h : hs.map snapshotPart =
      (List.range hs.length).map fun i => if hs.length = 1 then none else some i) :
    completeSnapshotSet hs (List.range hs.length) = true := by
  have hfold : (List.range hs.length).foldlM (fun s i => scanPart s (headerAt hs i)) ({} : SetScan) =
      hs.foldlM scanPart {} := by
    conv_rhs => rw [← map_headerAt_range hs, List.foldlM_map]
  have hempty : (List.range hs.length).isEmpty = false := by simpa using hne
  rw [completeSnapshotSet, hfold]
  by_cases h1 : hs.length = 1
  · obtain ⟨x, rfl⟩ := List.length_eq_one_iff.1 h1
    have hx : snapshotPart x = none := by simpa using h
    simp [scanPart, hx, SetScan.complete]
  · simp only [h1, if_false] at h
    have hscan := @foldlM_scanPart_paged hs 0 (by rw [h, List.range_eq_range'])
    rw [List.range_zero, List.reverse_nil] at hscan
    rw [hscan]
    simp [SetScan.complete, hne]

theorem sortParts_of_parts (h : hs.map snapshotPart =
      (List.range hs.length).map fun i => if hs.length = 1 then none else some i) :
    sortParts hs (List.range hs.length) = List.range hs.length := by
  have hpart : ∀ i < hs.length, (snapshotPart (headerAt hs i)).getD 0 = i := by
    intro i hi
    have hget : (hs.map snapshotPart)[i]? = some (if hs.length = 1 then none else some i) := by
      rw [h]
      simp [hi]
    have hat : snapshotPart (headerAt hs i) = if hs.length = 1 then none else some i := by
      rw [headerAt]
      simpa [hi] using hget
    rw [hat]
    split
    · next h1 =>
      simp only [Option.getD_none]
      omega
    · rfl
  refine List.Pairwise.insertionSort_eq ?_
  refine List.Pairwise.imp_of_mem ?_ List.pairwise_lt_range
  intro a b ha hb hab
  rw [hpart a (List.mem_range.1 ha), hpart b (List.mem_range.1 hb)]
  omega

theorem map_segmentAt_range (ds : List (Header × Bytes)) :
    (List.range ds.length).map (segmentAt ds) = ds := by
  refine List.ext_getElem (by simp) fun i h1 h2 => ?_
  rw [List.getElem_map, List.getElem_range, segmentAt, List.getD_eq_getElem _ _ h2]

def partMap (pageSize commit : UInt32) (chunk : List WALPage) : PageMap :=
  ⟨pageSize, commit, 1, chunk⟩

theorem readsParts_decoded {h : Header} {pageSize commit : UInt32} {total k : Nat}
    (hkind : h.kind = kindSnapshot) (htotal : total ≤ maxSnapshotParts)
    {chunks : List (List WALPage)} {segments : List Bytes}
    (hr : List.Forall₂ (ReadsPart h pageSize commit total) (chunks.zipIdx k) segments) :
    ∃ ds : List (Header × Bytes), Decoded segments ds ∧
      SnapshotAt h.epoch h.startTxID (ds.map (·.1)) ∧
      (ds.map (·.1)).map snapshotPart =
        (List.range' k chunks.length).map (fun i => if total = 1 then none else some i) ∧
      Mapped ds (chunks.map (partMap pageSize commit)) := by
  induction chunks generalizing k segments with
  | nil =>
    cases hr
    exact ⟨[], .nil, by simp [SnapshotAt], rfl, .nil⟩
  | cons chunk chunks ih =>
    cases hr with
    | cons hpart hrest =>
      obtain ⟨ds, hds, hat, hnum, hmaps⟩ := ih hrest
      obtain ⟨hlt, payload, hdec, hmap⟩ := hpart
      refine ⟨_ :: ds, .cons hdec hds, ?_, ?_, .cons hmap hmaps⟩
      · rw [List.map_cons, SnapshotAt, List.forall_mem_cons]
        exact ⟨⟨hkind, rfl, rfl⟩, hat⟩
      · rw [List.map_cons, List.map_cons, hnum, snapshotPart_partHeader hkind hlt htotal,
          List.length_cons, List.range'_succ, List.map_cons]

theorem snapshotMaps_of_parts {ds : List (Header × Bytes)} {maps : List PageMap}
    (hnum : (ds.map (·.1)).map snapshotPart =
      (List.range ds.length).map fun i => if ds.length = 1 then none else some i)
    (hmaps : Mapped ds maps) {snaps : List PageMap} : SnapshotMaps ds snaps ↔ snaps = maps := by
  have hsort : sortParts (ds.map (·.1)) (List.range ds.length) = List.range ds.length := by
    have h := @sortParts_of_parts (ds.map (·.1)) (by simpa using hnum)
    rwa [List.length_map] at h
  have hself : SnapshotMaps ds maps := by
    unfold SnapshotMaps
    rw [hsort]
    exact mapped_segmentAt.1 ((map_segmentAt_range ds).symm ▸ hmaps)
  constructor
  · intro h
    exact forall₂_maps_unique h hself
  · rintro rfl
    exact hself

/-! ## The image of the parts -/

theorem find?_eq_ite (p : UInt32) (nos : List UInt32) :
    nos.find? (fun q => decide (q = p)) = if p ∈ nos then some p else none := by
  induction nos with
  | nil => rfl
  | cons q nos ih =>
    by_cases hq : q = p
    · simp [hq]
    · rw [List.find?_cons_of_neg (by simpa using hq), ih]
      simp [Ne.symm hq]

theorem find?_imagePages (image : UInt32 → Option Bytes) (commit p : UInt32) :
    ((imagePages image commit).find? (·.pageNo = p)).map (·.data) =
      if 1 ≤ p ∧ p ≤ commit then some ((image p).getD []) else none := by
  rw [imagePages, List.find?_map]
  have hcomp : ((fun x : WALPage => decide (x.pageNo = p)) ∘
      fun q => (⟨q, (image q).getD []⟩ : WALPage)) = fun q => decide (q = p) := rfl
  rw [hcomp, find?_eq_ite]
  simp only [mem_pageRange]
  split <;> rfl

theorem nodup_pageRange (commit : UInt32) : (pageRange commit).Nodup := by
  refine List.Nodup.map_on ?_ List.nodup_range
  intro a ha b hb hab
  have hc := commit.toNat_lt
  rw [List.mem_range] at ha hb
  have hn := congrArg UInt32.toNat hab
  rw [UInt32.toNat_ofNat', UInt32.toNat_ofNat', Nat.mod_eq_of_lt (by omega)] at hn
  omega

section Parts

variable {pageSize commit : UInt32} {image : UInt32 → Option Bytes} {chunks : List (List WALPage)}

theorem first_parts (hflat : chunks.flatten = imagePages image commit) (p : UInt32) :
    first (layers (chunks.map (partMap pageSize commit))) p =
      if 1 ≤ p ∧ p ≤ commit then some ((image p).getD []) else none := by
  rw [← find?_imagePages, ← hflat, List.find?_flatten, List.map_findSome?, first, layers,
    List.map_map, List.findSome?_map]
  rfl

theorem partsAgree_parts (hflat : chunks.flatten = imagePages image commit) :
    PartsAgree (chunks.map (partMap pageSize commit)) := by
  have hsettled : ∀ c : UInt32, SettledOnce (chunks.map fun _ => c) := by
    intro c
    exact List.pairwise_map.2 (List.pairwise_of_forall fun _ _ _ => rfl)
  have hnodup : ((chunks.map (List.map (·.pageNo))).flatten).Nodup := by
    rw [← List.map_flatten, hflat, imagePages, List.map_map]
    exact (List.map_id (pageRange commit)).symm ▸ nodup_pageRange commit
  refine ⟨?_, ?_, ?_⟩
  · rw [List.map_map]
    exact hsettled pageSize
  · rw [List.map_map]
    exact hsettled commit
  · rw [layers, List.map_map, List.pairwise_map]
    have hdisj := List.pairwise_map.1 (List.nodup_flatten.1 hnodup).2
    refine hdisj.imp fun {a b} hab => ?_
    intro k x y hx hy
    have hmem : ∀ {c : List WALPage} {z : Bytes}, (partMap pageSize commit c).page? k = some z →
        k ∈ c.map (·.pageNo) := by
      intro c z hz
      rw [PageMap.page?, Option.map_eq_some_iff] at hz
      obtain ⟨w, hw, -⟩ := hz
      have hno := List.find?_some hw
      exact List.mem_map.2 ⟨w, List.mem_of_find?_eq_some hw, of_decide_eq_true hno⟩
    exact (hab (hmem hx) (hmem hy)).elim

theorem firstNonzero_const (hne : chunks ≠ []) (c : UInt32) :
    firstNonzero (chunks.map fun _ => c) = c := by
  rw [List.map_const', firstNonzero]
  by_cases h0 : c = 0 <;> simp [h0, hne]

theorem chainPageSize_parts (hne : chunks ≠ []) :
    chainPageSize (chunks.map (partMap pageSize commit)) = pageSize := by
  rw [chainPageSize, List.map_map]
  exact firstNonzero_const hne pageSize

theorem firstNonzero_commit_parts (hne : chunks ≠ []) :
    firstNonzero ((chunks.map (partMap pageSize commit)).map (·.commit)) = commit := by
  rw [List.map_map]
  exact firstNonzero_const hne commit

end Parts

/-! ## Folding -/

theorem lastNonzero_append (c : UInt32) (xs ys : List UInt32) :
    lastNonzero c (xs ++ ys) = lastNonzero (lastNonzero c xs) ys := by
  simp [lastNonzero]

theorem growsFilled_append {xs ys : List PageMap} : GrowsFilled c (xs ++ ys) ↔
      GrowsFilled c xs ∧ GrowsFilled (lastNonzero c (xs.map (·.commit))) ys := by
  induction xs generalizing c with
  | nil => simp [GrowsFilled, lastNonzero]
  | cons x xs ih =>
    rw [List.cons_append, GrowsFilled, GrowsFilled, ih, and_assoc]
    rfl

theorem GrowsFilled.covers {p : UInt32} {maps : List PageMap} (h : GrowsFilled c maps)
    (hp : p ≤ lastNonzero c (maps.map (·.commit))) : p ≤ c ∨ (overlay (layers maps) p).isSome := by
  induction maps generalizing c with
  | nil => exact .inl hp
  | cons m maps ih =>
    obtain ⟨hgrow, hrest⟩ := h
    rw [layers_cons, overlay_cons, Option.isSome_or, Bool.or_eq_true]
    rcases ih hrest hp with hle | hsome
    · by_cases hc : p ≤ c
      · exact .inl hc
      · refine .inr (.inr (hgrow p (UInt32.not_le.1 hc) ?_))
        split at hle
        · exact hle
        · exact absurd hle hc
    · exact .inr (.inl hsome)

section Folding

variable {snaps pre suf : List PageMap} {chunks : List (List WALPage)}

def foldedParts (snaps pre : List PageMap) (chunks : List (List WALPage)) : List PageMap :=
  chunks.map (partMap (chainPageSize snaps) (chainCommit snaps pre))

theorem chainCommit_folded (hne : chunks ≠ []) :
    chainCommit (foldedParts snaps pre chunks) suf = chainCommit snaps (pre ++ suf) := by
  rw [chainCommit, foldedParts, firstNonzero_commit_parts hne, chainCommit, chainCommit,
    List.map_append, lastNonzero_append]

variable (hmat : Materializable snaps pre)
  (hflat : chunks.flatten = imagePages (chainImage snaps pre) (chainCommit snaps pre))
  (hgrow : GrowsFilled (chainCommit snaps pre) suf)
include hmat hflat hgrow

theorem chainImage_folded {p : UInt32} (h1 : 1 ≤ p) (h2 : p ≤ chainCommit snaps (pre ++ suf)) :
    chainImage (foldedParts snaps pre chunks) suf p = chainImage snaps (pre ++ suf) p := by
  have hparts : overlay (layers (foldedParts snaps pre chunks)) p =
      if 1 ≤ p ∧ p ≤ chainCommit snaps pre then some ((chainImage snaps pre p).getD []) else none := by
    rw [foldedParts, ← first_eq_overlay (partsAgree_parts hflat).pages]
    exact first_parts hflat p
  have hwhole : chainImage snaps (pre ++ suf) p =
      (overlay (layers suf) p).or (chainImage snaps pre p) := by
    rw [chainImage, chainImage, ← List.append_assoc, layers_append, overlay_append]
  have hfolded : chainImage (foldedParts snaps pre chunks) suf p =
      (overlay (layers suf) p).or (overlay (layers (foldedParts snaps pre chunks)) p) := by
    rw [chainImage, layers_append, overlay_append]
  rw [hwhole, hfolded, hparts]
  cases hsuf : overlay (layers suf) p with
  | some data => rfl
  | none =>
    have hle : p ≤ chainCommit snaps pre := by
      rw [chainCommit, List.map_append, lastNonzero_append] at h2
      rcases hgrow.covers h2 with hle | hsome
      · exact hle
      · rw [hsuf] at hsome
        cases hsome
    obtain ⟨data, hdata⟩ := Option.isSome_iff_exists.1 (hmat.complete p h1 hle)
    rw [if_pos ⟨h1, hle⟩, hdata]
    rfl

theorem materializable_folded (hne : chunks ≠ []) :
    Materializable (foldedParts snaps pre chunks) suf ↔ Materializable snaps (pre ++ suf) := by
  have hcommit : chainCommit (foldedParts snaps pre chunks) suf = chainCommit snaps (pre ++ suf) :=
    chainCommit_folded hne
  have himage := fun p h1 h2 => @chainImage_folded snaps pre suf chunks hmat hflat hgrow p h1 h2
  constructor
  · rintro ⟨-, hc, hw, hall⟩
    rw [hcommit] at hc hw hall
    exact ⟨hmat.agree, hc, hw, fun p h1 h2 => himage p h1 h2 ▸ hall p h1 h2⟩
  · rintro ⟨-, hc, hw, hall⟩
    refine ⟨partsAgree_parts hflat, ?_, ?_, fun p h1 h2 => ?_⟩
    · rwa [hcommit]
    · rwa [hcommit]
    · rw [hcommit] at h2
      rw [himage p h1 h2]
      exact hall p h1 h2

theorem imagePages_folded :
    imagePages (chainImage (foldedParts snaps pre chunks) suf) (chainCommit snaps (pre ++ suf)) =
      imagePages (chainImage snaps (pre ++ suf)) (chainCommit snaps (pre ++ suf)) := by
  refine List.map_congr_left fun p hp => ?_
  obtain ⟨h1, h2⟩ := mem_pageRange.1 hp
  rw [chainImage_folded hmat hflat hgrow h1 h2]

end Folding

/-- What a restored database is, apart from the epoch of its chain. -/
structure View where
  pageSize : UInt32
  commit : UInt32
  watermark : UInt64
  pages : List WALPage
  deriving DecidableEq, Repr

def Merged.view (r : Merged) : View := ⟨r.pageSize, r.commit, r.watermark, r.pages⟩

/-- The page count of a segment is not the one at which the page counter wraps around;
SQLite's largest database has 2^32 - 2 pages. -/
def PageCountBelow (s : Bytes) : Prop :=
  ∀ h payload m, decode s = .ok (h, payload) → decodeWALPageMap payload = .ok m →
    wraps m.commit = false

/-- The page-map format holds the largest part that `Compact` cuts the database `m` into. -/
def PartsFit (m : Merged) (maxPartBytes : Int) : Prop :=
  FitsV2 m.pageSize (partPages m.pageSize (partBudget maxPartBytes) m.pages.length)

theorem length_imagePages (image : UInt32 → Option Bytes) (commit : UInt32) :
    (imagePages image commit).length = commit.toNat := by
  simp [imagePages, pageRange]

theorem lastNonzero_mem {xs : List UInt32} : lastNonzero c xs = c ∨ lastNonzero c xs ∈ xs := by
  induction xs generalizing c with
  | nil => exact .inl rfl
  | cons x xs ih =>
    have hcons : lastNonzero c (x :: xs) = lastNonzero (if 0 < x then x else c) xs := rfl
    rw [hcons]
    rcases @ih (if 0 < x then x else c) with h | h
    · rw [h]
      split
      · exact .inr (by simp)
      · exact .inl rfl
    · exact .inr (List.mem_cons_of_mem _ h)

theorem lastNonzero_ne {xs : List UInt32} (hc : c ≠ 0) : lastNonzero c xs ≠ 0 := by
  induction xs generalizing c with
  | nil => exact hc
  | cons x xs ih =>
    refine ih (show (if 0 < x then x else c) ≠ 0 from ?_)
    split
    · next hx => exact (UInt32.ne_of_lt hx).symm
    · exact hc

theorem materializable_append {snaps pre suf : List PageMap} (hmat : Materializable snaps pre)
    (hgrow : GrowsFilled (chainCommit snaps pre) suf)
    (hwrap : wraps (chainCommit snaps (pre ++ suf)) = false) :
    Materializable snaps (pre ++ suf) := by
  have hsplit : chainCommit snaps (pre ++ suf) =
      lastNonzero (chainCommit snaps pre) (suf.map (·.commit)) := by
    rw [chainCommit, chainCommit, List.map_append, lastNonzero_append]
  refine ⟨hmat.agree, ?_, hwrap, fun p h1 h2 => ?_⟩
  · rw [hsplit]
    exact lastNonzero_ne hmat.commit_ne
  · rw [hsplit] at h2
    rw [chainImage, ← List.append_assoc, layers_append, overlay_append, Option.isSome_or,
      Bool.or_eq_true]
    rcases hgrow.covers h2 with hle | hsome
    · exact .inr (hmat.complete p h1 hle)
    · exact .inl hsome

theorem view_eq {x y : Res Merged}
    (h : ∀ v, (∃ r, x = .ok r ∧ r.view = v) ↔ ∃ r, y = .ok r ∧ r.view = v) :
    x.toOption.map Merged.view = y.toOption.map Merged.view := by
  have hsome : ∀ (z : Res Merged) v,
      z.toOption.map Merged.view = some v ↔ ∃ r, z = .ok r ∧ r.view = v := by
    intro z v
    cases z <;> simp [Except.toOption]
  refine Option.ext fun v => ?_
  rw [hsome, hsome, h]

/-- A valid chain, decoded: the snapshot's maps in part order, and the deltas' maps. -/
structure DecodedChain (epoch base : UInt64) (snapSegs : List Bytes)
    (deltaSegs : List Bytes) (ds dd : List (Header × Bytes)) (snaps deltas : List PageMap) :
    Prop where
  ne : ds ≠ []
  snapSegs : List.Forall₂ (fun raw d => decode raw = .ok d) snapSegs ds
  deltaSegs : List.Forall₂ (fun raw d => decode raw = .ok d) deltaSegs dd
  at_base : SnapshotAt epoch base (ds.map (·.1))
  contiguous : Contiguous base (dd.map (·.1))
  complete : completeSnapshotSet (ds.map (·.1)) (List.range ds.length) = true
  snaps : SnapshotMaps ds snaps
  deltas : List.Forall₂ (fun d m => decodeWALPageMap d.2 = .ok m) dd deltas

theorem DecodedChain.snaps_ne {ds dd : List (Header × Bytes)} {snaps : List PageMap}
    (h : DecodedChain epoch base snapSegs deltaSegs ds dd snaps deltas) : snaps ≠ [] := by
  rintro rfl
  have hnone := List.forall₂_nil_right_iff.1 h.snaps
  have hzero : 0 ∈ sortParts (ds.map (·.1)) (List.range ds.length) :=
    mem_sortParts.2 (List.mem_range.2 (List.length_pos_iff.2 h.ne))
  rw [hnone] at hzero
  cases hzero

theorem DecodedChain.mergeChain {ds dd : List (Header × Bytes)} {snaps : List PageMap}
    (h : DecodedChain epoch base snapSegs deltaSegs ds dd snaps deltas) {r : Merged} :
    mergeChain (snapSegs ++ deltaSegs) = .ok r ↔ Materializable snaps deltas ∧
      r = ⟨chainPageSize snaps, chainCommit snaps deltas, chainEpoch (ds ++ dd),
        lastTx base (dd.map (·.1)),
        imagePages (chainImage snaps deltas) (chainCommit snaps deltas)⟩ := by
  rw [mergeChain_of_shape h.ne h.snapSegs h.deltaSegs h.at_base h.contiguous h.deltas]
  constructor
  · rintro ⟨-, snaps', hsnaps', hmat, rfl⟩
    obtain rfl : snaps' = snaps := forall₂_maps_unique hsnaps' h.snaps
    exact ⟨hmat, rfl⟩
  · rintro ⟨hmat, rfl⟩
    exact ⟨h.complete, snaps, h.snaps, hmat, rfl⟩

theorem exists_of_forall₂_mem {α β : Type} {R : α → β → Prop} {xs : List α} {ys : List β}
    (h : List.Forall₂ R xs ys) {y : β} (hy : y ∈ ys) : ∃ x ∈ xs, R x y := by
  induction h with
  | nil => cases hy
  | cons hxy _ ih =>
    rcases List.mem_cons.1 hy with rfl | hy
    · exact ⟨_, List.mem_cons_self, hxy⟩
    · obtain ⟨x, hx, hR⟩ := ih hy
      exact ⟨x, List.mem_cons_of_mem _ hx, hR⟩

theorem DecodedChain.no_wrap {ds dd : List (Header × Bytes)} {snaps : List PageMap}
    (h : DecodedChain epoch base snapSegs deltaSegs ds dd snaps deltas)
    (hbelow : ∀ s ∈ snapSegs ++ deltaSegs, PageCountBelow s) :
    wraps (chainCommit snaps deltas) = false := by
  have hsnap : ∀ c ∈ snaps.map (·.commit), wraps c = false := by
    intro c hc
    obtain ⟨m, hm, rfl⟩ := List.mem_map.1 hc
    obtain ⟨i, hi, hdec⟩ := exists_of_forall₂_mem h.snaps hm
    have hlt : i < ds.length := List.mem_range.1 (mem_sortParts.1 hi)
    have hmem : segmentAt ds i ∈ ds := by
      rw [segmentAt, List.getD_eq_getElem _ _ hlt]
      exact List.getElem_mem hlt
    obtain ⟨s, hs, hseg⟩ := exists_of_forall₂_mem h.snapSegs hmem
    exact hbelow s (List.mem_append_left _ hs) _ _ m hseg hdec
  have hdelta : ∀ c ∈ deltas.map (·.commit), wraps c = false := by
    intro c hc
    obtain ⟨m, hm, rfl⟩ := List.mem_map.1 hc
    obtain ⟨d, hd, hdec⟩ := exists_of_forall₂_mem h.deltas hm
    obtain ⟨s, hs, hseg⟩ := exists_of_forall₂_mem h.deltaSegs hd
    exact hbelow s (List.mem_append_right _ hs) _ _ m hseg hdec
  rcases @lastNonzero_mem (firstNonzero (snaps.map (·.commit))) (deltas.map (·.commit)) with hl | hl
  · rw [chainCommit, hl]
    by_cases h0 : firstNonzero (snaps.map (·.commit)) = 0
    · rw [h0]
      rfl
    · exact hsnap _ (mem_of_firstNonzero h0)
  · exact hdelta _ hl

theorem ValidChain.decoded {snapshot : Merged} {pre suf : List Bytes}
    (h : ValidChain epoch base snapshot snapSegs (pre ++ suf)) : ∃ ds da db snaps deltasA deltasB,
      DecodedChain epoch base snapSegs pre ds da snaps deltasA ∧
      DecodedChain epoch base snapSegs (pre ++ suf) ds (da ++ db) snaps (deltasA ++ deltasB) ∧
      Decoded suf db ∧ Contiguous (lastTx base (da.map (·.1))) (db.map (·.1)) ∧
      Mapped db deltasB ∧ GrowsFilled (chainCommit snaps deltasA) deltasB := by
  obtain ⟨ds, hds, hat⟩ := snapshotSegments_decoded h.parts
  obtain ⟨dd, maps, hdd, hcont, hmaps, hgrow⟩ := h.continues.decoded
  obtain ⟨da, db, rfl, hda, hdb⟩ := forall₂_append_left hdd
  obtain ⟨deltasA, deltasB, rfl, hA, hB⟩ := forall₂_append_left hmaps
  have hne : ds ≠ [] := by
    rintro rfl
    have hempty : mergeChain snapSegs = .error (.errorf "restore: no snapshot in chain") := by
      rw [List.forall₂_nil_right_iff.1 hds]
      rfl
    rw [h.complete] at hempty
    cases hempty
  have halone := h.complete
  rw [← List.append_nil snapSegs] at halone
  obtain ⟨hcomplete, snaps, hsnaps, hmat, hsnapshot⟩ :=
    (mergeChain_of_shape hne hds .nil hat trivial .nil).1 halone
  have hcommit : snapshot.commit = chainCommit snaps [] := by rw [hsnapshot]
  have hcont' := hcont
  rw [List.map_append, contiguous_append] at hcont'
  rw [hcommit, growsFilled_append] at hgrow
  exact ⟨ds, da, db, snaps, deltasA, deltasB,
    ⟨hne, hds, hda, hat, hcont'.1, hcomplete, hsnaps, hA⟩,
    ⟨hne, hds, hdd, hat, hcont, hcomplete, hsnaps, hmaps⟩, hdb, hcont'.2, hB, hgrow.2⟩

/-- The parts `Compact` writes for a materializable chain, followed by further deltas,
are a chain again. -/
theorem decodedChain_parts {compress : Bool} {wm : UInt64} {pageSize commit : UInt32}
    {image : UInt32 → Option Bytes} {budget : Int} {parts suf : List Bytes}
    {db : List (Header × Bytes)}
    (henc : encodeSnapshotParts compress (compactHeader epoch wm) pageSize commit
      (imagePages image commit) budget = .ok parts)
    (hfit : Fits compress pageSize (partPages pageSize budget (imagePages image commit).length))
    (hdb : Decoded suf db) (hcont : Contiguous wm (db.map (·.1))) (hdeltas : Mapped db deltas) :
    ∃ (dp : List (Header × Bytes)) (chunks : List (List WALPage)), chunks ≠ [] ∧
      chunks.flatten = imagePages image commit ∧
      DecodedChain epoch wm parts suf dp db (chunks.map (partMap pageSize commit)) deltas := by
  have hlen : (imagePages image commit).length < 2 ^ 32 := by
    rw [length_imagePages]
    exact commit.toNat_lt
  obtain ⟨chunks, hflat, hchunks, htotal, hkind, hreads⟩ := encodeSnapshotParts_eq_ok henc hlen hfit
  obtain ⟨dp, hdp, hat, hnum, hmaps⟩ := readsParts_decoded hkind htotal hreads
  have hcount : dp.length = chunks.length := by
    have h := hmaps.length_eq
    rwa [List.length_map] at h
  rw [← List.range_eq_range', ← hcount] at hnum
  have hne : dp ≠ [] := by
    rintro rfl
    exact hchunks (List.length_eq_zero_iff.1 hcount.symm)
  have hcomplete := @completeSnapshotSet_of_parts (dp.map (·.1)) (by simpa using hne)
    (by simpa using hnum)
  rw [List.length_map] at hcomplete
  exact ⟨dp, chunks, hchunks, hflat, hne, hdp, hdb, hat, hcont, hcomplete,
    (snapshotMaps_of_parts hnum hmaps).2 rfl, hdeltas⟩

/-- Folding a prefix of a valid chain changes nothing that a restore can see. -/
theorem mergeChain_compact {compress : Bool} {epoch base : UInt64} {snapshot : Merged}
    {snaps pre suf parts : List Bytes} {maxPartBytes : Int}
    (hchain : ValidChain epoch base snapshot snaps (pre ++ suf))
    (hint : maxPartBytes < 2 ^ 63)
    (hfit : compress = true → ∀ m, mergeChain (snaps ++ pre) = .ok m → PartsFit m maxPartBytes)
    (hcompact : compact compress (snaps ++ pre) maxPartBytes = .ok parts) :
    (mergeChain (parts ++ suf)).toOption.map Merged.view =
        (mergeChain (snaps ++ (pre ++ suf))).toOption.map Merged.view ∧
      ((∀ s ∈ snaps ++ (pre ++ suf), PageCountBelow s) →
        ∃ r, mergeChain (snaps ++ (pre ++ suf)) = .ok r) := by
  obtain ⟨ds, da, db, S, A, B, hpre, hwhole, hdb, hcont, hB, hgrow⟩ := hchain.decoded
  obtain ⟨m, hm, henc⟩ := bind_eq_ok.1 hcompact
  obtain ⟨hmat, rfl⟩ := hpre.mergeChain.1 hm
  have hfits : Fits compress (chainPageSize S) (partPages (chainPageSize S)
      (partBudget maxPartBytes) (imagePages (chainImage S A) (chainCommit S A)).length) := by
    cases compress with
    | true => exact hfit rfl _ hm
    | false =>
      refine fitsV1_of_budget henc ?_
      unfold partBudget defaultSnapshotPartBytes
      split <;> omega
  obtain ⟨dp, chunks, hne, hflat, hparts⟩ := decodedChain_parts henc hfits hdb hcont hB
  have hiff : Materializable (foldedParts S A chunks) B ↔ Materializable S (A ++ B) :=
    materializable_folded hmat hflat hgrow hne
  have hview : ∀ e e', Merged.view ⟨chainPageSize (foldedParts S A chunks),
      chainCommit (foldedParts S A chunks) B, e, lastTx (lastTx base (da.map (·.1))) (db.map (·.1)),
      imagePages (chainImage (foldedParts S A chunks) B) (chainCommit (foldedParts S A chunks) B)⟩ =
      Merged.view ⟨chainPageSize S, chainCommit S (A ++ B), e', lastTx base ((da ++ db).map (·.1)),
      imagePages (chainImage S (A ++ B)) (chainCommit S (A ++ B))⟩ := by
    intro e e'
    simp only [Merged.view, View.mk.injEq]
    refine ⟨chainPageSize_parts hne, chainCommit_folded hne, ?_, ?_⟩
    · rw [List.map_append, lastTx_append]
    · rw [chainCommit_folded hne, imagePages_folded hmat hflat hgrow]
  constructor
  · refine view_eq fun v => ?_
    constructor
    · rintro ⟨r, hr, rfl⟩
      obtain ⟨hfolded, rfl⟩ := hparts.mergeChain.1 hr
      exact ⟨_, hwhole.mergeChain.2 ⟨hiff.1 hfolded, rfl⟩, (hview _ _).symm⟩
    · rintro ⟨r, hr, rfl⟩
      obtain ⟨hfull, rfl⟩ := hwhole.mergeChain.1 hr
      exact ⟨_, hparts.mergeChain.2 ⟨hiff.2 hfull, rfl⟩, hview _ _⟩
  · intro hbelow
    exact ⟨_, hwhole.mergeChain.2
      ⟨materializable_append hmat hgrow (hwhole.no_wrap hbelow), rfl⟩⟩

/-- One of the segments has the page. -/
def Supplied (segments : List Bytes) (page : WALPage) : Prop :=
  ∃ s ∈ segments, ∃ h payload m, decode s = .ok (h, payload) ∧ decodeWALPageMap payload = .ok m ∧
    page ∈ m.pages

/-- A merge that succeeds returns every page up to the page count, in order, and each as one of the
segments has it. -/
theorem mergeChain_pages (segments : List Bytes) :
    match mergeChain segments with
    | .ok r => r.pages.map (·.pageNo) = pageRange r.commit ∧ ∀ page ∈ r.pages, Supplied segments page
    | .error _ => True := by
  split
  · next r h =>
    obtain ⟨decoded, sel, snaps, deltas, hdec, hsel, hmaps, hmat, rfl⟩ := mergeChain_eq_ok_iff.1 h
    refine ⟨by simp [mergedOf, imagePages, Function.comp_def], fun page hpage => ?_⟩
    obtain ⟨p, hp, rfl⟩ := List.mem_map.1 hpage
    obtain ⟨hpos, hle⟩ := mem_pageRange.1 hp
    obtain ⟨data, hdata⟩ := Option.isSome_iff_exists.1 (hmat.complete p hpos hle)
    obtain ⟨f, hf, hfp⟩ := exists_of_overlay hdata
    obtain ⟨m, hm, rfl⟩ := List.mem_map.1 hf
    -- the map was read from a segment of the chosen chain
    obtain ⟨i, hi, hread⟩ := exists_of_forall₂_mem (List.rel_append hmaps.1 hmaps.2) hm
    have hlt : i < decoded.length := by simpa using selectChain_lt hsel (List.mem_append.1 hi)
    rw [segmentAt, List.getD_eq_getElem _ _ hlt] at hread
    obtain ⟨s, hs, hdecode⟩ :=
      exists_of_forall₂_mem (decodeSegments_eq_ok.1 hdec) (List.getElem_mem hlt)
    rw [hdata]
    exact ⟨s, hs, _, _, m, hdecode, hread, (ordered_of_decode hread).page?_eq_some.1 hfp⟩
  · trivial

/-! ## A chain that is folded -/

/-- Transaction 3 grows the database again and brings its second page. -/
def growingDelta : Bytes :=
  encode { compactHeader 1 3 with kind := kindDelta }
    [87, 65, 76, 50, 0, 0, 0, 1, 0, 0, 0, 2, 0, 0, 0, 1, 0, 0, 0, 1, 0, 0, 0, 2, 6]

/-- The snapshot `Compact` writes for the first two segments. -/
def foldedSnapshot : Bytes :=
  encode (compactHeader 1 2)
    [87, 65, 76, 50, 0, 0, 0, 1, 0, 0, 0, 1, 0, 0, 0, 1, 0, 0, 0, 1, 0, 0, 0, 1, 9]

theorem validChain_small :
    ValidChain 1 1 ⟨1, 2, 1, 1, [⟨1, [7]⟩, ⟨2, [8]⟩]⟩ [twoPageSnapshot]
      ([shrinkingDelta] ++ [growingDelta]) := by
  refine ⟨?_, by decide +kernel, ?_⟩
  · simp only [List.mem_singleton, forall_eq]
    exact ⟨_, _, decode_encode _ _ (by decide), rfl, rfl, rfl⟩
  · refine @DeltaRun.cons _ _ _ _ _ _ ⟨1, 1, 1, [⟨1, [9]⟩]⟩ (decode_encode _ _ (by decide)) rfl rfl
      (by decide) (by decide +kernel) ?_ ?_
    · intro p h1 h2
      rw [UInt32.le_iff_toNat_le] at h2
      exact absurd (lt_of_lt_of_le h1 h2) (by decide)
    · refine @DeltaRun.cons _ _ _ _ _ _ ⟨1, 2, 1, [⟨2, [6]⟩]⟩ (decode_encode _ _ (by decide)) rfl
        rfl (by decide) (by decide +kernel) ?_ .nil
      intro p h1 h2
      have hp : p = 2 := by
        have h1' : 1 < p.toNat := h1
        have h2' : p.toNat ≤ 2 := h2
        exact UInt32.toNat_inj.1 (show p.toNat = 2 by omega)
      rw [hp]
      rfl

theorem mergeChain_compact_small :
    compact false ([twoPageSnapshot] ++ [shrinkingDelta]) 100 = .ok [foldedSnapshot] ∧
      (mergeChain ([foldedSnapshot] ++ [growingDelta])).toOption.map Merged.view =
        (mergeChain ([twoPageSnapshot] ++ ([shrinkingDelta] ++ [growingDelta]))).toOption.map
          Merged.view := by
  have hcompact : compact false ([twoPageSnapshot] ++ [shrinkingDelta]) 100 =
      .ok [foldedSnapshot] := by decide +kernel
  exact ⟨hcompact, (mergeChain_compact validChain_small (by decide) (by simp) hcompact).1⟩

end CellHive.Restore
