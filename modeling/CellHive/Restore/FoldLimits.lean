import CellHive.Restore.Fold

/-!
# Parts beyond the page-map format

The version 2 decoder refuses a page map of more than 2^31/12 pages and the encoder
does not: with compression on and a part budget above some hundred megabytes,
`Compact` can write a part that no reader accepts. A database of 178956971 pages of
512 bytes is one.
-/

namespace CellHive.Restore

open Go Ltx Overlay

/-! ## Uniform databases -/

def uniformPages (commit : UInt32) (data : Bytes) : List WALPage :=
  imagePages (fun _ => some data) commit

section Uniform

variable {pageSize commit : UInt32} {data : Bytes}

theorem ascending_imagePages (image : UInt32 → Option Bytes) (commit : UInt32) :
    (imagePages image commit).Pairwise (·.pageNo < ·.pageNo) := by
  have hc := commit.toNat_lt
  rw [imagePages, List.pairwise_map, pageRange, List.pairwise_map]
  refine List.Pairwise.imp_of_mem ?_ List.pairwise_lt_range
  intro a b ha hb hab
  rw [List.mem_range] at ha hb
  rw [UInt32.lt_iff_toNat_lt, UInt32.toNat_ofNat', UInt32.toNat_ofNat', Nat.mod_eq_of_lt (by omega)]
  omega

variable {pages : List WALPage}

theorem checkPart_of_range {k n i : Nat} (hdata : data.length = pageSize.toNat) (hk : k + n < 2 ^ 32) :
    checkPart pageSize k i ((List.range' k n).map fun j => ⟨UInt32.ofNat j, data⟩) = .ok () := by
  induction n generalizing k i with
  | zero => rfl
  | succ n ih =>
    rw [List.range'_succ, List.map_cons, checkPart]
    have hto : (UInt32.ofNat k).toNat = k := by
      rw [UInt32.toNat_ofNat']
      omega
    rw [if_neg (by simp [hto]), if_neg (by simpa using hdata)]
    exact ih (by omega)

theorem uniformPages_eq (commit : UInt32) (data : Bytes) :
    uniformPages commit data = (List.range' 1 commit.toNat).map fun j => ⟨UInt32.ofNat j, data⟩ := by
  refine List.ext_getElem (by simp [uniformPages, imagePages, pageRange]) fun i h1 h2 => ?_
  simp [uniformPages, imagePages, pageRange, Nat.add_comm]

theorem length_uniformPages (commit : UInt32) (data : Bytes) :
    (uniformPages commit data).length = commit.toNat := length_imagePages _ _

theorem decode_of_too_many {payload : Bytes} (hn : pages.length < 2 ^ 32)
    (hmany : 2 ^ 31 / pageMapV2IndexStride < pages.length)
    (h : encodeWALPageMap true pageSize commit 1 pages = .ok payload) :
    decodeWALPageMap payload = .error (.errorf "ltx: page-map page count too large") := by
  rw [decodeWALPageMap, describe_encodeV2 h (by decide) hn, if_pos hmany]
  rfl

end Uniform

/-! ## One segment -/

theorem snapshotPart_compactHeader (epoch wm : UInt64) (payload : Bytes) :
    snapshotPart (sealHeader (compactHeader epoch wm) payload) = none := by
  rw [snapshotPart, if_pos (.inr (show (0 : UInt16) &&& flagSnapshotPaged = 0 by decide))]

theorem decodedChain_single {epoch wm : UInt64} {payload : Bytes} {m : PageMap}
    (hlen : payload.length < 2 ^ 64) (hdec : decodeWALPageMap payload = .ok m) :
    DecodedChain epoch wm [encode (compactHeader epoch wm) payload] []
      [(sealHeader (compactHeader epoch wm) payload, payload)] [] [m] [] := by
  have hmaps : List.Forall₂ (fun (d : Header × Bytes) m => decodeWALPageMap d.2 = .ok m)
      [(sealHeader (compactHeader epoch wm) payload, payload)] [m] := .cons hdec .nil
  have hnum : ([(sealHeader (compactHeader epoch wm) payload, payload)].map (·.1)).map snapshotPart =
      (List.range 1).map fun i => if 1 = 1 then none else some i := by
    simp [snapshotPart_compactHeader]
  refine ⟨by simp, .cons (decode_encode _ _ hlen) .nil, .nil, ?_, trivial, ?_,
    (snapshotMaps_of_parts hnum hmaps).2 rfl, .nil⟩
  · simp [SnapshotAt, sealHeader, compactHeader]
  · exact completeSnapshotSet_of_parts (by simp) hnum

theorem mergeChain_single_ne_ok {h : Header} {payload : Bytes} {e : Err}
    (hlen : payload.length < 2 ^ 64) (hdec : decodeWALPageMap payload = .error e) (r : Merged) :
    mergeChain [encode h payload] ≠ .ok r := by
  intro hr
  obtain ⟨decoded, sel, snaps, deltas, hd, hsel, hmaps, -, -⟩ := mergeChain_eq_ok_iff.1 hr
  have hdecoded : decoded = [(sealHeader h payload, payload)] := by
    cases decodeSegments_eq_ok.1 hd with
    | cons hone hnil =>
      cases hnil
      rw [decode_encode h payload hlen, Except.ok.injEq] at hone
      rw [hone]
  subst hdecoded
  obtain ⟨i, is, hcons⟩ := List.exists_cons_of_ne_nil (selectChain_snapshots_ne_nil hsel)
  have hi : i = 0 := by
    have hlt := selectChain_lt hsel (i := i) (.inl (by simp [hcons]))
    simpa using hlt
  obtain ⟨hsnaps, -⟩ := hmaps
  rw [hcons] at hsnaps
  cases hsnaps with
  | cons hfirst _ =>
    rw [hi] at hfirst
    have hpayload : (segmentAt [(sealHeader h payload, payload)] 0).2 = payload := rfl
    rw [hpayload, hdec] at hfirst
    cases hfirst

/-! ## The unreadable part -/

section Unreadable

variable {pageSize commit : UInt32} {data : Bytes}

theorem materializable_uniform (hcommit : commit ≠ 0) (hwrap : wraps commit = false) :
    Materializable [⟨pageSize, commit, 1, uniformPages commit data⟩] [] ∧
      imagePages (chainImage [⟨pageSize, commit, 1, uniformPages commit data⟩] []) commit =
        uniformPages commit data := by
  have hc : chainCommit [⟨pageSize, commit, 1, uniformPages commit data⟩] [] = commit := by
    simp [chainCommit, firstNonzero, lastNonzero, hcommit]
  have himage : ∀ p, 1 ≤ p → p ≤ commit →
      chainImage [⟨pageSize, commit, 1, uniformPages commit data⟩] [] p = some data := by
    intro p h1 h2
    rw [chainImage, List.append_nil, layers_cons, layers_nil, overlay_singleton, PageMap.page?,
      uniformPages, find?_imagePages, if_pos ⟨h1, h2⟩]
    rfl
  constructor
  · refine ⟨⟨List.pairwise_singleton _ _, List.pairwise_singleton _ _, List.pairwise_singleton _ _⟩,
      by rwa [hc], by rwa [hc], ?_⟩
    intro p h1 h2
    rw [hc] at h2
    rw [himage p h1 h2]
    rfl
  · refine List.map_congr_left fun p hp => ?_
    obtain ⟨h1, h2⟩ := mem_pageRange.1 hp
    rw [himage p h1 h2]

theorem encodeSnapshotParts_uniform {h : Header} {budget : Int} {payload : Bytes}
    (hkind : h.kind = kindSnapshot) (hps : pageSize ≠ 0) (hcommit : commit ≠ 0)
    (hwrap : wraps commit = false) (hdata : data.length = pageSize.toNat)
    (hbudget : (headerSize + 20 + (4 + pageSize.toNat : Nat) : Int) ≤ budget)
    (hper : commit.toNat ≤ pagesPerPart pageSize budget)
    (hpayload : encodeWALPageMap true pageSize commit 1 (uniformPages commit data) = .ok payload) :
    encodeSnapshotParts true h pageSize commit (uniformPages commit data) budget =
      .ok [encode (partHeader h 0 1) payload] := by
  have hpos : 0 < commit.toNat := by
    rcases Nat.eq_zero_or_pos commit.toNat with h0 | h0
    · exact absurd (UInt32.toNat_inj.1 h0) hcommit
    · exact h0
  have hlt := commit.toNat_lt
  have hmax : commit.toNat ≠ 2 ^ 32 - 1 := by simpa [wraps] using hwrap
  have hlen := length_uniformPages commit data
  have htotal : (commit.toNat + pagesPerPart pageSize budget - 1) / pagesPerPart pageSize budget =
      1 := Nat.div_eq_of_lt_le (by omega) (by omega)
  have hne : uniformPages commit data ≠ [] := by
    rw [← List.length_pos_iff, hlen]
    exact hpos
  have hcons : uniformPages commit data = ⟨1, data⟩ ::
      (List.range' 2 (commit.toNat - 1)).map fun j => ⟨UInt32.ofNat j, data⟩ := by
    rw [uniformPages_eq, ← Nat.sub_add_cancel hpos, List.range'_succ]
    rfl
  have hpart : encodeSnapshotPart true h pageSize commit (uniformPages commit data) 0 1 =
      .ok (encode (partHeader h 0 1) payload) := by
    have hcheck : checkPart pageSize 1 0 (uniformPages commit data) = .ok () := by
      rw [uniformPages_eq]
      exact checkPart_of_range hdata (by omega)
    rw [hcons] at hcheck hpayload ⊢
    have hlast : (1 : UInt32).toNat + (((List.range' 2 (commit.toNat - 1)).map fun j =>
        (⟨UInt32.ofNat j, data⟩ : WALPage)).length + 1) - 1 = commit.toNat := by
      simp
      omega
    unfold encodeSnapshotPart
    rw [if_neg (not_not.2 hkind), if_neg hps, if_neg hcommit, if_neg (by omega),
      if_neg (by decide)]
    dsimp only
    rw [hlast, if_neg (by simp), if_neg (by simp), if_neg (by simp), if_neg (by simp)]
    have hone : (1 : UInt32).toNat = 1 := rfl
    rw [hone, hcheck, ok_bind, hpayload, ok_bind]
  unfold encodeSnapshotParts
  rw [if_neg (not_not.2 hkind), if_neg hps, if_neg hcommit, if_neg (by omega), hlen,
    if_neg (by simp)]
  dsimp only
  rw [htotal, encodePartsFrom_step (by omega) 1 0 hne, List.take_of_length_le (by omega), hpart,
    List.drop_eq_nil_of_le (by omega), encodePartsFrom_nil]
  rfl

/-- A database with more pages than the version 2 format can list, in one part. -/
theorem compact_unreadable {budget : Int} (hps : pageSize ≠ 0)
    (hmany : 2 ^ 31 / pageMapV2IndexStride < commit.toNat) (hwrap : wraps commit = false)
    (hdata : data.length = pageSize.toNat) (hpos : 0 < budget)
    (hbudget : (headerSize + 20 + (4 + pageSize.toNat : Nat) : Int) ≤ budget)
    (hper : commit.toNat ≤ pagesPerPart pageSize budget)
    (hv1 : FitsV1 pageSize commit.toNat)
    (hv2 : pageMapV2HeaderSize + commit.toNat * (pageMapV2IndexStride + pageSize.toNat) < 2 ^ 64) :
    ∃ (snapshot : Merged) (segment part : Bytes),
      ValidChain 1 1 snapshot [segment] ([] ++ []) ∧
      compact true ([segment] ++ []) budget = .ok [part] ∧
      mergeChain ([segment] ++ ([] ++ [])) = .ok snapshot ∧
      ∀ r, mergeChain ([part] ++ []) ≠ .ok r := by
  have hcommit : commit ≠ 0 := by
    rintro rfl
    simp at hmany
  have hlen := length_uniformPages commit data
  have hcheck : checkPages pageSize none (uniformPages commit data) = .ok () := by
    refine checkPages_ok (fun p hp => ?_) (ascending_imagePages _ _) fun _ _ => rfl
    obtain ⟨q, -, rfl⟩ := List.mem_map.1 hp
    exact hdata
  obtain ⟨payload1, hpayload1⟩ := encodeWALPageMap_ok false commit hps (by decide : 1 ≠ 0) hcheck
  obtain ⟨payload2, hpayload2⟩ := encodeWALPageMap_ok true commit hps (by decide : 1 ≠ 0) hcheck
  have hround := decodeWALPageMap_encodeWALPageMap (by decide)
    (by rw [hlen]; exact commit.toNat_lt)
    (show Fits false pageSize (uniformPages commit data).length by rw [hlen]; exact hv1) hpayload1
  have hlen1 : payload1.length < 2 ^ 64 := by
    omega
  have hlen2 : payload2.length < 2 ^ 64 := by
    have := length_encodeV2_le hpayload2
    rw [hlen] at this
    omega
  have hone := @decodedChain_single 1 1 payload1 _ hlen1 hround.1
  obtain ⟨hmat, hpages⟩ := @materializable_uniform pageSize commit data hcommit hwrap
  have hc : chainCommit [⟨pageSize, commit, 1, uniformPages commit data⟩] [] = commit := by
    simp [chainCommit, firstNonzero, lastNonzero, hcommit]
  have hsize : chainPageSize [⟨pageSize, commit, 1, uniformPages commit data⟩] = pageSize := by
    simp [chainPageSize, firstNonzero, hps]
  have hmerge : mergeChain ([encode (compactHeader 1 1) payload1] ++ []) =
      .ok ⟨pageSize, commit, 1, 1, uniformPages commit data⟩ := by
    rw [hone.mergeChain.2 ⟨hmat, rfl⟩, hc, hsize, hpages]
    rfl
  refine ⟨_, _, encode (partHeader (compactHeader 1 1) 0 1) payload2,
    ⟨?_, hmerge, .nil⟩, ?_, hmerge, ?_⟩
  · simp only [List.mem_singleton, forall_eq]
    exact ⟨_, _, decode_encode _ _ hlen1, rfl, rfl, rfl⟩
  · rw [compact, hmerge, ok_bind]
    have hb : partBudget budget = budget := if_neg (by omega)
    rw [hb]
    exact encodeSnapshotParts_uniform rfl hps hcommit hwrap hdata hbudget hper hpayload2
  · intro r
    have hbad := decode_of_too_many (by rw [hlen]; exact commit.toNat_lt) (by rw [hlen]; exact hmany)
      hpayload2
    exact mergeChain_single_ne_ok hlen2 hbad r

end Unreadable

/-- 178956971 pages of 512 bytes and a budget of 2^37 bytes: the folded snapshot cannot be
read, the chain it was folded from can. -/
theorem compact_unreadable_512 :
    ∃ (snapshot : Merged) (segment part : Bytes),
      ValidChain 1 1 snapshot [segment] ([] ++ []) ∧
      compact true ([segment] ++ []) (2 ^ 37) = .ok [part] ∧
      mergeChain ([segment] ++ ([] ++ [])) = .ok snapshot ∧
      ∀ r, mergeChain ([part] ++ []) ≠ .ok r :=
  @compact_unreadable 512 178956971 (List.replicate 512 0) (2 ^ 37) (by decide) (by decide)
    (by decide) (by rw [List.length_replicate]; rfl) (by decide) (by decide) (by decide) (by decide)
    (by decide)

end CellHive.Restore
