import CellHive.CellCapture.Resume
import CellHive.DoSupervisor.Segments
import CellHive.Restore.FoldLimits
import CellHive.SqlCapture.Release

/-!
# Replaying a captured log

The deltas that a capture cuts from a log, merged on top of a snapshot, give the database that
the log itself gives when its frames are applied one by one. A delta keeps only the newest
version of a page and only the last page count; that is enough because a transaction writes
every page it adds.
-/

namespace CellHive.SqlCapture

open Go Ltx Wal Sqlite Overlay Restore

/-! ## Frame by frame -/

/-- Writes the page of a frame; a commit frame then truncates the database to its size. -/
def applyFrame (a : Image) (f : Frame) : Image :=
  let page := fun p => if p = f.pageNo then some f.data else a.page p
  if f.dbSize = 0 then ⟨a.count, page⟩
  else ⟨f.dbSize, fun p => if p ≤ f.dbSize then page p else none⟩

def replay (a : Image) (frames : List Frame) : Image := frames.foldl applyFrame a

section Replay

variable {pageSize : UInt32} {a b : Image}

theorem layer_or (f : Frame) (x : Option Bytes) (p : UInt32) :
    (if p = f.pageNo then some f.data else x) = (layer f p).or x := by
  unfold layer
  split
  · rfl
  · rfl

theorem replay_body {frames : List Frame} (h : ∀ f ∈ frames, f.dbSize = 0) (a : Image) :
    replay a frames = ⟨a.count, fun p => (framePage frames p).or (a.page p)⟩ := by
  induction frames generalizing a with
  | nil => rfl
  | cons f frames ih =>
    have hstep : replay a (f :: frames) = replay (applyFrame a f) frames := rfl
    rw [hstep, ih (fun g hg => h g (List.mem_cons_of_mem _ hg)), applyFrame,
      if_pos (h f List.mem_cons_self)]
    congr 1
    funext p
    unfold framePage
    rw [List.map_cons, overlay_cons, Option.or_assoc]
    dsimp only
    rw [layer_or]

theorem replay_commit (c : Commit pageSize) (a : Image) :
    replay a c.frames = ⟨c.last.dbSize, fun p =>
      if p ≤ c.last.dbSize then (framePage c.frames p).or (a.page p) else none⟩ := by
  have hsplit : replay a c.frames = applyFrame (replay a c.body) c.last := by
    unfold replay Commit.frames
    rw [List.foldl_append]
    rfl
  rw [hsplit, replay_body c.body_open, applyFrame, if_neg c.last_commits]
  congr 1
  funext p
  dsimp only
  split
  · unfold Commit.frames
    rw [framePage_append, Option.or_assoc]
    have hone : framePage [c.last] p = layer c.last p := overlay_singleton _ _
    rw [hone, layer_or]
  · rfl

/-- Each transaction writes the pages it adds to the database behind the ones before it. -/
def FillsAll : UInt32 → List (Commit pageSize) → Prop
  | _, [] => True
  | n, c :: commits => Fills n c ∧ FillsAll c.last.dbSize commits

theorem put_cons (c : Commit pageSize) (commits : List (Commit pageSize)) :
    a.put (c :: commits) = (a.put [c]).put commits :=
  (put_append : a.put ([c] ++ commits) = (a.put [c]).put commits)

/-- Keeping the newest version of every page is as good as applying frame by frame. -/
theorem same_replay {commits : List (Commit pageSize)} (h : Image.Same a b)
    (hfills : FillsAll a.count commits) :
    Image.Same (a.put commits) (replay b (commitFrames commits)) := by
  induction commits generalizing a b with
  | nil => exact h
  | cons c commits ih =>
    obtain ⟨hc, hrest⟩ := hfills
    have hone : Image.Same (a.put [c]) (replay b c.frames) := by
      rw [put_singleton, replay_commit]
      refine ⟨rfl, fun p h1 h2 => ?_⟩
      dsimp only at h2 ⊢
      rw [if_pos h2]
      cases hf : framePage c.frames p with
      | some data => rfl
      | none => rw [Option.none_or, Option.none_or, h.page p h1 (hc.le h2 hf)]
    have hsplit : replay b (commitFrames (c :: commits)) =
        replay (replay b c.frames) (commitFrames commits) := by
      exact List.foldl_append
    rw [put_cons, hsplit]
    exact ih hone hrest

theorem whole_put {commits : List (Commit pageSize)} (h : a.Whole)
    (hfills : FillsAll a.count commits) : (a.put commits).Whole := by
  induction commits generalizing a with
  | nil => exact h
  | cons c commits ih =>
    rw [put_cons]
    exact ih (h.put hfills.1) hfills.2

end Replay

/-! ## The deltas of chunks -/

/-- The transactions of a chunk, as the segment writer takes them. -/
def walChunk {pageSize : UInt32} (chunk : List (Commit pageSize)) : List WALTransaction :=
  (chunk.map Commit.transaction).map walTransaction

/-- What a chunk has to be for its delta: some transactions, but no more than a poll puts into
one, no page 0, and no more pages than the payload format can tell. -/
structure Deliverable {pageSize : UInt32} (compress : Bool) (chunk : List (Commit pageSize)) :
    Prop where
  ne : chunk ≠ []
  few : chunk.length ≤ maxCaptureTransactions
  pages : ∀ f ∈ commitFrames chunk, f.pageNo ≠ 0
  fits : ∀ commit pages, pageMapFromTransactions pageSize (walChunk chunk) = .ok (commit, pages) →
    Fits compress pageSize pages.length

section Deltas

variable {pageSize : UInt32} {c : Capture} {chunk : List (Commit pageSize)}

theorem length_lt_of_distinct {pages : List WALPage} (h : Distinct pages)
    (hpos : ∀ q ∈ pages, q.pageNo ≠ 0) : pages.length < 2 ^ 32 := by
  have hzero : (0 : UInt32) ∉ pages.map (·.pageNo) := fun hin =>
    let ⟨q, hq, hno⟩ := List.mem_map.1 hin
    hpos q hq hno
  have hnodup := (List.nodup_cons.2 ⟨hzero, h⟩).map (f := UInt32.toFin) fun _ _ => UInt32.toFin_inj.1
  have hle := hnodup.length_le_card
  rw [Fintype.card_fin, List.length_map, List.length_cons, List.length_map] at hle
  exact hle

theorem framePage_isSome {frames : List Frame} {p : UInt32} :
    (framePage frames p).isSome ↔ ∃ f ∈ frames, f.pageNo = p := by
  induction frames with
  | nil =>
    constructor
    · exact fun hnone => nomatch hnone
    · exact fun ⟨_, hf, _⟩ => absurd hf List.not_mem_nil
  | cons f frames ih =>
    have hcons : framePage (f :: frames) p = (framePage frames p).or (layer f p) := by
      unfold framePage
      rw [List.map_cons, overlay_cons]
    rw [hcons, Option.isSome_or, Bool.or_eq_true, ih, List.exists_mem_cons_iff, or_comm]
    unfold layer
    constructor
    · rintro (hone | hrest)
      · split at hone
        next heq => exact .inl heq.symm
        · cases hone
      · exact .inr hrest
    · rintro (hone | hrest)
      · rw [if_pos hone.symm]
        exact .inl rfl
      · exact .inr hrest

theorem pageNo_of_pageMap {commit : UInt32} {pages : List WALPage}
    (h : pageMapFromTransactions pageSize (walChunk chunk) = .ok (commit, pages)) {q : WALPage}
    (hq : q ∈ pages) : ∃ f ∈ commitFrames chunk, f.pageNo = q.pageNo := by
  have hdistinct := distinct_pageMapFromTransactions h
  have hlookup := (pageMapFromTransactions_eq_ok h).2.1 q.pageNo
  unfold walChunk at hlookup
  rw [DoSupervisor.flatMap_walTransaction, DoSupervisor.overlay_commitFrames,
    (lookupPage_eq_some hdistinct).2 hq] at hlookup
  apply framePage_isSome.1
  rw [← hlookup]
  rfl

theorem deltaSegment_deliverable (hsize : pageSize ≠ 0) (h : Deliverable c.compress chunk) :
    ∃ segment hd payload m, deltaSegment c pageSize (walChunk chunk) =
        .ok (segment, c.nextTxID + UInt64.ofNat chunk.length) ∧
      decode segment = .ok (hd, payload) ∧ hd.kind = kindDelta ∧ hd.startTxID = c.nextTxID + 1 ∧
      hd.endTxID = c.nextTxID + UInt64.ofNat chunk.length ∧ decodeWALPageMap payload = .ok m ∧
      m.commit = countAfter 0 chunk ∧ ∀ p, m.page? p = framePage (commitFrames chunk) p := by
  have hne : walChunk chunk ≠ [] := by
    intro hnil
    exact h.ne (by simpa [walChunk] using hnil)
  have hlength : (walChunk chunk).length = chunk.length := by
    rw [walChunk, List.length_map, List.length_map]
  obtain ⟨commit, pages, payload, hmap, hpayload⟩ :=
    exists_encodeWALPageMap c.compress hsize hne (DoSupervisor.walTransactions_ok chunk)
  obtain ⟨hcommit, hpages, -⟩ := pageMapFromTransactions_eq_ok hmap
  rw [walChunk, DoSupervisor.flatMap_walTransaction] at hcommit hpages
  have hfew : pages.length < 2 ^ 32 := by
    apply length_lt_of_distinct (distinct_pageMapFromTransactions hmap)
    intro q hq
    obtain ⟨f, hf, hno⟩ := pageNo_of_pageMap hmap hq
    rw [← hno]
    exact h.pages f hf
  have htxs : (walChunk chunk).length < 2 ^ 32 := by
    rw [hlength]
    exact Nat.lt_of_le_of_lt h.few (by decide)
  obtain ⟨hdec, hbytes⟩ :=
    decodeWALPageMap_encodeWALPageMap htxs hfew (h.fits commit pages hmap) hpayload
  refine ⟨encode ⟨version, kindDelta, 0, c.epoch, c.nextTxID + 1,
    c.nextTxID + UInt64.ofNat chunk.length, 0, 0⟩ payload, _, payload, _, ?_,
    decode_encode _ _ (by omega), rfl, rfl, rfl, hdec, ?_, fun p => ?_⟩
  · unfold deltaSegment
    rw [hmap]
    dsimp only
    rw [hpayload]
    rw [hlength]
  · rw [← DoSupervisor.commitOf_commitFrames]
    exact hcommit
  · rw [← DoSupervisor.overlay_commitFrames]
    exact hpages p

/-- What the deltas of the chunks are to a restore that has come to the capture's position. -/
structure Delivers (c : Capture) (commits : List (Commit pageSize)) (segments : List Bytes) :
    Prop where
  decoded : ∃ (dd : List (Ltx.Header × Bytes)) (maps : List PageMap),
    List.Forall₂ (fun raw d => decode raw = .ok d) segments dd ∧
    Contiguous c.nextTxID (dd.map (·.1)) ∧
    List.Forall₂ (fun d m => decodeWALPageMap d.2 = .ok m) dd maps ∧
    (∀ n, lastNonzero n (maps.map (·.commit)) = countAfter n commits) ∧
    ∀ p, overlay (layers maps) p = framePage (commitFrames commits) p

theorem Delivers.cons {commits : List (Commit pageSize)} {segment : Bytes} {segments : List Bytes}
    {hd : Ltx.Header} {payload : Bytes} {m : PageMap} (hne : chunk ≠ [])
    (htxids : c.nextTxID.toNat + chunk.length < 2 ^ 64)
    (hdec : decode segment = .ok (hd, payload)) (hkind : hd.kind = kindDelta)
    (hstart : hd.startTxID = c.nextTxID + 1)
    (hend : hd.endTxID = c.nextTxID + UInt64.ofNat chunk.length)
    (hmap : decodeWALPageMap payload = .ok m) (hcommit : m.commit = countAfter 0 chunk)
    (hpage : ∀ p, m.page? p = framePage (commitFrames chunk) p)
    (h : Delivers { c with nextTxID := c.nextTxID + UInt64.ofNat chunk.length } commits segments) :
    Delivers c (chunk ++ commits) (segment :: segments) := by
  obtain ⟨dd, maps, hdd, hcont, hmaps, hcommits, hpages⟩ := h.decoded
  have hpos : 0 < chunk.length := List.length_pos_iff.2 hne
  have hend_toNat : hd.endTxID.toNat = c.nextTxID.toNat + chunk.length := by
    rw [hend, DoSupervisor.toNat_add_ofNat htxids]
  have hstart_toNat : hd.startTxID.toNat = c.nextTxID.toNat + 1 := by
    rw [hstart]
    exact DoSupervisor.toNat_add_ofNat (n := 1) (by omega)
  have hpositive : 0 < m.commit := hcommit ▸ DoSupervisor.countAfter_pos hne 0
  refine ⟨(hd, payload) :: dd, m :: maps, .cons hdec hdd, ?_, .cons hmap hmaps, fun n => ?_,
    fun p => ?_⟩
  · refine ⟨hkind, hstart_toNat, ?_, hend ▸ hcont⟩
    rw [UInt64.le_iff_toNat_le]
    dsimp only
    omega
  · have hstep : lastNonzero n ((m :: maps).map (·.commit)) =
        lastNonzero (if 0 < m.commit then m.commit else n) (maps.map (·.commit)) := rfl
    have hsplit : countAfter n (chunk ++ commits) = countAfter (countAfter n chunk) commits :=
      List.foldl_append
    rw [hstep, if_pos hpositive, hcommits, hsplit, hcommit, DoSupervisor.countAfter_eq hne 0 n]
  · rw [layers_cons, overlay_cons, hpages, hpage, commitFrames_append, framePage_append]

theorem emitChunks_delivers (hsize : pageSize ≠ 0) {chunks : List (List (Commit pageSize))}
    (hall : ∀ chunk ∈ chunks, Deliverable c.compress chunk)
    (htxids : c.nextTxID.toNat + chunks.flatten.length < 2 ^ 64) (k : Nat) :
    ∃ segments, (emitChunks pageSize (fun _ => none) k c (chunks.map walChunk)).1 =
        segments.map .delta ∧
      (emitChunks pageSize (fun _ => none) k c (chunks.map walChunk)).2.2 = none ∧
      Delivers c chunks.flatten segments := by
  induction chunks generalizing c k with
  | nil => exact ⟨[], rfl, rfl, [], [], .nil, trivial, .nil, fun _ => rfl, fun _ => rfl⟩
  | cons chunk chunks ih =>
    have hchunk := hall chunk List.mem_cons_self
    obtain ⟨segment, hd, payload, m, hseg, hdec, hkind, hstart, hend, hmap, hcommit, hpage⟩ :=
      deltaSegment_deliverable hsize hchunk
    rw [List.flatten_cons, List.length_append] at htxids
    have hnext : (c.nextTxID + UInt64.ofNat chunk.length).toNat =
        c.nextTxID.toNat + chunk.length := DoSupervisor.toNat_add_ofNat (by omega)
    obtain ⟨segments, hemitted, herr, hdelivers⟩ :=
      @ih { c with nextTxID := c.nextTxID + UInt64.ofNat chunk.length }
        (fun chunk hin => hall chunk (List.mem_cons_of_mem _ hin)) (by rw [hnext]; omega) (k + 1)
    refine ⟨segment :: segments, ?_, ?_, ?_⟩
    · rw [List.map_cons, emitChunks, hseg]
      dsimp only
      rw [hemitted, List.map_cons]
    · rw [List.map_cons, emitChunks, hseg]
      exact herr
    · exact hdelivers.cons hchunk.ne (by omega) hdec hkind hstart hend hmap hcommit hpage

end Deltas

/-! ## The restored database -/

def imageOf (r : Merged) : Image := ⟨r.commit, lookupPage r.pages⟩

theorem distinct_imagePages (f : UInt32 → Option Bytes) (n : UInt32) :
    Distinct (imagePages f n) := by
  have hnos : (imagePages f n).map (·.pageNo) = pageRange n := by
    unfold imagePages
    rw [List.map_map]
    exact List.map_id _
  unfold Distinct
  rw [hnos]
  exact nodup_pageRange n

theorem same_imagePages {f : UInt32 → Option Bytes} {n : UInt32} {size : UInt32} {epoch wm : UInt64}
    (h : ∀ p, 1 ≤ p → p ≤ n → (f p).isSome) :
    Image.Same ⟨n, f⟩ (imageOf ⟨size, n, epoch, wm, imagePages f n⟩) := by
  refine ⟨rfl, fun p h1 h2 => ?_⟩
  obtain ⟨data, hdata⟩ := Option.isSome_iff_exists.1 (h p h1 h2)
  have hin : (⟨p, data⟩ : WALPage) ∈ imagePages f n := by
    refine List.mem_map.2 ⟨p, mem_pageRange.2 ⟨h1, h2⟩, ?_⟩
    rw [hdata]
    rfl
  exact hdata.trans ((lookupPage_eq_some (distinct_imagePages f n)).2 hin).symm

/-! ### More pages than a delta can list -/

theorem mergeChain_reads_delta {epoch base : UInt64} {snap delta payload : Bytes}
    {ds : List (Ltx.Header × Bytes)} {hd : Ltx.Header} {r : Merged} (hne : ds ≠ [])
    (hds : Decoded [snap] ds) (hat : SnapshotAt epoch base (ds.map (·.1)))
    (hdec : decode delta = .ok (hd, payload)) (hcont : Contiguous base [hd])
    (h : mergeChain ([snap] ++ [delta]) = .ok r) :
    ∃ m, decodeWALPageMap payload = .ok m := by
  obtain ⟨decoded, sel, snaps, deltas, hdecoded, hsel, hmaps, -, -⟩ := mergeChain_eq_ok_iff.1 h
  have hboth : decodeSegments 0 ([snap] ++ [delta]) = .ok (ds ++ [(hd, payload)]) :=
    decodeSegments_eq_ok.2 (List.rel_append hds (.cons hdec .nil))
  rw [hboth, Except.ok.injEq] at hdecoded
  subst hdecoded
  have hshape := @selectChain_of_shape epoch base (ds.map (·.1)) [hd] hat hcont (by simpa using hne)
  rw [List.length_map] at hshape
  rw [List.map_append] at hsel
  obtain ⟨-, rfl⟩ := hshape.1 hsel
  obtain ⟨-, hdeltas⟩ := chosenMaps_of_shape.1 hmaps
  cases hdeltas with
  | cons hone _ => exact ⟨_, hone⟩

theorem length_pageMap_ge {pageSize commit n : UInt32} {chunk : List (Commit pageSize)}
    {pages : List WALPage}
    (h : pageMapFromTransactions pageSize (walChunk chunk) = .ok (commit, pages))
    (hframes : ∀ p, 1 ≤ p → p ≤ n → ∃ f ∈ commitFrames chunk, f.pageNo = p) :
    n.toNat ≤ pages.length := by
  have hsub : pageRange n ⊆ pages.map (·.pageNo) := by
    intro p hp
    obtain ⟨h1, h2⟩ := mem_pageRange.1 hp
    have hlookup := (pageMapFromTransactions_eq_ok h).2.1 p
    unfold walChunk at hlookup
    rw [DoSupervisor.flatMap_walTransaction, DoSupervisor.overlay_commitFrames] at hlookup
    obtain ⟨data, hdata⟩ := Option.isSome_iff_exists.1 (framePage_isSome.2 (hframes p h1 h2))
    rw [hdata] at hlookup
    have hin := (lookupPage_eq_some (distinct_pageMapFromTransactions h)).1 hlookup
    exact List.mem_map.2 ⟨_, hin, rfl⟩
  have hle := (List.subperm_of_subset (nodup_pageRange n) hsub).length_le
  rw [List.length_map, pageRange, List.length_map, List.length_range] at hle
  exact hle

/-- A transaction that writes the pages 1 to `n + 1` of a database it leaves with as many. -/
def bulk (pageSize : UInt32) (n : Nat) (h : UInt32.ofNat (n + 1) ≠ 0) : Commit pageSize where
  body := (List.range n).map fun i => ⟨UInt32.ofNat (i + 1), 0, List.replicate pageSize.toNat 0⟩
  last := ⟨UInt32.ofNat (n + 1), UInt32.ofNat (n + 1), List.replicate pageSize.toNat 0⟩
  body_open := fun f hf => by
    obtain ⟨i, -, rfl⟩ := List.mem_map.1 hf
    rfl
  last_commits := h
  sized := fun f hf => by
    rcases List.mem_append.1 hf with hin | hin
    · obtain ⟨i, -, rfl⟩ := List.mem_map.1 hin
      exact List.length_replicate
    · rw [List.mem_singleton.1 hin]
      exact List.length_replicate

theorem bulk_frames {pageSize : UInt32} {n : Nat} {h : UInt32.ofNat (n + 1) ≠ 0}
    (hn : n + 1 < 2 ^ 32) {p : UInt32} (h1 : 1 ≤ p) (h2 : p ≤ UInt32.ofNat (n + 1)) :
    ∃ f ∈ (bulk pageSize n h).frames, f.pageNo = p := by
  rw [UInt32.le_iff_toNat_le] at h1 h2
  rw [UInt32.toNat_ofNat'] at h2
  have h1' : 1 ≤ p.toNat := h1
  by_cases hlast : p.toNat = n + 1
  · refine ⟨_, List.mem_append_right _ List.mem_cons_self, ?_⟩
    apply UInt32.toNat_inj.1
    change (UInt32.ofNat (n + 1)).toNat = p.toNat
    rw [UInt32.toNat_ofNat', Nat.mod_eq_of_lt hn, hlast]
  · refine ⟨_, List.mem_append_left _ (List.mem_map.2 ⟨p.toNat - 1, ?_, rfl⟩), ?_⟩
    · rw [List.mem_range]
      omega
    · apply UInt32.toNat_inj.1
      rw [Nat.sub_add_cancel h1', UInt32.toNat_ofNat', Nat.mod_eq_of_lt (by omega)]

theorem bulk_pageNo {pageSize : UInt32} {n : Nat} {h : UInt32.ofNat (n + 1) ≠ 0}
    (hn : n + 1 < 2 ^ 32) : ∀ f ∈ (bulk pageSize n h).frames, f.pageNo ≠ 0 := by
  intro f hf
  rcases List.mem_append.1 hf with hin | hin
  · obtain ⟨i, hi, rfl⟩ := List.mem_map.1 hin
    rw [List.mem_range] at hi
    intro hzero
    have hnat := congrArg UInt32.toNat hzero
    rw [UInt32.toNat_ofNat', Nat.mod_eq_of_lt (by omega)] at hnat
    exact Nat.succ_ne_zero i hnat
  · rw [List.mem_singleton.1 hin]
    exact h

def zeroPayload : Bytes :=
  [87, 65, 76, 50, 0, 0, 2, 0, 0, 0, 0, 1, 0, 0, 0, 1, 0, 0, 0, 1, 0, 0, 0, 1] ++
    List.replicate 512 0

def zeroSnapshot : Bytes := encode (compactHeader 1 1) zeroPayload

theorem decode_zeroSnapshot :
    decode zeroSnapshot = .ok (sealHeader (compactHeader 1 1) zeroPayload, zeroPayload) := by
  apply decode_encode
  rw [zeroPayload, List.length_append, List.length_replicate]
  decide

theorem mergeChain_bulk {n : Nat} {h : UInt32.ofNat (n + 1) ≠ 0} (hn : n + 1 < 2 ^ 32)
    (hmany : 2 ^ 31 / pageMapV2IndexStride < n + 1) :
    ∃ delta, (emitChunks 512 (fun _ => none) 0 ⟨.empty, 1, 1, [], true⟩
        (cutChunks 512 1 [] (walChunk [bulk 512 n h]))).1 = [.delta delta] ∧
      ∀ r, mergeChain ([zeroSnapshot] ++ [delta]) ≠ .ok r := by
  obtain ⟨commit, pages, payload, hmap, hpayload⟩ :=
    exists_encodeWALPageMap true (by decide) (List.cons_ne_nil _ _)
      (DoSupervisor.walTransactions_ok [bulk 512 n h])
  have hframes : ∀ p, 1 ≤ p → p ≤ UInt32.ofNat (n + 1) →
      ∃ f ∈ commitFrames [bulk 512 n h], f.pageNo = p := by
    intro p h1 h2
    obtain ⟨f, hf, hno⟩ := @bulk_frames 512 n h hn p h1 h2
    exact ⟨f, List.mem_append_left _ hf, hno⟩
  have hmap' : pageMapFromTransactions 512 (walChunk [bulk 512 n h]) = .ok (commit, pages) := hmap
  have hge := length_pageMap_ge hmap' hframes
  rw [UInt32.toNat_ofNat'] at hge
  have hlt : pages.length < 2 ^ 32 := by
    apply length_lt_of_distinct (distinct_pageMapFromTransactions hmap)
    intro q hq
    obtain ⟨f, hf, hno⟩ := pageNo_of_pageMap hmap' hq
    rw [commitFrames_cons, commitFrames, List.flatMap_nil, List.append_nil] at hf
    rw [← hno]
    exact bulk_pageNo hn f hf
  have hbad := decode_of_too_many hlt (by omega) hpayload
  have hlen : payload.length < 2 ^ 64 := by
    have hle := length_encodeV2_le hpayload
    simp only [pageMapV2HeaderSize, pageMapV2IndexStride, show (512 : UInt32).toNat = 512 from rfl]
      at hle
    omega
  refine ⟨encode ⟨version, kindDelta, 0, 1, 1 + 1, 1 + UInt64.ofNat 1, 0, 0⟩ payload, ?_, ?_⟩
  · have hone : cutChunks 512 1 [] (walChunk [bulk 512 n h]) = [walChunk [bulk 512 n h]] := by
      simp [cutChunks, walChunk, chunkTransactions, Chunker.add, Chunker.full, Chunker.flush]
    rw [hone, emitChunks, deltaSegment]
    have hpayload' : encodeWALPageMap true 512 commit (walChunk [bulk 512 n h]).length pages =
      .ok payload := hpayload
    rw [hmap']
    dsimp only
    rw [hpayload']
    rfl
  · intro r hr
    have hdec : decode (encode ⟨version, kindDelta, 0, 1, 1 + 1, 1 + UInt64.ofNat 1, 0, 0⟩ payload) =
      _ := decode_encode _ _ hlen
    have hat : SnapshotAt 1 1 [sealHeader (compactHeader 1 1) zeroPayload] := by
      intro x hx
      rw [List.mem_singleton.1 hx]
      exact ⟨rfl, rfl, rfl⟩
    obtain ⟨m, hm⟩ := mergeChain_reads_delta (List.cons_ne_nil _ _)
      (.cons decode_zeroSnapshot .nil) hat hdec ⟨rfl, rfl, UInt64.le_refl _, trivial⟩ hr
    rw [hbad] at hm
    cases hm

set_option maxRecDepth 100000 in
/-- 178956971 pages of 512 bytes, written by one transaction: the delta is handed out, and no
restore reads it. -/
theorem bulk_unreadable : ∃ (delta : Bytes) (snapshot : Merged) (tx : Commit 512),
    SnapshotSegment 1 1 zeroSnapshot ∧ mergeChain [zeroSnapshot] = .ok snapshot ∧
      snapshot.pageSize = 512 ∧ FillsAll snapshot.commit [tx] ∧
      (∀ f ∈ tx.frames, f.pageNo ≠ 0) ∧ wraps tx.last.dbSize = false ∧
      (emitChunks 512 (fun _ => none) 0 ⟨.empty, 1, 1, [], true⟩
        (cutChunks 512 1 [] (walChunk [tx]))).1 = [.delta delta] ∧
      ∀ r, mergeChain ([zeroSnapshot] ++ [delta]) ≠ .ok r := by
  have hbase : mergeChain [zeroSnapshot] = .ok ⟨512, 1, 1, 1, [⟨1, List.replicate 512 0⟩]⟩ := by
    decide +kernel
  have hbig : UInt32.ofNat (178956970 + 1) ≠ 0 := by decide
  obtain ⟨delta, hdelta, hbad⟩ := @mergeChain_bulk 178956970 hbig (by decide) (by decide)
  refine ⟨delta, _, bulk 512 178956970 hbig, ?_, hbase, rfl, ⟨fun p h1 h2 => ?_, trivial⟩,
    bulk_pageNo (by decide), ?_, hdelta, hbad⟩
  · exact ⟨_, _, decode_zeroSnapshot, rfl, rfl, rfl⟩
  · apply framePage_isSome.2
    exact bulk_frames (by decide) (UInt32.le_of_lt h1) h2
  · change wraps (UInt32.ofNat (178956970 + 1)) = false
    decide

/-- The deltas of a captured log, merged on top of the snapshot at which the capture started,
give what the log's frames give one by one, however the log is cut into chunks. -/
theorem deltas_replay_log {c : Capture} {snaps : List Bytes} {snapshot : Merged}
    {chunks : List (List (Commit snapshot.pageSize))}
    (hsnaps : ∀ s ∈ snaps, SnapshotSegment c.epoch c.nextTxID s)
    (hbase : mergeChain snaps = .ok snapshot)
    (hchunks : ∀ chunk ∈ chunks, Deliverable c.compress chunk)
    (hfills : FillsAll snapshot.commit chunks.flatten)
    (htxids : c.nextTxID.toNat + chunks.flatten.length < 2 ^ 64)
    (hcount : wraps (countAfter snapshot.commit chunks.flatten) = false) :
    ∃ deltas r, (emitChunks snapshot.pageSize (fun _ => none) 0 c (chunks.map walChunk)).1 =
        deltas.map .delta ∧
      mergeChain (snaps ++ deltas) = .ok r ∧
      Image.Same (imageOf r) (replay (imageOf snapshot) (commitFrames chunks.flatten)) := by
  have hvalid : ValidChain c.epoch c.nextTxID snapshot snaps ([] ++ []) := ⟨hsnaps, hbase, .nil⟩
  obtain ⟨ds, da, db, S, A, B, hdecoded, -, -, -, -, -⟩ := hvalid.decoded
  have hnil : da = [] := List.forall₂_nil_left_iff.1 hdecoded.deltaSegs
  subst hnil
  have hnil : A = [] := List.forall₂_nil_left_iff.1 hdecoded.deltas
  subst hnil
  obtain ⟨hmat, hsnapshot⟩ := hdecoded.mergeChain.1 (by rw [List.append_nil]; exact hbase)
  subst hsnapshot
  have hsize : chainPageSize S ≠ 0 := chainPageSize_ne hdecoded.snaps_ne
    (ordered_of_forall₂ hdecoded.snaps)
  obtain ⟨deltas, hemitted, -, hdelivers⟩ := emitChunks_delivers hsize hchunks htxids 0
  obtain ⟨dd, maps, hdd, hcont, hmaps, hcommits, hpages⟩ := hdelivers.decoded
  have hchain : DecodedChain c.epoch c.nextTxID snaps deltas ds dd S maps :=
    ⟨hdecoded.ne, hdecoded.snapSegs, hdd, hdecoded.at_base, hcont, hdecoded.complete,
      hdecoded.snaps, hmaps⟩
  -- the chain is the base with all transactions put on it
  have hbaseWhole : (⟨chainCommit S [], chainImage S []⟩ : Image).Whole := hmat.complete
  have hcommit : chainCommit S maps = countAfter (chainCommit S []) chunks.flatten := hcommits _
  have himage : ∀ p, chainImage S maps p =
      (framePage (commitFrames chunks.flatten) p).or (chainImage S [] p) := by
    intro p
    have hone : chainImage S [] = overlay (layers S) := by
      unfold chainImage
      rw [List.append_nil]
    rw [hone, chainImage, layers_append, overlay_append, hpages]
  have hput : (⟨chainCommit S maps, chainImage S maps⟩ : Image) =
      (⟨chainCommit S [], chainImage S []⟩ : Image).put chunks.flatten := by
    rw [hcommit, funext himage]
    rfl
  have hwhole := whole_put hbaseWhole hfills
  rw [← hput] at hwhole
  have hmat' : Materializable S maps := by
    refine ⟨hmat.agree, ?_, ?_, hwhole⟩
    · rw [hcommit]
      exact DoSupervisor.countAfter_ne_zero hmat.commit_ne
    · rw [hcommit]
      exact hcount
  refine ⟨deltas, _, hemitted, hchain.mergeChain.2 ⟨hmat', rfl⟩, ?_⟩
  refine (same_imagePages hmat'.complete).symm.trans ?_
  rw [hput]
  exact same_replay (same_imagePages hmat.complete) hfills

/-- A one-page transaction that shrinks a database of two pages. -/
def shrink : Commit 1 := .single [9] rfl

/-- The shrink, captured on top of a snapshot of two pages. -/
theorem deltas_replay_shrink : ∃ deltas r,
    (emitChunks 1 (fun _ => none) 0 ⟨.empty, 1, 1, [], false⟩ [walChunk [shrink]]).1 =
        deltas.map .delta ∧
      mergeChain ([twoPageSnapshot] ++ deltas) = .ok r ∧
      Image.Same (imageOf r)
        (replay (imageOf ⟨1, 2, 1, 1, [⟨1, [7]⟩, ⟨2, [8]⟩]⟩) [⟨1, 1, [9]⟩]) := by
  refine @deltas_replay_log ⟨.empty, 1, 1, [], false⟩ [twoPageSnapshot]
    ⟨1, 2, 1, 1, [⟨1, [7]⟩, ⟨2, [8]⟩]⟩ [[shrink]] ?_ (by decide +kernel) ?_ ?_ (by decide) (by decide)
  · intro s hs
    rw [List.mem_singleton.1 hs]
    exact ⟨_, _, decode_encode _ _ (by decide), rfl, rfl, rfl⟩
  · intro chunk hchunk
    rw [List.mem_singleton.1 hchunk]
    refine ⟨by simp, by decide, fun f hf => ?_, fun commit pages hmap => ?_⟩
    · have hone : f ∈ [(⟨1, 1, [9]⟩ : Frame)] := hf
      rw [List.mem_singleton.1 hone]
      decide
    · have hle : pages.length ≤ 1 := (pageMapFromTransactions_eq_ok hmap).2.2
      have hfits : 20 + pages.length * (4 + 1) < 2 ^ 63 := by omega
      exact hfits
  · refine ⟨fun p h1 h2 => ?_, trivial⟩
    rw [UInt32.le_iff_toNat_le] at h2
    exact absurd (lt_of_lt_of_le h1 h2) (by decide)

end CellHive.SqlCapture
