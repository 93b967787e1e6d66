import CellHive.DoSupervisor.SyncFile
import CellHive.Ltx.TransactionsSpec
import CellHive.Restore.Newest

/-!
# The segments of the gate

What the segments that `snapshot` and `delta` write mean to a restore: a snapshot of the
main file merges to the file's pages, and a delta puts its transactions on top of a chain.
-/

namespace CellHive.DoSupervisor

open Go Ltx Wal Sqlite Overlay Restore

/-! ## Reading the main file -/

variable {pageSize : UInt32} {m : Main pageSize}

theorem length_flatten_pages {pages : List Bytes} {size : Nat}
    (h : ∀ page ∈ pages, page.length = size) : pages.flatten.length = pages.length * size := by
  induction pages with
  | nil => simp
  | cons page pages ih =>
    rw [List.flatten_cons, List.length_append, h page List.mem_cons_self,
      ih fun q hq => h q (List.mem_cons_of_mem _ hq), List.length_cons, Nat.succ_mul, Nat.add_comm]

theorem slice_flatten {pages : List Bytes} {size i : Nat} {page : Bytes}
    (h : ∀ page ∈ pages, page.length = size) (hi : pages[i]? = some page) :
    slice pages.flatten (i * size) ((i + 1) * size) = page := by
  induction pages generalizing i with
  | nil => cases hi
  | cons q pages ih =>
    have hq := h q List.mem_cons_self
    unfold slice
    rw [List.flatten_cons, Nat.succ_mul, Nat.add_sub_cancel_left]
    cases i with
    | zero =>
      cases hi
      rw [Nat.zero_mul]
      exact List.take_left' hq
    | succ i =>
      have hrest := ih (fun q hq => h q (List.mem_cons_of_mem _ hq)) hi
      unfold slice at hrest
      rw [Nat.succ_mul, Nat.add_sub_cancel_left] at hrest
      rw [Nat.succ_mul, Nat.add_comm (i * size), ← List.drop_drop, List.drop_left' hq]
      exact hrest

theorem toNat_count : m.image.count.toNat = m.pages.length := by
  have hfew := m.few
  unfold Main.image
  rw [UInt32.toNat_ofNat']
  omega

theorem exists_page {p : UInt32} (h1 : 1 ≤ p) (h2 : p ≤ m.image.count) :
    ∃ page, m.pages[p.toNat - 1]? = some page ∧ m.image.page p = some page := by
  have hpos : 1 ≤ p.toNat := UInt32.le_iff_toNat_le.1 h1
  rw [UInt32.le_iff_toNat_le, toNat_count] at h2
  have hp : p ≠ 0 := by
    rintro rfl
    exact absurd hpos (by decide)
  have hpage := List.getElem?_eq_getElem (show p.toNat - 1 < m.pages.length by omega)
  refine ⟨_, hpage, ?_⟩
  unfold Main.image
  dsimp only
  rw [if_neg hp, hpage]

theorem whole_main : m.image.Whole := by
  intro p h1 h2
  obtain ⟨page, -, hpage⟩ := exists_page h1 h2
  rw [hpage]
  rfl

theorem le_of_page {p : UInt32} (h : (m.image.page p).isSome) : p ≤ m.image.count := by
  unfold Main.image at h
  dsimp only at h
  split at h
  · cases h
  rw [UInt32.le_iff_toNat_le, toNat_count]
  obtain ⟨page, hpage⟩ := Option.isSome_iff_exists.1 h
  obtain ⟨hlt, -⟩ := List.getElem?_eq_some_iff.1 hpage
  omega

theorem readDBPages_main {size count : UInt32} {pages : UInt32 → Option Bytes}
    (h : readDBPages m.pages.flatten = .ok (size, count, pages)) :
    size = pageSize ∧ count = m.image.count ∧
      ∀ p, 1 ≤ p → p ≤ m.image.count → pages p = m.image.page p := by
  obtain ⟨-, h⟩ := guard_eq_ok h
  dsimp only at h
  rw [m.header] at h
  split at h
  · cases h
  next hsize =>
    have hpos : 0 < pageSize.toNat := by
      apply Nat.pos_of_ne_zero
      intro h0
      exact hsize (.inl (UInt32.toNat_inj.1 h0))
    have hcount : UInt32.ofNat (m.pages.flatten.length / pageSize.toNat) = m.image.count := by
      rw [length_flatten_pages m.sized, Nat.mul_div_cancel _ hpos]
      rfl
    rw [hcount] at h
    cases h
    refine ⟨rfl, rfl, fun p h1 h2 => ?_⟩
    dsimp only
    rw [if_pos ⟨h1, h2⟩]
    obtain ⟨page, hpage, himage⟩ := exists_page h1 h2
    have hslice := slice_flatten m.sized hpage
    have hpos : 1 ≤ p.toNat := UInt32.le_iff_toNat_le.1 h1
    rw [Nat.sub_add_cancel hpos] at hslice
    rw [himage, hslice]

theorem sortedPages_eq_ok {pages : UInt32 → Option Bytes} {commit : UInt32} {nos : List UInt32}
    {sorted : List WALPage} (h : sortedPages pages commit nos = .ok sorted) :
    sorted = nos.map fun p => ⟨p, (pages p).getD []⟩ := by
  induction nos generalizing sorted with
  | nil =>
    cases h
    rfl
  | cons p nos ih =>
    rw [sortedPages] at h
    split at h
    · cases h
    next data hdata =>
      obtain ⟨rest, hrest, hok⟩ := bind_eq_ok.1 h
      cases hok
      rw [ih hrest, List.map_cons, hdata]
      rfl

theorem snapshotParts_eq_ok {cfg : Config} {seq : UInt64} {why : String} {parts : List Bytes}
    (h : snapshotParts cfg seq m.pages.flatten why = .ok parts) :
    encodeSnapshotParts cfg.compress (compactHeader cfg.epoch seq) pageSize m.image.count
      (imagePages m.image.page m.image.count) defaultSnapshotPartBytes = .ok parts := by
  unfold snapshotParts at h
  split at h
  · cases h
  next size count pages hread =>
    obtain ⟨rfl, rfl, hpages⟩ := readDBPages_main hread
    obtain ⟨sorted, hsorted, henc⟩ := bind_eq_ok.1 h
    have himage : sorted = imagePages m.image.page m.image.count := by
      rw [sortedPages_eq_ok hsorted]
      apply List.map_congr_left
      intro p hp
      obtain ⟨h1, h2⟩ := mem_pageRange.1 hp
      rw [hpages p h1 h2]
    rw [himage] at henc
    exact henc

/-! ## Chains -/

/-- The default part budget keeps every part within the limits of the page-map format. -/
theorem fits_of_default {compress : Bool} {h : Ltx.Header} {pageSize commit : UInt32}
    {pages : List WALPage} {parts : List Bytes}
    (he : encodeSnapshotParts compress h pageSize commit pages defaultSnapshotPartBytes = .ok parts) :
    Fits compress pageSize (partPages pageSize defaultSnapshotPartBytes pages.length) := by
  rcases compress with _ | _
  · exact fitsV1_of_budget he (by decide)
  have hsmall := (encodeSnapshotParts_guards he).2.2.1
  have hpages := partPages_le he
  rw [show defaultSnapshotPartBytes.toNat = 8 * 2 ^ 20 from rfl] at hsmall hpages
  generalize partPages pageSize defaultSnapshotPartBytes pages.length = n at hpages ⊢
  have hn : n * 4 ≤ n * (4 + pageSize.toNat) := Nat.mul_le_mul_left n (by omega)
  have htotal : n * (pageMapV2IndexStride + pageSize.toNat) = n * (4 + pageSize.toNat) + n * 8 := by
    rw [← Nat.mul_add, pageMapV2IndexStride]
    congr 1
    omega
  refine ⟨by omega, ?_, ?_⟩
  · rw [pageMapV2IndexStride]
    omega
  · rw [pageMapV2HeaderSize]
    omega

/-- The segments `segs` are a chain from a snapshot at `base` to transaction `last` that
restores to the image `a`. -/
structure Chain (cfg : Config) (pageSize : UInt32) (segs : List Bytes) (base last : UInt64)
    (a : Image) : Prop where
  chain : ∃ snapSegs deltaSegs ds dd snaps deltas, segs = snapSegs ++ deltaSegs ∧
    DecodedChain cfg.epoch base snapSegs deltaSegs ds dd snaps deltas ∧
    Materializable snaps deltas ∧ chainPageSize snaps = pageSize ∧
    lastTx base (dd.map (·.1)) = last ∧
    Image.Same ⟨chainCommit snaps deltas, chainImage snaps deltas⟩ a
  le : base ≤ last

variable {cfg : Config} {segs old : List Bytes} {base last : UInt64} {a : Image}

theorem imagePages_congr {count : UInt32} {f g : UInt32 → Option Bytes}
    (h : ∀ p, 1 ≤ p → p ≤ count → f p = g p) : imagePages f count = imagePages g count := by
  apply List.map_congr_left
  intro p hp
  obtain ⟨h1, h2⟩ := mem_pageRange.1 hp
  rw [h p h1 h2]

/-- The segments stand below a snapshot at `base`. -/
def AllBelow (base : UInt64) (segs : List Bytes) : Prop :=
  ∀ s ∈ segs, ∃ d, decode s = .ok d ∧ Below base d.1

theorem AllBelow.decoded (h : AllBelow base old) : ∃ os : List (Ltx.Header × Bytes),
    Decoded old os ∧ ∀ h ∈ os.map (·.1), Below base h := by
  induction old with
  | nil => exact ⟨[], .nil, fun _ hh => absurd hh List.not_mem_nil⟩
  | cons s old ih =>
    obtain ⟨d, hdec, hd⟩ := h s List.mem_cons_self
    obtain ⟨os, hos, hall⟩ := ih fun t ht => h t (List.mem_cons_of_mem _ ht)
    refine ⟨d :: os, .cons hdec hos, ?_⟩
    rw [List.map_cons, List.forall_mem_cons]
    exact ⟨hd, hall⟩

theorem Chain.mergeChain (h : Chain cfg pageSize segs base last a) (hold : AllBelow base old) :
    ∃ r, Restore.mergeChain (old ++ segs) = .ok r ∧
      r.view = ⟨pageSize, a.count, last, imagePages a.page a.count⟩ := by
  obtain ⟨snapSegs, deltaSegs, ds, dd, snaps, deltas, rfl, hchain, hmat, rfl, rfl, hsame⟩ := h.chain
  obtain ⟨os, hos, hbelow⟩ := hold.decoded
  obtain ⟨r, hr, hview⟩ := hchain.mergeChain_newest hos hbelow hmat
  refine ⟨r, hr, ?_⟩
  have hcount : chainCommit snaps deltas = a.count := hsame.count
  have hpages := imagePages_congr hsame.page
  rw [hview, hpages, hcount]

variable {seq : UInt64} {why : String} {parts : List Bytes} {commits : List (Commit pageSize)}
  {res : PollResult} {s : Bytes}

theorem chain_snapshot
    (h : snapshotParts cfg seq m.pages.flatten why = .ok parts) :
    Chain cfg pageSize parts seq seq m.image := by
  have henc := snapshotParts_eq_ok h
  obtain ⟨dp, chunks, hne, hflat, hchain⟩ :=
    decodedChain_parts henc (fits_of_default henc) (.nil : Decoded [] []) trivial .nil
  have hcommit : chainCommit (chunks.map (partMap pageSize m.image.count)) [] = m.image.count := by
    rw [chainCommit, firstNonzero_commit_parts hne]
    rfl
  have himage : ∀ p, 1 ≤ p → p ≤ m.image.count →
      chainImage (chunks.map (partMap pageSize m.image.count)) [] p = m.image.page p := by
    intro p h1 h2
    rw [chainImage, List.append_nil, ← first_eq_overlay (partsAgree_parts hflat).pages,
      first_parts hflat p, if_pos ⟨h1, h2⟩]
    obtain ⟨page, -, hpage⟩ := exists_page h1 h2
    rw [hpage]
    rfl
  refine ⟨⟨parts, [], dp, [], _, [], (List.append_nil _).symm, hchain, ?_, chainPageSize_parts hne,
    rfl, ?_⟩, UInt64.le_refl _⟩
  · refine ⟨partsAgree_parts hflat, ?_, ?_, ?_⟩
    · rw [hcommit]
      exact (encodeSnapshotParts_guards henc).2.1
    · rw [hcommit, wraps, toNat_count]
      have hfew := m.few
      exact decide_eq_false (by omega)
    · rw [hcommit]
      intro p h1 h2
      rw [himage p h1 h2]
      exact whole_main p h1 h2
  · refine ⟨hcommit, ?_⟩
    rw [hcommit]
    exact himage

/-! ## Deltas -/

/-- Every page of the database behind the transactions that they do not write was there. -/
def Covers (a : Image) (commits : List (Commit pageSize)) : Prop :=
  ∀ p, p ≤ (a.put commits).count → framePage (commitFrames commits) p = none → p ≤ a.count

theorem flatMap_walTransaction (commits : List (Commit pageSize)) :
    ((commits.map Commit.transaction).map SqlCapture.walTransaction).flatMap (·.frames) =
      (commitFrames commits).map fun f => ⟨f.pageNo, f.dbSize, f.data⟩ := by
  rw [List.map_map, List.flatMap_map, commitFrames, List.map_flatMap]
  rfl

theorem commitOf_commitFrames (n : UInt32) (commits : List (Commit pageSize)) :
    commitOf n ((commitFrames commits).map fun f => ⟨f.pageNo, f.dbSize, f.data⟩) =
      countAfter n commits := by
  induction commits generalizing n with
  | nil => rfl
  | cons c commits ih =>
    have hone : commitOf n (c.frames.map fun f => ⟨f.pageNo, f.dbSize, f.data⟩) =
        c.last.dbSize := by
      unfold Commit.frames commitOf
      simp [c.last_commits]
    have hsplit : ∀ xs ys : List WALFrame, commitOf n (xs ++ ys) = commitOf (commitOf n xs) ys :=
      fun xs ys => List.foldl_append
    rw [commitFrames_cons, List.map_append, hsplit, hone, ih]
    rfl

theorem overlay_commitFrames (commits : List (Commit pageSize)) (p : UInt32) :
    overlay (((commitFrames commits).map fun f : Frame =>
      (⟨f.pageNo, f.dbSize, f.data⟩ : WALFrame)).map WALFrame.layer) p =
        framePage (commitFrames commits) p := by
  rw [List.map_map]
  rfl

/-- The bounds within which a delta is read back. -/
structure DeltaFits (cfg : Config) (seq : UInt64) (commits : List (Commit pageSize)) : Prop where
  frames : (commitFrames commits).length < 2 ^ 32
  fits : Fits cfg.compress pageSize (commitFrames commits).length
  txids : seq.toNat + commits.length < 2 ^ 64

theorem length_le_commitFrames (commits : List (Commit pageSize)) :
    commits.length ≤ (commitFrames commits).length := by
  induction commits with
  | nil => exact Nat.le_refl _
  | cons c commits ih =>
    rw [commitFrames_cons, List.length_append, Commit.frames, List.length_append,
      List.length_cons, List.length_singleton]
    omega

theorem deltaSegment_eq_ok {endTxID : UInt64} {segment : Bytes}
    (hres : res.transactions = commits.map Commit.transaction)
    (hsize : res.header.pageSize = pageSize) (hfits : DeltaFits cfg seq commits)
    (h : deltaSegment cfg seq res = .ok (segment, endTxID)) :
    ∃ hd payload m, decode segment = .ok (hd, payload) ∧ hd.kind = kindDelta ∧
      hd.startTxID = seq + 1 ∧ hd.endTxID = endTxID ∧
      endTxID = seq + UInt64.ofNat commits.length ∧ decodeWALPageMap payload = .ok m ∧
      m.commit = countAfter 0 commits ∧
      ∀ p, m.page? p = framePage (commitFrames commits) p := by
  unfold deltaSegment at h
  rw [hres, hsize] at h
  obtain ⟨⟨commit, pages⟩, hmap, h⟩ := bind_eq_ok.1 h
  obtain ⟨payload, hpayload, h⟩ := bind_eq_ok.1 h
  obtain ⟨hcommit, hpages, hlen⟩ := pageMapFromTransactions_eq_ok hmap
  rw [flatMap_walTransaction] at hcommit hpages hlen
  rw [List.length_map] at hlen
  rw [List.length_map, List.length_map] at h hpayload
  have hle := length_le_commitFrames commits
  have hframes := hfits.frames
  obtain ⟨hdec, hbytes⟩ := decodeWALPageMap_encodeWALPageMap (by omega) (by omega)
    (hfits.fits.mono hlen) hpayload
  cases h
  refine ⟨_, payload, _, decode_encode _ _ (by omega), rfl, rfl, rfl, rfl, hdec, ?_, fun p => ?_⟩
  · rw [← commitOf_commitFrames]
    exact hcommit
  · rw [← overlay_commitFrames]
    exact hpages p

theorem walTransactions_ok (commits : List (Commit pageSize)) :
    ∀ tx ∈ (commits.map Commit.transaction).map SqlCapture.walTransaction, tx.Ok pageSize := by
  intro tx htx
  rw [List.map_map] at htx
  obtain ⟨c, -, rfl⟩ := List.mem_map.1 htx
  constructor
  · intro f hf
    obtain ⟨f', hf', rfl⟩ := List.mem_map.1 hf
    exact c.sized f' hf'
  · refine ⟨⟨c.last.pageNo, c.last.dbSize, c.last.data⟩, ?_, c.last_commits⟩
    unfold SqlCapture.walTransaction Commit.transaction Commit.frames
    simp

theorem exists_deltaSegment (seq : UInt64)
    (hres : res.transactions = commits.map Commit.transaction)
    (hsize : res.header.pageSize = pageSize) (hpos : pageSize ≠ 0) (hne : commits ≠ []) :
    ∃ segment endTxID, deltaSegment cfg seq res = .ok (segment, endTxID) := by
  have hne' : (commits.map Commit.transaction).map SqlCapture.walTransaction ≠ [] := by
    simpa using hne
  obtain ⟨commit, pages, payload, hmap, hpayload⟩ :=
    exists_encodeWALPageMap cfg.compress hpos hne' (walTransactions_ok commits)
  unfold deltaSegment
  dsimp only
  rw [hres, hsize, hmap, ok_bind]
  rw [hpayload]
  exact ⟨_, _, rfl⟩

theorem countAfter_eq (hne : commits ≠ []) (n n' : UInt32) :
    countAfter n commits = countAfter n' commits := by
  cases commits with
  | nil => exact absurd rfl hne
  | cons c commits => rfl

theorem countAfter_ne_zero {n : UInt32} (hn : n ≠ 0) : countAfter n commits ≠ 0 := by
  induction commits generalizing n with
  | nil => exact hn
  | cons c commits ih => exact ih c.last_commits

theorem countAfter_pos (hne : commits ≠ []) (n : UInt32) : 0 < countAfter n commits := by
  have hne0 : countAfter 1 commits ≠ 0 := countAfter_ne_zero (by decide)
  rw [countAfter_eq hne n 1]
  exact Nat.pos_of_ne_zero fun h0 => hne0 (UInt32.toNat_inj.1 h0)

theorem toNat_add_ofNat {x : UInt64} {n : Nat} (h : x.toNat + n < 2 ^ 64) :
    (x + UInt64.ofNat n).toNat = x.toNat + n := by
  rw [UInt64.toNat_add, UInt64.toNat_ofNat', Nat.add_mod_mod, Nat.mod_eq_of_lt h]

theorem Chain.delta {endTxID : UInt64} {segment : Bytes} (h : Chain cfg pageSize segs base last a)
    (hres : res.transactions = commits.map Commit.transaction)
    (hsize : res.header.pageSize = pageSize) (hne : commits ≠ [])
    (hfits : DeltaFits cfg last commits) (hcovers : Covers a commits)
    (hwhole : (a.put commits).Whole) (hfew : (a.put commits).count.toNat < 2 ^ 32 - 1)
    (hseg : deltaSegment cfg last res = .ok (segment, endTxID)) :
    Chain cfg pageSize (segs ++ [segment]) base endTxID (a.put commits) ∧ last < endTxID := by
  obtain ⟨hd, payload, m, hdec, hkind, hstart, hend, hlast, hmap, hcommit, hpage⟩ :=
    deltaSegment_eq_ok hres hsize hfits hseg
  have hpos : 0 < commits.length := List.length_pos_iff.2 hne
  have htxids := hfits.txids
  have hend_toNat : endTxID.toNat = last.toNat + commits.length := by
    rw [hlast, toNat_add_ofNat htxids]
  have hstart_toNat : hd.startTxID.toNat = last.toNat + 1 := by
    rw [hstart]
    exact toNat_add_ofNat (n := 1) (by omega)
  have hlt : last < endTxID := by
    rw [UInt64.lt_iff_toNat_lt]
    omega
  refine ⟨⟨?_, UInt64.le_trans h.le (UInt64.le_of_lt hlt)⟩, hlt⟩
  obtain ⟨snapSegs, deltaSegs, ds, dd, snaps, deltas, rfl, hchain, hmat, hps, hwm, hsame⟩ := h.chain
  -- the chain with one more delta
  have hcount : m.commit = (a.put commits).count := hcommit.trans (countAfter_eq hne 0 a.count)
  have hpositive : 0 < m.commit := hcommit ▸ countAfter_pos hne 0
  have hchainCommit : chainCommit snaps (deltas ++ [m]) = (a.put commits).count := by
    rw [chainCommit, List.map_append, lastNonzero_append, ← hcount]
    exact if_pos hpositive
  have hchainImage : ∀ p, chainImage snaps (deltas ++ [m]) p =
      (framePage (commitFrames commits) p).or (chainImage snaps deltas p) := by
    intro p
    rw [chainImage, ← List.append_assoc, layers_append, overlay_append, ← hpage]
    have hone : overlay (layers [m]) p = m.page? p := overlay_singleton _ _
    rw [hone]
    rfl
  have hsame' : Image.Same ⟨chainCommit snaps (deltas ++ [m]), chainImage snaps (deltas ++ [m])⟩
      (a.put commits) := by
    refine ⟨hchainCommit, fun p h1 h2 => ?_⟩
    dsimp only at h2 ⊢
    rw [hchainCommit] at h2
    rw [hchainImage, Image.put]
    dsimp only
    cases hf : framePage (commitFrames commits) p with
    | some data => rfl
    | none =>
      have hle := hcovers p h2 hf
      rw [← hsame.count] at hle
      exact hsame.page p h1 hle
  refine ⟨snapSegs, deltaSegs ++ [segment], ds, dd ++ [(hd, payload)], snaps, deltas ++ [m],
    List.append_assoc _ _ _, ?_, ?_, hps, ?_, hsame'⟩
  · refine ⟨hchain.ne, hchain.snapSegs, List.rel_append hchain.deltaSegs (.cons hdec .nil),
      hchain.at_base, ?_, hchain.complete, hchain.snaps,
      List.rel_append hchain.deltas (.cons hmap .nil)⟩
    rw [List.map_append, contiguous_append, hwm]
    refine ⟨hchain.contiguous, hkind, hstart_toNat, ?_, trivial⟩
    rw [UInt64.le_iff_toNat_le, hend]
    dsimp only
    omega
  · refine ⟨hmat.agree, ?_, ?_, ?_⟩
    · rw [hchainCommit, ← hcount]
      exact (UInt32.ne_of_lt hpositive).symm
    · rw [hchainCommit]
      exact decide_eq_false (by omega)
    · exact hsame'.whole hwhole
  · rw [List.map_append, lastTx_append]
    exact hend

/-! ## What stands below what -/

theorem Contiguous.le_lastTx {w : UInt64} {hs : List Ltx.Header} (h : Contiguous w hs) :
    w ≤ lastTx w hs ∧ ∀ hd ∈ hs, hd.endTxID ≤ lastTx w hs := by
  induction hs generalizing w with
  | nil => exact ⟨UInt64.le_refl _, fun _ hd => absurd hd List.not_mem_nil⟩
  | cons hd hs ih =>
    obtain ⟨-, hstart, hle, hrest⟩ := h
    obtain ⟨hmore, hall⟩ := ih hrest
    have hlast : lastTx w (hd :: hs) = lastTx hd.endTxID hs := rfl
    rw [hlast]
    constructor
    · rw [UInt64.le_iff_toNat_le] at hle hmore ⊢
      omega
    · rw [List.forall_mem_cons]
      exact ⟨hmore, hall⟩

theorem AllBelow.append {more : List Bytes} (h : AllBelow base old) (h' : AllBelow base more) :
    AllBelow base (old ++ more) := by
  intro s hs
  rcases List.mem_append.1 hs with hs | hs
  · exact h s hs
  · exact h' s hs

theorem AllBelow.mono {label : UInt64} (h : AllBelow base old) (hle : base ≤ label) :
    AllBelow label old := by
  intro s hs
  obtain ⟨d, hdec, hd⟩ := h s hs
  refine ⟨d, hdec, hd.kind, fun hk => UInt64.lt_of_lt_of_le (hd.snapshot hk) hle,
    fun hk => UInt64.le_trans (hd.delta hk) hle⟩

theorem AllBelow.not_mem_snapshot (h : AllBelow base old) {d : Ltx.Header × Bytes}
    (hdec : decode s = .ok d) (hkind : d.1.kind = kindSnapshot) (hstart : d.1.startTxID = base) :
    s ∉ old := by
  intro hs
  obtain ⟨d', hdec', hbelow⟩ := h s hs
  rw [hdec] at hdec'
  cases hdec'
  have hlt := hbelow.snapshot hkind
  rw [hstart] at hlt
  exact UInt64.lt_irrefl _ hlt

section Below

variable (h : Chain cfg pageSize segs base last a)
include h

theorem Chain.segment (hs : s ∈ segs) :
    ∃ d, decode s = .ok d ∧ (d.1.kind = kindSnapshot ∧ d.1.startTxID = base ∨
      d.1.kind = kindDelta ∧ d.1.endTxID ≤ last) := by
  obtain ⟨snapSegs, deltaSegs, ds, dd, snaps, deltas, rfl, hchain, -, -, rfl, -⟩ := h.chain
  rcases List.mem_append.1 hs with hs | hs
  · obtain ⟨d, hd, hdec⟩ := exists_of_forall₂_mem hchain.snapSegs.flip hs
    have hat := hchain.at_base d.1 (List.mem_map.2 ⟨d, hd, rfl⟩)
    exact ⟨d, hdec, .inl ⟨hat.1, hat.2.2⟩⟩
  · obtain ⟨d, hd, hdec⟩ := exists_of_forall₂_mem hchain.deltaSegs.flip hs
    have hmem : d.1 ∈ dd.map (·.1) := List.mem_map.2 ⟨d, hd, rfl⟩
    exact ⟨d, hdec, .inr ⟨hchain.contiguous.kind _ hmem,
      (Contiguous.le_lastTx hchain.contiguous).2 _ hmem⟩⟩

theorem Chain.exists_snapshot :
    ∃ s ∈ segs, ∃ d, decode s = .ok d ∧ d.1.kind = kindSnapshot ∧ d.1.startTxID = base := by
  obtain ⟨snapSegs, deltaSegs, ds, dd, snaps, deltas, rfl, hchain, -, -, -, -⟩ := h.chain
  obtain ⟨d, hd⟩ := List.exists_mem_of_ne_nil _ hchain.ne
  obtain ⟨s, hs, hdec⟩ := exists_of_forall₂_mem hchain.snapSegs hd
  have hat := hchain.at_base d.1 (List.mem_map.2 ⟨d, hd, rfl⟩)
  exact ⟨s, List.mem_append_left _ hs, d, hdec, hat.1, hat.2.2⟩

theorem Chain.allBelow {label : UInt64} (hbase : base < label) (hlast : last ≤ label) :
    AllBelow label segs := by
  intro s hs
  obtain ⟨d, hdec, hkind⟩ := h.segment hs
  refine ⟨d, hdec, ?_⟩
  rcases hkind with ⟨hk, hstart⟩ | ⟨hk, hend⟩
  · refine ⟨?_, fun _ => hstart ▸ hbase, fun hk' => ?_⟩
    · rw [hk]
      exact kind_ne.1
    · rw [hk] at hk'
      exact absurd hk'.symm kind_ne.2.2
  · refine ⟨?_, fun hk' => ?_, fun _ => UInt64.le_trans hend hlast⟩
    · rw [hk]
      exact kind_ne.2.1
    · rw [hk] at hk'
      exact absurd hk' kind_ne.2.2

theorem Chain.not_mem_delta (hold : AllBelow base old) {d : Ltx.Header × Bytes}
    (hdec : decode s = .ok d) (hkind : d.1.kind = kindDelta)
    (hend : last < d.1.endTxID) : s ∉ old ++ segs := by
  intro hs
  rcases List.mem_append.1 hs with hs | hs
  · obtain ⟨d', hdec', hbelow⟩ := hold s hs
    rw [hdec] at hdec'
    cases hdec'
    have hle := UInt64.le_trans (hbelow.delta hkind) h.le
    exact UInt64.not_lt.2 hle hend
  · obtain ⟨d', hdec', hcase⟩ := h.segment hs
    rw [hdec] at hdec'
    cases hdec'
    rcases hcase with ⟨hk, -⟩ | ⟨-, hle⟩
    · rw [hkind] at hk
      exact kind_ne.2.2 hk
    · exact UInt64.not_lt.2 hle hend

end Below

variable (h : snapshotParts cfg seq m.pages.flatten why = .ok parts)
include h

theorem snapshotParts_decoded :
    ∃ dp : List (Ltx.Header × Bytes), Decoded parts dp ∧
      SnapshotAt cfg.epoch seq (dp.map (·.1)) ∧ (dp.map (·.1)).map snapshotPart =
        (List.range parts.length).map fun i => if parts.length = 1 then none else some i := by
  have henc := snapshotParts_eq_ok h
  have hlen : (imagePages m.image.page m.image.count).length < 2 ^ 32 := by
    rw [length_imagePages]
    exact UInt32.toNat_lt _
  obtain ⟨chunks, -, -, htotal, hkind, hreads⟩ :=
    encodeSnapshotParts_eq_ok henc hlen (fits_of_default henc)
  obtain ⟨dp, hdp, hat, hnum, -⟩ := readsParts_decoded hkind htotal hreads
  have hcount : parts.length = chunks.length := by
    rw [← hreads.length_eq, List.length_zipIdx]
  rw [← hcount, ← List.range_eq_range'] at hnum
  exact ⟨dp, hdp, hat, hnum⟩

theorem snapshotParts_segment (hs : s ∈ parts) :
    ∃ d, decode s = .ok d ∧ d.1.kind = kindSnapshot ∧ d.1.startTxID = seq := by
  obtain ⟨dp, hdp, hat, -⟩ := snapshotParts_decoded h
  obtain ⟨d, hd, hdec⟩ := exists_of_forall₂_mem hdp.flip hs
  have hhead := hat d.1 (List.mem_map.2 ⟨d, hd, rfl⟩)
  exact ⟨d, hdec, hhead.1, hhead.2.2⟩

theorem nodup_snapshotParts : parts.Nodup := by
  obtain ⟨dp, hdp, -, hnum⟩ := snapshotParts_decoded h
  by_cases hone : parts.length = 1
  · obtain ⟨part, rfl⟩ := List.length_eq_one_iff.1 hone
    exact List.nodup_singleton part
  -- the numbers of the decoded parts differ
  have hparts : parts.map (fun s => (decode s).toOption.map fun d => snapshotPart d.1) =
      dp.map fun d => some (snapshotPart d.1) := by
    rw [← List.forall₂_eq_eq_eq, List.forall₂_map_left_iff, List.forall₂_map_right_iff]
    refine hdp.imp fun raw d hdec => ?_
    rw [hdec]
    rfl
  have hnodup : (dp.map fun d => some (snapshotPart d.1)).Nodup := by
    have hsome : (dp.map fun d => some (snapshotPart d.1)) =
        (List.range parts.length).map fun i => some (some i) := by
      have hmap := congrArg (List.map some) hnum
      simp only [List.map_map, if_neg hone] at hmap
      exact hmap
    rw [hsome]
    refine List.nodup_range.map ?_
    intro i j hij
    cases hij
    rfl
  rw [← hparts] at hnodup
  exact hnodup.of_map

end CellHive.DoSupervisor
