import CellHive.Replica.Fetch

/-!
# The two read paths of a page fetcher

A window read returns exactly what single-frame reads of its positions return
(`readWindow_eq_ok`). `ReadRun` asks the L0 overlay only about its first page, so it
agrees with `Page` when the overlay and the index send every later page of the window
to the same bytes (`readRunAgrees_iff`).
-/

namespace CellHive.Replica

open Go Ltx Bucket

/-! ## Frames of an object -/

section Frames

variable {b : Store} {e : PageIndexEntry} {pos : Nat} {pgno : UInt32} {d : Bytes}

/-- The frame at a location of an object decodes to `d`. -/
def FrameIn (data : Bytes) (loc : PageLoc) (d : Bytes) : Prop :=
  headerSize + loc.off + loc.stored ≤ data.length ∧
    frameData ((data.drop (headerSize + loc.off)).take loc.stored) { loc with off := 0 } = .ok d

theorem readLocated_eq_ok :
    readLocated b e pos pgno = .ok d ↔
      ∃ data, b.get e.key = .ok data ∧ FrameIn data (e.locs.getD pos default) d := by
  unfold readLocated FrameIn
  dsimp only
  generalize e.locs.getD pos default = loc
  constructor
  · intro h
    rcases hr : b.rangedGet e.key (headerSize + loc.off) loc.stored with err | raw
    · rw [hr] at h; cases h
    rw [hr] at h
    obtain ⟨data, hget, hoff, rfl⟩ := Store.rangedGet_eq_ok.1 hr
    obtain ⟨hlen, h⟩ := guard_eq_ok h
    rw [List.length_take, List.length_drop] at hlen
    exact ⟨data, hget, by omega, h⟩
  · rintro ⟨data, hget, hfit, hframe⟩
    rw [Store.rangedGet_eq_ok.2 ⟨data, hget, by omega, rfl⟩]
    dsimp only
    rw [if_neg (by rw [not_not, List.length_take, List.length_drop]; omega)]
    exact hframe

/-- The fixed-size frame at an offset of an object is that of page `pgno`. -/
def FixedIn (e : PageIndexEntry) (data : Bytes) (off : Nat) (pgno : UInt32) (d : Bytes) : Prop :=
  off + e.frameSize ≤ data.length ∧ uint32 (data.drop off) = pgno ∧
    d = (data.drop (off + 4)).take e.pageSize.toNat

theorem uint32_take {raw : Bytes} {n : Nat} (h : 4 ≤ n) : uint32 (raw.take n) = uint32 raw := by
  rw [uint32, uint32, List.take_take, min_eq_left h]

theorem readFixed_eq_ok :
    readFixed b e pos pgno = .ok d ↔
      ∃ data, b.get e.key = .ok data ∧
        FixedIn e data (headerSize + pageEntryOffset e.pageSize pos) pgno d := by
  unfold readFixed FixedIn
  generalize headerSize + pageEntryOffset e.pageSize pos = off
  have hsize : e.frameSize = 4 + e.pageSize.toNat := rfl
  have hcut (data : Bytes) : ((data.drop off).take e.frameSize).drop 4 =
      (data.drop (off + 4)).take e.pageSize.toNat := by
    rw [List.drop_take, List.drop_drop, hsize, Nat.add_sub_cancel_left]
  constructor
  · intro h
    rcases hr : b.rangedGet e.key off e.frameSize with err | raw
    · rw [hr] at h; cases h
    rw [hr] at h
    obtain ⟨data, hget, hoff, rfl⟩ := Store.rangedGet_eq_ok.1 hr
    obtain ⟨hlen, h⟩ := guard_eq_ok h
    obtain ⟨hno, h⟩ := guard_eq_ok h
    rw [List.length_take, List.length_drop] at hlen
    rw [not_not, uint32_take (by omega)] at hno
    rw [Except.ok.injEq, hcut] at h
    exact ⟨data, hget, by omega, hno, h.symm⟩
  · rintro ⟨data, hget, hfit, hno, rfl⟩
    rw [Store.rangedGet_eq_ok.2 ⟨data, hget, by omega, rfl⟩]
    dsimp only
    rw [if_neg (by rw [not_not, List.length_take, List.length_drop]; omega),
      uint32_take (by omega), if_neg (not_not.2 hno), hcut]

end Frames

/-! ## Windows -/

section Windows

variable {b : Store} {e : PageIndexEntry} {pos n : Nat} {pgno : UInt32} {data : Bytes}

/-- The frames of a list of locations follow each other from offset `off` on. -/
def Adjacent : Nat → List PageLoc → Prop
  | _, [] => True
  | off, loc :: rest => loc.off = off ∧ Adjacent (off + loc.stored) rest

variable {off k : Nat} {pages : List Bytes}

/-- Cutting the bytes of adjacent frames reads each frame where it is in the object. The
bytes were read from offset `off`, at most `span` of them. -/
theorem cutLocated_eq_ok {short : Err} {span : Nat} (hoff : headerSize + off ≤ data.length)
    {locs : List PageLoc} {start : Nat} (hadj : Adjacent (off + start) locs)
    (hspan : start + (locs.map (·.stored)).sum ≤ span) :
    cutLocated short ((data.drop (headerSize + off)).take span) start locs = .ok pages ↔
      List.Forall₂ (FrameIn data) locs pages := by
  induction locs generalizing start pages with
  | nil => simp [cutLocated, eq_comm]
  | cons loc rest ih =>
    obtain ⟨hloc, hadj⟩ := hadj
    rw [List.map_cons, List.sum_cons] at hspan
    have hcut : slice ((data.drop (headerSize + off)).take span) start (start + loc.stored) =
        (data.drop (headerSize + loc.off)).take loc.stored := by
      rw [slice, List.drop_take, List.drop_drop, List.take_take, hloc, Nat.add_assoc]
      congr 1
      omega
    have hlen : ((data.drop (headerSize + off)).take span).length < start + loc.stored ↔
        data.length < headerSize + loc.off + loc.stored := by
      rw [List.length_take, List.length_drop]
      omega
    have ih' := fun pages => @ih pages (start + loc.stored) (by rwa [← Nat.add_assoc]) (by omega)
    rw [cutLocated, hcut]
    simp only [hlen, List.forall₂_cons_left_iff, FrameIn]
    split
    · next hshort =>
      refine ⟨by rintro ⟨⟩, ?_⟩
      rintro ⟨d, rest', ⟨hfit, -⟩, -⟩
      omega
    · next hfit =>
      simp only [bind_eq_ok, ih', Except.ok.injEq]
      constructor
      · rintro ⟨d, hd, rest', hrest, rfl⟩
        exact ⟨d, rest', ⟨by omega, hd⟩, hrest, rfl⟩
      · rintro ⟨d, rest', ⟨-, hd⟩, hrest, rfl⟩
        exact ⟨d, hd, rest', hrest, rfl⟩

theorem cutFixed_eq_ok {total : Nat} (hfit : off + total * e.frameSize ≤ data.length)
    (hk : k + n ≤ total) :
    cutFixed e pgno ((data.drop off).take (total * e.frameSize)) k n = .ok pages ↔
      List.Forall₂ (fun k d => FixedIn e data (off + k * e.frameSize) (pgno + UInt32.ofNat k) d)
        (List.range' k n) pages := by
  induction n generalizing k pages with
  | zero => simp [cutFixed, eq_comm]
  | succ n ih =>
    have hsize : e.frameSize = 4 + e.pageSize.toNat := rfl
    have hroom : k * e.frameSize + e.frameSize ≤ total * e.frameSize := by
      rw [← Nat.succ_mul]
      exact Nat.mul_le_mul_right _ (by omega)
    have hno : uint32 (((data.drop off).take (total * e.frameSize)).drop (k * e.frameSize)) =
        uint32 (data.drop (off + k * e.frameSize)) := by
      rw [List.drop_take, List.drop_drop, uint32_take (by omega)]
    have hcut : slice ((data.drop off).take (total * e.frameSize)) (k * e.frameSize + 4)
        (k * e.frameSize + e.frameSize) =
          (data.drop (off + k * e.frameSize + 4)).take e.pageSize.toNat := by
      rw [slice, List.drop_take, List.drop_drop, List.take_take]
      congr 1
      omega
    rw [cutFixed, List.range'_succ]
    simp only [hno, hcut, List.forall₂_cons_left_iff, FixedIn]
    split
    · next hne =>
      refine ⟨by rintro ⟨⟩, ?_⟩
      rintro ⟨d, rest', ⟨-, heq, -⟩, -⟩
      exact (hne heq).elim
    · next heq =>
      simp only [bind_eq_ok, @ih (k + 1) _ (by omega), Except.ok.injEq, FixedIn]
      constructor
      · rintro ⟨rest', hrest, rfl⟩
        exact ⟨_, rest', ⟨by omega, not_not.1 heq, rfl⟩, hrest, rfl⟩
      · rintro ⟨d, rest', ⟨-, -, rfl⟩, hrest, rfl⟩
        exact ⟨rest', hrest, rfl⟩

/-- The `k`-th page after `pgno` is in the window: up to it the pages are listed next to
each other with consecutive numbers, and no limit is met. -/
def InWindow (e : PageIndexEntry) (maxPages : Int) (pgno : UInt32) (pos k : Nat) : Prop :=
  ∀ j, 1 ≤ j → j ≤ k → (j : Int) < maxPages ∧ pos + j < e.pages.length ∧
    e.pages.getD (pos + j) 0 = pgno + UInt32.ofNat j ∧ fits e pos j = true

theorem lt_growRun_iff {maxPages : Int} : k < growRun e maxPages pgno pos n ↔
      k < n ∨ ∀ j, n ≤ j → j ≤ k → (j : Int) < maxPages ∧ pos + j < e.pages.length ∧
        e.pages.getD (pos + j) 0 = pgno + UInt32.ofNat j ∧ fits e pos j = true := by
  fun_induction growRun e maxPages pgno pos n with
  | case1 n h hfits ih =>
    rw [ih]
    constructor
    · rintro (hk | hk)
      · by_cases hkn : k = n
        · refine .inr fun j h1 h2 => ?_
          obtain rfl : j = n := by omega
          exact ⟨h.1, h.2.1, h.2.2, hfits⟩
        · exact .inl (by omega)
      · refine .inr fun j h1 h2 => ?_
        by_cases hj : j = n
        · subst hj
          exact ⟨h.1, h.2.1, h.2.2, hfits⟩
        · exact hk j (by omega) h2
    · rintro (hk | hk)
      · exact .inl (by omega)
      · exact .inr fun j h1 h2 => hk j (by omega) h2
  | case2 n h hfits =>
    refine ⟨.inl, ?_⟩
    rintro (hk | hk)
    · exact hk
    · by_contra hkn
      exact hfits (hk n le_rfl (by omega)).2.2.2
  | case3 n h =>
    refine ⟨.inl, ?_⟩
    rintro (hk | hk)
    · exact hk
    · by_contra hkn
      obtain ⟨h1, h2, h3, -⟩ := hk n le_rfl (by omega)
      exact h ⟨h1, h2, h3⟩

theorem lt_window_iff {maxPages : Int} :
    k < growRun e maxPages pgno pos 1 ↔ InWindow e maxPages pgno pos k := by
  rw [lt_growRun_iff]
  refine ⟨?_, .inr⟩
  rintro (hk | hk)
  · intro j h1 h2
    omega
  · exact hk

theorem adjacent_map_range' (h0 : n ≠ 0 → (e.locs.getD (pos + k) default).off = off)
    (h : ∀ j, k < j → j < k + n → fitsLocated e pos j = true) :
    Adjacent off ((List.range' k n).map fun k => e.locs.getD (pos + k) default) := by
  induction n generalizing k off with
  | zero => trivial
  | succ n ih =>
    refine ⟨h0 (by omega), ih (fun hn => ?_) fun j h1 h2 => h j (by omega) (by omega)⟩
    have hnext := of_decide_eq_true (h (k + 1) (by omega) (by omega))
    rw [← h0 (by omega)]
    exact hnext.1

theorem forall₂_range'_iff {R : Nat → Bytes → Prop} : List.Forall₂ R (List.range' 0 n) pages ↔
      pages.length = n ∧ ∀ k d, pages[k]? = some d → R k d := by
  rw [List.forall₂_iff_get]
  simp only [List.length_range', List.get_eq_getElem, List.getElem_range', Nat.zero_add,
    Nat.one_mul]
  constructor
  · rintro ⟨hlen, h⟩
    refine ⟨hlen.symm, fun k d hk => ?_⟩
    obtain ⟨hlt, rfl⟩ := List.getElem?_eq_some_iff.1 hk
    exact h k (by omega) hlt
  · rintro ⟨hlen, h⟩
    exact ⟨hlen.symm, fun k h1 h2 => h k _ (List.getElem?_eq_getElem h2)⟩

theorem exists_of_forall₂_range' {R : Nat → Bytes → Prop} (hk : k < n)
    (h : List.Forall₂ R (List.range' 0 n) pages) : ∃ d, R k d := by
  obtain ⟨hlen, h⟩ := forall₂_range'_iff.1 h
  exact ⟨_, h k _ (List.getElem?_eq_getElem (by omega))⟩

theorem take_drop_eq_map_range' {locs : List PageLoc} (h : pos + n ≤ locs.length) :
    (locs.drop pos).take n = (List.range' 0 n).map fun k => locs.getD (pos + k) default := by
  apply List.ext_getElem
  · simp only [List.length_take, List.length_drop, List.length_map, List.length_range']
    omega
  · intro i h1 h2
    simp only [List.length_map, List.length_range'] at h2
    simp only [List.getElem_take, List.getElem_drop, List.getElem_map, List.getElem_range']
    rw [List.getD_eq_getElem _ _ (by omega)]
    congr 1
    omega

theorem readWindow_located (hv : e.located = true) (hn : 1 ≤ n) (hpos : pos + n ≤ e.locs.length)
    (hfits : ∀ j, 1 ≤ j → j < n → fitsLocated e pos j = true) :
    readWindow b e pos pgno n = .ok pages ↔
      List.Forall₂ (fun k d => readLocated b e (pos + k) (pgno + UInt32.ofNat k) = .ok d)
        (List.range' 0 n) pages := by
  unfold readWindow
  rw [if_pos hv, take_drop_eq_map_range' hpos]
  simp only [readLocated_eq_ok]
  cases hget : b.get e.key with
  | error err =>
    have hfail : ∀ off len, b.rangedGet e.key off len = .error err := fun off len => by
      rw [Store.rangedGet, hget, error_bind]
    rw [hfail]
    refine ⟨nofun, fun h => ?_⟩
    obtain ⟨_, _, hd, -⟩ := exists_of_forall₂_range' hn h
    cases hd
  | ok data =>
    simp only [Except.ok.injEq, exists_eq_left']
    by_cases hoff : headerSize + (e.locs.getD pos default).off ≤ data.length
    · rw [Store.rangedGet_eq_ok.2 ⟨data, hget, hoff, rfl⟩]
      rw [cutLocated_eq_ok hoff _ (by omega), List.forall₂_map_left_iff]
      exact adjacent_map_range' (fun _ => rfl) fun j h1 h2 => hfits j (by omega) (by omega)
    · rw [Store.rangedGet, hget, ok_bind, if_pos (by omega)]
      refine ⟨nofun, fun h => ?_⟩
      obtain ⟨_, hd, -⟩ := exists_of_forall₂_range' hn h
      simp only [Nat.add_zero] at hd
      omega

theorem readWindow_fixed (hv : ¬ e.located = true) (hn : 1 ≤ n) :
    readWindow b e pos pgno n = .ok pages ↔
      List.Forall₂ (fun k d => readFixed b e (pos + k) (pgno + UInt32.ofNat k) = .ok d)
        (List.range' 0 n) pages := by
  have hoffset (k : Nat) : headerSize + pageEntryOffset e.pageSize (pos + k) =
      headerSize + pageEntryOffset e.pageSize pos + k * e.frameSize := by
    simp only [pageEntryOffset, PageIndexEntry.frameSize, Nat.add_mul]
    omega
  unfold readWindow
  rw [if_neg hv]
  simp only [readFixed_eq_ok, hoffset]
  generalize headerSize + pageEntryOffset e.pageSize pos = off
  cases hget : b.get e.key with
  | error err =>
    rw [Store.rangedGet, hget]
    refine ⟨nofun, fun h => ?_⟩
    obtain ⟨_, _, hd, -⟩ := exists_of_forall₂_range' hn h
    cases hd
  | ok data =>
    simp only [Except.ok.injEq, exists_eq_left']
    by_cases hfit : off + n * e.frameSize ≤ data.length
    · rw [Store.rangedGet_eq_ok.2 ⟨data, hget, by omega, rfl⟩]
      dsimp only
      rw [if_neg (by rw [not_not, List.length_take, List.length_drop]; omega),
        cutFixed_eq_ok hfit (by omega)]
    · refine ⟨fun h => ?_, fun h => ?_⟩
      · rcases hr : b.rangedGet e.key off (n * e.frameSize) with err | raw
        · rw [hr] at h; cases h
        rw [hr] at h
        obtain ⟨data', hget', hoff, rfl⟩ := Store.rangedGet_eq_ok.1 hr
        rw [hget, Except.ok.injEq] at hget'
        subst hget'
        dsimp only at h
        rw [if_pos (by rw [List.length_take, List.length_drop]; omega)] at h
        cases h
      · -- the last frame of the window does not fit
        obtain ⟨d, hd, -⟩ := exists_of_forall₂_range' (Nat.sub_lt hn Nat.one_pos) h
        have : (n - 1) * e.frameSize + e.frameSize = n * e.frameSize := by
          rw [← Nat.succ_mul]
          congr 1
          omega
        omega

theorem readWindow_eq_ok (hn : 1 ≤ n) (hpos : pos + n ≤ e.pages.length)
    (hfits : ∀ j, 1 ≤ j → j < n → fits e pos j = true) : readWindow b e pos pgno n = .ok pages ↔
      List.Forall₂ (fun k d => readFrame b e (pos + k) (pgno + UInt32.ofNat k) = .ok d)
        (List.range' 0 n) pages := by
  by_cases hv : e.located = true
  · have hlens : e.locs.length = e.pages.length := (of_decide_eq_true hv).1
    simp only [fits, hv, if_true] at hfits
    simp only [readFrame, hv, if_true]
    exact readWindow_located hv hn (by omega) hfits
  · simp only [readFrame, hv, Bool.false_eq_true, if_false]
    exact readWindow_fixed hv hn

end Windows

/-! ## The index of a fetcher -/

/-- The frame the index sends a page to: an entry and a position in it. -/
def locate (idx : PageIndex) (pgno : UInt32) : Option (PageIndexEntry × Nat) :=
  match entryMap idx.entries pgno with
  | none => none
  | some ei => (findPage (idx.entries.getD ei default) pgno).map (idx.entries.getD ei default, ·)

theorem findPage_lt {e : PageIndexEntry} {pgno : UInt32} {pos : Nat}
    (h : findPage e pgno = some pos) : pos < e.pages.length := by
  unfold findPage at h
  dsimp only at h
  split at h
  · cases h
  next hpos =>
  rw [Option.some.injEq] at h
  omega

theorem locate_lt {idx : PageIndex} {pgno : UInt32} {e : PageIndexEntry} {pos : Nat}
    (h : locate idx pgno = some (e, pos)) : pos < e.pages.length := by
  unfold locate at h
  split at h
  · cases h
  rw [Option.map_eq_some_iff] at h
  obtain ⟨pos', hfind, heq⟩ := h
  obtain ⟨rfl, rfl⟩ := heq
  exact findPage_lt hfind

theorem applyL0_index {pf pf' : PageFetcher} {d : L0Delta} (h : applyL0 pf d = .ok pf') :
    pf'.idx = pf.idx ∧ pf'.entryOf = pf.entryOf := by
  obtain ⟨-, h⟩ := guard_eq_ok h
  cases h
  exact ⟨rfl, rfl⟩

theorem foldlM_applyL0_index {deltas : List L0Delta} {pf pf' : PageFetcher}
    (h : deltas.foldlM applyL0 pf = .ok pf') : pf'.idx = pf.idx ∧ pf'.entryOf = pf.entryOf := by
  induction deltas generalizing pf with
  | nil => cases h; exact ⟨rfl, rfl⟩
  | cons d deltas ih =>
    rw [List.foldlM_cons, bind_eq_ok] at h
    obtain ⟨pf₁, hd, hrest⟩ := h
    obtain ⟨h1, h2⟩ := applyL0_index hd
    obtain ⟨h3, h4⟩ := ih hrest
    exact ⟨h3.trans h1, h4.trans h2⟩

theorem newPageFetcher_index {b : Store} {restoreParallel : Int} {idx : PageIndex}
    {l0keys : List Key} {pf : PageFetcher} (h : newPageFetcher b restoreParallel idx l0keys = .ok pf) :
    pf.idx = idx ∧ pf.entryOf = entryMap idx.entries := by
  obtain ⟨shape, -, h⟩ := bind_eq_ok.1 h
  obtain ⟨collected, -, h⟩ := bind_eq_ok.1 h
  obtain ⟨_, -, h⟩ := bind_eq_ok.1 h
  obtain ⟨pf₁, hfold, h⟩ := bind_eq_ok.1 h
  obtain ⟨h1, h2⟩ := foldlM_applyL0_index hfold
  obtain ⟨-, h⟩ := guard_eq_ok h
  cases h
  exact ⟨h1, h2⟩

/-! ## Windowed and single reads -/

section Agreement

variable {b : Store} {idx : PageIndex} {pf : PageFetcher} {pgno : UInt32}

theorem page_eq_ok {d : Bytes} (hentry : pf.entryOf = entryMap pf.idx.entries)
    (hl0 : pf.l0 pgno = none) :
    page b pf pgno = .ok d ↔
      ∃ e pos, locate pf.idx pgno = some (e, pos) ∧ readFrame b e pos pgno = .ok d := by
  unfold page locate
  rw [hl0, hentry]
  cases entryMap pf.idx.entries pgno with
  | none => simp
  | some ei =>
    dsimp only
    generalize pf.idx.entries.getD ei default = e
    cases findPage e pgno <;> simp

theorem readRun_eq_ok_iff {maxPages : Int} {pages : List Bytes}
    (hentry : pf.entryOf = entryMap pf.idx.entries) (hl0 : pf.l0 pgno = none) :
    readRun b pf pgno maxPages = .ok pages ↔
      ∃ e pos, locate pf.idx pgno = some (e, pos) ∧
        (∀ k, k < pages.length ↔ InWindow e (max maxPages 1) pgno pos k) ∧
        ∀ k d, pages[k]? = some d → readFrame b e (pos + k) (pgno + UInt32.ofNat k) = .ok d := by
  have hlocated : readRun b pf pgno maxPages = .ok pages ↔
      ∃ e pos, locate pf.idx pgno = some (e, pos) ∧
        readWindow b e pos pgno (growRun e (max maxPages 1) pgno pos 1) = .ok pages := by
    unfold readRun locate
    rw [hl0, hentry]
    cases entryMap pf.idx.entries pgno with
    | none => simp
    | some ei =>
      dsimp only
      generalize pf.idx.entries.getD ei default = e
      cases findPage e pgno <;> simp
  rw [hlocated]
  refine exists_congr fun e => exists_congr fun pos => and_congr_right fun hloc => ?_
  have hwin : ∀ k, k < growRun e (max maxPages 1) pgno pos 1 ↔
      InWindow e (max maxPages 1) pgno pos k := fun k => lt_window_iff
  generalize growRun e (max maxPages 1) pgno pos 1 = n at hwin
  have hn : 1 ≤ n := (hwin 0).2 fun j h1 h2 => by omega
  have hpos : pos + n ≤ e.pages.length := by
    by_cases h1 : n = 1
    · have := locate_lt hloc
      omega
    · have := ((hwin (n - 1)).1 (by omega) (n - 1) (by omega) le_rfl).2.1
      omega
  have hfits : ∀ j, 1 ≤ j → j < n → fits e pos j = true := fun j h1 h2 =>
    ((hwin j).1 h2 j h1 le_rfl).2.2.2
  rw [readWindow_eq_ok hn hpos hfits, forall₂_range'_iff]
  refine and_congr_left fun _ => ?_
  constructor
  · rintro rfl
    exact hwin
  · intro h
    have hiff : ∀ k, k < pages.length ↔ k < n := fun k => (h k).trans (hwin k).symm
    exact Nat.le_antisymm (Nat.le_of_not_lt fun hlt => lt_irrefl _ ((hiff n).1 hlt))
      (Nat.le_of_not_lt fun hlt => lt_irrefl _ ((hiff pages.length).2 hlt))

/-- Every page a window read returns is what `Page` returns. -/
def ReadRunAgrees (b : Store) (pf : PageFetcher) (pgno : UInt32) (maxPages : Int) : Prop :=
  ∀ pages, readRun b pf pgno maxPages = .ok pages →
    ∀ k d, pages[k]? = some d → page b pf (pgno + UInt32.ofNat k) = .ok d

/-- The newest version of page `q` has the bytes of the frame at `pos`: the page in the
L0 overlay, or else the frame the index names. -/
def Newest (b : Store) (pf : PageFetcher) (e : PageIndexEntry) (pos : Nat) (q : UInt32) : Prop :=
  match pf.l0 q with
  | some d => readFrame b e pos q = .ok d
  | none => ∃ e' pos', locate pf.idx q = some (e', pos') ∧ readFrame b e' pos' q = readFrame b e pos q

theorem page_of_newest {e : PageIndexEntry} {pos : Nat} {q : UInt32} {d : Bytes}
    (hentry : pf.entryOf = entryMap pf.idx.entries) (hread : readFrame b e pos q = .ok d) :
    page b pf q = .ok d ↔ Newest b pf e pos q := by
  unfold Newest
  cases hq : pf.l0 q with
  | some d' =>
    rw [page, hq, hread]
    exact eq_comm
  | none =>
    rw [page_eq_ok hentry hq, hread]

theorem add_ofNat_zero (x : UInt32) : x + UInt32.ofNat 0 = x := UInt32.add_zero x

/-- `ReadRun` agrees with `Page` exactly when, in a window whose first page is read from
an object and whose frames can all be read, every later frame is the newest version of
its page. -/
theorem readRunAgrees_iff {restoreParallel : Int} {l0keys : List Key}
    (h : newPageFetcher b restoreParallel idx l0keys = .ok pf) (pgno : UInt32) (maxPages : Int) :
    ReadRunAgrees b pf pgno maxPages ↔
      ∀ e pos, pf.l0 pgno = none → locate idx pgno = some (e, pos) →
        (∀ k, InWindow e (max maxPages 1) pgno pos k →
          (readFrame b e (pos + k) (pgno + UInt32.ofNat k)).isOk = true) →
        ∀ k, 1 ≤ k → InWindow e (max maxPages 1) pgno pos k →
          Newest b pf e (pos + k) (pgno + UInt32.ofNat k) := by
  obtain ⟨rfl, hentry⟩ := newPageFetcher_index h
  constructor
  · intro hagree e pos hl0 hloc hread k hk hwin
    -- the window read succeeds, since all its frames can be read
    have hex : ∀ k, ∃ d, InWindow e (max maxPages 1) pgno pos k →
        readFrame b e (pos + k) (pgno + UInt32.ofNat k) = .ok d := fun k => by
      by_cases hw : InWindow e (max maxPages 1) pgno pos k
      · obtain ⟨d, hd⟩ := isOk_iff.1 (hread k hw)
        exact ⟨d, fun _ => hd⟩
      · exact ⟨[], fun hw' => (hw hw').elim⟩
    choose f hf using hex
    have hrun : readRun b pf pgno maxPages =
        .ok ((List.range (growRun e (max maxPages 1) pgno pos 1)).map f) := by
      refine (readRun_eq_ok_iff hentry hl0).2 ⟨e, pos, hloc, fun k => ?_, fun k d hd => ?_⟩
      · rw [List.length_map, List.length_range, lt_window_iff]
      · obtain ⟨hlt, rfl⟩ := List.getElem?_eq_some_iff.1 hd
        rw [List.length_map, List.length_range] at hlt
        rw [List.getElem_map, List.getElem_range]
        exact hf k (lt_window_iff.1 hlt)
    have hlt := lt_window_iff.2 hwin
    rw [← page_of_newest hentry (hf k hwin)]
    refine hagree _ hrun k (f k) ?_
    rw [List.getElem?_map, List.getElem?_range hlt, Option.map_some]
  · intro hcond pages hrun k d hd
    cases hl0 : pf.l0 pgno with
    | some d' =>
      -- the overlay answers with one page
      rw [readRun, hl0, Except.ok.injEq] at hrun
      subst hrun
      rw [List.getElem?_singleton] at hd
      split at hd
      · next hk =>
        rw [Option.some.injEq] at hd
        subst hk hd
        rw [page, add_ofNat_zero, hl0]
      · cases hd
    | none =>
      obtain ⟨e, pos, hloc, hwin, hframes⟩ := (readRun_eq_ok_iff hentry hl0).1 hrun
      by_cases hk : k = 0
      · subst hk
        have hframe := hframes 0 d hd
        rw [add_ofNat_zero] at hframe ⊢
        exact (page_eq_ok hentry hl0).2 ⟨e, pos, hloc, hframe⟩
      · have hw : InWindow e (max maxPages 1) pgno pos k :=
          (hwin k).1 (List.getElem?_eq_some_iff.1 hd).1
        rw [page_of_newest hentry (hframes k d hd)]
        refine hcond e pos hl0 hloc (fun j hj => ?_) k (by omega) hw
        exact isOk_iff.2 ⟨_, hframes j _ (List.getElem?_eq_getElem ((hwin j).2 hj))⟩

end Agreement

/-! ## A window over a page that a delta replaced -/

/-- A compacted object with the pages 1 and 2, and a newer delta with page 2. -/
def replacedPageStore : Store :=
  (Store.empty.put ['1', '.', 's', 'n', 'a', 'p', 's', 'h', 'o', 't']
    (encode ⟨1, kindSnapshot, 0, 1, 1, 1, 0, 0⟩
      [87, 65, 76, 50, 0, 0, 0, 1, 0, 0, 0, 2, 0, 0, 0, 1, 0, 0, 0, 2,
        0, 0, 0, 1, 7, 0, 0, 0, 2, 8])).put
    ['2', '-', '2', '.', 'l', 't', 'x']
    (encode ⟨1, kindDelta, 0, 1, 2, 2, 0, 0⟩
      [87, 65, 76, 50, 0, 0, 0, 1, 0, 0, 0, 2, 0, 0, 0, 1, 0, 0, 0, 1, 0, 0, 0, 2, 9])

def replacedPageIndex : PageIndex :=
  ⟨1, [⟨['1', '.', 's', 'n', 'a', 'p', 's', 'h', 'o', 't'], 1, 2, [1, 2], []⟩]⟩

/-- The window that starts at page 1 serves page 2 from the object, `Page` from the delta. -/
theorem readRun_serves_replaced_page :
    ∃ pf, newPageFetcher replacedPageStore 0 replacedPageIndex
        [['2', '-', '2', '.', 'l', 't', 'x']] = .ok pf ∧
      readRun replacedPageStore pf 1 2 = .ok [[7], [8]] ∧ page replacedPageStore pf 2 = .ok [9] ∧
      ¬ ReadRunAgrees replacedPageStore pf 1 2 := by
  have hreads : (newPageFetcher replacedPageStore 0 replacedPageIndex
      [['2', '-', '2', '.', 'l', 't', 'x']]).map
        (fun pf => (readRun replacedPageStore pf 1 2, page replacedPageStore pf 2)) =
      .ok (.ok [[7], [8]], .ok [9]) := by
    decide +kernel
  obtain ⟨pf, hpf, hreads⟩ := map_eq_ok.1 hreads
  rw [Prod.mk.injEq] at hreads
  refine ⟨pf, hpf, hreads.1, hreads.2, fun hagree => ?_⟩
  have hpage := hagree _ hreads.1 1 [8] rfl
  rw [show (1 : UInt32) + UInt32.ofNat 1 = 2 from rfl, hreads.2] at hpage
  exact absurd hpage (by decide)

theorem readRunAgrees_iff_replacedPage :
    ∃ pf, newPageFetcher replacedPageStore 0 replacedPageIndex
        [['2', '-', '2', '.', 'l', 't', 'x']] = .ok pf ∧
      (ReadRunAgrees replacedPageStore pf 1 2 ↔
        ∀ e pos, pf.l0 1 = none → locate replacedPageIndex 1 = some (e, pos) →
          (∀ k, InWindow e (max 2 1) 1 pos k →
            (readFrame replacedPageStore e (pos + k) (1 + UInt32.ofNat k)).isOk = true) →
          ∀ k, 1 ≤ k → InWindow e (max 2 1) 1 pos k →
            Newest replacedPageStore pf e (pos + k) (1 + UInt32.ofNat k)) := by
  have hok : (newPageFetcher replacedPageStore 0 replacedPageIndex
      [['2', '-', '2', '.', 'l', 't', 'x']]).isOk = true := by
    decide +kernel
  obtain ⟨pf, hpf⟩ := isOk_iff.1 hok
  exact ⟨pf, hpf, readRunAgrees_iff hpf 1 2⟩

end CellHive.Replica
