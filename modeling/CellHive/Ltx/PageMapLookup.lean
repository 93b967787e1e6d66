import CellHive.Ltx.PageMap

/-!
# What a decoded page map guarantees

Whatever bytes `decodeWALPageMap` accepts, the page size is not zero and the pages
ascend strictly, so a page number occurs at most once. The two partial readers,
`pageMapNumbers` and `pageMapLookup`, then read the same pages as the full decode.
-/

namespace CellHive.Ltx

open Go

def PageMap.page? (m : PageMap) (pgno : UInt32) : Option Bytes :=
  (m.pages.find? (·.pageNo = pgno)).map (·.data)

/-- The facts a decoder checks. -/
structure PageMap.Ordered (m : PageMap) : Prop where
  pageSize_ne : m.pageSize ≠ 0
  ascending : m.pages.Pairwise (·.pageNo < ·.pageNo)

variable {pgno : UInt32} {prev : Option UInt32} {locs : List PageLoc} {payload : Bytes}
  {m : PageMap}

theorem lt_of_notAbove {p : UInt32} (h : notAbove (some p) pgno = false) : p < pgno := by
  simpa [notAbove] using h

/-- Locations that ascend from above `prev` on. -/
def LocsAbove (prev : Option UInt32) (locs : List PageLoc) : Prop :=
  locs.Pairwise (·.pgno < ·.pgno) ∧ ∀ l ∈ locs, notAbove prev l.pgno = false

theorem LocsAbove.cons {loc : PageLoc} (hloc : notAbove prev loc.pgno = false)
    (h : LocsAbove (some loc.pgno) locs) : LocsAbove prev (loc :: locs) := by
  obtain ⟨hpair, habove⟩ := h
  refine ⟨List.pairwise_cons.2 ⟨fun l hl => lt_of_notAbove (habove l hl), hpair⟩, ?_⟩
  intro l hl
  rcases List.mem_cons.1 hl with rfl | hl
  · exact hloc
  have hlt := lt_of_notAbove (habove l hl)
  cases prev with
  | none => rfl
  | some p =>
    have hp : p < loc.pgno := lt_of_notAbove hloc
    simpa [notAbove] using UInt32.lt_trans hp hlt

theorem locsV1_above {pageSize : UInt32} {n off : Nat}
    (h : locsV1 payload pageSize n off prev = .ok locs) : LocsAbove prev locs := by
  induction n generalizing off prev locs with
  | zero =>
    cases h
    exact ⟨List.Pairwise.nil, by simp⟩
  | succ n ih =>
    simp only [locsV1] at h
    split at h
    · cases h
    split at h
    · cases h
    next hprev =>
      obtain ⟨rest, hrest, h⟩ := bind_eq_ok.1 h
      cases h
      exact LocsAbove.cons (by simpa using hprev) (ih hrest)

theorem locsV2_above {pageSize : UInt32} {indexEnd n i : Nat}
    (h : locsV2 payload pageSize indexEnd n i prev = .ok locs) : LocsAbove prev locs := by
  induction n generalizing i prev locs with
  | zero =>
    cases h
    exact ⟨List.Pairwise.nil, by simp⟩
  | succ n ih =>
    simp only [locsV2] at h
    split at h
    · cases h
    next hprev =>
      split at h
      · cases h
      split at h
      · cases h
      split at h
      · cases h
      obtain ⟨rest, hrest, h⟩ := bind_eq_ok.1 h
      cases h
      exact LocsAbove.cons (by simpa using hprev) (ih hrest)

theorem pageLocs_ascending (h : pageLocs payload = .ok locs) : locs.Pairwise (·.pgno < ·.pgno) := by
  obtain ⟨d, -, h⟩ := bind_eq_ok.1 h
  unfold locsOf at h
  split at h
  · exact (locsV1_above h).1
  · exact (locsV2_above h).1

theorem describePageMap_pageSize {d : PageMapDesc} (h : describePageMap payload = .ok d) :
    d.pageSize ≠ 0 := by
  unfold describePageMap at h
  dsimp only at h
  split at h
  · split at h
    · cases h
    · split at h <;> cases h
      simp_all
  · split at h
    · split at h
      · cases h
      split at h
      · cases h
      · split at h <;> cases h
        simp_all
    · cases h

theorem readFrames_spec {pages : List WALPage} (h : readFrames payload locs = .ok pages) :
    List.Forall₂ (fun loc page => page.pageNo = loc.pgno ∧ frameData payload loc = .ok page.data)
      locs pages := by
  induction locs generalizing pages with
  | nil =>
    cases h
    exact .nil
  | cons loc locs ih =>
    obtain ⟨data, hdata, h⟩ := bind_eq_ok.1 h
    obtain ⟨rest, hrest, h⟩ := bind_eq_ok.1 h
    cases h
    exact .cons ⟨rfl, hdata⟩ (ih hrest)

theorem pageNo_eq_pgno {pages : List WALPage}
    (h : List.Forall₂ (fun loc page => page.pageNo = loc.pgno ∧
      frameData payload loc = .ok page.data) locs pages) :
    pages.map (·.pageNo) = locs.map (·.pgno) := by
  induction h with
  | nil => rfl
  | cons h _ ih => simp [h.1, ih]

theorem decodeWALPageMap_eq_ok (h : decodeWALPageMap payload = .ok m) :
    ∃ d locs, describePageMap payload = .ok d ∧ pageLocs payload = .ok locs ∧
      readFrames payload locs = .ok m.pages ∧ m.pageSize = d.pageSize ∧ m.commit = d.commit ∧
      m.txCount = d.txCount := by
  obtain ⟨d, hd, h⟩ := bind_eq_ok.1 h
  obtain ⟨locs, hlocs, h⟩ := bind_eq_ok.1 h
  obtain ⟨pages, hpages, h⟩ := bind_eq_ok.1 h
  cases h
  exact ⟨d, locs, hd, hlocs, hpages, rfl, rfl, rfl⟩

theorem ordered_of_decode (h : decodeWALPageMap payload = .ok m) : m.Ordered := by
  obtain ⟨d, locs, hd, hlocs, hpages, hsize, -, -⟩ := decodeWALPageMap_eq_ok h
  refine ⟨hsize ▸ describePageMap_pageSize hd, ?_⟩
  have hasc := List.pairwise_map.2 (pageLocs_ascending hlocs)
  rw [← pageNo_eq_pgno (readFrames_spec hpages)] at hasc
  exact List.pairwise_map.1 hasc

theorem pageMapNumbers_of_decode (h : decodeWALPageMap payload = .ok m) :
    pageMapNumbers payload = .ok (m.pages.map (·.pageNo)) := by
  obtain ⟨d, locs, -, hlocs, hpages, -, -, -⟩ := decodeWALPageMap_eq_ok h
  rw [pageMapNumbers, hlocs, ok_bind, pageNo_eq_pgno (readFrames_spec hpages)]

theorem pageMapLookup_of_decode (h : decodeWALPageMap payload = .ok m) (pgno : UInt32) :
    pageMapLookup payload pgno = .ok (m.page? pgno) := by
  obtain ⟨d, locs, -, hlocs, hpages, -, -, -⟩ := decodeWALPageMap_eq_ok h
  rw [pageMapLookup, hlocs, ok_bind, PageMap.page?]
  generalize m.pages = pages at hpages
  clear hlocs h
  induction readFrames_spec hpages with
  | nil => rfl
  | @cons loc page locs pages hhead htail ih =>
    by_cases hno : loc.pgno = pgno
    · have hpage : page.pageNo = pgno := hhead.1.trans hno
      simp [hno, hpage, hhead.2]
    have hpage : page.pageNo ≠ pgno := fun e => hno (hhead.1 ▸ e)
    rw [List.find?_cons_of_neg (by simpa using hno), List.find?_cons_of_neg (by simpa using hpage)]
    obtain ⟨_, _, hpages⟩ := bind_eq_ok.1 hpages
    obtain ⟨rest, hrest, hpages⟩ := bind_eq_ok.1 hpages
    cases hpages
    exact ih hrest

theorem PageMap.Ordered.page?_eq_some (hm : m.Ordered) {data : Bytes} :
    m.page? pgno = some data ↔ ⟨pgno, data⟩ ∈ m.pages := by
  have key : ∀ pages : List WALPage, pages.Pairwise (·.pageNo < ·.pageNo) →
      ((pages.find? (·.pageNo = pgno)).map (·.data) = some data ↔ ⟨pgno, data⟩ ∈ pages) := by
    intro pages hpages
    induction pages with
    | nil => simp
    | cons page pages ih =>
      obtain ⟨hhead, htail⟩ := List.pairwise_cons.1 hpages
      by_cases hno : page.pageNo = pgno
      · subst hno
        have hnot : (⟨page.pageNo, data⟩ : WALPage) ∉ pages := fun hmem =>
          UInt32.lt_irrefl page.pageNo (hhead ⟨page.pageNo, data⟩ hmem)
        simp only [decide_true, List.find?_cons_of_pos, Option.map_some, Option.some.injEq,
          List.mem_cons, hnot, or_false]
        constructor
        · rintro rfl
          rfl
        · intro h
          rw [← h]
      · rw [List.find?_cons_of_neg (by simpa using hno), ih htail, List.mem_cons]
        constructor
        · exact Or.inr
        · rintro (h | h)
          · exact absurd (by rw [← h]) hno
          · exact h
  exact key m.pages hm.ascending

theorem PageMap.Ordered.page?_isSome (hm : m.Ordered) :
    (m.page? pgno).isSome ↔ pgno ∈ m.pages.map (·.pageNo) := by
  rw [Option.isSome_iff_exists, List.mem_map]
  constructor
  · rintro ⟨data, h⟩
    exact ⟨_, hm.page?_eq_some.1 h, rfl⟩
  · rintro ⟨page, hpage, rfl⟩
    exact ⟨page.data, hm.page?_eq_some.2 hpage⟩

end CellHive.Ltx
