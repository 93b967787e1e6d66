import CellHive.Restore.Paging
import CellHive.Restore.Validate

/-!
# The page index against the merged chain

`IndexChain` walks the same chosen chain as `mergeChain`. `Indexable` says when it
succeeds; it differs from `Materializable` in the parts it takes for snapshot parts,
in refusing repeated pages, in the page size of deltas and in the page count, which
is the largest commit and not the last one. `indexAgrees_iff` is the exact condition
under which the two readers agree.
-/

namespace CellHive.Restore

open Go Ltx Overlay

/-! ## The index loop -/

/-- The maps whose position, counted from `idx`, is in `snapSet`. -/
def marked (snapSet : List Nat) : Nat → List PageMap → List PageMap
  | _, [] => []
  | idx, m :: rest =>
    if idx ∈ snapSet then m :: marked snapSet (idx + 1) rest else marked snapSet (idx + 1) rest

def lastRef : Nat → List PageMap → UInt32 → Option Nat
  | _, [], _ => none
  | idx, m :: rest, q =>
    (lastRef (idx + 1) rest q).or (if (m.page? q).isSome then some idx else none)

/-- The largest commit, `c` if none is larger. -/
def maxCommit (c : UInt32) (maps : List PageMap) : UInt32 :=
  maps.foldl (fun c m => if c < m.commit then m.commit else c) c

def pageNumbers (maps : List PageMap) : List UInt32 := maps.flatMap fun m => m.pages.map (·.pageNo)

theorem settledOnce_cons_cons {c x : UInt32} {xs : List UInt32} :
    SettledOnce (c :: x :: xs) ↔
      (c ≠ 0 → x = c) ∧ SettledOnce ((if c = 0 then x else c) :: xs) := by
  unfold SettledOnce
  by_cases hc : c = 0
  · simp [hc]
  rw [if_neg hc]
  simp only [List.pairwise_cons, List.mem_cons, forall_eq_or_imp]
  constructor
  · rintro ⟨⟨hx, hxs⟩, -, hp⟩
    exact ⟨hx, hxs, hp⟩
  · rintro ⟨hx, hxs, hp⟩
    refine ⟨⟨hx, hxs⟩, ?_, hp⟩
    intro y hy _
    rw [hxs y hy hc, hx hc]

theorem firstNonzero_cons_cons (c x : UInt32) (xs : List UInt32) :
    firstNonzero (c :: x :: xs) = firstNonzero ((if c = 0 then x else c) :: xs) := by
  by_cases hc : c = 0 <;> simp [firstNonzero, hc]

variable {st' : IndexState} {snaps deltas : List PageMap} {parts : List (Header × Bytes)}
  {sel : Selection} {segments : List Bytes}

theorem addNumbers_eq_ok {snap : Bool} {idx : Nat} {nums : List UInt32} {st : IndexState} :
    addNumbers snap idx st nums = .ok st' ↔
      (snap = true → nums.Nodup ∧ ∀ no ∈ nums, no ∉ st.snapPages) ∧
        st' = { st with
          snapPages := if snap then nums.reverse ++ st.snapPages else st.snapPages
          refs := fun q => if q ∈ nums then some idx else st.refs q } := by
  induction nums generalizing st with
  | nil => simp [addNumbers, eq_comm]
  | cons no nums ih =>
    have hfun : (fun q => if q ∈ nums then some idx else if q = no then some idx else st.refs q) =
        fun q => if q = no ∨ q ∈ nums then some idx else st.refs q := by
      funext q
      by_cases hq : q ∈ nums <;> by_cases hno : q = no <;> simp [hq, hno]
    unfold addNumbers
    cases snap with
    | false =>
      rw [if_neg (by simp), ih]
      simp only [Bool.false_eq_true, false_imp_iff, if_false, true_and, List.mem_cons, hfun]
    | true =>
      by_cases hmem : no ∈ st.snapPages
      · simp [hmem]
      rw [if_neg (by simp [hmem]), ih]
      simp only [forall_const, if_true, List.mem_cons, not_or, List.nodup_cons,
        List.reverse_cons, List.append_assoc, List.singleton_append, forall_eq_or_imp]
      rw [hfun]
      refine and_congr_left fun _ => ?_
      constructor
      · rintro ⟨hnd, hall⟩
        exact ⟨⟨fun h => (hall no h).1 rfl, hnd⟩, hmem, fun q hq => (hall q hq).2⟩
      · rintro ⟨⟨hno, hnd⟩, -, hall⟩
        exact ⟨hnd, fun q hq => ⟨fun e => hno (e ▸ hq), hall q hq⟩⟩

def PartFits (snap : Bool) (st : IndexState) (m : PageMap) : Prop :=
  (st.pageSize ≠ 0 → m.pageSize = st.pageSize) ∧
    (snap = true → (st.snapCommit ≠ 0 → m.commit = st.snapCommit) ∧
      ∀ no ∈ pageNumbers [m], no ∉ st.snapPages)

def afterPart (snap : Bool) (idx : Nat) (st : IndexState) (m : PageMap) (payload : Bytes) :
    IndexState where
  pageSize := if st.pageSize = 0 then m.pageSize else st.pageSize
  commit := if st.commit < m.commit then m.commit else st.commit
  snapCommit := if snap ∧ st.snapCommit = 0 then m.commit else st.snapCommit
  snapPages := if snap then (pageNumbers [m]).reverse ++ st.snapPages else st.snapPages
  refs := fun q => if (m.page? q).isSome then some idx else st.refs q
  payloads := st.payloads ++ [payload]

theorem pageNumbers_singleton (m : PageMap) : pageNumbers [m] = m.pages.map (·.pageNo) := by
  simp [pageNumbers]

theorem nodup_pageNumbers_singleton {m : PageMap} (h : m.Ordered) : (pageNumbers [m]).Nodup := by
  rw [pageNumbers_singleton]
  exact (List.pairwise_map.2 h.ascending).imp fun hlt => UInt32.ne_of_lt hlt

theorem addPart_eq_ok {snap : Bool} {idx : Nat} {payload : Bytes} {st : IndexState} :
    addPart snap idx st payload = .ok st' ↔ ∃ m, decodeWALPageMap payload = .ok m ∧
      PartFits snap st m ∧ st' = afterPart snap idx st m payload := by
  unfold addPart
  rcases hdec : decodeWALPageMap payload with e | m
  · simp
  have hord := ordered_of_decode hdec
  have hrefs : (fun q => if q ∈ pageNumbers [m] then some idx else st.refs q) =
      fun q => if (m.page? q).isSome then some idx else st.refs q := by
    funext q
    simp only [pageNumbers_singleton, hord.page?_isSome]
  simp only [Except.ok.injEq, exists_eq_left']
  by_cases hsize : st.pageSize ≠ 0 ∧ m.pageSize ≠ st.pageSize
  · rw [if_pos hsize]
    simp only [reduceCtorEq, false_iff, not_and]
    exact fun h => absurd (h.1 hsize.1) hsize.2
  rw [if_neg hsize]
  by_cases hcommit : snap = true ∧ st.snapCommit ≠ 0 ∧ m.commit ≠ st.snapCommit
  · rw [if_pos hcommit]
    simp only [reduceCtorEq, false_iff, not_and]
    exact fun h => absurd ((h.2 hcommit.1).1 hcommit.2.1) hcommit.2.2
  rw [if_neg hcommit, pageMapNumbers_of_decode hdec, ok_bind, bind_eq_ok,
    ← pageNumbers_singleton]
  simp only [addNumbers_eq_ok, hrefs]
  rw [not_and_not_right] at hsize
  constructor
  · rintro ⟨_, ⟨hsnap, rfl⟩, h⟩
    cases h
    refine ⟨⟨hsize, fun hs => ⟨fun hne => ?_, (hsnap hs).2⟩⟩, rfl⟩
    by_contra hc
    exact hcommit ⟨hs, hne, hc⟩
  · rintro ⟨⟨-, hsnap⟩, rfl⟩
    exact ⟨_, ⟨fun hs => ⟨nodup_pageNumbers_singleton hord, (hsnap hs).2⟩, rfl⟩, rfl⟩

/-- What the parts from position `idx` on must satisfy, in terms of the maps alone. -/
structure RunFits (snapSet : List Nat) (idx : Nat) (st : IndexState) (maps : List PageMap) :
    Prop where
  pageSize : SettledOnce (st.pageSize :: maps.map (·.pageSize))
  commit : SettledOnce (st.snapCommit :: (marked snapSet idx maps).map (·.commit))
  nodup : (pageNumbers (marked snapSet idx maps)).Nodup
  fresh : ∀ no ∈ pageNumbers (marked snapSet idx maps), no ∉ st.snapPages

/-- The state after the parts from position `idx` on. -/
def afterRun (snapSet : List Nat) (idx : Nat) (st : IndexState) (maps : List PageMap)
    (payloads : List Bytes) : IndexState where
  pageSize := firstNonzero (st.pageSize :: maps.map (·.pageSize))
  commit := maxCommit st.commit maps
  snapCommit := firstNonzero (st.snapCommit :: (marked snapSet idx maps).map (·.commit))
  snapPages := (pageNumbers (marked snapSet idx maps)).reverse ++ st.snapPages
  refs := fun q => (lastRef idx maps q).or (st.refs q)
  payloads := st.payloads ++ payloads

theorem pageNumbers_cons (m : PageMap) (maps : List PageMap) :
    pageNumbers (m :: maps) = pageNumbers [m] ++ pageNumbers maps := by
  simp [pageNumbers]

theorem lastRef_cons_or (idx : Nat) (m : PageMap) (maps : List PageMap) (q : UInt32)
    (r : Option Nat) :
    (lastRef idx (m :: maps) q).or r =
      (lastRef (idx + 1) maps q).or (if (m.page? q).isSome then some idx else r) := by
  rw [lastRef]
  split <;> simp

section Run

variable {snapSet : List Nat} {idx : Nat} {st : IndexState} {m : PageMap} {maps : List PageMap}

theorem afterRun_nil : afterRun snapSet idx st [] [] = st := by
  have hone : ∀ c : UInt32, firstNonzero [c] = c := by
    intro c
    by_cases hc : c = 0 <;> simp [firstNonzero, hc]
  simp [afterRun, marked, lastRef, pageNumbers, maxCommit, hone]

theorem afterRun_cons (payload : Bytes) (payloads : List Bytes) :
    afterRun snapSet idx st (m :: maps) (payload :: payloads) =
      afterRun snapSet (idx + 1) (afterPart (idx ∈ snapSet) idx st m payload) maps payloads := by
  simp only [afterRun, afterPart, IndexState.mk.injEq, List.map_cons, firstNonzero_cons_cons,
    List.append_assoc, List.singleton_append, lastRef_cons_or, decide_eq_true_eq, true_and]
  refine ⟨rfl, ?_⟩
  by_cases hs : idx ∈ snapSet
  · simp only [marked, hs, if_true, List.map_cons, firstNonzero_cons_cons, true_and, and_true]
    rw [pageNumbers_cons, List.reverse_append, List.append_assoc]
  · simp [marked, hs]

theorem runFits_nil : RunFits snapSet idx st [] :=
  ⟨by simp [SettledOnce], by simp [SettledOnce, marked], by simp [pageNumbers, marked],
    by simp [pageNumbers, marked]⟩

theorem runFits_cons (hm : m.Ordered) (payload : Bytes) :
    RunFits snapSet idx st (m :: maps) ↔ PartFits (idx ∈ snapSet) st m ∧
      RunFits snapSet (idx + 1) (afterPart (idx ∈ snapSet) idx st m payload) maps := by
  by_cases hs : idx ∈ snapSet
  · have hmark : marked snapSet idx (m :: maps) = m :: marked snapSet (idx + 1) maps := if_pos hs
    constructor
    · rintro ⟨hsize, hcommit, hnodup, hfresh⟩
      rw [hmark] at hcommit hnodup hfresh
      rw [List.map_cons, settledOnce_cons_cons] at hsize hcommit
      rw [pageNumbers_cons] at hnodup hfresh
      obtain ⟨-, hrest, hdisj⟩ := List.nodup_append.1 hnodup
      refine ⟨⟨hsize.1, fun _ => ⟨hcommit.1, fun no hno =>
        hfresh no (List.mem_append_left _ hno)⟩⟩, hsize.2, ?_, hrest, ?_⟩
      · simpa [afterPart, hs] using hcommit.2
      · intro no hno
        simp only [afterPart, hs, decide_true, if_true, List.mem_append, List.mem_reverse, not_or]
        exact ⟨fun h => hdisj no h no hno rfl, hfresh no (List.mem_append_right _ hno)⟩
    · rintro ⟨⟨hsize, hsnap⟩, hsizes, hcommits, hnodup, hfresh⟩
      obtain ⟨hcommit, hfirst⟩ := hsnap (by simpa using hs)
      simp only [afterPart, hs, decide_true, if_true, true_and, List.mem_append, List.mem_reverse,
        not_or] at hcommits hfresh
      refine ⟨?_, ?_, ?_, ?_⟩
      · rw [List.map_cons, settledOnce_cons_cons]
        exact ⟨hsize, hsizes⟩
      · rw [hmark, List.map_cons, settledOnce_cons_cons]
        exact ⟨hcommit, hcommits⟩
      · rw [hmark, pageNumbers_cons, List.nodup_append]
        exact ⟨nodup_pageNumbers_singleton hm, hnodup, fun a ha b hb e => (hfresh b hb).1 (e ▸ ha)⟩
      · rw [hmark, pageNumbers_cons]
        intro no hno
        rcases List.mem_append.1 hno with h | h
        · exact hfirst no h
        · exact (hfresh no h).2
  · have hmark : marked snapSet idx (m :: maps) = marked snapSet (idx + 1) maps := if_neg hs
    constructor
    · rintro ⟨hsize, hcommit, hnodup, hfresh⟩
      rw [hmark] at hcommit hnodup hfresh
      rw [List.map_cons, settledOnce_cons_cons] at hsize
      exact ⟨⟨hsize.1, fun h => absurd (of_decide_eq_true h) hs⟩, hsize.2,
        by simpa [afterPart, hs] using hcommit, hnodup, by simpa [afterPart, hs] using hfresh⟩
    · rintro ⟨⟨hsize, -⟩, hsizes, hcommits, hnodup, hfresh⟩
      simp only [afterPart, hs, decide_false, Bool.false_eq_true, false_and, if_false]
        at hcommits hfresh
      refine ⟨?_, hmark ▸ hcommits, hmark ▸ hnodup, hmark ▸ hfresh⟩
      rw [List.map_cons, settledOnce_cons_cons]
      exact ⟨hsize, hsizes⟩

end Run

theorem addParts_eq_ok {snapSet : List Nat} {idx : Nat} {payloads : List Bytes} {st : IndexState} :
    addParts snapSet idx st payloads = .ok st' ↔
      ∃ maps, List.Forall₂ (fun payload m => decodeWALPageMap payload = .ok m) payloads maps ∧
        RunFits snapSet idx st maps ∧ st' = afterRun snapSet idx st maps payloads := by
  induction payloads generalizing idx st with
  | nil => simp [addParts, afterRun_nil, runFits_nil, eq_comm]
  | cons payload payloads ih =>
    rw [addParts, bind_eq_ok]
    simp only [addPart_eq_ok, ih, List.forall₂_cons_left_iff]
    constructor
    · rintro ⟨_, ⟨m, hdec, hfit, rfl⟩, maps, hmaps, hrun, rfl⟩
      exact ⟨m :: maps, ⟨m, maps, hdec, hmaps, rfl⟩,
        (runFits_cons (ordered_of_decode hdec) payload).2 ⟨hfit, hrun⟩,
        (afterRun_cons payload payloads).symm⟩
    · rintro ⟨_, ⟨m, maps, hdec, hmaps, rfl⟩, hrun, rfl⟩
      obtain ⟨hfit, hrest⟩ := (runFits_cons (ordered_of_decode hdec) payload).1 hrun
      exact ⟨_, ⟨m, hdec, hfit, rfl⟩, maps, hmaps, hrest, afterRun_cons payload payloads⟩

/-! ## References -/

theorem lastRef_isSome (idx : Nat) (maps : List PageMap) (q : UInt32) :
    (lastRef idx maps q).isSome = (overlay (layers maps) q).isSome := by
  induction maps generalizing idx with
  | nil => rfl
  | cons m maps ih =>
    rw [lastRef, layers_cons, overlay_cons, Option.isSome_or, Option.isSome_or, ih (idx + 1)]
    cases m.page? q <;> rfl

theorem lastRef_eq_some {idx r : Nat} {maps : List PageMap} {q : UInt32}
    (h : lastRef idx maps q = some r) :
    ∃ k m, r = idx + k ∧ maps[k]? = some m ∧ m.page? q = overlay (layers maps) q := by
  induction maps generalizing idx with
  | nil => cases h
  | cons m maps ih =>
    rw [lastRef] at h
    rw [layers_cons, overlay_cons]
    cases hrest : lastRef (idx + 1) maps q with
    | some r' =>
      rw [hrest, Option.some_or, Option.some.injEq] at h
      subst h
      obtain ⟨k, m', rfl, hk, hpage⟩ := ih hrest
      have hsome : (overlay (layers maps) q).isSome := by rw [← lastRef_isSome (idx + 1), hrest]; rfl
      obtain ⟨data, hdata⟩ := Option.isSome_iff_exists.1 hsome
      exact ⟨k + 1, m', by omega, hk, by rw [hpage, hdata, Option.some_or]⟩
    | none =>
      have hnone : overlay (layers maps) q = none := by
        rw [← Option.not_isSome_iff_eq_none, ← lastRef_isSome (idx + 1), hrest]
        simp
      rw [hrest] at h
      split at h
      · cases h
        exact ⟨0, m, rfl, rfl, by rw [hnone, Option.none_or]⟩
      · cases h

theorem checkDefined_eq_ok {refs : UInt32 → Option Nat} {commit : UInt32} :
    checkDefined refs commit = .ok () ↔
      wraps commit = false ∧ ∀ p, 1 ≤ p → p ≤ commit → (refs p).isSome := by
  unfold checkDefined
  cases hw : wraps commit with
  | true =>
    cases List.find? (fun pgno => (refs pgno).isNone) (loopRange commit) <;> simp
  | false =>
    have hloop : loopRange commit = pageRange commit := by simp [loopRange, hw]
    cases hf : List.find? (fun pgno => (refs pgno).isNone) (loopRange commit) with
    | some p =>
      have hmem := mem_pageRange.1 (hloop ▸ List.mem_of_find?_eq_some hf)
      have hnone := List.find?_some hf
      simp only [reduceCtorEq, true_and, false_iff]
      intro h
      have := h p hmem.1 hmem.2
      simp_all
    | none =>
      simp only [Bool.false_eq_true, if_false, true_and, true_iff]
      intro p h1 h2
      have := List.find?_eq_none.1 hf p (hloop ▸ mem_pageRange.2 ⟨h1, h2⟩)
      cases hr : refs p <;> simp_all

/-! ## The whole index -/

structure Indexable (snapSet : List Nat) (snaps deltas : List PageMap) : Prop where
  pageSize : SettledOnce ((snaps ++ deltas).map (·.pageSize))
  commit : SettledOnce ((marked snapSet 0 (snaps ++ deltas)).map (·.commit))
  nodup : (pageNumbers (marked snapSet 0 (snaps ++ deltas))).Nodup
  commit_ne : maxCommit 0 (snaps ++ deltas) ≠ 0
  no_wrap : wraps (maxCommit 0 (snaps ++ deltas)) = false
  complete : ∀ p, 1 ≤ p → p ≤ maxCommit 0 (snaps ++ deltas) → (chainImage snaps deltas p).isSome

def indexOf (parts : List (Header × Bytes)) (sel : Selection) (snaps deltas : List PageMap) :
    PageIndex where
  pageSize := chainPageSize snaps
  commit := maxCommit 0 (snaps ++ deltas)
  watermark := sel.watermark
  refs := lastRef 0 (snaps ++ deltas)
  payloads := (sel.snapshots ++ sel.deltas).map fun i => (segmentAt parts i).2

theorem settledOnce_zero_cons {xs : List UInt32} : SettledOnce (0 :: xs) ↔ SettledOnce xs := by
  simp [SettledOnce]

theorem runFits_empty {snapSet : List Nat} {maps : List PageMap} :
    RunFits snapSet 0 {} maps ↔ SettledOnce (maps.map (·.pageSize)) ∧
      SettledOnce ((marked snapSet 0 maps).map (·.commit)) ∧
      (pageNumbers (marked snapSet 0 maps)).Nodup := by
  constructor
  · rintro ⟨hsize, hcommit, hnodup, -⟩
    exact ⟨settledOnce_zero_cons.1 hsize, settledOnce_zero_cons.1 hcommit, hnodup⟩
  · rintro ⟨hsize, hcommit, hnodup⟩
    exact ⟨settledOnce_zero_cons.2 hsize, settledOnce_zero_cons.2 hcommit, hnodup, by simp⟩

theorem afterRun_empty (snapSet : List Nat) (maps : List PageMap) (payloads : List Bytes) :
    afterRun snapSet 0 {} maps payloads =
      { pageSize := firstNonzero (maps.map (·.pageSize))
        commit := maxCommit 0 maps
        snapCommit := firstNonzero ((marked snapSet 0 maps).map (·.commit))
        snapPages := (pageNumbers (marked snapSet 0 maps)).reverse
        refs := lastRef 0 maps
        payloads := payloads } := by
  simp [afterRun, firstNonzero]

theorem firstNonzero_pageSizes (hne : snaps ≠ []) (hord : ∀ m ∈ snaps, m.Ordered) :
    firstNonzero ((snaps ++ deltas).map (·.pageSize)) = chainPageSize snaps := by
  obtain ⟨m, snaps, rfl⟩ := List.exists_cons_of_ne_nil hne
  have hm := (hord m (by simp)).pageSize_ne
  simp [chainPageSize, firstNonzero, hm]

theorem forall₂_order {maps : List PageMap} :
    List.Forall₂ (fun payload m => decodeWALPageMap payload = .ok m)
        ((sel.snapshots ++ sel.deltas).map fun i => (segmentAt parts i).2) maps ↔
      ∃ snaps deltas, maps = snaps ++ deltas ∧ ChosenMaps parts sel snaps deltas := by
  rw [List.forall₂_map_left_iff]
  constructor
  · intro h
    obtain ⟨snaps, deltas, rfl, hs, hd⟩ := forall₂_append_left h
    exact ⟨snaps, deltas, rfl, hs, hd⟩
  · rintro ⟨snaps, deltas, rfl, hs, hd⟩
    exact List.rel_append hs hd

theorem indexChain_eq_ok_iff {ix : PageIndex} :
    indexChain segments = .ok ix ↔ ∃ parts sel snaps deltas,
      indexParts 0 segments = .ok parts ∧ selectChain (parts.map (·.1)) = .ok sel ∧
      ChosenMaps parts sel snaps deltas ∧ Indexable sel.snapshots snaps deltas ∧
      ix = indexOf parts sel snaps deltas := by
  unfold indexChain
  simp only [bind_eq_ok, addParts_eq_ok, forall₂_order, afterRun_empty]
  have hsnaps : ∀ {parts sel snaps deltas}, selectChain (parts.map (·.1)) = .ok sel →
      ChosenMaps parts sel snaps deltas → snaps ≠ [] := by
    rintro parts sel _ deltas hsel hmaps rfl
    exact selectChain_snapshots_ne_nil hsel (List.forall₂_nil_right_iff.1 hmaps.1)
  constructor
  · rintro ⟨parts, hparts, sel, hsel, st, ⟨_, ⟨snaps, deltas, rfl, hmaps⟩, hrun, rfl⟩, h⟩
    obtain ⟨hsize, hcommit, hnodup⟩ := runFits_empty.1 hrun
    rw [firstNonzero_pageSizes (hsnaps hsel hmaps) (ordered_of_forall₂ hmaps.1)] at h
    split at h
    · cases h
    next hzero =>
      obtain ⟨_, hdefined, h⟩ := bind_eq_ok.1 h
      obtain ⟨hwrap, hall⟩ := checkDefined_eq_ok.1 hdefined
      cases h
      refine ⟨parts, sel, snaps, deltas, hparts, hsel, hmaps, ⟨hsize, hcommit, hnodup,
        (not_or.1 hzero).1, hwrap, ?_⟩, rfl⟩
      intro p h1 h2
      rw [chainImage, ← lastRef_isSome 0]
      exact hall p h1 h2
  · rintro ⟨parts, sel, snaps, deltas, hparts, hsel, hmaps, hix, rfl⟩
    have hpos := chainPageSize_ne (hsnaps hsel hmaps) (ordered_of_forall₂ hmaps.1)
    have hdefined : checkDefined (lastRef 0 (snaps ++ deltas)) (maxCommit 0 (snaps ++ deltas)) =
        .ok () :=
      checkDefined_eq_ok.2 ⟨hix.no_wrap, fun p h1 h2 => by
        rw [lastRef_isSome]
        exact hix.complete p h1 h2⟩
    refine ⟨parts, hparts, sel, hsel, _, ⟨_, ⟨snaps, deltas, rfl, hmaps⟩,
      runFits_empty.2 ⟨hix.pageSize, hix.commit, hix.nodup⟩, rfl⟩, ?_⟩
    rw [firstNonzero_pageSizes (hsnaps hsel hmaps) (ordered_of_forall₂ hmaps.1),
      if_neg (not_or.2 ⟨hix.commit_ne, hpos⟩), hdefined]
    rfl

theorem indexChain_of_chosen (hparts : indexParts 0 segments = .ok parts)
    (hsel : selectChain (parts.map (·.1)) = .ok sel) (hmaps : ChosenMaps parts sel snaps deltas)
    {ix : PageIndex} : indexChain segments = .ok ix ↔
      Indexable sel.snapshots snaps deltas ∧ ix = indexOf parts sel snaps deltas := by
  rw [indexChain_eq_ok_iff]
  constructor
  · rintro ⟨parts', sel', snaps', deltas', hparts', hsel', hmaps', hix, rfl⟩
    rw [hparts, Except.ok.injEq] at hparts'
    subst hparts'
    rw [hsel, Except.ok.injEq] at hsel'
    subst hsel'
    obtain ⟨rfl, rfl⟩ := hmaps.unique hmaps'
    exact ⟨hix, rfl⟩
  · rintro ⟨hix, rfl⟩
    exact ⟨parts, sel, snaps, deltas, hparts, hsel, hmaps, hix, rfl⟩

/-! ## Agreement with the merged chain -/

theorem page_indexOf (hmaps : ChosenMaps parts sel snaps deltas) {p : UInt32} {data : Bytes}
    (h : chainImage snaps deltas p = some data) :
    (indexOf parts sel snaps deltas).page p = .ok data := by
  have hsome : (lastRef 0 (snaps ++ deltas) p).isSome := by
    rw [lastRef_isSome, ← chainImage, h]
    rfl
  obtain ⟨r, hr⟩ := Option.isSome_iff_exists.1 hsome
  obtain ⟨k, m, hk, hget, hpage⟩ := lastRef_eq_some hr
  have horder := forall₂_order.2 ⟨snaps, deltas, rfl, hmaps⟩
  rw [Nat.zero_add] at hk
  subst hk
  have hlt : r < ((sel.snapshots ++ sel.deltas).map fun i => (segmentAt parts i).2).length := by
    rw [horder.length_eq]
    exact (List.getElem?_eq_some_iff.1 hget).1
  have hdec := horder.get hlt (List.getElem?_eq_some_iff.1 hget).1
  simp only [List.get_eq_getElem] at hdec
  rw [(List.getElem?_eq_some_iff.1 hget).2] at hdec
  have hpayload : (indexOf parts sel snaps deltas).payloads.getD r [] =
      ((sel.snapshots ++ sel.deltas).map fun i => (segmentAt parts i).2)[r] :=
    List.getD_eq_getElem _ _ hlt
  have hrefs : (indexOf parts sel snaps deltas).refs p = some r := hr
  rw [PageIndex.page, hrefs]
  dsimp only
  rw [hpayload, pageMapLookup_of_decode hdec, hpage, ← chainImage, h]
  rfl

/-- `IndexChain` agrees with `mergeChain` on a list of segments: both fail, or both
succeed with the same page size, page count, watermark and pages. -/
def IndexAgrees (segments : List Bytes) : Prop :=
  match mergeChain segments, indexChain segments with
  | .ok r, .ok ix =>
    ix.pageSize = r.pageSize ∧ ix.commit = r.commit ∧ ix.watermark = r.watermark ∧
      ∀ p, 1 ≤ p → p ≤ r.commit → ∃ data, ⟨p, data⟩ ∈ r.pages ∧ ix.page p = .ok data
  | .error _, .error _ => True
  | _, _ => False

theorem indexParts_eq (hseg : ∀ s ∈ segments, IsSegment s) (i j : Nat) :
    ∃ decoded, decodeSegments i segments = .ok decoded ∧ indexParts j segments = .ok decoded := by
  induction segments generalizing i j with
  | nil => exact ⟨[], rfl, rfl⟩
  | cons s segments ih =>
    obtain ⟨decoded, hd, hi⟩ := ih (fun t ht => hseg t (List.mem_cons_of_mem _ ht)) (i + 1) (j + 1)
    have hs := hseg s (by simp)
    obtain ⟨h, payload, hdec, -⟩ := hseg s (by simp)
    refine ⟨(h, payload) :: decoded, ?_, ?_⟩
    · simp [decodeSegments, hdec, hd]
    · simp [indexParts, split_single hs, decodeSplit, hdec, hi]

theorem mem_imagePages {image : UInt32 → Option Bytes} {commit p : UInt32} {data : Bytes}
    (h1 : 1 ≤ p) (h2 : p ≤ commit) (h : image p = some data) :
    ⟨p, data⟩ ∈ imagePages image commit := by
  refine List.mem_map.2 ⟨p, mem_pageRange.2 ⟨h1, h2⟩, ?_⟩
  rw [h]
  rfl

/-- The index agrees with the merged chain exactly when the chosen chain, if there is
one and its payloads are page maps, is both materializable and indexable with its
last commit the largest one, or neither. -/
theorem indexAgrees_iff {segments : List Bytes} (hseg : ∀ s ∈ segments, IsSegment s) :
    IndexAgrees segments ↔
      ∀ decoded sel snaps deltas, decodeSegments 0 segments = .ok decoded →
        selectChain (decoded.map (·.1)) = .ok sel → ChosenMaps decoded sel snaps deltas →
        (Materializable snaps deltas ∧ Indexable sel.snapshots snaps deltas ∧
            chainCommit snaps deltas = maxCommit 0 (snaps ++ deltas)) ∨
          (¬ Materializable snaps deltas ∧ ¬ Indexable sel.snapshots snaps deltas) := by
  obtain ⟨decoded, hdec, hparts⟩ := indexParts_eq hseg 0 0
  constructor
  · intro hagree decoded' sel snaps deltas hdec' hsel hmaps
    rw [hdec, Except.ok.injEq] at hdec'
    subst hdec'
    unfold IndexAgrees at hagree
    cases hm : mergeChain segments with
    | ok r =>
      obtain ⟨hmat, rfl⟩ := (mergeChain_of_chosen hdec hsel hmaps).1 hm
      cases hi : indexChain segments with
      | ok ix =>
        obtain ⟨hix, rfl⟩ := (indexChain_of_chosen hparts hsel hmaps).1 hi
        rw [hm, hi] at hagree
        exact .inl ⟨hmat, hix, hagree.2.1.symm⟩
      | error e =>
        rw [hm, hi] at hagree
        exact hagree.elim
    | error e =>
      have hmat : ¬ Materializable snaps deltas := fun h => by
        rw [(mergeChain_of_chosen hdec hsel hmaps).2 ⟨h, rfl⟩] at hm
        cases hm
      cases hi : indexChain segments with
      | ok ix =>
        rw [hm, hi] at hagree
        exact hagree.elim
      | error e' =>
        refine .inr ⟨hmat, fun h => ?_⟩
        rw [(indexChain_of_chosen hparts hsel hmaps).2 ⟨h, rfl⟩] at hi
        cases hi
  · intro hcond
    unfold IndexAgrees
    cases hm : mergeChain segments with
    | ok r =>
      obtain ⟨_, sel, snaps, deltas, hdec', hsel, hmaps, hmat, rfl⟩ := mergeChain_eq_ok_iff.1 hm
      rw [hdec, Except.ok.injEq] at hdec'
      subst hdec'
      rcases hcond decoded sel snaps deltas hdec hsel hmaps with ⟨-, hix, hcommit⟩ | ⟨hno, -⟩
      · rw [(indexChain_of_chosen hparts hsel hmaps).2 ⟨hix, rfl⟩]
        refine ⟨rfl, hcommit.symm, rfl, ?_⟩
        intro p h1 h2
        obtain ⟨data, hdata⟩ := Option.isSome_iff_exists.1 (hmat.complete p h1 h2)
        exact ⟨data, mem_imagePages h1 h2 hdata, page_indexOf hmaps hdata⟩
      · exact (hno hmat).elim
    | error e =>
      rcases hi : indexChain segments with e' | ix
      · trivial
      obtain ⟨_, sel, snaps, deltas, hparts', hsel, hmaps, hix, rfl⟩ := indexChain_eq_ok_iff.1 hi
      rw [hparts, Except.ok.injEq] at hparts'
      subst hparts'
      rcases hcond decoded sel snaps deltas hdec hsel hmaps with ⟨hmat, -, -⟩ | ⟨-, hno⟩
      · rw [(mergeChain_of_chosen hdec hsel hmaps).2 ⟨hmat, rfl⟩] at hm
        cases hm
      · exact (hno hix).elim

theorem not_indexAgrees_of_commit {r : Merged} {c : UInt32} (hm : mergeChain segments = .ok r)
    (hi : (indexChain segments).map (·.commit) = .ok c) (hne : c ≠ r.commit) :
    ¬ IndexAgrees segments := by
  intro hagree
  unfold IndexAgrees at hagree
  cases hix : indexChain segments with
  | error e =>
    rw [hm, hix] at hagree
    exact hagree
  | ok ix =>
    rw [hix] at hi
    rw [hm, hix] at hagree
    exact hne ((Except.ok.inj hi).symm.trans hagree.2.1)

/-! ## A delta that shrinks the database -/

theorem isSegment_shrinking : ∀ s ∈ [twoPageSnapshot, shrinkingDelta], IsSegment s := by
  simp only [List.mem_cons, List.not_mem_nil, or_false, forall_eq_or_imp, forall_eq]
  exact ⟨isSegment_encode _ _ (by decide), isSegment_encode _ _ (by decide)⟩

/-- The merged database has one page, the index still two. -/
theorem indexChain_keeps_dropped_page :
    (∀ s ∈ [twoPageSnapshot, shrinkingDelta], IsSegment s) ∧
      mergeChain [twoPageSnapshot, shrinkingDelta] = .ok ⟨1, 1, 1, 2, [⟨1, [9]⟩]⟩ ∧
      (indexChain [twoPageSnapshot, shrinkingDelta]).map (·.commit) = .ok 2 ∧
      ¬ IndexAgrees [twoPageSnapshot, shrinkingDelta] := by
  have hmerge : mergeChain [twoPageSnapshot, shrinkingDelta] = .ok ⟨1, 1, 1, 2, [⟨1, [9]⟩]⟩ := by
    decide +kernel
  have hindex : (indexChain [twoPageSnapshot, shrinkingDelta]).map (·.commit) = .ok 2 := by
    decide +kernel
  exact ⟨isSegment_shrinking, hmerge, hindex, not_indexAgrees_of_commit hmerge hindex (by decide)⟩

theorem indexAgrees_iff_shrinking :
    (∀ s ∈ [twoPageSnapshot, shrinkingDelta], IsSegment s) ∧
      (IndexAgrees [twoPageSnapshot, shrinkingDelta] ↔
        ∀ decoded sel snaps deltas,
          decodeSegments 0 [twoPageSnapshot, shrinkingDelta] = .ok decoded →
          selectChain (decoded.map (·.1)) = .ok sel → ChosenMaps decoded sel snaps deltas →
          (Materializable snaps deltas ∧ Indexable sel.snapshots snaps deltas ∧
              chainCommit snaps deltas = maxCommit 0 (snaps ++ deltas)) ∨
            (¬ Materializable snaps deltas ∧ ¬ Indexable sel.snapshots snaps deltas)) :=
  ⟨isSegment_shrinking, indexAgrees_iff isSegment_shrinking⟩

end CellHive.Restore
