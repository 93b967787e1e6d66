import CellHive.Ltx.PageMapLookup
import CellHive.Restore.ChainSpec
import CellHive.Restore.Merge
import CellHive.Util.Overlay

/-!
# What `mergeChain` computes

The pages of a chain are an overlay: every delta covers what lies below it, and the
snapshot parts at the bottom must agree wherever they overlap. `Materializable` says
in these terms when a chosen chain has an image at all, and `mergeChain_eq_ok_iff`
that `mergeChain` succeeds exactly then and returns that image.
-/

namespace CellHive.Restore

open Go Ltx Overlay

/-! ## Commits -/

def firstNonzero (xs : List UInt32) : UInt32 := (xs.find? (· ≠ 0)).getD 0

/-- The last nonzero number, `c` if there is none. -/
def lastNonzero (c : UInt32) (xs : List UInt32) : UInt32 :=
  xs.foldl (fun c x => if 0 < x then x else c) c

/-- Once a nonzero number has been seen, all later ones are equal to it. -/
def SettledOnce (xs : List UInt32) : Prop := xs.Pairwise fun a b => a ≠ 0 → b = a

theorem firstNonzero_concat (xs : List UInt32) (x : UInt32) :
    firstNonzero (xs ++ [x]) = if firstNonzero xs = 0 then x else firstNonzero xs := by
  induction xs with
  | nil => by_cases hx : x = 0 <;> simp [firstNonzero, hx]
  | cons y xs ih =>
    by_cases hy : y = 0
    · simpa [firstNonzero, hy] using ih
    · simp [firstNonzero, hy]

theorem mem_of_firstNonzero {xs : List UInt32} (h : firstNonzero xs ≠ 0) :
    firstNonzero xs ∈ xs := by
  unfold firstNonzero at h ⊢
  cases hf : xs.find? (· ≠ 0) with
  | none => exact absurd (by rw [hf]; rfl) h
  | some x => exact List.mem_of_find?_eq_some hf

theorem SettledOnce.eq_firstNonzero {xs : List UInt32} (h : SettledOnce xs) {x : UInt32}
    (hx : x ∈ xs) (hne : x ≠ 0) : x = firstNonzero xs := by
  induction xs with
  | nil => cases hx
  | cons y xs ih =>
    obtain ⟨hy, hxs⟩ := List.pairwise_cons.1 h
    by_cases hy0 : y = 0
    · have hmem : x ∈ xs := (List.mem_cons.1 hx).resolve_left fun e => hne (e.trans hy0)
      rw [ih hxs hmem]
      simp [firstNonzero, hy0]
    · have hfirst : firstNonzero (y :: xs) = y := by simp [firstNonzero, hy0]
      rw [hfirst]
      rcases List.mem_cons.1 hx with hx | hx
      · exact hx
      · exact hy x hx hy0

theorem settledOnce_concat {xs : List UInt32} {x : UInt32} :
    SettledOnce (xs ++ [x]) ↔ SettledOnce xs ∧ (firstNonzero xs ≠ 0 → x = firstNonzero xs) := by
  unfold SettledOnce
  rw [List.pairwise_append]
  constructor
  · rintro ⟨hxs, -, hx⟩
    exact ⟨hxs, fun hne => hx _ (mem_of_firstNonzero hne) x (by simp) hne⟩
  · rintro ⟨hxs, hx⟩
    refine ⟨hxs, by simp, ?_⟩
    intro a ha b hb hne
    have hafirst := SettledOnce.eq_firstNonzero hxs ha hne
    rw [List.mem_singleton] at hb
    rw [hb, hafirst]
    exact hx (hafirst ▸ hne)

/-! ## Snapshot parts -/

def layers (maps : List PageMap) : List (UInt32 → Option Bytes) := maps.map PageMap.page?

@[simp] theorem layers_nil : layers [] = [] := rfl

@[simp] theorem layers_cons (m : PageMap) (maps : List PageMap) :
    layers (m :: maps) = m.page? :: layers maps := rfl

@[simp] theorem layers_append (xs ys : List PageMap) :
    layers (xs ++ ys) = layers xs ++ layers ys := List.map_append

/-- The parts of a snapshot agree on the page size, on the page count and on every page
two of them hold. -/
structure PartsAgree (maps : List PageMap) : Prop where
  pageSize : SettledOnce (maps.map (·.pageSize))
  commit : SettledOnce (maps.map (·.commit))
  pages : (layers maps).Pairwise Compatible

def snapshotState (maps : List PageMap) : MergeState where
  pageSize := firstNonzero (maps.map (·.pageSize))
  commit := firstNonzero (maps.map (·.commit))
  pageMap := first (layers maps)

variable {maps snaps : List PageMap} {pages : List WALPage} {st : MergeState} {commit : UInt32}
  {segments : List Bytes} {decoded : List (Header × Bytes)} {sel : Selection}

theorem partsAgree_concat {m : PageMap} : PartsAgree (maps ++ [m]) ↔ PartsAgree maps ∧
      (firstNonzero (maps.map (·.pageSize)) ≠ 0 →
        m.pageSize = firstNonzero (maps.map (·.pageSize))) ∧
      (firstNonzero (maps.map (·.commit)) ≠ 0 → m.commit = firstNonzero (maps.map (·.commit))) ∧
      ∀ f ∈ layers maps, Compatible f m.page? := by
  have hpages : (layers (maps ++ [m])).Pairwise Compatible ↔
      (layers maps).Pairwise Compatible ∧ ∀ f ∈ layers maps, Compatible f m.page? := by
    simp [List.pairwise_append]
  constructor
  · rintro ⟨hsize, hcommit, hp⟩
    rw [List.map_append, List.map_singleton, settledOnce_concat] at hsize hcommit
    obtain ⟨hp, hlast⟩ := hpages.1 hp
    exact ⟨⟨hsize.1, hcommit.1, hp⟩, hsize.2, hcommit.2, hlast⟩
  · rintro ⟨⟨hsize, hcommit, hp⟩, hs, hc, hlast⟩
    refine ⟨?_, ?_, hpages.2 ⟨hp, hlast⟩⟩
    · rw [List.map_append, List.map_singleton, settledOnce_concat]
      exact ⟨hsize, hs⟩
    · rw [List.map_append, List.map_singleton, settledOnce_concat]
      exact ⟨hcommit, hc⟩

theorem addSnapshotPages_eq_ok (hp : pages.Pairwise (·.pageNo < ·.pageNo))
    {m m' : UInt32 → Option Bytes} : addSnapshotPages m pages = .ok m' ↔
      (∀ p ∈ pages, ∀ d, m p.pageNo = some d → d = p.data) ∧
        m' = fun q => (m q).or ((pages.find? (·.pageNo = q)).map (·.data)) := by
  induction pages generalizing m with
  | nil => simp [addSnapshotPages, eq_comm]
  | cons p pages ih =>
    obtain ⟨hhead, htail⟩ := List.pairwise_cons.1 hp
    have hne : ∀ q ∈ pages, q.pageNo ≠ p.pageNo := fun q hq e =>
      UInt32.lt_irrefl p.pageNo (e ▸ hhead q hq)
    unfold addSnapshotPages
    cases hm : m p.pageNo with
    | some existing =>
      by_cases hdata : existing = p.data
      · have hfun : ∀ q, (m q).or ((pages.find? (·.pageNo = q)).map (·.data)) =
            (m q).or (((p :: pages).find? (·.pageNo = q)).map (·.data)) := by
          intro q
          by_cases hq : p.pageNo = q
          · rw [← hq, hm]
            rfl
          · rw [List.find?_cons_of_neg (by simpa using hq)]
        simp only [hdata, ne_eq, not_true_eq_false, if_false, ih htail, List.forall_mem_cons, hm,
          Option.some.injEq, hfun]
        simp
      · simp [hdata, hm]
    | none =>
      have hset : ∀ q ∈ pages, setPage m p.pageNo p.data q.pageNo = m q.pageNo := fun q hq =>
        if_neg (hne q hq)
      have hfun : ∀ q, (setPage m p.pageNo p.data q).or ((pages.find? (·.pageNo = q)).map (·.data)) =
          (m q).or (((p :: pages).find? (·.pageNo = q)).map (·.data)) := by
        intro q
        by_cases hq : p.pageNo = q
        · subst hq
          simp [setPage, hm]
        · rw [List.find?_cons_of_neg (by simpa using hq), setPage, if_neg (Ne.symm hq)]
      rw [ih htail]
      simp only [hfun, List.forall_mem_cons, hm]
      refine and_congr_left fun _ => ?_
      constructor
      · intro h
        refine ⟨by simp, fun q hq d hd => h q hq d ?_⟩
        rw [hset q hq, hd]
      · rintro ⟨-, h⟩ q hq d hd
        rw [hset q hq] at hd
        exact h q hq d hd

theorem addSnapshotMap_eq_ok {m : PageMap} (hm : m.Ordered) {st' : MergeState} :
    addSnapshotMap st m = .ok st' ↔
      (st.pageSize ≠ 0 → m.pageSize = st.pageSize) ∧ (st.commit ≠ 0 → m.commit = st.commit) ∧
        Compatible st.pageMap m.page? ∧
        st' = { pageSize := if st.pageSize = 0 then m.pageSize else st.pageSize
                commit := if st.commit = 0 then m.commit else st.commit
                pageMap := fun q => (st.pageMap q).or (m.page? q) } := by
  have hcompat : (∀ p ∈ m.pages, ∀ d, st.pageMap p.pageNo = some d → d = p.data) ↔
      Compatible st.pageMap m.page? := by
    constructor
    · intro h k a b ha hb
      exact h ⟨k, b⟩ (hm.page?_eq_some.1 hb) a ha
    · intro h p hp d hd
      exact h p.pageNo d p.data hd (hm.page?_eq_some.2 hp)
  unfold addSnapshotMap
  by_cases hsize : st.pageSize ≠ 0 ∧ m.pageSize ≠ st.pageSize
  · rw [if_pos hsize]
    simp only [reduceCtorEq, false_iff, not_and]
    exact fun h => absurd (h hsize.1) hsize.2
  rw [if_neg hsize]
  by_cases hcommit : st.commit ≠ 0 ∧ m.commit ≠ st.commit
  · rw [if_pos hcommit]
    simp only [reduceCtorEq, false_iff, not_and]
    exact fun _ h => absurd (h hcommit.1) hcommit.2
  rw [if_neg hcommit, bind_eq_ok]
  simp only [addSnapshotPages_eq_ok hm.ascending, hcompat]
  rw [not_and_not_right] at hsize hcommit
  constructor
  · rintro ⟨pm, ⟨hpages, rfl⟩, h⟩
    cases h
    exact ⟨hsize, hcommit, hpages, rfl⟩
  · rintro ⟨-, -, hpages, rfl⟩
    exact ⟨_, ⟨hpages, rfl⟩, rfl⟩

theorem snapshotState_concat (maps : List PageMap) (m : PageMap) :
    snapshotState (maps ++ [m]) =
      { pageSize := if (snapshotState maps).pageSize = 0 then m.pageSize
          else (snapshotState maps).pageSize
        commit := if (snapshotState maps).commit = 0 then m.commit else (snapshotState maps).commit
        pageMap := fun q => ((snapshotState maps).pageMap q).or (m.page? q) } := by
  simp only [snapshotState, List.map_append, List.map_singleton, firstNonzero_concat,
    MergeState.mk.injEq]
  refine ⟨rfl, rfl, ?_⟩
  funext q
  rw [layers_append, layers_cons, layers_nil, first_concat]

/-- The snapshot loop succeeds exactly on parts that agree, and then holds their union. -/
theorem foldlM_addSnapshotMap (hm : ∀ m ∈ maps, m.Ordered) :
    maps.foldlM addSnapshotMap ({} : MergeState) = .ok st ↔
      PartsAgree maps ∧ st = snapshotState maps := by
  induction maps using List.reverseRecOn generalizing st with
  | nil =>
    have hnil : PartsAgree [] := ⟨List.Pairwise.nil, List.Pairwise.nil, List.Pairwise.nil⟩
    have hstate : snapshotState [] = {} := rfl
    rw [List.foldlM_nil, hstate]
    simp only [pure, Except.pure, Except.ok.injEq, hnil, true_and, eq_comm]
  | append_singleton maps m ih =>
    have hmaps : ∀ m ∈ maps, m.Ordered := fun m' h' => hm m' (List.mem_append_left _ h')
    have hlast : m.Ordered := hm m (by simp)
    rw [List.foldlM_append, bind_eq_ok]
    simp only [ih hmaps, List.foldlM_cons, List.foldlM_nil, bind_pure, addSnapshotMap_eq_ok hlast,
      partsAgree_concat]
    constructor
    · rintro ⟨_, ⟨hagree, rfl⟩, hs, hc, hp, rfl⟩
      exact ⟨⟨hagree, hs, hc, (compatible_first hagree.pages).1 hp⟩, (snapshotState_concat maps m).symm⟩
    · rintro ⟨⟨hagree, hs, hc, hp⟩, rfl⟩
      exact ⟨_, ⟨hagree, rfl⟩, hs, hc, (compatible_first hagree.pages).2 hp, snapshotState_concat maps m⟩

/-! ## Deltas -/

theorem foldl_setPage (hp : pages.Pairwise (·.pageNo < ·.pageNo)) (m : UInt32 → Option Bytes)
    (q : UInt32) : pages.foldl (fun pm p => setPage pm p.pageNo p.data) m q =
      ((pages.find? (·.pageNo = q)).map (·.data)).or (m q) := by
  induction pages generalizing m with
  | nil => simp
  | cons p pages ih =>
    obtain ⟨hhead, htail⟩ := List.pairwise_cons.1 hp
    rw [List.foldl_cons, ih htail]
    by_cases hq : p.pageNo = q
    · subst hq
      have hnone : pages.find? (·.pageNo = p.pageNo) = none := by
        refine List.find?_eq_none.2 fun r hr hrp => ?_
        have hlt := hhead r hr
        rw [of_decide_eq_true hrp] at hlt
        exact UInt32.lt_irrefl _ hlt
      rw [hnone]
      simp [setPage]
    · rw [List.find?_cons_of_neg (by simpa using hq), setPage, if_neg (Ne.symm hq)]

theorem foldl_addDeltaMap (hm : ∀ m ∈ maps, m.Ordered) (st : MergeState) :
    maps.foldl addDeltaMap st =
      { pageSize := st.pageSize
        commit := lastNonzero st.commit (maps.map (·.commit))
        pageMap := fun q => (overlay (layers maps) q).or (st.pageMap q) } := by
  induction maps generalizing st with
  | nil => simp [lastNonzero, layers]
  | cons m maps ih =>
    have hfirst : m.Ordered := hm m (by simp)
    rw [List.foldl_cons, ih fun m' h' => hm m' (List.mem_cons_of_mem _ h')]
    simp only [addDeltaMap, MergeState.mk.injEq, true_and]
    refine ⟨rfl, ?_⟩
    funext q
    rw [foldl_setPage hfirst.ascending, layers_cons, overlay_cons, Option.or_assoc]
    rfl

/-! ## The pages of the image -/

theorem takePages_eq_ok {m : UInt32 → Option Bytes} {nos : List UInt32} :
    takePages m commit nos = .ok pages ↔
      (∀ p ∈ nos, (m p).isSome) ∧ pages = nos.map fun p => ⟨p, (m p).getD []⟩ := by
  induction nos generalizing pages with
  | nil => simp only [takePages, Except.ok.injEq, List.not_mem_nil, false_imp_iff, implies_true,
      List.map_nil, true_and, eq_comm]
  | cons p nos ih =>
    unfold takePages
    rcases hp : m p with _ | data
    · simp [hp]
    simp only [bind_eq_ok, ih, List.forall_mem_cons, hp, Option.isSome_some, true_and]
    constructor
    · rintro ⟨rest, ⟨hall, rfl⟩, h⟩
      cases h
      exact ⟨hall, by simp [hp]⟩
    · rintro ⟨hall, rfl⟩
      exact ⟨_, ⟨hall, rfl⟩, by simp [hp]⟩

theorem mem_pageRange {p : UInt32} : p ∈ pageRange commit ↔ 1 ≤ p ∧ p ≤ commit := by
  simp only [pageRange, List.mem_map, List.mem_range, UInt32.le_iff_toNat_le, UInt32.toNat_one]
  have hc := commit.toNat_lt
  constructor
  · rintro ⟨i, hi, rfl⟩
    rw [UInt32.toNat_ofNat']
    omega
  · rintro ⟨h1, h2⟩
    refine ⟨p.toNat - 1, by omega, ?_⟩
    rw [Nat.sub_add_cancel h1, UInt32.ofNat_toNat]

def imagePages (image : UInt32 → Option Bytes) (commit : UInt32) : List WALPage :=
  (pageRange commit).map fun p => ⟨p, (image p).getD []⟩

theorem collectPages_eq_ok {m : UInt32 → Option Bytes} : collectPages m commit = .ok pages ↔
      wraps commit = false ∧ (∀ p, 1 ≤ p → p ≤ commit → (m p).isSome) ∧
        pages = imagePages m commit := by
  unfold collectPages
  simp only [bind_eq_ok, takePages_eq_ok]
  cases hw : wraps commit with
  | true => simp
  | false =>
    have hloop : loopRange commit = pageRange commit := by simp [loopRange, hw]
    simp only [hloop, mem_pageRange, and_imp]
    constructor
    · rintro ⟨_, ⟨hall, rfl⟩, h⟩
      cases h
      exact ⟨trivial, hall, rfl⟩
    · rintro ⟨-, hall, rfl⟩
      exact ⟨_, ⟨hall, rfl⟩, rfl⟩

/-! ## The whole chain -/

theorem forall₂_append_left {α β : Type} {R : α → β → Prop} {xs ys : List α} {zs : List β}
    (h : List.Forall₂ R (xs ++ ys) zs) :
    ∃ zx zy, zs = zx ++ zy ∧ List.Forall₂ R xs zx ∧ List.Forall₂ R ys zy := by
  refine ⟨zs.take xs.length, zs.drop xs.length, (List.take_append_drop _ _).symm, ?_, ?_⟩
  · simpa using List.forall₂_take xs.length h
  · simpa using List.forall₂_drop xs.length h

abbrev Decoded (segments : List Bytes) (decoded : List (Header × Bytes)) : Prop :=
  List.Forall₂ (fun raw d => decode raw = .ok d) segments decoded

abbrev Mapped (decoded : List (Header × Bytes)) (maps : List PageMap) : Prop :=
  List.Forall₂ (fun d m => decodeWALPageMap d.2 = .ok m) decoded maps

abbrev MappedAt (decoded : List (Header × Bytes)) (is : List Nat) (maps : List PageMap) : Prop :=
  List.Forall₂ (fun i m => decodeWALPageMap (segmentAt decoded i).2 = .ok m) is maps

theorem mapped_segmentAt {is : List Nat} {maps : List PageMap} :
    Mapped (is.map (segmentAt decoded)) maps ↔ MappedAt decoded is maps :=
  List.forall₂_map_left_iff

theorem decodeSegments_eq_ok {i : Nat} :
    decodeSegments i segments = .ok decoded ↔ Decoded segments decoded := by
  induction segments generalizing i decoded with
  | nil => simp [decodeSegments, eq_comm]
  | cons raw segments ih =>
    unfold decodeSegments Decoded
    rw [List.forall₂_cons_left_iff]
    rcases decode raw with e | d
    · simp
    simp only [bind_eq_ok, ih, Except.ok.injEq]
    constructor
    · rintro ⟨ds, hds, rfl⟩
      exact ⟨d, ds, rfl, hds, rfl⟩
    · rintro ⟨_, ds, rfl, hds, rfl⟩
      exact ⟨ds, hds, rfl⟩

def chainPageSize (snaps : List PageMap) : UInt32 := firstNonzero (snaps.map (·.pageSize))

/-- The page count of a chain: the last delta that carries one, else the snapshot's. -/
def chainCommit (snaps deltas : List PageMap) : UInt32 :=
  lastNonzero (firstNonzero (snaps.map (·.commit))) (deltas.map (·.commit))

def chainImage (snaps deltas : List PageMap) : UInt32 → Option Bytes :=
  overlay (layers (snaps ++ deltas))

structure Materializable (snaps deltas : List PageMap) : Prop where
  agree : PartsAgree snaps
  commit_ne : chainCommit snaps deltas ≠ 0
  no_wrap : wraps (chainCommit snaps deltas) = false
  complete : ∀ p, 1 ≤ p → p ≤ chainCommit snaps deltas → (chainImage snaps deltas p).isSome

def ChosenMaps (decoded : List (Header × Bytes)) (sel : Selection) (snaps deltas : List PageMap) :
    Prop :=
  List.Forall₂ (fun i m => decodeWALPageMap (segmentAt decoded i).2 = .ok m) sel.snapshots snaps ∧
    List.Forall₂ (fun i m => decodeWALPageMap (segmentAt decoded i).2 = .ok m) sel.deltas deltas

theorem ordered_of_forall₂ {is : List Nat} (h : MappedAt decoded is maps) :
    ∀ m ∈ maps, m.Ordered := by
  induction h with
  | nil => simp
  | cons h _ ih =>
    rw [List.forall_mem_cons]
    exact ⟨ordered_of_decode h, ih⟩

theorem applyChain_eq_ok :
    applyChain decoded sel = .ok st ↔ ∃ snaps deltas, ChosenMaps decoded sel snaps deltas ∧
      PartsAgree snaps ∧ st = { pageSize := chainPageSize snaps
                                commit := chainCommit snaps deltas
                                pageMap := chainImage snaps deltas } := by
  have hsnap : ∀ (s : MergeState) (i : Nat) (s' : MergeState),
      addSnapshot s (segmentAt decoded i).2 = .ok s' ↔
        ∃ m, decodeWALPageMap (segmentAt decoded i).2 = .ok m ∧ addSnapshotMap s m = .ok s' := by
    intro s i s'
    unfold addSnapshot
    cases decodeWALPageMap (segmentAt decoded i).2 <;> simp
  have hdelta : ∀ (s : MergeState) (i : Nat) (s' : MergeState),
      addDelta s (segmentAt decoded i) = .ok s' ↔
        ∃ m, decodeWALPageMap (segmentAt decoded i).2 = .ok m ∧
          (pure (addDeltaMap s m) : Res MergeState) = .ok s' := by
    intro s i s'
    unfold addDelta
    cases decodeWALPageMap (segmentAt decoded i).2 <;> simp [pure, Except.pure]
  have hstate : ∀ {snaps deltas : List PageMap}, PartsAgree snaps → (∀ m ∈ deltas, m.Ordered) →
      deltas.foldl addDeltaMap (snapshotState snaps) =
        { pageSize := chainPageSize snaps
          commit := chainCommit snaps deltas
          pageMap := chainImage snaps deltas } := by
    intro snaps deltas hagree hdeltas
    rw [foldl_addDeltaMap hdeltas]
    simp only [snapshotState, chainPageSize, chainCommit, MergeState.mk.injEq, true_and]
    funext q
    rw [chainImage, layers_append, overlay_append, first_eq_overlay hagree.pages]
  unfold applyChain
  rw [bind_eq_ok]
  simp only [foldlM_decode hsnap, foldlM_decode hdelta, List.foldlM_pure]
  constructor
  · rintro ⟨st₁, ⟨snaps, hsnaps, hfold⟩, deltas, hdeltas, h⟩
    obtain ⟨hagree, rfl⟩ := (foldlM_addSnapshotMap (ordered_of_forall₂ hsnaps)).1 hfold
    cases h
    exact ⟨snaps, deltas, ⟨hsnaps, hdeltas⟩, hagree, hstate hagree (ordered_of_forall₂ hdeltas)⟩
  · rintro ⟨snaps, deltas, ⟨hsnaps, hdeltas⟩, hagree, rfl⟩
    refine ⟨_, ⟨snaps, hsnaps, (foldlM_addSnapshotMap (ordered_of_forall₂ hsnaps)).2
      ⟨hagree, rfl⟩⟩, deltas, hdeltas, ?_⟩
    rw [hstate hagree (ordered_of_forall₂ hdeltas)]
    rfl

theorem chainPageSize_ne (hne : snaps ≠ []) (hord : ∀ m ∈ snaps, m.Ordered) :
    chainPageSize snaps ≠ 0 := by
  obtain ⟨m, snaps, rfl⟩ := List.exists_cons_of_ne_nil hne
  have hm := (hord m (by simp)).pageSize_ne
  simp [chainPageSize, firstNonzero, hm]

/-- What `mergeChain` returns for a chosen chain. -/
def mergedOf (decoded : List (Header × Bytes)) (sel : Selection) (snaps deltas : List PageMap) :
    Merged where
  pageSize := chainPageSize snaps
  commit := chainCommit snaps deltas
  epoch := chainEpoch decoded
  watermark := sel.watermark
  pages := imagePages (chainImage snaps deltas) (chainCommit snaps deltas)

theorem mergeChain_eq_ok_iff {r : Merged} :
    mergeChain segments = .ok r ↔ ∃ decoded sel snaps deltas,
      decodeSegments 0 segments = .ok decoded ∧ selectChain (decoded.map (·.1)) = .ok sel ∧
      ChosenMaps decoded sel snaps deltas ∧ Materializable snaps deltas ∧
      r = mergedOf decoded sel snaps deltas := by
  unfold mergeChain
  simp only [bind_eq_ok, applyChain_eq_ok]
  constructor
  · rintro ⟨decoded, hdec, sel, hsel, st, ⟨snaps, deltas, hmaps, hagree, rfl⟩, h⟩
    split at h
    · cases h
    next hzero =>
      rw [bind_eq_ok] at h
      obtain ⟨pages, hpages, h⟩ := h
      obtain ⟨hwrap, hall, rfl⟩ := collectPages_eq_ok.1 hpages
      cases h
      exact ⟨decoded, sel, snaps, deltas, hdec, hsel, hmaps,
        ⟨hagree, (not_or.1 hzero).1, hwrap, hall⟩, rfl⟩
  · rintro ⟨decoded, sel, snaps, deltas, hdec, hsel, hmaps, ⟨hagree, hne, hwrap, hall⟩, rfl⟩
    have hsnaps : snaps ≠ [] := by
      rintro rfl
      exact selectChain_snapshots_ne_nil hsel (List.forall₂_nil_right_iff.1 hmaps.1)
    have hsize := chainPageSize_ne hsnaps (ordered_of_forall₂ hmaps.1)
    refine ⟨decoded, hdec, sel, hsel, _, ⟨snaps, deltas, hmaps, hagree, rfl⟩, ?_⟩
    rw [if_neg (not_or.2 ⟨hne, hsize⟩), collectPages_eq_ok.2 ⟨hwrap, hall, rfl⟩]
    rfl

theorem forall₂_maps_unique {is : List Nat} {maps' : List PageMap}
    (h : MappedAt decoded is maps) (h' : MappedAt decoded is maps') : maps = maps' :=
  List.right_unique_forall₂' (fun _ _ _ hm hm' => Except.ok.inj (hm.symm.trans hm')) h h'

theorem ChosenMaps.unique {snaps' deltas deltas' : List PageMap}
    (h : ChosenMaps decoded sel snaps deltas) (h' : ChosenMaps decoded sel snaps' deltas') :
    snaps = snaps' ∧ deltas = deltas' :=
  ⟨forall₂_maps_unique h.1 h'.1, forall₂_maps_unique h.2 h'.2⟩

theorem mergeChain_of_chosen {deltas : List PageMap}
    (hdec : decodeSegments 0 segments = .ok decoded)
    (hsel : selectChain (decoded.map (·.1)) = .ok sel) (hmaps : ChosenMaps decoded sel snaps deltas)
    {r : Merged} : mergeChain segments = .ok r ↔
      Materializable snaps deltas ∧ r = mergedOf decoded sel snaps deltas := by
  rw [mergeChain_eq_ok_iff]
  constructor
  · rintro ⟨decoded', sel', snaps', deltas', hdec', hsel', hmaps', hmat, rfl⟩
    rw [hdec, Except.ok.injEq] at hdec'
    subst hdec'
    rw [hsel, Except.ok.injEq] at hsel'
    subst hsel'
    obtain ⟨rfl, rfl⟩ := hmaps.unique hmaps'
    exact ⟨hmat, rfl⟩
  · rintro ⟨hmat, rfl⟩
    exact ⟨decoded, sel, snaps, deltas, hdec, hsel, hmaps, hmat, rfl⟩

/-! ## A small chain -/

/-- A snapshot of two one-byte pages at transaction 1. -/
def twoPageSnapshot : Bytes :=
  encode (compactHeader 1 1)
    [87, 65, 76, 50, 0, 0, 0, 1, 0, 0, 0, 2, 0, 0, 0, 1, 0, 0, 0, 2, 0, 0, 0, 1, 7, 0, 0, 0, 2, 8]

/-- Transaction 2 leaves one page. -/
def shrinkingDelta : Bytes :=
  encode { compactHeader 1 2 with kind := kindDelta }
    [87, 65, 76, 50, 0, 0, 0, 1, 0, 0, 0, 1, 0, 0, 0, 1, 0, 0, 0, 1, 0, 0, 0, 1, 9]

end CellHive.Restore
