import CellHive.Ltx.PageMapLookup
import CellHive.Ltx.PageMapRoundTrip
import CellHive.Ltx.Transactions
import CellHive.Util.Overlay

/-!
# What the page map of transactions holds

The page map of a list of transactions holds, for every page, its newest version among
their frames, and the page count of the last commit.
-/

namespace CellHive.Ltx

open Go Overlay

def WALFrame.layer (f : WALFrame) (p : UInt32) : Option Bytes :=
  if p = f.pageNo then some f.data else none

def lookupPage (pages : List WALPage) (p : UInt32) : Option Bytes :=
  (pages.find? (·.pageNo = p)).map (·.data)

section Put

variable {pages : List WALPage} {page : WALPage}

theorem lookupPage_cons (p : UInt32) :
    lookupPage (page :: pages) p =
      if page.pageNo = p then some page.data else lookupPage pages p := by
  unfold lookupPage
  by_cases h : page.pageNo = p
  · simp [h]
  · simp [h]

theorem lookupPage_append (more : List WALPage) (p : UInt32) :
    lookupPage (pages ++ more) p = (lookupPage pages p).or (lookupPage more p) := by
  unfold lookupPage
  rw [List.find?_append, Option.map_or]

variable {p : UInt32}

theorem lookupPage_eq_none (h : ¬ pages.any (·.pageNo = p)) : lookupPage pages p = none := by
  unfold lookupPage
  rw [Option.map_eq_none_iff, List.find?_eq_none]
  intro q hq hno
  exact h (List.any_eq_true.2 ⟨q, hq, hno⟩)

def replacePage (page q : WALPage) : WALPage :=
  if q.pageNo = page.pageNo then { q with data := page.data } else q

theorem pageNo_replacePage (q : WALPage) : (replacePage page q).pageNo = q.pageNo := by
  unfold replacePage
  split <;> rfl

theorem lookupPage_replace_ne (h : p ≠ page.pageNo) :
    lookupPage (pages.map (replacePage page)) p = lookupPage pages p := by
  induction pages with
  | nil => rfl
  | cons q pages ih =>
    rw [List.map_cons, lookupPage_cons, lookupPage_cons, pageNo_replacePage, ih]
    by_cases hq : q.pageNo = p
    · have hkeep : replacePage page q = q := by
        rw [replacePage, if_neg]
        rwa [hq]
      rw [hkeep]
    · rw [if_neg hq, if_neg hq]

theorem lookupPage_replace_self (h : pages.any (·.pageNo = page.pageNo)) :
    lookupPage (pages.map (replacePage page)) page.pageNo = some page.data := by
  induction pages with
  | nil => cases h
  | cons q pages ih =>
    rw [List.map_cons, lookupPage_cons, pageNo_replacePage]
    by_cases hq : q.pageNo = page.pageNo
    · rw [if_pos hq, replacePage, if_pos hq]
    · rw [if_neg hq]
      apply ih
      rw [List.any_cons, Bool.or_eq_true] at h
      exact h.resolve_left fun hq' => hq (of_decide_eq_true hq')

theorem lookupPage_putPage (p : UInt32) :
    lookupPage (putPage pages page) p =
      if p = page.pageNo then some page.data else lookupPage pages p := by
  unfold putPage
  split
  next h =>
    by_cases hp : p = page.pageNo
    · rw [if_pos hp, hp]
      exact lookupPage_replace_self h
    · rw [if_neg hp]
      exact lookupPage_replace_ne hp
  next h =>
    rw [lookupPage_append, lookupPage_cons]
    by_cases hp : p = page.pageNo
    · rw [if_pos hp, hp, lookupPage_eq_none h, if_pos rfl]
      rfl
    · rw [if_neg hp, if_neg (Ne.symm hp)]
      exact Option.or_none

def Distinct (pages : List WALPage) : Prop := (pages.map (·.pageNo)).Nodup

theorem distinct_putPage (h : Distinct pages) : Distinct (putPage pages page) := by
  unfold putPage
  split
  · have hsame : (pages.map (replacePage page)).map (·.pageNo) = pages.map (·.pageNo) := by
      rw [List.map_map]
      exact List.map_congr_left fun q _ => pageNo_replacePage q
    exact (congrArg List.Nodup hsame).mpr h
  next hnew =>
    unfold Distinct
    rw [List.map_append, List.nodup_append]
    refine ⟨h, List.nodup_singleton _, ?_⟩
    rintro a ha b hb rfl
    obtain ⟨q, hq, hqa⟩ := List.mem_map.1 ha
    rw [List.map_singleton, List.mem_singleton] at hb
    exact hnew (List.any_eq_true.2 ⟨q, hq, decide_eq_true (hqa.trans hb)⟩)

theorem length_putPage_le : (putPage pages page).length ≤ pages.length + 1 := by
  unfold putPage
  split
  · rw [List.length_map]
    omega
  · simp

theorem lookupPage_eq_some (h : Distinct pages) {data : Bytes} :
    lookupPage pages p = some data ↔ ⟨p, data⟩ ∈ pages := by
  induction pages with
  | nil => simp [lookupPage]
  | cons q pages ih =>
    obtain ⟨hhead, htail⟩ := List.nodup_cons.1 h
    rw [lookupPage_cons, List.mem_cons]
    by_cases hq : q.pageNo = p
    · subst hq
      rw [if_pos rfl, Option.some.injEq]
      constructor
      · rintro rfl
        exact .inl rfl
      · rintro (heq | hin)
        · rw [← heq]
        · exact absurd (List.mem_map.2 ⟨_, hin, rfl⟩) hhead
    · rw [if_neg hq, ih htail]
      constructor
      · exact Or.inr
      · rintro (heq | hin)
        · exact absurd (by rw [← heq]) hq
        · exact hin

theorem lookupPage_perm {pages' : List WALPage} (h : Distinct pages) (hperm : pages.Perm pages')
    (p : UInt32) : lookupPage pages p = lookupPage pages' p := by
  have h' : Distinct pages' := (hperm.map _).nodup_iff.1 h
  apply Option.ext
  intro data
  rw [lookupPage_eq_some h, lookupPage_eq_some h', hperm.mem_iff]

end Put

/-! ## Frames and transactions -/

def commitOf (n : UInt32) (frames : List WALFrame) : UInt32 :=
  frames.foldl (fun n f => if f.dbSize = 0 then n else f.dbSize) n

def putFrames (pages : List WALPage) (frames : List WALFrame) : List WALPage :=
  frames.foldl (fun pages f => putPage pages ⟨f.pageNo, f.data⟩) pages

section Frames

variable {pageSize : UInt32} {acc acc' : UInt32 × List WALPage}
  {pages : List WALPage} {frames : List WALFrame} {txs : List WALTransaction}

theorem addFrames_eq_ok {ti : Nat} (h : addFrames pageSize ti acc frames = .ok acc') :
    acc' = (commitOf acc.1 frames, putFrames acc.2 frames) := by
  induction frames generalizing acc with
  | nil =>
    cases h
    rfl
  | cons f frames ih =>
    obtain ⟨-, h⟩ := guard_eq_ok h
    exact ih h

theorem addTransactions_eq_ok {ti : Nat} (h : addTransactions pageSize ti acc txs = .ok acc') :
    acc' = (commitOf acc.1 (txs.flatMap (·.frames)), putFrames acc.2 (txs.flatMap (·.frames))) := by
  induction txs generalizing ti acc with
  | nil =>
    cases h
    rfl
  | cons tx txs ih =>
    rw [addTransactions] at h
    split at h
    · cases h
    obtain ⟨-, h⟩ := guard_eq_ok h
    obtain ⟨mid, hmid, hrest⟩ := bind_eq_ok.1 h
    rw [ih hrest, addFrames_eq_ok hmid, List.flatMap_cons]
    unfold commitOf putFrames
    rw [List.foldl_append, List.foldl_append]

theorem lookupPage_putFrames (pages : List WALPage) (frames : List WALFrame) (p : UInt32) :
    lookupPage (putFrames pages frames) p =
      (overlay (frames.map WALFrame.layer) p).or (lookupPage pages p) := by
  induction frames generalizing pages with
  | nil => rfl
  | cons f frames ih =>
    have hcons : putFrames pages (f :: frames) =
        putFrames (putPage pages ⟨f.pageNo, f.data⟩) frames := rfl
    rw [hcons, ih, lookupPage_putPage, List.map_cons, overlay_cons, Option.or_assoc, WALFrame.layer]
    by_cases hp : p = f.pageNo
    · rw [if_pos hp, if_pos hp]
      rfl
    · rw [if_neg hp, if_neg hp]
      rfl

theorem distinct_putFrames (h : Distinct pages) (frames : List WALFrame) :
    Distinct (putFrames pages frames) := by
  induction frames generalizing pages with
  | nil => exact h
  | cons f frames ih => exact ih (distinct_putPage h)

theorem length_putFrames_le (pages : List WALPage) (frames : List WALFrame) :
    (putFrames pages frames).length ≤ pages.length + frames.length := by
  induction frames generalizing pages with
  | nil => exact le_rfl
  | cons f frames ih =>
    have hstep := ih (putPage pages ⟨f.pageNo, f.data⟩)
    have hput := @length_putPage_le pages ⟨f.pageNo, f.data⟩
    have hcons : putFrames pages (f :: frames) =
        putFrames (putPage pages ⟨f.pageNo, f.data⟩) frames := rfl
    rw [hcons, List.length_cons]
    omega

theorem pageMapFromTransactions_eq_ok {commit : UInt32}
    (h : pageMapFromTransactions pageSize txs = .ok (commit, pages)) :
    commit = commitOf 0 (txs.flatMap (·.frames)) ∧
      (∀ p, lookupPage pages p = overlay ((txs.flatMap (·.frames)).map WALFrame.layer) p) ∧
      pages.length ≤ (txs.flatMap (·.frames)).length := by
  obtain ⟨-, h⟩ := guard_eq_ok h
  obtain ⟨-, h⟩ := guard_eq_ok h
  obtain ⟨acc, hacc, hres⟩ := bind_eq_ok.1 h
  cases hres
  rw [addTransactions_eq_ok hacc]
  have hnil : Distinct [] := List.nodup_nil
  have hdistinct : Distinct (putFrames [] (txs.flatMap (·.frames))) := distinct_putFrames hnil _
  have hperm := List.perm_insertionSort (fun a b : WALPage => a.pageNo ≤ b.pageNo)
    (putFrames [] (txs.flatMap (·.frames)))
  refine ⟨rfl, fun p => ?_, ?_⟩
  · rw [← lookupPage_perm hdistinct hperm.symm, lookupPage_putFrames]
    exact Option.or_none
  · rw [hperm.length_eq]
    have hle := length_putFrames_le [] (txs.flatMap (·.frames))
    rwa [List.length_nil, Nat.zero_add] at hle

theorem distinct_pageMapFromTransactions {commit : UInt32}
    (h : pageMapFromTransactions pageSize txs = .ok (commit, pages)) : Distinct pages := by
  obtain ⟨-, h⟩ := guard_eq_ok h
  obtain ⟨-, h⟩ := guard_eq_ok h
  obtain ⟨acc, hacc, hres⟩ := bind_eq_ok.1 h
  cases hres
  rw [addTransactions_eq_ok hacc]
  have hnil : Distinct [] := List.nodup_nil
  have hperm := List.perm_insertionSort (fun a b : WALPage => a.pageNo ≤ b.pageNo)
    (putFrames [] (txs.flatMap (·.frames)))
  exact (hperm.map _).nodup_iff.2 (distinct_putFrames hnil _)

/-! ## Transactions that are encoded -/

theorem addFrames_ok (ti : Nat) (h : ∀ f ∈ frames, f.data.length = pageSize.toNat)
    (acc : UInt32 × List WALPage) :
    addFrames pageSize ti acc frames = .ok (commitOf acc.1 frames, putFrames acc.2 frames) := by
  induction frames generalizing acc with
  | nil => rfl
  | cons f frames ih =>
    have hf := h f List.mem_cons_self
    rw [addFrames, if_neg fun hne => hne hf, ih fun f hf => h f (List.mem_cons_of_mem _ hf)]
    rfl

/-- A transaction the page map accepts: pages of the size, and a commit at the end. -/
structure WALTransaction.Ok (pageSize : UInt32) (tx : WALTransaction) : Prop where
  sized : ∀ f ∈ tx.frames, f.data.length = pageSize.toNat
  commits : ∃ last, tx.frames.getLast? = some last ∧ last.dbSize ≠ 0

theorem addTransactions_ok (ti : Nat) (h : ∀ tx ∈ txs, tx.Ok pageSize)
    (acc : UInt32 × List WALPage) : ∃ acc', addTransactions pageSize ti acc txs = .ok acc' := by
  induction txs generalizing ti acc with
  | nil => exact ⟨acc, rfl⟩
  | cons tx txs ih =>
    obtain ⟨hsized, last, hlast, hcommit⟩ := h tx List.mem_cons_self
    obtain ⟨acc', hrest⟩ := ih (ti + 1) (fun tx htx => h tx (List.mem_cons_of_mem _ htx))
      (commitOf acc.1 tx.frames, putFrames acc.2 tx.frames)
    refine ⟨acc', ?_⟩
    rw [addTransactions, hlast]
    dsimp only
    rw [if_neg hcommit, addFrames_ok ti hsized, ok_bind, hrest]

theorem sized_putPage {page : WALPage} {n : Nat}
    (h : ∀ q ∈ pages, q.data.length = n) (hpage : page.data.length = n) :
    ∀ q ∈ putPage pages page, q.data.length = n := by
  unfold putPage
  split
  · intro q hq
    obtain ⟨q', hq', rfl⟩ := List.mem_map.1 hq
    split
    · exact hpage
    · exact h q' hq'
  · intro q hq
    rcases List.mem_append.1 hq with hq | hq
    · exact h q hq
    · rw [List.mem_singleton.1 hq]
      exact hpage

theorem sized_putFrames {n : Nat} (h : ∀ q ∈ pages, q.data.length = n)
    (hframes : ∀ f ∈ frames, f.data.length = n) :
    ∀ q ∈ putFrames pages frames, q.data.length = n := by
  induction frames generalizing pages with
  | nil => exact h
  | cons f frames ih =>
    exact ih (sized_putPage h (hframes f List.mem_cons_self))
      fun f hf => hframes f (List.mem_cons_of_mem _ hf)

theorem ascending_sorted (h : Distinct pages) :
    (pages.insertionSort fun a b => a.pageNo ≤ b.pageNo).Pairwise (·.pageNo < ·.pageNo) := by
  have hsorted := List.pairwise_insertionSort (fun a b : WALPage => a.pageNo ≤ b.pageNo) pages
  have hperm := List.perm_insertionSort (fun a b : WALPage => a.pageNo ≤ b.pageNo) pages
  have hdistinct : Distinct (pages.insertionSort fun a b => a.pageNo ≤ b.pageNo) :=
    (hperm.map _).nodup_iff.2 h
  refine (hsorted.and (List.pairwise_map.1 hdistinct)).imp ?_
  rintro a b ⟨hle, hne⟩
  exact UInt32.lt_of_le_of_ne hle hne

theorem exists_encodeWALPageMap (compress : Bool) (hsize : pageSize ≠ 0) (hne : txs ≠ [])
    (h : ∀ tx ∈ txs, tx.Ok pageSize) :
    ∃ commit pages payload, pageMapFromTransactions pageSize txs = .ok (commit, pages) ∧
      encodeWALPageMap compress pageSize commit txs.length pages = .ok payload := by
  obtain ⟨acc, hacc⟩ := addTransactions_ok 0 h (0, [])
  have hframes : ∀ f ∈ txs.flatMap (·.frames), f.data.length = pageSize.toNat := by
    intro f hf
    obtain ⟨tx, htx, hftx⟩ := List.mem_flatMap.1 hf
    exact (h tx htx).sized f hftx
  have hnil : Distinct [] := List.nodup_nil
  have hasc := ascending_sorted (distinct_putFrames hnil (txs.flatMap (·.frames)))
  have hsized : ∀ q ∈ (putFrames [] (txs.flatMap (·.frames))).insertionSort
      (fun a b => a.pageNo ≤ b.pageNo), q.data.length = pageSize.toNat := by
    intro q hq
    have hnone : ∀ q ∈ ([] : List WALPage), q.data.length = pageSize.toNat :=
      fun q hq => absurd hq List.not_mem_nil
    exact sized_putFrames hnone hframes q ((List.mem_insertionSort _).1 hq)
  have hseen : ∀ q ∈ (putFrames [] (txs.flatMap (·.frames))).insertionSort
      (fun a b => a.pageNo ≤ b.pageNo), notAbove none q.pageNo = false := fun _ _ => rfl
  have hcheck := checkPages_ok hsized hasc hseen
  have hcount : txs.length ≠ 0 := fun h0 => hne (List.length_eq_zero_iff.1 h0)
  have hmap : pageMapFromTransactions pageSize txs = .ok (commitOf 0 (txs.flatMap (·.frames)),
      (putFrames [] (txs.flatMap (·.frames))).insertionSort fun a b => a.pageNo ≤ b.pageNo) := by
    unfold pageMapFromTransactions
    rw [if_neg hsize, if_neg hne, hacc, addTransactions_eq_ok hacc]
    rfl
  obtain ⟨payload, hpayload⟩ := encodeWALPageMap_ok compress (commitOf 0 (txs.flatMap (·.frames)))
    hsize hcount hcheck
  exact ⟨_, _, payload, hmap, hpayload⟩

end Frames

end CellHive.Ltx
