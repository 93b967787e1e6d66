import CellHive.CellStore.Paged
import Mathlib.Tactic.FinCases

/-!
# Reopening a paged cache

A marker that says the cache was closed names the transaction the file is at, with nothing left in
the log; without a marker the file is the whole image. Each step of an operation keeps this, so a
crash in the middle of one does, as long as the marker it leaves reads as a marker.
-/

namespace CellHive.CellStore.Paged

open Go

variable {β : Type} {img : Nat → Nat → Option β}

/-! ## What is on disk -/

/-- The marker does not say that the cache was closed. -/
def Disk.NotClean (d : Disk β) : Prop :=
  ∀ text m, d.marker = some text → readPagedMarker text = some m → m.clean = false

variable (img) in
structure Disk.Sound (d : Disk β) : Prop where
  tx : d.tx < 2 ^ 64
  closed : ∀ text m, d.marker = some text → readPagedMarker text = some m → m.clean = true →
    m.txid = d.tx ∧ ∀ p, d.wal p = none
  absent : d.pages = none → ∀ p, d.wal p = none
  whole : d.marker = none → ∀ f, d.pages = some f → ∀ p x, img d.tx p = some x →
    (d.wal p).getD (f p) = some x

/-- What a step needs to keep the disk sound. -/
def FsOp.Ok (d : Disk β) : FsOp → Prop
  | .writeMarker m => m.Fits ∧ (m.clean = true → m.txid = d.tx ∧ ∀ p, d.wal p = none)
  | .removeMarker => d.pages = none
  | .resize _ cut => cut < 2 ^ 64 ∧ d.marker ≠ none ∧ d.NotClean
  | .removeFile => ∀ p, d.wal p = none
  | .removeWal => d.marker ≠ none ∨ ∀ f p v, d.pages = some f → d.wal p = some v → f p = v
  | .backfill => True
  | .restore tx => tx < 2 ^ 64 ∧ d.NotClean ∧ ∀ p, d.wal p = none

variable {d : Disk β}

theorem clean_of_text_take {m m' : Marker} {n : Nat} (hm : m.Fits)
    (h : readPagedMarker (m.text.take n) = some m') (hclean : m'.clean = true) : m' = m := by
  rcases Nat.lt_or_ge n m.text.length with hlt | hge
  · rw [not_clean_of_torn hlt h] at hclean
    cases hclean
  · rw [List.take_of_length_le hge, readPagedMarker_text hm] at h
    split at h
    · cases h
    · exact (Option.some.inj h).symm

theorem Disk.Sound.setMarker {m : Marker} (h : d.Sound img)
    (hop : FsOp.Ok d (.writeMarker m)) (n : Nat) :
    Disk.Sound img { d with marker := some (m.text.take n) } where
  tx := h.tx
  closed text m' htext hread hclean := by
    obtain rfl := Option.some.inj htext
    obtain rfl := clean_of_text_take hop.1 hread hclean
    exact hop.2 hclean
  absent := h.absent
  whole hnone := nomatch hnone

theorem Disk.Sound.exec {op : FsOp} (h : d.Sound img) (hop : op.Ok d) :
    (d.exec img op).Sound img := by
  cases op with
  | writeMarker m => simpa [Disk.exec] using h.setMarker hop m.text.length
  | removeMarker =>
    exact ⟨h.tx, fun _ _ => nofun, h.absent,
      fun _ f hf => absurd (hop.symm.trans hf) (by simp)⟩
  | resize commit cut =>
    refine ⟨hop.1, fun text m htext hread hclean => ?_, nofun,
      fun hnone => absurd hnone hop.2.1⟩
    rw [hop.2.2 text m htext hread] at hclean
    cases hclean
  | removeFile => exact ⟨h.tx, h.closed, fun _ => hop, fun _ _ => nofun⟩
  | removeWal =>
    refine ⟨h.tx, fun text m htext hread hclean => ⟨(h.closed text m htext hread hclean).1, ?_⟩,
      fun _ _ => rfl, fun hnone f hf p x hx => ?_⟩
    · exact fun _ => rfl
    have hview := h.whole hnone f hf p x hx
    rcases hop with hmarker | hcopied
    · exact absurd hnone hmarker
    change f p = some x
    cases hp : d.wal p with
    | none => simpa [hp] using hview
    | some v =>
      rw [hcopied f p v hf hp]
      simpa [hp] using hview
  | backfill =>
    refine ⟨h.tx, h.closed, fun hnone => h.absent (Option.map_eq_none_iff.1 hnone),
      fun hnone f hf p x hx => ?_⟩
    obtain ⟨f, hpages, rfl⟩ := Option.map_eq_some_iff.1 hf
    have hview := h.whole hnone f hpages p x hx
    change (d.wal p).getD ((d.wal p).getD (f p)) = some x
    cases hp : d.wal p <;> simpa [hp] using hview
  | restore tx =>
    refine ⟨hop.1, fun text m htext hread hclean => ?_, nofun,
      fun _ f hf p x hx => ?_⟩
    · rw [hop.2.1 text m htext hread] at hclean
      cases hclean
    · obtain rfl := Option.some.inj hf
      change (d.wal p).getD (img tx p) = some x
      rw [hop.2.2 p]
      exact hx

/-- Each step finds what it needs. -/
def Good (img : Nat → Nat → Option β) : Disk β → List FsOp → Prop
  | _, [] => True
  | d, op :: ops => op.Ok d ∧ Good img (d.exec img op) ops

variable {ops : List FsOp} {durable p : Nat} {o : Opening img} {a : Action img}

theorem Disk.Sound.foldl (h : d.Sound img) (hops : Good img d ops) :
    (ops.foldl (Disk.exec img) d).Sound img := by
  induction ops generalizing d with
  | nil => exact h
  | cons op ops ih => exact ih (h.exec hops.1) hops.2

theorem Disk.Sound.crash (h : d.Sound img) (hops : Good img d ops) (k n : Nat) :
    (d.crash img ops k n).Sound img := by
  induction ops generalizing d k with
  | nil => cases k <;> exact h
  | cons op ops ih =>
    cases k with
    | zero =>
      cases op with
      | writeMarker m => exact h.setMarker hops.1 n
      | _ => exact h
    | succ k => exact ih (h.exec hops.1) hops.2 k

/-! ## What an open does -/

/-- The step leaves the file at its transaction or brings it to that of the source. -/
def FsOp.Moves (cut : Nat) : FsOp → Prop
  | .resize _ c => c = cut
  | .restore _ => False
  | _ => True

theorem Disk.tx_foldl {cut : Nat} (hops : ∀ op ∈ ops, op.Moves cut) :
    (ops.foldl (Disk.exec img) d).tx = d.tx ∨ (ops.foldl (Disk.exec img) d).tx = cut := by
  induction ops generalizing d with
  | nil => exact .inl rfl
  | cons op ops ih =>
    have hop := hops op List.mem_cons_self
    rcases ih fun op hop => hops op (List.mem_cons_of_mem _ hop) with htx | htx
    · rw [List.foldl_cons, htx]
      cases op with
      | resize commit c => exact .inr hop
      | restore tx => exact hop.elim
      | _ => exact .inl rfl
    · exact .inr htx

variable {src : Source img}

/-- The marker that is written before the file is registered. -/
def Source.dirty (src : Source img) : Marker := ⟨src.pageSize, src.commit, src.txid, false⟩

theorem Source.dirty_fits (hcut : src.cut < 2 ^ 64) : src.dirty.Fits :=
  ⟨src.pageSize_lt, src.commit_lt, by simp only [Source.dirty, Source.txid]; split <;> omega⟩

/-- The marker of the source is written, and there is no log to be mixed with its pages. -/
structure Primed (src : Source img) (d : Disk β) : Prop where
  marker : d.marker = some src.dirty.text
  wal : ∀ p, d.wal p = none

namespace Primed

theorem notClean (h : Primed src d) (hcut : src.cut < 2 ^ 64) : d.NotClean := by
  intro text m htext hread
  obtain rfl := Option.some.inj (h.marker.symm.trans htext)
  rw [readPagedMarker_text (Source.dirty_fits hcut)] at hread
  split at hread
  · cases hread
  · obtain rfl := Option.some.inj hread
    rfl

theorem prepare (rest : List FsOp) {ops : List FsOp} (h : Primed src d)
    (hcut : src.cut < 2 ^ 64) (hops : ∀ op ∈ ops, op = .resize src.commit src.cut ∨ op = .removeWal)
    (hrest : ∀ d, Primed src d → Good img d rest) :
    Good img d (ops ++ rest) ∧ Primed src (ops.foldl (Disk.exec img) d) := by
  induction ops generalizing d with
  | nil => exact ⟨hrest d h, h⟩
  | cons op ops ih =>
    have hmarker : d.marker ≠ none := by simp [h.marker]
    have hih := fun d' (h' : Primed src d') =>
      ih h' fun op hop => hops op (List.mem_cons_of_mem _ hop)
    rcases hops op List.mem_cons_self with rfl | rfl
    · have hnext := hih (d.exec img (.resize src.commit src.cut)) ⟨h.marker, h.wal⟩
      exact ⟨⟨⟨hcut, hmarker, h.notClean hcut⟩, hnext.1⟩, hnext.2⟩
    · have hnext := hih (d.exec img .removeWal) ⟨h.marker, fun _ => rfl⟩
      exact ⟨⟨.inl hmarker, hnext.1⟩, hnext.2⟩

end Primed

/-- A disk on which a registered cell can be opened. -/
structure Attached (src : Source img) (d : Disk β) : Prop extends Primed src d where
  pages : d.pages.isSome
  legible : d.Legible

/-- What the open of a paged cell comes to: an error with the file set removed, or a cell. -/
def AttachSpec (src : Source img) (d : Disk β) (r : List FsOp × Option (Handle img)) : Prop :=
  Good img d r.1 ∧ (∀ op ∈ r.1, op.Moves src.cut) ∧
    ((r.2 = none ∧ (r.1.foldl (Disk.exec img) d).marker = none) ∨
      (r.2 = some { source := some src } ∧ Attached src (r.1.foldl (Disk.exec img) d)))

theorem attach_spec (hwal : ∀ p, d.wal p = none) (hcut : src.cut < 2 ^ 64) (reuse : Bool)
    (hreuse : reuse = true → d.pages.isSome) (failAt : Option Nat) :
    AttachSpec src d (attach src reuse failAt) := by
  have hdirty : FsOp.Ok d (.writeMarker src.dirty) := ⟨Source.dirty_fits hcut, nofun⟩
  have hprimed : Primed src (d.exec img (.writeMarker src.dirty)) := ⟨rfl, hwal⟩
  let prepare : List FsOp := if reuse then [] else [.resize src.commit src.cut, .removeWal]
  have hprepare : ∀ op ∈ prepare, op = .resize src.commit src.cut ∨ op = .removeWal := by
    cases reuse <;> simp [prepare]
  have hfail : ∀ ops, (∀ op ∈ ops, op = .resize src.commit src.cut ∨ op = .removeWal) →
      AttachSpec src d (.writeMarker src.dirty :: (ops ++ removeCellFileSet), none) := by
    intro ops hops
    refine ⟨⟨hdirty, (hprimed.prepare _ hcut hops fun _ h => ?_).1⟩, ?_,
      .inl ⟨rfl, by simp [removeCellFileSet, Disk.exec]⟩⟩
    · simp [removeCellFileSet, Good, FsOp.Ok, Disk.exec, h.wal, h.marker]
    intro op hop
    simp only [removeCellFileSet, List.mem_cons, List.mem_append] at hop
    rcases hop with rfl | hop | rfl | rfl | rfl | hop
    · trivial
    · rcases hops op hop with rfl | rfl <;> simp [FsOp.Moves]
    all_goals trivial
  unfold attach
  cases failAt with
  | some k => exact hfail _ fun op hop => hprepare op (List.mem_of_mem_take hop)
  | none =>
    dsimp only
    split
    · exact hfail _ hprepare
    next hsize =>
    obtain ⟨hgood, hdone⟩ := hprimed.prepare [] hcut hprepare fun _ _ => trivial
    rw [List.append_nil] at hgood
    refine ⟨⟨hdirty, hgood⟩, ?_, .inr ⟨rfl, ⟨hdone, ?_, fun text htext => ?_⟩⟩⟩
    · cases reuse <;> simp [FsOp.Moves]
    · cases reuse with
      | true => exact hreuse rfl
      | false => rfl
    · obtain rfl := Option.some.inj (hdone.marker.symm.trans htext)
      rw [readPagedMarker_text (Source.dirty_fits hcut)]
      split
      · next hzero => exact absurd hzero hsize
      · rfl

/-- What an open comes to. A file that is there is left alone, or brought to a transaction that is
not older. -/
structure OpenSpec (d : Disk β) (durable : Nat) (r : List FsOp × Option (Handle img)) : Prop where
  good : Good img d r.1
  keeps : d.pages.isSome → (r.1 = [] ∧ ∀ h, r.2 = some h → h.source = none) ∨
    ∃ src : Source img, d.tx ≤ src.cut ∧ src.cut ≤ durable ∧ (∀ op ∈ r.1, op.Moves src.cut) ∧
      ∀ h, r.2 = some h → h.source = some src
  legible : (r.1.foldl (Disk.exec img) d).Legible
  opened : ∀ h, r.2 = some h → (r.1.foldl (Disk.exec img) d).pages.isSome ∧
    ((h = {} ∧ (r.1.foldl (Disk.exec img) d).marker = none) ∨
      ∃ src : Source img, h = { source := some src } ∧ src.cut < 2 ^ 64 ∧
        Primed src (r.1.foldl (Disk.exec img) d))

theorem AttachSpec.openSpec {r : List FsOp × Option (Handle img)} (h : AttachSpec src d r)
    (hkeeps : d.pages.isSome → d.tx ≤ src.cut) (hcut : src.cut ≤ durable)
    (hdurable : durable < 2 ^ 64) : OpenSpec d durable r := by
  obtain ⟨hgood, hmoves, hresult⟩ := h
  refine ⟨hgood, fun hpages => .inr ⟨src, hkeeps hpages, hcut, hmoves, ?_⟩, ?_, ?_⟩
  · rintro h hr
    rcases hresult with ⟨hnone, -⟩ | ⟨hsome, -⟩
    · rw [hnone] at hr
      cases hr
    · rw [← Option.some.inj (hsome.symm.trans hr)]
  · rcases hresult with ⟨-, hmarker⟩ | ⟨-, hattached⟩
    · intro text htext
      rw [hmarker] at htext
      cases htext
    · exact hattached.legible
  · rintro h hr
    rcases hresult with ⟨hnone, -⟩ | ⟨hsome, hattached⟩
    · rw [hnone] at hr
      cases hr
    · exact ⟨hattached.pages, .inr ⟨src, (Option.some.inj (hsome.symm.trans hr)).symm,
        hcut.trans_lt hdurable, hattached.toPrimed⟩⟩

theorem OpenSpec.dropMarker {r : List FsOp × Option (Handle img)} (hpages : d.pages = none)
    (h : OpenSpec { d with marker := none } durable r) :
    OpenSpec d durable ((if d.marker.isSome then [FsOp.removeMarker] else []) ++ r.1, r.2) := by
  split
  · exact ⟨⟨hpages, h.good⟩, by simp [hpages], h.legible, h.opened⟩
  next hmarker =>
  have heq : { d with marker := none } = d := by
    rw [Option.not_isSome_iff_eq_none] at hmarker
    rw [← hmarker]
  rw [heq] at h
  exact h

theorem openCell_spec (hsound : d.Sound img) (hlegible : d.Legible) (hdurable : durable < 2 ^ 64)
    (hcut : ∀ src ∈ o.source, src.cut ≤ durable)
    (hreports : ∀ src, o.source = some src → 0 < src.txid) :
    OpenSpec d durable (openCell d durable o) := by
  have htxid : ∀ src, o.source = some src → src.txid = src.cut := fun src hsrc => by
    have := hreports src hsrc
    simp only [Source.txid] at this ⊢
    split at this <;> simp_all
  unfold openCell
  split
  · next hpages =>
    have hwal := hsound.absent hpages
    dsimp only
    split
    · next src hsrc =>
      have hle := hcut src hsrc
      have hattach := attach_spec (d := { d with marker := none }) hwal (hle.trans_lt hdurable)
        false nofun o.failAt
      exact (hattach.openSpec (by simp [hpages]) hle hdurable).dropMarker hpages
    · have hrestored : o.restored durable < 2 ^ 64 := by
        unfold Opening.restored
        split <;> omega
      refine OpenSpec.dropMarker (r := ([.restore (o.restored durable)], some {})) hpages
        ⟨⟨⟨hrestored, fun _ _ => nofun, hwal⟩, trivial⟩, by simp [hpages],
          fun _ => nofun, fun h hh => ⟨rfl, .inl ⟨(Option.some.inj hh).symm, rfl⟩⟩⟩
  · next f hpages hmarker =>
    refine ⟨trivial, fun _ => .inl ⟨rfl, ?_⟩, hlegible, ?_⟩
    · rintro h hh
      rw [← Option.some.inj hh]
    · rintro h hh
      exact ⟨by simp [hpages], .inl ⟨(Option.some.inj hh).symm, hmarker⟩⟩
  · next f text hpages hmarker =>
    split
    · next hread => exact absurd (hlegible text hmarker) (by simp [hread])
    next m hread =>
    have hrefused : OpenSpec d durable (([], none) : List FsOp × Option (Handle img)) :=
      ⟨trivial, fun _ => .inl ⟨rfl, nofun⟩, hlegible, nofun⟩
    split
    · exact hrefused
    next hclean =>
    obtain ⟨htx, hwal⟩ := hsound.closed text m hmarker hread (by simpa using hclean)
    split
    · exact hrefused
    next src hsrc =>
    have hpos := hreports src hsrc
    have heq := htxid src hsrc
    have hle := hcut src hsrc
    split
    · exact hrefused
    · next hnewer =>
      refine (attach_spec hwal (hle.trans_lt hdurable) _ (fun _ => by simp [hpages])
        o.failAt).openSpec (fun _ => ?_) hle hdurable
      omega

/-! ## Runs -/

structure Inv (s : State img) : Prop where
  sound : s.disk.Sound img
  legible : s.disk.Legible
  durable : s.durable < 2 ^ 64
  opened : ∀ h, s.cell = some h → s.disk.pages.isSome ∧ s.disk.NotClean
  pending : ∀ h src p, s.cell = some h → h.source = some src → h.pending p = true →
    0 < p ∧ p ≤ src.commit
  serves : Serves s

variable {s : State img} {h : Handle img}

theorem State.read_of_not_missing (hp : h.missing p = false) :
    s.read h p = (s.disk.wal p).getD (s.disk.pages.bind (· p)) := by
  unfold State.read
  split <;> simp [hp]

/-- An action on disk that leaves no cell open. -/
theorem Inv.stopped (hinv : Inv s) (hsound : d.Sound img) (hlegible : d.Legible) :
    Inv ({ s with disk := d, cell := none } : State img) :=
  ⟨hsound, hlegible, hinv.durable, nofun, nofun, nofun⟩

/-- A registered file is at the transaction of its source. -/
theorem Inv.attached (hinv : Inv s) (hsound : d.Sound img) (hlegible : d.Legible)
    (hpages : d.pages.isSome) (hcut : src.cut < 2 ^ 64) (hprimed : Primed src d) :
    Inv ({ s with
      disk := { d with tx := src.cut }
      cell := some { source := some src } } : State img) where
  sound := by
    refine ⟨hcut, fun text m htext hread hclean => ?_, hsound.absent, fun hnone => ?_⟩
    · rw [hprimed.notClean hcut text m htext hread] at hclean
      cases hclean
    · rw [hprimed.marker] at hnone
      cases hnone
  legible := hlegible
  durable := hinv.durable
  opened := fun _ _ => ⟨hpages, hprimed.notClean hcut⟩
  pending := by
    intro h _ p hh _ hp
    obtain rfl := Option.some.inj hh
    cases hp
  serves := by
    intro h hh p x hx
    obtain rfl := Option.some.inj hh
    have hmissing : Handle.missing ({ source := some src } : Handle img) p = true := by
      have hsize : ¬(p = 0 ∨ src.commit < p) := fun hout => by simp [src.size p hout] at hx
      simp only [Handle.missing, decide_eq_true_eq, and_true]
      omega
    simpa [State.read, hprimed.wal, hmissing] using hx

/-- A file without a marker is the whole image. -/
theorem Inv.plain (hinv : Inv s) (hsound : d.Sound img) (hlegible : d.Legible)
    (hpages : d.pages.isSome) (hmarker : d.marker = none) :
    Inv ({ s with disk := d, cell := some {} } : State img) where
  sound := hsound
  legible := hlegible
  durable := hinv.durable
  opened := fun _ _ => ⟨hpages, fun text m htext => by simp [hmarker] at htext⟩
  pending := by
    intro h _ p hh hsrc
    obtain rfl := Option.some.inj hh
    cases hsrc
  serves := by
    intro h hh p x hx
    obtain rfl := Option.some.inj hh
    obtain ⟨f, hf⟩ := Option.isSome_iff_exists.1 hpages
    rw [State.read_of_not_missing (by simp [Handle.missing])]
    simpa [hf] using hsound.whole hmarker f hf p x hx

theorem persistPagedTxID_cases (hsound : d.Sound img) (h : Handle img) (clean : Bool) :
    persistPagedTxID d h clean = [] ∨ ∃ m : Marker, persistPagedTxID d h clean = [.writeMarker m] ∧
      m.Fits ∧ m.txid = d.tx ∧ readPagedMarker m.text = some m ∧ m.clean = clean := by
  unfold persistPagedTxID
  split
  · next m _ hread =>
    obtain ⟨text, -, hread⟩ := Option.bind_eq_some_iff.1 hread
    obtain ⟨hfits, hps, hcm, -⟩ := readPagedMarker_spec hread
    have hfits' : Marker.Fits { m with txid := d.tx, clean := clean } :=
      ⟨hfits.pageSize, hfits.commit, hsound.tx⟩
    refine .inr ⟨_, rfl, hfits', rfl, ?_, rfl⟩
    rw [readPagedMarker_text hfits', if_neg (by simp [hps, hcm])]
  · exact .inl rfl

/-- The disk with the log copied to the file and reset. -/
def Disk.flushed (d : Disk β) : Disk β :=
  { d with pages := d.pages.map fun f p => (d.wal p).getD (f p), wal := fun _ => none }

theorem persist_spec (hsound : d.Sound img) (hlegible : d.Legible) (h : Handle img) (clean : Bool) :
    let ops := [.backfill, .removeWal] ++ persistPagedTxID d h clean
    Good img d ops ∧ ∃ marker, ops.foldl (Disk.exec img) d = { d.flushed with marker := marker } ∧
      Disk.Legible { d.flushed with marker := marker } ∧
      (clean = false → d.NotClean → Disk.NotClean { d.flushed with marker := marker }) := by
  have hflush : FsOp.Ok (d.exec img .backfill) .removeWal := by
    refine .inr fun f p v hf hv => ?_
    obtain ⟨f, -, rfl⟩ := Option.map_eq_some_iff.1 hf
    change d.wal p = some v at hv
    simp [hv]
  rcases persistPagedTxID_cases hsound h clean with heq | ⟨m, heq, hfits, htx, hread, hclean⟩
  · rw [heq]
    exact ⟨⟨trivial, hflush, trivial⟩, d.marker, rfl, hlegible, fun _ => id⟩
  rw [heq]
  refine ⟨⟨trivial, hflush, ⟨hfits, fun _ => ⟨htx, fun _ => rfl⟩⟩, trivial⟩, some m.text, rfl,
    ?_, ?_⟩
  · intro text htext
    rw [← Option.some.inj htext, hread]
    rfl
  · intro hdirty _ text m' htext hread'
    rw [← Option.some.inj htext, hread] at hread'
    rw [← Option.some.inj hread', hclean, hdirty]

/-- One page of the file is written, with what the image has unless the log has the page. -/
theorem Inv.setPage (hinv : Inv s) (hcell : s.cell = some h) {v : Option β} {b : Bool}
    {pending : Nat → Bool} (hpending : ∀ q, pending q = true → h.pending q = true)
    (hb : b = true ∨ (s.disk.wal p).isSome)
    (hv : ∀ x, img s.disk.tx p = some x → (s.disk.wal p).getD v = some x) : Inv { s with
      disk := { s.disk with pages := s.disk.pages.map (Function.update · p v) }
      cell := some { h with hydrated := Function.update h.hydrated p b, pending := pending } } := by
  obtain ⟨hpages, hclean⟩ := hinv.opened h hcell
  obtain ⟨f, hf⟩ := Option.isSome_iff_exists.1 hpages
  refine ⟨⟨hinv.sound.tx, hinv.sound.closed, fun hnone => ?_, fun hmarker f' hf' q x hx => ?_⟩,
    hinv.legible, hinv.durable, fun _ _ => ⟨by simp [hf], hclean⟩, ?_, ?_⟩
  · simp [hf] at hnone
  · obtain ⟨g, hg, rfl⟩ := Option.map_eq_some_iff.1 hf'
    by_cases hq : q = p
    · subst hq
      simpa using hv x hx
    · simpa [Function.update_of_ne hq] using hinv.sound.whole hmarker g hg q x hx
  · intro h' src q hh hsrc hq
    obtain rfl := Option.some.inj hh
    exact hinv.pending h src q hcell hsrc (hpending q hq)
  · intro h' hh q x hx
    obtain rfl := Option.some.inj hh
    by_cases hq : q = p
    · subst hq
      rcases hb with rfl | hwal
      · rw [State.read_of_not_missing (by simp only [Handle.missing]; split <;> simp)]
        simpa [hf] using hv x hx
      · obtain ⟨page, hpage⟩ := Option.isSome_iff_exists.1 hwal
        simpa [State.read, hpage] using hv x hx
    · have hread := hinv.serves h hcell q x hx
      simpa [State.read, Handle.missing, hf, Function.update_of_ne hq] using hread

/-- The step leaves the file where it is. -/
def FsOp.Stays : FsOp → Prop
  | .writeMarker _ | .removeWal | .backfill => True
  | _ => False

/-- The steps of an action keep the transactions of the file, or those of a state that has them. -/
def Kept (d : Disk β) (durable : Nat) (ops : List FsOp) : Prop :=
  (∃ cut, d.tx ≤ cut ∧ cut ≤ durable ∧ ∀ op ∈ ops, op.Moves cut) ∨ ∀ op ∈ ops, op.Stays

theorem Disk.stays_foldl (hops : ∀ op ∈ ops, op.Stays) : (ops.foldl (Disk.exec img) d).tx = d.tx ∧
      (ops.foldl (Disk.exec img) d).pages.isSome = d.pages.isSome := by
  induction ops generalizing d with
  | nil => exact ⟨rfl, rfl⟩
  | cons op ops ih =>
    have hop := hops op List.mem_cons_self
    rw [List.foldl_cons]
    obtain ⟨htx, hpages⟩ := ih (d := d.exec img op) fun op hop =>
      hops op (List.mem_cons_of_mem _ hop)
    rw [htx, hpages]
    cases op with
    | backfill => exact ⟨rfl, Option.isSome_map⟩
    | writeMarker | removeWal => exact ⟨rfl, rfl⟩
    | _ => exact hop.elim

theorem Kept.foldl {s' : State img} (h : Kept s.disk s.durable ops)
    (htx : s'.disk.tx = (ops.foldl (Disk.exec img) s.disk).tx)
    (hpages : s'.disk.pages = (ops.foldl (Disk.exec img) s.disk).pages)
    (hdurable : s'.durable = s.durable) : Keeps s s' := by
  intro hsome
  rw [htx, hpages, hdurable]
  rcases h with ⟨cut, hle, hcut, hops⟩ | hops
  · rcases hp : (ops.foldl (Disk.exec img) s.disk).pages with _ | f
    · exact .inr ⟨rfl, hle.trans hcut⟩
    refine .inl ⟨rfl, ?_⟩
    rcases Disk.tx_foldl (d := s.disk) hops with heq | heq
    · exact heq.ge
    · exact heq ▸ hle
  · obtain ⟨heq, hstays⟩ := Disk.stays_foldl (d := s.disk) hops
    exact .inl ⟨hstays.trans hsome, heq.ge⟩

theorem persistPagedTxID_stays (d : Disk β) (h : Handle img) (clean : Bool) :
    ∀ op ∈ [.backfill, .removeWal] ++ persistPagedTxID d h clean, op.Stays := by
  unfold persistPagedTxID
  split <;> simp [FsOp.Stays]

theorem Inv.plan (hinv : Inv s) {cell : Option (Handle img)} (hreports : a.Reports)
    (hplan : s.plan a = some (ops, cell)) :
    Good img s.disk ops ∧ (s.disk.pages.isSome → Kept s.disk s.durable ops) := by
  cases a with
  | openCell o =>
    simp only [State.plan] at hplan
    split at hplan
    · next hready =>
      have hspec := openCell_spec hinv.sound hinv.legible hinv.durable hready.2 hreports
      rw [Option.some.inj hplan] at hspec
      refine ⟨hspec.good, fun hpages => ?_⟩
      rcases hspec.keeps hpages with ⟨hnil, -⟩ | ⟨src, hle, hcut, hmoves, -⟩
      · exact .inr (by simp only at hnil; simp [hnil])
      · exact .inl ⟨src.cut, hle, hcut, hmoves⟩
    · cases hplan
  | safeCheckpoint =>
    obtain ⟨h, -, heq⟩ := Option.map_eq_some_iff.1 hplan
    cases heq
    exact ⟨(persist_spec hinv.sound hinv.legible h false).1,
      fun _ => .inr (persistPagedTxID_stays _ h false)⟩
  | close ok =>
    obtain ⟨h, -, heq⟩ := Option.map_eq_some_iff.1 hplan
    cases heq
    cases ok with
    | true =>
      exact ⟨(persist_spec hinv.sound hinv.legible h true).1,
        fun _ => .inr (persistPagedTxID_stays _ h true)⟩
    | false => exact ⟨trivial, fun _ => .inr (by simp)⟩

theorem Keeps.refl (s : State img) : Keeps s s := fun hpages => .inl ⟨hpages, le_rfl⟩

theorem Inv.init : Inv ({} : State img) where
  sound := ⟨by norm_num, nofun, fun _ _ => rfl, nofun⟩
  legible := nofun
  durable := by norm_num
  opened := nofun
  pending := nofun
  serves := nofun

/-! ## Every run -/

variable [DecidableEq β]

section Steps

variable (hinv : Inv s)
include hinv

theorem Inv.openCell (hspec : OpenSpec s.disk s.durable (openCell s.disk s.durable o))
    (hplan : s.plan (.openCell o) = some (Paged.openCell s.disk s.durable o)) :
    Inv (s.step (.act (.openCell o))) := by
  have hsound := hinv.sound.foldl hspec.good
  simp only [State.step, hplan]
  cases hcell : (Paged.openCell s.disk s.durable o).2 with
  | none => exact hinv.stopped hsound hspec.legible
  | some h =>
    obtain ⟨hpages, ⟨rfl, hmarker⟩ | ⟨src, rfl, hcut, hprimed⟩⟩ := hspec.opened h hcell
    · exact hinv.plain hsound hspec.legible hpages hmarker
    · exact hinv.attached hsound hspec.legible hpages hcut hprimed

theorem Inv.safeCheckpoint : Inv (s.step (.act .safeCheckpoint)) := by
  rcases hcell : s.cell with _ | h
  · simpa [State.step, State.plan, hcell] using hinv
  obtain ⟨hgood, marker, heq, hlegible, hdirty⟩ := persist_spec hinv.sound hinv.legible h false
  have hsound := hinv.sound.foldl hgood
  obtain ⟨hpages, hclean⟩ := hinv.opened h hcell
  obtain ⟨f, hf⟩ := Option.isSome_iff_exists.1 hpages
  rw [heq] at hsound
  have hstep : s.step (.act .safeCheckpoint) =
      { s with
        disk := { s.disk.flushed with marker := marker }
        cell := some (h.backfill s.disk.wal) } := by
    simp only [State.step, State.plan, hcell, Option.map_some]
    split <;> simp_all
  rw [hstep]
  refine ⟨hsound, hlegible, hinv.durable,
    fun _ _ => ⟨by simp [Disk.flushed, hf], hdirty rfl hclean⟩, ?_, ?_⟩
  · intro h' src p hh
    obtain rfl := Option.some.inj hh
    exact hinv.pending h src p hcell
  · intro h' hh p x hx
    obtain rfl := Option.some.inj hh
    have hread := hinv.serves h hcell p x hx
    cases hw : s.disk.wal p with
    | none =>
      simpa [State.read, Handle.missing, Handle.backfill, Disk.flushed, hw, hf] using hread
    | some v =>
      have hv : v = some x := by simpa [State.read, hw] using hread
      have hmissing : (h.backfill s.disk.wal).missing p = false := by
        simp only [Handle.missing, Handle.backfill, hw, hv]
        split <;> simp
      rw [State.read_of_not_missing hmissing]
      simp [Disk.flushed, hf, hw, hv]

theorem Inv.close (ok : Bool) : Inv (s.step (.act (.close ok))) := by
  rcases hcell : s.cell with _ | h
  · simpa [State.step, State.plan, hcell] using hinv
  rcases ok with _ | _
  · simpa [State.step, State.plan, hcell] using hinv.stopped hinv.sound hinv.legible
  obtain ⟨hgood, marker, heq, hlegible, -⟩ := persist_spec hinv.sound hinv.legible h true
  have hsound := hinv.sound.foldl hgood
  rw [← heq] at hlegible
  simpa [State.step, State.plan, hcell] using hinv.stopped hsound hlegible

theorem Inv.commit (touched : Nat → Bool) : Inv (s.step (.commit touched)) := by
  simp only [State.step]
  split
  · next hopen =>
    obtain ⟨h, hcell⟩ := Option.isSome_iff_exists.1 hopen.1
    obtain ⟨hpages, hclean⟩ := hinv.opened h hcell
    obtain ⟨f, hf⟩ := Option.isSome_iff_exists.1 hpages
    refine ⟨⟨hopen.2, fun text m htext hread hm => ?_, fun hnone => ?_,
      fun hmarker f' hf' p x hx => ?_⟩, hinv.legible, hinv.durable, fun _ _ => ⟨hpages, hclean⟩,
      hinv.pending, fun h' hh p x hx => ?_⟩
    · rw [hclean text m htext hread] at hm
      cases hm
    · rw [hf] at hnone
      cases hnone
    all_goals
      simp only at hx
    · have hview := hinv.sound.whole hmarker f' hf' p
      simp only
      split
      · simpa using hx
      · next hsame =>
        rw [not_or, not_not] at hsame
        exact hview x (hsame.2 ▸ hx)
    · have hread := hinv.serves h' hh p
      simp only [State.read] at hread ⊢
      split
      · simpa using hx
      · next hsame =>
        rw [not_or, not_not] at hsame
        exact hread x (hsame.2 ▸ hx)
  · exact hinv

theorem Inv.fetch (p : Nat) : Inv (s.step (.fetch p)) := by
  simp only [State.step]
  split
  · next h hcell =>
    split
    · next hmissing =>
      refine ⟨hinv.sound, hinv.legible, hinv.durable, fun _ _ => hinv.opened h hcell, ?_, ?_⟩
      · intro h' src q hh hsrc hq
        obtain rfl := Option.some.inj hh
        simp only at hsrc hq
        by_cases hpq : q = p
        · subst hpq
          simp only [Handle.missing, hsrc, decide_eq_true_eq] at hmissing
          exact ⟨hmissing.1, hmissing.2.1⟩
        · rw [Function.update_of_ne hpq] at hq
          exact hinv.pending h src q hcell hsrc hq
      · intro h' hh
        obtain rfl := Option.some.inj hh
        exact hinv.serves h hcell
    · exact hinv
  · exact hinv

theorem Inv.fill (hop : Orderly s (.fill p)) : Inv (s.step (.fill p)) := by
  simp only [State.step]
  split
  · next h hcell =>
    split
    · next src hsrc =>
      split
      · next hp =>
        have hrange := hinv.pending h src p hcell hsrc hp
        have hmissing : h.missing p = true := by
          simp [Handle.missing, hsrc, hop h hcell, hrange]
        refine hinv.setPage hcell (fun q hq => ?_) (.inl rfl) fun x hx => ?_
        · by_cases hqp : q = p
          · subst hqp
            exact hp
          · rwa [Function.update_of_ne hqp] at hq
        · simpa [State.read, hsrc, hmissing] using hinv.serves h hcell p x hx
      · exact hinv
    · exact hinv
  · exact hinv

theorem Inv.backfill (p : Nat) : Inv (s.step (.backfill p)) := by
  simp only [State.step]
  split
  · next h page hcell hpage =>
    refine hinv.setPage hcell (fun _ => id) (.inr (by simp [hpage])) fun x hx => ?_
    simpa [State.read, hpage] using hinv.serves h hcell p x hx
  · exact hinv

theorem Inv.complete : Inv (s.step .complete) := by
  simp only [State.step]
  split
  · next h hcell =>
    split
    · next src hsrc =>
      split
      · next hall =>
        have hmissing : ∀ p, h.missing p = false := fun p => by
          rcases Nat.lt_or_ge p (src.commit + 1) with hp | hp
          · simpa using List.all_eq_true.1 hall p (List.mem_range.2 hp)
          · simp only [Handle.missing, hsrc, decide_eq_false_iff_not]
            omega
        refine ⟨⟨hinv.sound.tx, nofun, hinv.sound.absent, fun _ f hf p x hx => ?_⟩, nofun,
          hinv.durable, fun h' hh => ⟨(hinv.opened h' hh).1, nofun⟩, hinv.pending, hinv.serves⟩
        have hread := hinv.serves h hcell p x hx
        rw [State.read_of_not_missing (hmissing p)] at hread
        change s.disk.pages = some f at hf
        simpa [hf] using hread
      · exact hinv
    · exact hinv
  · exact hinv

theorem Inv.actCrash {k n : Nat} (hop : Orderly s (.actCrash a k n)) :
    Inv (s.step (.actCrash a k n)) ∧ Keeps s (s.step (.actCrash a k n)) := by
  simp only [State.step]
  split
  · exact ⟨hinv, Keeps.refl s⟩
  next ops cell hplan =>
  obtain ⟨hgood, hkept⟩ := hinv.plan hop.1 hplan
  refine ⟨hinv.stopped (hinv.sound.crash hgood k n) (hop.2 _ hplan), fun hpages => ?_⟩
  have htake : Kept s.disk s.durable (ops.take k) := by
    rcases hkept hpages with ⟨cut, hle, hcut, hops⟩ | hops
    · exact .inl ⟨cut, hle, hcut, fun op hop => hops op (List.mem_of_mem_take hop)⟩
    · exact .inr fun op hop => hops op (List.mem_of_mem_take hop)
  refine htake.foldl ?_ ?_ rfl hpages <;> simp only [Disk.crash] <;> split <;> rfl

omit hinv in
theorem Keeps.openCell (hspec : OpenSpec s.disk s.durable (openCell s.disk s.durable o))
    (hplan : s.plan (.openCell o) = some (openCell s.disk s.durable o)) :
    Keeps s (s.step (.act (.openCell o))) := by
  intro hpages
  simp only [State.step, hplan]
  rcases hspec.keeps hpages with ⟨hnil, hplain⟩ | ⟨src, hle, hcut, hmoves, hsource⟩
  · have hnone : (Paged.openCell s.disk s.durable o).2.bind Handle.source = none := by
      rw [Option.bind_eq_none_iff]
      exact hplain
    rw [hnone, hnil]
    exact Keeps.refl s hpages
  · cases hcell : (Paged.openCell s.disk s.durable o).2 with
    | none => exact Kept.foldl (.inl ⟨src.cut, hle, hcut, hmoves⟩) rfl rfl rfl hpages
    | some h =>
      simp only [Option.bind_some, hsource h hcell]
      exact .inl ⟨(hspec.opened h hcell).1, hle⟩

theorem Inv.act (hop : a.Reports) : Inv (s.step (.act a)) ∧ Keeps s (s.step (.act a)) := by
  cases hplan : s.plan a with
  | none =>
    have hstep : s.step (.act a) = s := by simp [State.step, hplan]
    rw [hstep]
    exact ⟨hinv, Keeps.refl s⟩
  | some plan =>
    obtain ⟨ops, cell⟩ := plan
    have hkept := (hinv.plan hop hplan).2
    cases a with
    | openCell o =>
      obtain ⟨hready, -⟩ := Option.ite_none_right_eq_some.1 hplan
      have hspec := openCell_spec hinv.sound hinv.legible hinv.durable hready.2 hop
      have heq : s.plan (.openCell o) = some (Paged.openCell s.disk s.durable o) := if_pos hready
      exact ⟨hinv.openCell hspec heq, Keeps.openCell hspec heq⟩
    | safeCheckpoint =>
      refine ⟨hinv.safeCheckpoint, fun hpages => (hkept hpages).foldl ?_ ?_ ?_ hpages⟩ <;>
        simp only [State.step, hplan] <;> split <;> first | rfl | contradiction
    | close ok =>
      refine ⟨hinv.close ok, fun hpages => (hkept hpages).foldl ?_ ?_ ?_ hpages⟩ <;>
        simp only [State.step, hplan] <;> split <;> first | rfl | contradiction

theorem Inv.step {ev : Event img} (hop : Orderly s ev) : Inv (s.step ev) ∧ Keeps s (s.step ev) := by
  cases ev with
  | act a => exact hinv.act hop
  | actCrash a k n => exact hinv.actCrash hop
  | ship tx =>
    simp only [State.step]
    split
    · next htx =>
      exact ⟨⟨hinv.sound, hinv.legible, htx.2, hinv.opened, hinv.pending, hinv.serves⟩,
        fun hpages => .inl ⟨hpages, le_rfl⟩⟩
    · exact ⟨hinv, Keeps.refl s⟩
  | crash => exact ⟨hinv.stopped hinv.sound hinv.legible, Keeps.refl s⟩
  | commit touched =>
    refine ⟨hinv.commit touched, fun hpages => ?_⟩
    simp only [State.step]
    split
    · exact .inl ⟨hpages, Nat.le_succ _⟩
    · exact .inl ⟨hpages, le_rfl⟩
  | fetch p =>
    refine ⟨hinv.fetch p, fun hpages => .inl ?_⟩
    simp only [State.step]
    repeat' split
    all_goals exact ⟨hpages, le_rfl⟩
  | fill p =>
    refine ⟨hinv.fill hop, fun hpages => .inl ?_⟩
    simp only [State.step]
    repeat' split
    all_goals exact ⟨by simpa using hpages, le_rfl⟩
  | backfill p =>
    refine ⟨hinv.backfill p, fun hpages => .inl ?_⟩
    simp only [State.step]
    repeat' split
    all_goals exact ⟨by simpa using hpages, le_rfl⟩
  | complete =>
    refine ⟨hinv.complete, fun hpages => .inl ?_⟩
    simp only [State.step]
    repeat' split
    all_goals exact ⟨hpages, le_rfl⟩

end Steps

/-- Reopening a cell keeps local transactions that the state it is replaced with does not have, and
an open cell serves the pages of one image. -/
theorem paged_cache_safe (events : List (Event img))
    (hops : ∀ before ev, before ++ [ev] <+: events → Orderly (run before) ev) :
    (∀ before, before <+: events → Serves (run before)) ∧
      ∀ before ev, before ++ [ev] <+: events → Keeps (run before) (run (before ++ [ev])) := by
  have hinv : ∀ before, before <+: events → Inv (run before) :=
    Util.invariant_of_steps Inv.init (fun _ _ hinv hop => (hinv.step hop).1) hops
  refine ⟨fun before hbefore => (hinv before hbefore).serves, fun before ev hbefore => ?_⟩
  have hstep := (hinv before ((List.prefix_append before [ev]).trans hbefore)).step
    (hops before ev hbefore)
  simpa [run, List.foldl_append] using hstep.2

/-- A database of one page, which every transaction writes. -/
def onePage (tx p : Nat) : Option Nat := if p = 1 then some tx else none

def onePageAt (cut : Nat) : Source onePage where
  pageSize := 4096
  commit := 1
  cut := cut
  reports := true
  pageSize_lt := by norm_num
  commit_lt := by norm_num
  size p hp := if_neg (by omega)

/-- The cache is closed after a local transaction, and rebuilt once the durable state has it. -/
def closedAndReopened : List (Event onePage) :=
  [.ship 1, .act (.openCell ⟨some (onePageAt 1), none, true⟩), .commit fun _ => false,
    .act .safeCheckpoint, .act (.close true), .ship 2,
    .act (.openCell ⟨some (onePageAt 2), none, true⟩)]

theorem paged_cache_safe_closedAndReopened :
    (∀ before ev, before ++ [ev] <+: closedAndReopened → Orderly (run before) ev) ∧
      (run closedAndReopened).cell.isSome ∧ (run closedAndReopened).disk.tx = 2 ∧
      (∀ before, before <+: closedAndReopened → Serves (run before)) ∧
      ∀ before ev, before ++ [ev] <+: closedAndReopened →
        Keeps (run before) (run (before ++ [ev])) := by
  have hops : ∀ before ev, before ++ [ev] <+: closedAndReopened → Orderly (run before) ev := by
    rw [Util.forall_concat_isPrefix]
    intro k
    fin_cases k
    case «1» | «6» =>
      intro src hsrc
      obtain rfl := Option.some.inj hsrc
      exact Nat.zero_lt_succ _
    all_goals trivial
  exact ⟨hops, by decide +kernel, by decide +kernel, paged_cache_safe _ hops⟩

/-- A checkpoint of a local transaction, in which the process dies with the marker just emptied. -/
def tornMarker : List (Event onePage) :=
  [.ship 1, .act (.openCell ⟨some (onePageAt 1), none, true⟩), .commit fun _ => false,
    .actCrash .safeCheckpoint 2 0]

/-- The open after it takes the cache for junk and restores the durable state, which is older. -/
theorem torn_marker_discards :
    ¬ Keeps (run tornMarker)
      (run (tornMarker ++ [.act (.openCell ⟨some (onePageAt 1), none, true⟩)])) := by
  intro h
  have hlocal : (run tornMarker).disk.tx = 2 := by decide +kernel
  have hafter : (run (tornMarker ++
      [.act (.openCell ⟨some (onePageAt 1), none, true⟩)])).disk.tx = 1 := by decide +kernel
  rcases h (by decide +kernel) with ⟨-, hle⟩ | ⟨hnone, -⟩
  · omega
  · exact absurd (congrArg Option.isSome hnone) (by decide +kernel)

end CellHive.CellStore.Paged
