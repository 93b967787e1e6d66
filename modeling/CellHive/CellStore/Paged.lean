import CellHive.Go.Strings
import CellHive.Util.Prefixes

/-!
# The paged local cache

`internal/cellstore/pagedmarker.go` and the paged branch of the open, checkpoint and close of a cell
in `cellstore.go`, with the hydration bits of `internal/pagedvfs`. The local file of a paged cell
holds only the pages faulted so far; the marker beside it says so, and which transaction the file
was left at.

The content of the cell at transaction `t` is the image `img t`, `none` at a page past its end. The
transaction that the local file set is at is a ghost of the disk. An operation is the list of its
file-system steps, so that a crash runs an initial part of it, and may tear the write of a marker.
-/

namespace CellHive.CellStore.Paged

open Go

/-! ## The marker -/

structure Marker where
  pageSize : Nat
  commit : Nat
  txid : Nat
  clean : Bool
deriving DecidableEq, Repr

/-- `strconv.ParseUint` with its error dropped: 0, or the largest value when out of range. -/
def parseTxid (s : Str) : Nat :=
  match parseUint 64 s with
  | some n => n
  | none => if s ≠ [] ∧ (parseDigits 0 s).isSome then 2 ^ 64 - 1 else 0

def readFlag : Str → Option Bool
  | ['1'] => some true
  | ['0'] => some false
  | _ => none

/-- `readPagedMarker` of a marker that exists, `none` where it is malformed. -/
def readPagedMarker (text : Str) : Option Marker :=
  match fields text with
  | ps :: cm :: rest => do
    let ps ← atoi ps
    let cm ← atoi cm
    if ps ≤ 0 ∨ cm ≤ 0 then none
    else
      match rest with
      | [] => some ⟨ps.toNat, cm.toNat, 0, false⟩
      | [tx] => some ⟨ps.toNat, cm.toNat, parseTxid tx, false⟩
      | [tx, flag] => (readFlag flag).map fun clean => ⟨ps.toNat, cm.toNat, parseTxid tx, clean⟩
      | _ => none
  | _ => none

/-- The text `writePagedMarker` writes. -/
def Marker.text (m : Marker) : Str :=
  formatUint m.pageSize ++ ' ' :: (formatUint m.commit ++ ' ' :: (formatUint m.txid ++
    [' ', if m.clean then '1' else '0']))

/-- The numbers of a marker fit their types. -/
structure Marker.Fits (m : Marker) : Prop where
  pageSize : m.pageSize < 2 ^ 63
  commit : m.commit < 2 ^ 63
  txid : m.txid < 2 ^ 64

theorem readPagedMarker_text {m : Marker} (h : m.Fits) :
    readPagedMarker m.text = if m.pageSize = 0 ∨ m.commit = 0 then none else some m := by
  obtain ⟨ps, cm, tx, clean⟩ := m
  obtain ⟨hps, hcm, htx⟩ := h
  have hwords : fields (Marker.text ⟨ps, cm, tx, clean⟩) =
      [formatUint ps, formatUint cm, formatUint tx, [if clean then '1' else '0']] := by
    cases clean <;> simp [Marker.text] <;> rfl
  have hflag : readFlag [if clean then '1' else '0'] = some clean := by cases clean <;> rfl
  simp [readPagedMarker, hwords, atoi_formatUint hps, atoi_formatUint hcm, hflag, parseTxid,
    parseUint_formatUint htx]

theorem parseTxid_lt (s : Str) : parseTxid s < 2 ^ 64 := by
  unfold parseTxid
  split
  · next h => exact (parseUint_eq_some h).2
  · split <;> norm_num

/-- What reads as a marker fits its types, and only the text with its four words is of a cache that
was closed. -/
theorem readPagedMarker_spec {text : Str} {m : Marker} (h : readPagedMarker text = some m) :
    m.Fits ∧ m.pageSize ≠ 0 ∧ m.commit ≠ 0 ∧ (m.clean = true → 3 < (fields text).length) := by
  unfold readPagedMarker at h
  split at h
  · next ps cm rest hwords =>
    obtain ⟨n, hn, h⟩ := Option.bind_eq_some_iff.1 h
    obtain ⟨k, hk, h⟩ := Option.bind_eq_some_iff.1 h
    have hn' := atoi_lt hn
    have hk' := atoi_lt hk
    split at h
    · cases h
    next hpos =>
    have hfits : ∀ tx clean, tx < 2 ^ 64 → Marker.Fits ⟨n.toNat, k.toNat, tx, clean⟩ :=
      fun tx clean htx => ⟨by simp only; omega, by simp only; omega, htx⟩
    have hn₀ : n.toNat ≠ 0 := by omega
    have hk₀ : k.toNat ≠ 0 := by omega
    split at h
    · cases h
      exact ⟨hfits _ _ (by norm_num), hn₀, hk₀, by simp⟩
    · cases h
      exact ⟨hfits _ _ (parseTxid_lt _), hn₀, hk₀, by simp⟩
    · obtain ⟨clean, -, rfl⟩ := Option.map_eq_some_iff.1 h
      exact ⟨hfits _ _ (parseTxid_lt _), hn₀, hk₀, by simp [hwords]⟩
    · cases h
  · cases h

/-- A torn marker is malformed or reads as the marker of a cache that was not closed. -/
theorem not_clean_of_torn {m m' : Marker} {n : Nat} (hn : n < m.text.length)
    (h : readPagedMarker (m.text.take n) = some m') : m'.clean = false := by
  by_contra hclean
  have hwords := (readPagedMarker_spec h).2.2.2 (by simpa using hclean)
  have hspace : ∀ k, (formatUint k).countP isSpace = 0 := fun k =>
    List.countP_eq_zero.2 fun c hc => by simp [not_isSpace_formatUint c hc]
  -- all but the flag and the space before it
  let start := formatUint m.pageSize ++ ' ' :: (formatUint m.commit ++ ' ' :: formatUint m.txid)
  have htext : m.text = start ++ [' ', if m.clean then '1' else '0'] := by
    simp [Marker.text, start]
  rcases Nat.lt_or_ge start.length n with hlong | hshort
  · have htake : m.text.take n = start ++ [' '] := by
      have hlen : n = start.length + 1 := by
        rw [htext] at hn
        simp only [List.length_append, List.length_cons, List.length_nil] at hn
        omega
      rw [htext, hlen, List.take_length_add_append]
      rfl
    rw [htake] at hwords
    simp [start] at hwords
  · have hle := length_fieldsFrom_le [] (m.text.take n)
    have hcount : (m.text.take n).countP isSpace ≤ start.countP isSpace := by
      rw [htext, List.take_append_of_le_length hshort]
      exact (List.take_sublist n start).countP_le
    have htwo : start.countP isSpace = 2 := by
      simp [start, List.countP_append, hspace, isSpace]
    rw [← fields] at hle
    omega

/-! ## The disk -/

section Model

variable {β : Type} (img : Nat → Nat → Option β)

/-- A page source: the image of one transaction, which it may not report. -/
structure Source where
  pageSize : Nat
  commit : Nat
  cut : Nat
  reports : Bool
  pageSize_lt : pageSize < 2 ^ 63
  commit_lt : commit < 2 ^ 63
  size : ∀ p, p = 0 ∨ commit < p → img cut p = none

variable {img} in
def Source.txid (src : Source img) : Nat := if src.reports then src.cut else 0

/-- The database file, its log with what each page of it is set to, and the marker. -/
structure Disk (β : Type) where
  pages : Option (Nat → Option β) := none
  wal : Nat → Option (Option β) := fun _ => none
  marker : Option Str := none
  tx : Nat := 0

/-- One change of the file system. -/
inductive FsOp
  | writeMarker (m : Marker)
  | removeMarker
  /-- `Prepare` gives the file the size of the cut -/
  | resize (commit cut : Nat)
  | removeFile
  | removeWal
  /-- a checkpoint copies the log into the file -/
  | backfill
  /-- `Hydrate`, or the creation of an empty database -/
  | restore (tx : Nat)
deriving DecidableEq, Repr

def Disk.exec (d : Disk β) : FsOp → Disk β
  | .writeMarker m => { d with marker := some m.text }
  | .removeMarker => { d with marker := none }
  | .resize commit cut =>
    { d with pages := some fun p => if p ≤ commit then d.pages.bind (· p) else none, tx := cut }
  | .removeFile => { d with pages := none }
  | .removeWal => { d with wal := fun _ => none }
  | .backfill => { d with pages := d.pages.map fun f p => (d.wal p).getD (f p) }
  | .restore tx => { d with pages := some (img tx), tx := tx }

/-- The disk after the process died in step `k` of an operation. The marker is not written in place
at once: `n` characters of it are there. -/
def Disk.crash (d : Disk β) (ops : List FsOp) (k n : Nat) : Disk β :=
  let d := (ops.take k).foldl (Disk.exec img) d
  match ops.drop k with
  | .writeMarker m :: _ => { d with marker := some (m.text.take n) }
  | _ => d

/-! ## Operations -/

/-- An open cell: the pages of `source` that are not hydrated are not in the file. -/
structure Handle where
  source : Option (Source img) := none
  hydrated : Nat → Bool := fun _ => false
  /-- fetched from the source and about to be written to the file -/
  pending : Nat → Bool := fun _ => false

structure State where
  disk : Disk β := {}
  durable : Nat := 0
  cell : Option (Handle img) := none

/-- What an open finds: the answer of the `Paged` hook, the step of `Prepare` or `Register` that
fails, and whether there is a `Hydrate` hook. -/
structure Opening where
  source : Option (Source img)
  failAt : Option Nat
  hydrate : Bool

def removeCellFileSet : List FsOp := [.removeFile, .removeWal, .removeMarker]

variable {img}

/-- The file is registered with the source, as it is or after `Prepare`. -/
def attach (src : Source img) (reuse : Bool) (failAt : Option Nat) :
    List FsOp × Option (Handle img) :=
  let dirty := FsOp.writeMarker ⟨src.pageSize, src.commit, src.txid, false⟩
  let prepare := if reuse then [] else [.resize src.commit src.cut, .removeWal]
  match failAt with
  | some k => (dirty :: (prepare.take k ++ removeCellFileSet), none)
  | none =>
    if src.pageSize = 0 ∨ src.commit = 0 then (dirty :: (prepare ++ removeCellFileSet), none)
    else (dirty :: prepare, some { source := src })

/-- The state a file that is not there is restored to, an empty database without the hook. -/
def Opening.restored (o : Opening img) (durable : Nat) : Nat := if o.hydrate then durable else 0

/-- The open of a cell that is not in memory. -/
def openCell (d : Disk β) (durable : Nat) (o : Opening img) : List FsOp × Option (Handle img) :=
  let fresh := [FsOp.restore (o.restored durable)]
  match d.pages, d.marker with
  | none, marker =>
    let drop := if marker.isSome then [FsOp.removeMarker] else []
    match o.source with
    | some src => (drop ++ (attach src false o.failAt).1, (attach src false o.failAt).2)
    | none => (drop ++ fresh, some {})
  | some _, none => ([], some {})
  | some _, some text =>
    match readPagedMarker text with
    -- a malformed marker has no transaction to be compared with
    | none => (removeCellFileSet ++ fresh, some {})
    | some m =>
      if m.clean = false then ([], none)
      else
        match o.source with
        | none => ([], none)
        | some src =>
          if 0 < m.txid ∧ 0 < src.txid ∧ src.txid < m.txid then ([], none)
          else
            let same := m.pageSize = src.pageSize ∧ m.commit = src.commit
            attach src (same ∧ ¬(0 < m.txid ∧ 0 < src.txid ∧ m.txid ≠ src.txid)) o.failAt

/-- `persistPagedTxID` of a paged cell. -/
def persistPagedTxID (d : Disk β) (h : Handle img) (clean : Bool) : List FsOp :=
  match h.source, d.marker.bind readPagedMarker with
  | some _, some m => [.writeMarker { m with txid := d.tx, clean := clean }]
  | _, _ => []

/-- Pages of the log that were copied to the file are hydrated, those cut off are not. -/
def Handle.backfill (h : Handle img) (wal : Nat → Option (Option β)) : Handle img :=
  { h with hydrated := fun p => ((wal p).map Option.isSome).getD (h.hydrated p) }

inductive Action (img : Nat → Nat → Option β)
  | openCell (o : Opening img)
  | safeCheckpoint
  /-- a close that fails leaves the log and the marker -/
  | close (ok : Bool)

/-- The steps an action takes on disk and the cell it leaves open. -/
def State.plan (s : State img) : Action img → Option (List FsOp × Option (Handle img))
  | .openCell o =>
    if s.cell.isNone ∧ ∀ src ∈ o.source, src.cut ≤ s.durable then
      some (Paged.openCell s.disk s.durable o)
    else none
  | .safeCheckpoint => s.cell.map fun h =>
    ([.backfill, .removeWal] ++ persistPagedTxID s.disk h false, some (h.backfill s.disk.wal))
  | .close ok => s.cell.map fun h =>
    (if ok then [.backfill, .removeWal] ++ persistPagedTxID s.disk h true else [], none)

inductive Event (img : Nat → Nat → Option β)
  /-- the durable state advances -/
  | ship (tx : Nat)
  | act (a : Action img)
  | actCrash (a : Action img) (k n : Nat)
  | crash
  /-- a transaction writes the pages that it changes, and may write others -/
  | commit (touched : Nat → Bool)
  /-- a reader or the hydrator finds a page missing, and later writes it -/
  | fetch (p : Nat)
  | fill (p : Nat)
  /-- SQLite copies one page of the log -/
  | backfill (p : Nat)
  /-- the hydrator has seen every page -/
  | complete

def Handle.missing (h : Handle img) (p : Nat) : Bool :=
  match h.source with
  | some src => 0 < p ∧ p ≤ src.commit ∧ h.hydrated p = false
  | none => false

def State.step [DecidableEq β] (s : State img) : Event img → State img
  | .ship tx => if s.durable ≤ tx ∧ tx < 2 ^ 64 then { s with durable := tx } else s
  | .act a =>
    match s.plan a with
    | none => s
    | some (ops, cell) =>
      let d := ops.foldl (Disk.exec img) s.disk
      match cell.bind Handle.source, a with
      -- a registered file is at the transaction of its source
      | some src, .openCell _ => { s with disk := { d with tx := src.cut }, cell := cell }
      | _, _ => { s with disk := d, cell := cell }
  | .actCrash a k n =>
    match s.plan a with
    | none => s
    | some (ops, _) => { s with disk := s.disk.crash img ops k n, cell := none }
  | .crash => { s with cell := none }
  | .commit touched =>
    if s.cell.isSome ∧ s.disk.tx + 1 < 2 ^ 64 then
      let wal := fun p =>
        if touched p ∨ img (s.disk.tx + 1) p ≠ img s.disk.tx p then some (img (s.disk.tx + 1) p)
        else s.disk.wal p
      { s with disk := { s.disk with wal := wal, tx := s.disk.tx + 1 } }
    else s
  | .fetch p =>
    match s.cell with
    | some h =>
      if h.missing p then
        { s with cell := some { h with pending := Function.update h.pending p true } }
      else s
    | none => s
  | .fill p =>
    match s.cell with
    | some h =>
      match h.source with
      | some src =>
        if h.pending p then
          { s with
            disk := { s.disk with pages := s.disk.pages.map (Function.update · p (img src.cut p)) }
            cell := some { h with
              hydrated := Function.update h.hydrated p true
              pending := Function.update h.pending p false } }
        else s
      | none => s
    | none => s
  | .backfill p =>
    match s.cell, s.disk.wal p with
    | some h, some page =>
      { s with
        disk := { s.disk with pages := s.disk.pages.map (Function.update · p page) }
        cell := some { h with hydrated := Function.update h.hydrated p page.isSome } }
    | _, _ => s
  | .complete =>
    match s.cell with
    | some h =>
      match h.source with
      | some src =>
        if (List.range (src.commit + 1)).all (!h.missing ·) then
          { s with disk := { s.disk with marker := none } }
        else s
      | none => s
    | none => s

def run [DecidableEq β] (events : List (Event img)) : State img := events.foldl State.step {}

/-! ## What must hold -/

/-- The page an open cell serves. -/
def State.read (s : State img) (h : Handle img) (p : Nat) : Option β :=
  (s.disk.wal p).getD <|
    match h.source with
    | some src => if h.missing p then img src.cut p else s.disk.pages.bind (· p)
    | none => s.disk.pages.bind (· p)

/-- An open cell serves the pages of one image. -/
def Serves (s : State img) : Prop :=
  ∀ h, s.cell = some h → ∀ p x, img s.disk.tx p = some x → s.read h p = some x

/-- Local transactions are replaced only by a state that has them. -/
def Keeps (s s' : State img) : Prop :=
  s.disk.pages.isSome →
    (s'.disk.pages.isSome ∧ s.disk.tx ≤ s'.disk.tx) ∨
      (s'.disk.pages = none ∧ s.disk.tx ≤ s'.durable)

/-- The marker, if there is one, reads as a marker. -/
def Disk.Legible (d : Disk β) : Prop := ∀ text, d.marker = some text → (readPagedMarker text).isSome

/-- The sources an action is given report the transaction they are cut at. -/
def Action.Reports : Action img → Prop
  | .openCell o => ∀ src, o.source = some src → 0 < src.txid
  | _ => True

/-- Sources report a transaction, a crash leaves a marker that reads as one, and no page is filled
from the source after it was written locally. -/
def Orderly (s : State img) : Event img → Prop
  | .act a => a.Reports
  | .actCrash a k n =>
    a.Reports ∧ ∀ plan, s.plan a = some plan → (s.disk.crash img plan.1 k n).Legible
  | .fill p => ∀ h, s.cell = some h → h.hydrated p = false
  | _ => True

end Model

end CellHive.CellStore.Paged
