import CellHive.Util.Overlay
import CellHive.Wal.Log

/-!
# A database file and its log

What SQLite keeps on disk in WAL mode: the main file, a list of pages, and the log of the
current generation. The database is the main file overlaid with the committed frames of the
log. Another process appends transactions, copies frames into the main file, and restarts
the log once all of it is copied; only the first of these changes the database.
-/

namespace CellHive.Sqlite

open Go Wal Overlay

/-! ## Images -/

/-- A database as its pages; only the pages `1 … count` belong to it. -/
structure Image where
  count : UInt32
  page : UInt32 → Option Bytes

namespace Image

/-- The two images are the same database. -/
structure Same (a b : Image) : Prop where
  count : a.count = b.count
  page : ∀ p, 1 ≤ p → p ≤ a.count → a.page p = b.page p

theorem Same.refl (a : Image) : Same a a := ⟨rfl, fun _ _ _ => rfl⟩

theorem Same.symm {a b : Image} (h : Same a b) : Same b a := by
  refine ⟨h.count.symm, fun p h1 h2 => (h.page p h1 ?_).symm⟩
  rwa [h.count]

theorem Same.trans {a b c : Image} (hab : Same a b) (hbc : Same b c) : Same a c := by
  refine ⟨hab.count.trans hbc.count, fun p h1 h2 => (hab.page p h1 h2).trans (hbc.page p h1 ?_)⟩
  rwa [← hab.count]

def Whole (a : Image) : Prop := ∀ p, 1 ≤ p → p ≤ a.count → (a.page p).isSome

theorem Same.whole {a b : Image} (h : Same a b) (hb : b.Whole) : a.Whole := by
  intro p h1 h2
  rw [h.page p h1 h2]
  apply hb p h1
  rwa [← h.count]

end Image

/-! ## Transactions on an image -/

variable {pageSize : UInt32} {a b : Image} {done more : List (Commit pageSize)}
  {c : Commit pageSize}

def layer (f : Frame) (p : UInt32) : Option Bytes := if p = f.pageNo then some f.data else none

def framePage (frames : List Frame) : UInt32 → Option Bytes := overlay (frames.map layer)

def countAfter (n : UInt32) (commits : List (Commit pageSize)) : UInt32 :=
  commits.foldl (fun _ c => c.last.dbSize) n

def Image.put (a : Image) (commits : List (Commit pageSize)) : Image :=
  ⟨countAfter a.count commits, fun p => (framePage (commitFrames commits) p).or (a.page p)⟩

/-- A transaction that grows a database of `n` pages writes all the pages it adds. -/
def Fills (n : UInt32) (c : Commit pageSize) : Prop :=
  ∀ p, n < p → p ≤ c.last.dbSize → (framePage c.frames p).isSome

theorem framePage_append (xs ys : List Frame) (p : UInt32) :
    framePage (xs ++ ys) p = (framePage ys p).or (framePage xs p) := by
  unfold framePage
  rw [List.map_append, overlay_append]

theorem put_append : a.put (done ++ more) = (a.put done).put more := by
  unfold Image.put countAfter
  rw [List.foldl_append]
  congr 1
  funext p
  rw [commitFrames_append, framePage_append, Option.or_assoc]

theorem put_singleton (c : Commit pageSize) :
    a.put [c] = ⟨c.last.dbSize, fun p => (framePage c.frames p).or (a.page p)⟩ := by
  unfold Image.put
  rw [commitFrames_cons]
  simp only [commitFrames, List.flatMap_nil, List.append_nil]
  rfl

theorem Fills.le {n p : UInt32} (h : Fills n c) (hp : p ≤ c.last.dbSize)
    (hnone : framePage c.frames p = none) : p ≤ n := by
  by_contra hlt
  have hsome := h p (UInt32.not_le.1 hlt) hp
  rw [hnone] at hsome
  cases hsome

theorem Image.Same.put (h : Image.Same a b) (hfills : Fills a.count c) :
    Image.Same (a.put [c]) (b.put [c]) := by
  rw [put_singleton, put_singleton]
  refine ⟨rfl, fun p h1 h2 => ?_⟩
  dsimp only
  cases hf : framePage c.frames p with
  | some data => rfl
  | none => rw [Option.none_or, Option.none_or, h.page p h1 (hfills.le h2 hf)]

theorem Image.Whole.put (h : a.Whole) (hfills : Fills a.count c) :
    (a.put [c]).Whole := by
  rw [put_singleton]
  intro p h1 h2
  dsimp only
  cases hf : framePage c.frames p with
  | some data => rfl
  | none =>
    exact h p h1 (hfills.le h2 hf)

/-! ## Files -/

/-- The page size that the header of a database file names. -/
def headerPageSize (data : Bytes) : UInt32 :=
  let n := (uint16 (data.drop 16)).toUInt32
  if n = 1 then 65536 else n

/-- A main file: pages of one size, which its header names. SQLite stops at 2^32 - 2 pages. -/
structure Main (pageSize : UInt32) where
  pages : List Bytes
  sized : ∀ page ∈ pages, page.length = pageSize.toNat
  header : headerPageSize pages.flatten = pageSize
  few : pages.length < 2 ^ 32 - 1

def Main.image {pageSize : UInt32} (m : Main pageSize) : Image :=
  ⟨UInt32.ofNat m.pages.length, fun p => if p = 0 then none else m.pages[p.toNat - 1]?⟩

/-- The file, the log of the current generation, and the salts of the earlier ones. -/
structure Db (pageSize : UInt32) where
  main : Main pageSize
  log : Option (Generation pageSize × List (Commit pageSize))
  past : List (UInt32 × UInt32)

namespace Db

def commits (db : Db pageSize) : List (Commit pageSize) := (db.log.map (·.2)).getD []

/-- The database: the main file overlaid with its log. -/
def view (db : Db pageSize) : Image := db.main.image.put db.commits

def Backfilled (db : Db pageSize) : Prop := Image.Same db.main.image db.view

end Db

/-! ## Steps of the process that owns the file -/

/-- A transaction is appended, frames are copied into the main file, or the log restarts.
The first log is created by a restart as well. -/
inductive Step (pageSize : UInt32) where
  | append (c : Commit pageSize)
  | checkpoint (main : Main pageSize)
  | restart (g : Generation pageSize)

namespace Db

def step (db : Db pageSize) : Step pageSize → Db pageSize
  | .append c => { db with log := db.log.map fun log => (log.1, log.2 ++ [c]) }
  | .checkpoint main => { db with main }
  | .restart g =>
    { db with
      log := some (g, [])
      past := db.past ++ (db.log.map fun log => (log.1.salt1, log.1.salt2)).toList }

/-- What the steps may do. A checkpoint, finished or not, changes only pages that have a
frame in the log. -/
def Allows (db : Db pageSize) : Step pageSize → Prop
  | .append c => db.log.isSome ∧ Fills db.view.count c ∧ c.last.dbSize.toNat < 2 ^ 32 - 1
  | .checkpoint main =>
    (db.commits = [] → main.image = db.main.image) ∧
      ∀ p, 1 ≤ p → p ≤ db.view.count → framePage (commitFrames db.commits) p = none →
        main.image.page p = db.main.image.page p
  | .restart g =>
    db.Backfilled ∧ (g.salt1, g.salt2) ∉ db.past ∧
      ∀ log, db.log = some log → (g.salt1, g.salt2) ≠ (log.1.salt1, log.1.salt2)

variable {db : Db pageSize}

theorem commits_append (h : db.log.isSome) :
    (db.step (.append c)).commits = db.commits ++ [c] := by
  obtain ⟨log, hlog⟩ := Option.isSome_iff_exists.1 h
  simp [commits, step, hlog]

theorem view_append (h : db.log.isSome) :
    (db.step (.append c)).view = db.view.put [c] := by
  unfold view
  rw [commits_append h, put_append]
  rfl

theorem view_checkpoint {main : Main pageSize} (h : db.Allows (.checkpoint main)) :
    Image.Same (db.step (.checkpoint main)).view db.view := by
  obtain ⟨hempty, hpages⟩ := h
  have hcommits : (db.step (.checkpoint main)).commits = db.commits := rfl
  have hmain : (db.step (.checkpoint main)).main = main := rfl
  cases hlast : db.commits with
  | nil =>
    unfold view
    rw [hmain, hempty hlast]
    exact .refl _
  | cons c rest =>
    have hcount : (db.step (.checkpoint main)).view.count = db.view.count := by
      unfold view Image.put
      rw [hcommits, hlast]
      rfl
    refine ⟨hcount, fun p h1 h2 => ?_⟩
    rw [hcount] at h2
    unfold view Image.put
    rw [hcommits, hmain]
    dsimp only
    cases hf : framePage (commitFrames db.commits) p with
    | some data => rfl
    | none => rw [Option.none_or, Option.none_or, hpages p h1 h2 hf]

theorem view_restart {g : Generation pageSize} (h : db.Allows (.restart g)) :
    Image.Same (db.step (.restart g)).view db.view := h.1

theorem whole_step {s : Step pageSize} (h : db.Allows s) (hwhole : db.view.Whole) :
    (db.step s).view.Whole := by
  cases s with
  | append c =>
    rw [view_append h.1]
    exact hwhole.put h.2.1
  | checkpoint main => exact (view_checkpoint h).whole hwhole
  | restart g => exact (view_restart h).whole hwhole

end Db

end CellHive.Sqlite
