import CellHive.DoSupervisor.Segments

/-!
# What the supervisor has captured

The invariant of the gate. A file without a baseline has nothing committed above what an
earlier process left. A retained snapshot shows the main file as it was when it was read,
and the log still holds everything since. A running capture has a chain that lacks only the
transactions its cursor has not read, or it knows that the log was restarted.
-/

namespace CellHive.DoSupervisor

open Go Ltx Wal Sqlite Restore

/-! ## Committing in order -/

section Commit

variable {old parts pending committed : List Bytes}

/-- The first of `parts` are committed behind `old` and the others are pending; the first
pending one may be committed as well. -/
def Partly (old parts pending committed : List Bytes) : Prop :=
  ∃ j i, (i = j ∨ i = j + 1) ∧ i ≤ parts.length ∧ pending = parts.drop j ∧
    committed = old ++ parts.take i

theorem store_next {j i : Nat} {segment : Bytes} (hnodup : parts.Nodup)
    (hnew : ∀ s ∈ parts, s ∉ old) (hi : i = j ∨ i = j + 1) (hj : parts[j]? = some segment) :
    store (old ++ parts.take i) segment = old ++ parts.take (j + 1) := by
  obtain ⟨hlt, hget⟩ := List.getElem?_eq_some_iff.1 hj
  have htake : parts.take (j + 1) = parts.take j ++ [segment] := by
    rw [List.take_add_one, hj]
    rfl
  unfold store
  rcases hi with rfl | rfl
  · have hmem : segment ∉ old ++ parts.take i := by
      intro hin
      rcases List.mem_append.1 hin with hin | hin
      · exact hnew segment (hget ▸ List.getElem_mem hlt) hin
      · obtain ⟨k, hk, hkseg⟩ := List.mem_take_iff_getElem.1 hin
        have heq := (hnodup.getElem_inj_iff).1 (hkseg.trans hget.symm)
        omega
    rw [if_neg hmem, htake, List.append_assoc]
  · have hmem : segment ∈ old ++ parts.take (j + 1) := by
      rw [htake]
      simp
    rw [if_pos hmem]

theorem commitAll_spec (outcomes : Nat → Outcome) (k : Nat) (hnodup : parts.Nodup)
    (hnew : ∀ s ∈ parts, s ∉ old) (h : Partly old parts pending committed) :
    ((commitAll outcomes k pending committed).2.2 = none →
      (commitAll outcomes k pending committed).1 = [] ∧
        (commitAll outcomes k pending committed).2.1 = old ++ parts) ∧
    ((commitAll outcomes k pending committed).2.2 ≠ none →
      (commitAll outcomes k pending committed).1 ≠ [] ∧
        Partly old parts (commitAll outcomes k pending committed).1
          (commitAll outcomes k pending committed).2.1) := by
  induction pending generalizing k committed with
  | nil =>
    obtain ⟨j, i, hi, hle, hpending, rfl⟩ := h
    have hlen := List.drop_eq_nil_iff.1 hpending.symm
    have hall : parts.take i = parts := List.take_of_length_le (by omega)
    refine ⟨fun _ => ⟨rfl, ?_⟩, fun hne => absurd rfl hne⟩
    rw [commitAll, hall]
  | cons segment rest ih =>
    obtain ⟨j, i, hi, hle, hpending, rfl⟩ := h
    have hj : parts[j]? = some segment := by
      rw [← List.head?_drop, ← hpending]
      rfl
    have hlt := (List.getElem?_eq_some_iff.1 hj).1
    have hrest : rest = parts.drop (j + 1) := by
      rw [← List.tail_drop, ← hpending]
      rfl
    have hstore := store_next hnodup hnew hi hj
    unfold commitAll
    cases outcomes k with
    | committed =>
      rw [hstore]
      exact ih (k + 1) ⟨j + 1, j + 1, .inl rfl, hlt, hrest, rfl⟩
    | failed applied e =>
      dsimp only
      refine ⟨nofun, fun _ => ⟨List.cons_ne_nil _ _, ?_⟩⟩
      cases applied with
      | false => exact ⟨j, i, hi, hle, hpending, rfl⟩
      | true =>
        rw [hstore]
        exact ⟨j, j + 1, .inr rfl, hlt, hpending, rfl⟩

end Commit

/-! ## Following the file -/

section File

variable {pageSize : UInt32} {db : Db pageSize} {s : Step pageSize} {cursor : Cursor} {a : Image}
  {fs : FileState}

/-- What holds of the file itself: all pages are there, and no generation comes back. -/
structure DbOk (db : Db pageSize) : Prop where
  whole : db.view.Whole
  few : db.view.count.toNat < 2 ^ 32 - 1
  first : db.log = none → db.past = []
  fresh : ∀ log, db.log = some log → (log.1.salt1, log.1.salt2) ∉ db.past

theorem DbOk.step (h : DbOk db) (hs : db.Allows s) : DbOk (db.step s) := by
  refine ⟨Db.whole_step hs h.whole, ?_, ?_, ?_⟩
  · cases s with
    | append c =>
      rw [Db.view_append hs.1]
      exact hs.2.2
    | checkpoint main =>
      rw [(Db.view_checkpoint hs).count]
      exact h.few
    | restart g =>
      rw [(Db.view_restart hs).count]
      exact h.few
  · cases s with
    | append c =>
      intro hnone
      exact h.first (Option.map_eq_none_iff.1 hnone)
    | checkpoint main => exact h.first
    | restart g => exact nofun
  · cases s with
    | append c =>
      intro log hlog
      obtain ⟨log', hlog', rfl⟩ := Option.map_eq_some_iff.1 hlog
      exact h.fresh log' hlog'
    | checkpoint main => exact h.fresh
    | restart g =>
      intro log hlog
      cases hlog
      obtain ⟨-, hpast, hcurrent⟩ := hs
      have hsalts : (db.step (.restart g)).past =
        db.past ++ (db.log.map fun log => (log.1.salt1, log.1.salt2)).toList := rfl
      rw [hsalts, List.mem_append, Option.mem_toList, Option.map_eq_some_iff]
      rintro (hin | ⟨log, hlog, heq⟩)
      · exact hpast hin
      · exact hcurrent log hlog heq.symm

/-- The cursor stands behind the transactions `done` of the log. -/
def At (db : Db pageSize) (cursor : Cursor) (done : List (Commit pageSize)) : Prop :=
  cursor = .empty ∧ done = [] ∨ ∃ log, db.log = some log ∧ cursor = .behind log.1 done

def Follows (db : Db pageSize) (cursor : Cursor) (a : Image) : Prop :=
  ∃ done unread, db.commits = done ++ unread ∧ At db cursor done ∧
    Image.Same (a.put unread) db.view ∧ Covers a unread

theorem follows_main (hok : DbOk db) : Follows db .empty db.main.image := by
  refine ⟨[], db.commits, rfl, .inl ⟨rfl, rfl⟩, .refl _, ?_⟩
  intro p hle hnone
  by_cases hp : 1 ≤ p
  · have hsome := hok.whole p hp hle
    have hpage : db.view.page p = db.main.image.page p := by
      unfold Db.view Image.put
      dsimp only
      rw [hnone, Option.none_or]
    rw [hpage] at hsome
    exact le_of_page hsome
  · have hzero : p.toNat = 0 := by
      rw [UInt32.le_iff_toNat_le] at hp
      have hone : (1 : UInt32).toNat = 1 := rfl
      omega
    rw [UInt32.le_iff_toNat_le]
    omega

theorem Covers.append {unread : List (Commit pageSize)} {c : Commit pageSize} (h : Covers a unread)
    (hfills : Fills (a.put unread).count c) : Covers a (unread ++ [c]) := by
  intro p hle hnone
  rw [put_append] at hle
  rw [commitFrames_append, framePage_append, Option.or_eq_none_iff] at hnone
  have hframes : commitFrames [c] = c.frames := by
    simp [commitFrames]
  rw [hframes] at hnone
  exact h p (hfills.le hle hnone.1) hnone.2

theorem Follows.step (h : Follows db cursor a) (hs : db.Allows s) (hno : ∀ g, s ≠ .restart g) :
    Follows (db.step s) cursor a := by
  obtain ⟨done, unread, hcommits, hat, hsame, hcovers⟩ := h
  cases s with
  | append c =>
    have hfills : Fills (a.put unread).count c := by
      rw [hsame.count]
      exact hs.2.1
    refine ⟨done, unread ++ [c], ?_, ?_, ?_, hcovers.append hfills⟩
    · rw [Db.commits_append hs.1, hcommits, List.append_assoc]
    · rcases hat with hempty | ⟨log, hlog, hcursor⟩
      · exact .inl hempty
      · refine .inr ⟨(log.1, log.2 ++ [c]), ?_, hcursor⟩
        unfold Db.step
        rw [hlog]
        rfl
    · rw [Db.view_append hs.1, put_append]
      exact hsame.put hfills
  | checkpoint main =>
    exact ⟨done, unread, hcommits, hat, hsame.trans (Db.view_checkpoint hs).symm, hcovers⟩
  | restart g => exact absurd rfl (hno g)

theorem Follows.start {g : Generation pageSize} (h : Follows db cursor a) (hnone : db.log = none)
    (hs : db.Allows (.restart g)) : Follows (db.step (.restart g)) cursor a := by
  obtain ⟨done, unread, hcommits, hat, hsame, hcovers⟩ := h
  have hempty : db.commits = [] := by
    unfold Db.commits
    rw [hnone]
    rfl
  rw [hempty] at hcommits
  obtain ⟨rfl, rfl⟩ := List.append_eq_nil_iff.1 hcommits.symm
  refine ⟨[], [], rfl, ?_, hsame.trans (Db.view_restart hs).symm, hcovers⟩
  rcases hat with hcursor | ⟨log, hlog, -⟩
  · exact .inl hcursor
  · rw [hnone] at hlog
    cases hlog

theorem Follows.next (h : Follows db cursor a) (hs : db.Allows s)
    (hfirst : (∃ g, s = .restart g) → db.log = none) : Follows (db.step s) cursor a := by
  by_cases his : ∃ g, s = .restart g
  · obtain ⟨g, rfl⟩ := his
    exact h.start (hfirst ⟨g, rfl⟩) hs
  · exact h.step hs fun g hg => his ⟨g, hg⟩

/-- The supervisor will find that the log was restarted, or has found it. -/
def Outdated (db : Db pageSize) (fs : FileState) : Prop :=
  fs.checkpointPending = true ∨
    fs.cursor.haveSalt = true ∧ (fs.cursor.salt1, fs.cursor.salt2) ∈ db.past

def Tracks (db : Db pageSize) (fs : FileState) (a : Image) : Prop :=
  fs.checkpointPending = false ∧ Follows db fs.cursor a ∨ Outdated db fs

theorem Outdated.step (h : Outdated db fs) : Outdated (db.step s) fs := by
  rcases h with hpending | ⟨hsalt, hpast⟩
  · exact .inl hpending
  · refine .inr ⟨hsalt, ?_⟩
    cases s with
    | append | checkpoint => exact hpast
    | restart g => exact List.mem_append_left _ hpast

theorem Follows.outdated {g : Generation pageSize} (h : Follows db fs.cursor a)
    (hsalt : fs.cursor.haveSalt = true) : Outdated (db.step (.restart g)) fs := by
  obtain ⟨done, unread, -, hat, -, -⟩ := h
  rcases hat with ⟨hempty, -⟩ | ⟨log, hlog, hcursor⟩
  · rw [hempty] at hsalt
    cases hsalt
  · refine .inr ⟨hsalt, ?_⟩
    have hsalts : (db.step (.restart g)).past =
        db.past ++ (db.log.map fun log => (log.1.salt1, log.1.salt2)).toList := rfl
    rw [hsalts, hlog, hcursor]
    simp [Cursor.behind]

end File

/-! ## The invariant -/

section Invariant

variable {pageSize : UInt32}

/-- What an earlier process committed ends at the transaction a restore of it reaches. -/
def Settled (cfg : Config) (committed : List Bytes) : Prop :=
  committed = [] ∨ cfg.readsBack = true ∧ ∀ r, mergeChain committed = .ok r →
    ∀ s ∈ committed, ∀ d, decode s = .ok d → d.1.kind ≠ kindMarker ∧
      (d.1.kind = kindSnapshot → d.1.startTxID ≤ r.watermark) ∧
      (d.1.kind = kindDelta → d.1.endTxID ≤ r.watermark)

/-- A file of which nothing was captured yet. -/
structure Fresh (cfg : Config) (w : World pageSize) : Prop where
  baseline : w.fs.baseline = false
  pending : w.fs.pending = []
  pendingSnapshot : w.fs.pendingSnapshot = false
  cursor : w.fs.cursor = .empty
  checkpointPending : w.fs.checkpointPending = false
  settled : Settled cfg w.committed

/-- A snapshot of the main file `m` is not committed yet. -/
structure Retained (cfg : Config) (w : World pageSize) (m : Main pageSize) : Prop where
  pendingSnapshot : w.fs.pendingSnapshot = true
  pending : w.fs.pending ≠ []
  parts : ∃ old parts why, Partly old parts w.fs.pending w.committed ∧
    AllBelow w.fs.pendingEnd old ∧
    snapshotParts cfg w.fs.pendingEnd m.pages.flatten why = .ok parts
  follows : Follows w.db .empty m.image

/-- A chain is committed that restores to `a`, apart from a delta that may be pending. -/
def Stored (cfg : Config) (pageSize : UInt32) (fs : FileState) (committed : List Bytes)
    (a : Image) : Prop :=
  ∃ old segs base, AllBelow base old ∧
    (fs.pending = [] ∧ committed = old ++ segs ∧ Chain cfg pageSize segs base fs.seq a ∨
      ∃ segment b, fs.pending = [segment] ∧
        Partly (old ++ segs) [segment] fs.pending committed ∧ segment ∉ old ++ segs ∧
        Chain cfg pageSize segs base fs.seq b ∧
        Chain cfg pageSize (segs ++ [segment]) base fs.pendingEnd a)

structure Running (cfg : Config) (w : World pageSize) (a : Image) : Prop where
  baseline : w.fs.baseline = true
  pendingSnapshot : w.fs.pendingSnapshot = false
  stored : Stored cfg pageSize w.fs w.committed a
  tracks : Tracks w.db w.fs a

/-- Nothing is pending, and the chain lacks only what the cursor has not read. -/
structure Current (cfg : Config) (w : World pageSize) (a : Image) : Prop extends
    Running cfg w a where
  pending : w.fs.pending = []
  checkpointPending : w.fs.checkpointPending = false
  follows : Follows w.db w.fs.cursor a

def Inv (cfg : Config) (w : World pageSize) : Prop :=
  DbOk w.db ∧ (Fresh cfg w ∨ (∃ m, Retained cfg w m) ∨ ∃ a, Running cfg w a)

variable {cfg : Config} {w : World pageSize} {a : Image} {m : Main pageSize}

theorem Retained.flush (h : Retained cfg w m) (outcomes : Nat → Outcome) :
    (flushPending outcomes w).2.db = w.db ∧
      ((flushPending outcomes w).1 ≠ none → Retained cfg (flushPending outcomes w).2 m) ∧
      ((flushPending outcomes w).1 = none → Current cfg (flushPending outcomes w).2 m.image ∧
        (flushPending outcomes w).2.fs.seq = w.fs.pendingEnd) := by
  obtain ⟨old, parts, why, hpartly, hold, hparts⟩ := h.parts
  have hchain := chain_snapshot hparts
  have hnew : ∀ s ∈ parts, s ∉ old := by
    intro s hs
    obtain ⟨d, hdec, hkind, hstart⟩ := snapshotParts_segment hparts hs
    exact hold.not_mem_snapshot hdec hkind hstart
  obtain ⟨hok, hfail⟩ := commitAll_spec outcomes 0 (nodup_snapshotParts hparts) hnew hpartly
  unfold flushPending
  rw [if_neg h.pending]
  generalize commitAll outcomes 0 w.fs.pending w.committed = out at hok hfail
  obtain ⟨pending, committed, err⟩ := out
  cases err with
  | some e =>
    obtain ⟨hne, hrest⟩ := hfail (Option.some_ne_none e)
    refine ⟨rfl, fun _ => ?_, nofun⟩
    exact ⟨h.pendingSnapshot, hne, ⟨old, parts, why, hrest, hold, hparts⟩, h.follows⟩
  | none =>
    dsimp only
    obtain ⟨rfl, rfl⟩ := hok rfl
    rw [if_pos h.pendingSnapshot]
    refine ⟨rfl, fun hne => absurd rfl hne, fun _ => ⟨⟨⟨rfl, rfl, ?_, .inl ⟨rfl, h.follows⟩⟩, rfl,
      rfl, h.follows⟩, rfl⟩⟩
    exact ⟨old, parts, w.fs.pendingEnd, hold, .inl ⟨rfl, rfl, hchain⟩⟩

theorem Running.flush (h : Running cfg w a) (outcomes : Nat → Outcome) :
    (flushPending outcomes w).2.db = w.db ∧ Running cfg (flushPending outcomes w).2 a ∧
      (flushPending outcomes w).2.fs.cursor = w.fs.cursor ∧
      (flushPending outcomes w).2.fs.checkpointPending = w.fs.checkpointPending ∧
      ((flushPending outcomes w).1 = none → (flushPending outcomes w).2.fs.pending = [] ∧
        (flushPending outcomes w).2.fs.seq =
          if w.fs.pending = [] then w.fs.seq else w.fs.pendingEnd) := by
  unfold flushPending
  by_cases hempty : w.fs.pending = []
  · rw [if_pos hempty, if_pos hempty]
    exact ⟨rfl, h, rfl, rfl, fun _ => ⟨hempty, rfl⟩⟩
  rw [if_neg hempty, if_neg hempty]
  obtain ⟨old, segs, base, hold, hcases⟩ := h.stored
  rcases hcases with ⟨hnil, -⟩ | ⟨segment, b, hpending, hpartly, hnot, hbefore, hafter⟩
  · exact absurd hnil hempty
  have hnew : ∀ s ∈ [segment], s ∉ old ++ segs := by
    intro s hs
    rw [List.mem_singleton.1 hs]
    exact hnot
  obtain ⟨hok, hfail⟩ := commitAll_spec outcomes 0 (List.nodup_singleton segment) hnew hpartly
  generalize commitAll outcomes 0 w.fs.pending w.committed = out at hok hfail
  obtain ⟨pending, committed, err⟩ := out
  cases err with
  | some e =>
    obtain ⟨hne, hrest⟩ := hfail (Option.some_ne_none e)
    refine ⟨rfl, ⟨h.baseline, h.pendingSnapshot, ?_, h.tracks⟩, rfl, rfl,
      nofun⟩
    have hsame : pending = [segment] := by
      obtain ⟨j, i, -, -, hdrop, -⟩ := hrest
      cases j with
      | zero => exact hdrop
      | succ j =>
        rw [List.drop_succ_cons, List.drop_nil] at hdrop
        exact absurd hdrop hne
    exact ⟨old, segs, base, hold, .inr ⟨segment, b, hsame, hrest, hnot, hbefore, hafter⟩⟩
  | none =>
    dsimp only
    obtain ⟨rfl, rfl⟩ := hok rfl
    have hplain : ¬ w.fs.pendingSnapshot = true := by
      rw [h.pendingSnapshot]
      exact Bool.false_ne_true
    rw [if_neg hplain]
    refine ⟨rfl, ⟨h.baseline, rfl, ?_, h.tracks⟩, rfl, rfl, fun _ => ⟨rfl, rfl⟩⟩
    exact ⟨old, segs ++ [segment], base, hold,
      .inl ⟨rfl, List.append_assoc _ _ _, hafter⟩⟩

theorem snapshot_spec (hok : DbOk w.db) (hbelow : AllBelow w.fs.seq w.committed)
    (readFails : Option Err) (outcomes : Nat → Outcome) (why : String) :
    (snapshot cfg readFails outcomes why w).2.db = w.db ∧
      ((snapshot cfg readFails outcomes why w).1 ≠ none →
        (snapshot cfg readFails outcomes why w).2 = w ∨
          Retained cfg (snapshot cfg readFails outcomes why w).2 w.db.main) ∧
      ((snapshot cfg readFails outcomes why w).1 = none →
        Current cfg (snapshot cfg readFails outcomes why w).2 w.db.main.image ∧
          (snapshot cfg readFails outcomes why w).2.fs.seq = w.fs.seq) := by
  unfold snapshot
  cases readFails with
  | some e => exact ⟨rfl, fun _ => .inl rfl, nofun⟩
  | none =>
    rcases hparts : snapshotParts cfg w.fs.seq w.db.main.pages.flatten why with e | parts
    · exact ⟨rfl, fun _ => .inl rfl, nofun⟩
    dsimp only
    have hretained : Retained cfg
        { w with fs := { w.fs with
          pending := parts, pendingEnd := w.fs.seq, pendingSnapshot := true } } w.db.main := by
      refine ⟨rfl, ?_, ⟨w.committed, parts, why, ⟨0, 0, .inl rfl, Nat.zero_le _, rfl, ?_⟩, hbelow,
        hparts⟩, follows_main hok⟩
      · obtain ⟨s, hs, -⟩ := (chain_snapshot hparts).exists_snapshot
        exact List.ne_nil_of_mem hs
      · simp
    obtain ⟨hdb, hfail, hdone⟩ := hretained.flush outcomes
    generalize flushPending outcomes { w with fs := { w.fs with
      pending := parts, pendingEnd := w.fs.seq, pendingSnapshot := true } } = out at hdb hfail hdone
    obtain ⟨err, w'⟩ := out
    cases err with
    | some e => exact ⟨hdb, fun _ => .inr (hfail (Option.some_ne_none e)), nofun⟩
    | none => exact ⟨hdb, fun hne => absurd rfl hne, fun _ => hdone rfl⟩

end Invariant

end CellHive.DoSupervisor
