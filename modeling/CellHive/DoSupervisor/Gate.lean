import CellHive.DoSupervisor.Phases

/-!
# The output gate

When `syncFile` returns without an error, a restore of what is committed must show a state
of the database from the time of the call. `gate_sound` proves this for every run in which
every restart of the log is noticed, and in which the main file has all transactions when a
call finds a restarted log. `gate_misses_commit` shows a run without the second condition.
-/

namespace CellHive.DoSupervisor

open Go Ltx Wal Sqlite Restore

variable {pageSize : UInt32}

/-! ## Runs -/

/-- A step of the process that owns the file, or a call of the gate. -/
inductive Event (pageSize : UInt32) where
  | work (s : Step pageSize)
  | sync (call : Call pageSize)

def World.next (cfg : Config) (w : World pageSize) : Event pageSize → World pageSize
  | .work s => { w with db := w.db.step s }
  | .sync call => (syncFile cfg call w).2

def World.run (cfg : Config) (w : World pageSize) (events : List (Event pageSize)) :
    World pageSize :=
  events.foldl (World.next cfg) w

/-- The other process does only what SQLite allows. -/
def Possible (w : World pageSize) : Event pageSize → Prop
  | .work s => w.db.Allows s
  | .sync call => Steps (fun _ => True) w.db call.steps

/-! ## What a run must avoid -/

/-- The sizes of what a call encodes are within the limits of the format. -/
structure CallFits (cfg : Config) (call : Call pageSize) (w : World pageSize)
    (commits : List (Commit pageSize)) : Prop where
  frames : (commitFrames commits).length < 2 ^ 32
  fits : Fits cfg.compress pageSize (commitFrames commits).length
  txids : ∀ seq, seq = label w.fs ∨ seedCaptureWatermark cfg call.restoreFails w = .ok seq →
    seq.toNat + commits.length < 2 ^ 64

/-- What a call needs. The log is restarted during the call only if that will be noticed. If
the poll finds a restarted log, then the main file that is read again is the database at a
moment of the call, and no committed snapshot has the label of the next one. -/
structure CallReady (cfg : Config) (call : Call pageSize) (w : World pageSize) : Prop where
  read : Steps (Restartable w.fs) w.db call.beforeRead
  poll : Steps (Watched w.fs) (call.beforeRead.foldl Db.step w.db)
    (call.beforePoll ++ call.beforeReread)
  backfilled : RestartFound w.fs ((call.beforeRead ++ call.beforePoll).foldl Db.step w.db) →
    ∃ db ∈ moments call w, Image.Same (call.steps.foldl Db.step w.db).main.image db.view
  unlabelled : RestartFound w.fs ((call.beforeRead ++ call.beforePoll).foldl Db.step w.db) →
    ∀ s ∈ w.committed, ∀ d, decode s = .ok d → d.1.kind = kindSnapshot →
      d.1.startTxID ≠ label w.fs
  fits : CallFits cfg call w ((call.beforeRead ++ call.beforePoll).foldl Db.step w.db).commits

def Ready (cfg : Config) (w : World pageSize) : Event pageSize → Prop
  | .work s => w.db.Allows s ∧ ((∃ g, s = .restart g) → Restartable w.fs w.db)
  | .sync call => CallReady cfg call w

def Along (cfg : Config) (property : World pageSize → Event pageSize → Prop) :
    World pageSize → List (Event pageSize) → Prop
  | _, [] => True
  | w, event :: rest => property w event ∧ Along cfg property (w.next cfg event) rest

/-- A new supervisor at a file, with what an earlier one committed. -/
structure Start (cfg : Config) (w : World pageSize) : Prop where
  new : w.fs = .new
  db : DbOk w.db
  settled : Settled cfg w.committed

/-! ## The gate -/

section Gate

variable {cfg : Config} {call : Call pageSize} {w : World pageSize} {a : Image}

variable (cfg call w) in
/-- What a call comes to. -/
abbrev Gated : Option Err × World pageSize → Prop :=
  Ends cfg fun w' => Shown call w w'.committed

theorem mem_store {committed : List Bytes} {segment s : Bytes} (h : s ∈ store committed segment) :
    s ∈ committed ∨ s = segment := by
  unfold store at h
  split at h
  · exact .inl h
  · simpa using h

theorem mem_of_mem_commitAll {outcomes : Nat → Outcome} {k : Nat} {pending committed : List Bytes}
    {s : Bytes} (h : s ∈ (commitAll outcomes k pending committed).2.1) :
    s ∈ committed ∨ s ∈ pending := by
  induction pending generalizing k committed with
  | nil => exact .inl h
  | cons segment rest ih =>
    have hfirst : s ∈ store committed segment → s ∈ committed ∨ s ∈ segment :: rest := by
      intro hin
      rcases mem_store hin with hin | rfl
      · exact .inl hin
      · exact .inr List.mem_cons_self
    unfold commitAll at h
    cases hout : outcomes k with
    | committed =>
      rw [hout] at h
      rcases ih h with hin | hin
      · exact hfirst hin
      · exact .inr (List.mem_cons_of_mem _ hin)
    | failed applied e =>
      rw [hout] at h
      dsimp only at h
      split at h
      · exact hfirst h
      · exact .inl h

theorem mem_of_mem_flushPending {outcomes : Nat → Outcome} {s : Bytes}
    (h : s ∈ (flushPending outcomes w).2.committed) : s ∈ w.committed ∨ s ∈ w.fs.pending := by
  unfold flushPending at h
  split at h
  · exact .inl h
  have hmem : s ∈ (commitAll outcomes 0 w.fs.pending w.committed).2.1 → _ := mem_of_mem_commitAll
  generalize commitAll outcomes 0 w.fs.pending w.committed = out at h hmem
  obtain ⟨pending, committed, err⟩ := out
  cases err with
  | some | none => exact hmem h

theorem Running.below (h : Running cfg w a)
    (hlabel : ∀ s ∈ w.committed, ∀ d, decode s = .ok d → d.1.kind = kindSnapshot →
      d.1.startTxID ≠ label w.fs) :
    ∀ s, s ∈ w.committed ∨ s ∈ w.fs.pending → ∃ d, decode s = .ok d ∧ Below (label w.fs) d.1 := by
  obtain ⟨old, segs, base, hold, hcases⟩ := h.stored
  have hall : ∀ {all : List Bytes} {last : UInt64} {b : Image}, Chain cfg pageSize all base last b →
      last = label w.fs → (∀ s, s ∈ w.committed ∨ s ∈ w.fs.pending → s ∈ old ++ all) →
      (∃ s ∈ w.committed, ∃ d, decode s = .ok d ∧ d.1.kind = kindSnapshot ∧
        d.1.startTxID = base) →
      ∀ s, s ∈ w.committed ∨ s ∈ w.fs.pending →
        ∃ d, decode s = .ok d ∧ Below (label w.fs) d.1 := by
    intro all last b hchain hlast hin hsnap s hs
    obtain ⟨t, ht, d, hdec, hkind, hbase⟩ := hsnap
    have hne : base ≠ label w.fs := hbase ▸ hlabel t ht d hdec hkind
    have hlt : base < label w.fs := by
      have hle := hchain.le
      rw [hlast] at hle
      exact UInt64.lt_of_le_of_ne hle hne
    have hbelow : AllBelow (label w.fs) (old ++ all) :=
      (hold.mono (UInt64.le_of_lt hlt)).append
        (hchain.allBelow hlt (hlast ▸ UInt64.le_refl last))
    exact hbelow s (hin s hs)
  rcases hcases with ⟨hnil, hcommitted, hchain⟩ |
    ⟨segment, b, hpending, hpartly, -, hbefore, hafter⟩
  · refine hall hchain ?_ ?_ ?_
    · unfold label
      rw [if_pos hnil]
    · intro s hs
      rw [hnil, hcommitted] at hs
      simpa using hs
    · obtain ⟨s, hs, hd⟩ := hchain.exists_snapshot
      exact ⟨s, hcommitted ▸ List.mem_append_right _ hs, hd⟩
  · obtain ⟨j, i, -, -, -, hcommitted⟩ := hpartly
    refine hall hafter ?_ ?_ ?_
    · unfold label
      rw [if_neg (by rw [hpending]; exact List.cons_ne_nil _ _)]
    · intro s hs
      rw [hpending, hcommitted] at hs
      rw [← List.append_assoc]
      rcases hs with hs | hs
      · rcases List.mem_append.1 hs with hs | hs
        · exact List.mem_append_left _ hs
        · exact List.mem_append_right _ (List.mem_of_mem_take hs)
      · exact List.mem_append_right _ hs
    · obtain ⟨s, hs, hd⟩ := hbefore.exists_snapshot
      refine ⟨s, ?_, hd⟩
      rw [hcommitted]
      exact List.mem_append_left _ (List.mem_append_right _ hs)

theorem Outdated.restartFound {db : Db pageSize} {fs : FileState} (h : Outdated db fs)
    (hok : DbOk db) (hsnap : fs.pendingSnapshot = false) : RestartFound fs db := by
  refine ⟨hsnap, ?_⟩
  rcases h with hpending | ⟨hsalt, hpast⟩
  · exact .inl hpending
  cases hlog : db.log with
  | none =>
    rw [hok.first hlog] at hpast
    cases hpast
  | some log =>
    refine .inr ⟨hsalt, log, rfl, fun heq => ?_⟩
    rw [heq] at hpast
    exact hok.fresh log hlog hpast

theorem Current.advance {steps : List (Step pageSize)} (h : Current cfg w a)
    (hs : Steps (fun db => db.log = none) w.db steps) : Current cfg (w.advance steps) a := by
  have hfollows : Follows (steps.foldl Db.step w.db) w.fs.cursor a := by
    have hstart := h.follows
    generalize w.db = db at hs hstart
    induction steps generalizing db with
    | nil => exact hstart
    | cons s steps ih =>
      exact ih (db.step s) hs.2.2 (hstart.next hs.1 hs.2.1)
  refine ⟨⟨h.baseline, h.pendingSnapshot, h.stored, ?_⟩, h.pending, h.checkpointPending, hfollows⟩
  exact .inl ⟨h.checkpointPending, hfollows⟩

theorem CallReady.reread {w₀ : World pageSize} (hready : CallReady cfg call w₀)
    (hdb : w.db = (call.beforeRead ++ call.beforePoll).foldl Db.step w₀.db)
    (hwatched : ∀ db : Db pageSize, Watched w₀.fs db → Watched w.fs db) :
    Steps (Watched w.fs) w.db call.beforeReread := by
  rw [hdb, List.foldl_append]
  exact (steps_append.1 hready.poll).2.mono hwatched

/-- From the poll on, a capture that is up to date shows what it polled. -/
theorem Current.finish {w₀ : World pageSize} (h : Current cfg w a) (hok : DbOk w.db)
    (hready : CallReady cfg call w₀)
    (hdb : w.db = (call.beforeRead ++ call.beforePoll).foldl Db.step w₀.db)
    (hwatched : ∀ db : Db pageSize, Watched w₀.fs db → Watched w.fs db)
    (hseq : w.fs.seq = label w₀.fs ∨
      seedCaptureWatermark cfg call.restoreFails w₀ = .ok w.fs.seq) :
    Gated cfg call w₀ (DoSupervisor.pollAndCapture cfg call w) := by
  have hfits : DeltaFits cfg w.fs.seq w.db.commits := by
    obtain ⟨hframes, hfits, htxids⟩ := hready.fits
    rw [← hdb] at hframes hfits htxids
    exact ⟨hframes, hfits, htxids _ hseq⟩
  obtain ⟨hinv, hshows⟩ := h.pollAndCapture hok (hready.reread hdb hwatched) hfits
  refine ⟨hinv, fun hnone => ?_⟩
  obtain ⟨b, hrunning, hpending, hsame⟩ := hshows hnone
  apply hrunning.shown hpending ?_ hsame
  rw [hdb]
  apply foldl_mem_moments
  unfold Call.steps
  rw [← List.append_assoc]
  exact List.prefix_append _ _

theorem Running.watched {fs : FileState} (h : Running cfg w a) (hcursor : w.fs.cursor = fs.cursor)
    (hcheck : w.fs.checkpointPending = fs.checkpointPending) (db : Db pageSize)
    (hw : Watched fs db) : Watched w.fs db := by
  rcases hw with hnone | ⟨-, hsome⟩
  · exact .inl hnone
  · refine .inr ⟨h.pendingSnapshot, ?_⟩
    rw [hcursor, hcheck]
    exact hsome

/-- The states in which a capture can come to its poll: the cursor still follows the log, or
the poll will find that it was restarted. -/
theorem Running.finish {w₀ : World pageSize} (h : Running cfg w a) (hpending : w.fs.pending = [])
    (hok : DbOk w.db) (hready : CallReady cfg call w₀)
    (hdb : w.db = (call.beforeRead ++ call.beforePoll).foldl Db.step w₀.db)
    (hcursor : w.fs.cursor = w₀.fs.cursor)
    (hcheck : w.fs.checkpointPending = w₀.fs.checkpointPending)
    (hsnap : w₀.fs.pendingSnapshot = false) (hseq : w.fs.seq = label w₀.fs)
    (hbelow : RestartFound w₀.fs w.db → AllBelow w.fs.seq w.committed) :
    Gated cfg call w₀ (DoSupervisor.pollAndCapture cfg call w) := by
  have hwatched := h.watched hcursor hcheck
  rcases h.tracks with ⟨hcp, hfollows⟩ | hout
  · exact Current.finish ⟨h, hpending, hcp, hfollows⟩ hok hready hdb hwatched (.inl hseq)
  have hout₀ : Outdated w.db w₀.fs := by
    unfold Outdated at hout ⊢
    rw [← hcursor, ← hcheck]
    exact hout
  have hfound : RestartFound w₀.fs w.db := hout₀.restartFound hok hsnap
  have hbehind := hbelow hfound
  rw [hdb] at hfound
  obtain ⟨db, hmoment, hmain⟩ := hready.backfilled hfound
  have hafter : (w.advance call.beforeReread).db = call.steps.foldl Db.step w₀.db := by
    unfold World.advance Call.steps
    rw [hdb, ← List.append_assoc, ← List.foldl_append]
  have hstate : Behind cfg call db.view w a := by
    refine ⟨h, hpending, hout, hbehind, ?_⟩
    rw [hafter]
    exact hmain
  obtain ⟨hinv, hshows⟩ := hstate.pollAndCapture hok (hready.reread hdb hwatched)
  refine ⟨hinv, fun hnone => ?_⟩
  obtain ⟨b, hrunning, hempty, hsame⟩ := hshows hnone
  exact hrunning.shown hempty hmoment hsame

theorem takeBaseline_of_baseline (h : w.fs.baseline = true) : takeBaseline cfg call w = (none, w) :=
  if_pos h

theorem Fresh.syncFile (h : Fresh cfg w) (hok : DbOk w.db) (hready : CallReady cfg call w)
    (hclaim : call.claimFails = none) :
    Gated cfg call w (syncFile cfg call w) := by
  have hflush : flushPending call.retried w = (none, w) := if_pos h.pending
  have hlog : ∀ db : Db pageSize, Watched w.fs db → db.log = none := by
    rintro db (hnone | ⟨-, hsalt | hcp⟩)
    · exact hnone
    · rw [h.cursor] at hsalt
      cases hsalt
    · rw [h.checkpointPending] at hcp
      cases hcp
  have hfresh : Fresh cfg (w.advance call.beforeRead) :=
    ⟨h.baseline, h.pending, h.pendingSnapshot, h.cursor, h.checkpointPending, h.settled⟩
  obtain ⟨hinv, hdone⟩ := hfresh.takeBaseline call (hready.read.dbOk hok)
  unfold DoSupervisor.syncFile
  rw [hclaim, hflush]
  dsimp only
  generalize DoSupervisor.takeBaseline cfg call (w.advance call.beforeRead) = out at hinv hdone
  obtain ⟨err, w'⟩ := out
  cases err with
  | some e => exact ⟨hinv, nofun⟩
  | none =>
    obtain ⟨hdb, hseed, hcurrent⟩ := hdone rfl
    have hdb' : w'.db = call.beforeRead.foldl Db.step w.db := hdb
    have hpoll : Steps (fun db => db.log = none) w'.db call.beforePoll := by
      rw [hdb']
      exact (steps_append.1 hready.poll).1.mono hlog
    refine (hcurrent.advance hpoll).finish (hpoll.dbOk hinv.1) hready ?_
      (fun db hdb => .inl (hlog db hdb)) (.inr hseed)
    unfold World.advance
    rw [hdb', List.foldl_append]

theorem Retained.syncFile {m : Main pageSize} (h : Retained cfg w m) (hok : DbOk w.db)
    (hready : CallReady cfg call w) (hclaim : call.claimFails = none) :
    Gated cfg call w (syncFile cfg call w) := by
  have hlog : ∀ db : Db pageSize, Restartable w.fs db → db.log = none := fun _ => h.log_none
  obtain ⟨hdb, hfail, hdone⟩ := h.flush call.retried
  unfold DoSupervisor.syncFile
  rw [hclaim]
  generalize flushPending call.retried w = out at hdb hfail hdone
  obtain ⟨err, w'⟩ := out
  have hok' : DbOk w'.db := hdb ▸ hok
  cases err with
  | some e =>
    exact ⟨⟨hok', .inr (.inl ⟨m, hfail (Option.some_ne_none e)⟩)⟩, nofun⟩
  | none =>
    dsimp only
    have hread : Steps (fun db => db.log = none) w'.db call.beforeRead := by
      rw [hdb]
      exact hready.read.mono hlog
    have hcurrent := (hdone rfl).1.advance hread
    have hseq : w'.fs.seq = label w.fs := by
      rw [(hdone rfl).2, label, if_neg h.pending]
    have hdb' : (w'.advance call.beforeRead).db = call.beforeRead.foldl Db.step w.db := by
      unfold World.advance
      rw [hdb]
    have hpoll : Steps (fun db => db.log = none) (w'.advance call.beforeRead).db
        call.beforePoll := by
      rw [hdb']
      exact (steps_append.1 hready.poll).1.mono fun db hw => hlog db (.inr hw)
    rw [takeBaseline_of_baseline hcurrent.baseline]
    refine (hcurrent.advance hpoll).finish (hpoll.dbOk (hread.dbOk hok')) hready ?_
      (fun db hw => .inl (hlog db (.inr hw))) (.inl hseq)
    rw [List.foldl_append, ← hdb']
    rfl

theorem Running.syncFile (h : Running cfg w a) (hok : DbOk w.db) (hready : CallReady cfg call w)
    (hclaim : call.claimFails = none) :
    Gated cfg call w (syncFile cfg call w) := by
  obtain ⟨hdb, hrun, hcursor, hcheck, hdone⟩ := h.flush call.retried
  have hmem : ∀ s, s ∈ (flushPending call.retried w).2.committed → _ :=
    fun s => mem_of_mem_flushPending
  unfold DoSupervisor.syncFile
  rw [hclaim]
  generalize flushPending call.retried w = out at hdb hrun hcursor hcheck hdone hmem
  obtain ⟨err, w'⟩ := out
  have hok' : DbOk w'.db := hdb ▸ hok
  cases err with
  | some e => exact ⟨hrun.inv hok', nofun⟩
  | none =>
    dsimp only
    have hwatched := hrun.watched hcursor hcheck
    have hread : Steps (Watched w'.fs) w'.db call.beforeRead := by
      rw [hdb]
      exact hready.read.mono fun db hr => hwatched db (h.watched_of_restartable hr)
    have hdb' : (w'.advance call.beforeRead).db = call.beforeRead.foldl Db.step w.db := by
      unfold World.advance
      rw [hdb]
    have hpoll : Steps (Watched w'.fs) (w'.advance call.beforeRead).db call.beforePoll := by
      rw [hdb']
      exact (steps_append.1 hready.poll).1.mono hwatched
    have hrunning := hrun.advance hread
    have hpollDb : ((w'.advance call.beforeRead).advance call.beforePoll).db =
        (call.beforeRead ++ call.beforePoll).foldl Db.step w.db := by
      rw [List.foldl_append, ← hdb']
      rfl
    rw [takeBaseline_of_baseline hrunning.baseline]
    have hlabel : ((w'.advance call.beforeRead).advance call.beforePoll).fs.seq = label w.fs :=
      (hdone rfl).2
    refine (hrunning.advance hpoll).finish (hdone rfl).1 (hpoll.dbOk (hread.dbOk hok')) hready
      hpollDb hcursor hcheck h.pendingSnapshot hlabel fun hfound => ?_
    rw [hpollDb] at hfound
    intro s hs
    rw [hlabel]
    exact h.below (hready.unlabelled hfound) s (hmem s hs)

theorem Inv.syncFile (h : Inv cfg w) (hready : CallReady cfg call w) :
    Gated cfg call w (syncFile cfg call w) := by
  cases hclaim : call.claimFails with
  | some e =>
    unfold DoSupervisor.syncFile
    rw [hclaim]
    exact ⟨h, nofun⟩
  | none =>
    obtain ⟨hok, hfresh | ⟨m, hretained⟩ | ⟨a, hrunning⟩⟩ := h
    · exact hfresh.syncFile hok hready hclaim
    · exact hretained.syncFile hok hready hclaim
    · exact hrunning.syncFile hok hready hclaim

theorem Start.inv (h : Start cfg w) : Inv cfg w := by
  refine ⟨h.db, .inl ?_⟩
  constructor
  all_goals first | exact h.settled | rw [h.new]; rfl

theorem Inv.run {events more : List (Event pageSize)} (h : Inv cfg w)
    (hready : Along cfg (Ready cfg) w (events ++ more)) :
    Inv cfg (w.run cfg events) ∧ Along cfg (Ready cfg) (w.run cfg events) more := by
  induction events generalizing w with
  | nil => exact ⟨h, hready⟩
  | cons event events ih =>
    obtain ⟨hevent, hrest⟩ := hready
    refine ih ?_ hrest
    cases event with
    | work s => exact h.work hevent.1 hevent.2
    | sync call => exact (h.syncFile hevent).1

end Gate

/-! ## The file is only read -/

section File

variable {cfg : Config} {call : Call pageSize} {w : World pageSize}

theorem db_eq {out : Option Err × World pageSize} {err : Option Err} {db : Db pageSize}
    (h : out = (err, w)) (hdb : out.2.db = db) : w.db = db := by
  rwa [h] at hdb

theorem flushPending_db {outcomes : Nat → Outcome} : (flushPending outcomes w).2.db = w.db := by
  unfold flushPending
  split
  · rfl
  · split
    · rfl
    · rfl

theorem snapshot_db {readFails : Option Err} {outcomes : Nat → Outcome} {why : String} :
    (snapshot cfg readFails outcomes why w).2.db = w.db := by
  unfold snapshot
  cases readFails with
  | some e => rfl
  | none =>
    rcases snapshotParts cfg w.fs.seq w.db.main.pages.flatten why with e | parts
    · rfl
    dsimp only
    split
    next hflush => exact db_eq hflush flushPending_db
    next hflush => exact db_eq hflush flushPending_db

theorem takeBaseline_db : (takeBaseline cfg call w).2.db = w.db := by
  unfold takeBaseline
  split
  · rfl
  split
  · rfl
  · dsimp only
    split
    next hsnap => exact (db_eq hsnap snapshot_db :)
    next hsnap => exact (db_eq hsnap snapshot_db :)

theorem capturePolled_db {res : PollResult} : (capturePolled cfg call res w).2.db = w.db := by
  unfold capturePolled
  split
  · split
    next hsnap => exact (db_eq hsnap snapshot_db :)
    next hsnap => exact (db_eq hsnap snapshot_db :)
  · split
    · rfl
    · unfold delta
      split
      · rfl
      · exact flushPending_db

theorem pollAndCapture_db :
    (pollAndCapture cfg call w).2.db = call.beforeReread.foldl Db.step w.db := by
  unfold pollAndCapture
  dsimp only
  split
  · exact capturePolled_db
  · split
    · exact capturePolled_db
    · rfl

theorem syncFile_db (h : call.steps = []) : (syncFile cfg call w).2.db = w.db := by
  obtain ⟨hread, hrest⟩ := List.append_eq_nil_iff.1 h
  obtain ⟨hpoll, hreread⟩ := List.append_eq_nil_iff.1 hrest
  unfold syncFile
  split
  · rfl
  split
  next hflush => exact db_eq hflush flushPending_db
  next w' hflush =>
    have hdb : (w'.advance call.beforeRead).db = w.db := by
      rw [hread]
      exact db_eq hflush flushPending_db
    split
    next hbase =>
      exact (db_eq hbase takeBaseline_db).trans hdb
    next hbase =>
      rw [pollAndCapture_db, hreread, hpoll]
      exact (db_eq hbase takeBaseline_db).trans hdb

end File

/-! ## A run that the gate lets through -/

section Small

def smallPage (n : UInt8) : Bytes := List.replicate 16 0 ++ [0, 128] ++ List.replicate 110 n

def smallMain (n : UInt8) (h : headerPageSize [smallPage n].flatten = 128) : Main 128 where
  pages := [smallPage n]
  sized := by
    intro page hpage
    rw [List.mem_singleton.1 hpage]
    rfl
  header := h
  few := Nat.succ_lt_succ (by decide)

def smallCommit (n : UInt8) : Commit 128 := .single (smallPage n) rfl

def smallLog (salt : UInt32) : Generation 128 := ⟨false, 0, salt, 2, by decide⟩

def smallConfig : Config := ⟨"/do/a.sqlite", "do/tenant/a", 1, false, false⟩

/-- A new supervisor at a file without a log. -/
def smallWorld : World 128 := ⟨⟨smallMain 0 (by decide), none, []⟩, .new, []⟩

/-- A call during which nothing else happens, with the commit of its baseline. -/
def smallCall (baselined : Nat → Outcome) : Call 128 where
  claimFails := none
  retried := fun _ => .committed
  restoreFails := none
  beforeRead := []
  readFails := none
  baselined
  beforePoll := []
  logEnd := LogEnd.nothing
  cancelled := fun _ => false
  beforeReread := []
  rereadFails := none
  captured := fun _ => .committed

def quietCall : Call 128 := smallCall fun _ => .committed

/-- One transaction is captured and copied into the main file; then the log is restarted and
another transaction is appended. -/
def restartedRun : List (Event 128) :=
  [.work (.restart (smallLog 1)), .sync quietCall, .work (.append (smallCommit 1)), .sync quietCall,
    .work (.checkpoint (smallMain 1 (by decide))), .work (.restart (smallLog 3)),
    .work (.append (smallCommit 2))]

theorem dbOk_small : DbOk smallWorld.db where
  whole := whole_main
  few := by decide
  first := fun _ => rfl
  fresh := fun _ => nofun

theorem eq_one {p : UInt32} (h1 : 1 ≤ p) (h2 : p ≤ 1) : p = 1 := by
  rw [UInt32.le_iff_toNat_le] at h1 h2
  exact UInt32.toNat_inj.1 (by omega)

theorem fills_small {n : UInt8} : Fills 1 (smallCommit n) := by
  intro p h1 h2
  exact absurd h1 (UInt32.not_lt.2 h2)

theorem start_small : Start smallConfig smallWorld := ⟨rfl, dbOk_small, .inl rfl⟩

theorem restartedRun_db : Steps (fun _ => True) smallWorld.db
    [.restart (smallLog 1), .append (smallCommit 1), .checkpoint (smallMain 1 (by decide)),
      .restart (smallLog 3), .append (smallCommit 2)] := by
  refine ⟨⟨.refl _, List.not_mem_nil, fun _ => nofun⟩, fun _ => trivial,
    ⟨rfl, fills_small, by decide⟩, fun _ => trivial,
    ⟨nofun, fun p h1 h2 hnone => ?_⟩, fun _ => trivial,
    ⟨⟨rfl, fun p h1 h2 => ?_⟩, by decide, fun log hlog => ?_⟩, fun _ => trivial,
    ⟨rfl, fills_small, by decide⟩, fun _ => trivial, trivial⟩
  · rw [eq_one h1 h2] at hnone
    cases hnone
  · rw [eq_one h1 h2]
    rfl
  · cases hlog
    decide

theorem restartedRun_possible : Along smallConfig Possible smallWorld restartedRun := by
  obtain ⟨h1, -, h2, -, h3, -, h4, -, h5, -, -⟩ := restartedRun_db
  have hquiet : ∀ w : World 128, (w.next smallConfig (.sync quietCall)).db = w.db :=
    fun w => syncFile_db rfl
  have hwork : ∀ (w : World 128) (s : Step 128),
      (w.next smallConfig (.work s)).db = w.db.step s := fun w s => rfl
  refine ⟨h1, trivial, ?_, trivial, ?_, ?_, ?_, trivial⟩
  all_goals unfold Possible; dsimp only
  · rw [hquiet]
    exact h2
  · rw [hquiet, hwork, hquiet]
    exact h3
  · rw [hwork, hquiet, hwork, hquiet]
    exact h4
  · rw [hwork, hwork, hquiet, hwork, hquiet]
    exact h5

set_option maxRecDepth 100000 in
/-- The second transaction is not in what is committed when the call returns. -/
theorem gate_misses_commit :
    Start smallConfig smallWorld ∧ Along smallConfig Possible smallWorld restartedRun ∧
      (syncFile smallConfig quietCall (smallWorld.run smallConfig restartedRun)).1 = none ∧
      ¬ Shown quietCall (smallWorld.run smallConfig restartedRun)
        (syncFile smallConfig quietCall (smallWorld.run smallConfig restartedRun)).2.committed := by
  refine ⟨start_small, restartedRun_possible, by decide +kernel, ?_⟩
  rintro ⟨r, hr, db, hdb, -, -, hpages⟩
  have hmerged : ((mergeChain (syncFile smallConfig quietCall
      (smallWorld.run smallConfig restartedRun)).2.committed).toOption.map Merged.pages) =
        some [⟨1, smallPage 1⟩] := by
    decide +kernel
  have hview : imagePages (smallWorld.run smallConfig restartedRun).db.view.page
      (smallWorld.run smallConfig restartedRun).db.view.count = [⟨1, smallPage 2⟩] := by
    decide +kernel
  have hmoment : db = (smallWorld.run smallConfig restartedRun).db := List.mem_singleton.1 hdb
  rw [hr] at hmerged
  rw [hmoment, hview] at hpages
  have hsame := hpages.symm.trans (Option.some.inj hmerged)
  exact absurd hsame (by decide)

end Small

/-! ## The theorem -/

/-- In every run that keeps the conditions, a call that returns no error leaves the file
restorable as it was during the call. -/
theorem gate_sound (cfg : Config) (w : World pageSize) (events : List (Event pageSize))
    (call : Call pageSize) (hstart : Start cfg w)
    (hready : Along cfg (Ready cfg) w (events ++ [.sync call]))
    (hnil : (syncFile cfg call (w.run cfg events)).1 = none) :
    Shown call (w.run cfg events) (syncFile cfg call (w.run cfg events)).2.committed := by
  obtain ⟨hinv, hlast⟩ := hstart.inv.run hready
  exact (hinv.syncFile hlast.1).2 hnil

/-- The first commit fails and is retried after a transaction was appended. -/
def retriedRun : List (Event 128) :=
  [.work (.restart (smallLog 1)),
    .sync (smallCall fun _ => .failed false (.errorf "bucket unavailable")),
    .work (.append (smallCommit 1))]

theorem fits_small {w : World 128} {call : Call 128} {commits : List (Commit 128)}
    (hlen : (commitFrames commits).length ≤ 1) (hcommits : commits.length ≤ 1)
    (hlabel : label w.fs = 0) (hseq : w.fs.seq = 0) : CallFits smallConfig call w commits where
  frames := by omega
  fits := by
    have hone : Fits false 128 1 := show FitsV1 128 1 by decide
    exact hone.mono hlen
  txids := by
    intro seq hstart
    have hzero : seq = 0 := by
      rcases hstart with rfl | hseed
      · exact hlabel
      · rw [← hseq]
        exact (Except.ok.inj hseed).symm
    rw [hzero]
    exact Nat.lt_of_le_of_lt (Nat.add_le_add_left hcommits _) (by decide)

set_option maxRecDepth 100000 in
theorem retriedRun_ready :
    Along smallConfig (Ready smallConfig) smallWorld (retriedRun ++ [.sync quietCall]) := by
  obtain ⟨h1, -, h2, -⟩ := restartedRun_db
  have hretained : (smallWorld.run smallConfig retriedRun).fs.pendingSnapshot = true := by
    decide +kernel
  have hdb : (smallWorld.run smallConfig (retriedRun.take 2)).db =
      smallWorld.db.step (.restart (smallLog 1)) := syncFile_db rfl
  refine ⟨⟨h1, fun _ => .inr (.inl rfl)⟩, ⟨trivial, trivial, ?_, ?_, ?_⟩, ⟨?_, ?_⟩,
    ⟨trivial, trivial, ?_, ?_, ?_⟩, trivial⟩
  · rintro ⟨-, hcp | ⟨hsalt, -⟩⟩
    · cases hcp
    · cases hsalt
  · rintro ⟨-, hcp | ⟨hsalt, -⟩⟩
    · cases hcp
    · cases hsalt
  · exact fits_small (Nat.zero_le _) (Nat.zero_le _) rfl rfl
  · exact hdb ▸ h2
  · rintro ⟨g, hg⟩
    cases hg
  · rintro ⟨hno, -⟩
    exact absurd (hretained.symm.trans hno) (by decide)
  · rintro ⟨hno, -⟩
    exact absurd (hretained.symm.trans hno) (by decide)
  · have hlabel : label (smallWorld.run smallConfig retriedRun).fs = 0 := by decide +kernel
    have hseq : (smallWorld.run smallConfig retriedRun).fs.seq = 0 := by decide +kernel
    have hframes : (commitFrames (smallWorld.run smallConfig retriedRun).db.commits).length ≤ 1 := by
      decide +kernel
    have hcommits : (smallWorld.run smallConfig retriedRun).db.commits.length ≤ 1 := by
      decide +kernel
    exact fits_small hframes hcommits hlabel hseq

set_option maxRecDepth 100000 in
/-- The retried call shows the transaction. -/
theorem gate_sound_retried :
    Shown quietCall (smallWorld.run smallConfig retriedRun)
      (syncFile smallConfig quietCall (smallWorld.run smallConfig retriedRun)).2.committed :=
  gate_sound smallConfig smallWorld retriedRun quietCall start_small retriedRun_ready
    (by decide +kernel)

end CellHive.DoSupervisor
