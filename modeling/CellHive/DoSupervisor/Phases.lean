import CellHive.DoSupervisor.Capture

/-!
# The phases of a call

What `syncFile` does from each state of the invariant, while the process that owns the file
takes any steps. A restart of the log is harmless as long as the supervisor notices it: its
cursor knows the salts of the old log, or it has not read the file yet.
-/

namespace CellHive.DoSupervisor

open Go Ltx Wal Sqlite Restore

variable {pageSize : UInt32}

/-! ## What a call shows -/

/-- What the other process does during a call. -/
def Call.steps (call : Call pageSize) : List (Step pageSize) :=
  call.beforeRead ++ (call.beforePoll ++ call.beforeReread)

def moments (call : Call pageSize) (w : World pageSize) : List (Db pageSize) :=
  call.steps.scanl Db.step w.db

/-- A restore of the committed segments shows the database at a moment of the call. All
transactions from before the call are in it at every such moment. -/
def Shown (call : Call pageSize) (w : World pageSize) (committed : List Bytes) : Prop :=
  ∃ r, mergeChain committed = .ok r ∧ ∃ db ∈ moments call w, r.pageSize = pageSize ∧
    r.commit = db.view.count ∧ r.pages = imagePages db.view.page db.view.count

/-! ## Restarts -/

def Steps (may : Db pageSize → Prop) : Db pageSize → List (Step pageSize) → Prop
  | _, [] => True
  | db, s :: rest =>
    db.Allows s ∧ ((∃ g, s = .restart g) → may db) ∧ Steps may (db.step s) rest

/-- A supervisor that has a baseline will notice a restart of the log. -/
def Watched (fs : FileState) (db : Db pageSize) : Prop :=
  db.log = none ∨ fs.pendingSnapshot = false ∧
    (fs.cursor.haveSalt = true ∨ fs.checkpointPending = true)

/-- The supervisor will notice a restart of the log, or has not read the file yet. -/
def Restartable (fs : FileState) (db : Db pageSize) : Prop :=
  fs.baseline = false ∧ fs.pendingSnapshot = false ∨ Watched fs db

/-- The transaction the next snapshot is labelled with. -/
def label (fs : FileState) : UInt64 := if fs.pending = [] then fs.seq else fs.pendingEnd

def RestartFound (fs : FileState) (db : Db pageSize) : Prop :=
  fs.pendingSnapshot = false ∧ (fs.checkpointPending = true ∨ fs.cursor.haveSalt = true ∧
    ∃ log, db.log = some log ∧
      (fs.cursor.salt1, fs.cursor.salt2) ≠ (log.1.salt1, log.1.salt2))

/-! ## Steps of the other process -/

variable {cfg : Config} {call : Call pageSize} {w : World pageSize} {a seen : Image}
  {db : Db pageSize} {fs : FileState} {m : Main pageSize} {s : Step pageSize}

theorem Tracks.step (h : Tracks db fs a) (hs : db.Allows s)
    (hrestart : (∃ g, s = .restart g) → Watched fs db) : Tracks (db.step s) fs a := by
  rcases h with ⟨hcp, hfollows⟩ | hout
  · by_cases his : ∃ g, s = .restart g
    · obtain ⟨g, rfl⟩ := his
      rcases hrestart ⟨g, rfl⟩ with hnone | ⟨-, hsalt | hpending⟩
      · exact .inl ⟨hcp, hfollows.start hnone hs⟩
      · exact .inr (hfollows.outdated hsalt)
      · rw [hcp] at hpending
        cases hpending
    · exact .inl ⟨hcp, hfollows.step hs fun g hg => his ⟨g, hg⟩⟩
  · exact .inr hout.step

theorem Retained.log_none (h : Retained cfg w m) (hr : Restartable w.fs db) : db.log = none := by
  rcases hr with ⟨-, hno⟩ | hnone | ⟨hno, -⟩
  · rw [h.pendingSnapshot] at hno
    cases hno
  · exact hnone
  · rw [h.pendingSnapshot] at hno
    cases hno

theorem Running.watched_of_restartable (h : Running cfg w a) (hr : Restartable w.fs db) :
    Watched w.fs db := by
  rcases hr with ⟨hbase, -⟩ | hwatched
  · rw [h.baseline] at hbase
    cases hbase
  · exact hwatched

theorem Inv.work (h : Inv cfg w) (hs : w.db.Allows s)
    (hrestart : (∃ g, s = .restart g) → Restartable w.fs w.db) :
    Inv cfg { w with db := w.db.step s } := by
  obtain ⟨hok, hstate⟩ := h
  refine ⟨hok.step hs, ?_⟩
  rcases hstate with hfresh | ⟨m, hretained⟩ | ⟨a, hrunning⟩
  · exact .inl ⟨hfresh.baseline, hfresh.pending, hfresh.pendingSnapshot, hfresh.cursor,
      hfresh.checkpointPending, hfresh.settled⟩
  · exact .inr (.inl ⟨m, hretained.pendingSnapshot, hretained.pending, hretained.parts,
      hretained.follows.next hs fun his => hretained.log_none (hrestart his)⟩)
  · exact .inr (.inr ⟨a, hrunning.baseline, hrunning.pendingSnapshot, hrunning.stored,
      hrunning.tracks.step hs fun his => hrunning.watched_of_restartable (hrestart his)⟩)

/-! ## Steps during a call -/

variable {may may' : Db pageSize → Prop} {xs more : List (Step pageSize)}

theorem steps_append :
    Steps may db (xs ++ more) ↔ Steps may db xs ∧ Steps may (xs.foldl Db.step db) more := by
  induction xs generalizing db with
  | nil => simp [Steps]
  | cons s xs ih =>
    rw [List.cons_append, Steps, Steps, ih, List.foldl_cons]
    simp only [and_assoc]

theorem Steps.mono (h : Steps may db xs) (hmay : ∀ db, may db → may' db) :
    Steps may' db xs := by
  induction xs generalizing db with
  | nil => trivial
  | cons s xs ih => exact ⟨h.1, fun his => hmay db (h.2.1 his), ih h.2.2⟩

theorem Steps.dbOk (h : Steps may db xs) (hok : DbOk db) : DbOk (xs.foldl Db.step db) := by
  induction xs generalizing db with
  | nil => exact hok
  | cons s xs ih => exact ih h.2.2 (hok.step h.1)

theorem Tracks.steps (h : Tracks db fs a) (hs : Steps (Watched fs) db xs) :
    Tracks (xs.foldl Db.step db) fs a := by
  induction xs generalizing db with
  | nil => exact h
  | cons s xs ih => exact ih (h.step hs.1 hs.2.1) hs.2.2

theorem Running.inv (h : Running cfg w a) (hok : DbOk w.db) : Inv cfg w :=
  ⟨hok, .inr (.inr ⟨a, h⟩)⟩

theorem Running.advance (h : Running cfg w a) (hs : Steps (Watched w.fs) w.db xs) :
    Running cfg (w.advance xs) a :=
  ⟨h.baseline, h.pendingSnapshot, h.stored, h.tracks.steps hs⟩

theorem foldl_mem_moments (h : xs <+: call.steps) :
    xs.foldl Db.step w.db ∈ moments call w := by
  obtain ⟨more, hmore⟩ := h
  unfold moments
  rw [← hmore, List.scanl_append, List.mem_append]
  left
  have hlast : (xs.scanl Db.step w.db)[xs.length]? = some (xs.foldl Db.step w.db) := by
    rw [List.getElem?_scanl, if_pos le_rfl, List.take_length]
  exact List.mem_of_getElem? hlast

/-! ## The phases of a call -/

variable {unread : List (Commit pageSize)}

theorem Running.shown {w₀ : World pageSize} (h : Running cfg w a)
    (hpending : w.fs.pending = []) (hdb : db ∈ moments call w₀) (hsame : Image.Same a db.view) :
    Shown call w₀ w.committed := by
  obtain ⟨old, segs, base, hold, hcases⟩ := h.stored
  rcases hcases with ⟨-, hcommitted, hchain⟩ | ⟨segment, b, hsome, -⟩
  · obtain ⟨r, hr, hview⟩ := hchain.mergeChain hold
    rw [← hcommitted] at hr
    have hpageSize := congrArg View.pageSize hview
    have hcommit := congrArg View.commit hview
    have hpages := congrArg View.pages hview
    refine ⟨r, hr, db, hdb, hpageSize, hcommit.trans hsame.count, hpages.trans ?_⟩
    rw [imagePages_congr hsame.page, hsame.count]
  · rw [hpending] at hsome
    cases hsome

/-- The first poll decides: a log is always readable. -/
theorem pollStableWAL_spec {observed : Observed} {cancelled : Nat → Bool} {cursor : Cursor}
    (hpoll : ∀ e, (cursor.poll observed).err = some e → e.is .walChecksum = false) :
    pollStableWAL observed cancelled 4 0 false cursor =
      if cancelled 0 then ⟨cursor, {}, some (.errorf "context canceled")⟩
      else cursor.poll observed := by
  unfold pollStableWAL
  split
  · rfl
  dsimp only
  rw [Bool.false_or]
  cases herr : (cursor.poll observed).err with
  | none =>
    dsimp only
    rw [← herr]
  | some e =>
    dsimp only
    rw [if_pos (hpoll e herr), ← herr]

/-- What a poll of a log that the cursor follows returns: everything unread. -/
structure Reads (db : Db pageSize) (a : Image) (polled : Polled)
    (unread : List (Commit pageSize)) : Prop where
  suffix : ∃ done, db.commits = done ++ unread
  same : Image.Same (a.put unread) db.view
  covers : Covers a unread
  cursor : At db polled.cursor db.commits
  transactions : polled.result.transactions = unread.map Commit.transaction
  checkpoint : polled.result.checkpoint = false
  pageSize_eq : unread ≠ [] → polled.result.header.pageSize = pageSize ∧ pageSize ≠ 0
  salt : db.log.isSome → polled.cursor.haveSalt = true
  err : polled.err = none ∨ polled.err = some (.sentinel .noWAL)

theorem Follows.poll {cursor : Cursor} (h : Follows db cursor a)
    (logEnd : (g : Generation pageSize) → LogEnd g) :
    ∃ unread, Reads db a (cursor.poll (observe db logEnd)) unread := by
  obtain ⟨done, unread, hcommits, hat, hsame, hcovers⟩ := h
  refine ⟨unread, ?_⟩
  cases hlog : db.log with
  | none =>
    have hempty : db.commits = [] := by
      unfold Db.commits
      rw [hlog]
      rfl
    rw [hempty] at hcommits
    obtain ⟨rfl, rfl⟩ := List.append_eq_nil_iff.1 hcommits.symm
    have hcursor : cursor = .empty := by
      rcases hat with ⟨hcursor, -⟩ | ⟨log, hsome, -⟩
      · exact hcursor
      · rw [hlog] at hsome
        cases hsome
    have hobserve : observe db logEnd = .missing := by
      unfold observe
      rw [hlog]
    rw [hobserve, hcursor]
    refine ⟨⟨[], hempty⟩, hsame, hcovers, .inl ⟨rfl, hempty⟩, rfl, rfl, fun hne => absurd rfl hne,
      fun hsome => ?_, .inr rfl⟩
    rw [hlog] at hsome
    cases hsome
  | some log =>
    have hall : db.commits = log.2 := by
      unfold Db.commits
      rw [hlog]
      rfl
    have hobserve : observe db logEnd = (Log.mk (logEnd log.1) log.2).observed := by
      unfold observe
      rw [hlog]
    have hpoll : cursor.poll (observe db logEnd) = polledTo log.1 done unread false := by
      rw [hobserve]
      rw [hall] at hcommits
      rcases hat with ⟨rfl, rfl⟩ | ⟨log', hsome, rfl⟩
      · have hread : Cursor.empty.poll (Log.mk (logEnd log.1) log.2).observed =
            polledTo log.1 [] log.2 false := poll_log_empty
        rw [hread, hcommits]
        rfl
      · rw [hlog] at hsome
        cases hsome
        have hlog' : (Log.mk (logEnd log.1) log.2).commits = done ++ unread := hcommits
        exact poll_log hlog'
    rw [hpoll]
    refine ⟨⟨done, hcommits⟩, hsame, hcovers, .inr ⟨log, hlog, ?_⟩, rfl, rfl,
      fun _ => ⟨rfl, log.1.pageSize_ne⟩, fun _ => rfl, .inl rfl⟩
    rw [hcommits]
    rfl

theorem delta_spec {res : PollResult} (hbase : w.fs.baseline = true)
    (hpending : w.fs.pending = []) (hstored : Stored cfg pageSize w.fs w.committed a)
    (htracks : Tracks w.db w.fs (a.put unread))
    (hres : res.transactions = unread.map Commit.transaction)
    (hsize : res.header.pageSize = pageSize) (hpos : pageSize ≠ 0) (hne : unread ≠ [])
    (hfits : DeltaFits cfg w.fs.seq unread) (hcovers : Covers a unread)
    (hwhole : (a.put unread).Whole) (hfew : (a.put unread).count.toNat < 2 ^ 32 - 1)
    (outcomes : Nat → Outcome) : (delta cfg outcomes res w).2.db = w.db ∧
      Running cfg (delta cfg outcomes res w).2 (a.put unread) ∧
      ((delta cfg outcomes res w).1 = none → (delta cfg outcomes res w).2.fs.pending = []) := by
  obtain ⟨segment, endTxID, hseg⟩ : ∃ segment endTxID,
      deltaSegment cfg w.fs.seq res = .ok (segment, endTxID) :=
    exists_deltaSegment w.fs.seq hres hsize hpos hne
  obtain ⟨old, segs, base, hold, hcases⟩ := hstored
  rcases hcases with ⟨-, hcommitted, hchain⟩ | ⟨segment, b, hsome, -⟩
  swap
  · rw [hpending] at hsome
    cases hsome
  obtain ⟨hafter, hlt⟩ :=
    hchain.delta hres hsize hne hfits hcovers hwhole hfew hseg
  obtain ⟨hd, payload, m, hdec, hkind, -, hend, -⟩ := deltaSegment_eq_ok hres hsize hfits hseg
  have hnot : segment ∉ old ++ segs := by
    apply hchain.not_mem_delta hold hdec hkind
    rw [hend]
    exact hlt
  have hrunning : Running cfg { w with fs := { w.fs with
      pending := [segment], pendingEnd := endTxID, pendingSnapshot := false } } (a.put unread) := by
    refine ⟨hbase, rfl, ⟨old, segs, base, hold, .inr ⟨segment, a, rfl, ?_, hnot, hchain, hafter⟩⟩,
      htracks⟩
    exact ⟨0, 0, .inl rfl, Nat.zero_le _, rfl, by rw [hcommitted]; simp⟩
  unfold delta
  rw [hseg]
  obtain ⟨hdb, hrun, -, -, hdone⟩ := hrunning.flush outcomes
  exact ⟨hdb, hrun, fun hnone => (hdone hnone).1⟩

theorem DeltaFits.suffix {seq : UInt64} {done : List (Commit pageSize)}
    (h : DeltaFits cfg seq (done ++ unread)) : DeltaFits cfg seq unread := by
  obtain ⟨hframes, hfits, htxids⟩ := h
  rw [commitFrames_append, List.length_append] at hframes hfits
  rw [List.length_append] at htxids
  exact ⟨by omega, hfits.mono (by omega), by omega⟩

/-- The state of the file behind a poll. -/
abbrev polledState (fs : FileState) (polled : Polled) : FileState :=
  { fs with
    cursor := polled.cursor
    checkpointPending := fs.checkpointPending || polled.result.checkpoint }

theorem Current.polled {polled : Polled} {steps : List (Step pageSize)} (h : Current cfg w a)
    (hreads : Reads w.db a polled unread)
    (hsteps : Steps (Watched w.fs) w.db steps) :
    Tracks (steps.foldl Db.step w.db) (polledState w.fs polled) (a.put unread) := by
  have hcp : (w.fs.checkpointPending || polled.result.checkpoint) = false := by
    rw [h.checkpointPending, hreads.checkpoint]
    rfl
  have hfollows : Follows w.db polled.cursor (a.put unread) :=
    ⟨w.db.commits, [], (List.append_nil _).symm, hreads.cursor, hreads.same, fun p hle _ => hle⟩
  have hsalt : w.fs.cursor.haveSalt = true → polled.cursor.haveSalt = true := by
    intro hsalt
    obtain ⟨done, unread, -, ⟨hempty, -⟩ | ⟨log, hlog, -⟩, -⟩ := h.follows
    · rw [hempty] at hsalt
      cases hsalt
    · apply hreads.salt
      rw [hlog]
      rfl
  have hwatched : ∀ db : Db pageSize, Watched w.fs db → Watched (polledState w.fs polled) db := by
    rintro db (hnone | ⟨hno, hsome | hpending⟩)
    · exact .inl hnone
    · exact .inr ⟨hno, .inl (hsalt hsome)⟩
    · rw [h.checkpointPending] at hpending
      cases hpending
  exact Tracks.steps (.inl ⟨hcp, hfollows⟩) (hsteps.mono hwatched)

def Shows (cfg : Config) (w : World pageSize) (seen : Image) : Prop :=
  ∃ b, Running cfg w b ∧ w.fs.pending = [] ∧ Image.Same b seen

/-- What a part of a call comes to: the invariant, and `P` unless there is an error. -/
structure Ends (cfg : Config) (P : World pageSize → Prop) (r : Option Err × World pageSize) :
    Prop where
  inv : Inv cfg r.2
  done : r.1 = none → P r.2

theorem Current.capturePolled {polled : Polled} (h : Current cfg w a) (hok : DbOk w.db)
    (hreads : Reads w.db a polled unread) (hreread : Steps (Watched w.fs) w.db call.beforeReread)
    (hfits : DeltaFits cfg w.fs.seq w.db.commits) :
    let w' := World.advance { w with fs := polledState w.fs polled } call.beforeReread
    Ends cfg (Shows cfg · w.db.view) (capturePolled cfg call polled.result w') := by
  intro w'
  have hok' : DbOk w'.db := hreread.dbOk hok
  have hcp : w'.fs.checkpointPending = false := by
    have hflag : w'.fs.checkpointPending =
        (w.fs.checkpointPending || polled.result.checkpoint) := rfl
    rw [hflag, h.checkpointPending, hreads.checkpoint]
    rfl
  have htracks : Tracks w'.db w'.fs (a.put unread) :=
    h.polled hreads hreread
  unfold DoSupervisor.capturePolled
  rw [hcp]
  by_cases hempty : unread = []
  · subst hempty
    have hnone : polled.result.transactions = [] := hreads.transactions
    rw [if_pos hnone]
    have hrunning : Running cfg w' a := ⟨h.baseline, h.pendingSnapshot, h.stored, htracks⟩
    exact ⟨hrunning.inv hok', fun _ => ⟨a, hrunning, h.pending, hreads.same⟩⟩
  · have hsome : polled.result.transactions ≠ [] := by
      rw [hreads.transactions]
      simpa using hempty
    rw [if_neg hsome]
    obtain ⟨done, hdone⟩ := hreads.suffix
    rw [hdone] at hfits
    obtain ⟨hsize, hpos⟩ := hreads.pageSize_eq hempty
    have hfew : (a.put unread).count.toNat < 2 ^ 32 - 1 := by
      rw [hreads.same.count]
      exact hok.few
    obtain ⟨hdb, hrunning, hdone⟩ := delta_spec (w := w') h.baseline h.pending h.stored
      htracks hreads.transactions hsize hpos hempty hfits.suffix hreads.covers
      (hreads.same.whole hok.whole) hfew call.captured
    refine ⟨hrunning.inv ?_, fun hnone => ⟨_, hrunning, hdone hnone, hreads.same⟩⟩
    rw [hdb]
    exact hok'

theorem Current.pollAndCapture (h : Current cfg w a) (hok : DbOk w.db)
    (hreread : Steps (Watched w.fs) w.db call.beforeReread)
    (hfits : DeltaFits cfg w.fs.seq w.db.commits) :
    Ends cfg (Shows cfg · w.db.view) (pollAndCapture cfg call w) := by
  obtain ⟨unread, hreads⟩ := h.follows.poll call.logEnd
  have hnoerr : ∀ e, (w.fs.cursor.poll (observe w.db call.logEnd)).err = some e →
      e.is .walChecksum = false := by
    intro e he
    rcases hreads.err with hnone | hsome
    · rw [hnone] at he
      cases he
    · rw [hsome] at he
      cases he
      rfl
  unfold DoSupervisor.pollAndCapture
  dsimp only
  rw [pollStableWAL_spec hnoerr]
  by_cases hcancelled : call.cancelled 0 = true
  · rw [if_pos hcancelled]
    dsimp only
    rw [Bool.or_false]
    exact ⟨(h.toRunning.advance hreread).inv (hreread.dbOk hok), nofun⟩
  · rw [if_neg hcancelled]
    generalize w.fs.cursor.poll (observe w.db call.logEnd) = polled at hreads hnoerr
    have hcapture := h.capturePolled hok hreads hreread hfits
    rcases hreads.err with hnone | hsome
    · rw [hnone]
      exact hcapture
    · rw [hsome]
      exact hcapture

theorem snapshot_ends (hinv : Inv cfg w) (hbelow : AllBelow w.fs.seq w.committed)
    (readFails : Option Err) (outcomes : Nat → Outcome) (why : String) :
    Ends cfg (fun w' => w'.db = w.db ∧ w'.fs.seq = w.fs.seq ∧ Current cfg w' w.db.main.image)
      (snapshot cfg readFails outcomes why w) := by
  obtain ⟨hdb, hfail, hdone⟩ := @snapshot_spec _ cfg w hinv.1 hbelow readFails outcomes why
  have hok : DbOk (snapshot cfg readFails outcomes why w).2.db := hdb ▸ hinv.1
  refine ⟨?_, fun hnone => ⟨hdb, (hdone hnone).2, (hdone hnone).1⟩⟩
  by_cases hnone : (snapshot cfg readFails outcomes why w).1 = none
  · exact (hdone hnone).1.inv hok
  · rcases hfail hnone with hsame | hretained
    · rwa [hsame]
    · exact ⟨hok, .inr (.inl ⟨_, hretained⟩)⟩

/-- Nothing is pending, the log was restarted, and the main file will be `seen` when it is
read again. -/
structure Behind (cfg : Config) (call : Call pageSize) (seen : Image) (w : World pageSize)
    (a : Image) : Prop extends Running cfg w a where
  pending : w.fs.pending = []
  outdated : Outdated w.db w.fs
  below : AllBelow w.fs.seq w.committed
  main : Image.Same (w.advance call.beforeReread).db.main.image seen

theorem Behind.capturePolled (h : Behind cfg call seen w a) (hok : DbOk w.db)
    (hreread : Steps (Watched w.fs) w.db call.beforeReread) (polled : Polled)
    (hfound : (w.fs.checkpointPending || polled.result.checkpoint) = true) :
    let w' := World.advance { w with fs := polledState w.fs polled } call.beforeReread
    Ends cfg (Shows cfg · seen) (capturePolled cfg call polled.result w') ∧ Inv cfg w' := by
  intro w'
  have hcp : w'.fs.checkpointPending = true := hfound
  have hinv : Inv cfg w' :=
    Running.inv ⟨h.baseline, h.pendingSnapshot, h.stored, .inr (.inl hcp)⟩ (hreread.dbOk hok)
  refine ⟨?_, hinv⟩
  unfold DoSupervisor.capturePolled
  rw [if_pos hcp]
  obtain ⟨hafter, hdone⟩ :=
    snapshot_ends hinv h.below call.rereadFails call.captured "checkpoint"
  generalize snapshot cfg call.rereadFails call.captured "checkpoint" w' = out at hafter hdone
  obtain ⟨err, w''⟩ := out
  cases err with
  | some e => exact ⟨hafter, nofun⟩
  | none =>
    obtain ⟨-, -, hcurrent⟩ := hdone rfl
    have hflag : { w'' with fs := { w''.fs with checkpointPending := false } } = w'' := by
      rw [← hcurrent.checkpointPending]
    dsimp only
    rw [hflag]
    exact ⟨hafter, fun _ => ⟨_, hcurrent.toRunning, hcurrent.pending, h.main⟩⟩

/-- A restarted log is found, unless the call is cancelled. -/
theorem Outdated.poll (h : Outdated db fs) (hok : DbOk db)
    (logEnd : (g : Generation pageSize) → LogEnd g) (cancelled : Nat → Bool) :
    (fs.checkpointPending || (pollStableWAL (observe db logEnd) cancelled 4 0 false
        fs.cursor).result.checkpoint) = true ∨
      pollStableWAL (observe db logEnd) cancelled 4 0 false fs.cursor =
        ⟨fs.cursor, {}, some (.errorf "context canceled")⟩ := by
  rcases h with hpending | ⟨hsalt, hpast⟩
  · left
    rw [hpending]
    rfl
  · cases hlog : db.log with
    | none =>
      rw [hok.first hlog] at hpast
      cases hpast
    | some log =>
      have hother : fs.cursor.salt1 ≠ log.1.salt1 ∨ fs.cursor.salt2 ≠ log.1.salt2 := by
        by_contra hsame
        rw [not_or, not_not, not_not] at hsame
        rw [hsame.1, hsame.2] at hpast
        exact hok.fresh log hlog hpast
      have hpoll : fs.cursor.poll (observe db logEnd) = polledTo log.1 [] log.2 true := by
        unfold observe
        rw [hlog]
        exact poll_log_rotated hsalt hother
      have hnoerr : ∀ e, (fs.cursor.poll (observe db logEnd)).err = some e →
          e.is .walChecksum = false := by
        intro e he
        rw [hpoll] at he
        cases he
      rw [pollStableWAL_spec hnoerr]
      by_cases hcancelled : cancelled 0 = true
      · right
        rw [if_pos hcancelled]
      · left
        rw [if_neg hcancelled, hpoll]
        exact Bool.or_true _

theorem Behind.pollAndCapture (h : Behind cfg call seen w a) (hok : DbOk w.db)
    (hreread : Steps (Watched w.fs) w.db call.beforeReread) :
    Ends cfg (Shows cfg · seen) (pollAndCapture cfg call w) := by
  have hfound := h.outdated.poll hok call.logEnd call.cancelled
  unfold DoSupervisor.pollAndCapture
  dsimp only
  generalize pollStableWAL (observe w.db call.logEnd) call.cancelled 4 0 false w.fs.cursor =
    polled at hfound
  rcases hfound with hfound | rfl
  · have hcapture := h.capturePolled hok hreread polled hfound
    rcases herr : polled.err with _ | e
    · exact hcapture.1
    dsimp only
    split
    · exact hcapture.1
    · exact ⟨hcapture.2, nofun⟩
  · dsimp only
    rw [Bool.or_false]
    exact ⟨(h.toRunning.advance hreread).inv (hreread.dbOk hok), nofun⟩

/-! ## The baseline -/

theorem compact_head {compress : Bool} {segs parts : List Bytes}
    (h : compact compress segs defaultSnapshotPartBytes = .ok parts) :
    ∃ r d, mergeChain segs = .ok r ∧ decode (parts.headD []) = .ok d ∧
      d.1.endTxID = r.watermark := by
  obtain ⟨r, hr, henc⟩ := bind_eq_ok.1 h
  have hlen : r.pages.length < 2 ^ 32 := by
    obtain ⟨decoded, sel, snaps, deltas, -, -, -, -, rfl⟩ := mergeChain_eq_ok_iff.1 hr
    unfold mergedOf
    rw [length_imagePages]
    exact UInt32.toNat_lt _
  obtain ⟨chunks, -, hne, -, -, hreads⟩ :=
    encodeSnapshotParts_eq_ok henc hlen (fits_of_default henc)
  have hzip : chunks.zipIdx ≠ [] := fun hnil => hne (List.zipIdx_eq_nil_iff.1 hnil)
  generalize chunks.zipIdx = numbered at hreads hzip
  cases hreads with
  | nil => exact absurd rfl hzip
  | cons hread _ =>
    obtain ⟨payload, hdec, -⟩ := hread.reads
    exact ⟨r, _, hr, hdec, rfl⟩

/-- A capture starts above everything an earlier process committed. -/
theorem Settled.seed {restoreFails : Option Err} {seq : UInt64} (h : Settled cfg w.committed)
    (hseed : seedCaptureWatermark cfg restoreFails w = .ok seq) : AllBelow seq w.committed := by
  rcases h with hempty | ⟨hreads, hends⟩
  · rw [hempty]
    exact fun s hs => absurd hs List.not_mem_nil
  unfold seedCaptureWatermark at hseed
  have hback : ¬ cfg.readsBack = false := by
    rw [hreads]
    exact Bool.true_eq_false_eq_False
  rw [if_neg hback] at hseed
  cases restoreFails with
  | some e => cases hseed
  | none =>
    by_cases hempty : w.committed = []
    · rw [hempty]
      exact fun s hs => absurd hs List.not_mem_nil
    rw [if_neg hempty] at hseed
    cases hcompact : Restore.compact cfg.compress w.committed defaultSnapshotPartBytes with
    | error e =>
      rw [hcompact] at hseed
      cases hseed
    | ok compacted =>
      obtain ⟨r, d, hr, hdec, hend⟩ := compact_head hcompact
      rw [hcompact] at hseed
      dsimp only at hseed
      rw [hdec, ok_bind] at hseed
      split at hseed
      · cases hseed
      next hlimits =>
      cases hseed
      rw [hend] at hlimits
      have hlt : (r.watermark + 1).toNat = r.watermark.toNat + 1 := by
        have hbound := UInt64.toNat_lt r.watermark
        exact toNat_add_ofNat (n := 1) (by omega)
      obtain ⟨decoded, sel, snaps, deltas, hsegs, -, -, -, -⟩ := mergeChain_eq_ok_iff.1 hr
      intro s hs
      obtain ⟨d', hd', hdec'⟩ := exists_of_forall₂_mem (decodeSegments_eq_ok.1 hsegs).flip hs
      obtain ⟨hkind, hsnap, hdelta⟩ := hends r hr s hs d' hdec'
      refine ⟨d', hdec', hkind, fun hk => ?_, fun hk => ?_⟩
      · have hle := UInt64.le_iff_toNat_le.1 (hsnap hk)
        rw [UInt64.lt_iff_toNat_lt, hend]
        omega
      · have hle := UInt64.le_iff_toNat_le.1 (hdelta hk)
        rw [UInt64.le_iff_toNat_le, hend]
        omega

theorem Fresh.takeBaseline (h : Fresh cfg w) (call : Call pageSize) (hok : DbOk w.db) :
    Ends cfg (fun w' => w'.db = w.db ∧
      seedCaptureWatermark cfg call.restoreFails w = .ok w'.fs.seq ∧
        Current cfg w' w.db.main.image) (takeBaseline cfg call w) := by
  have hinv : ∀ seq, Inv cfg { w with fs := { w.fs with seq } } := fun seq =>
    ⟨hok, .inl ⟨h.baseline, h.pending, h.pendingSnapshot, h.cursor, h.checkpointPending, h.settled⟩⟩
  have hbase : ¬ w.fs.baseline = true := by
    rw [h.baseline]
    exact Bool.false_ne_true
  unfold DoSupervisor.takeBaseline
  rw [if_neg hbase]
  rcases hseed : seedCaptureWatermark cfg call.restoreFails w with e | seq
  · exact ⟨hinv w.fs.seq, nofun⟩
  dsimp only
  obtain ⟨hafter, hdone⟩ := snapshot_ends (hinv seq) (h.settled.seed hseed) call.readFails
    call.baselined "baseline"
  generalize snapshot cfg call.readFails call.baselined "baseline"
    { w with fs := { w.fs with seq } } = out at hafter hdone
  obtain ⟨err, w'⟩ := out
  cases err with
  | some e => exact ⟨hafter, nofun⟩
  | none =>
    obtain ⟨hdb, hseq, hcurrent⟩ := hdone rfl
    have hflag : { w' with fs := { w'.fs with baseline := true } } = w' := by
      rw [← hcurrent.baseline]
    dsimp only
    rw [hflag]
    exact ⟨hafter, fun _ => ⟨hdb, by rw [hseq], hcurrent⟩⟩

end CellHive.DoSupervisor
