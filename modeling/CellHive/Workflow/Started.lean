import CellHive.Workflow.Ops

/-!
# The timers a call starts

Every call that leaves an instance for later inserts the timer that will bring it back in the
same transaction. `started` is the list of these timers, and no call does anything else to the
timer tables.
-/

namespace CellHive.Workflow

open Go Sql Timer

namespace Db

def runTimer (db : Db) (id : Str) (due : Int) (request : Str) : Timer Token Occurrence :=
  newTimer db.scope due .workflowRun (.run id request)

def sleepTimer (db : Db) (id : Str) (due : Int) : Timer Token Occurrence :=
  newTimer db.scope due .workflowSleep (.sleep id)

def claimOk (db : Db) (now : Int) (id : Str) (ttlMs limit : Int) (token request : Str) : Bool :=
  match db.claimRunLimited now id ttlMs limit token request with
  | .ok r => r.1.ok
  | .error _ => false

/-- The park is made: the instance is there and the run is not stale. -/
def parks (db : Db) (id token : Str) : Bool := (db.parkCheck id token).toBool

variable (eventType : Bytes → Option Str)

def started (db : Db) (now : Int) : Op → List (Timer Token Occurrence)
  | .claimRun id ttlMs limit token request =>
    if db.claimOk now id ttlMs limit token request then [db.runTimer id (now + ttlMs) request]
    else []
  | .create id _ _ request =>
    if (db.instances.get id).isSome then [] else [db.runTimer id now request]
  | .createBatch items _ => items.map fun item => db.runTimer item.id now item.request
  | .resume id request => [db.runTimer id now request]
  | .restart id request => [db.runTimer id now request]
  | .appendEvent id _ request => [db.runTimer id now request]
  | .parkSleep id run due => if db.parks id run then [db.sleepTimer id due] else []
  | .parkWait id step run evType deadline request =>
    if db.parks id run then
      (if db.pendingEvents eventType id evType ≠ [] then [db.runTimer id now request] else []) ++
        if 0 < db.waitDeadline id step deadline then
          [db.sleepTimer id (db.waitDeadline id step deadline)]
        else []
    else []
  | _ => []

variable {eventType} {db : Db} {now : Int}

theorem parkCheck_of_parks {id token : Str} (h : db.parks id token = true) :
    db.parkCheck id token = .ok () := by
  unfold parks at h
  cases hcheck : db.parkCheck id token with
  | error e => simp [hcheck, Except.toBool] at h
  | ok u => rfl

theorem parkCheck_of_not_parks {id token : Str} (h : db.parks id token = false) :
    ∃ e, db.parkCheck id token = .error e := by
  unfold parks at h
  cases hcheck : db.parkCheck id token with
  | error e => exact ⟨e, rfl⟩
  | ok u => simp [hcheck, Except.toBool] at h

/-! ## Statements and the timers -/

theorem deleteInstances_frame (ids : List Str) :
    (db.deleteInstances ids).timers = db.timers ∧ (db.deleteInstances ids).scope = db.scope := by
  induction ids generalizing db with
  | nil => exact ⟨rfl, rfl⟩
  | cons id rest ih => exact ih

variable (eventType db now) in
theorem claimRun_cases (id : Str) (ttlMs limit : Int) (token request : Str) :
    (db.claimOk now id ttlMs limit token request = false ∧
        db.commit eventType now (.claimRun id ttlMs limit token request) = db) ∨
      (db.claimOk now id ttlMs limit token request = true ∧
        db.commit eventType now (.claimRun id ttlMs limit token request) =
          (db.setInstance id (fun _ => true) (claimedBy token now ttlMs) fun _ => rfl).queueTx id
            (now + ttlMs) request) := by
  rw [commit, exec, claimOk]
  cases hclaim : db.claimRunLimited now id ttlMs limit token request with
  | error e => exact .inl ⟨rfl, rfl⟩
  | ok r => exact (claimRunLimited_eq_ok hclaim).imp_right And.left

theorem createBatch_frame (items : List BatchItem) (target : Target) :
    let db' := db.created now target items
    db'.timers = db.timers.insertAll (items.map fun item => db.runTimer item.id now item.request) ∧
      db'.scope = db.scope := by
  induction items generalizing db with
  | nil => exact ⟨rfl, rfl⟩
  | cons item rest ih => exact ih

theorem waitTimers_frame (id step evType : Str) (deadline : Int) (request : Str) :
    (db.waitTimers eventType now id step evType deadline request).timers =
        db.timers.insertAll
          ((if db.pendingEvents eventType id evType ≠ [] then [db.runTimer id now request] else []) ++
            if 0 < db.waitDeadline id step deadline then
              [db.sleepTimer id (db.waitDeadline id step deadline)]
            else []) ∧
      (db.waitTimers eventType now id step evType deadline request).scope = db.scope := by
  unfold waitTimers
  dsimp only
  split_ifs <;> exact ⟨rfl, rfl⟩

theorem commit_frame (op : Op) :
    (db.commit eventType now op).timers = db.timers.insertAll (db.started eventType now op) ∧
      (db.commit eventType now op).scope = db.scope := by
  cases op with
  | claimRun id ttlMs limit token request =>
    rcases claimRun_cases eventType db now id ttlMs limit token request with
      ⟨hok, heq⟩ | ⟨hok, heq⟩
    all_goals
      rw [heq, started, hok]
      exact ⟨rfl, rfl⟩
  | renewRun id token ttlMs =>
    rw [commit, exec, renewRun]
    rcases db.instances.get id with _ | i
    · exact ⟨rfl, rfl⟩
    dsimp only
    split_ifs <;> exact ⟨rfl, rfl⟩
  | releaseRun | drop | setWait | resume | restart | appendEvent => exact ⟨rfl, rfl⟩
  | prune | pruneRetention => exact deleteInstances_frame _
  | setAttempt id _ _ _ run | clearAttempt id _ run | clearWait id _ run | putStep id _ _ run
  | setStatus id _ _ run | setOutput id _ run =>
    simp only [commit, exec, setAttempt, clearAttempt, clearWait, putStep, setStatus, setOutput,
      execRunCell]
    cases db.checkRunTx id run <;> exact ⟨rfl, rfl⟩
  | consumeEvent id step evType run =>
    unfold commit
    cases hexec : db.exec eventType now (.consumeEvent id step evType run) with
    | error e => exact ⟨rfl, rfl⟩
    | ok db' =>
      exact (consumeEventForStep_frame hexec).2
  | create id params target request =>
    rw [commit, exec, createWithTarget, started]
    split_ifs <;> exact ⟨rfl, rfl⟩
  | createBatch items target => exact createBatch_frame items target
  | delete id =>
    rw [commit, exec, delete]
    split_ifs
    · exact deleteInstances_frame _
    · exact ⟨rfl, rfl⟩
  | parkSleep id run due =>
    rw [commit, exec, parkSleep, started]
    cases hparks : db.parks id run with
    | true =>
      rw [parkCheck_of_parks hparks]
      exact ⟨rfl, rfl⟩
    | false =>
      obtain ⟨e, he⟩ := parkCheck_of_not_parks hparks
      rw [he]
      exact ⟨rfl, rfl⟩
  | parkWait id step run evType deadline request =>
    cases hparks : db.parks id run with
    | true =>
      have hexec : db.exec eventType now (.parkWait id step run evType deadline request) = .ok _ :=
        parkWait_eq_ok.mpr ⟨parkCheck_of_parks hparks, rfl⟩
      rw [commit, hexec, started, hparks]
      exact waitTimers_frame id step evType deadline request
    | false =>
      obtain ⟨e, he⟩ := parkCheck_of_not_parks hparks
      rw [commit, exec, parkWait, he, started, hparks]
      exact ⟨rfl, rfl⟩

end Db

end CellHive.Workflow
