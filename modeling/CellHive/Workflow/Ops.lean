import CellHive.Workflow.Store

/-!
# Sequences of workflow calls

The calls of the store as one type, and what each of them can do to an instance: the rows of
`instances` after a call are those before it, but for the one instance the call is about
(`Change`) and the ones it creates.
-/

namespace CellHive.Workflow

open Go Sql Timer

inductive Op
  | claimRun (id : Str) (ttlMs limit : Int) (token request : Str)
  | renewRun (id token : Str) (ttlMs : Int)
  | releaseRun (id token : Str)
  | prune (beforeMs : Int)
  | pruneRetention (successBefore errorBefore : Int) (limit : Nat)
  | drop
  | setAttempt (id step : Str) (attempts : Int) (lastErr run : Str)
  | clearAttempt (id step run : Str)
  | setWait (id step : Str) (deadlineMs : Int)
  | clearWait (id step run : Str)
  | putStep (id step : Str) (result : Bytes) (run : Str)
  | consumeEvent (id step evType run : Str)
  | create (id : Str) (params : Bytes) (target : Target) (request : Str)
  | createBatch (items : List Db.BatchItem) (target : Target)
  | setStatus (id : Str) (status : Status) (errText run : Str)
  | delete (id : Str)
  | setOutput (id : Str) (output : Bytes) (run : Str)
  | resume (id request : Str)
  | restart (id request : Str)
  | appendEvent (id : Str) (payload : Bytes) (request : Str)
  | parkSleep (id run : Str) (due : Int)
  | parkWait (id step run evType : Str) (deadline : Int) (request : Str)
deriving DecidableEq, Repr

/-- `Pause` and `Terminate` are `SetStatus` without a run. -/
def Op.pause (id : Str) : Op := .setStatus id .paused [] []
def Op.terminate (id : Str) : Op := .setStatus id .terminated [] []

section

variable (eventType : Bytes → Option Str)

namespace Db

/-- The tables a call made at `now` commits. -/
def exec (db : Db) (now : Int) : Op → Except Err Db
  | .claimRun id ttlMs limit token request =>
    (db.claimRunLimited now id ttlMs limit token request).map Prod.snd
  | .renewRun id token ttlMs => db.renewRun now id token ttlMs
  | .releaseRun id token => db.releaseRun id token
  | .prune beforeMs => db.prune beforeMs
  | .pruneRetention successBefore errorBefore limit =>
    db.pruneRetentionBatch successBefore errorBefore limit
  | .drop => db.drop
  | .setAttempt id step attempts lastErr run => db.setAttempt id step attempts lastErr run
  | .clearAttempt id step run => db.clearAttempt id step run
  | .setWait id step deadlineMs => db.setWait id step deadlineMs
  | .clearWait id step run => db.clearWait id step run
  | .putStep id step result run => db.putStep id step result run
  | .consumeEvent id step evType run =>
    (db.consumeEventForStep eventType id step evType run).map Prod.snd
  | .create id params target request => db.createWithTarget now id params target request
  | .createBatch items target => db.createBatchWithTarget now items target
  | .setStatus id status errText run => db.setStatus now id status errText run
  | .delete id => db.delete id
  | .setOutput id output run => db.setOutput now id output run
  | .resume id request => db.resume now id request
  | .restart id request => db.restart now id request
  | .appendEvent id payload request => db.appendEvent now id payload request
  | .parkSleep id run due => db.parkSleep now id run due
  | .parkWait id step run evType deadline request =>
    db.parkWait eventType now id step run evType deadline request

/-- The tables after a call: a failed one leaves them alone. -/
def commit (db : Db) (now : Int) (op : Op) : Db :=
  match db.exec eventType now op with
  | .ok db' => db'
  | .error _ => db

end Db

structure Call where
  now : Int
  op : Op
deriving DecidableEq, Repr

def Db.run (db : Db) (calls : List Call) : Db :=
  calls.foldl (fun db c => db.commit eventType c.now c.op) db

theorem Db.run_concat (db : Db) (calls : List Call) (c : Call) :
    db.run eventType (calls ++ [c]) = (db.run eventType calls).commit eventType c.now c.op := by
  rw [Db.run, List.foldl_append]
  rfl

end

/-! ## Statements and the instance rows -/

namespace Db

section

variable (db : Db)

@[simp] theorem instances_queueTx (id : Str) (due : Int) (request : Str) :
    (db.queueTx id due request).instances = db.instances := rfl

theorem get_setInstance (id : Str) (p : Instance → Bool) (f : Instance → Instance)
    (hf : ∀ i, (f i).id = i.id) (k : Str) :
    (db.setInstance id p f hf).instances.get k =
      (db.instances.get k).map fun i => if k = id ∧ p i then f i else i := by
  rw [setInstance, Table.get_update]
  cases h : db.instances.get k with
  | none => rfl
  | some i =>
    have hk : i.id = k := Table.get_key h
    simp [hk]

variable {id : Str}

theorem checked_eq_ok {x : Except Err Unit} {db db' : Db} :
    (x.map fun _ => db) = .ok db' ↔ x = .ok () ∧ db' = db := by
  cases x with
  | error e => simp [Except.map]
  | ok u => simp [Except.map, eq_comm]

theorem execRunCell_eq_ok {run : Str} {stmt : Db → Db} {db' : Db} :
    db.execRunCell id run stmt = .ok db' ↔ db.checkRunTx id run = .ok () ∧ db' = stmt db :=
  checked_eq_ok

theorem checkRunTx_eq_ok {run : Str} : db.checkRunTx id run = .ok () ↔
      run = [] ∨ (db.instances.get id).map Instance.runToken = some run := by
  unfold checkRunTx
  by_cases hrun : run = []
  · simp [hrun]
  · cases db.instances.get id with
    | none => simp [hrun]
    | some i => by_cases ht : i.runToken = run <;> simp [hrun, ht]

theorem parkCheck_eq_ok {token : Str} : db.parkCheck id token = .ok () ↔
      ∃ i, db.instances.get id = some i ∧ (token = [] ∨ i.runToken = token) := by
  unfold parkCheck
  cases db.instances.get id with
  | none => simp
  | some i =>
    by_cases ht : token = []
    · simp [ht]
    · by_cases hi : i.runToken = token <;> simp [ht, hi]

theorem get_deleteInstances (ids : List Str) (k : Str) :
    (db.deleteInstances ids).instances.get k =
      if k ∈ ids then none else db.instances.get k := by
  unfold deleteInstances
  induction ids generalizing db with
  | nil => rfl
  | cons id rest ih =>
    rw [List.foldl_cons, ih]
    rw [Table.get_delete]
    rcases h : db.instances.get k with _ | i
    · simp
    have hid : i.id = k := Table.get_key h
    by_cases hk : k = id
    · simp [← hk, hid]
    · simp [hk, Option.filter, hid]

theorem get_insertQueued (now : Int) (id : Str) (params : Bytes) (target : Target) (k : Str) :
    (db.insertQueued now id params target).instances.get k =
      if id = k then
        some ((db.instances.get k).getD
          { id, params, status := .queued, createdMs := now, updatedMs := now, target })
      else db.instances.get k := by
  unfold insertQueued
  rw [Table.get_insertIgnore]

end

end Db

/-! ## What a call does to an instance -/

/-- What a call does to the row of the instance it is about. -/
inductive Change (eventType : Bytes → Option Str) (db : Db) (now : Int) :
    Op → Instance → Instance → Prop
  | claimed {i : Instance} {ttlMs limit : Int} {token request : Str}
      (hopen : i.status ≠ .paused ∧ i.status.terminal = false) (hlease : i.leaseUntilMs ≤ now)
      (hlimit : limit ≤ 0 ∨ (db.active now i.id : Int) < limit) :
      Change eventType db now (.claimRun i.id ttlMs limit token request) i
        (Db.claimedBy token now ttlMs i)
  | renewed {i : Instance} {ttlMs : Int} :
      Change eventType db now (.renewRun i.id i.runToken ttlMs) i
        { i with leaseUntilMs := now + ttlMs }
  | released {i : Instance} {token : Str} (h : i.runToken = token ∨ token = []) :
      Change eventType db now (.releaseRun i.id token) i
        { i with leaseUntilMs := 0, runToken := [] }
  | status {i : Instance} {st : Status} {errText run : Str} (h : run = [] ∨ i.runToken = run) :
      Change eventType db now (.setStatus i.id st errText run) i (Db.withStatus now st errText i)
  | output {i : Instance} {output : Bytes} {run : Str} (h : run = [] ∨ i.runToken = run) :
      Change eventType db now (.setOutput i.id output run) i (Db.withOutput now output i)
  | resumed {i : Instance} {request : Str} :
      Change eventType db now (.resume i.id request) i
        { i with status := .queued, updatedMs := now }
  | restarted {i : Instance} {request : Str} :
      Change eventType db now (.restart i.id request) i (Db.restarted now i)
  | woken {i : Instance} {payload : Bytes} {request : Str} (h : i.status = .sleeping) :
      Change eventType db now (.appendEvent i.id payload request) i { i with status := .queued }
  | slept {i : Instance} {run : Str} {due : Int} (h : run = [] ∨ i.runToken = run) :
      Change eventType db now (.parkSleep i.id run due) i (Db.parked now .sleeping i)
  | waited {i : Instance} {step run evType : Str} {deadline : Int} {request : Str}
      (h : run = [] ∨ i.runToken = run) :
      Change eventType db now (.parkWait i.id step run evType deadline request) i
        (Db.parked now (if db.pendingEvents eventType i.id evType ≠ [] then .queued
          else .sleeping) i)

/-- The instance whose row a call rewrites. -/
def Op.subject : Op → Option Str
  | .claimRun id _ _ _ _ | .renewRun id _ _ | .releaseRun id _ | .setStatus id _ _ _
  | .setOutput id _ _ | .resume id _ | .restart id _ | .appendEvent id _ _ | .parkSleep id _ _
  | .parkWait id _ _ _ _ _ => some id
  | _ => none

theorem Change.subject {eventType : Bytes → Option Str} {db : Db} {now : Int} {op : Op}
    {i i' : Instance} (h : Change eventType db now op i i') :
    op.subject = some i.id := by
  cases h <;> rfl

def Created (now : Int) (i : Instance) : Prop :=
  ∃ id params target,
    i = { id, params, status := .queued, createdMs := now, updatedMs := now, target }

/-- The calls that create the instance `id`. -/
def Op.creates (id : Str) : Op → Prop
  | .create k _ _ _ => k = id
  | .createBatch items _ => ∃ item ∈ items, item.id = id
  | _ => False

namespace Db

variable {db : Db} {eventType : Bytes → Option Str} {now : Int} {k : Str} {i i' : Instance}
  {id step evType token request : Str} {db' : Db} {op : Op} {target : Target}

theorem of_checkRunTx {run : Str} (h : db.checkRunTx id run = .ok ())
    (hget : db.instances.get k = some i) (hid : i.id = id) : run = [] ∨ i.runToken = run := by
  rcases db.checkRunTx_eq_ok.mp h with hrun | hrun
  · exact .inl hrun
  · right
    rw [← hid, Table.get_key hget, hget, Option.map_some, Option.some.injEq] at hrun
    exact hrun

theorem of_parkCheck {run : Str} (h : db.parkCheck id run = .ok ())
    (hget : db.instances.get k = some i) (hid : i.id = id) : run = [] ∨ i.runToken = run := by
  obtain ⟨j, hj, hrun⟩ := db.parkCheck_eq_ok.mp h
  rw [← hid, Table.get_key hget, hget, Option.some.injEq] at hj
  exact hj ▸ hrun

theorem consumeEventForStep_frame
    (h : (db.consumeEventForStep eventType id step evType token).map Prod.snd = .ok db') :
    db'.instances = db.instances ∧ db'.timers = db.timers ∧ db'.scope = db.scope := by
  have hconsume (e : EventRow) : (db.consume id step e).instances = db.instances ∧
      (db.consume id step e).timers = db.timers ∧ (db.consume id step e).scope = db.scope := by
    unfold consume
    split <;> exact ⟨rfl, rfl, rfl⟩
  unfold consumeEventForStep at h
  rcases hcheck : db.checkRunTx id token with e | u
  · simp [hcheck, Except.map] at h
  simp only [hcheck] at h
  split at h
  · cases h
    exact ⟨rfl, rfl, rfl⟩
  split at h <;> cases h
  · exact ⟨rfl, rfl, rfl⟩
  · exact hconsume _

theorem parkSleep_eq_ok {due : Int} :
    db.parkSleep now id token due = .ok db' ↔ db.parkCheck id token = .ok () ∧
      db' = (db.sleepTx id due).setInstance id (fun _ => true) (parked now .sleeping)
        fun _ => rfl :=
  checked_eq_ok

def waitTimers (eventType : Bytes → Option Str) (db : Db) (now : Int) (id step evType : Str)
    (deadline : Int) (request : Str) : Db :=
  let recorded := db.waitDeadline id step deadline
  let waiting := { db with waits := db.waits.insertIgnore ⟨id, step, recorded⟩ }
  let queued :=
    if db.pendingEvents eventType id evType ≠ [] then waiting.queueTx id now request else waiting
  if 0 < recorded then queued.sleepTx id recorded else queued

theorem parkWait_eq_ok {deadline : Int} :
    db.parkWait eventType now id step token evType deadline request = .ok db' ↔
      db.parkCheck id token = .ok () ∧
        db' = (db.waitTimers eventType now id step evType deadline request).setInstance id
          (fun _ => true) (parked now (if db.pendingEvents eventType id evType ≠ [] then .queued
            else .sleeping)) fun _ => rfl :=
  checked_eq_ok

@[simp] theorem instances_waitTimers {deadline : Int} :
    (db.waitTimers eventType now id step evType deadline request).instances = db.instances := by
  unfold waitTimers
  dsimp only
  split <;> split <;> rfl

/-- What a call leaves of a row: the row it was, one it created, or a `Change`. -/
def Outcome (eventType : Bytes → Option Str) (db : Db) (now : Int) (op : Op) (k : Str)
    (i' : Instance) : Prop :=
  db.instances.get k = some i' ∨
    (db.instances.get k = none ∧ op.creates k ∧ Created now i') ∨
    ∃ i, db.instances.get k = some i ∧ Change eventType db now op i i'

/-- The call deletes the instance `k`. -/
def Removes (db : Db) (k : Str) : Op → Prop
  | .prune beforeMs => k ∈ db.pruneIds beforeMs
  | .pruneRetention successBefore errorBefore limit =>
    k ∈ db.retentionIds successBefore errorBefore limit
  | .drop => True
  | .delete id => id = k
  | _ => False

/-- What a call does to the table of instances. -/
inductive Rows (eventType : Bytes → Option Str) (db : Db) (now : Int) (op : Op) :
    Table Instance.id → Prop
  | same : Rows eventType db now op db.instances
  | change {rows : Table Instance.id} {id : Str} {p : Instance → Bool} {f : Instance → Instance}
      (hget : ∀ k, rows.get k =
        (db.instances.get k).map fun i => if k = id ∧ p i then f i else i)
      (h : ∀ i, db.instances.get i.id = some i → i.id = id → p i = true →
        Change eventType db now op i (f i)) :
      Rows eventType db now op rows
  | create {items : List BatchItem} {target : Target} (h : ∀ item ∈ items, op.creates item.id) :
      Rows eventType db now op (items.foldl (fun db item =>
        (db.insertQueued now item.id item.params target).queueTx item.id now item.request)
          db).instances
  | delete {ids : List Str} (h : ∀ k ∈ ids, db.Removes k op) :
      Rows eventType db now op (db.deleteInstances ids).instances
  | drop (h : ∀ k, db.Removes k op) : Rows eventType db now op Table.empty

theorem Rows.set {base : Db} {p : Instance → Bool} {f : Instance → Instance}
    {hf : ∀ i, (f i).id = i.id} (hbase : base.instances = db.instances)
    (h : ∀ i, db.instances.get i.id = some i → i.id = id → p i = true →
      Change eventType db now op i (f i)) :
    Rows eventType db now op (base.setInstance id p f hf).instances :=
  .change (fun k => hbase ▸ base.get_setInstance id p f hf k) h

theorem claimRunLimited_eq_ok {ttlMs limit : Int} {r : Claimed × Db}
    (h : db.claimRunLimited now id ttlMs limit token request = .ok r) :
    (r.1.ok = false ∧ r.2 = db) ∨
      (r.1.ok = true ∧
        r.2 = (db.setInstance id (fun _ => true) (claimedBy token now ttlMs) fun _ => rfl).queueTx
          id (now + ttlMs) request) ∧ ∃ i, db.instances.get id = some i ∧
            ¬ (i.status = .paused ∨ i.status.terminal) ∧ ¬ now < i.leaseUntilMs ∧
            ¬ (0 < limit ∧ limit ≤ db.active now id) := by
  unfold claimRunLimited at h
  split at h
  · cases h
  next i hid =>
  split at h
  · cases h
    exact .inl ⟨rfl, rfl⟩
  next hopen =>
  split at h
  · cases h
  next hlease =>
  split at h
  · cases h
    exact .inl ⟨rfl, rfl⟩
  next hlimit =>
  cases h
  exact .inr ⟨⟨rfl, rfl⟩, i, hid, hopen, hlease, hlimit⟩

theorem rows_claimRun {ttlMs limit : Int} {r : Claimed × Db}
    (h : db.claimRunLimited now id ttlMs limit token request = .ok r) :
    Rows eventType db now (.claimRun id ttlMs limit token request) r.2.instances := by
  rcases claimRunLimited_eq_ok h with ⟨-, heq⟩ | ⟨⟨-, heq⟩, i, hi, hopen, hlease, hlimit⟩
  · exact heq ▸ .same
  · rw [heq, instances_queueTx]
    refine .set rfl fun j hj hjid _ => ?_
    obtain rfl := Option.some.inj (hi.symm.trans (hjid ▸ hj))
    rw [← hjid] at hlimit ⊢
    exact .claimed (by simpa using hopen) (not_lt.mp hlease) (by omega)

/-- Everything a call can do to the rows of `instances`. -/
theorem rows_exec (h : db.exec eventType now op = .ok db') :
    Rows eventType db now op db'.instances := by
  cases op with
  | claimRun id ttlMs limit token request =>
    cases hclaim : db.claimRunLimited now id ttlMs limit token request with
    | error e => simp [exec, hclaim, Except.map] at h
    | ok r =>
      simp only [exec, hclaim, Except.map, Except.ok.injEq] at h
      exact h ▸ rows_claimRun hclaim
  | renewRun id token ttlMs =>
    simp only [exec, renewRun] at h
    split at h
    · cases h
    split at h
    · cases h
      refine .set rfl fun i _ hid hp => ?_
      obtain rfl : i.runToken = token := by simpa using hp
      exact hid ▸ .renewed
    · cases h
  | releaseRun id token =>
    cases h
    exact .set rfl fun i _ hid hp => hid ▸ .released (by simpa using hp)
  | prune | pruneRetention =>
    cases h
    exact .delete fun _ hk => hk
  | drop =>
    cases h
    exact .drop fun _ => trivial
  | setWait id step deadlineMs =>
    cases h
    exact .same
  | setAttempt | clearAttempt | clearWait | putStep =>
    simp only [exec, setAttempt, clearAttempt, clearWait, putStep, execRunCell_eq_ok] at h
    obtain ⟨-, rfl⟩ := h
    exact .same
  | consumeEvent id step evType run =>
    rw [(consumeEventForStep_frame h).1]
    exact .same
  | create id params target request =>
    simp only [exec, createWithTarget] at h
    split at h
    · cases h
      exact .same
    · cases h
      have hcreates : ∀ item ∈ [BatchItem.mk id params request],
          (Op.create id params target request).creates item.id := by
        simp [Op.creates]
      exact .create hcreates
  | createBatch items target =>
    cases h
    exact .create fun item hitem => ⟨item, hitem, rfl⟩
  | delete id =>
    simp only [exec, delete] at h
    split at h
    · cases h
      exact .delete fun k hk => (List.mem_singleton.mp hk).symm
    · cases h
      exact .same
  | setStatus id status errText run =>
    rw [exec] at h
    obtain ⟨hcheck, rfl⟩ := db.execRunCell_eq_ok.mp h
    exact .set rfl fun i hi hid _ => hid ▸ .status (of_checkRunTx hcheck hi hid)
  | setOutput id output run =>
    rw [exec] at h
    obtain ⟨hcheck, rfl⟩ := db.execRunCell_eq_ok.mp h
    exact .set rfl fun i hi hid _ => hid ▸ .output (of_checkRunTx hcheck hi hid)
  | resume id request =>
    cases h
    rw [instances_queueTx]
    exact .set rfl fun i _ hid _ => hid ▸ .resumed
  | restart id request =>
    cases h
    rw [instances_queueTx]
    exact .set rfl fun i _ hid _ => hid ▸ .restarted
  | appendEvent id payload request =>
    cases h
    rw [instances_queueTx]
    exact .set rfl fun i _ hid hp => hid ▸ .woken (by simpa using hp)
  | parkSleep id run due =>
    obtain ⟨hcheck, rfl⟩ := parkSleep_eq_ok.mp h
    exact .set rfl fun i hi hid _ => hid ▸ .slept (of_parkCheck hcheck hi hid)
  | parkWait id step run evType deadline request =>
    obtain ⟨hcheck, rfl⟩ := parkWait_eq_ok.mp h
    exact .set instances_waitTimers fun i hi hid _ =>
      hid ▸ .waited (of_parkCheck hcheck hi hid)

/-- The database behind `createBatchWithTarget`. -/
abbrev created (db : Db) (now : Int) (target : Target) (items : List BatchItem) : Db :=
  items.foldl (fun db item =>
    (db.insertQueued now item.id item.params target).queueTx item.id now item.request) db

theorem outcome_createBatch {items : List BatchItem}
    (hget : (db.created now target items).instances.get k = some i') :
    db.instances.get k = some i' ∨
      (db.instances.get k = none ∧ (∃ item ∈ items, item.id = k) ∧ Created now i') := by
  induction items generalizing db with
  | nil => exact .inl hget
  | cons item rest ih =>
    rcases ih hget with hsame | ⟨hnone, ⟨x, hx, hxk⟩, hnew⟩
    · rw [instances_queueTx, get_insertQueued] at hsame
      split at hsame
      next hk =>
        cases hold : db.instances.get k with
        | some i =>
          rw [hold] at hsame
          exact .inl hsame
        | none =>
          rw [hold, Option.some.injEq] at hsame
          exact .inr ⟨rfl, ⟨item, List.mem_cons_self, hk⟩, _, _, _, hsame.symm⟩
      next => exact .inl hsame
    · rw [instances_queueTx, get_insertQueued] at hnone
      split at hnone
      next => cases hnone
      next => exact .inr ⟨hnone, ⟨x, List.mem_cons_of_mem _ hx, hxk⟩, hnew⟩

theorem outcome_commit (hget : (db.commit eventType now op).instances.get k = some i') :
    db.Outcome eventType now op k i' := by
  unfold commit at hget
  cases hexec : db.exec eventType now op with
  | error e =>
    rw [hexec] at hget
    exact .inl hget
  | ok db' =>
    rw [hexec] at hget
    have hrows := rows_exec hexec
    generalize db'.instances = rows at hrows hget
    cases hrows with
    | same => exact .inl hget
    | change hrows h =>
      rw [hrows] at hget
      obtain ⟨i, hi, hi'⟩ := Option.map_eq_some_iff.mp hget
      have hid := Table.get_key hi
      split at hi'
      · next hc => exact .inr (.inr ⟨i, hi, hi' ▸ h i (hid ▸ hi) (hid.trans hc.1) hc.2⟩)
      · exact .inl (hi' ▸ hi)
    | create h =>
      rcases outcome_createBatch hget with hsame | ⟨hnone, ⟨item, hitem, rfl⟩, hnew⟩
      · exact .inl hsame
      · exact .inr (.inl ⟨hnone, h item hitem, hnew⟩)
    | delete h =>
      rw [get_deleteInstances] at hget
      split at hget
      · cases hget
      · exact .inl hget
    | drop h => cases hget

/-! ## Rows that stay -/

theorem isSome_insertQueued {params : Bytes} (h : (db.instances.get k).isSome) :
    ((db.insertQueued now id params target).instances.get k).isSome := by
  rw [get_insertQueued]
  split
  · rfl
  · exact h

theorem isSome_createBatch {items : List BatchItem} (h : (db.instances.get k).isSome) :
    ((db.created now target items).instances.get k).isSome := by
  induction items generalizing db with
  | nil => exact h
  | cons item rest ih =>
    exact ih (isSome_insertQueued h)

theorem isSome_commit (h : (db.instances.get k).isSome) (hop : ¬ db.Removes k op) :
    ((db.commit eventType now op).instances.get k).isSome := by
  unfold commit
  rcases hexec : db.exec eventType now op with e | db'
  · exact h
  have hrows := rows_exec hexec
  generalize db'.instances = rows at hrows
  cases hrows with
  | same => exact h
  | change hrows _ =>
    rw [hrows, Option.isSome_map]
    exact h
  | create _ => exact isSome_createBatch h
  | delete hids =>
    rw [get_deleteInstances, if_neg fun hk => hop (hids k hk)]
    exact h
  | drop hall => exact absurd (hall k) hop

end Db

end CellHive.Workflow
