import CellHive.Go.Strings
import CellHive.Sql.Table

/-!
# The timer tables of a cell

Pending timers, their retry state and the tokens that were fired lie in the database of the cell
they belong to, so each call below is one transaction on the three tables. A timer is known by
its token. The tables are generic in what a token and an occurrence are: a token is a hash of
scope, kind, due time and occurrence, and nothing here looks inside it.
-/

namespace CellHive.Timer

open Go Sql

inductive Kind
  | doAlarm
  | cron
  | queueDelay
  | queueRetry
  | workflowSleep
  | workflowTimeout
  | workflowSchedule
  | workflowRun
  | kvExpire
deriving DecidableEq, Repr

set_option linter.dupNamespace false in
/-- A timer, as a row of `timers` holds it. -/
structure Timer (τ ω : Type) where
  token : τ
  dueAtMs : Int
  kind : Kind
  scope : Str
  occurrence : ω
deriving DecidableEq, Repr

structure Retry (τ : Type) where
  token : τ
  attempt : Nat
  retryAfterMs : Int
deriving DecidableEq, Repr

structure Fired (τ : Type) where
  token : τ
  expiresMs : Int
deriving DecidableEq, Repr

structure Tables (τ ω : Type) where
  timers : Table (Timer.token (τ := τ) (ω := ω))
  retry : Table (Retry.token (τ := τ))
  fired : Table (Fired.token (τ := τ))
deriving DecidableEq

namespace Tables

variable {τ ω : Type}

def empty : Tables τ ω := ⟨Table.empty, Table.empty, Table.empty⟩

variable [DecidableEq τ]

/-- `InsertTx`: a token in `fired` keeps the row out. -/
def insert (db : Tables τ ω) (t : Timer τ ω) : Tables τ ω :=
  if (db.fired.get t.token).isSome then db else { db with timers := db.timers.upsert t }

/-- When a timer is to be tried: its due time, or the end of its backoff. -/
def effectiveDue (db : Tables τ ω) (t : Timer τ ω) : Int :=
  match db.retry.get t.token with
  | some r => if t.dueAtMs < r.retryAfterMs then r.retryAfterMs else t.dueAtMs
  | none => t.dueAtMs

/-- `NextDue`: 0 when nothing is pending. -/
def nextDue (db : Tables τ ω) : Int := ((db.timers.rows.map db.effectiveDue).min?).getD 0

/-- The token counts as fired and its rows go. -/
def markFired (db : Tables τ ω) (token : τ) (expiresMs : Int) : Tables τ ω where
  timers := db.timers.delete fun t => t.token = token
  retry := db.retry.delete fun r => r.token = token
  fired := db.fired.upsert ⟨token, expiresMs⟩

def removeByOccurrence [DecidableEq ω] (db : Tables τ ω) (occurrence : ω) : Tables τ ω where
  timers := db.timers.delete fun t => t.occurrence = occurrence
  retry := db.retry.delete fun r =>
    db.timers.rows.any fun t => t.occurrence = occurrence ∧ t.token = r.token
  fired := db.fired

/-- The backoff after `attempt` failures: 5 s doubled up to 5 min. -/
def retryDelayMs (attempt : Nat) : Int :=
  let delay := (List.range (attempt - 1)).foldl (fun d _ => if d < 300000 then d * 2 else d) 5000
  if 300000 < delay then 300000 else delay

structure RetryResult where
  retryAfterMs : Int
  attempt : Nat
  exhausted : Bool
deriving DecidableEq, Repr

/-- `ScheduleRetryBounded`; `none` when the timer is gone, which is an error and a rollback. -/
def scheduleRetryBounded (db : Tables τ ω) (token : τ) (nowMs : Int) (maxAttempts : Int)
    (firedUntilMs : Int) : Option (RetryResult × Tables τ ω) :=
  if (db.timers.get token).isNone then none
  else
    let attempt := ((db.retry.get token).elim 0 Retry.attempt) + 1
    if 0 < maxAttempts ∧ maxAttempts ≤ attempt then
      some (⟨0, attempt, true⟩, db.markFired token firedUntilMs)
    else
      let retryAfterMs := nowMs + retryDelayMs attempt
      some (⟨retryAfterMs, attempt, false⟩,
        { db with retry := db.retry.upsert ⟨token, attempt, retryAfterMs⟩ })

def prune (db : Tables τ ω) (nowMs : Int) : Tables τ ω :=
  { db with fired := db.fired.delete fun f => f.expiresMs ≤ nowMs }

/-- The rows `Due` selects, before its order and limit. -/
def isDue (db : Tables τ ω) (nowMs : Int) (t : Timer τ ω) : Bool :=
  decide (t.dueAtMs ≤ nowMs) &&
    decide (((db.retry.get t.token).elim 0 Retry.retryAfterMs) ≤ nowMs) &&
    (db.fired.get t.token).all fun f => decide (f.expiresMs ≤ nowMs)

/-! ## Inserting and firing -/

variable {db : Tables τ ω} {t : Timer τ ω} {token : τ}

@[simp] theorem fired_insert : (db.insert t).fired = db.fired := by
  unfold insert
  split <;> rfl

theorem isSome_insert (h : (db.timers.get token).isSome) :
    ((db.insert t).timers.get token).isSome := by
  unfold insert
  split
  · exact h
  · rw [Table.get_upsert]
    split
    · rfl
    · exact h

theorem isSome_insert_self (h : db.fired.get t.token = none) :
    ((db.insert t).timers.get t.token).isSome := by
  unfold insert
  rw [h, if_neg (by simp), Table.get_upsert, if_pos rfl]
  rfl

theorem mem_insert {x : Timer τ ω} (h : x ∈ (db.insert t).timers.rows) :
    x ∈ db.timers.rows ∨ x = t := by
  unfold insert at h
  split at h
  · exact .inl h
  · rcases Table.mem_upsert.mp h with rfl | ⟨hx, -⟩
    · exact .inr rfl
    · exact .inl hx

variable (db) in
/-- The timers `ts` are inserted, one after the other. -/
def insertAll (ts : List (Timer τ ω)) : Tables τ ω := ts.foldl insert db

theorem isSome_insertAll (ts : List (Timer τ ω)) (h : (db.timers.get token).isSome) :
    ((db.insertAll ts).timers.get token).isSome := by
  induction ts generalizing db with
  | nil => exact h
  | cons t ts ih => exact ih (isSome_insert h)

theorem isSome_insertAll_of_mem {ts : List (Timer τ ω)} (ht : t ∈ ts)
    (h : db.fired.get t.token = none) : ((db.insertAll ts).timers.get t.token).isSome := by
  induction ts generalizing db with
  | nil => cases ht
  | cons x ts ih =>
    rcases List.mem_cons.mp ht with rfl | ht
    · exact isSome_insertAll ts (isSome_insert_self h)
    · exact ih ht (by rwa [fired_insert])

theorem mem_insertAll {ts : List (Timer τ ω)} {x : Timer τ ω}
    (h : x ∈ (db.insertAll ts).timers.rows) : x ∈ db.timers.rows ∨ x ∈ ts := by
  induction ts generalizing db with
  | nil => exact .inl h
  | cons t ts ih =>
    rcases ih h with hx | hx
    · rcases mem_insert hx with hx | rfl
      · exact .inl hx
      · exact .inr List.mem_cons_self
    · exact .inr (List.mem_cons_of_mem _ hx)

theorem isSome_markFired {other : τ} {expiresMs : Int} (h : (db.timers.get other).isSome)
    (hne : other ≠ token) : ((db.markFired token expiresMs).timers.get other).isSome := by
  obtain ⟨t, ht⟩ := Option.isSome_iff_exists.mp h
  have hkey : t.token = other := Table.get_key ht
  simp only [markFired, Table.get_delete, ht]
  simp [hkey, hne]

theorem timers_scheduleRetry {nowMs : Int} {r : RetryResult} {db' : Tables τ ω}
    (h : db.scheduleRetryBounded token nowMs 0 0 = some (r, db')) : db'.timers = db.timers := by
  unfold scheduleRetryBounded at h
  split at h
  · cases h
  · simp only [lt_self_iff_false, false_and, if_false, Option.some.injEq, Prod.mk.injEq] at h
    rw [← h.2]

end Tables

end CellHive.Timer
