import CellHive.Util.Prefixes
import CellHive.Workflow.Started

/-!
# Wakes

The store and the timer runner on one cell. The runner reads the due timers, and for each one
either finds the wake obsolete (`SkipWake`) or claims a run of the instance; what it has got past
this point (`taken`) it marks fired later, unless the dispatch fails or the process stops.

An instance that is queued, running or parked with a deadline has a pending timer that is due by
the time the instance is to be looked at (`next`), in every run in which no park repeats a
deadline whose timer was already fired or taken: the token of a park's timer has no nonce, so
that the repeated timer is the one that is spent.
-/

namespace CellHive.Workflow

open Go Sql Timer

/-- The timer is for the instance `id`. -/
def Occurrence.wakes (id : Str) : Occurrence → Bool
  | .sleep k => k = id
  | .run k _ => k = id
  | .schedule _ => false

/-- A dispatch of the timer is about `id`; the instance of a schedule is found on dispatch. -/
def Occurrence.dispatches (id : Str) : Occurrence → Bool
  | .schedule _ => true
  | o => o.wakes id

def Occurrence.request? : Occurrence → Option Str
  | .run _ request => some request
  | _ => none

def sleepToken (id : Str) (due : Int) : Token := ⟨.workflowSleep, due, .sleep id⟩

/-- The nonces a call draws. -/
def Op.requests : Op → List Str
  | .claimRun _ _ _ _ request => [request]
  | .create _ _ _ request => [request]
  | .createBatch items _ => items.map Db.BatchItem.request
  | .resume _ request => [request]
  | .restart _ request => [request]
  | .appendEvent _ _ request => [request]
  | .parkWait _ _ _ _ _ request => [request]
  | _ => []

section

variable (eventType : Bytes → Option Str)

/-- When the instance `id` is to be looked at after a call, where `old` is the time before it:
at once if the call queues it, at the end of the lease if it claims a run, at the deadline if it
parks, and at no set time if it waits for an event only or is stopped. -/
def Db.nextExamined (db : Db) (now : Int) (id : Str) (old : Option Int) : Op → Option Int
  | .claimRun k ttlMs limit token request =>
    if k = id ∧ db.claimOk now k ttlMs limit token request then some (now + ttlMs) else old
  | .create k _ _ _ => if k = id ∧ (db.instances.get k).isNone then some now else old
  | .createBatch items _ =>
    if (∃ item ∈ items, item.id = id) ∧ (db.instances.get id).isNone then some now else old
  | .setStatus k status _ run =>
    if k = id ∧ (db.checkRunTx k run).toBool then
      match status with
      | .queued => some now
      | .running => old
      | _ => none
    else old
  | .resume k _ => if k = id then some now else old
  | .restart k _ => if k = id then some now else old
  | .appendEvent k _ _ =>
    if k = id ∧ (db.instances.get k).map Instance.status = some .sleeping then some now else old
  | .parkSleep k run due => if k = id ∧ db.parks k run then some due else old
  | .parkWait k step run evType deadline _ =>
    if k = id ∧ db.parks k run then
      if db.pendingEvents eventType k evType ≠ [] then some now
      else if 0 < db.waitDeadline k step deadline then some (db.waitDeadline k step deadline)
      else none
    else old
  | _ => old

/-- The cell, the timers the runner has read, those it has got past the claim with, and when
each instance is to be looked at. -/
structure System where
  db : Db
  picked : List Token
  taken : List Token
  next : Str → Option Int

inductive Event
  | call (now : Int) (op : Op)
  | schedule (dueAtMs : Int) (slot : Str)
  | due (nowMs : Int)
  | skip (token : Token) (id : Str)
  | claim (token : Token) (id : Str) (now ttlMs limit : Int) (run request : Str)
  | abandon (token : Token)
  | markFired (token : Token) (expiresMs : Int)
  | retry (token : Token) (nowMs : Int)
  | prune (nowMs : Int)
deriving DecidableEq

def Event.requests : Event → List Str
  | .call _ op => op.requests
  | .claim _ _ _ _ _ _ request => [request]
  | _ => []

namespace System

def start (scope : Str) : System := ⟨Db.new scope, [], [], fun _ => none⟩

def call (s : System) (now : Int) (op : Op) : System :=
  { s with
    db := s.db.commit eventType now op
    next := fun id => s.db.nextExamined eventType now id (s.next id) op }

def withTimers (s : System) (timers : Tables Token Occurrence) : System :=
  { s with db := { s.db with timers } }

/-- The runner is past the claim of a timer it had read. -/
def take (s : System) (token : Token) : System :=
  { s with picked := s.picked.erase token, taken := token :: s.taken }

/-- An event that cannot happen leaves the system alone. -/
def step (s : System) : Event → System
  | .call now op => s.call eventType now op
  | .schedule dueAtMs slot =>
    s.withTimers (s.db.timers.insert
      (newTimer s.db.scope dueAtMs .workflowSchedule (.schedule slot)))
  | .due nowMs =>
    { s with
      picked := s.picked ++
        (s.db.timers.timers.rows.filter (s.db.timers.isDue nowMs)).map Timer.token }
  | .skip token id =>
    if token ∈ s.picked ∧ token.occurrence.dispatches id ∧ s.db.skipWake id token.kind then
      s.take token
    else s
  | .claim token id now ttlMs limit run request =>
    if token ∈ s.picked ∧ token.occurrence.dispatches id then
      let s' := s.call eventType now (.claimRun id ttlMs limit run request)
      if s.db.claimOk now id ttlMs limit run request then s'.take token else s'
    else s
  | .abandon token =>
    { s with picked := s.picked.erase token, taken := s.taken.erase token }
  | .markFired token expiresMs =>
    if token ∈ s.taken then
      { s.withTimers (s.db.timers.markFired token expiresMs) with taken := s.taken.erase token }
    else s
  | .retry token nowMs =>
    match s.db.timers.scheduleRetryBounded token nowMs 0 0 with
    | some (_, timers) => s.withTimers timers
    | none => s
  | .prune nowMs => s.withTimers (s.db.timers.prune nowMs)

def run (scope : Str) (events : List Event) : System := events.foldl (step eventType) (start scope)

/-! ## The condition and the property -/

def Spent (s : System) (token : Token) : Prop :=
  (s.db.timers.fired.get token).isSome ∨ token ∈ s.taken

/-- The timers the runner has read, taken or marked fired. -/
def known (s : System) : List Token :=
  s.picked ++ s.taken ++ s.db.timers.fired.rows.map Fired.token

/-- Random ids do not repeat: no nonce the event draws is that of a known timer. -/
def Fresh (s : System) (ev : Event) : Prop :=
  ∀ token ∈ s.known, ∀ request ∈ ev.requests, token.occurrence.request? ≠ some request

instance (s : System) : DecidablePred s.Fresh :=
  fun ev => inferInstanceAs (Decidable (∀ token ∈ s.known, ∀ request ∈ ev.requests,
    token.occurrence.request? ≠ some request))

instance (s : System) : DecidablePred s.Spent := fun _ => inferInstanceAs (Decidable (_ ∨ _))

/-- A park does not repeat a deadline whose timer is spent, and `SetStatus` is not used to queue
or run an instance. -/
def Meets (s : System) : Event → Prop
  | .call _ (.parkSleep id run due) => s.db.parks id run = true → ¬ s.Spent (sleepToken id due)
  | .call _ (.parkWait id step run evType deadline _) =>
    s.db.parks id run = true → s.db.pendingEvents eventType id evType = [] →
      0 < s.db.waitDeadline id step deadline →
      ¬ s.Spent (sleepToken id (s.db.waitDeadline id step deadline))
  | .call _ (.setStatus _ status _ _) => status ≠ .queued ∧ status ≠ .running
  | _ => True

instance (s : System) : DecidablePred (s.Meets eventType) := fun ev => by
  unfold Meets
  split <;> infer_instance

/-- A pending timer for the instance `id` is due by `t`. -/
def WakesBy (s : System) (id : Str) (t : Int) : Prop :=
  ∃ timer ∈ s.db.timers.timers.rows, timer.occurrence.wakes id = true ∧ timer.dueAtMs ≤ t

structure Awake (s : System) : Prop where
  ready : ∀ id i, s.db.instances.get id = some i → i.status = .queued ∨ i.status = .running →
    ∃ t, s.next id = some t ∧ s.WakesBy id t
  asleep : ∀ id i, s.db.instances.get id = some i → i.status = .sleeping →
    ∀ t, s.next id = some t → s.WakesBy id t

end System

end

end CellHive.Workflow
