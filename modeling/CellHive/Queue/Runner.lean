import CellHive.Queue.Store
import CellHive.Util.Prefixes

/-!
# The queue runner

The consumer of one queue: a pass claims batches, dispatches each and then retries, dead-letters
or acknowledges its messages one commit at a time. Batches are in flight side by side, and a batch
is given up wherever its goroutine returns or the process stops. Beside the two queues the state
counts, for each message, how often the dispatch was invoked with it.

Attempts are counted by the claim. A message goes to the dead-letter queue by its attempts, so
claims that end without a dispatch use up its retries.
-/

namespace CellHive.Queue

open Go Sql

structure Ref where
  name : Bytes
  maxRetries : Int := 0
  retryDelaySeconds : Int := 0
  deadLetterQueue : Bytes := []
deriving DecidableEq, Repr

def retriesFor (ref : Ref) : Int := if 0 < ref.maxRetries then ref.maxRetries else 3

/-- `retryDelayFor`; `retryDelayMs` is the runner's own. -/
def retryDelayFor (retryDelayMs : Int) (ref : Ref) : Int :=
  if 0 < ref.retryDelaySeconds then ref.retryDelaySeconds * 1000
  else if 0 < retryDelayMs then retryDelayMs
  else 30000

/-- The runner and the queue it consumes. -/
structure Config where
  ref : Ref
  retryDelayMs : Int := 0
deriving DecidableEq, Repr

/-- What a dispatch returns: an error, or the messages to retry with their delays in seconds. -/
inductive Result
  | failed
  | succeeded (retries : List (Bytes × Int))
deriving DecidableEq, Repr

/-- The delay the consumer asked for; of several for one message the last counts. -/
def retryDelay (retries : List (Bytes × Int)) (id : Bytes) : Option Int :=
  (retries.reverse.lookup id).map (· * 1000)

/-- The commits of a batch after its dispatch. -/
inductive Todo
  | retry (id : Bytes) (delayMs : Int)
  | deadLetter (m : Message)
  | drop (m : Message)
  | ack (ids : List Bytes)
deriving DecidableEq, Repr

structure Flight where
  msgs : List Message
  result : Option Result := none
  todo : List Todo := []
deriving DecidableEq, Repr

def acked (retries : List (Bytes × Int)) (msgs : List Message) : List Bytes :=
  (msgs.map Message.id).filter fun id => (retryDelay retries id).isNone

def retryOrDeadLetter (ref : Ref) (delayMs : Int) (m : Message) : Todo :=
  if retriesFor ref < m.attempts then .deadLetter m else .retry m.id delayMs

def afterDispatch (cfg : Config) (msgs : List Message) : Result → List Todo
  | .failed => msgs.map (retryOrDeadLetter cfg.ref (retryDelayFor cfg.retryDelayMs cfg.ref))
  | .succeeded retries =>
    (msgs.filterMap fun m =>
      (retryDelay retries m.id).map fun delayMs => retryOrDeadLetter cfg.ref delayMs m) ++
    if acked retries msgs = [] then [] else [.ack (acked retries msgs)]

/-- The message a dead letter carries: where it came from and how often it was tried. -/
def provenance (ref : Ref) (m : Message) : Message :=
  let m := if m.sourceQueue = [] then
      { m with sourceQueue := ref.name, sourceID := m.id, sourceCreatedMs := m.createdMs }
    else m
  if m.sourceAttempts < m.attempts then { m with sourceAttempts := m.attempts } else m

/-- What `Commit` makes of a write: it is proven durable, it is not made, or it is made and the
proof fails. -/
inductive Fate
  | proven
  | refused
  | unproven
deriving DecidableEq, Repr

structure Runner (μ : Type) where
  db : Db μ
  dlq : Db μ
  flights : List (Option Flight)
  dispatches : Bytes → Nat
  transferred : List Bytes
  used : List Bytes

inductive Event
  | send (generation : Bytes) (now : Int) (items : List (SendMessage × Bytes))
  | claim (now limit leaseMs : Int) (fate : Fate)
  | abandon (b : Nat)
  | dispatch (b : Nat) (result : Result)
  | next (b : Nat) (now : Int) (fate : Fate) (rowID : Bytes) (current : Bool)
deriving DecidableEq, Repr

namespace Runner

variable {μ : Type} [DecidableEq μ] (env : Env μ) (cfg : Config)

def start (μ : Type) : Runner μ := ⟨Db.new μ, Db.new μ, [], fun _ => 0, [], []⟩

def setFlight (s : Runner μ) (b : Nat) (f : Option Flight) : Runner μ :=
  { s with flights := s.flights.set b f }

/-- Messages are deleted from the queue, unless the commit is refused. -/
def ackWith (s : Runner μ) (fate : Fate) (ids : List Bytes) : Runner μ :=
  match fate, s.db.ackMany ids with
  | .refused, _ => s
  | _, .error _ => s
  | _, .ok db => { s with db }

def sendDeadLetter (s : Runner μ) (b : Nat) (f : Flight) (m : Message) (rest : List Todo) (now : Int)
    (fate : Fate) (rowID : Bytes) (current : Bool) : Runner μ :=
  if cfg.ref.deadLetterQueue = [] then s.setFlight b (some { f with todo := .drop m :: rest })
  else
    match fate, s.dlq.transfer env cfg.ref.deadLetterQueue [] now (provenance cfg.ref m) rowID
        current with
    | .proven, .ok sent =>
      { s.setFlight b (some { f with todo := .drop m :: rest }) with
        dlq := sent.db, transferred := m.id :: s.transferred }
    | .unproven, .ok sent => { s.setFlight b (some { f with todo := rest }) with dlq := sent.db }
    | _, _ => s.setFlight b (some { f with todo := rest })

/-- The next commit of a batch. -/
def perform (s : Runner μ) (b : Nat) (f : Flight) (now : Int) (fate : Fate) (rowID : Bytes)
    (current : Bool) : Runner μ :=
  match f.todo with
  | [] => s
  | .retry id delayMs :: rest =>
    let s := s.setFlight b (some { f with todo := rest })
    if fate = .refused then s else { s with db := s.db.retry now id delayMs }
  | .deadLetter m :: rest => s.sendDeadLetter env cfg b f m rest now fate rowID current
  | .drop m :: rest => (s.setFlight b (some { f with todo := rest })).ackWith fate [m.id]
  | .ack ids :: rest => (s.setFlight b (some { f with todo := rest })).ackWith fate ids

/-- An event that cannot happen leaves the runner alone; random ids do not repeat. -/
def step (s : Runner μ) : Event → Runner μ
  | .send generation now items =>
    if ∃ item ∈ items, item.2 ∈ s.used then s
    else
      match s.db.sendBatch env ⟨cfg.ref.name, generation, now, []⟩ items (.ok ()) with
      | .ok sent => { s with db := sent.db, used := items.map Prod.snd ++ s.used }
      | .error _ => s
  | .claim now limit leaseMs fate =>
    let (msgs, db) := s.db.claim now limit leaseMs
    match fate with
    | .refused => s
    | .unproven => { s with db }
    | .proven =>
      if msgs = [] then { s with db } else { s with db, flights := s.flights ++ [some { msgs }] }
  | .abandon b => s.setFlight b none
  | .dispatch b result =>
    match s.flights[b]? with
    | some (some f) =>
      if f.result = none then
        { s.setFlight b (some { f with
            result := some result, todo := afterDispatch cfg f.msgs result }) with
          dispatches := fun id => s.dispatches id + if id ∈ f.msgs.map Message.id then 1 else 0 }
      else s
    | _ => s
  | .next b now fate rowID current =>
    match s.flights[b]? with
    | some (some f) => s.perform env cfg b f now fate rowID current
    | _ => s

def run (events : List Event) : Runner μ := events.foldl (step env cfg) (start μ)

/-! ## The condition and the properties -/

/-- A message that is claimed was dispatched as often as it was claimed before. -/
def Meets (s : Runner μ) : Event → Prop
  | .claim now limit _ _ => ∀ m ∈ s.db.selectClaim now limit, m.attempts ≤ s.dispatches m.id
  | _ => True

instance (s : Runner μ) : DecidablePred s.Meets := fun ev => by
  unfold Meets
  split <;> infer_instance

/-- A message on its way to the dead-letter queue, or out of the queue, for want of retries was
dispatched once and as often as its retries allow. -/
def Budget (s : Runner μ) : Prop :=
  ∀ f, some f ∈ s.flights → ∀ m, .deadLetter m ∈ f.todo ∨ .drop m ∈ f.todo →
    retriesFor cfg.ref + 1 ≤ s.dispatches m.id

/-- Why an event may remove a message: a dispatch of it succeeded and did not ask for a retry, or
its retries are exhausted and it was dead-lettered where there is a dead-letter queue. -/
def Removable (s : Runner μ) (id : Bytes) : Event → Prop
  | .next b _ _ _ _ => ∃ f, s.flights[b]? = some (some f) ∧
    ((∃ ids rest retries, f.todo = .ack ids :: rest ∧ id ∈ ids ∧
        f.result = some (.succeeded retries) ∧ id ∈ acked retries f.msgs) ∨
      ∃ m rest, f.todo = .drop m :: rest ∧ m.id = id ∧ retriesFor cfg.ref < m.attempts ∧
        (cfg.ref.deadLetterQueue ≠ [] → id ∈ s.transferred))
  | _ => False

end Runner

end CellHive.Queue
