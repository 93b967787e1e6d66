import CellHive.Cell.Scope
import CellHive.Concurrent.Prog
import CellHive.Timer.Store
import CellHive.Wake.Index

/-!
# Timers and their index entry

The calls of `timer.Store` as programs over the timer tables of a cell and the wake index of the
bucket. A transaction on the tables is one operation; so is each read or write of an object. An
operation may fail, with or without its effect, and a call may be cut off after any of them.
-/

namespace CellHive.Timer

open Go Sql Concurrent Prog

structure World (τ ω : Type) where
  tables : Tables τ ω
  index : Wake.Index

inductive Tx (τ ω : Type)
  | insert (t : Timer τ ω)
  | markFired (token : τ) (expiresMs : Int)
  | removeByOccurrence (occurrence : ω)
  | scheduleRetry (token : τ) (nowMs maxAttempts firedUntilMs : Int)

inductive Op (τ ω : Type)
  | nextDue
  | pointer
  | putPointer (e : Wake.Entry)
  | putDue (e : Wake.Entry)
  | deleteDue (ms : Int)
  | deletePointer
  | tx (tx : Tx τ ω)

/-- A read answers nothing when it fails; a write answers whether it succeeded. -/
@[reducible] def Op.Reply {τ ω : Type} : Op τ ω → Type
  | .nextDue => Option Int
  | .pointer => Option (Option Wake.Entry)
  | _ => Bool

@[reducible] def ops (τ ω : Type) : Signature := ⟨Op τ ω, Op.Reply⟩

inductive Fate
  | done
  | failed
  | unreported
deriving DecidableEq

section

variable {τ ω : Type} [DecidableEq τ] [DecidableEq ω]

/-- The tables a transaction commits; a retry of a timer that is gone is rolled back. -/
def Tx.apply (tables : Tables τ ω) : Tx τ ω → Option (Tables τ ω)
  | .insert t => some (tables.insert t)
  | .markFired token expiresMs => some (tables.markFired token expiresMs)
  | .removeByOccurrence occurrence => some (tables.removeByOccurrence occurrence)
  | .scheduleRetry token nowMs maxAttempts firedUntilMs =>
    (tables.scheduleRetryBounded token nowMs maxAttempts firedUntilMs).map Prod.snd

def write (w : World τ ω) (fate : Fate) (f : World τ ω → World τ ω) : Option (Bool × World τ ω) :=
  match fate with
  | .done => some (true, f w)
  | .failed => some (false, w)
  | .unreported => some (false, f w)

def World.withTables (w : World τ ω) (tables : Tables τ ω) : World τ ω := { w with tables }

def World.withIndex (w : World τ ω) (index : Wake.Index) : World τ ω := { w with index }

def exec (scope : Bytes) : Exec (ops τ ω) Fate (World τ ω)
  | .nextDue, fate, w => some (if fate = .done then some w.tables.nextDue else none, w)
  | .pointer, fate, w => some (if fate = .done then some (w.index.ptr.lookup scope) else none, w)
  | .putPointer e, fate, w =>
    write w fate fun w => w.withIndex { w.index with ptr := w.index.ptr.insert scope e }
  | .putDue e, fate, w =>
    write w fate fun w =>
      w.withIndex { w.index with due := w.index.due.insert (Wake.dueKey e.dueMs scope) e }
  | .deleteDue ms, fate, w =>
    write w fate fun w =>
      w.withIndex { w.index with due := w.index.due.erase (Wake.dueKey ms scope) }
  | .deletePointer, fate, w =>
    write w fate fun w => w.withIndex { w.index with ptr := w.index.ptr.erase scope }
  | .tx tx, fate, w =>
    match tx.apply w.tables with
    | some tables => write w fate fun w => w.withTables tables
    | none => some (false, w)

end

section Programs

variable {τ ω : Type}

def ask (op : Op τ ω) : Prog (ops τ ω) op.Reply := perform (S := ops τ ω) op

/-- `Index.Put`: the pointer, the entry, and then the entry of the old pointer goes. -/
def putIndex (scope : Bytes) (dueMs : Int) : Prog (ops τ ω) Bool := do
  let old ← ask .pointer
  let ok ← ask (.putPointer ⟨scope, dueMs⟩)
  if ok then
    let ok ← ask (.putDue ⟨scope, dueMs⟩)
    if ok then
      match old with
      | some (some e) =>
        if Wake.dueKey e.dueMs scope ≠ Wake.dueKey dueMs scope then
          let _ ← ask (.deleteDue e.dueMs)
          return true
        else return true
      | _ => return true
    else return false
  else return false

def deleteIndex : Prog (ops τ ω) Bool := do
  let cur ← ask .pointer
  match cur with
  | none => return false
  | some none => ask .deletePointer
  | some (some e) =>
    let ok ← ask (.deleteDue e.dueMs)
    if ok then ask .deletePointer else return false

def syncIndex (scope : Bytes) : Prog (ops τ ω) Bool := do
  let next ← ask .nextDue
  match next with
  | none => return false
  | some next => if next = 0 then deleteIndex else putIndex scope next

/-- The entry is published before the row, for the earlier of the two times. -/
def upsert (scope : Bytes) (t : Timer τ ω) : Prog (ops τ ω) Bool := do
  let cur ← ask .nextDue
  match cur with
  | none => return false
  | some cur =>
    let ok ← putIndex scope (if 0 < cur ∧ cur < t.dueAtMs then cur else t.dueAtMs)
    if ok then
      let ok ← ask (.tx (.insert t))
      let _ ← syncIndex scope
      return ok
    else return false

/-- A transaction and, if it succeeded, the entry from what it left. -/
def commitThenSync (scope : Bytes) (tx : Tx τ ω) : Prog (ops τ ω) Bool := do
  let ok ← ask (.tx tx)
  if ok then
    let _ ← syncIndex scope
    return true
  else return false

inductive Call (τ ω : Type)
  | upsert (t : Timer τ ω)
  | markFired (token : τ) (expiresMs : Int)
  | removeByOccurrence (occurrence : ω)
  | scheduleRetry (token : τ) (nowMs maxAttempts firedUntilMs : Int)
  | syncIndex

def Call.prog (scope : Bytes) : Call τ ω → Prog (ops τ ω) Bool
  | .upsert t => Timer.upsert scope t
  | .markFired token expiresMs => commitThenSync scope (.markFired token expiresMs)
  | .removeByOccurrence occurrence => commitThenSync scope (.removeByOccurrence occurrence)
  | .scheduleRetry token nowMs maxAttempts firedUntilMs =>
    commitThenSync scope (.scheduleRetry token nowMs maxAttempts firedUntilMs)
  | .syncIndex => Timer.syncIndex scope

end Programs

end CellHive.Timer
