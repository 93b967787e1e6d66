import CellHive.Control.Namespace
import CellHive.Util.Prefixes

/-!
# Migrations and imports

`ApplyMigrationTable` and `Import` of `internal/d1/d1.go`: the statements of a text and the rows
that record it run in one transaction of the cell. The text is not screened, so a statement of it
that ends the transaction splits the two.

A statement is what it does to the database, or, where it controls the transaction, to the
connection. A call that crashes has run some of its statements: what is left is what was committed.
-/

namespace CellHive.D1

open Go

/-- What the statements see: the tables of the user and those that record texts. -/
structure Db (σ : Type) where
  data : σ
  migrations : List (Str × Str) := []
  hashes : List ((Str × Str) × Str) := []
  imports : List Str := []
deriving DecidableEq, Repr

/-- A connection, with the working state of its transaction. -/
structure Conn (σ : Type) where
  committed : Db σ
  work : Option (Db σ) := none

inductive Stmt (σ : Type)
  | run (f : Db σ → Option (Db σ))
  | control (g : Conn σ → Option (Conn σ))

inductive Err
  | invalid (text : String)
  | contentChanged (name : Str)
  | sql
  | crashed
deriving DecidableEq, Repr

section Calls

variable {σ : Type}

def Conn.exec (c : Conn σ) : Stmt σ → Option (Conn σ)
  | .run f =>
    match c.work with
    | some w => (f w).map fun w => { c with work := some w }
    -- outside of a transaction a statement commits by itself
    | none => (f c.committed).map fun d => { c with committed := d }
  | .control g => g c

/-- The statements up to the first that fails, and whether none did. -/
def Conn.execAll : List (Stmt σ) → Conn σ → Conn σ × Bool
  | [], c => (c, true)
  | st :: stmts, c =>
    match c.exec st with
    | none => (c, false)
    | some c' => execAll stmts c'

def beginTx (c : Conn σ) : Option (Conn σ) :=
  if c.work.isNone then some { c with work := some c.committed } else none

def commitTx (c : Conn σ) : Option (Conn σ) := c.work.map fun w => ⟨w, none⟩

/-- `Cell.Tx` around the statements. -/
def script (body : List (Stmt σ)) : List (Stmt σ) :=
  .control beginTx :: (body ++ [.control commitTx])

/-- A call: what it leaves, what it returns, and whether a whole text got committed by it. -/
structure Attempt (σ : Type) where
  db : Db σ
  result : Except Err Bool
  committed : Bool := false

/-- The text and the rows that record it, until the call is done or has run `k` statements. What
is not committed is rolled back, after a failure or by the crash. -/
def execute (s : Db σ) (text track : List (Stmt σ)) (k : Nat) : Attempt σ :=
  let all := script (text ++ track)
  let done := Conn.execAll (all.take k) ⟨s, none⟩
  let ran := Conn.execAll (all.take (text.length + 1)) ⟨s, none⟩
  { db := done.1.committed
    result := if k < all.length then .error .crashed else if done.2 then .ok true else .error .sql
    committed := text.length + 1 ≤ k && ran.2 && (ran.1.work.isNone || (done.2 && all.length ≤ k)) }

def insertMigration (key : Str × Str) (d : Db σ) : Option (Db σ) :=
  if key ∈ d.migrations then none else some { d with migrations := key :: d.migrations }

def insertHash (key : Str × Str) (hash : Str) (d : Db σ) : Option (Db σ) :=
  if d.hashes.any (·.1 = key) then none else some { d with hashes := (key, hash) :: d.hashes }

def insertImport (digest : Str) (d : Db σ) : Option (Db σ) :=
  if digest ∈ d.imports then none else some { d with imports := digest :: d.imports }

def checkMigration (table name sqlText : Str) : Except Err Unit :=
  if name = [] ∨ Control.hasSeparator name ∨ hasSuffix name ".sql".toList = false ∨
    trimSpace sqlText = [] then
    .error (.invalid "d1: invalid migration name or empty SQL")
  else if table = [] ∨ 128 < (table.flatMap String.utf8EncodeChar).length ∨ '\x00' ∈ table ∨
      "sqlite_".toList.isPrefixOf (table.map Char.toLower) then
    .error (.invalid "d1: invalid migrations table")
  else .ok ()

/-- `sha256` is the digest of a text, `parse` the statements SQLite makes of it. -/
def applyMigrationTable (sha256 : Str → Str) (parse : Str → List (Stmt σ)) (s : Db σ)
    (table name sqlText : Str) (k : Nat) : Attempt σ :=
  match checkMigration table name sqlText with
  | .error e => { db := s, result := .error e }
  | .ok _ =>
    let hash := sha256 (trimSpace sqlText)
    if (table, name) ∈ s.migrations then
      match s.hashes.find? (·.1 = (table, name)) with
      | some stored =>
        if stored.2 ≠ hash ∧ stored.2 ≠ sha256 sqlText then
          { db := s, result := .error (.contentChanged name) }
        else { db := s, result := .ok false }
      | none => { db := s, result := .ok false }
    else
      execute s (parse sqlText) [.run (insertMigration (table, name)),
        .run (insertHash (table, name) hash)] k

def importText (sha256 : Str → Str) (parse : Str → List (Stmt σ)) (s : Db σ) (digest sqlText : Str)
    (k : Nat) :
    Attempt σ :=
  if digest = [] ∨ trimSpace sqlText = [] then
    { db := s, result := .error (.invalid "d1: import digest and SQL are required") }
  else if digest ≠ sha256 sqlText then
    { db := s, result := .error (.invalid "d1: import digest does not match SQL") }
  else if digest ∈ s.imports then { db := s, result := .ok false }
  else execute s (parse sqlText) [.run (insertImport digest)] k

/-! ## Sequences of calls -/

inductive Key
  | migration (table name : Str)
  | imported (digest : Str)
deriving DecidableEq, Repr

/-- A text under a key, and how many statements of the call run before a crash. -/
structure Call where
  key : Key
  sqlText : Str
  k : Nat
deriving DecidableEq, Repr

variable (sha256 : Str → Str) (parse : Str → List (Stmt σ))

def attempt (s : Db σ) (c : Call) : Attempt σ :=
  match c.key with
  | .migration table name => applyMigrationTable sha256 parse s table name c.sqlText c.k
  | .imported digest => importText sha256 parse s digest c.sqlText c.k

/-- The database with the keys whose texts were executed to commit. -/
structure History (σ : Type) where
  db : Db σ
  log : List Key := []

def step (h : History σ) (c : Call) : History σ :=
  let a := attempt sha256 parse h.db c
  ⟨a.db, if a.committed then c.key :: h.log else h.log⟩

def run (start : σ) (calls : List Call) : History σ :=
  calls.foldl (step sha256 parse) ⟨{ data := start }, []⟩

/-- What a list of statements does to the database when all of it is done. -/
def effects : List (Stmt σ) → Db σ → Option (Db σ)
  | [], d => some d
  | .run f :: stmts, d => (f d).bind (effects stmts)
  | .control _ :: stmts, d => effects stmts d

/-- The rows that record a text. -/
def trackRows (c : Call) : List (Stmt σ) :=
  match c.key with
  | .migration table name =>
    [.run (insertMigration (table, name)),
      .run (insertHash (table, name) (sha256 (trimSpace c.sqlText)))]
  | .imported digest => [.run (insertImport digest)]

/-- All effects of the text and its record, or none. -/
def Atomic (s : Db σ) (c : Call) : Prop :=
  (attempt sha256 parse s c).db = s ∨
    effects (parse c.sqlText ++ trackRows sha256 c) s = some (attempt sha256 parse s c).db

/-- A statement that neither controls the transaction nor writes the records of texts. -/
def Stmt.Plain : Stmt σ → Prop
  | .run f => ∀ d d', f d = some d' →
    d'.migrations = d.migrations ∧ d'.hashes = d.hashes ∧ d'.imports = d.imports
  | .control _ => False

end Calls

/-! ## One call -/

section Attempts

variable {σ : Type} {s w : Db σ} {stmts text track : List (Stmt σ)} {k : Nat}

theorem execAll_append (a b : List (Stmt σ)) (c : Conn σ) :
    Conn.execAll (a ++ b) c =
      if (Conn.execAll a c).2 then Conn.execAll b (Conn.execAll a c).1 else Conn.execAll a c := by
  induction a generalizing c with
  | nil => rfl
  | cons st a ih =>
    rw [List.cons_append, Conn.execAll, Conn.execAll]
    cases c.exec st with
    | none => rfl
    | some c' => exact ih c'

def Stmt.IsRun (st : Stmt σ) : Prop := ∃ f, st = .run f

/-- In a transaction, statements that do not control it leave what is committed alone. -/
theorem execAll_runs (hruns : ∀ st ∈ stmts, st.IsRun) (s w : Db σ) :
    ∃ w', (Conn.execAll stmts ⟨s, some w⟩).1 = ⟨s, some w'⟩ ∧
      ((Conn.execAll stmts ⟨s, some w⟩).2 = true → effects stmts w = some w') := by
  induction stmts generalizing w with
  | nil => exact ⟨w, rfl, fun _ => rfl⟩
  | cons st stmts ih =>
    obtain ⟨f, rfl⟩ := hruns st List.mem_cons_self
    cases hf : f w with
    | none =>
      have hexec : Conn.exec ⟨s, some w⟩ (.run f) = none := by simp [Conn.exec, hf]
      simp [Conn.execAll, hexec]
    | some w₁ =>
      have hexec : Conn.exec ⟨s, some w⟩ (.run f) = some ⟨s, some w₁⟩ := by simp [Conn.exec, hf]
      simp only [Conn.execAll, hexec]
      obtain ⟨w', hconn, heffects⟩ :=
        ih (fun st' hst' => hruns st' (List.mem_cons_of_mem _ hst')) w₁
      refine ⟨w', hconn, fun hok => ?_⟩
      rw [effects, hf]
      exact heffects hok

theorem execAll_begin (stmts : List (Stmt σ)) (s : Db σ) :
    Conn.execAll (.control beginTx :: stmts) ⟨s, none⟩ = Conn.execAll stmts ⟨s, some s⟩ := rfl

theorem committed_take_script (hruns : ∀ st ∈ stmts, st.IsRun) (hk : k < (script stmts).length) :
    (Conn.execAll ((script stmts).take k) ⟨s, none⟩).1.committed = s := by
  rcases k with _ | k
  · rfl
  simp only [script, List.length_cons, List.length_append, List.length_nil] at hk
  rw [script, List.take_succ_cons, List.take_append_of_le_length (by omega), execAll_begin]
  have hinit : ∀ st ∈ stmts.take k, st.IsRun := fun st hst => hruns st (List.mem_of_mem_take hst)
  obtain ⟨w', hconn, -⟩ := execAll_runs hinit s s
  rw [hconn]

theorem execAll_script (hruns : ∀ st ∈ stmts, st.IsRun) (s : Db σ) :
    ((Conn.execAll (script stmts) ⟨s, none⟩).1.committed = s ∧
      (Conn.execAll (script stmts) ⟨s, none⟩).2 = false) ∨
    effects stmts s = some (Conn.execAll (script stmts) ⟨s, none⟩).1.committed := by
  rw [script, execAll_begin, execAll_append]
  obtain ⟨w', hconn, heffects⟩ := execAll_runs hruns s s
  cases hok : (Conn.execAll stmts ⟨s, some s⟩).2 with
  | false => simp [hconn, hok]
  | true =>
    rw [hconn]
    exact .inr (heffects hok)

/-- A call on statements that do not control the transaction is all or nothing, and has committed
the text only if it is all. -/
theorem execute_spec (hruns : ∀ st ∈ text ++ track, st.IsRun) :
    ((execute s text track k).db = s ∧ (execute s text track k).committed = false) ∨
      effects (text ++ track) s = some (execute s text track k).db := by
  have hwork : (Conn.execAll ((script (text ++ track)).take (text.length + 1))
    ⟨s, none⟩).1.work.isNone
      = false := by
    rw [script, List.take_succ_cons, List.append_assoc, List.take_left, execAll_begin]
    obtain ⟨w', hconn, -⟩ := execAll_runs (fun st hst => hruns st (List.mem_append_left _ hst)) s s
    rw [hconn]
    rfl
  by_cases hk : k < (script (text ++ track)).length
  · refine .inl ⟨committed_take_script hruns hk, ?_⟩
    simp only [execute, hwork, Bool.false_or]
    rw [decide_eq_false (by omega : ¬ (script (text ++ track)).length ≤ k)]
    simp
  · have hall : (script (text ++ track)).take k = script (text ++ track) :=
      List.take_of_length_le (by omega)
    rcases execAll_script hruns s with ⟨hsame, hfailed⟩ | heffects
    · refine .inl ⟨?_, ?_⟩
      · simp only [execute, hall, hsame]
      · simp only [execute, hwork, hall, hfailed, Bool.false_or, Bool.false_and, Bool.and_false]
    · refine .inr ?_
      simp only [execute, hall]
      exact heffects

end Attempts

/-! ## Every run -/

section Runs

variable {σ : Type} {sha256 : Str → Str} {parse : Str → List (Stmt σ)} {s : Db σ} {c : Call}

/-- The key is recorded. -/
def Tracked (d : Db σ) : Key → Prop
  | .migration table name => (table, name) ∈ d.migrations
  | .imported digest => digest ∈ d.imports

theorem isRun_of_plain {st : Stmt σ} (h : st.Plain) : st.IsRun := by
  cases st with
  | run f => exact ⟨f, rfl⟩
  | control g => cases h

theorem attempt_spec (sha256 : Str → Str) (s : Db σ) (hplain : ∀ st ∈ parse c.sqlText, st.Plain) :
    ((attempt sha256 parse s c).db = s ∧ (attempt sha256 parse s c).committed = false) ∨
    (effects (parse c.sqlText ++ trackRows sha256 c) s = some (attempt sha256 parse s c).db ∧
      ¬ Tracked s c.key) := by
  have hruns : ∀ st ∈ parse c.sqlText ++ trackRows sha256 c, st.IsRun := by
    intro st hst
    rcases List.mem_append.mp hst with hst | hst
    · exact isRun_of_plain (hplain st hst)
    · unfold trackRows at hst
      split at hst <;> simp only [List.mem_cons, List.not_mem_nil, or_false] at hst
      · rcases hst with rfl | rfl <;> exact ⟨_, rfl⟩
      · exact ⟨_, hst⟩
  obtain ⟨key, sqlText, k⟩ := c
  cases key with
  | migration table name =>
    unfold attempt applyMigrationTable
    dsimp only
    split
    · exact .inl ⟨rfl, rfl⟩
    split
    · split
      · split <;> exact .inl ⟨rfl, rfl⟩
      · exact .inl ⟨rfl, rfl⟩
    · next hnew => exact (execute_spec hruns).imp_right fun heffects => ⟨heffects, hnew⟩
  | imported digest =>
    unfold attempt importText
    dsimp only
    split
    · exact .inl ⟨rfl, rfl⟩
    split
    · exact .inl ⟨rfl, rfl⟩
    · split
      · exact .inl ⟨rfl, rfl⟩
      · next hnew => exact (execute_spec hruns).imp_right fun heffects => ⟨heffects, hnew⟩

theorem effects_append (a b : List (Stmt σ)) (d : Db σ) :
    effects (a ++ b) d = (effects a d).bind (effects b) := by
  induction a generalizing d with
  | nil => rfl
  | cons st a ih =>
    cases st with
    | run f =>
      rw [List.cons_append, effects, effects]
      cases f d with
      | none => rfl
      | some d' => exact ih d'
    | control g => exact ih d

theorem effects_plain {stmts : List (Stmt σ)} {d d' : Db σ} (hplain : ∀ st ∈ stmts, st.Plain)
    (h : effects stmts d = some d') :
    d'.migrations = d.migrations ∧ d'.hashes = d.hashes ∧ d'.imports = d.imports := by
  induction stmts generalizing d with
  | nil =>
    cases h
    exact ⟨rfl, rfl, rfl⟩
  | cons st stmts ih =>
    have hst := hplain st List.mem_cons_self
    cases st with
    | control g => cases hst
    | run f =>
      obtain ⟨d₁, hf, h⟩ := Option.bind_eq_some_iff.mp h
      obtain ⟨hm, hh, hi⟩ := hst d d₁ hf
      rw [← hm, ← hh, ← hi]
      exact ih (fun st' hst' => hplain st' (List.mem_cons_of_mem _ hst')) h

/-- What a plain text and its record leave: the records that were there, and the new one. -/
theorem tracked_effects {d' : Db σ} (hplain : ∀ st ∈ parse c.sqlText, st.Plain)
    (h : effects (parse c.sqlText ++ trackRows sha256 c) s = some d') (key : Key) :
    Tracked d' key ↔ key = c.key ∨ Tracked s key := by
  rw [effects_append] at h
  obtain ⟨d₁, htext, htrack⟩ := Option.bind_eq_some_iff.mp h
  obtain ⟨hm, hh, hi⟩ := effects_plain hplain htext
  obtain ⟨ckey, sqlText, k⟩ := c
  cases ckey with
  | migration table name =>
    simp only [trackRows, effects, insertMigration, insertHash, hm, hh] at htrack
    split at htrack
    · cases htrack
    rw [Option.bind_some] at htrack
    split at htrack
    · cases htrack
    · cases htrack
      cases key <;> simp [Tracked, hi]
  | imported digest =>
    simp only [trackRows, effects, insertImport, hi] at htrack
    split at htrack
    · cases htrack
    · cases htrack
      cases key <;> simp [Tracked, hm]

/-- The keys executed to commit are distinct and recorded. -/
structure Inv (h : History σ) : Prop where
  nodup : h.log.Nodup
  tracked : ∀ key ∈ h.log, Tracked h.db key

theorem Inv.step {h : History σ} (hinv : Inv h) (hplain : ∀ st ∈ parse c.sqlText, st.Plain) :
    Inv (step sha256 parse h c) := by
  unfold D1.step
  dsimp only
  rcases attempt_spec sha256 h.db hplain with ⟨hdb, hcommitted⟩ | ⟨heffects, hnew⟩
  · rw [hcommitted, hdb]
    exact ⟨hinv.nodup, hinv.tracked⟩
  have htracked := tracked_effects hplain heffects
  split
  · refine ⟨List.nodup_cons.mpr ⟨fun hmem => hnew (hinv.tracked _ hmem), hinv.nodup⟩,
      fun key hkey => ?_⟩
    rw [htracked]
    exact (List.mem_cons.mp hkey).imp_right (hinv.tracked key)
  · exact ⟨hinv.nodup, fun key hkey => (htracked key).mpr (.inr (hinv.tracked key hkey))⟩

/-- Over texts of plain statements every call is all or nothing, wherever it fails or crashes, and
no text is executed to commit twice under a key. -/
theorem texts_atomic_once (sha256 : Str → Str) (parse : Str → List (Stmt σ)) (start : σ)
    (calls : List Call)
    (hplain : ∀ c ∈ calls, ∀ st ∈ parse c.sqlText, st.Plain) :
    ∀ before c, before ++ [c] <+: calls →
      Atomic sha256 parse (run sha256 parse start before).db c ∧
      (run sha256 parse start (before ++ [c])).log.Nodup := by
  have hmem : ∀ before c, before ++ [c] <+: calls → ∀ st ∈ parse c.sqlText, st.Plain :=
    fun before c hinit =>
    hplain c (hinit.subset (List.mem_append_right _ List.mem_cons_self))
  have hinv : ∀ before, before <+: calls → Inv (run sha256 parse start before) :=
    Util.invariant_of_steps ⟨List.nodup_nil, nofun⟩ (fun _ _ hinv hc => hinv.step hc) hmem
  intro before c hinit
  refine ⟨?_, (hinv _ hinit).nodup⟩
  rcases attempt_spec sha256 (run sha256 parse start before).db (hmem before c hinit)
    with ⟨hdb, -⟩ | ⟨heffects, -⟩
  · exact .inl hdb
  · exact .inr heffects

def addOne : Stmt Nat := .run fun d => some { d with data := d.data + 1 }

def oneCall : List Call :=
  [⟨.migration ['m'] "1.sql".toList, ['x'], 9⟩, ⟨.migration ['m'] "1.sql".toList, ['x'], 9⟩]

theorem texts_atomic_once_oneCall : (∀ st ∈ [addOne], st.Plain) ∧
    ∀ before c, before ++ [c] <+: oneCall →
      Atomic id (fun _ => [addOne]) (run id (fun _ => [addOne]) 0 before).db c ∧
      (run id (fun _ => [addOne]) 0 (before ++ [c])).log.Nodup := by
  have hplain : ∀ st ∈ [addOne], st.Plain := by
    intro st hst
    obtain rfl := List.mem_singleton.mp hst
    intro d d' hd
    cases hd
    exact ⟨rfl, rfl, rfl⟩
  exact ⟨hplain, texts_atomic_once id (fun _ => [addOne]) 0 oneCall fun _ _ => hplain⟩

/-- A text that commits and then fails: its first statement stays without a record, and a retry
runs it again. -/
def commitThenFail : List (Stmt Nat) := [addOne, .control commitTx, .run fun _ => none]

theorem commit_splits_migration :
    let h := run id (fun _ => commitThenFail) 0 oneCall
    ¬ Atomic id (fun _ => commitThenFail) { data := 0 }
      ⟨.migration ['m'] "1.sql".toList, ['x'], 9⟩ ∧
      h.db.data = 2 ∧ h.db.migrations = [] := by
  unfold Atomic
  decide +kernel

end Runs

end CellHive.D1
