import CellHive.Control.VersionsSpec
import Mathlib.Tactic.FinCases

/-!
# Purge jobs

The `purges` table and the transactions on it (`internal/control/store_v2.go`). The loop that runs
the jobs lists them and, for each, calls the data hook, deletes the rows and finishes the job, each
in a transaction of its own; what is said here is said of every sequence of transactions.
-/

namespace CellHive.Control

open Go

/-- A row of `purges`. -/
structure Purge where
  failed : Bool
  requestedMs : Int
  attempts : Nat

/-- The store with its jobs, by worker; the one of a whole app has the empty name. -/
structure Jobs where
  db : Db := {}
  purges : WorkerId → Option Purge := fun _ => none

inductive Tx
  | op (op : Op)
  | finishPurge (ns worker : Str)
  | failPurge (ns worker : Str)
deriving DecidableEq

namespace Jobs

variable (s : Jobs)

def enqueuePurge (id : WorkerId) (now : Int) : WorkerId → Option Purge :=
  Function.update s.purges id (some ⟨false, now, (s.purges id).elim 0 Purge.attempts⟩)

/-- What an operation that succeeds does to the jobs. -/
def queue : Op → WorkerId → Option Purge
  | .createApp ns => Function.update s.purges (ns, []) none
  | .record id op =>
    if (s.db.records id).revives op then
      Function.update (Function.update s.purges id none) (id.1, []) none
    else s.purges
  | .deleteWorker ns worker now => s.enqueuePurge (ns, worker) now
  | .deleteApp ns now => s.enqueuePurge (ns, []) now
  | _ => s.purges

def step (env : Bool) : Tx → Jobs
  | .op op =>
    match s.db.exec env op with
    | .error _ => s
    | .ok db => ⟨db, s.queue op⟩
  | .finishPurge ns worker => { s with purges := Function.update s.purges (ns, worker) none }
  | .failPurge ns worker =>
    { s with
      purges := Function.update s.purges (ns, worker) ((s.purges (ns, worker)).map fun p =>
        { p with failed := true, attempts := p.attempts + 1 }) }

def run (env : Bool) (txs : List Tx) : Jobs := txs.foldl (step · env) {}

/-- A worker that is marked deleted has a job, its own or that of its app. -/
def Owed : Prop :=
  ∀ id, (s.db.records id).deleted → (s.purges id).isSome ∨ (s.purges (id.1, [])).isSome

def OwnJob (ns worker : Str) : Prop := worker ≠ [] ∧ (s.purges (ns, worker)).isSome

/-- A job is taken back or finished only if no worker that is marked deleted depends on it. -/
def Spares : Tx → Prop
  | .op (.createApp ns) => ∀ worker, (s.db.records (ns, worker)).deleted → s.OwnJob ns worker
  | .op (.record id op) => (s.db.records id).revives op →
    ∀ worker ≠ id.2, (s.db.records (id.1, worker)).deleted → s.OwnJob id.1 worker
  | .finishPurge ns [] => ∀ worker, (s.db.records (ns, worker)).deleted → s.OwnJob ns worker
  | .finishPurge ns worker => (s.db.records (ns, worker)).deleted → (s.purges (ns, [])).isSome
  | _ => True

end Jobs

/-! ## What marks a worker deleted -/

section Marks

variable {env : Bool} {id : WorkerId}

theorem Record.not_deleted_of_revives {r r' : Record} {app : Option Int} {name : Str}
    {pin : List Binding → List Binding} {op : RecordOp} (h : r.exec env app pin name op = .ok r')
    (hop : r.revives op) : r'.deleted = false := by
  cases op with
  | deploy spec actor now storageID fingerprint deleteLock =>
    obtain ⟨hstage, hnew⟩ : spec.stageOnly = false ∧
        r.deployed spec.idempotencyKey fingerprint = .ok none := by
      cases hd : r.deployed spec.idempotencyKey fingerprint <;>
        simp_all [revives, Except.toOption]
    simp only [exec, deploy, hstage, hnew, Bool.false_eq_true, false_and, if_false] at h
    split at h
    · cases h
    obtain ⟨-, h⟩ := guard_eq_ok h
    obtain rfl := insertVersionSecrets_eq_ok h
    rfl
  | _ => cases hop

/-- A worker is marked by its deletion or that of its app, and stays so until it is deployed. -/
theorem Db.exec_deleted {s s' : Db} {op : Op} (h : s.exec env op = .ok s')
    (hdeleted : (s'.records id).deleted) :
    ((s.records id).deleted ∧ ∀ rop, op = .record id rop → ¬ (s.records id).revives rop) ∨
      ∃ now, op = .deleteWorker id.1 id.2 now ∨ op = .deleteApp id.1 now := by
  cases op with
  | record id' op =>
    obtain ⟨-, h⟩ := checked_eq_ok h
    unfold execRecord at h
    split at h
    · cases h
    next r hr =>
    have hmoves := (Record.exec_spec hr).deleted
    have hlive := Record.not_deleted_of_revives hr
    cases h
    grind
  | deleteWorker ns worker now =>
    obtain ⟨-, h⟩ := checked_eq_ok h
    unfold deleteWorker at h
    split at h
    · cases h
    cases h
    grind
  | deleteApp ns now =>
    obtain ⟨-, h⟩ := checked_eq_ok h
    cases h
    simp only [deleteApp] at hdeleted
    grind
  | purgeWorkerRows ns worker =>
    cases h
    refine .inl ⟨?_, by rintro _ ⟨⟩⟩
    unfold purgeWorkerRows at hdeleted
    split at hdeleted
    · exact hdeleted
    · simp only [Function.update_apply, apply_ite records, ite_apply] at hdeleted
      grind [Record.deleted]
  | purgeAppRows ns =>
    cases h
    unfold purgeAppRows at hdeleted
    grind [Record.deleted]
  | createApp ns =>
    obtain ⟨-, h⟩ := checked_eq_ok h
    cases h
    exact .inl ⟨hdeleted, by rintro _ ⟨⟩⟩
  | putCustomHost | deleteHost | ensureBuiltinHost | putRoute | deleteRoute =>
    rw [onDomains_records (checked_eq_ok h).2] at hdeleted
    exact .inl ⟨hdeleted, by rintro _ ⟨⟩⟩

end Marks

/-! ## Runs -/

namespace Jobs

variable {env : Bool} {s : Jobs}

theorem Owed.op {db : Db} {op : Op} (h : s.Owed) (hop : s.Spares (.op op))
    (hexec : s.db.exec env op = .ok db) : Owed ⟨db, s.queue op⟩ := by
  intro id hdeleted
  rcases Db.exec_deleted hexec hdeleted with ⟨hbefore, hkept⟩ | ⟨now, rfl | rfl⟩
  · have howed := h id hbefore
    cases op with
    | createApp ns =>
      simp only [queue, Function.update_apply, Spares, OwnJob] at hop ⊢
      grind
    | record id' op =>
      by_cases hrevives : (s.db.records id').revives op
      · simp only [queue, hrevives, if_true, Function.update_apply, Spares, OwnJob] at hop ⊢
        grind
      · simpa [queue, hrevives] using howed
    | deleteWorker ns worker now | deleteApp ns now =>
      simp only [queue, enqueuePurge, Function.update_apply]
      grind
    | _ => exact howed
  · exact .inl (by simp [queue, enqueuePurge])
  · exact .inr (by simp [queue, enqueuePurge])

theorem Owed.step {tx : Tx} (h : s.Owed) (hop : s.Spares tx) : (s.step env tx).Owed := by
  cases tx with
  | op op =>
    simp only [Jobs.step]
    split
    · exact h
    · next hexec => exact h.op hop hexec
  | finishPurge ns worker =>
    intro id (hdeleted : (s.db.records id).deleted)
    have howed := h id hdeleted
    simp only [Jobs.step, Function.update_apply]
    cases worker with
    | nil =>
      simp only [Spares, OwnJob] at hop
      grind
    | cons c worker =>
      simp only [Spares] at hop
      grind
  | failPurge ns worker =>
    intro id hdeleted
    have howed := h id hdeleted
    simp only [Jobs.step, Function.update_apply]
    grind

/-- In every state of a run that spares the jobs deleted workers depend on, each of them has one. -/
theorem deletions_owed (env : Bool) (txs : List Tx)
    (htxs : ∀ before tx, before ++ [tx] <+: txs → (run env before).Spares tx) :
    ∀ before, before <+: txs → (run env before).Owed :=
  Util.invariant_of_steps (fun _ => nofun) (fun _ _ h hop => h.step hop) htxs

/-- A worker is deployed and deleted, and its rows are purged. -/
def purgeOne : List Tx :=
  [.op (.record (['n'], ['a']) (deployOf "x")), .op (.deleteWorker ['n'] ['a'] 2),
    .op (.purgeWorkerRows ['n'] ['a']), .finishPurge ['n'] ['a']]

theorem deletions_owed_purgeOne :
    (∀ before tx, before ++ [tx] <+: purgeOne → (run true before).Spares tx) ∧
      ((run true (purgeOne.take 2)).db.records (['n'], ['a'])).deleted ∧
      ∀ before, before <+: purgeOne → (run true before).Owed := by
  have htxs : ∀ before tx, before ++ [tx] <+: purgeOne → (run true before).Spares tx := by
    rw [Util.forall_concat_isPrefix]
    intro k
    fin_cases k
    case «0» => exact fun _ _ _ => nofun
    case «3» => exact fun h => absurd h (by decide +kernel)
    all_goals trivial
  exact ⟨htxs, by decide +kernel, deletions_owed true purgeOne htxs⟩

/-- The deploy of `a` takes back the job of the deleted app, which its other worker depends on. -/
theorem deploy_cancels_app_purge :
    ¬ (run true [.op (.createApp ['n']), .op (.record (['n'], ['a']) (deployOf "x")),
      .op (.record (['n'], ['b']) (deployOf "y")), .op (.deleteApp ['n'] 2),
      .op (.record (['n'], ['a']) (deployOf "z"))]).Owed :=
  fun h => absurd (h (['n'], ['b']) (by decide +kernel)) (by decide +kernel)

end Jobs

end CellHive.Control
