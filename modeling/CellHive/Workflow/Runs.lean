import CellHive.Workflow.Ops

/-!
# Stale runs and finished instances

A call that carries a run token which is not the current one changes nothing. So a finished
instance, whose token is empty, can only be moved by the calls that carry none: pausing,
resuming, terminating and restarting it, deleting it, and the reports and parks of a run without
a token.
-/

namespace CellHive.Workflow

open Go Sql Timer

/-! ## Stale runs -/

/-- The instance and the run token a call carries. -/
def Op.run? : Op → Option (Str × Str)
  | .renewRun id token _ => some (id, token)
  | .releaseRun id token => some (id, token)
  | .setAttempt id _ _ _ run => some (id, run)
  | .clearAttempt id _ run => some (id, run)
  | .clearWait id _ run => some (id, run)
  | .putStep id _ _ run => some (id, run)
  | .consumeEvent id _ _ run => some (id, run)
  | .setStatus id _ _ run => some (id, run)
  | .setOutput id _ run => some (id, run)
  | .parkSleep id run _ => some (id, run)
  | .parkWait id _ run _ _ _ => some (id, run)
  | _ => none

def Stale (db : Db) (id token : Str) : Prop :=
  token ≠ [] ∧ (db.instances.get id).map Instance.runToken ≠ some token

namespace Db

variable {db : Db} {eventType : Bytes → Option Str} {now : Int} {id token : Str}

theorem token_ne_of_stale (h : Stale db id token) {i : Instance}
    (hget : db.instances.get id = some i) : i.runToken ≠ token := by
  intro heq
  exact h.2 (by rw [hget, Option.map_some, heq])

theorem checkRunTx_of_stale (h : Stale db id token) : db.checkRunTx id token = .error .staleRun := by
  unfold checkRunTx
  rw [if_neg h.1]
  cases hget : db.instances.get id with
  | none => rfl
  | some i => simp [token_ne_of_stale h hget]

theorem parkCheck_of_stale (h : Stale db id token) : ∃ e, db.parkCheck id token = .error e := by
  unfold parkCheck
  cases hget : db.instances.get id with
  | none => exact ⟨_, rfl⟩
  | some i => exact ⟨.staleRun, by simp [h.1, token_ne_of_stale h hget]⟩

theorem setInstance_of_none {p : Instance → Bool} {f : Instance → Instance}
    {hf : ∀ i, (f i).id = i.id} (h : ∀ i, db.instances.get id = some i → p i = false) :
    db.setInstance id p f hf = db := by
  have hrows : db.instances.update (fun i => decide (i.id = id) && p i) f hf = db.instances := by
    apply Table.ext
    refine Eq.trans (List.map_congr_left ?_) (List.map_id _)
    intro i hi
    by_cases hk : i.id = id
    · have hp := h i (hk ▸ Table.get_of_mem hi)
      simp [hp]
    · simp [hk]
  rw [setInstance, hrows]

end Db

/-- A run whose token is no longer the instance's current one changes no row of any table. -/
theorem stale_run_inert (eventType : Bytes → Option Str) (db : Db) (now : Int) (op : Op)
    (id token : Str) (hrun : op.run? = some (id, token)) (hstale : Stale db id token) :
    db.commit eventType now op = db := by
  cases op with
  | renewRun k tok ttlMs =>
    cases hrun
    have herror : db.renewRun now id token ttlMs = .error .staleRun := by
      unfold Db.renewRun
      cases hget : db.instances.get id with
      | none => rfl
      | some i => simp [Db.token_ne_of_stale hstale hget]
    simp only [Db.commit, Db.exec, herror]
  | releaseRun k tok =>
    cases hrun
    apply Db.setInstance_of_none
    intro i hget
    simp [Db.token_ne_of_stale hstale hget, hstale.1]
  | setAttempt | clearAttempt | clearWait | putStep | setStatus | setOutput =>
    cases hrun
    simp only [Db.commit, Db.exec, Db.setAttempt, Db.clearAttempt, Db.clearWait, Db.putStep,
      Db.setStatus, Db.setOutput, Db.execRunCell, Db.checkRunTx_of_stale hstale, Except.map]
  | consumeEvent k step evType run =>
    cases hrun
    simp only [Db.commit, Db.exec, Db.consumeEventForStep, Db.checkRunTx_of_stale hstale,
      Except.map]
  | parkSleep k run due =>
    cases hrun
    obtain ⟨e, he⟩ := Db.parkCheck_of_stale hstale
    simp only [Db.commit, Db.exec, Db.parkSleep, he, Except.map]
  | parkWait k step run evType deadline request =>
    cases hrun
    obtain ⟨e, he⟩ := Db.parkCheck_of_stale hstale
    simp only [Db.commit, Db.exec, Db.parkWait, he, Except.map]
  | _ => cases hrun

def heldByB : Db :=
  let row : Instance :=
    { id := ['w'], params := [], status := .running, createdMs := 0, updatedMs := 0
      runToken := ['b'], leaseUntilMs := 100 }
  { Db.new ['s'] with instances := Table.empty.insertIgnore row }

theorem stale_run_inert_heldByB :
    heldByB.commit (fun _ => none) 5 (.setOutput ['w'] [1] ['a']) = heldByB :=
  stale_run_inert (fun _ => none) heldByB 5 (.setOutput ['w'] [1] ['a']) ['w'] ['a'] rfl
    ⟨by decide, by decide⟩

/-! ## Finished instances -/

def Db.Fenced (db : Db) : Prop :=
  ∀ k i, db.instances.get k = some i → i.status.terminal = true → i.runToken = []

theorem Db.Fenced.commit {db : Db} (h : db.Fenced) (eventType : Bytes → Option Str) (now : Int)
    (op : Op) : (db.commit eventType now op).Fenced := by
  intro k i' hget hterm
  rcases outcome_commit hget with hsame | ⟨-, -, id, params, target, rfl⟩ | ⟨i, hi, hchange⟩
  · exact h k i' hsame hterm
  · rfl
  · cases hchange with
    | claimed | resumed | restarted | woken => cases hterm
    | renewed => exact h k i hi hterm
    | released | output | slept | waited => rfl
    | @status _ st =>
      simp only [withStatus] at hterm ⊢
      rw [if_pos]
      rintro rfl
      cases hterm

theorem Db.fenced_run (eventType : Bytes → Option Str) (scope : Str) (calls : List Call) :
    ((Db.new scope).run eventType calls).Fenced := by
  induction calls using List.reverseRecOn with
  | nil => exact fun _ _ h => nomatch h
  | append_singleton calls c ih =>
    rw [Db.run_concat]
    exact ih.commit eventType c.now c.op

/-- The calls that may move a finished instance `k`: those that pause, resume, terminate, restart
or delete it, and a report or park of a run that names no token. -/
def Db.Moves (db : Db) (k : Str) : Op → Prop
  | .setStatus id _ _ run => id = k ∧ run = []
  | .setOutput id _ run => id = k ∧ run = []
  | .resume id _ => id = k
  | .restart id _ => id = k
  | .parkSleep id run _ => id = k ∧ run = []
  | .parkWait id _ run _ _ _ => id = k ∧ run = []
  | op => db.Removes k op

structure SameEnd (i j : Instance) : Prop where
  status : j.status = i.status
  output : j.output = i.output
  error : j.error = i.error

theorem SameEnd.trans {i j l : Instance} (h : SameEnd i j) (h' : SameEnd j l) : SameEnd i l :=
  ⟨h'.status.trans h.status, h'.output.trans h.output, h'.error.trans h.error⟩

section Finished

variable {db : Db} {now : Int} {k : Str} {i : Instance}

theorem run_eq_nil_of_finished (hf : db.Fenced) (hi : db.instances.get k = some i)
    (hterm : i.status.terminal = true) {run : Str} (h : run = [] ∨ i.runToken = run) :
    run = [] := by
  rcases h with h | h
  · exact h
  · exact h.symm.trans (hf k i hi hterm)

theorem finished_commit (eventType : Bytes → Option Str) (now : Int) (op : Op) (hf : db.Fenced)
    (hi : db.instances.get k = some i) (hterm : i.status.terminal = true)
    (hop : ¬ db.Moves k op) :
    ∃ j, (db.commit eventType now op).instances.get k = some j ∧ SameEnd i j := by
  have hstay : ((db.commit eventType now op).instances.get k).isSome := by
    refine Db.isSome_commit (by rw [hi]; rfl) ?_
    intro hremove
    cases op <;> first | exact hop hremove | exact hremove.elim
  obtain ⟨j, hj⟩ := Option.isSome_iff_exists.mp hstay
  refine ⟨j, hj, ?_⟩
  rcases Db.outcome_commit hj with hsame | ⟨hnone, -⟩ | ⟨x, hx, hchange⟩
  · rw [hi, Option.some.injEq] at hsame
    exact hsame ▸ ⟨rfl, rfl, rfl⟩
  · rw [hi] at hnone
    cases hnone
  · rw [hi, Option.some.injEq] at hx
    subst hx
    have hk : i.id = k := Table.get_key hi
    cases hchange with
    | claimed hopen =>
      rw [hopen.2] at hterm
      cases hterm
    | renewed | released => exact ⟨rfl, rfl, rfl⟩
    | status h | output h | slept h | waited h =>
      exact absurd ⟨hk, run_eq_nil_of_finished hf hi hterm h⟩ hop
    | resumed | restarted => exact absurd hk hop
    | woken h =>
      rw [h] at hterm
      cases hterm

end Finished

/-- The calls of a run that follow `pre`, none of which may move the instance `k`. -/
def Untouched (eventType : Bytes → Option Str) (db : Db) (k : Str) (calls : List Call) : Prop :=
  ∀ pre c post, calls = pre ++ c :: post → ¬ (db.run eventType pre).Moves k c.op

/-- An instance that is complete, errored or terminated keeps its status, output and error, and
no claim gets a run of it, as long as no call may move it. -/
theorem finished_stays_finished (eventType : Bytes → Option Str) (scope : Str)
    (before after : List Call) (k : Str) (i : Instance)
    (hi : ((Db.new scope).run eventType before).instances.get k = some i)
    (hterm : i.status.terminal = true)
    (hcalls : Untouched eventType ((Db.new scope).run eventType before) k after) :
    (∃ j, ((Db.new scope).run eventType (before ++ after)).instances.get k = some j ∧
      SameEnd i j) ∧
    ∀ pre now ttlMs limit token request post,
      after = pre ++ ⟨now, .claimRun k ttlMs limit token request⟩ :: post →
      ∃ r, ((Db.new scope).run eventType (before ++ pre)).claimRunLimited now k ttlMs limit token
        request = .ok r ∧ r.1.ok = false := by
  have hrun (calls : List Call) : (Db.new scope).run eventType (before ++ calls) =
      ((Db.new scope).run eventType before).run eventType calls := by
    simp only [Db.run, List.foldl_append]
  have hfenced := Db.fenced_run eventType scope
  -- the instance at the end of every part of `after`, by induction on the part
  have hkeep (pre post : List Call) (hsplit : after = pre ++ post) :
      ∃ j, ((Db.new scope).run eventType (before ++ pre)).instances.get k = some j ∧
        SameEnd i j := by
    induction pre using List.reverseRecOn generalizing post with
    | nil => exact ⟨i, by rwa [List.append_nil], ⟨rfl, rfl, rfl⟩⟩
    | append_singleton pre c ih =>
      obtain ⟨j, hj, hsame⟩ := ih (c :: post) (by simpa using hsplit)
      have hop := hcalls pre c post (by simpa using hsplit)
      rw [← hrun] at hop
      obtain ⟨l, hl, hnext⟩ := finished_commit eventType c.now c.op
        (hfenced (before ++ pre)) hj (by rw [hsame.status]; exact hterm) hop
      refine ⟨l, ?_, hsame.trans hnext⟩
      rw [← List.append_assoc, Db.run_concat]
      exact hl
  refine ⟨?_, ?_⟩
  · exact hkeep after [] (by simp)
  · intro pre now ttlMs limit token request post hsplit
    obtain ⟨j, hj, hsame⟩ := hkeep pre _ hsplit
    exact ⟨(⟨[], j.generation, j.status, false⟩, (Db.new scope).run eventType (before ++ pre)),
      by simp [Db.claimRunLimited, hj, hsame.status, hterm], rfl⟩

/-- A created instance whose run `t` completes at 2. -/
def completing : List Call :=
  [⟨0, .create ['w'] [] {} ['q']⟩, ⟨1, .claimRun ['w'] 10 0 ['t'] ['r']⟩,
    ⟨2, .setOutput ['w'] [7] ['t']⟩]

theorem finished_stays_finished_completing :
    (∃ j, ((Db.new ['s']).run (fun _ => none)
        (completing ++ [⟨3, .setOutput ['w'] [8] ['t']⟩])).instances.get ['w'] = some j ∧
      SameEnd { id := ['w'], params := [], status := .complete, output := some [7], createdMs := 0
                updatedMs := 2, generation := 1 } j) ∧
    ∀ pre now ttlMs limit token request post,
      [⟨3, .setOutput ['w'] [8] ['t']⟩] =
        pre ++ ⟨now, .claimRun ['w'] ttlMs limit token request⟩ :: post →
      ∃ r, ((Db.new ['s']).run (fun _ => none) (completing ++ pre)).claimRunLimited now ['w'] ttlMs
        limit token request = .ok r ∧ r.1.ok = false := by
  refine finished_stays_finished (fun _ => none) ['s'] completing [⟨3, .setOutput ['w'] [8] ['t']⟩]
    ['w'] _ (by decide +kernel) rfl ?_
  intro pre c post hsplit
  obtain ⟨rfl, rfl, rfl⟩ : pre = [] ∧ c = ⟨3, .setOutput ['w'] [8] ['t']⟩ ∧ post = [] := by
    cases pre with
    | nil => simpa [eq_comm] using hsplit
    | cons x rest => simp at hsplit
  rintro ⟨-, h⟩
  cases h

/-- `Resume` queues the completed instance, and the next claim runs it again. -/
theorem resume_reopens_complete :
    let done := (Db.new ['s']).run (fun _ => none) completing
    let again := done.commit (fun _ => none) 3 (.resume ['w'] ['x'])
    (done.instances.get ['w']).map Instance.status = some .complete ∧
      (again.instances.get ['w']).map Instance.status = some .queued ∧
      (again.claimRunLimited 4 ['w'] 10 0 ['u'] ['y']).toOption.map (·.1.ok) = some true := by
  decide +kernel

end CellHive.Workflow
