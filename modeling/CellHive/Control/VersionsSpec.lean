import CellHive.Control.Store

/-!
# Versions are immutable

What one operation can do to the rows of a worker: nothing to its versions, or one version more,
with the next number and its own secrets. The secrets in use are those of the active version.
A purge takes the versions away, and the numbers with them.
-/

namespace CellHive.Control

open Go

def RecordOp.isDeploy : RecordOp → Bool
  | .deploy .. => true
  | _ => false

namespace Record

variable {r r' : Record}

/-- The versions and their secrets as they were, or one more version. Only where `first` is set
can it be the first. -/
inductive Extends (first : Bool) (r r' : Record) : Prop
  | same (hversions : r'.versions = r.versions) (hsecrets : r'.versionSecrets = r.versionSecrets)
  | added (v : Version) (rows : List Secret) (hnumber : v.number = r.maxNumber + 1)
    (hfirst : first = true ∨ r.versions ≠ []) (hversions : r'.versions = r.versions ++ [v])
    (hsecrets : r'.versionSecrets = Function.update r.versionSecrets v.number rows)

/-- Secrets are of versions that exist, so do the pointers point to, and the secrets in use are
those
of the active version. -/
structure Sound (r : Record) : Prop where
  stored : ∀ n, r.maxNumber < n → r.versionSecrets n = []
  pointers : ∀ w, r.worker = some w → w.active ≤ r.maxNumber ∧ w.previous ≤ r.maxNumber
  live : ∀ w, r.worker = some w → w.deletedMs = 0 → w.active ≠ 0 →
    r.secrets = r.versionSecrets w.active

theorem Sound.empty : Sound {} where
  stored _ _ := rfl
  pointers w hw := by cases hw
  live w hw := by cases hw

variable {v : Version} {n : Nat}

theorem maxNumber_concat (hversions : r'.versions = r.versions ++ [v])
    (hnumber : v.number = r.maxNumber + 1) : r'.maxNumber = r.maxNumber + 1 := by
  have hmax : r'.maxNumber = max r.maxNumber v.number := by
    simp [maxNumber, hversions]
  omega

theorem number_le_maxNumber (h : v ∈ r.versions) : v.number ≤ r.maxNumber := by
  rw [maxNumber, List.foldl_eq_foldr]
  exact List.le_max_of_le' 0 (List.mem_map_of_mem h) le_rfl

theorem getVersion_le (h : r.getVersion n = some v) : n ≤ r.maxNumber := by
  have hn : v.number = n := by simpa using List.find?_some h
  exact hn ▸ number_le_maxNumber (List.mem_of_find?_eq_some h)

theorem ne_nil_of_getVersion (h : r.getVersion n = some v) : r.versions ≠ [] :=
  List.ne_nil_of_mem (List.mem_of_find?_eq_some h)

theorem insertVersionSecrets_eq_ok {rows : List Secret}
    (h : r.insertVersionSecrets n rows = .ok r') :
    r' = { r with
      versionSecrets := Function.update r.versionSecrets n (r.versionSecrets n ++ rows) } := by
  obtain ⟨-, h⟩ := guard_eq_ok h
  exact (Except.ok.inj h).symm

/-- A new version with the secrets in use, that becomes the active one or leaves the worker's
pointers alone. -/
theorem Sound.add {w : Option Worker} {rows : List Secret} (h : r.Sound)
    (hnumber : v.number = r.maxNumber + 1) (hversions : r'.versions = r.versions ++ [v])
    (hsecrets : r'.versionSecrets = Function.update r.versionSecrets v.number rows)
    (hsame : r'.secrets = r.secrets) (hworker : r'.worker = w) (hw : ∀ w', w = some w' →
      (w'.active = v.number ∧ w'.previous ≤ r.maxNumber ∧ rows = r.secrets) ∨
      (w'.active = 0 ∧ w'.previous = 0) ∨
      ∃ w₀, r.worker = some w₀ ∧ w'.active = w₀.active ∧ w'.previous = w₀.previous ∧
        w'.deletedMs = w₀.deletedMs) : r'.Sound := by
  have hmax := maxNumber_concat hversions hnumber
  constructor
  · intro n hn
    rw [hsecrets, Function.update_of_ne (by omega)]
    exact h.stored n (by omega)
  · intro w' hw'
    rcases hw w' (hworker.symm.trans hw')
      with ⟨hactive, hprevious, -⟩ | ⟨hactive, hprevious⟩ | ⟨w₀, hw₀, ha, hp, -⟩
    · omega
    · omega
    · have := h.pointers w₀ hw₀
      omega
  · intro w' hw' hdeleted hne
    rw [hsecrets, hsame]
    rcases hw w' (hworker.symm.trans hw')
      with ⟨hactive, -, hrows⟩ | ⟨hactive, -⟩ | ⟨w₀, hw₀, ha, -, hd⟩
    · rw [hactive, Function.update_self, hrows]
    · exact absurd hactive hne
    · have hle := (h.pointers w₀ hw₀).1
      rw [Function.update_of_ne (by omega), ha]
      exact h.live w₀ hw₀ (hd ▸ hdeleted) (ha ▸ hne)

/-- The worker is marked deleted. -/
def deleted (r : Record) : Bool := r.worker.any (0 < ·.deletedMs)

/-- What an operation on the rows of a worker does to them; none marks the worker deleted. -/
structure Moves (first : Bool) (r r' : Record) : Prop where
  versions : r.Extends first r'
  sound : r.Sound → r'.Sound
  deleted : r'.deleted → r.deleted

/-! ## One operation -/

section Operations

variable {env : Bool} {now : Int} {actor : Str}

theorem publishSecretChange_spec {secrets : List Secret}
    (h : publishSecretChange { r with secrets := secrets } now actor = .ok r') :
    r.Moves false r' := by
  unfold publishSecretChange at h
  split at h
  · next hnone =>
    cases h
    refine ⟨.same rfl rfl, fun hs => ⟨hs.stored, hs.pointers, fun w hw => ?_⟩, id⟩
    rw [hnone] at hw
    cases hw
  · next w hw =>
    split at h
    · next hidle =>
      cases h
      refine ⟨.same rfl rfl, fun hs => ⟨hs.stored, hs.pointers, fun w' hw' hdeleted hne => ?_⟩, id⟩
      obtain rfl : w = w' := Option.some.inj (hw.symm.trans hw')
      exact absurd hidle (by simp [hdeleted, hne])
    · split at h
      · cases h
      next v hv =>
      obtain rfl := insertVersionSecrets_eq_ok h
      refine ⟨.added _ _ rfl (.inr (ne_nil_of_getVersion hv)) rfl rfl, fun hs => ?_,
        by simp [deleted, show r.worker = some w from hw]⟩
      have hs' : Sound { r with worker := none, secrets := secrets } := ⟨hs.stored, nofun, nofun⟩
      refine hs'.add rfl rfl rfl rfl rfl fun w' hw' => .inl ?_
      obtain rfl := Option.some.inj hw'
      refine ⟨rfl, (hs.pointers w hw).1, ?_⟩
      exact congrArg (· ++ secrets) (hs.stored _ (Nat.lt_succ_self _))

variable {name : Str}

theorem deploy_spec {e : DeployEnv} {spec : DeploySpec} (h : r.deploy e name spec actor = .ok r') :
    r.Moves true r' := by
  unfold deploy at h
  split at h
  · cases h
  · cases h
    exact ⟨.same rfl rfl, id, id⟩
  · obtain ⟨-, h⟩ := guard_eq_ok h
    obtain ⟨-, h⟩ := guard_eq_ok h
    obtain ⟨-, h⟩ := guard_eq_ok h
    obtain rfl := insertVersionSecrets_eq_ok h
    refine ⟨.added _ _ rfl (.inl rfl) rfl rfl, fun hs => hs.add rfl rfl rfl rfl rfl
      fun w' hw' => ?_, by cases hw : r.worker <;> simp [deleted, hw] <;> split <;> simp⟩
    obtain rfl := Option.some.inj hw'
    split
    · -- staged: the pointers stay, or there is no worker yet
      refine .inr ?_
      cases hw : r.worker with
      | none => exact .inl ⟨rfl, rfl⟩
      | some w => exact .inr ⟨w, rfl, rfl, rfl, rfl⟩
    · refine .inl ⟨rfl, ?_, ?_⟩
      · cases hw : r.worker with
        | none => exact Nat.zero_le _
        | some w => exact (hs.pointers w hw).1
      · exact congrArg (· ++ r.secrets) (hs.stored _ (Nat.lt_succ_self _))

/-- The worker's pointers move to versions that exist, with the secrets of the active one. -/
theorem Moves.repoint {w : Worker} {active previous : Nat} {rollbacks : Str → Option (Nat × Nat)}
    (hw : r.worker = some w)
    (hle : r.Sound → active ≤ r.maxNumber ∧ previous ≤ r.maxNumber) :
    r.Moves false (restoreVersionSecrets
      { r with worker := some { w with active, previous }, rollbacks := rollbacks } active) := by
  refine ⟨.same rfl rfl, fun hs => ⟨hs.stored, fun w' hw' => ?_, fun w' hw' _ _ => ?_⟩,
    by simp [Record.deleted, restoreVersionSecrets, hw]⟩
  · obtain rfl := Option.some.inj hw'
    exact hle hs
  · obtain rfl := Option.some.inj hw'
    rfl

theorem promote_spec {n : Nat} (h : r.promote n = .ok r') :
    r.Moves false r' := by
  unfold promote at h
  split at h
  · cases h
  next v hv =>
  split at h
  · cases h
  next w hw =>
  split at h
  · cases h
    exact ⟨.same rfl rfl, id, id⟩
  · cases h
    exact .repoint hw fun hs => ⟨getVersion_le hv, (hs.pointers w hw).1⟩

theorem rollbackWithKey_spec {key : Str} (h : r.rollbackWithKey key = .ok r') :
    r.Moves false r' := by
  obtain ⟨-, h⟩ := guard_eq_ok h
  split at h
  · cases h
    exact ⟨.same rfl rfl, id, id⟩
  split at h
  · cases h
  next w hw =>
  obtain ⟨-, h⟩ := guard_eq_ok h
  cases h
  exact .repoint hw fun hs => (hs.pointers w hw).symm

theorem stageSecretChanges_spec {app deleteLock : Option Int} {changes : List (Str × Option Sealed)}
    (h : r.stageSecretChanges env app deleteLock name changes now actor = .ok r') :
    r.Moves false r' := by
  obtain ⟨-, h⟩ := guard_eq_ok h
  obtain ⟨-, h⟩ := guard_eq_ok h
  obtain ⟨-, h⟩ := guard_eq_ok h
  dsimp only at h
  obtain ⟨-, h⟩ := guard_eq_ok h
  obtain ⟨-, h⟩ := guard_eq_ok h
  split at h
  · cases h
  next v hv =>
  split at h
  · cases h
  next r₁ hins =>
  obtain rfl := insertVersionSecrets_eq_ok hins
  cases h
  have hupdate : ∀ a b : List Secret,
      Function.update (Function.update r.versionSecrets (r.maxNumber + 1) a)
        (r.maxNumber + 1) b
        = Function.update r.versionSecrets (r.maxNumber + 1) b :=
    fun a b => Function.update_idem ..
  refine ⟨.added _ _ rfl (.inr (ne_nil_of_getVersion hv)) rfl (hupdate ..),
    fun hs => ?_, id⟩
  exact hs.add rfl rfl (hupdate ..) rfl rfl fun w hw =>
    .inr (.inr ⟨w, hw, rfl, rfl, rfl⟩)

theorem exec_spec {app : Option Int} {pin : List Binding → List Binding} {op : RecordOp}
    (h : r.exec env app pin name op = .ok r') :
    r.Moves op.isDeploy r' := by
  cases op with
  | deploy spec actor now storageID fingerprint deleteLock =>
    simp only [exec] at h
    split at h
    · cases h
    · exact deploy_spec h
  | promote n => exact promote_spec h
  | rollbackWithKey key => exact rollbackWithKey_spec h
  | putSecret key value now actor =>
    obtain ⟨-, h⟩ := guard_eq_ok h
    obtain ⟨-, h⟩ := guard_eq_ok h
    exact publishSecretChange_spec h
  | patchSecrets changes now actor =>
    obtain ⟨-, h⟩ := guard_eq_ok h
    obtain ⟨-, h⟩ := guard_eq_ok h
    obtain ⟨-, h⟩ := guard_eq_ok h
    split at h
    · exact publishSecretChange_spec h
    · cases h
      exact ⟨.same rfl rfl, id, id⟩
  | deleteSecret key now actor =>
    simp only [exec, deleteSecret] at h
    split at h
    · exact publishSecretChange_spec h
    · cases h
      exact ⟨.same rfl rfl, id, id⟩
  | stageSecretChanges changes now actor deleteLock => exact stageSecretChanges_spec h

end Operations

end Record

/-! ## The operations of the store -/

section Store

variable {env : Bool} {s s' : Db} {op : Op}

def Op.removes : Op → Bool
  | .deleteWorker .. | .deleteApp .. | .purgeWorkerRows .. | .purgeAppRows .. => true
  | _ => false

/-- The worker a deploy is for. -/
def Op.deploys : Op → Option WorkerId
  | .record id op => if op.isDeploy then some id else none
  | _ => none

theorem onDomains_records {d : Except Err Domains} (h : s.onDomains d = .ok s') :
    s'.records = s.records := by
  cases d with
  | error e => cases h
  | ok d => cases h; rfl

/-- The versions of a worker and their secrets, before and after an operation. -/
def Touched (op : Op) (id : WorkerId) (r r' : Record) : Prop :=
  (r'.versions = r.versions ∧ r'.versionSecrets = r.versionSecrets) ∨
    ∃ rop, op = .record id rop ∧ r.Extends rop.isDeploy r'

theorem touched_of_eq (h : s'.records = s.records) (id : WorkerId) :
    Touched op id (s.records id) (s'.records id) ∧
      (op.removes = false → (s.records id).Sound → (s'.records id).Sound) := by
  rw [h]
  exact ⟨.inl ⟨rfl, rfl⟩, fun _ hs => hs⟩

theorem exec_records (h : s.exec env op = .ok s') (id : WorkerId) :
    (Touched op id (s.records id) (s'.records id) ∧
      (op.removes = false → (s.records id).Sound → (s'.records id).Sound)) ∨
    (op.removes = true ∧ s'.records id = {}) := by
  cases op with
  | record id' op =>
    obtain ⟨-, h⟩ := Db.checked_eq_ok h
    unfold Db.execRecord at h
    split at h
    · cases h
    next r hr =>
    cases h
    refine .inl ?_
    dsimp only
    by_cases hid : id = id'
    · subst hid
      rw [Function.update_self]
      have hmoves := Record.exec_spec hr
      exact ⟨.inr ⟨op, rfl, hmoves.versions⟩, fun _ => hmoves.sound⟩
    · rw [Function.update_of_ne hid]
      exact ⟨.inl ⟨rfl, rfl⟩, fun _ hs => hs⟩
  | deleteWorker ns worker now =>
    obtain ⟨-, h⟩ := Db.checked_eq_ok h
    unfold Db.deleteWorker at h
    split at h
    · cases h
    cases h
    refine .inl ⟨.inl ?_, nofun⟩
    dsimp only
    by_cases hid : id = (ns, worker)
    · subst hid
      rw [Function.update_self]
      exact ⟨rfl, rfl⟩
    · rw [Function.update_of_ne hid]
      exact ⟨rfl, rfl⟩
  | deleteApp ns now =>
    obtain ⟨-, h⟩ := Db.checked_eq_ok h
    cases h
    refine .inl ⟨.inl ?_, nofun⟩
    dsimp only [Db.deleteApp]
    split <;> exact ⟨rfl, rfl⟩
  | purgeWorkerRows ns worker =>
    cases h
    unfold Db.purgeWorkerRows
    split
    · exact .inl ⟨.inl ⟨rfl, rfl⟩, nofun⟩
    split
    · exact .inl ⟨.inl ⟨rfl, rfl⟩, nofun⟩
    by_cases hid : id = (ns, worker)
    · subst hid
      exact .inr ⟨rfl, Function.update_self ..⟩
    · refine .inl ⟨.inl ?_, nofun⟩
      dsimp only
      rw [Function.update_of_ne hid]
      exact ⟨rfl, rfl⟩
  | purgeAppRows ns =>
    cases h
    unfold Db.purgeAppRows
    split
    · exact .inl ⟨.inl ⟨rfl, rfl⟩, nofun⟩
    split
    · exact .inl ⟨.inl ⟨rfl, rfl⟩, nofun⟩
    by_cases hid : id.1 = ns
    · exact .inr ⟨rfl, if_pos hid⟩
    · refine .inl ⟨.inl ?_, nofun⟩
      dsimp only
      rw [if_neg hid]
      exact ⟨rfl, rfl⟩
  | createApp ns =>
    obtain ⟨-, h⟩ := Db.checked_eq_ok h
    cases h
    exact .inl (touched_of_eq rfl id)
  | putCustomHost | deleteHost | ensureBuiltinHost | putRoute | deleteRoute =>
    exact .inl (touched_of_eq (onDomains_records (Db.checked_eq_ok h).2) id)

theorem step_records (env : Bool) (s : Db) (op : Op) (id : WorkerId) :
    (Touched op id (s.records id) ((s.step env op).records id) ∧
      (op.removes = false → (s.records id).Sound → ((s.step env op).records id).Sound)) ∨
    (op.removes = true ∧ (s.step env op).records id = {}) := by
  unfold Db.step
  cases hexec : s.exec env op with
  | error e => exact .inl (touched_of_eq rfl id)
  | ok s' => exact exec_records hexec id

end Store

/-! ## The secrets in use -/

section Secrets

/-- The secrets in use are those of the active version, for every worker that is not deleted. -/
def LiveSecrets (s : Db) : Prop :=
  ∀ id w, (s.records id).worker = some w → w.deletedMs = 0 → w.active ≠ 0 →
    (s.records id).secrets = (s.records id).versionSecrets w.active

/-- The versions of `s` are there with their secrets. -/
def KeepsVersions (s s' : Db) : Prop :=
  ∀ id, ∀ v ∈ (s.records id).versions, v ∈ (s'.records id).versions ∧
    (s'.records id).versionSecrets v.number = (s.records id).versionSecrets v.number

theorem Touched.keeps {op : Op} {id : WorkerId} {r r' : Record} (h : Touched op id r r')
    {v : Version}
    (hv : v ∈ r.versions) : v ∈ r'.versions ∧
      r'.versionSecrets v.number = r.versionSecrets v.number := by
  rcases h with ⟨hversions, hsecrets⟩ | ⟨rop, -, ⟨hversions, hsecrets⟩ |
    ⟨v', rows, hnumber, hfirst, hversions, hsecrets⟩⟩
  · rw [hversions, hsecrets]
    exact ⟨hv, rfl⟩
  · rw [hversions, hsecrets]
    exact ⟨hv, rfl⟩
  · have hle := Record.number_le_maxNumber hv
    rw [hversions, hsecrets, Function.update_of_ne (by omega)]
    exact ⟨List.mem_append_left _ hv, rfl⟩

/-- Deploys, promotions, rollbacks and changes of secrets: the secrets in use are those of the
active version, and a version that exists keeps its secrets. -/
theorem live_secrets (env : Bool) (ops : List Op) (hops : ∀ op ∈ ops, op.removes = false) :
    ∀ before op, before ++ [op] <+: ops →
      LiveSecrets (run env (before ++ [op])) ∧
        KeepsVersions (run env before) (run env (before ++ [op])) := by
  have hmem : ∀ before op, before ++ [op] <+: ops → op.removes = false := fun before op hinit =>
    hops op (hinit.subset (List.mem_append_right _ List.mem_cons_self))
  have hsound : ∀ before, before <+: ops → ∀ id, ((run env before).records id).Sound := by
    have hstep : ∀ (s : Db) (op : Op), (∀ id, (s.records id).Sound) → op.removes = false →
        ∀ id, ((s.step env op).records id).Sound := by
      intro s op hs hop id
      rcases step_records env s op id with ⟨-, hsound⟩ | ⟨hremoves, -⟩
      · exact hsound hop (hs id)
      · rw [hop] at hremoves
        cases hremoves
    exact Util.invariant_of_steps (fun _ => Record.Sound.empty) hstep hmem
  intro before op hinit
  refine ⟨fun id w hw hdeleted hactive => (hsound _ hinit id).live w hw hdeleted hactive,
    fun id v hv => ?_⟩
  rw [run_concat]
  rcases step_records env (run env before) op id with ⟨hext, -⟩ | ⟨hremoves, -⟩
  · exact hext.keeps hv
  · rw [hmem before op hinit] at hremoves
    cases hremoves

def secretOps : List Op :=
  [.record (['n'], ['a']) (deployOf "x"), .record (['n'], ['a']) (.putSecret ['k'] ⟨[1], [2]⟩ 3 []),
    .record (['n'], ['a']) (.promote 1), .record (['n'], ['a']) (.rollbackWithKey ['r'])]

theorem live_secrets_secretOps : (∀ op ∈ secretOps, op.removes = false) ∧
    ∀ before op, before ++ [op] <+: secretOps →
      LiveSecrets (run true (before ++ [op])) ∧
      KeepsVersions (run true before) (run true (before ++ [op])) := by
  have hops : ∀ op ∈ secretOps, op.removes = false := by decide
  exact ⟨hops, live_secrets true secretOps hops⟩

end Secrets

/-! ## The numbers of versions -/

section Numbers

/-- A version as it was committed, with its secrets. -/
abbrev Commit := WorkerId × Version × List Secret

/-- The store with the versions committed so far. -/
structure History where
  db : Db := {}
  commits : List Commit := []

def newCommits (s s' : Db) : Op → List Commit
  | .record id _ =>
    ((s'.records id).versions.drop (s.records id).versions.length).map fun v =>
      (id, v, (s'.records id).versionSecrets v.number)
  | _ => []

def History.step (env : Bool) (h : History) (op : Op) : History :=
  ⟨h.db.step env op, h.commits ++ newCommits h.db (h.db.step env op) op⟩

def history (env : Bool) (ops : List Op) : History := ops.foldl (History.step env) {}

/-- No number is allocated twice, and what is stored under a number is what was committed. -/
def Immutable (h : History) : Prop :=
  (h.commits.map fun c => (c.1, c.2.1.number)).Nodup ∧
  ∀ c ∈ h.commits, ∀ v ∈ (h.db.records c.1).versions, v.number = c.2.1.number →
    v = c.2.1 ∧ (h.db.records c.1).versionSecrets v.number = c.2.2

/-- A deploy of a worker that had versions before finds some of them. -/
def Unpurged (h : History) (op : Op) : Prop :=
  ∀ c ∈ h.commits, op.deploys = some c.1 → (h.db.records c.1).versions ≠ []

structure Ledger (h : History) : Prop where
  nodup : (h.commits.map fun c => (c.1, c.2.1.number)).Nodup
  stored : ∀ id, ∀ v ∈ (h.db.records id).versions,
    (id, v, (h.db.records id).versionSecrets v.number) ∈ h.commits
  bound : ∀ c ∈ h.commits, (h.db.records c.1).versions ≠ [] →
    c.2.1.number ≤ (h.db.records c.1).maxNumber

theorem Ledger.immutable {h : History} (hl : Ledger h) : Immutable h := by
  refine ⟨hl.nodup, fun c hc v hv hnumber => ?_⟩
  have heq := List.inj_on_of_nodup_map hl.nodup (hl.stored _ v hv) hc (by simp [hnumber])
  rw [← heq]
  exact ⟨rfl, rfl⟩

/-- What a step does to the versions of a worker. -/
inductive StepOn (env : Bool) (s : Db) (op : Op) (id : WorkerId) : Prop
  | same (hversions : ((s.step env op).records id).versions = (s.records id).versions)
    (hsecrets : ((s.step env op).records id).versionSecrets = (s.records id).versionSecrets)
  | purged (h : ((s.step env op).records id).versions = [])
  | added (rop : RecordOp) (v : Version) (rows : List Secret) (hop : op = .record id rop)
    (hnumber : v.number = (s.records id).maxNumber + 1)
    (hfirst : rop.isDeploy = true ∨ (s.records id).versions ≠ [])
    (hversions : ((s.step env op).records id).versions = (s.records id).versions ++ [v])
    (hsecrets : ((s.step env op).records id).versionSecrets =
      Function.update (s.records id).versionSecrets v.number rows)

theorem stepOn (env : Bool) (s : Db) (op : Op) (id : WorkerId) : StepOn env s op id := by
  rcases step_records env s op id with ⟨⟨hversions, hsecrets⟩ | ⟨rop, hop, hext⟩, -⟩ | ⟨-, hpurged⟩
  · exact .same hversions hsecrets
  · cases hext with
    | same hversions hsecrets => exact .same hversions hsecrets
    | added v rows hnumber hfirst hversions hsecrets =>
        exact .added rop v rows hop hnumber hfirst hversions hsecrets
  · exact .purged (by rw [hpurged])

variable {env : Bool} {h : History} {op : Op}

theorem newCommits_added {s s' : Db} {id : WorkerId} {v : Version} (rop : RecordOp)
    (hversions : (s'.records id).versions = (s.records id).versions ++ [v]) :
    newCommits s s' (.record id rop) = [(id, v, (s'.records id).versionSecrets v.number)] := by
  simp [newCommits, hversions]

theorem mem_newCommits {s : Db} {c : Commit} (hc : c ∈ newCommits s (s.step env op) op) :
    newCommits s (s.step env op) op = [c] ∧ c.2.1.number = (s.records c.1).maxNumber + 1 ∧
      ((s.step env op).records c.1).maxNumber = (s.records c.1).maxNumber + 1 ∧
      (op.deploys = some c.1 ∨ (s.records c.1).versions ≠ []) := by
  cases op with
  | record id rop =>
    cases stepOn env s (.record id rop) id with
    | same hversions hsecrets => simp [newCommits, hversions] at hc
    | purged hnil => simp [newCommits, hnil] at hc
    | added rop' v rows hop hnumber hfirst hversions hsecrets =>
      cases hop
      rw [newCommits_added _ hversions, List.mem_singleton] at hc
      subst hc
      refine ⟨newCommits_added _ hversions, hnumber, Record.maxNumber_concat hversions hnumber, ?_⟩
      exact hfirst.imp_left fun hdeploy => by simp [Op.deploys, hdeploy]
  | _ => cases hc

theorem Ledger.number_lt (hl : Ledger h) (hop : Unpurged h op) {c c' : Commit} (hc : c ∈ h.commits)
    (hc' : c' ∈ newCommits h.db (h.db.step env op) op) (hid : c.1 = c'.1) :
      c.2.1.number < c'.2.1.number := by
  obtain ⟨-, hnumber, -, hfirst⟩ := mem_newCommits hc'
  have hne : (h.db.records c.1).versions ≠ [] := by
    rcases hfirst with hdeploy | hne
    · exact hop c hc (hid ▸ hdeploy)
    · exact hid ▸ hne
  have hle := hl.bound c hc hne
  rw [hid] at hle
  omega

theorem Ledger.step (hl : Ledger h) (hop : Unpurged h op) : Ledger (h.step env op) := by
  constructor
  · change ((h.commits ++ newCommits h.db (h.db.step env op) op).map _).Nodup
    rw [List.map_append, List.nodup_append]
    refine ⟨hl.nodup, ?_, ?_⟩
    · rcases List.eq_nil_or_concat (newCommits h.db (h.db.step env op) op)
        with hnil | ⟨l, c, hconcat⟩
      · simp [hnil]
      · rw [(mem_newCommits (c := c) (by simp [hconcat])).1]
        simp
    · intro a ha b hb hab
      obtain ⟨c, hc, rfl⟩ := List.mem_map.mp ha
      obtain ⟨c', hc', rfl⟩ := List.mem_map.mp hb
      rw [Prod.mk.injEq] at hab
      have hlt := hl.number_lt hop hc hc' hab.1
      omega
  · intro id v hv
    change v ∈ ((h.db.step env op).records id).versions at hv
    change (id, v, ((h.db.step env op).records id).versionSecrets v.number) ∈ h.commits ++ _
    rw [List.mem_append]
    cases stepOn env h.db op id with
    | same hversions hsecrets =>
      rw [hversions] at hv
      rw [hsecrets]
      exact .inl (hl.stored id v hv)
    | purged hnil =>
      rw [hnil] at hv
      cases hv
    | added rop v' rows hrec hnumber hfirst hversions hsecrets =>
      subst hrec
      rw [hversions, List.mem_append, List.mem_singleton] at hv
      rcases hv with hv | rfl
      · have hle := Record.number_le_maxNumber hv
        rw [hsecrets, Function.update_of_ne (by omega)]
        exact .inl (hl.stored id v hv)
      · rw [newCommits_added _ hversions]
        exact .inr List.mem_cons_self
  · intro c hc hne
    change _ ≤ ((h.db.step env op).records c.1).maxNumber
    rcases List.mem_append.mp hc with hold | hnew
    · cases stepOn env h.db op c.1 with
      | same hversions hsecrets =>
        rw [Record.maxNumber, hversions]
        exact hl.bound c hold (hversions ▸ hne)
      | purged hnil => exact absurd hnil hne
      | added rop v' rows hrec hnumber hfirst hversions hsecrets =>
        subst hrec
        rw [Record.maxNumber_concat hversions hnumber, ← hnumber]
        have hnew : (c.1, v', ((h.db.step env
          (.record c.1 rop)).records c.1).versionSecrets v'.number) ∈
            newCommits h.db (h.db.step env (.record c.1 rop)) (.record c.1 rop) := by
          rw [newCommits_added _ hversions]
          exact List.mem_cons_self
        exact (hl.number_lt hop hold hnew rfl).le
    · obtain ⟨-, hnumber, hmax, -⟩ := mem_newCommits hnew
      omega

/-- In a run whose deploys find versions of a worker that had some, no number is allocated twice
and a stored version is the one committed under its number. -/
theorem versions_immutable (env : Bool) (ops : List Op)
    (hops : ∀ before op, before ++ [op] <+: ops → Unpurged (history env before) op) :
    ∀ before, before <+: ops → Immutable (history env before) := by
  have hstart : Ledger {} := ⟨List.nodup_nil, fun _ _ hv => absurd hv List.not_mem_nil, nofun⟩
  intro before hbefore
  exact (Util.invariant_of_steps hstart
    (fun _ _ hl hop => hl.step hop) hops before hbefore).immutable

def deployTwice : List Op :=
  [.record (['n'], ['a']) (deployOf "x"), .record (['n'], ['a']) (deployOf "y"),
    .deleteWorker ['n'] ['a'] 5]

theorem versions_immutable_deployTwice :
    (∀ before op, before ++ [op] <+: deployTwice → Unpurged (history true before) op) ∧
      ∀ before, before <+: deployTwice → Immutable (history true before) := by
  have hops : ∀ before op, before ++ [op] <+: deployTwice → Unpurged (history true before) op := by
    unfold Unpurged
    decide +kernel
  exact ⟨hops, versions_immutable true deployTwice hops⟩

/-- After a purge the next deploy has number 1 again, with another bundle. -/
theorem purge_restarts_numbers :
    ¬ Immutable (history true [.record (['n'], ['a']) (deployOf "x"), .deleteWorker ['n'] ['a'] 5,
      .purgeWorkerRows ['n'] ['a'], .record (['n'], ['a']) (deployOf "y")]) := by
  unfold Immutable
  decide +kernel

end Numbers

end CellHive.Control
