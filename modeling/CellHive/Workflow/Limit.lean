import CellHive.Workflow.Ops

/-!
# The concurrency limit

A claim counts the other live runs and refuses when there are as many as the limit. Every other
call only ends runs, with two exceptions: a renewal sets the lease of a run that may have expired
since, and `SetStatus` can set an instance with a lease to running. Neither counts.
-/

namespace CellHive.Workflow

open Go Sql Timer

def liveAt (now : Int) (i : Instance) : Bool :=
  decide (i.status = .running) && decide (now < i.leaseUntilMs)

theorem liveAt_iff {now : Int} {i : Instance} :
    liveAt now i = true ↔ i.status = .running ∧ now < i.leaseUntilMs := by
  simp [liveAt]

namespace Db

def live (db : Db) (now : Int) : Nat := (db.instances.rows.filter (liveAt now)).length

theorem live_antitone (db : Db) {now later : Int} (h : now ≤ later) :
    db.live later ≤ db.live now := by
  unfold live
  rw [← List.countP_eq_length_filter, ← List.countP_eq_length_filter]
  refine List.countP_mono_left fun i _ hi => ?_
  rw [liveAt_iff] at hi ⊢
  exact ⟨hi.1, by omega⟩

/-! ## Counting by id -/

variable {db db' : Db} {now : Int} {k : Str}

theorem nodup_ids (db : Db) (p : Instance → Bool) :
    ((db.instances.rows.filter p).map Instance.id).Nodup :=
  db.instances.unique.sublist ((List.filter_sublist).map _)

theorem mem_ids {p : Instance → Bool} {j : Str} :
    j ∈ (db.instances.rows.filter p).map Instance.id ↔
      ∃ i, db.instances.get j = some i ∧ p i = true := by
  rw [List.mem_map]
  constructor
  · rintro ⟨i, hi, rfl⟩
    obtain ⟨hmem, hp⟩ := List.mem_filter.mp hi
    exact ⟨i, Table.get_of_mem hmem, hp⟩
  · rintro ⟨i, hi, hp⟩
    obtain ⟨hmem, hid⟩ := Table.get_eq_some.mp hi
    exact ⟨i, List.mem_filter.mpr ⟨hmem, hp⟩, hid⟩

theorem live_le_live (h : ∀ j i', db'.instances.get j = some i' → liveAt now i' = true →
      ∃ i, db.instances.get j = some i ∧ liveAt now i = true) :
    db'.live now ≤ db.live now := by
  have hsub : (db'.instances.rows.filter (liveAt now)).map Instance.id ⊆
      (db.instances.rows.filter (liveAt now)).map Instance.id := by
    intro j hj
    obtain ⟨i', hi', hlive⟩ := mem_ids.mp hj
    exact mem_ids.mpr (h j i' hi' hlive)
  have hlen := ((db'.nodup_ids (liveAt now)).subperm hsub).length_le
  simpa [live] using hlen

theorem active_eq_length :
    db.active now k =
      ((db.instances.rows.filter fun i => liveAt now i && decide (i.id ≠ k)).map
        Instance.id).length := by
  rw [List.length_map]
  rfl

theorem live_le_active_succ (h : ∀ j i', db'.instances.get j = some i' → liveAt now i' = true →
      j ≠ k → ∃ i, db.instances.get j = some i ∧ liveAt now i = true) :
    db'.live now ≤ db.active now k + 1 := by
  have hsub : (db'.instances.rows.filter (liveAt now)).map Instance.id ⊆
      k :: (db.instances.rows.filter fun i => liveAt now i && decide (i.id ≠ k)).map
        Instance.id := by
    intro j hj
    obtain ⟨i', hi', hlive⟩ := mem_ids.mp hj
    by_cases hjk : j = k
    · exact hjk ▸ List.mem_cons_self
    · obtain ⟨i, hi, hl⟩ := h j i' hi' hlive hjk
      refine List.mem_cons_of_mem _ (mem_ids.mpr ⟨i, hi, ?_⟩)
      have hid : i.id ≠ k := by rwa [Table.get_key hi]
      simp [hl, hid]
  have hlen := ((db'.nodup_ids (liveAt now)).subperm hsub).length_le
  rw [active_eq_length]
  simpa [live] using hlen

theorem active_succ_le_live {i' : Instance} (hself : db'.instances.get k = some i')
    (hlive : liveAt now i' = true)
    (h : ∀ j, j ≠ k → db'.instances.get j = db.instances.get j) :
    db.active now k + 1 ≤ db'.live now := by
  have hsub : k :: (db.instances.rows.filter fun i => liveAt now i && decide (i.id ≠ k)).map
      Instance.id ⊆ (db'.instances.rows.filter (liveAt now)).map Instance.id := by
    intro j hj
    rcases List.mem_cons.mp hj with rfl | hj
    · exact mem_ids.mpr ⟨i', hself, hlive⟩
    · obtain ⟨i, hi, hl⟩ := mem_ids.mp hj
      rw [Bool.and_eq_true, decide_eq_true_eq, Table.get_key hi] at hl
      exact mem_ids.mpr ⟨i, by rw [h j hl.2, hi], hl.1⟩
  have hnodup : (k :: (db.instances.rows.filter fun i =>
      liveAt now i && decide (i.id ≠ k)).map Instance.id).Nodup := by
    rw [List.nodup_cons]
    refine ⟨?_, db.nodup_ids _⟩
    intro hk
    obtain ⟨i, hi, hl⟩ := mem_ids.mp hk
    rw [Bool.and_eq_true, decide_eq_true_eq, Table.get_key hi] at hl
    exact hl.2 rfl
  have hlen := (hnodup.subperm hsub).length_le
  rw [active_eq_length]
  simpa [live] using hlen

end Db

/-! ## One call -/

/-- The call does not revive a run beyond the limit: a renewal finds the lease unexpired, or
fewer other live runs than the limit, and so does a `SetStatus` to running. (A release sets the
lease to 0, which is past unless the clock is before 1970.) -/
def Db.Meets (db : Db) (limit : Nat) (now : Int) : Op → Prop
  | .renewRun id token ttlMs => ∀ i, db.instances.get id = some i → i.runToken = token →
      i.status = .running → now < i.leaseUntilMs ∨ db.active now id < limit ∨ ttlMs ≤ 0
  | .setStatus id .running _ run => ∀ i, db.instances.get id = some i →
      run = [] ∨ i.runToken = run →
      i.status = .running ∨ i.leaseUntilMs ≤ now ∨ db.active now id < limit
  | .releaseRun id token => ∀ i, db.instances.get id = some i →
      i.runToken = token ∨ token = [] →
      i.status = .running → now < i.leaseUntilMs ∨ db.active now id < limit ∨ 0 ≤ now
  | _ => True

section Call

variable {eventType : Bytes → Option Str} {db : Db} {now : Int} {op : Op} {limit : Nat}

def Op.LimitIs (limit : Nat) : Op → Prop
  | .claimRun _ _ l _ _ => l = limit
  | _ => True

instance (limit : Nat) : DecidablePred (Op.LimitIs limit)
  | .claimRun _ _ l _ _ => inferInstanceAs (Decidable (l = limit))
  | .renewRun .. | .releaseRun .. | .prune .. | .pruneRetention .. | .drop | .setAttempt ..
  | .clearAttempt .. | .setWait .. | .clearWait .. | .putStep .. | .consumeEvent .. | .create ..
  | .createBatch .. | .setStatus .. | .delete .. | .setOutput .. | .resume .. | .restart ..
  | .appendEvent .. | .parkSleep .. | .parkWait .. => isTrue trivial

theorem Change.of_live {i i' : Instance} (h : Change eventType db now op i i')
    (hk : db.instances.get i.id = some i) (hpos : 0 < limit) (hl : op.LimitIs limit)
    (hm : db.Meets limit now op) (hlive : liveAt now i' = true) :
    liveAt now i = true ∨ db.active now i.id < limit := by
  rw [liveAt_iff] at hlive
  obtain ⟨hrun, hlease⟩ := hlive
  cases h with
  | claimed hopen hexpired hlimit =>
    change _ = (limit : Int) at hl
    right
    omega
  | renewed =>
    dsimp only at hlease
    rcases hm i hk rfl hrun with h | h | h
    · exact .inl (liveAt_iff.mpr ⟨hrun, h⟩)
    · exact .inr h
    · omega
  | released htoken =>
    dsimp only at hlease
    rcases hm i hk htoken hrun with h | h | h
    · exact .inl (liveAt_iff.mpr ⟨hrun, h⟩)
    · exact .inr h
    · omega
  | status hfence =>
    subst hrun
    rcases hm i hk hfence with h | h | h
    · exact .inl (liveAt_iff.mpr ⟨h, hlease⟩)
    · exact absurd hlease (not_lt.mpr h)
    · exact .inr h
  | output | resumed | restarted | woken | slept => cases hrun
  | waited =>
    split at hrun <;> cases hrun

theorem Created.not_live {i : Instance} (h : Created now i) (t : Int) : liveAt t i = false := by
  obtain ⟨id, params, target, rfl⟩ := h
  rfl

theorem Db.live_commit_le (hpos : 0 < limit) (hl : op.LimitIs limit) (hm : db.Meets limit now op)
    (h : db.live now ≤ limit) : (db.commit eventType now op).live now ≤ limit := by
  -- The call started a run, on the row it is about, or it did not.
  by_cases hnew : ∃ i i', db.instances.get i.id = some i ∧ Change eventType db now op i i' ∧
      liveAt now i' = true ∧ liveAt now i = false
  · obtain ⟨i, i', hi, hchange, hlive, hdead⟩ := hnew
    have hroom : db.active now i.id < limit := by
      rcases hchange.of_live hi hpos hl hm hlive with h | h
      · rw [hdead] at h
        cases h
      · exact h
    have hcount : (db.commit eventType now op).live now ≤ db.active now i.id + 1 := by
      apply Db.live_le_active_succ
      intro j j' hj hjlive hjk
      rcases Db.outcome_commit hj with hsame | ⟨-, -, hcreated⟩ | ⟨x, hx, hxchange⟩
      · exact ⟨j', hsame, hjlive⟩
      · rw [hcreated.not_live] at hjlive
        cases hjlive
      · have hsubject : some x.id = some i.id := hxchange.subject.symm.trans hchange.subject
        rw [Table.get_key hx, Option.some.injEq] at hsubject
        exact absurd hsubject hjk
    omega
  · refine le_trans (Db.live_le_live ?_) h
    intro j j' hj hjlive
    rcases Db.outcome_commit hj with hsame | ⟨-, -, hcreated⟩ | ⟨x, hx, hxchange⟩
    · exact ⟨j', hsame, hjlive⟩
    · rw [hcreated.not_live] at hjlive
      cases hjlive
    · refine ⟨x, hx, ?_⟩
      by_contra hdead
      rw [Bool.not_eq_true] at hdead
      have hself : db.instances.get x.id = some x := by rwa [Table.get_key hx]
      exact hnew ⟨x, j', hself, hxchange, hjlive, hdead⟩

/-! ## A call that does not meet the condition -/

theorem Db.active_lt_of_setInstance {id : Str} {i : Instance} {p : Instance → Bool}
    {f : Instance → Instance} {hf : ∀ i, (f i).id = i.id}
    (h : (db.setInstance id p f hf).live now ≤ limit) (hi : db.instances.get id = some i)
    (hp : p i = true) (hlive : liveAt now (f i) = true) : db.active now id < limit := by
  refine lt_of_lt_of_le (Db.active_succ_le_live ?_ hlive fun j hj => ?_) h
  · rw [Db.get_setInstance, hi]
    simp [hp]
  · rw [Db.get_setInstance]
    cases db.instances.get j with
    | none => rfl
    | some x => simp [hj]

theorem Db.meets_of_live_commit_le (h : (db.commit eventType now op).live now ≤ limit) :
    db.Meets limit now op := by
  cases op with
  | renewRun id token ttlMs =>
    intro i hi htoken hrun
    simp only [Db.commit, Db.exec, Db.renewRun, hi, htoken, if_true] at h
    by_contra hroom
    have hlive : liveAt now { i with leaseUntilMs := now + ttlMs } = true := by
      rw [liveAt_iff]
      exact ⟨hrun, by dsimp only; omega⟩
    have hlt := Db.active_lt_of_setInstance h hi (by simpa using htoken) hlive
    omega
  | releaseRun id token =>
    intro i hi htoken hrun
    by_contra hroom
    push Not at hroom
    have hlive : liveAt now { i with leaseUntilMs := 0, runToken := [] } = true := by
      rw [liveAt_iff]
      exact ⟨hrun, hroom.2.2⟩
    have hlt := Db.active_lt_of_setInstance h hi (by simpa using htoken) hlive
    omega
  | setStatus id status errText run =>
    cases status with
    | running =>
      intro i hi hfence
      have hcheck : db.checkRunTx id run = .ok () := by
        rw [Db.checkRunTx_eq_ok, hi, Option.map_some, Option.some.injEq]
        exact hfence
      simp only [Db.commit, Db.exec, Db.setStatus, Db.execRunCell, hcheck, Except.map] at h
      by_contra hroom
      push Not at hroom
      have hlive : liveAt now (Db.withStatus now .running errText i) = true := by
        rw [liveAt_iff]
        exact ⟨rfl, hroom.2.1⟩
      have hlt := Db.active_lt_of_setInstance h hi rfl hlive
      omega
    | _ => trivial
  | _ => trivial

end Call

/-! ## Runs -/

section Run

variable (eventType : Bytes → Option Str) (scope : Str) (limit : Nat)

/-- With one limit for every claim and a clock that does not go back, the limit holds after
every call, from then on, exactly when every call meets the condition. -/
theorem limit_holds_iff (calls : List Call) (hpos : 0 < limit)
    (hlimit : ∀ c ∈ calls, c.op.LimitIs limit)
    (hclock : calls.Pairwise fun c c' => c.now ≤ c'.now) :
    (∀ before c, before ++ [c] <+: calls → ∀ now, c.now ≤ now →
        ((Db.new scope).run eventType (before ++ [c])).live now ≤ limit) ↔
      ∀ before c, before ++ [c] <+: calls →
        ((Db.new scope).run eventType before).Meets limit c.now c.op := by
  constructor
  · intro h before c hc
    have hle := h before c hc c.now le_rfl
    rw [Db.run_concat] at hle
    exact Db.meets_of_live_commit_le hle
  · intro hmeets before c
    induction before using List.reverseRecOn generalizing c with
    | nil =>
      intro hc now hnow
      have hmem : c ∈ calls := hc.subset (by simp)
      refine le_trans (Db.live_antitone _ hnow) ?_
      exact Db.live_commit_le hpos (hlimit c hmem) (hmeets [] c hc) (Nat.zero_le limit)
    | append_singleton before last ih =>
      intro hc now hnow
      have hmem : c ∈ calls := hc.subset (by simp)
      have hlast : last.now ≤ c.now := by
        have hpair := hclock.sublist hc.sublist
        rw [List.append_assoc, List.pairwise_append] at hpair
        exact List.rel_of_pairwise_cons hpair.2.1 (by simp)
      have hbound := ih last ((List.prefix_append _ _).trans hc) c.now hlast
      rw [Db.run_concat]
      refine le_trans (Db.live_antitone _ hnow) ?_
      exact Db.live_commit_le hpos (hlimit c hmem) (hmeets _ c hc) hbound

end Run

/-- One instance after the other runs under a limit of one. -/
def takingTurns : List Call :=
  [⟨0, .create ['a'] [] {} []⟩, ⟨0, .create ['b'] [] {} []⟩,
    ⟨1, .claimRun ['a'] 10 1 ['t'] ['x']⟩, ⟨5, .renewRun ['a'] ['t'] 10⟩,
    ⟨6, .setOutput ['a'] [] ['t']⟩, ⟨7, .claimRun ['b'] 10 1 ['u'] ['y']⟩]

theorem limit_holds_iff_takingTurns :
    (∀ c ∈ takingTurns, c.op.LimitIs 1) ∧
      ((∀ before c, before ++ [c] <+: takingTurns → ∀ now, c.now ≤ now →
          ((Db.new []).run (fun _ => none) (before ++ [c])).live now ≤ 1) ↔
        ∀ before c, before ++ [c] <+: takingTurns →
          ((Db.new []).run (fun _ => none) before).Meets 1 c.now c.op) :=
  ⟨by decide, limit_holds_iff (fun _ => none) [] 1 takingTurns (by decide) (by decide) (by decide)⟩

/-- The lease of the first run expires, the second starts, and the first is renewed. -/
def renewedLate : List Call :=
  [⟨0, .create ['a'] [] {} []⟩, ⟨0, .create ['b'] [] {} []⟩,
    ⟨1, .claimRun ['a'] 10 1 ['t'] ['x']⟩, ⟨11, .claimRun ['b'] 10 1 ['u'] ['y']⟩,
    ⟨12, .renewRun ['a'] ['t'] 10⟩]

theorem renewal_exceeds_limit :
    (∀ c ∈ renewedLate, c.op.LimitIs 1) ∧ renewedLate.Pairwise (fun c c' => c.now ≤ c'.now) ∧
      ((Db.new []).run (fun _ => none) renewedLate).live 12 = 2 := by
  decide +kernel

end CellHive.Workflow
