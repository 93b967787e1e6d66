import CellHive.Workflow.Wakes

/-!
# No wake is lost

The invariant behind `Awake`: the timer that will bring an instance back is pending, and the
runner has not taken it. For a parked instance it is the timer of the park, since the runner
skips the requested runs of an instance that sleeps.
-/

namespace CellHive.Workflow

open Go Sql Timer

namespace System

variable {eventType : Bytes → Option Str} {s : System} {id : Str} {now : Int} {op : Op}

structure Holds (s : System) (id : Str) (t : Int) (token : Token) : Prop where
  wakes : token.occurrence.wakes id = true
  due : token.dueAtMs ≤ t
  pending : (s.db.timers.timers.get token).isSome
  untaken : token ∉ s.taken

def Covered (s : System) (id : Str) : Status → Prop
  | .queued | .running => ∃ t, s.next id = some t ∧ ∃ token, s.Holds id t token
  | .sleeping =>
    ∀ t, s.next id = some t → ∃ token, s.Holds id t token ∧ token.kind ≠ .workflowRun
  | _ => True

def Canonical (s : System) : Prop :=
  ∀ timer ∈ s.db.timers.timers.rows, timer =
    newTimer s.db.scope timer.token.dueAtMs timer.token.kind timer.token.occurrence

structure Inv (s : System) : Prop where
  canonical : s.Canonical
  covered : ∀ id i, s.db.instances.get id = some i → s.Covered id i.status

variable {t : Int} {token : Token} {status : Status}

theorem Holds.wakesBy (h : s.Holds id t token) (hc : s.Canonical) : s.WakesBy id t := by
  obtain ⟨timer, htimer⟩ := Option.isSome_iff_exists.mp h.pending
  obtain ⟨hmem, rfl⟩ := Table.get_eq_some.mp htimer
  have heq := hc timer hmem
  refine ⟨timer, hmem, ?_, ?_⟩
  · rw [heq]
    exact h.wakes
  · rw [heq]
    exact h.due

theorem Inv.awake (h : s.Inv) : s.Awake where
  ready id i hi hstatus := by
    have hcovered := h.covered id i hi
    have hready : ∃ t, s.next id = some t ∧ ∃ token, s.Holds id t token := by
      rcases hstatus with hs | hs
      · rwa [hs] at hcovered
      · rwa [hs] at hcovered
    obtain ⟨t, ht, token, htoken⟩ := hready
    exact ⟨t, ht, htoken.wakesBy h.canonical⟩
  asleep id i hi hstatus t ht := by
    have hcovered := h.covered id i hi
    rw [hstatus] at hcovered
    obtain ⟨token, htoken, -⟩ := hcovered t ht
    exact htoken.wakesBy h.canonical

theorem Covered.mono {s' : System} (h : s.Covered id status) (hnext : s'.next id = s.next id)
    (hholds : ∀ t token, s.Holds id t token →
      status ≠ .sleeping ∨ token.kind ≠ .workflowRun → s'.Holds id t token) :
    s'.Covered id status := by
  cases status with
  | queued | running =>
    obtain ⟨t, ht, token, htoken⟩ := h
    exact ⟨t, hnext.trans ht, token, hholds t token htoken (.inl nofun)⟩
  | sleeping =>
    intro t ht
    obtain ⟨token, htoken, hkind⟩ := h t (hnext.symm.trans ht)
    exact ⟨token, hholds t token htoken (.inr hkind), hkind⟩
  | _ => trivial

/-! ## Calls -/

theorem Holds.call (h : s.Holds id t token) : (s.call eventType now op).Holds id t token where
  wakes := h.wakes
  due := h.due
  pending := by
    change ((s.db.commit eventType now op).timers.timers.get token).isSome
    rw [(Db.commit_frame op).1]
    exact Tables.isSome_insertAll _ h.pending
  untaken := h.untaken

theorem Holds.started {timer : Timer Token Occurrence}
    (hmem : timer ∈ s.db.started eventType now op) (hspent : ¬ s.Spent timer.token)
    (hwakes : timer.token.occurrence.wakes id = true) (hdue : timer.token.dueAtMs ≤ t) :
    (s.call eventType now op).Holds id t timer.token where
  wakes := hwakes
  due := hdue
  pending := by
    change ((s.db.commit eventType now op).timers.timers.get timer.token).isSome
    rw [(Db.commit_frame op).1]
    apply Tables.isSome_insertAll_of_mem hmem
    rw [Spent, not_or, Option.not_isSome_iff_eq_none] at hspent
    exact hspent.1
  untaken := fun h => hspent (.inr h)

theorem mem_known_of_spent (h : s.Spent token) : token ∈ s.known := by
  rcases h with h | h
  · obtain ⟨f, hf⟩ := Option.isSome_iff_exists.mp h
    obtain ⟨hmem, rfl⟩ := Table.get_eq_some.mp hf
    exact List.mem_append_right _ (List.mem_map_of_mem hmem)
  · exact List.mem_append_left _ (List.mem_append_right _ h)

theorem not_spent_run {request : Str} {due : Int} {k : Str}
    (hfresh : s.Fresh (.call now op)) (hmem : request ∈ op.requests) :
    ¬ s.Spent (s.db.runTimer k due request).token := by
  intro hspent
  exact hfresh _ (mem_known_of_spent hspent) request hmem rfl

theorem wakes_runTimer (id : Str) (due : Int) (request : Str) :
    (s.db.runTimer id due request).token.occurrence.wakes id = true := by
  simp [Db.runTimer, newTimer, Occurrence.wakes]

theorem covered_of_run (due : Int) (request : Str) (hstatus : status = .queued ∨ status = .running)
    (hnext : s.db.nextExamined eventType now id (s.next id) op = some due)
    (hmem : s.db.runTimer id due request ∈ s.db.started eventType now op)
    (hfresh : s.Fresh (.call now op)) (hrequest : request ∈ op.requests) :
    (s.call eventType now op).Covered id status := by
  have hholds : (s.call eventType now op).Holds id due (s.db.runTimer id due request).token :=
    Holds.started hmem (not_spent_run hfresh hrequest) (wakes_runTimer id due request) le_rfl
  rcases hstatus with rfl | rfl
  · exact ⟨due, hnext, _, hholds⟩
  · exact ⟨due, hnext, _, hholds⟩

theorem covered_of_sleep {due : Int}
    (hnext : s.db.nextExamined eventType now id (s.next id) op = some due)
    (hmem : s.db.sleepTimer id due ∈ s.db.started eventType now op)
    (hspent : ¬ s.Spent (sleepToken id due)) : (s.call eventType now op).Covered id .sleeping := by
  intro t ht
  obtain rfl : due = t := Option.some.inj (hnext.symm.trans ht)
  have hwakes : (s.db.sleepTimer id due).token.occurrence.wakes id = true := by
    simp [Db.sleepTimer, newTimer, Occurrence.wakes]
  exact ⟨_, Holds.started hmem hspent hwakes le_rfl, nofun⟩

theorem covered_of_unexamined
    (hnext : s.db.nextExamined eventType now id (s.next id) op = none) :
    (s.call eventType now op).Covered id .sleeping :=
  fun _ ht => nomatch hnext.symm.trans ht

theorem Covered.call (h : s.Covered id status)
    (hnext : s.db.nextExamined eventType now id (s.next id) op = s.next id) :
    (s.call eventType now op).Covered id status :=
  h.mono hnext fun _ _ htoken _ => htoken.call

theorem mem_started {timer : Timer Token Occurrence}
    (h : timer ∈ s.db.started eventType now op) :
    timer = newTimer s.db.scope timer.token.dueAtMs timer.token.kind timer.token.occurrence := by
  cases op with
  | claimRun id ttlMs limit token request | parkSleep id run due =>
    rw [Db.started] at h
    split at h
    · rw [List.mem_singleton.mp h]
      rfl
    · cases h
  | create id params target request =>
    rw [Db.started] at h
    split at h
    · cases h
    · rw [List.mem_singleton.mp h]
      rfl
  | createBatch items target =>
    obtain ⟨item, -, rfl⟩ := List.mem_map.mp h
    rfl
  | resume id request | restart id request | appendEvent id payload request =>
    rw [List.mem_singleton.mp h]
    rfl
  | parkWait id step run evType deadline request =>
    rw [Db.started] at h
    split at h
    · rcases List.mem_append.mp h with h | h
      all_goals
        split at h
        · rw [List.mem_singleton.mp h]
          rfl
        · cases h
    · cases h
  | _ => cases h

theorem Canonical.call (h : s.Canonical) : (s.call eventType now op).Canonical := by
  intro timer htimer
  change timer = newTimer (s.db.commit eventType now op).scope _ _ _
  rw [(Db.commit_frame op).2]
  change timer ∈ (s.db.commit eventType now op).timers.timers.rows at htimer
  rw [(Db.commit_frame op).1] at htimer
  rcases Tables.mem_insertAll htimer with hold | hnew
  · exact h timer hold
  · exact mem_started hnew

/-- The call creates or rewrites the row of `id`. -/
def About (id : Str) (op : Op) : Prop := op.subject = some id ∨ op.creates id

theorem nextExamined_of_not_about {old : Option Int} (h : ¬ About id op) :
    s.db.nextExamined eventType now id old op = old := by
  rw [About, not_or] at h
  obtain ⟨hsubject, hcreates⟩ := h
  cases op <;> simp_all [Op.subject, Op.creates, Db.nextExamined]

theorem get_of_not_about {i : Instance} (h : ¬ About id op)
    (hget : (s.db.commit eventType now op).instances.get id = some i) :
    s.db.instances.get id = some i := by
  rcases Db.outcome_commit hget with hsame | ⟨-, hcreates, -⟩ | ⟨x, hx, hchange⟩
  · exact hsame
  · exact absurd (.inr hcreates) h
  · refine absurd (.inl ?_) h
    rw [hchange.subject, Table.get_key hx]

theorem get_setInstance_all {db : Db} {f : Instance → Instance} {hf : ∀ i, (f i).id = i.id}
    {i' : Instance}
    (h : (db.setInstance id (fun _ => true) f hf).instances.get id = some i') :
    ∃ i, db.instances.get id = some i ∧ i' = f i := by
  rw [Db.get_setInstance] at h
  obtain ⟨i, hi, rfl⟩ := Option.map_eq_some_iff.mp h
  exact ⟨i, hi, by simp⟩

section About

variable {i' : Instance} {request : Str} (hinv : s.Inv) (hfresh : s.Fresh (.call now op))
  (hget : (s.db.commit eventType now op).instances.get id = some i')
include hinv hfresh hget

theorem covered_claimRun {ttlMs limit : Int} {token : Str}
    (hop : op = .claimRun id ttlMs limit token request) :
    (s.call eventType now op).Covered id i'.status := by
  subst hop
  rcases Db.claimRun_cases eventType s.db now id ttlMs limit token request with
    ⟨hok, heq⟩ | ⟨hok, heq⟩
  · rw [heq] at hget
    exact (hinv.covered id i' hget).call (by simp [Db.nextExamined, hok])
  rw [heq, Db.instances_queueTx] at hget
  obtain ⟨i, -, rfl⟩ := get_setInstance_all hget
  exact covered_of_run (now + ttlMs) request (.inr rfl) (by simp [Db.nextExamined, hok])
    (by simp [Db.started, hok]) hfresh (List.mem_singleton.mpr rfl)

theorem covered_create {params : Bytes} {target : Target}
    (hop : op = .create id params target request) :
    (s.call eventType now op).Covered id i'.status := by
  subst hop
  rcases Db.outcome_commit hget with hsame | ⟨hnone, -, hcreated⟩ | ⟨x, -, hchange⟩
  · exact (hinv.covered id i' hsame).call (by simp [Db.nextExamined, hsame])
  · obtain ⟨k, p, t, rfl⟩ := hcreated
    exact covered_of_run now request (.inl rfl) (by simp [Db.nextExamined, hnone])
      (by simp [Db.started, hnone]) hfresh (List.mem_singleton.mpr rfl)
  · cases hchange

theorem covered_createBatch {items : List Db.BatchItem} {target : Target}
    (hop : op = .createBatch items target) :
    (s.call eventType now op).Covered id i'.status := by
  subst hop
  rcases Db.outcome_commit hget with hsame | ⟨hnone, ⟨item, hitem, rfl⟩, hcreated⟩ | ⟨x, -, hchange⟩
  · exact (hinv.covered id i' hsame).call (by simp [Db.nextExamined, hsame])
  · obtain ⟨k, p, t, rfl⟩ := hcreated
    have hnext : s.db.nextExamined eventType now item.id (s.next item.id) (.createBatch items target) =
        some now := by
      rw [Db.nextExamined, if_pos ⟨⟨item, hitem, rfl⟩, by rw [hnone]; rfl⟩]
    exact covered_of_run now item.request (.inl rfl) hnext (List.mem_map.mpr ⟨item, hitem, rfl⟩) hfresh
      (List.mem_map.mpr ⟨item, hitem, rfl⟩)
  · cases hchange

theorem covered_appendEvent {payload : Bytes} (hop : op = .appendEvent id payload request) :
    (s.call eventType now op).Covered id i'.status := by
  subst hop
  rw [Db.commit, Db.exec, Db.appendEvent] at hget
  rw [Db.instances_queueTx, Db.get_setInstance] at hget
  obtain ⟨i, hi, rfl⟩ := Option.map_eq_some_iff.mp hget
  by_cases hs : i.status = .sleeping
  · rw [if_pos ⟨rfl, by simpa using hs⟩]
    exact covered_of_run now request (.inl rfl) (by simp [Db.nextExamined, hi, hs])
      (List.mem_singleton.mpr rfl) hfresh (List.mem_singleton.mpr rfl)
  · rw [if_neg (by simpa using hs)]
    exact (hinv.covered id i hi).call (by simp [Db.nextExamined, hi, hs])

omit hfresh in
theorem covered_parkSleep {run : Str} {due : Int} (hop : op = .parkSleep id run due)
    (hmeets : s.Meets eventType (.call now op)) :
    (s.call eventType now op).Covered id i'.status := by
  subst hop
  cases hparks : s.db.parks id run with
  | true =>
    have hcommit : s.db.parkSleep now id run due = .ok _ :=
      Db.parkSleep_eq_ok.mpr ⟨Db.parkCheck_of_parks hparks, rfl⟩
    rw [Db.commit, Db.exec, hcommit] at hget
    obtain ⟨i, -, rfl⟩ := get_setInstance_all hget
    exact covered_of_sleep (by simp [Db.nextExamined, hparks]) (by simp [Db.started, hparks])
      (hmeets hparks)
  | false =>
    obtain ⟨e, he⟩ := Db.parkCheck_of_not_parks hparks
    rw [Db.commit, Db.exec, Db.parkSleep, he] at hget
    exact (hinv.covered id i' hget).call (by simp [Db.nextExamined, hparks])

theorem covered_parkWait {step run evType : Str} {deadline : Int}
    (hop : op = .parkWait id step run evType deadline request)
    (hmeets : s.Meets eventType (.call now op)) :
    (s.call eventType now op).Covered id i'.status := by
  subst hop
  cases hparks : s.db.parks id run with
  | true =>
    have hcommit : s.db.parkWait eventType now id step run evType deadline request = .ok _ :=
      Db.parkWait_eq_ok.mpr ⟨Db.parkCheck_of_parks hparks, rfl⟩
    rw [Db.commit, Db.exec, hcommit] at hget
    obtain ⟨i, -, rfl⟩ := get_setInstance_all hget
    by_cases hpending : s.db.pendingEvents eventType id evType = []
    · rw [if_neg (not_not.mpr hpending)]
      by_cases hdeadline : 0 < s.db.waitDeadline id step deadline
      · exact covered_of_sleep (by simp [Db.nextExamined, hparks, hpending, hdeadline])
          (by simp [Db.started, hparks, hdeadline]) (hmeets hparks hpending hdeadline)
      · exact covered_of_unexamined (by simp [Db.nextExamined, hparks, hpending, hdeadline])
    · rw [if_pos hpending]
      exact covered_of_run now request (.inl rfl) (by simp [Db.nextExamined, hparks, hpending])
        (by simp [Db.started, hparks, hpending]) hfresh (List.mem_singleton.mpr rfl)
  | false =>
    obtain ⟨e, he⟩ := Db.parkCheck_of_not_parks hparks
    rw [Db.commit, Db.exec, Db.parkWait, he] at hget
    exact (hinv.covered id i' hget).call (by simp [Db.nextExamined, hparks])

omit hfresh in
theorem covered_setStatus {errText run : Str}
    (hop : op = .setStatus id status errText run) (hmeets : s.Meets eventType (.call now op)) :
    (s.call eventType now op).Covered id i'.status := by
  subst hop
  cases hcheck : s.db.checkRunTx id run with
  | ok u =>
    rw [Db.commit, Db.exec, Db.setStatus, Db.execRunCell, hcheck] at hget
    obtain ⟨i, -, rfl⟩ := get_setInstance_all hget
    cases status with
    | queued => exact absurd rfl hmeets.1
    | running => exact absurd rfl hmeets.2
    | sleeping =>
      exact covered_of_unexamined (by simp [Db.nextExamined, hcheck, Except.toBool])
    | _ => trivial
  | error e =>
    rw [Db.commit, Db.exec, Db.setStatus, Db.execRunCell, hcheck] at hget
    exact (hinv.covered id i' hget).call (by simp [Db.nextExamined, hcheck, Except.toBool])

omit hfresh in
theorem covered_of_status (hcreates : ¬ op.creates id)
    (hstatus : ∀ {i j}, Change eventType s.db now op i j → i.status = j.status)
    (hnext : s.db.nextExamined eventType now id (s.next id) op = s.next id) :
    (s.call eventType now op).Covered id i'.status := by
  rcases Db.outcome_commit hget with hsame | ⟨-, hnew, -⟩ | ⟨i, hi, hchange⟩
  · exact (hinv.covered id i' hsame).call hnext
  · exact absurd hnew hcreates
  · exact hstatus hchange ▸ (hinv.covered id i hi).call hnext

end About

theorem Inv.call (hinv : s.Inv) (hfresh : s.Fresh (.call now op))
    (hmeets : s.Meets eventType (.call now op)) : (s.call eventType now op).Inv where
  canonical := hinv.canonical.call
  covered id i' hget := by
    change (s.db.commit eventType now op).instances.get id = some i' at hget
    by_cases habout : About id op
    · rcases habout with hsubject | hcreates
      · cases op with
        | claimRun k ttlMs limit token request =>
          cases hsubject
          exact covered_claimRun hinv hfresh hget rfl
        | renewRun k token ttlMs | releaseRun k token =>
          exact covered_of_status hinv hget not_false (fun h => by cases h; rfl) rfl
        | setStatus k status errText run =>
          cases hsubject
          exact covered_setStatus hinv hget rfl hmeets
        | setOutput k output run =>
          rcases Db.outcome_commit hget with hsame | ⟨-, hcreates, -⟩ | ⟨i, hi, hchange⟩
          · exact (hinv.covered id i' hsame).call rfl
          · exact hcreates.elim
          · cases hchange
            trivial
        | resume k request | restart k request =>
          cases hsubject
          simp only [Db.commit, Db.exec, Db.resume, Db.restart, Db.instances_queueTx] at hget
          obtain ⟨i, -, rfl⟩ := get_setInstance_all hget
          exact covered_of_run now request (.inl rfl) (by simp [Db.nextExamined])
            (List.mem_singleton.mpr rfl) hfresh (List.mem_singleton.mpr rfl)
        | appendEvent k payload request =>
          cases hsubject
          exact covered_appendEvent hinv hfresh hget rfl
        | parkSleep k run due =>
          cases hsubject
          exact covered_parkSleep hinv hget rfl hmeets
        | parkWait k step run evType deadline request =>
          cases hsubject
          exact covered_parkWait hinv hfresh hget rfl hmeets
        | _ => cases hsubject
      · cases op with
        | create k params target request =>
          cases hcreates
          exact covered_create hinv hfresh hget rfl
        | createBatch items target => exact covered_createBatch hinv hfresh hget rfl
        | _ => cases hcreates
    · have hold := get_of_not_about habout hget
      exact (hinv.covered id i' hold).call (nextExamined_of_not_about habout)

/-! ## The runner -/

theorem Inv.frame {s' : System} (h : s.Inv) (hinstances : s'.db.instances = s.db.instances)
    (hnext : s'.next = s.next) (hcanonical : s'.Canonical)
    (hholds : ∀ id t token, s.Holds id t token → s'.Holds id t token) : s'.Inv where
  canonical := hcanonical
  covered id i hi := by
    rw [hinstances] at hi
    exact (h.covered id i hi).mono (by rw [hnext]) fun t token htoken _ => hholds id t token htoken

theorem wakes_dispatches {o : Occurrence} {j : Str} (hj : o.wakes j = true)
    (hid : o.dispatches id = true) : j = id := by
  cases o with
  | sleep | run => simp_all [Occurrence.wakes, Occurrence.dispatches]
  | schedule slot => simp [Occurrence.wakes] at hj

theorem Holds.take {other : Token} (h : s.Holds id t other) (hne : other ≠ token) :
    (s.take token).Holds id t other :=
  ⟨h.wakes, h.due, h.pending, by simp [System.take, hne, h.untaken]⟩

theorem Inv.skip (h : s.Inv) (hid : token.occurrence.dispatches id = true)
    (hskip : s.db.skipWake id token.kind = true) : (s.take token).Inv where
  canonical := h.canonical
  covered j i hi := by
    by_cases hterminal : j = id ∧ i.status.terminal = true
    · cases hs : i.status with
      | complete | errored | terminated => trivial
      | _ => simp [hs, Status.terminal] at hterminal
    · refine (h.covered j i hi).mono rfl fun t other hother hkind => hother.take ?_
      rintro rfl
      obtain rfl := wakes_dispatches hother.wakes hid
      have hi : s.db.instances.get j = some i := hi
      simp only [true_and, Bool.not_eq_true] at hterminal
      simp only [Db.skipWake, hi, hterminal, Bool.false_or, Bool.and_eq_true,
        decide_eq_true_eq] at hskip
      rcases hkind with hk | hk
      · exact hk hskip.2
      · exact hk hskip.1

theorem Inv.claim {ttlMs limit : Int} {run request : Str} (h : s.Inv) (hpicked : token ∈ s.picked)
    (hid : token.occurrence.dispatches id = true)
    (hok : s.db.claimOk now id ttlMs limit run request = true)
    (hfresh : s.Fresh (.claim token id now ttlMs limit run request)) :
    ((s.call eventType now (.claimRun id ttlMs limit run request)).take token).Inv := by
  have hcall : s.Fresh (.call now (.claimRun id ttlMs limit run request)) := hfresh
  have hinv : (s.call eventType now (.claimRun id ttlMs limit run request)).Inv :=
    h.call hcall trivial
  refine ⟨hinv.canonical, fun j i hi => ?_⟩
  by_cases hj : j = id
  · -- the claimed instance waits for the timer of its lease, which is new
    subst hj
    have hmem : s.db.runTimer j (now + ttlMs) request ∈
        s.db.started eventType now (.claimRun j ttlMs limit run request) := by
      rw [Db.started, if_pos hok]
      exact List.mem_singleton.mpr rfl
    have hholds := Holds.started hmem (not_spent_run hcall (List.mem_singleton.mpr rfl))
      (wakes_runTimer j (now + ttlMs) request) le_rfl
    have hnew : (s.db.runTimer j (now + ttlMs) request).token ≠ token := by
      rintro rfl
      have hknown : (s.db.runTimer j (now + ttlMs) request).token ∈ s.known :=
        List.mem_append_left _ (List.mem_append_left _ hpicked)
      exact hfresh _ hknown request (List.mem_singleton.mpr rfl) rfl
    have hstatus : i.status = .running := by
      rcases Db.claimRun_cases eventType s.db now j ttlMs limit run request with
        ⟨hno, -⟩ | ⟨-, heq⟩
      · rw [hok] at hno
        cases hno
      · change (s.db.commit eventType now _).instances.get j = some i at hi
        rw [heq, Db.instances_queueTx] at hi
        obtain ⟨x, -, rfl⟩ := get_setInstance_all hi
        rfl
    rw [hstatus]
    refine ⟨now + ttlMs, ?_, _, hholds.take hnew⟩
    change s.db.nextExamined eventType now j (s.next j) (.claimRun j ttlMs limit run request) =
      some (now + ttlMs)
    simp [Db.nextExamined, hok]
  · refine (hinv.covered j i hi).mono rfl fun t other hother _ => hother.take ?_
    rintro rfl
    exact hj (wakes_dispatches hother.wakes hid)

theorem Inv.markFired {expiresMs : Int} (h : s.Inv) (htaken : token ∈ s.taken) :
    Inv { s.withTimers (s.db.timers.markFired token expiresMs) with
      taken := s.taken.erase token } := by
  refine h.frame rfl rfl ?_ fun id t other hother => ⟨hother.wakes, hother.due, ?_, ?_⟩
  · intro timer htimer
    exact h.canonical timer (Table.mem_delete.mp htimer).1
  · refine Tables.isSome_markFired hother.pending ?_
    rintro rfl
    exact hother.untaken htaken
  · exact fun hmem => hother.untaken (List.mem_of_mem_erase hmem)

theorem Inv.step {ev : Event} (h : s.Inv) (hfresh : s.Fresh ev) (hmeets : s.Meets eventType ev) :
    (s.step eventType ev).Inv := by
  cases ev with
  | call now op => exact h.call hfresh hmeets
  | schedule dueAtMs slot =>
    refine h.frame rfl rfl ?_ fun id t token ht => ⟨ht.wakes, ht.due, ?_, ht.untaken⟩
    · intro timer htimer
      rcases Tables.mem_insert htimer with hold | rfl
      · exact h.canonical timer hold
      · rfl
    · exact Tables.isSome_insert ht.pending
  | due nowMs =>
    exact h.frame rfl rfl h.canonical fun id t token ht => ⟨ht.wakes, ht.due, ht.pending, ht.untaken⟩
  | skip token id =>
    rw [System.step]
    split
    · next hskip => exact h.skip hskip.2.1 hskip.2.2
    · exact h
  | claim token id now ttlMs limit run request =>
    rw [System.step]
    split
    · next hpicked =>
      split
      · next hok => exact h.claim hpicked.1 hpicked.2 hok hfresh
      · exact h.call hfresh trivial
    · exact h
  | abandon token =>
    exact h.frame rfl rfl h.canonical fun id t other ht =>
      ⟨ht.wakes, ht.due, ht.pending, fun hmem => ht.untaken (List.mem_of_mem_erase hmem)⟩
  | markFired token expiresMs =>
    rw [System.step]
    split
    · next htaken => exact h.markFired htaken
    · exact h
  | retry token nowMs =>
    rw [System.step]
    split
    · next r timers hretry =>
      have htimers := Tables.timers_scheduleRetry hretry
      refine h.frame rfl rfl ?_ fun id t other ht => ⟨ht.wakes, ht.due, ?_, ht.untaken⟩
      · intro timer htimer
        change timer ∈ timers.timers.rows at htimer
        rw [htimers] at htimer
        exact h.canonical timer htimer
      · change (timers.timers.get other).isSome
        rw [htimers]
        exact ht.pending
    · exact h
  | prune nowMs =>
    exact h.frame rfl rfl h.canonical fun id t other ht =>
      ⟨ht.wakes, ht.due, ht.pending, ht.untaken⟩

/-! ## Runs -/

theorem inv_start (scope : Str) : (start scope).Inv where
  canonical := nofun
  covered := nofun

/-- No wake is lost in any state of a run whose nonces are fresh and whose events meet the
condition. -/
theorem no_wake_lost (eventType : Bytes → Option Str) (scope : Str) (events : List Event)
    (hfresh : ∀ before ev, before ++ [ev] <+: events → (run eventType scope before).Fresh ev)
    (hmeets : ∀ before ev, before ++ [ev] <+: events →
      (run eventType scope before).Meets eventType ev) :
    ∀ before, before <+: events → (run eventType scope before).Awake := by
  intro before hbefore
  have hstep (s : System) (ev : Event) (h : s.Inv) (hgood : s.Fresh ev ∧ s.Meets eventType ev) :
      (s.step eventType ev).Inv :=
    h.step hgood.1 hgood.2
  have hinv := Util.invariant_of_steps (inv_start scope) hstep
    (fun before ev hprefix => ⟨hfresh before ev hprefix, hmeets before ev hprefix⟩) before hbefore
  exact Inv.awake hinv

/-- An instance is created, runs and parks until 5, and its first timer is marked fired. -/
def parking : List Event :=
  [.call 0 (.create ['w'] [] {} ['p']), .due 0,
    .claim ⟨.workflowRun, 0, .run ['w'] ['p']⟩ ['w'] 0 10 0 ['t'] ['q'],
    .call 1 (.parkSleep ['w'] ['t'] 5), .markFired ⟨.workflowRun, 0, .run ['w'] ['p']⟩ 100]

theorem no_wake_lost_parking :
    (∀ before ev, before ++ [ev] <+: parking →
        (run (fun _ => none) ['s'] before).Meets (fun _ => none) ev) ∧
      ∀ before, before <+: parking → (run (fun _ => none) ['s'] before).Awake := by
  have hmeets : ∀ before ev, before ++ [ev] <+: parking →
      (run (fun _ => none) ['s'] before).Meets (fun _ => none) ev := by
    decide +kernel
  exact ⟨hmeets, no_wake_lost (fun _ => none) ['s'] parking (by decide +kernel) hmeets⟩

/-- The timer of the park fires, and the run it starts parks until 5 again. -/
def parkingAgain : List Event :=
  parking ++
    [.due 5, .claim (sleepToken ['w'] 5) ['w'] 5 10 0 ['u'] ['r'],
      .markFired (sleepToken ['w'] 5) 105, .call 6 (.parkSleep ['w'] ['u'] 5)]

theorem second_park_not_woken :
    (∀ before ev, before ++ [ev] <+: parkingAgain →
        (run (fun _ => none) ['s'] before).Fresh ev) ∧
      let s := run (fun _ => none) ['s'] parkingAgain
      (s.db.instances.get ['w']).map Instance.status = some .sleeping ∧
        s.next ['w'] = some 5 ∧ ¬ s.WakesBy ['w'] 5 := by
  refine ⟨by decide +kernel, ?_⟩
  unfold WakesBy
  decide +kernel

end System

end CellHive.Workflow
