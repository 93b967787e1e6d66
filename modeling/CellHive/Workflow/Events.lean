import CellHive.Workflow.Started

/-!
# Events and the steps that wait for them

The rows of `events`, which arrive in the order of their ids, and which step took which of them.
`ConsumeEventForStep` takes the first event of the type that no step has, once for each step;
every later call of the step reads the result back.
-/

namespace CellHive.Workflow

open Go Sql Timer

/-- The calls around the events of `k`: sends, consumption by a named step, and runs that are
created, claimed, renewed and released. -/
def Op.ofEvents (k : Str) : Op → Bool
  | .appendEvent id _ _ => id = k
  | .consumeEvent id step _ _ => decide (id = k) && decide (step ≠ [])
  | .create .. | .claimRun .. | .renewRun .. | .releaseRun .. => true
  | _ => false

section

variable (eventType : Bytes → Option Str)

/-- The event a call takes for a step: none if the run is stale or the step has its result. -/
def Db.takes (db : Db) : Op → List (Str × EventRow)
  | .consumeEvent id step evType token =>
    if (db.checkRunTx id token).toBool && (db.steps.get (id, step)).isNone then
      ((db.pendingEvents eventType id evType).head?.map fun e => (step, e)).toList
    else []
  | _ => []

def Db.answers (db : Db) : Op → List (Str × Bytes)
  | .consumeEvent id step evType token =>
    match db.consumeEventForStep eventType id step evType token with
    | .ok (some payload, _) => [(step, payload)]
    | _ => []
  | _ => []

/-- The cell, the steps with the event each took, and the payloads the calls returned. -/
structure Inbox where
  db : Db
  taken : List (Str × EventRow)
  answered : List (Str × Bytes)

namespace Inbox

def step (s : Inbox) (c : Call) : Inbox where
  db := s.db.commit eventType c.now c.op
  taken := s.taken ++ s.db.takes eventType c.op
  answered := s.answered ++ s.db.answers eventType c.op

def run (scope : Str) (calls : List Call) : Inbox :=
  calls.foldl (step eventType) ⟨Db.new scope, [], []⟩

def takenIds (s : Inbox) : List Nat := s.taken.map fun d => d.2.id

/-- An event of the instance and the type that no step took. -/
def Free (s : Inbox) (k evType : Str) (e : EventRow) : Prop :=
  e ∈ s.db.events.rows ∧ e.instanceId = k ∧ e.id ∉ s.takenIds ∧
    (evType = [] ∨ eventType e.payload = some evType)

/-- What a call for a step may take and answer: that the run is stale, the result the step has,
the first free event, or that there is none. -/
inductive Consumes (s : Inbox) (k name evType : Str) :
    List (Str × EventRow) → Except Err (Option Bytes × Db) → Prop
  | stale : Consumes s k name evType [] (.error .staleRun)
  | replayed {e : EventRow} (h : s.taken.lookup name = some e) :
      Consumes s k name evType [] (.ok (some e.payload, s.db))
  | waits (h : s.taken.lookup name = none) (hno : ∀ e, ¬ s.Free eventType k evType e) :
      Consumes s k name evType [] (.ok (none, s.db))
  | took {e : EventRow} (h : s.taken.lookup name = none) (he : s.Free eventType k evType e)
      (hfirst : ∀ x, s.Free eventType k evType x → e.id ≤ x.id) :
      Consumes s k name evType [(name, e)] (.ok (some e.payload, s.db.consume k name e))

end Inbox

end

namespace Inbox

/-! ## The tables behind an inbox -/

structure Inv (k : Str) (s : Inbox) : Prop where
  arrived : ∀ e ∈ s.db.events.rows, e.id ≤ s.db.lastEvent
  known : ∀ d ∈ s.taken, d.2.id ≤ s.db.lastEvent
  consumed : ∀ e ∈ s.db.events.rows, e.consumed = true ↔ e.id ∈ s.takenIds
  memo : ∀ name, s.db.steps.get (k, name) = (s.taken.lookup name).map fun e => ⟨k, name, e.payload⟩
  answers : ∀ a ∈ s.answered, (s.taken.lookup a.1).map EventRow.payload = some a.2
  nodup : s.takenIds.Nodup

variable {eventType : Bytes → Option Str} {k : Str} {s : Inbox} {name evType : Str}

theorem Inv.mem_pending (h : s.Inv k) {e : EventRow} :
    e ∈ s.db.pendingEvents eventType k evType ↔ s.Free eventType k evType e := by
  rw [Db.pendingEvents, Table.mem_orderBy]
  refine and_congr_right fun he => ?_
  rw [← h.consumed e he]
  simp [and_assoc]

theorem Inv.head?_eq_some (h : s.Inv k) {e : EventRow}
    (he : (s.db.pendingEvents eventType k evType).head? = some e) :
    s.Free eventType k evType e ∧ ∀ x, s.Free eventType k evType x → e.id ≤ x.id := by
  obtain ⟨rest, hcons⟩ := List.head?_eq_some_iff.mp he
  have hsorted : (s.db.pendingEvents eventType k evType).Pairwise fun a b => a.id ≤ b.id :=
    Table.pairwise_orderBy ..
  refine ⟨h.mem_pending.mp (by simp [hcons]), fun x hx => ?_⟩
  rw [← h.mem_pending, hcons] at hx
  rw [hcons] at hsorted
  rcases List.mem_cons.mp hx with rfl | hx
  · exact le_rfl
  · exact List.rel_of_pairwise_cons hsorted hx

theorem Inv.consumes (h : s.Inv k) (hname : name ≠ []) (token : Str) :
    s.Consumes eventType k name evType
      (s.db.takes eventType (.consumeEvent k name evType token))
      (s.db.consumeEventForStep eventType k name evType token) := by
  simp only [Db.takes, Db.consumeEventForStep, if_neg hname, h.memo]
  cases hcheck : s.db.checkRunTx k token with
  | error e =>
    obtain rfl : e = .staleRun := by
      unfold Db.checkRunTx at hcheck
      grind
    exact .stale
  | ok u =>
    cases hlookup : s.taken.lookup name with
    | some e => exact .replayed hlookup
    | none =>
      cases hhead : (s.db.pendingEvents eventType k evType).head? with
      | none =>
        refine .waits hlookup fun e he => ?_
        rw [← h.mem_pending, List.head?_eq_none_iff.mp hhead] at he
        cases he
      | some e =>
        obtain ⟨hfree, hfirst⟩ := h.head?_eq_some hhead
        exact .took hlookup hfree hfirst

/-! ## Calls -/

theorem Inv.send (h : s.Inv k) (now : Int) (payload : Bytes) (request : Str) :
    Inv k { s with db := s.db.commit eventType now (.appendEvent k payload request) } := by
  have hrow {e : EventRow} (he : e ∈ (s.db.commit eventType now
      (.appendEvent k payload request)).events.rows) :
      e ∈ s.db.events.rows ∨ e = ⟨s.db.lastEvent + 1, k, payload, now, false⟩ :=
    (Table.mem_insertIgnore.mp he).imp_right And.left
  refine ⟨fun e he => ?_, fun d hd => (h.known d hd).trans (Nat.le_succ _), fun e he => ?_, h.memo,
    h.answers, h.nodup⟩
  · rcases hrow he with hold | rfl
    · exact (h.arrived e hold).trans (Nat.le_succ _)
    · exact le_rfl
  · rcases hrow he with hold | rfl
    · exact h.consumed e hold
    · refine iff_of_false nofun fun hmem => ?_
      obtain ⟨d, hd, heq⟩ := List.mem_map.mp hmem
      exact absurd (h.known d hd) (by dsimp only at heq; omega)

theorem mem_consume {db : Db} {e x : EventRow} (hx : x ∈ (db.consume k name e).events.rows) :
    ∃ y ∈ db.events.rows,
      x.id = y.id ∧ (x.consumed = true ↔ y.consumed = true ∨ y.id = e.id) := by
  have hevents : (db.consume k name e).events = db.events.update (fun x => x.id = e.id)
      (fun x => { x with consumed := true }) fun _ => rfl := by
    unfold Db.consume
    split <;> rfl
  rw [hevents, Table.mem_update] at hx
  obtain ⟨y, hy, rfl⟩ := hx
  refine ⟨y, hy, ?_⟩
  by_cases hid : y.id = e.id <;> simp [hid]

theorem Inv.took (h : s.Inv k) (hname : name ≠ []) {e : EventRow}
    (hlookup : s.taken.lookup name = none) (he : s.Free eventType k evType e) :
    Inv k ⟨s.db.consume k name e, s.taken ++ [(name, e)], s.answered ++ [(name, e.payload)]⟩ := by
  have hlast : (s.db.consume k name e).lastEvent = s.db.lastEvent := by
    rw [Db.consume, if_neg hname]
  have hsteps : (s.db.consume k name e).steps = s.db.steps.insertIgnore ⟨k, name, e.payload⟩ := by
    rw [Db.consume, if_neg hname]
  refine ⟨fun x hx => ?_, fun d hd => ?_, fun x hx => ?_, fun other => ?_, fun a ha => ?_, ?_⟩
  · obtain ⟨y, hy, hid, -⟩ := mem_consume hx
    rw [hid, hlast]
    exact h.arrived y hy
  · rw [hlast]
    rcases List.mem_append.mp hd with hd | hd
    · exact h.known d hd
    · rw [List.mem_singleton.mp hd]
      exact h.arrived e he.1
  · obtain ⟨y, hy, hid, hconsumed⟩ := mem_consume hx
    rw [hconsumed, h.consumed y hy, hid]
    simp [takenIds]
  · rw [hsteps, Table.get_insertIgnore, List.lookup_append, h.memo]
    by_cases hother : name = other
    · simp [← hother, hlookup, Step.key]
    · have hne : (other == name) = false := by simpa using Ne.symm hother
      simp [hother, hne, Step.key, List.lookup]
  · rw [List.lookup_append]
    rcases List.mem_append.mp ha with ha | ha
    · obtain ⟨x, hx, hpayload⟩ := Option.map_eq_some_iff.mp (h.answers a ha)
      simp [hx, hpayload]
    · rw [List.mem_singleton.mp ha]
      simp [hlookup]
  · rw [takenIds, List.map_append]
    exact h.nodup.append (List.nodup_singleton _) (by simpa using he.2.2.1)

theorem Inv.step {c : Call} (h : s.Inv k) (hc : c.op.ofEvents k = true) :
    (s.step eventType c).Inv k := by
  obtain ⟨now, op⟩ := c
  -- the calls about runs change the instances and the timers only
  have hframe (hcommit : ∃ instances timers, s.db.commit eventType now op =
        { s.db with instances, timers }) (htakes : s.db.takes eventType op = [])
      (hanswers : s.db.answers eventType op = []) : (s.step eventType ⟨now, op⟩).Inv k := by
    obtain ⟨instances, timers, heq⟩ := hcommit
    rw [Inbox.step, heq, htakes, hanswers, List.append_nil, List.append_nil]
    exact ⟨h.arrived, h.known, h.consumed, h.memo, h.answers, h.nodup⟩
  cases op with
  | appendEvent id payload request =>
    obtain rfl : id = k := by simpa [Op.ofEvents] using hc
    simp only [Inbox.step, Db.takes, Db.answers, List.append_nil]
    exact h.send now payload request
  | consumeEvent id name evType token =>
    obtain ⟨rfl, hname⟩ : id = k ∧ name ≠ [] := by simpa [Op.ofEvents] using hc
    have hconsumes : s.Consumes eventType id name evType _ _ := h.consumes hname token
    simp only [Inbox.step, Db.commit, Db.exec, Db.answers]
    generalize s.db.takes eventType (.consumeEvent id name evType token) = takes at hconsumes ⊢
    generalize s.db.consumeEventForStep eventType id name evType token = r at hconsumes ⊢
    cases hconsumes with
    | stale | waits =>
      simp only [List.append_nil]
      exact h
    | @replayed e hlookup =>
      rw [List.append_nil]
      refine ⟨h.arrived, h.known, h.consumed, h.memo, fun a ha => ?_, h.nodup⟩
      rcases List.mem_append.mp ha with ha | ha
      · exact h.answers a ha
      · rw [List.mem_singleton.mp ha]
        simp [hlookup]
    | took hlookup he hfirst => exact h.took hname hlookup he
  | create =>
    refine hframe ?_ rfl rfl
    rw [Db.commit, Db.exec, Db.createWithTarget]
    split_ifs <;> exact ⟨_, _, rfl⟩
  | claimRun id ttlMs limit token request =>
    rcases Db.claimRun_cases eventType s.db now id ttlMs limit token request with
      ⟨-, heq⟩ | ⟨-, heq⟩ <;> exact hframe ⟨_, _, heq⟩ rfl rfl
  | renewRun id token ttlMs =>
    refine hframe ?_ rfl rfl
    rw [Db.commit, Db.exec, Db.renewRun]
    rcases s.db.instances.get id with _ | i
    · exact ⟨_, _, rfl⟩
    · dsimp only
      split_ifs <;> exact ⟨_, _, rfl⟩
  | releaseRun => exact hframe ⟨_, _, rfl⟩ rfl rfl
  | _ => cases hc

theorem inv_run (scope : Str) {calls : List Call} (hcalls : ∀ c ∈ calls, c.op.ofEvents k = true) :
    (run eventType scope calls).Inv k := by
  induction calls using List.reverseRecOn with
  | nil => exact ⟨nofun, nofun, nofun, fun _ => rfl, nofun, List.nodup_nil⟩
  | append_singleton calls c ih =>
    rw [run, List.foldl_append]
    exact (ih fun x hx => hcalls x (List.mem_append_left _ hx)).step (hcalls c (by simp))

end Inbox

/-- Each event is taken by at most one step, a call takes the first free event of its type in the
order of arrival, and a step that was answered once gets the same answer from every later call. -/
theorem events_consumed_once (eventType : Bytes → Option Str) (scope k : Str) (calls : List Call)
    (hcalls : ∀ c ∈ calls, c.op.ofEvents k = true) :
    let s := Inbox.run eventType scope calls
    s.takenIds.Nodup ∧ (∀ e ∈ s.db.events.rows, e.id ≤ s.db.lastEvent) ∧
    ∀ name evType token, name ≠ [] →
      let takes := s.db.takes eventType (.consumeEvent k name evType token)
      let answer := s.db.consumeEventForStep eventType k name evType token
      s.Consumes eventType k name evType takes answer ∧
        ∀ p, (name, p) ∈ s.answered →
          takes = [] ∧ (answer = .error .staleRun ∨ answer = .ok (some p, s.db)) := by
  intro s
  have hinv : s.Inv k := Inbox.inv_run scope hcalls
  refine ⟨hinv.nodup, hinv.arrived, fun name evType token hname => ?_⟩
  intro takes answer
  have hconsumes : s.Consumes eventType k name evType takes answer := hinv.consumes hname token
  refine ⟨hconsumes, fun p hp => ?_⟩
  obtain ⟨e, he, hpayload⟩ := Option.map_eq_some_iff.mp (hinv.answers _ hp)
  clear_value takes answer
  cases hconsumes with
  | stale => exact ⟨rfl, .inl rfl⟩
  | replayed h =>
    obtain rfl := Option.some.inj (he.symm.trans h)
    exact ⟨rfl, .inr (by rw [hpayload])⟩
  | waits h | took h => cases he.symm.trans h

/-- Two events arrive, the run of `t` takes one for a step and is taken over. -/
def takenOver : List Call :=
  [⟨0, .create ['w'] [] {} ['q']⟩, ⟨1, .claimRun ['w'] 10 0 ['t'] ['r']⟩,
    ⟨2, .appendEvent ['w'] [1] ['x']⟩, ⟨2, .appendEvent ['w'] [2] ['y']⟩,
    ⟨3, .consumeEvent ['w'] ['a'] [] ['t']⟩, ⟨20, .claimRun ['w'] 10 0 ['u'] ['z']⟩]

theorem events_consumed_once_takenOver :
    let s := Inbox.run (fun _ => none) ['s'] takenOver
    (['a'], [1]) ∈ s.answered ∧ s.takenIds.Nodup ∧
      (s.db.takes (fun _ => none) (.consumeEvent ['w'] ['a'] [] ['u']) = [] ∧
        (s.db.consumeEventForStep (fun _ => none) ['w'] ['a'] [] ['u'] = .error .staleRun ∨
          s.db.consumeEventForStep (fun _ => none) ['w'] ['a'] [] ['u'] =
            .ok (some [1], s.db))) := by
  have hlaws := events_consumed_once (fun _ => none) ['s'] ['w'] takenOver (by decide)
  have hanswered : (['a'], [1]) ∈ (Inbox.run (fun _ => none) ['s'] takenOver).answered := by
    decide +kernel
  exact ⟨hanswered, hlaws.1, (hlaws.2.2 ['a'] [] ['u'] (by decide)).2 [1] hanswered⟩

end CellHive.Workflow
