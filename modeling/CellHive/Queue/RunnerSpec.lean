import CellHive.Queue.Ledger
import CellHive.Queue.Runner

/-!
# The retry budget

Two invariants of the runner: what the commits that are left of a batch come from (`Shape`), and,
as long as every claim finds its messages dispatched as often as they were claimed, that the
attempts of a batch's messages do not exceed their dispatches (`Counted`).
-/

namespace CellHive.Queue.Runner

open Go Sql

variable {μ : Type} {env : Env μ} {cfg : Config} {s s' : Runner μ}

/-- Where a commit that is left comes from. -/
def TodoOk (cfg : Config) (s : Runner μ) (f : Flight) : Todo → Prop
  | .retry _ _ => True
  | .deadLetter m => m ∈ f.msgs ∧ retriesFor cfg.ref < m.attempts
  | .drop m => m ∈ f.msgs ∧ retriesFor cfg.ref < m.attempts ∧
    (cfg.ref.deadLetterQueue ≠ [] → m.id ∈ s.transferred)
  | .ack ids => ∃ retries, f.result = some (.succeeded retries) ∧ ids = acked retries f.msgs

structure FlightOk (cfg : Config) (s : Runner μ) (f : Flight) : Prop where
  waiting : f.result = none → f.todo = []
  todo : ∀ t ∈ f.todo, TodoOk cfg s f t

def Shape (cfg : Config) (s : Runner μ) : Prop := ∀ f, some f ∈ s.flights → FlightOk cfg s f

/-! ## The commits of a batch -/

variable {b : Nat} {f f' : Flight} {t : Todo} {left : List Todo}

theorem TodoOk.mono (h : TodoOk cfg s f t)
    (hmsgs : f'.msgs = f.msgs) (hresult : f'.result = f.result)
    (htransferred : ∀ id ∈ s.transferred, id ∈ s'.transferred) : TodoOk cfg s' f' t := by
  cases t with
  | retry id delayMs => trivial
  | deadLetter m =>
    obtain ⟨hm, hattempts⟩ := h
    exact ⟨by rwa [hmsgs], hattempts⟩
  | drop m =>
    obtain ⟨hm, hattempts, hsent⟩ := h
    exact ⟨by rwa [hmsgs], hattempts, fun hq => htransferred _ (hsent hq)⟩
  | ack ids =>
    obtain ⟨retries, hr, hids⟩ := h
    exact ⟨retries, by rw [hresult, hr], by rw [hmsgs, hids]⟩

theorem mem_setFlight {g : Flight} (h : some g ∈ (s.setFlight b (some f)).flights) :
    some g ∈ s.flights ∨ g = f := by
  rcases List.mem_or_eq_of_mem_set h with h | h
  · exact .inl h
  · exact .inr (Option.some.inj h)

theorem FlightOk.rest (h : FlightOk cfg s f) (htodo : f.todo = t :: left)
    (htransferred : ∀ id ∈ s.transferred, id ∈ s'.transferred) :
    FlightOk cfg s' { f with todo := left } where
  waiting hnone := by
    have hempty := h.waiting hnone
    rw [htodo] at hempty
    cases hempty
  todo x hx := by
    have hmem : x ∈ f.todo := htodo ▸ List.mem_cons_of_mem t hx
    exact (h.todo x hmem).mono rfl rfl htransferred

theorem todoOk_retryOrDeadLetter (f : Flight) {m : Message} (hm : m ∈ f.msgs) (delayMs : Int) :
    TodoOk cfg s f (retryOrDeadLetter cfg.ref delayMs m) := by
  unfold retryOrDeadLetter
  split
  · next hattempts => exact ⟨hm, hattempts⟩
  · trivial

theorem flightOk_afterDispatch (f : Flight) (result : Result) :
    FlightOk cfg s { f with result := some result, todo := afterDispatch cfg f.msgs result } where
  waiting := nofun
  todo t ht := by
    cases result with
    | failed =>
      obtain ⟨m, hm, rfl⟩ := List.mem_map.mp ht
      apply todoOk_retryOrDeadLetter
      exact hm
    | succeeded retries =>
      rcases List.mem_append.mp ht with ht | ht
      · obtain ⟨m, hm, hdelay⟩ := List.mem_filterMap.mp ht
        obtain ⟨delayMs, -, rfl⟩ := Option.map_eq_some_iff.mp hdelay
        apply todoOk_retryOrDeadLetter
        exact hm
      · split at ht
        · cases ht
        · rw [List.mem_singleton.mp ht]
          exact ⟨retries, rfl, rfl⟩

/-- From `s` to `s'` only the batch `f` has moved on. -/
structure Advances (cfg : Config) (s s' : Runner μ) (f : Flight) : Prop where
  dispatches : s'.dispatches = s.dispatches
  transferred : ∀ id ∈ s.transferred, id ∈ s'.transferred
  flights : ∀ g, some g ∈ s'.flights →
    some g ∈ s.flights ∨ (FlightOk cfg s' g ∧ g.msgs = f.msgs ∧ g.result = f.result)

theorem Advances.of_setFlight
    (hdispatches : s'.dispatches = s.dispatches)
    (htransferred : ∀ id ∈ s.transferred, id ∈ s'.transferred)
    (hflights : s'.flights = (s.setFlight b (some f')).flights) (hok : FlightOk cfg s' f')
    (hmsgs : f'.msgs = f.msgs) (hresult : f'.result = f.result) : Advances cfg s s' f where
  dispatches := hdispatches
  transferred := htransferred
  flights g hg := by
    rw [hflights] at hg
    rcases mem_setFlight hg with hg | rfl
    · exact .inl hg
    · exact .inr ⟨hok, hmsgs, hresult⟩

theorem Advances.rest (h : FlightOk cfg s f) (htodo : f.todo = t :: left)
    (hdispatches : s'.dispatches = s.dispatches)
    (htransferred : s'.transferred = s.transferred)
    (hflights : s'.flights = (s.setFlight b (some { f with todo := left })).flights) :
    Advances cfg s s' f := by
  have hsub : ∀ id ∈ s.transferred, id ∈ s'.transferred := by
    rw [htransferred]
    exact fun _ hid => hid
  exact .of_setFlight hdispatches hsub hflights (h.rest htodo hsub) rfl rfl

theorem Advances.ackWith (h : FlightOk cfg s f) (htodo : f.todo = t :: left)
    (fate : Fate) (ids : List Bytes) :
    Advances cfg s ((s.setFlight b (some { f with todo := left })).ackWith fate ids) f := by
  unfold Runner.ackWith
  split <;> exact .rest h htodo rfl rfl rfl

section Perform

variable [DecidableEq μ] {now : Int} {fate : Fate} {rowID : Bytes}
  {current : Bool}

theorem Advances.sendDeadLetter {m : Message} (h : FlightOk cfg s f)
    (htodo : f.todo = .deadLetter m :: left) :
    Advances cfg s (s.sendDeadLetter env cfg b f m left now fate rowID current) f := by
  obtain ⟨hm, hattempts⟩ : m ∈ f.msgs ∧ retriesFor cfg.ref < m.attempts :=
    h.todo (.deadLetter m) (by rw [htodo]; exact List.mem_cons_self)
  have hdrop {s' : Runner μ} (hsub : ∀ id ∈ s.transferred, id ∈ s'.transferred)
      (hsent : cfg.ref.deadLetterQueue ≠ [] → m.id ∈ s'.transferred) :
      FlightOk cfg s' { f with todo := .drop m :: left } := by
    have hrest := h.rest htodo hsub
    refine ⟨fun hnone => ?_, fun t ht => ?_⟩
    · have hempty := h.waiting hnone
      rw [htodo] at hempty
      cases hempty
    · rcases List.mem_cons.mp ht with rfl | ht
      · exact ⟨hm, hattempts, hsent⟩
      · exact (hrest.todo t ht).mono rfl rfl fun _ hid => hid
  unfold Runner.sendDeadLetter
  split
  · next hnone =>
    exact .of_setFlight rfl (fun _ hid => hid) rfl
      (hdrop (fun _ hid => hid) fun hq => absurd hnone hq) rfl rfl
  · split
    · exact .of_setFlight rfl (fun _ hid => List.mem_cons_of_mem _ hid) rfl
        (hdrop (fun _ hid => List.mem_cons_of_mem _ hid) fun _ => List.mem_cons_self) rfl rfl
    · exact .rest h htodo rfl rfl rfl
    · exact .rest h htodo rfl rfl rfl

theorem Advances.perform (h : FlightOk cfg s f) :
    Advances cfg s (s.perform env cfg b f now fate rowID current) f := by
  unfold Runner.perform
  split
  · exact ⟨rfl, fun _ hid => hid, fun g hg => .inl hg⟩
  · next htodo =>
    split
    · exact .rest h htodo rfl rfl rfl
    · exact .rest h htodo rfl rfl rfl
  · next htodo => exact .sendDeadLetter h htodo
  · next htodo => exact .ackWith h htodo fate _
  · next htodo => exact .ackWith h htodo fate _

end Perform

/-! ## Attempts and dispatches -/

/-- Attempts are covered by dispatches; the last claim may still wait for its dispatch. -/
def FlightCounted (s : Runner μ) (f : Flight) : Prop :=
  ∀ m ∈ f.msgs, m.attempts ≤ s.dispatches m.id + if f.result = none then 1 else 0

def Counted (s : Runner μ) : Prop := ∀ f, some f ∈ s.flights → FlightCounted s f

theorem FlightCounted.mono (h : FlightCounted s f)
    (hdispatches : ∀ id, s.dispatches id ≤ s'.dispatches id) (hmsgs : f'.msgs = f.msgs)
    (hresult : f'.result = f.result) : FlightCounted s' f' := by
  intro m hm
  rw [hmsgs] at hm
  rw [hresult]
  have hle := h m hm
  have hmore := hdispatches m.id
  omega

/-- What an event does to the batches: those that are new come from their dispatch or claim. -/
structure Moved (cfg : Config) (s : Runner μ) (ev : Event) (s' : Runner μ) : Prop where
  transferred : ∀ id ∈ s.transferred, id ∈ s'.transferred
  dispatches : ∀ id, s.dispatches id ≤ s'.dispatches id
  flights : ∀ g, some g ∈ s'.flights → some g ∈ s.flights ∨
    FlightOk cfg s' g ∧ (Counted s → s.Meets ev → FlightCounted s' g)

theorem Moved.same {ev : Event} (htransferred : s'.transferred = s.transferred)
    (hdispatches : s'.dispatches = s.dispatches)
    (hflights : ∀ g, some g ∈ s'.flights → some g ∈ s.flights) : Moved cfg s ev s' :=
  ⟨fun _ hid => htransferred ▸ hid, fun _ => hdispatches ▸ le_rfl, fun g hg => .inl (hflights g hg)⟩

theorem Shape.moved [DecidableEq μ] (h : Shape cfg s) (ev : Event) :
    Moved cfg s ev (s.step env cfg ev) := by
  cases ev with
  | send generation now items =>
    rw [Runner.step]
    split
    · exact .same rfl rfl fun _ => id
    · split
      · exact .same rfl rfl fun _ => id
      · exact .same rfl rfl fun _ => id
  | claim now limit leaseMs fate =>
    rw [Runner.step]
    cases fate with
    | refused | unproven => exact .same rfl rfl fun _ => id
    | proven =>
      dsimp only
      split
      · exact .same rfl rfl fun _ => id
      refine ⟨fun _ => id, fun _ => le_rfl, fun g hg => ?_⟩
      rcases List.mem_append.mp hg with hg | hg
      · exact .inl hg
      cases List.mem_singleton.mp hg
      refine .inr ⟨⟨fun _ => rfl, nofun⟩, fun _ hmeets m hm => ?_⟩
      -- the claim adds the attempt its dispatch will answer for
      obtain ⟨m, hfound, rfl⟩ := List.mem_map.mp hm
      have hle := hmeets m hfound
      change m.attempts + 1 ≤ (s.dispatches m.id : Int) + 1
      omega
  | abandon b =>
    refine .same rfl rfl fun g hg => ?_
    rcases List.mem_or_eq_of_mem_set hg with hg | hg
    · exact hg
    · cases hg
  | dispatch b result =>
    rw [Runner.step]
    split
    · next f hf =>
      split
      · next hwaiting =>
        refine ⟨fun _ => id, fun _ => Nat.le_add_right _ _, fun g hg => ?_⟩
        rcases mem_setFlight hg with hg | rfl
        · exact .inl hg
        · refine .inr ⟨flightOk_afterDispatch _ result, fun hcounted _ m hm => ?_⟩
          have hle := hcounted f (List.mem_of_getElem? hf) m hm
          have hid : m.id ∈ f.msgs.map Message.id := List.mem_map_of_mem hm
          rw [if_pos hwaiting] at hle
          simpa [hid] using hle
      · exact .same rfl rfl fun _ => id
    · exact .same rfl rfl fun _ => id
  | next b now fate rowID current =>
    rw [Runner.step]
    split
    · next f hf =>
      have hmem := List.mem_of_getElem? hf
      have hadvances : Advances cfg s (s.perform env cfg b f now fate rowID current) f :=
        .perform (h f hmem)
      have hdispatches (id : Bytes) : s.dispatches id ≤
          (s.perform env cfg b f now fate rowID current).dispatches id := by
        rw [hadvances.dispatches]
      refine ⟨hadvances.transferred, hdispatches, fun g hg => ?_⟩
      rcases hadvances.flights g hg with hg | ⟨hok, hmsgs, hresult⟩
      · exact .inl hg
      · exact .inr ⟨hok, fun hcounted _ => (hcounted f hmem).mono hdispatches hmsgs hresult⟩
    · exact .same rfl rfl fun _ => id

theorem Shape.step [DecidableEq μ] (h : Shape cfg s) (ev : Event) :
    Shape cfg (s.step env cfg ev) := by
  intro f hf
  have hmoved : Moved cfg s ev (s.step env cfg ev) := h.moved ev
  rcases hmoved.flights f hf with hold | hnew
  · have hok := h f hold
    exact ⟨hok.waiting, fun t ht => (hok.todo t ht).mono rfl rfl hmoved.transferred⟩
  · exact hnew.1

theorem Counted.step [DecidableEq μ] (h : Counted s) (hshape : Shape cfg s) (ev : Event)
    (hmeets : s.Meets ev) : Counted (s.step env cfg ev) := by
  intro f hf
  have hmoved : Moved cfg s ev (s.step env cfg ev) := hshape.moved ev
  rcases hmoved.flights f hf with hold | hnew
  · exact (h f hold).mono hmoved.dispatches rfl rfl
  · exact hnew.2 h hmeets

theorem Budget.of_counted (hshape : Shape cfg s) (hcounted : Counted s) : Budget cfg s := by
  intro f hf m hm
  obtain ⟨t, ht, hmsgs, hattempts⟩ : ∃ t ∈ f.todo, m ∈ f.msgs ∧ retriesFor cfg.ref < m.attempts := by
    rcases hm with hm | hm
    · obtain ⟨hmsgs, hattempts⟩ := (hshape f hf).todo _ hm
      exact ⟨_, hm, hmsgs, hattempts⟩
    · obtain ⟨hmsgs, hattempts, -⟩ := (hshape f hf).todo _ hm
      exact ⟨_, hm, hmsgs, hattempts⟩
  have hdone : f.result ≠ none := by
    intro hnone
    rw [(hshape f hf).waiting hnone] at ht
    cases ht
  have hle := hcounted f hf m hmsgs
  rw [if_neg hdone] at hle
  omega

/-! ## What leaves the queue -/

section Removed

variable [DecidableEq μ] {db : Db μ} {id : Bytes}

theorem isSome_sendOne {d : Delivery} {b b' : Batch μ} {m : SendMessage} {rowID : Bytes}
    (h : sendOne env d b m rowID = .ok b') (hid : (b.db.messages.get id).isSome) :
    (b'.db.messages.get id).isSome := by
  obtain ⟨fingerprint, -, ⟨old, -, -, -, rfl⟩ | ⟨-, rfl⟩⟩ := sendOne_eq_ok h
  · exact hid
  · rw [Table.get_insertIgnore]
    split
    · simp
    · exact hid

theorem isSome_sendAll {d : Delivery} {b b' : Batch μ} {items : List (SendMessage × Bytes)}
    (h : sendAll env d b items = .ok b') (hid : (b.db.messages.get id).isSome) :
    (b'.db.messages.get id).isSome := by
  induction items generalizing b with
  | nil =>
    cases h
    exact hid
  | cons item rest ih =>
    obtain ⟨b₁, hone, hrest⟩ := sendAll_cons h
    exact ih hrest (isSome_sendOne hone hid)

theorem isSome_sendBatch {d : Delivery} {b : Batch μ} {items : List (SendMessage × Bytes)}
    {validate : Except Err Unit} (h : db.sendBatch env d items validate = .ok b)
    (hid : (db.messages.get id).isSome) : (b.db.messages.get id).isSome := by
  unfold Db.sendBatch at h
  split at h
  · cases h
    exact hid
  · split at h
    · cases h
    split at h
    · cases h
    · exact isSome_sendAll h hid

omit [DecidableEq μ] in
theorem isSome_claim {now limit leaseMs : Int} (hid : (db.messages.get id).isSome) :
    ((db.claim now limit leaseMs).2.messages.get id).isSome := by
  refine (Table.isSome_get_update db.messages _ _ ?_ id).trans hid
  exact fun _ => rfl

omit [DecidableEq μ] in
theorem mem_of_ackWith {fate : Fate} {ids : List Bytes} (hid : (s.db.messages.get id).isSome)
    (hgone : (s.ackWith fate ids).db.messages.get id = none) : id ∈ ids := by
  obtain ⟨m, hm⟩ := Option.isSome_iff_exists.mp hid
  have hkey : m.id = id := Table.get_key hm
  unfold Runner.ackWith at hgone
  split at hgone
  · rw [hm] at hgone
    cases hgone
  · rw [hm] at hgone
    cases hgone
  · next db hack =>
    unfold Db.ackMany at hack
    split at hack
    · cases hack
    split at hack
    · cases hack
    cases hack
    rw [Table.get_delete, hm] at hgone
    simpa [hkey] using hgone

theorem removable_of_step (hshape : Shape cfg s) {ev : Event}
    (hid : (s.db.messages.get id).isSome)
    (hgone : (s.step env cfg ev).db.messages.get id = none) : Removable cfg s id ev := by
  have hstays {t : Table Message.id} (h : (t.get id).isSome) (hnone : t.get id = none) : False := by
    rw [hnone] at h
    cases h
  cases ev with
  | send generation now items =>
    rw [Runner.step] at hgone
    split at hgone
    · exact hstays hid hgone
    · split at hgone
      · next sent hsent => exact hstays (isSome_sendBatch hsent hid) hgone
      · exact hstays hid hgone
  | claim now limit leaseMs fate =>
    rw [Runner.step] at hgone
    cases fate with
    | refused => exact hstays hid hgone
    | unproven => exact hstays (isSome_claim hid) hgone
    | proven =>
      dsimp only at hgone
      split at hgone
      all_goals exact hstays (isSome_claim hid) hgone
  | abandon b => exact hstays hid hgone
  | dispatch b result =>
    rw [Runner.step] at hgone
    split at hgone
    · split at hgone
      all_goals exact hstays hid hgone
    · exact hstays hid hgone
  | next b now fate rowID current =>
    rw [Runner.step] at hgone
    split at hgone
    · next f hf =>
      have hok := hshape f (List.mem_of_getElem? hf)
      refine ⟨f, hf, ?_⟩
      unfold Runner.perform at hgone
      split at hgone
      · exact (hstays hid hgone).elim
      · split at hgone
        · exact (hstays hid hgone).elim
        · refine (hstays ?_ hgone).elim
          dsimp only [Db.retry]
          rwa [Table.isSome_get_update]
      · -- the dead letter itself removes nothing
        unfold Runner.sendDeadLetter at hgone
        split at hgone
        · exact (hstays hid hgone).elim
        · split at hgone
          all_goals exact (hstays hid hgone).elim
      · next m rest htodo =>
        have hmem := mem_of_ackWith (s := s.setFlight b (some { f with todo := rest })) hid hgone
        obtain rfl := List.mem_singleton.mp hmem
        obtain ⟨-, hattempts, hsent⟩ := hok.todo (.drop m) (htodo ▸ List.mem_cons_self)
        exact .inr ⟨m, rest, htodo, rfl, hattempts, hsent⟩
      · next ids rest htodo =>
        have hmem := mem_of_ackWith (s := s.setFlight b (some { f with todo := rest })) hid hgone
        obtain ⟨retries, hresult, rfl⟩ := hok.todo (.ack ids) (htodo ▸ List.mem_cons_self)
        exact .inl ⟨_, rest, retries, htodo, hmem, hresult, hmem⟩
    · exact (hstays hid hgone).elim

end Removed

/-! ## Runs -/

theorem shape_start : Shape cfg (start μ) := nofun

theorem shape_run [DecidableEq μ] (events : List Event) : Shape cfg (run env cfg events) := by
  have hinv : ∀ before, before <+: events → Shape cfg (run env cfg before) := by
    apply Util.invariant_of_steps (I := Shape cfg)
    · exact shape_start
    · exact fun s ev h (_ : True) => h.step ev
    · exact fun _ _ _ => trivial
  exact hinv events List.prefix_rfl

/-- In a run whose claims find their messages dispatched as often as they were claimed, retries
are exhausted only by dispatches, in every state reached. In any run, a message leaves the queue
only acknowledged, or with its retries exhausted and, where there is a dead-letter queue, in it. -/
theorem retry_budget_honoured [DecidableEq μ] (env : Env μ) (cfg : Config) (events : List Event)
    (hmeets : ∀ before ev, before ++ [ev] <+: events → (run env cfg before).Meets ev) :
    (∀ before, before <+: events → Budget cfg (run env cfg before)) ∧
    ∀ before ev id, before ++ [ev] <+: events →
      ((run env cfg before).db.messages.get id).isSome →
      (run env cfg (before ++ [ev])).db.messages.get id = none →
      Removable cfg (run env cfg before) id ev := by
  constructor
  · intro before hbefore
    have hinv : ∀ before, before <+: events →
        Shape cfg (run env cfg before) ∧ Counted (run env cfg before) := by
      apply Util.invariant_of_steps (I := fun s => Shape cfg s ∧ Counted s)
      · exact ⟨shape_start, nofun⟩
      · rintro s ev ⟨hshape, hcounted⟩ hmeets
        exact ⟨hshape.step ev, hcounted.step hshape ev hmeets⟩
      · exact hmeets
    obtain ⟨hshape, hcounted⟩ := hinv before hbefore
    exact .of_counted hshape hcounted
  · intro before ev id _ hid hgone
    have hstep : run env cfg (before ++ [ev]) = (run env cfg before).step env cfg ev :=
      List.foldl_append
    rw [hstep] at hgone
    exact removable_of_step (shape_run before) hid hgone

section Runs

def plainEnv : Env Unit := ⟨id, fun _ => some (), ()⟩

/-- A queue with one retry and no dead-letter queue. -/
def oneRetry : Config := { ref := { name := [9], maxRetries := 1 } }

/-- A message is sent, fails, is retried, fails again and is dropped. -/
def failsTwice : List Event :=
  [.send [] 0 [({ body := [5] }, [1])], .claim 0 10 10 .proven, .dispatch 0 .failed,
    .next 0 1 .proven [] true, .claim 40000 10 10 .proven, .dispatch 1 .failed,
    .next 1 40001 .proven [] true, .next 1 40001 .proven [] true]

theorem retry_budget_honoured_failsTwice :
    (∀ before, before <+: failsTwice → Budget oneRetry (run plainEnv oneRetry before)) ∧
      (run plainEnv oneRetry (failsTwice.take 7)).db.messages.rows.length = 1 ∧
      (run plainEnv oneRetry failsTwice).db.messages.rows = [] :=
  ⟨(retry_budget_honoured plainEnv oneRetry failsTwice (by decide +kernel)).1,
    by decide +kernel, by decide +kernel⟩

/-- The first claim is given up before its dispatch; after the second, with one dispatch behind
it, the message has no retries left. -/
theorem undispatched_claim_spends_retry :
    ¬ Budget oneRetry (run plainEnv oneRetry
      [.send [] 0 [({ body := [5] }, [1])], .claim 0 10 10 .proven, .abandon 0,
        .claim 10 10 10 .proven, .dispatch 1 .failed]) := by
  intro hbudget
  have hle := hbudget _ (List.mem_of_getElem? (i := 1) rfl) _ (.inl List.mem_cons_self)
  revert hle
  decide +kernel

end Runs

end CellHive.Queue.Runner
