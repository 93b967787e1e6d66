import CellHive.Fencing.CallSpecs

/-!
# Runs of many managers

Any number of calls by any number of managers, interleaved in any order. `AllowResource`
retires a deletion job: `block_after_allow` proves it as long as no other job blocks the scope
afterwards, and `retired_job_blocks_again` shows why that is needed, since a fence remembers
only the last job.
-/

namespace CellHive.Fencing

open Go Ltx Bucket Concurrent Replica

/-! ## Calls -/

/-- The calls on a scope. The last two are what other scopes do to the cache of a manager. -/
inductive Call where
  | block (m : Nat) (job : Str)
  | fence (m : Nat) (job : Str) (epoch : UInt64)
  | allow (m : Nat) (job : Str)
  | append (m rounds : Nat) (epoch : UInt64) (segment : Bytes)
  | appendBatch (m rounds : Nat) (epoch : UInt64) (segments : List Bytes)
  | markEpoch (m rounds : Nat) (epoch cut : UInt64)
  | read (m rounds : Nat) (refresh : Bool)
  | evict (m : Nat)
  | otherScope (m : Nat)

def Call.prog (kind : Bool) (scope : Key) : Call → Prog ops (Res Unit)
  | .block m job => blockResource kind m job
  | .fence m job epoch => fenceResource kind m job epoch
  | .allow m job => allowResource kind m job
  | .append m rounds epoch segment => Fencing.append kind scope m rounds epoch segment
  | .appendBatch m rounds epoch segments => Fencing.appendBatch kind scope m rounds epoch segments
  | .markEpoch m rounds epoch cut => Fencing.markEpoch kind scope m rounds epoch cut
  | .read m rounds refresh => do
    let res ← readResourceFenceShared kind m refresh rounds
    return res.map fun _ => ()
  | .evict m => do
    ask (.evict m)
    return .ok ()
  | .otherScope m => do
    ask (.otherScope m)
    return .ok ()

def Call.update : Call → Option Update
  | .block _ job => some (.block job)
  | .fence _ job epoch => some (.fence job epoch)
  | .allow _ job => some (.allow job)
  | _ => none

def Call.writes : Call → Option UInt64
  | .append _ _ epoch _ => some epoch
  | .appendBatch _ _ epoch _ => some epoch
  | .markEpoch _ _ epoch _ => some epoch
  | _ => none

/-- All calls, before their first operation. -/
def start (kind : Bool) (scope : Key) (w : World) (calls : List Call) :
    Pool ops World (Res Unit) :=
  ⟨⟨w, []⟩, calls.map (Call.prog kind scope)⟩

/-! ## What holds along a run -/

section Runs

variable {kind : Bool} {base : Fence} {scope : Key} {i : Nat} {call : Call} {calls : List Call}
  {s : Traced ops World} {w : World}

def Promise (kind : Bool) (base : Fence) (i : Nat) (call : Call) (res : Res Unit)
    (s : Traced ops World) : Prop :=
  res = .ok () → (∀ u, call.update = some u → Stored i u s.trace) ∧
    ∀ epoch, call.writes = some epoch → kind = true → Unshared i s.trace →
      Cleared base i epoch s.trace

variable {res : Res Unit} {s' : Traced ops World} {u : Update}

theorem Promise.later (h : Promise kind base i call res s) (hs : Evolves kind base s s')
    (ho : Others i s s') : Promise kind base i call res s' := by
  intro hok
  obtain ⟨hstored, hclear⟩ := h hok
  refine ⟨fun u hu => (hstored u hu).mono hs.trace, fun epoch he hkind hun => ?_⟩
  exact (hclear epoch he hkind (hun.mono hs.trace)).idle (.of_others ho)

theorem UpdatePost.promise (h : UpdatePost kind base i u s res s') (hu : call.update = some u)
    (hw : call.writes = none) : Promise kind base i call res s' := by
  intro hok
  refine ⟨fun v hv => ?_, by simp [hw]⟩
  rw [hu] at hv
  cases hv
  exact h.2 hok

theorem WritePost.promise {epoch : UInt64} (h : WritePost kind base i epoch s res s')
    (hu : call.update = none) (hw : call.writes = some epoch) :
    Promise kind base i call res s' := by
  intro hok
  refine ⟨by simp [hu], fun e he => ?_⟩
  rw [hw] at he
  cases he
  exact h.2 hok

theorem prog_spec (call : Call) (hinv : Inv kind base s) :
    Spec exec (Evolves kind base) i (call.prog kind scope) (Promise kind base i call) s := by
  cases call with
  | block m job =>
    by_cases hjob : job = []
    · have hprog : (Call.block m job).prog kind scope =
          pure (.error (.errorf "replica: missing cleanup identity")) := if_pos hjob
      rw [hprog]
      exact nofun
    · have hprog : (Call.block m job).prog kind scope = updateResourceFence kind m (.block job) :=
        if_neg hjob
      rw [hprog]
      exact (updateResourceFence_spec (u := .block job) hjob hinv).mono
        fun _ _ h => h.promise rfl rfl
  | fence m job epoch =>
    exact (updateResourceFence_spec (u := .fence job epoch) trivial hinv).mono
      fun _ _ h => h.promise rfl rfl
  | allow m job =>
    exact (updateResourceFence_spec (u := .allow job) trivial hinv).mono
      fun _ _ h => h.promise rfl rfl
  | append m rounds epoch segment => exact (append_spec hinv).mono fun _ _ h => h.promise rfl rfl
  | appendBatch m rounds epoch segments =>
    exact (appendBatch_spec hinv).mono fun _ _ h => h.promise rfl rfl
  | markEpoch m rounds epoch cut =>
    exact (markEpoch_spec hinv).mono fun _ _ h => h.promise rfl rfl
  | read m rounds refresh =>
    refine Spec.seq (readResourceFenceShared_spec refresh rounds s hinv) fun res s' _ => ?_
    exact fun _ => ⟨fun _ => nofun, fun _ => nofun⟩
  | evict | otherScope =>
    apply Spec.bind
    refine spec_quiet rfl (fun _ => rfl) fun _ _ _ _ _ _ _ => ?_
    exact fun _ => ⟨fun _ => nofun, fun _ => nofun⟩

/-- The fence there is at the start, or the one a migration will store. -/
def baseOf (kind : Bool) (w : World) : Fence :=
  match w.fence.cur with
  | some (content, _) => content.getD {}
  | none => if kind then (w.legacy.content.getD none).getD {} else {}

theorem inv_start : Inv kind (baseOf kind w) (start kind scope w calls).state := by
  refine ⟨fun hnone => ⟨rfl, ?_⟩, fun _ _ => rfl, fun f tag hcur => ?_, fun before step after u f h => ?_⟩
  · have hcur : w.fence.cur = none := hnone
    rcases kind with _ | _
    · simp [BaseOf, baseOf, start, hcur]
    simp only [BaseOf, baseOf, start, hcur, if_true]
    intro f hf
    rw [hf]
    rfl
  · have hcur' : w.fence.cur = some (some f, tag) := hcur
    unfold baseOf
    rw [hcur']
    exact .start
  · have hnil : ([] : List (Step ops)) = before ++ step :: after := h
    simp at hnil

def Ongoing (kind : Bool) (base : Fence) (calls : List Call) (pool : Pool ops World (Res Unit)) :
    Prop :=
  ∀ i p, pool.progs[i]? = some p → Spec exec (Evolves kind base) i p
    (fun res s => ∀ call, calls[i]? = some call → Promise kind base i call res s) pool.state

theorem start_progs {p : Prog ops (Res Unit)} (h : (start kind scope w calls).progs[i]? = some p) :
    ∃ call, calls[i]? = some call ∧ call.prog kind scope = p := by
  rw [start, List.getElem?_map] at h
  exact Option.map_eq_some_iff.1 h

theorem ongoing_start : Ongoing kind (baseOf kind w) calls (start kind scope w calls) := by
  intro i p hp
  obtain ⟨call, hcall, rfl⟩ := start_progs hp
  refine (prog_spec call inv_start).mono fun res s h call' hcall' => ?_
  rw [hcall] at hcall'
  cases hcall'
  exact h

theorem Ongoing.run {pool pool' : Pool ops World (Res Unit)} {schedule : List (Nat × Choice)}
    (h : Ongoing kind base calls pool) (hrun : pool.run exec schedule = some pool') :
    Evolves kind base pool.state pool'.state ∧ Ongoing kind base calls pool' := by
  refine Pool.run_specs (R := Evolves kind base) (fun _ _ _ => Evolves.trans) Evolves.refl ?_ h hrun
  exact fun i res s s' hq hs ho call hcall => (hq call hcall).later hs ho

theorem Ongoing.promise {pool : Pool ops World (Res Unit)} (h : Ongoing kind base calls pool)
    (hcall : calls[i]? = some call) (hret : pool.progs[i]? = some (.ret res)) :
    Promise kind base i call res pool.state :=
  h i _ hret call hcall

theorem Stored.mem_updates {t : List (Step ops)} (h : Stored i u t) : u ∈ updates t := by
  obtain ⟨step, hstep, -, hstored⟩ := h
  exact List.mem_filterMap.2 ⟨step, hstep, hstored⟩

theorem Inv.reaches (h : Inv kind base s) (hu : u ∈ updates s.trace) :
    ∃ f tag, s.shared.fence.cur = some (some f, tag) ∧ Reaches base (updates s.trace) f := by
  have hne : updates s.trace ≠ [] := List.ne_nil_of_mem hu
  rcases hcur : s.shared.fence.cur with _ | x
  · exact absurd (h.absent hcur).1 hne
  obtain ⟨content, tag⟩ := x
  cases content with
  | none => exact absurd (h.corrupt tag hcur) hne
  | some f => exact ⟨f, tag, rfl, h.reached f tag hcur⟩

end Runs

/-! ## Retired jobs -/

/-- Between a job's allow and its next block another job has blocked the scope. -/
theorem Reaches.superseded {base f : Fence} {job : Str} {us vs : List Update}
    (h : Reaches base (us ++ .allow job :: vs) f)
    (hother : ∀ other, .block other ∈ vs → other = job) : .block job ∉ vs := by
  intro hblock
  obtain ⟨before, after, rfl⟩ := List.append_of_mem hblock
  obtain ⟨g, -, hrest⟩ := reaches_append.1 h
  obtain ⟨allowed, hallow, hrest⟩ := reaches_cons.1 hrest
  obtain ⟨g', hbefore, hrest⟩ := reaches_append.1 hrest
  obtain ⟨blocked, hchange, -⟩ := reaches_cons.1 hrest
  obtain ⟨hjob, rfl⟩ := change_allow.1 hallow
  have hstays := hbefore.allowed rfl fun other hin =>
    (hother other (List.mem_append_left _ hin)).trans hjob.symm
  have hdeleted := (change_block.1 hchange).1.2 (hstays.2.trans hjob)
  rw [hstays.1] at hdeleted
  cases hdeleted

/-! ### Two jobs take turns -/

def idleLocal : Local := ⟨0, false, none, 0, [], none⟩

/-- A scope without a fence and without objects. -/
def newWorld : World := ⟨.absent, .missing, ⟨[], 0⟩, fun _ => idleLocal, 0⟩

/-- The thread takes so many steps, and nothing fails. -/
def turns (i n : Nat) : List (Nat × Choice) := List.replicate n (i, .plain)

def twoJobs : List Call :=
  [.block 0 ['a'], .allow 0 ['a'], .block 0 ['b'], .allow 0 ['b'], .block 0 ['a']]

theorem not_stored_of_threads {i : Nat} {u : Update} {t : List (Step ops)}
    (h : i ∉ t.map (·.thread)) : ¬ Stored i u t := by
  rintro ⟨step, hstep, rfl, -⟩
  exact h (List.mem_map.2 ⟨step, hstep, rfl⟩)

/-- The fence remembers only the last job, so the retired job blocks again. -/
theorem retired_job_blocks_again : ∃ pool pool',
    (start true [] newWorld twoJobs).run exec (turns 0 7 ++ turns 1 5) = some pool ∧
      pool.run exec (turns 2 5 ++ turns 3 5 ++ turns 4 5) = some pool' ∧
      pool.progs[1]? = some (.ret (.ok ())) ∧ ¬ Stored 4 (.block ['a']) pool.state.trace ∧
      pool'.progs[4]? = some (.ret (.ok ())) := by
  refine ⟨_, _, rfl, rfl, rfl, ?_, rfl⟩
  apply not_stored_of_threads
  decide

/-- `AllowResource` retires its job: as long as no other job blocks the scope after it, no
`BlockResource` of the job that takes effect later succeeds. The epoch of the fence never
goes down. -/
theorem block_after_allow {kind : Bool} {scope : Key} {w : World} {calls : List Call}
    {schedule later : List (Nat × Choice)} {pool pool' : Pool ops World (Res Unit)}
    (hrun : (start kind scope w calls).run exec schedule = some pool)
    (hlater : pool.run exec later = some pool') :
    (∀ (x y m m' : Nat) (job : Str), calls[x]? = some (.allow m job) → pool.progs[x]? = some (.ret (.ok ())) →
      calls[y]? = some (.block m' job) → ¬ Stored y (.block job) pool.state.trace →
      (∀ us vs, updates pool'.state.trace = us ++ .allow job :: vs →
        ∀ other, .block other ∈ vs → other = job) →
      pool'.progs[y]? ≠ some (.ret (.ok ()))) ∧
    ∀ f tag f' tag', pool.state.shared.fence.cur = some (some f, tag) →
      pool'.state.shared.fence.cur = some (some f', tag') → f.epoch ≤ f'.epoch := by
  obtain ⟨hs, hongoing⟩ := ongoing_start.run hrun
  obtain ⟨hs', hongoing'⟩ := hongoing.run hlater
  have hinv := hs.inv inv_start
  have hinv' := hs'.inv hinv
  obtain ⟨rest, hrest⟩ := hs'.trace
  refine ⟨?_, fun f tag f' tag' hcur hcur' => ?_⟩
  · intro x y m m' job hx hallowed hy hnot hother hblocked
    have hallow : Stored x (.allow job) pool.state.trace :=
      (hongoing.promise hx hallowed rfl).1 _ rfl
    obtain ⟨step, hstep, hthread, hblock⟩ : Stored y (.block job) pool'.state.trace :=
      (hongoing'.promise hy hblocked rfl).1 _ rfl
    obtain ⟨us, vs, hsplit⟩ := List.append_of_mem hallow.mem_updates
    have hall : updates pool'.state.trace = us ++ .allow job :: (vs ++ updates rest) := by
      rw [← hrest, updates_append, hsplit, List.append_assoc, List.cons_append]
    have hmem : .block job ∈ vs ++ updates rest := by
      rw [← hrest] at hstep
      rcases List.mem_append.1 hstep with hin | hin
      · exact absurd ⟨step, hin, hthread, hblock⟩ hnot
      · exact List.mem_append_right _ (List.mem_filterMap.2 ⟨step, hin, hblock⟩)
    have hin : Update.allow job ∈ updates pool'.state.trace := by
      rw [hall]
      exact List.mem_append_right _ List.mem_cons_self
    obtain ⟨f, tag, -, hreach⟩ := hinv'.reaches hin
    rw [hall] at hreach
    exact hreach.superseded (hother _ _ hall) hmem
  · have hreach := hinv.reached f tag hcur
    have hreach' := hinv'.reached f' tag' hcur'
    rw [← hrest, updates_append] at hreach'
    obtain ⟨g, hg, hrest⟩ := reaches_append.1 hreach'
    rw [hreach.unique hg]
    exact hrest.epoch_le

/-- A job that blocks again after its allow is refused. -/
theorem block_after_allow_refused : ∃ pool pool',
    (start true [] newWorld [.block 0 ['a'], .allow 0 ['a'], .block 0 ['a']]).run exec
        (turns 0 7 ++ turns 1 5) = some pool ∧
      pool.run exec (turns 2 3) = some pool' ∧ pool'.progs[2]? ≠ some (.ret (.ok ())) := by
  refine ⟨_, _, rfl, rfl, ?_⟩
  have hretired := @block_after_allow true [] newWorld
    [.block 0 ['a'], .allow 0 ['a'], .block 0 ['a']] (turns 0 7 ++ turns 1 5) (turns 2 3) _ _ rfl rfl
  refine hretired.1 1 2 0 0 ['a'] rfl rfl rfl ?_ ?_
  · apply not_stored_of_threads
    decide
  · intro us vs hsplit other hin
    have hmem := List.mem_append_right us (List.mem_cons_of_mem (.allow ['a']) hin)
    rw [← hsplit] at hmem
    have hlog : ∀ u ∈ [Update.block ['a'], .allow ['a']], u = .block other → other = ['a'] := by
      intro u hu
      fin_cases hu
      · intro heq
        cases heq
        rfl
      · intro heq
        cases heq
    exact hlog _ hmem rfl

end CellHive.Fencing
