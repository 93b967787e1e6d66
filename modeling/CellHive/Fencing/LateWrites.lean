import CellHive.Fencing.Runs

/-!
# Writes behind a fence

A write that stores its object after the resource was blocked must not be acknowledged. The
check behind the put closes the window between the guard and the put only if it reads the
bucket: `late_write_refused`. A manager that cached the absent fence less than a second ago, or
that waits for a read begun before the block, acknowledges the write (`late_write_acknowledged`).
-/

namespace CellHive.Fencing

open Go Ltx Bucket Concurrent Replica

/-! ## A blocked fence stays closed -/

theorem Reaches.jobID_ne_of_block {base f : Fence} {us : List Update} {job : Str}
    (h : Reaches base us f) (hnamed : ∀ u ∈ us, u.Named) (hblock : .block job ∈ us) :
    f.jobID ≠ [] := by
  obtain ⟨before, after, rfl⟩ := List.append_of_mem hblock
  obtain ⟨g, -, hrest⟩ := reaches_append.1 h
  obtain ⟨g', hchange, hrest⟩ := reaches_cons.1 hrest
  apply hrest.jobID_ne fun u hu => hnamed u (List.mem_append_right _ (List.mem_cons_of_mem _ hu))
  rw [(change_block.1 hchange).2]
  exact hnamed _ hblock

theorem Inv.named {kind : Bool} {base : Fence} {s : Traced ops World} (h : Inv kind base s) :
    ∀ u ∈ updates s.trace, u.Named := by
  intro u hu
  obtain ⟨step, hstep, hstored⟩ := List.mem_filterMap.1 hu
  obtain ⟨⟨u', f⟩, hby, rfl⟩ := Option.map_eq_some_iff.1 hstored
  obtain ⟨before, after, hsplit⟩ := List.append_of_mem hstep
  exact (h.stored before step after u' f hsplit hby).2

theorem blocks_of_le {f : Fence} {epoch : UInt64} (hjob : f.jobID ≠ []) (hle : epoch ≤ f.epoch) :
    f.blocks epoch = true := by
  unfold Fence.blocks
  rw [Bool.or_eq_true, Bool.and_eq_true]
  exact .inr ⟨decide_eq_true hjob, decide_eq_true hle⟩

/-! ## The window -/

def Created (i : Nat) (steps : List (Step ops)) : Prop :=
  ∃ key data tag, (⟨i, .create key data, Except.ok tag⟩ : Step ops) ∈ steps

def lateSegment : Bytes :=
  encode { version := 0, kind := kindDelta, flags := 0, epoch := 3, startTxID := 1, endTxID := 1,
           length := 0, crc := 0 } []

/-- A scope whose absent fence manager 0 has just read. -/
def cachedWorld : World where
  fence := Versioned.absent.store (some {})
  legacy := .missing
  objects := ⟨[], 0⟩
  locals := fun m => if m = 0 then { idleLocal with cachedAt := some 0 } else idleLocal
  clock := 0

/-- Manager 0 appends while manager 1 deletes the resource up to epoch 5. -/
def deletion : List Call :=
  [.append 0 1 3 lateSegment, .block 1 ['j'], .fence 1 ['j'] 5, .block 1 ['j']]

/-- The append passes its guard, the resource is blocked, and the append still succeeds. -/
theorem late_write_acknowledged : ∃ pool pool' rest f tag,
    (start true [] cachedWorld deletion).run exec
        (turns 0 2 ++ turns 1 5 ++ turns 2 5 ++ turns 3 5) = some pool ∧
      pool.run exec (turns 0 3) = some pool' ∧ pool.progs[3]? = some (.ret (.ok ())) ∧
      pool.state.shared.fence.cur = some (some f, tag) ∧ 3 ≤ f.epoch ∧
      pool'.state.trace = pool.state.trace ++ rest ∧ Created 0 rest ∧
      pool'.progs[0]? = some (.ret (.ok ())) := by
  refine ⟨_, _, _, _, _, rfl, rfl, rfl, rfl, by decide, rfl, ?_, rfl⟩
  exact ⟨_, _, _, List.mem_cons_self⟩

/-- Once a block of the scope is stored, no write to an epoch the fence covers that stores its
object afterwards succeeds, if the checks of the writes behind their puts read the bucket. -/
theorem late_write_refused {scope : Key} {w : World} {calls : List Call}
    {schedule later : List (Nat × Choice)} {pool pool' : Pool ops World (Res Unit)}
    (hrun : (start true scope w calls).run exec schedule = some pool)
    (hlater : pool.run exec later = some pool')
    (hfresh : ∀ i call, calls[i]? = some call → call.writes ≠ none →
      Unshared i pool'.state.trace)
    {job : Str} {f : Fence} {tag : Nat} (hblock : .block job ∈ updates pool.state.trace)
    (hcur : pool.state.shared.fence.cur = some (some f, tag)) {i : Nat} {call : Call}
    {epoch : UInt64} (hcall : calls[i]? = some call) (hwrites : call.writes = some epoch)
    (hepoch : epoch ≤ f.epoch) {rest : List (Step ops)}
    (hrest : pool'.state.trace = pool.state.trace ++ rest) (hcreated : Created i rest) :
    pool'.progs[i]? ≠ some (.ret (.ok ())) := by
  intro hok
  obtain ⟨hs, hongoing⟩ := ongoing_start.run hrun
  obtain ⟨hs', hongoing'⟩ := hongoing.run hlater
  have hinv := hs.inv inv_start
  have hinv' := hs'.inv hinv
  have hunshared := hfresh i call hcall (by rw [hwrites]; exact Option.some_ne_none epoch)
  obtain ⟨t, g, ⟨after, hafter, hidle⟩, hreach, hopen⟩ :=
    (hongoing'.promise hcall hok rfl).2 epoch hwrites rfl hunshared
  have hcompare : t <+: pool.state.trace ∨ pool.state.trace <+: t :=
    List.prefix_or_prefix_of_prefix ⟨after, hafter.symm⟩ ⟨rest, hrest.symm⟩
  rcases hcompare with ⟨mid, hmid⟩ | ⟨mid, hmid⟩
  · -- the fence was seen before the block, so the create came after that
    obtain ⟨key, data, n, hstep⟩ := hcreated
    have hsame : after = mid ++ rest := by
      rw [hrest, ← hmid, List.append_assoc] at hafter
      exact (List.append_cancel_left hafter).symm
    have hno := hidle _ (hsame ▸ List.mem_append_right mid hstep) rfl
    cases hno
  · -- the fence that was seen is the blocked one or a later one
    rw [← hmid, updates_append] at hreach
    obtain ⟨f', hf', hlate⟩ := reaches_append.1 hreach
    rw [(hinv.reached f tag hcur).unique hf'] at hepoch
    have hnamed : ∀ u ∈ updates pool.state.trace ++ updates mid, u.Named := by
      intro u hu
      apply hinv'.named u
      have htrace : pool'.state.trace = (pool.state.trace ++ mid) ++ after := by rw [hmid, hafter]
      rw [htrace, updates_append, updates_append]
      exact List.mem_append_left _ hu
    have hjob := hreach.jobID_ne_of_block hnamed (List.mem_append_left _ hblock)
    have hblocks := blocks_of_le hjob (UInt64.le_trans hepoch hlate.epoch_le)
    rw [hblocks] at hopen
    cases hopen

/-- Without the cached fence the append of the same deletion is refused. -/
theorem late_write_refused_uncached : ∃ pool pool',
    (start true [] { cachedWorld with locals := fun _ => idleLocal } deletion).run exec
        (turns 0 2 ++ turns 1 5 ++ turns 2 5 ++ turns 3 5) = some pool ∧
      pool.run exec (turns 0 7) = some pool' ∧ pool'.progs[0]? ≠ some (.ret (.ok ())) := by
  refine ⟨_, _, rfl, rfl, ?_⟩
  refine @late_write_refused [] { cachedWorld with locals := fun _ => idleLocal } deletion
    (turns 0 2 ++ turns 1 5 ++ turns 2 5 ++ turns 3 5) (turns 0 7) _ _ rfl rfl ?_ ['j'] _ _
    (List.mem_cons_self) rfl 0 _ 3 rfl rfl (by decide) _ rfl ⟨_, _, _, List.mem_cons_self⟩
  intro i call hcall hwrites
  have hone : i = 0 := by
    match i, hcall with
    | 0, _ => rfl
    | 1, hcall => cases hcall; exact absurd rfl hwrites
    | 2, hcall => cases hcall; exact absurd rfl hwrites
    | 3, hcall => cases hcall; exact absurd rfl hwrites
    | _ + 4, hcall => cases hcall
  subst hone
  have hall : ∀ t : List (Step ops), (t.all fun step => step.thread ≠ 0 || !sharedLookup step) = true →
      Unshared 0 t := by
    intro t ht step hstep hthread
    have hthis := List.all_eq_true.1 ht step hstep
    simpa [hthread] using hthis
  exact hall _ rfl

end CellHive.Fencing
