import CellHive.Owner.ClaimSpec

/-!
# The order of owner epochs

A claim that replaces a record writes a higher epoch than the record had. A claim that
creates a record may have been overtaken: a claim that bumped the generation after it
may already have written its record, and a release may have deleted that record again.
`published_increasing_iff` says that the epochs written by claims increase exactly in
the runs where no creating claim was overtaken.
-/

namespace CellHive.Owner

open Go Concurrent

/-- Managers about to make some calls on a scope that was never claimed. -/
def start (calls : List Call) : Pool ops World Unit :=
  ⟨⟨World.unclaimed, []⟩, calls.map Call.prog⟩

/-- A claim that took generation `e` was overtaken: a claim that bumped the generation
after it has already written its record. -/
def Overtaken (l : List Entry) (e : UInt64) : Prop :=
  ∃ before after i j e', l = before ++ (i, .bumped e) :: after ∧ (j, .bumped e') ∈ after ∧
    e' ∈ published l

theorem inv_unclaimed : Inv ⟨World.unclaimed, []⟩ := fun _ =>
  { bumps_increase := .nil
    gen_last := fun _ => nofun
    gen_none := fun _ => rfl
    owner_last := fun _ => nofun
    taken := fun before after i ev e h => by simp [log] at h
    replaced_lt := fun before after i e h => by simp [log] at h
    once := .nil }

theorem inv_run {calls : List Call} {schedule : List (Nat × Choice)} {pool : Pool ops World Unit}
    (h : (start calls).run exec schedule = some pool) : Inv pool.state := by
  refine (Pool.run_evolves (R := Evolves) (fun _ _ _ => Evolves.trans) Evolves.refl ?_ h).inv inv_unclaimed
  intro i p hp
  rw [start, List.getElem?_map, Option.map_eq_some_iff] at hp
  obtain ⟨call, -, rfl⟩ := hp
  exact spec_call inv_unclaimed nofun

section Order

variable {w : World} {l before after : List Entry} {i : Nat} {e : UInt64}

theorem Sound.bump_lt (h : Sound w l) {rest : List Entry} {j : Nat} {e' : UInt64}
    (hl : l = before ++ (i, .bumped e) :: after ++ rest) (hj : (j, .bumped e') ∈ after) :
    e < e' := by
  have hinc := h.bumps_increase
  rw [hl, bumps_append, bumps_append, List.pairwise_append, List.pairwise_append] at hinc
  exact List.rel_of_pairwise_cons hinc.1.2.1 (mem_bumps.2 ⟨j, hj⟩)

theorem Sound.publisher {l' : List Entry} (h : Sound w l) (hp : l' <+: l) (he : e ∈ published l') :
    ∃ j, j ∈ publishers l' ∧ (j, .bumped e) ∈ l' := by
  obtain ⟨j, ev, hmem, hev⟩ := mem_published.1 he
  obtain ⟨rest, rfl⟩ := hp
  obtain ⟨before, after, rfl⟩ := List.append_of_mem hmem
  refine ⟨j, mem_publishers_of_mem hmem hev, List.mem_append_left _ ?_⟩
  exact h.taken before (after ++ rest) j ev e (by simp) hev

theorem Sound.created_gt (h : Sound w l) (hl : l = before ++ (i, .created e) :: after)
    (hno : ¬ Overtaken before e) : ∀ e' ∈ published before, e' < e := by
  intro e' he'
  have hp : before <+: l := ⟨_, hl.symm⟩
  obtain ⟨j, hj, hbump'⟩ := h.publisher hp he'
  have hbump := h.taken before after i _ e hl (.inl rfl)
  obtain ⟨b, a, hsplit⟩ := List.append_of_mem hbump
  rw [hsplit, List.mem_append, List.mem_cons] at hbump'
  rcases hbump' with hmem | heq | hmem
  · obtain ⟨b₁, b₂, rfl⟩ := List.append_of_mem hmem
    refine @Sound.bump_lt w l b₁ (b₂ ++ (i, .bumped e) :: a) j e' h ((i, .created e) :: after) i e
      ?_ (by simp)
    rw [hl, hsplit]
    simp
  · -- the same generation: its claim would have written twice
    cases heq
    have honce := h.once
    rw [hl, publishers_append, List.nodup_append] at honce
    exact absurd rfl (honce.2.2 i hj i List.mem_cons_self)
  · exact absurd ⟨b, a, i, j, e', hsplit, hmem, he'⟩ hno

theorem Sound.increasing_of_not_overtaken (h : Sound w l)
    (hno : ∀ before after i e, l = before ++ (i, .created e) :: after → ¬ Overtaken before e)
    {l' : List Entry} (hp : l' <+: l) : (published l').Pairwise (· < ·) := by
  induction l' using List.reverseRecOn with
  | nil => exact .nil
  | append_singleton l₀ entry ih =>
    have ih := ih ((List.prefix_append _ _).trans hp)
    obtain ⟨i, ev⟩ := entry
    obtain ⟨rest, hl⟩ := hp
    have hl : l = l₀ ++ (i, ev) :: rest := by rw [← hl, List.append_assoc]; rfl
    have hconcat : ∀ e, (∀ e' ∈ published l₀, e' < e) →
        (published l₀ ++ [e]).Pairwise (· < ·) := fun e hlt =>
      List.pairwise_append.2 ⟨ih, List.pairwise_singleton _ _, fun e' he' x hx => by
        rw [List.mem_singleton.1 hx]
        exact hlt e' he'⟩
    rw [published_append]
    cases ev with
    | bumped e =>
      rw [show published [(i, .bumped e)] = [] from rfl, List.append_nil]
      exact ih
    | created e => exact hconcat e (h.created_gt hl (hno l₀ rest i e hl))
    | replaced e =>
      obtain ⟨p, hlast, hlt⟩ := h.replaced_lt l₀ rest i e hl
      refine hconcat e (lt_of_getLast? ih fun g hg => ?_)
      rw [hlast] at hg
      cases hg
      exact hlt

theorem Sound.not_overtaken_of_increasing (h : Sound w l) (hinc : (published l).Pairwise (· < ·))
    (hl : l = before ++ (i, .created e) :: after) : ¬ Overtaken before e := by
  rintro ⟨b, a, j, k, e', rfl, hmem, he'⟩
  have hlt : e < e' := h.bump_lt hl hmem
  rw [hl, published_append, List.pairwise_append] at hinc
  have hgt : e' < e := hinc.2.2 e' he' e List.mem_cons_self
  exact UInt64.lt_irrefl e (UInt64.lt_trans hlt hgt)

end Order

/-- In every run of any calls, the epochs that claims wrote increase exactly when no claim
that created a record was overtaken. -/
theorem published_increasing_iff {calls : List Call} {schedule : List (Nat × Choice)}
    {pool : Pool ops World Unit} (h : (start calls).run exec schedule = some pool)
    (hbound : Bounded (log pool.state.trace)) :
    (published (log pool.state.trace)).Pairwise (· < ·) ↔
      ∀ before after i e, log pool.state.trace = before ++ (i, .created e) :: after →
        ¬ Overtaken before e := by
  have hs := inv_run h hbound
  constructor
  · intro hinc before after i e hl
    exact hs.not_overtaken_of_increasing hinc hl
  · intro hno
    exact hs.increasing_of_not_overtaken hno (List.prefix_refl _)

/-- No two claims write the same epoch, overtaken or not. -/
theorem published_nodup {calls : List Call} {schedule : List (Nat × Choice)}
    {pool : Pool ops World Unit} (h : (start calls).run exec schedule = some pool)
    (hbound : Bounded (log pool.state.trace)) : (published (log pool.state.trace)).Nodup := by
  have hs := inv_run h hbound
  have hbumps := List.pairwise_filterMap.1 (hs.bumps_increase.imp UInt64.ne_of_lt)
  have htaken : ∀ x ∈ log pool.state.trace, ∀ e, x.2.written = some e →
      (x.1, .bumped e) ∈ log pool.state.trace := by
    rintro ⟨i, ev⟩ hx e he
    obtain ⟨before, after, hl⟩ := List.append_of_mem hx
    rw [hl]
    refine List.mem_append_left _ (hs.taken before after i ev e hl ?_)
    cases ev <;> simp_all [Event.written]
  refine List.pairwise_filterMap.2 ((List.pairwise_filterMap.1 hs.once).imp_of_mem ?_)
  rintro x y hx hy hne e he _ he' rfl
  -- two threads would have taken the same generation
  have hapart : x.1 ≠ y.1 := hne x.1 (by simp [he]) y.1 (by simp [he'])
  refine @List.Pairwise.forall _ _ _ ⟨fun _ _ hab u hu v hv => (hab v hv u hu).symm⟩ hbumps
    _ (htaken x hx e he) _ (htaken y hy e he') ?_ e rfl e rfl rfl
  simp [hapart]

/-! ## An overtaken claim -/

def managerOf (n : Nat) (node : String) : Manager where
  number := n
  nodeID := node
  session := "s"
  advertise := ""
  adminAdvertise := ""
  role := .cellAgent
  ownerTTL := 30000
  leaseView := true
  hasBeforeTakeover := false
  hasBeforeRelease := false

/-- Two nodes claim the scope, the second one releases it. -/
def overtakingCalls : List Call :=
  [.claimWithReset (managerOf 0 "a") 0 false, .claimWithReset (managerOf 1 "b") 0 false,
    .release (managerOf 1 "b") 2 false]

/-- The first claim takes generation 1 and stops. The second claims with generation 2 and
releases. Then the first claim creates its record. -/
def overtakingSchedule : List (Nat × Choice) :=
  ([0, 0, 0, 0, 1, 1, 1, 1, 1, 1, 2, 2, 0] : List Nat).map (·, .proceed true)

theorem overtaking_run :
    ∃ pool, (start overtakingCalls).run exec overtakingSchedule = some pool ∧
      log pool.state.trace =
        [(0, .bumped 1), (1, .bumped 2), (1, .created 2), (0, .created 1)] ∧
      Bounded (log pool.state.trace) := by
  have hlog : ((start overtakingCalls).run exec overtakingSchedule).map
      (fun pool => log pool.state.trace) =
      some [(0, .bumped 1), (1, .bumped 2), (1, .created 2), (0, .created 1)] := by
    decide +kernel
  obtain ⟨pool, hpool, hlog⟩ := Option.map_eq_some_iff.1 hlog
  refine ⟨pool, hpool, hlog, ?_⟩
  rw [hlog]
  intro e he
  rcases List.mem_cons.1 he with rfl | he
  · decide
  · rw [List.mem_singleton.1 he]
    decide

/-- Epoch 1 is written after epoch 2. -/
theorem claim_writes_lower_epoch :
    ∃ pool, (start overtakingCalls).run exec overtakingSchedule = some pool ∧
      Bounded (log pool.state.trace) ∧ published (log pool.state.trace) = [2, 1] ∧
      ¬ (published (log pool.state.trace)).Pairwise (· < ·) := by
  obtain ⟨pool, hpool, hlog, hbound⟩ := overtaking_run
  refine ⟨pool, hpool, hbound, ?_⟩
  rw [hlog]
  exact ⟨rfl, by decide⟩

theorem published_increasing_iff_overtaking :
    ∃ pool, (start overtakingCalls).run exec overtakingSchedule = some pool ∧
      Bounded (log pool.state.trace) ∧
      ((published (log pool.state.trace)).Pairwise (· < ·) ↔
        ∀ before after i e, log pool.state.trace = before ++ (i, .created e) :: after →
          ¬ Overtaken before e) := by
  obtain ⟨pool, hpool, -, hbound⟩ := overtaking_run
  exact ⟨pool, hpool, hbound, published_increasing_iff hpool hbound⟩

theorem published_nodup_overtaking :
    ∃ pool, (start overtakingCalls).run exec overtakingSchedule = some pool ∧
      Bounded (log pool.state.trace) ∧ (published (log pool.state.trace)).Nodup := by
  obtain ⟨pool, hpool, -, hbound⟩ := overtaking_run
  exact ⟨pool, hpool, hbound, published_nodup hpool hbound⟩

end CellHive.Owner
