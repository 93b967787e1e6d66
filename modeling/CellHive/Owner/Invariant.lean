import CellHive.Owner.Claim

/-!
# The invariant of a scope

The log of a run lists the generation bumps and the owner records that claims wrote,
with the thread of each. `Sound` relates it to the two objects of the scope: the
generation object is the last bump, bumps grow, an owner record has the epoch that was
written last, and every written epoch was taken from the generation by the same thread
before. Every operation of a manager preserves it (`Evolves`).
-/

namespace CellHive.Owner

open Go Concurrent

/-! ## The log -/

inductive Event where
  /-- The generation was set to this value. -/
  | bumped (epoch : UInt64)
  /-- A claim created the owner record with this epoch. -/
  | created (epoch : UInt64)
  /-- A claim replaced the owner record by one with this epoch. -/
  | replaced (epoch : UInt64)
  deriving DecidableEq, Repr

/-- A log entry: a thread and what it did. -/
abbrev Entry := Nat × Event

/-- A successful bump, or a successful write of a claim. -/
def entryOf (step : Step ops) : Option Entry :=
  match step.op, step.reply with
  | .createGen next, .ok _ => some (step.thread, .bumped next)
  | .casGen next _, .ok _ => some (step.thread, .bumped next)
  | .createOwner o, .ok _ => some (step.thread, .created o.epoch)
  | .casOwner true o _, .ok _ => some (step.thread, .replaced o.epoch)
  | _, _ => none

def log (trace : List (Step ops)) : List Entry := trace.filterMap entryOf

/-- The generation values of a log, in order. -/
def bumps (log : List Entry) : List UInt64 :=
  log.filterMap fun entry =>
    match entry.2 with
    | .bumped e => some e
    | _ => none

/-- The epoch of a record that a claim wrote. -/
def Event.written : Event → Option UInt64
  | .created e => some e
  | .replaced e => some e
  | .bumped _ => none

/-- The epochs that claims wrote, in order. -/
def published (log : List Entry) : List UInt64 := log.filterMap fun entry => entry.2.written

def publishers (log : List Entry) : List Nat :=
  log.filterMap fun entry => entry.2.written.map fun _ => entry.1

/-- No generation value is the largest 64-bit number. -/
def Bounded (log : List Entry) : Prop := ∀ e ∈ bumps log, e.toNat < 2 ^ 64 - 1

section Log

variable {l l' : List Entry} {e : UInt64} {i : Nat}

@[simp] theorem bumps_append : bumps (l ++ l') = bumps l ++ bumps l' := List.filterMap_append

@[simp] theorem published_append : published (l ++ l') = published l ++ published l' :=
  List.filterMap_append

@[simp] theorem publishers_append : publishers (l ++ l') = publishers l ++ publishers l' :=
  List.filterMap_append

theorem mem_bumps : e ∈ bumps l ↔ ∃ i, (i, .bumped e) ∈ l := by
  rw [bumps, List.mem_filterMap]
  constructor
  · rintro ⟨⟨i, ev⟩, hmem, hev⟩
    cases ev with
    | bumped e' =>
      obtain rfl : e' = e := Option.some.inj hev
      exact ⟨i, hmem⟩
    | created | replaced => cases hev
  · rintro ⟨i, hmem⟩
    exact ⟨_, hmem, rfl⟩

theorem mem_published :
    e ∈ published l ↔ ∃ i ev, (i, ev) ∈ l ∧ (ev = .created e ∨ ev = .replaced e) := by
  rw [published, List.mem_filterMap]
  constructor
  · rintro ⟨⟨i, ev⟩, hmem, hev⟩
    cases ev with
    | bumped e' => cases hev
    | created e' =>
      obtain rfl : e' = e := Option.some.inj hev
      exact ⟨i, _, hmem, .inl rfl⟩
    | replaced e' =>
      obtain rfl : e' = e := Option.some.inj hev
      exact ⟨i, _, hmem, .inr rfl⟩
  · rintro ⟨i, ev, hmem, rfl | rfl⟩
    · exact ⟨_, hmem, rfl⟩
    · exact ⟨_, hmem, rfl⟩

theorem mem_publishers_of_mem {ev : Event} (h : (i, ev) ∈ l)
    (hev : ev = .created e ∨ ev = .replaced e) : i ∈ publishers l := by
  rw [publishers, List.mem_filterMap]
  rcases hev with rfl | rfl <;> exact ⟨_, h, rfl⟩

theorem Bounded.of_isPrefix (h : Bounded l') (hp : l <+: l') : Bounded l := by
  obtain ⟨rest, rfl⟩ := hp
  intro e he
  exact h e (by rw [bumps_append]; exact List.mem_append_left _ he)

theorem split_concat {before after : List Entry} {x y : Entry}
    (h : l ++ [x] = before ++ y :: after) :
    (x = y ∧ before = l) ∨ ∃ after', l = before ++ y :: after' := by
  rcases List.eq_nil_or_concat' after with rfl | ⟨after', z, rfl⟩
  · exact .inl ⟨List.singleton_inj.1 (List.append_inj_right' h rfl),
      (List.append_inj_left' h rfl).symm⟩
  · have h' : l ++ [x] = (before ++ y :: after') ++ [z] := by
      rw [h, List.append_assoc, List.cons_append]
    exact .inr ⟨after', List.append_inj_left' h' rfl⟩

end Log

/-! ## Soundness -/

/-- What holds of the objects of a scope and its log at every moment. -/
structure Sound (w : World) (l : List Entry) : Prop where
  /-- The generation only grows. -/
  bumps_increase : (bumps l).Pairwise (· < ·)
  /-- The generation object is the last value it was set to. -/
  gen_last : ∀ x ∈ w.gen.cur, ∃ g, x.1 = formatUint g.toNat ∧ (bumps l).getLast? = some g
  /-- Without a generation object there was no bump. -/
  gen_none : w.gen.cur = none → bumps l = []
  /-- The owner record is the last one a claim wrote, up to renewals. -/
  owner_last : ∀ x ∈ w.owner.cur, (published l).getLast? = some x.1.epoch
  /-- A written epoch was taken from the generation before, by the same thread. -/
  taken : ∀ before after i ev e, l = before ++ (i, ev) :: after →
    (ev = .created e ∨ ev = .replaced e) → (i, .bumped e) ∈ before
  /-- A replaced record had a lower epoch. -/
  replaced_lt : ∀ before after i e, l = before ++ (i, .replaced e) :: after →
    ∃ p, (published before).getLast? = some p ∧ p < e
  /-- A thread writes at most one record. -/
  once : (publishers l).Nodup

theorem Sound.bumps_of_published {w : World} {l : List Entry} (h : Sound w l) {e : UInt64}
    (he : e ∈ published l) : e ∈ bumps l := by
  obtain ⟨i, ev, hmem, hev⟩ := mem_published.1 he
  obtain ⟨before, after, rfl⟩ := List.append_of_mem hmem
  exact mem_bumps.2 ⟨i, List.mem_append_left _ (h.taken before after i ev e rfl hev)⟩

/-- The scope and its log are sound, as long as generations stay below the largest
number. -/
def Inv (s : Traced ops World) : Prop := Bounded (log s.trace) → Sound s.shared (log s.trace)

/-- How any operation of a manager moves the scope. -/
structure Evolves (s s' : Traced ops World) : Prop where
  log : log s.trace <+: log s'.trace
  owner : s.shared.owner.Later s'.shared.owner
  gen : s.shared.gen.Later s'.shared.gen
  inv : Inv s → Inv s'

theorem Evolves.refl (s : Traced ops World) : Evolves s s :=
  ⟨List.prefix_refl _, .refl _, .refl _, id⟩

theorem Evolves.trans {s₁ s₂ s₃ : Traced ops World} (h : Evolves s₁ s₂) (h' : Evolves s₂ s₃) :
    Evolves s₁ s₃ :=
  ⟨h.log.trans h'.log, h.owner.trans h'.owner, h.gen.trans h'.gen, h'.inv ∘ h.inv⟩

/-! ## What each write preserves -/

section Writes

variable {s : Traced ops World} {i : Nat} {op : Op} {r : Reply op}

theorem log_push {x : World} :
    log (s.push i op r x).trace = log s.trace ++ (entryOf ⟨i, op, r⟩).toList := by
  exact List.filterMap_append

theorem lt_of_getLast? {xs : List UInt64} {x : UInt64} (hxs : xs.Pairwise (· < ·))
    (hlast : ∀ g ∈ xs.getLast?, g < x) : ∀ g ∈ xs, g < x := by
  intro g hg
  rcases List.eq_nil_or_concat' xs with rfl | ⟨ys, y, rfl⟩
  · cases hg
  · have hy : y < x := hlast y (by rw [List.getLast?_concat]; rfl)
    rcases List.mem_append.1 hg with hg | hg
    · exact UInt64.lt_trans ((List.pairwise_append.1 hxs).2.2 g hg y (List.mem_singleton_self y)) hy
    · rw [List.mem_singleton.1 hg]
      exact hy

theorem evolves_bump {next : UInt64} (hentry : entryOf ⟨i, op, r⟩ = some (i, .bumped next))
    (hlt : Bounded (log s.trace) → Sound s.shared (log s.trace) →
      ∀ g ∈ (bumps (log s.trace)).getLast?, g < next) :
    Evolves s (s.push i op r
      { s.shared with gen := s.shared.gen.store (formatUint next.toNat) }) := by
  have hlog : ∀ x, log (s.push i op r x).trace = log s.trace ++ [(i, .bumped next)] := fun x => by
    rw [log_push, hentry]
    rfl
  refine ⟨?_, .refl _, Versioned.later_store _ _, fun hinv hbound => ?_⟩
  · rw [hlog]
    exact List.prefix_append _ _
  rw [hlog] at hbound ⊢
  have hb : Bounded (log s.trace) := hbound.of_isPrefix (List.prefix_append _ _)
  have hs := hinv hb
  have hbumps : bumps (log s.trace ++ [(i, .bumped next)]) = bumps (log s.trace) ++ [next] :=
    bumps_append
  constructor
  · rw [hbumps, List.pairwise_append]
    refine ⟨hs.bumps_increase, List.pairwise_singleton _ _, fun g hg x hx => ?_⟩
    rw [List.mem_singleton.1 hx]
    exact lt_of_getLast? hs.bumps_increase (hlt hb hs) g hg
  · intro x hx
    obtain rfl := Option.some.inj hx
    exact ⟨next, rfl, by rw [hbumps, List.getLast?_concat]⟩
  · intro h
    cases h
  · intro x hx
    rw [published_append, show published [(i, .bumped next)] = [] from rfl, List.append_nil]
    exact hs.owner_last x hx
  · intro before after j ev e h hev
    rcases split_concat h with ⟨hx, -⟩ | ⟨after', h⟩
    · rcases hev with rfl | rfl <;> cases hx
    · exact hs.taken before after' j ev e h hev
  · intro before after j e h
    rcases split_concat h with ⟨hx, -⟩ | ⟨after', h⟩
    · cases hx
    · exact hs.replaced_lt before after' j e h
  · rw [publishers_append, show publishers [(i, .bumped next)] = [] from rfl, List.append_nil]
    exact hs.once

/-- A claim writes a record with an epoch it took; it wrote none before. The entry says
whether there was a record, which then had a lower epoch. -/
theorem evolves_publish {o : Record} {ev : Event} (hentry : entryOf ⟨i, op, r⟩ = some (i, ev))
    (htaken : (i, .bumped o.epoch) ∈ log s.trace) (hfirst : i ∉ publishers (log s.trace))
    (hev : ev = .created o.epoch ∨ ev = .replaced o.epoch ∧
      (Bounded (log s.trace) → Sound s.shared (log s.trace) →
        ∃ p, (published (log s.trace)).getLast? = some p ∧ p < o.epoch)) :
    Evolves s (s.push i op r { s.shared with owner := s.shared.owner.store o }) := by
  have hlog : ∀ x, log (s.push i op r x).trace = log s.trace ++ [(i, ev)] := fun x => by
    rw [log_push, hentry]
    rfl
  refine ⟨?_, Versioned.later_store _ _, .refl _, fun hinv hbound => ?_⟩
  · rw [hlog]
    exact List.prefix_append _ _
  rw [hlog] at hbound ⊢
  have hb : Bounded (log s.trace) := hbound.of_isPrefix (List.prefix_append _ _)
  have hs := hinv hb
  have hbumps : bumps (log s.trace ++ [(i, ev)]) = bumps (log s.trace) := by
    rw [bumps_append]
    rcases hev with rfl | ⟨rfl, -⟩ <;> exact List.append_nil _
  have hpub : published (log s.trace ++ [(i, ev)]) = published (log s.trace) ++ [o.epoch] := by
    rw [published_append]
    rcases hev with rfl | ⟨rfl, -⟩ <;> rfl
  have hwho : publishers (log s.trace ++ [(i, ev)]) = publishers (log s.trace) ++ [i] := by
    rw [publishers_append]
    rcases hev with rfl | ⟨rfl, -⟩ <;> rfl
  constructor
  · rw [hbumps]
    exact hs.bumps_increase
  · rw [hbumps]
    exact hs.gen_last
  · rw [hbumps]
    exact hs.gen_none
  · intro x hx
    obtain rfl := Option.some.inj hx
    rw [hpub, List.getLast?_concat]
  · intro before after j ev' e h hev'
    rcases split_concat h with ⟨hx, rfl⟩ | ⟨after', h⟩
    · cases hx
      have he : e = o.epoch := by
        rcases hev with rfl | ⟨rfl, -⟩ <;> rcases hev' with hx | hx <;> cases hx <;> rfl
      rw [he]
      exact htaken
    · exact hs.taken before after' j ev' e h hev'
  · intro before after j e h
    rcases split_concat h with ⟨hx, rfl⟩ | ⟨after', h⟩
    · rcases hev with rfl | ⟨rfl, hlt⟩
      · cases hx
      · cases hx
        exact hlt hb hs
    · exact hs.replaced_lt before after' j e h
  · rw [hwho, List.nodup_append]
    refine ⟨hs.once, List.nodup_singleton i, fun j hj k hk => ?_⟩
    rw [List.mem_singleton.1 hk]
    rintro rfl
    exact hfirst hj

/-- An operation outside the log keeps the epoch of the record or removes it, and leaves
the generation alone. -/
theorem evolves_quiet {x : World} (hentry : entryOf ⟨i, op, r⟩ = none)
    (hgen : x.gen = s.shared.gen) (hlater : s.shared.owner.Later x.owner)
    (hepoch : ∀ y ∈ x.owner.cur, ∃ z ∈ s.shared.owner.cur, y.1.epoch = z.1.epoch) :
    Evolves s (s.push i op r x) := by
  have hlog : log (s.push i op r x).trace = log s.trace := by
    rw [log_push, hentry]
    exact List.append_nil _
  refine ⟨?_, hlater, ?_, fun hinv hbound => ?_⟩
  · rw [hlog]
  · show Versioned.Later _ x.gen
    rw [hgen]
    exact .refl _
  rw [hlog] at hbound ⊢
  have hs := hinv hbound
  refine ⟨hs.bumps_increase, ?_, ?_, fun y hy => ?_, hs.taken, hs.replaced_lt, hs.once⟩
  · show ∀ y ∈ x.gen.cur, _
    rw [hgen]
    exact hs.gen_last
  · show x.gen.cur = none → _
    rw [hgen]
    exact hs.gen_none
  · obtain ⟨z, hz, heq⟩ := hepoch y hy
    rw [heq]
    exact hs.owner_last z hz

end Writes

end CellHive.Owner
