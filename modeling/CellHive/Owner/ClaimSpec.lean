import CellHive.Owner.Invariant

/-!
# Claims keep the invariant

One specification for each operation of the scope and for each program of a manager: from
a sound scope it moves the scope along `Evolves`, whatever other managers do in
between. A claim takes its epoch from the generation before it writes, and a claim
that replaces a record knows which record it replaces.
-/

namespace CellHive.Owner

open Go Concurrent

/-! ## What each operation does -/

section Operations

variable {w w' : World} {c : Choice} {op : Op} {r : Reply op} {tag : Nat}

theorem exec_proceed {yes : Bool} : exec op (.proceed yes) w = effect yes w op := rfl

def Op.reads : Op → Bool
  | .getOwner | .getGen | .nodeLease _ | .hook _ => true
  | _ => false

theorem exec_reads (hop : op.reads = true) (h : exec op c w = some (r, w')) :
    w' = w := by
  cases c with
  | fault text =>
    obtain ⟨_, -, heq⟩ := Option.map_eq_some_iff.1 h
    exact (congrArg Prod.snd heq).symm
  | proceed yes =>
    cases op with
    | getOwner | getGen | nodeLease | hook => cases h; rfl
    | _ => cases hop

theorem getObject_eq_ok {α : Type} {v : Versioned α} {x : α × Nat} (h : getObject v = .ok x) :
    v.cur = some x := by
  unfold getObject at h
  split at h
  · cases h
  next hcur =>
  cases h
  exact hcur

theorem exec_getOwner {x : Record × Nat} (h : exec .getOwner c w = some (Except.ok x, w')) :
    w.owner.cur = some x := by
  cases c with
  | fault text => cases h
  | proceed yes => exact getObject_eq_ok (congrArg Prod.fst (Option.some.inj h))

theorem exec_getGen {x : Str × Nat} (h : exec .getGen c w = some (Except.ok x, w')) :
    w.gen.cur = some x := by
  cases c with
  | fault text => cases h
  | proceed yes => exact getObject_eq_ok (congrArg Prod.fst (Option.some.inj h))

/-- Operations that neither write a record nor the generation. -/
def Op.minor : Op → Bool
  | .touchOwner | .lockClaim _ | .unlockClaim _ => true
  | op => op.reads

/-- The conditional writes that store a new version. -/
inductive Wrote (w : World) : (op : Op) → Reply op → World → Prop
  | createOwner {o : Record} {v : Versioned Record} (h : w.owner.create o = some v) :
    Wrote w (.createOwner o) (.ok ()) { w with owner := v }
  | casOwner {claim : Bool} {o : Record} {tag : Nat} {v : Versioned Record}
    (h : w.owner.cas o tag = some v) : Wrote w (.casOwner claim o tag) (.ok ()) { w with owner := v }
  | deleteOwner {tag : Nat} {v : Versioned Record} (h : w.owner.delete tag = some v) :
    Wrote w (.deleteOwner tag) (.ok ()) { w with owner := v }
  | createGen {next : UInt64} {v : Versioned Str}
    (h : w.gen.create (formatUint next.toNat) = some v) :
    Wrote w (.createGen next) (.ok ()) { w with gen := v }
  | casGen {next : UInt64} {tag : Nat} {v : Versioned Str}
    (h : w.gen.cas (formatUint next.toNat) tag = some v) :
    Wrote w (.casGen next tag) (.ok ()) { w with gen := v }

/-- The others fail without effect. -/
theorem exec_write {i : Nat} (hop : op.minor = false)
    (h : exec op c w = some (r, w')) : (entryOf ⟨i, op, r⟩ = none ∧ w' = w) ∨ Wrote w op r w' := by
  cases op with
  | createOwner | casOwner | deleteOwner | createGen | casGen =>
    cases c with
    | fault text =>
      cases h
      exact .inl ⟨by unfold entryOf; split <;> first | rfl | contradiction, rfl⟩
    | proceed yes =>
      rw [exec_proceed, effect] at h
      split at h
      · cases h
        exact .inl ⟨by unfold entryOf; split <;> first | rfl | contradiction, rfl⟩
      · next v hv =>
        cases h
        refine .inr ?_
        constructor
        exact hv
  | _ => cases hop

/-- They leave the generation alone and keep the record, up to its tag. -/
theorem exec_minor (hop : op.minor = true) (h : exec op c w = some (r, w')) :
    w'.gen = w.gen ∧ w.owner.Later w'.owner ∧ w'.owner.cur.map (·.1) = w.owner.cur.map (·.1) := by
  have hsame : w' = w → _ := fun h => (h ▸ ⟨rfl, .refl _, rfl⟩ :
    w'.gen = w.gen ∧ w.owner.Later w'.owner ∧ w'.owner.cur.map (·.1) = w.owner.cur.map (·.1))
  by_cases hread : op.reads = true
  · exact hsame (exec_reads hread h)
  cases op with
  | touchOwner =>
    cases c with
    | fault text => cases h; exact hsame rfl
    | proceed yes =>
      cases h
      cases yes with
      | true => exact ⟨rfl, w.owner.later_retag, w.owner.retag_cur⟩
      | false => exact hsame rfl
  | lockClaim m =>
    cases c with
    | fault text => cases h; exact hsame rfl
    | proceed yes =>
      rw [exec_proceed, effect] at h
      split at h
      · cases h
      · cases h
        exact ⟨rfl, .refl _, rfl⟩
  | unlockClaim m =>
    cases c with
    | fault text => cases h
    | proceed yes =>
      cases h
      exact ⟨rfl, .refl _, rfl⟩
  | _ => exact absurd hop hread

theorem entryOf_minor {i : Nat} (hop : op.minor = true) :
    entryOf ⟨i, op, r⟩ = none := by
  cases op <;> first | rfl | cases hop

end Operations

/-! ## Programs -/

section Programs

variable {s s₀ : Traced ops World} {i : Nat}

/-- The thread wrote no record yet. -/
def Unwritten (i : Nat) (s : Traced ops World) : Prop := i ∉ publishers (log s.trace)

theorem entryOf_thread {step : Step ops} {entry : Entry} (h : entryOf step = some entry) :
    entry.1 = step.thread := by
  unfold entryOf at h
  split at h <;> cases h <;> rfl

theorem thread_of_mem_publishers {steps : List (Step ops)} (h : i ∈ publishers (log steps)) :
    ∃ x ∈ steps, x.thread = i := by
  rw [publishers, List.mem_filterMap] at h
  obtain ⟨entry, hentry, hi⟩ := h
  obtain ⟨x, hx, hx'⟩ := List.mem_filterMap.1 hentry
  obtain ⟨_, -, rfl⟩ := Option.map_eq_some_iff.1 hi
  exact ⟨x, hx, (entryOf_thread hx').symm⟩

variable {s' : Traced ops World} {op : Op} {r : Reply op} {x : World} {α β : Type} {a : α} {b : β} {m : Manager}
  {o cur : Record} {now : Int} {floor epoch : UInt64} {tag : Nat} {reset : Bool} {node : String}

theorem Unwritten.others (h : Unwritten i s) (ho : Others i s s') : Unwritten i s' := by
  obtain ⟨steps, htrace, hsteps⟩ := ho
  intro hmem
  rw [htrace, log, List.filterMap_append, publishers_append, List.mem_append] at hmem
  rcases hmem with hmem | hmem
  · exact h hmem
  · obtain ⟨x, hx, hxi⟩ := thread_of_mem_publishers hmem
    exact hsteps x hx hxi

theorem Unwritten.push (h : Unwritten i s)
    (hentry : publishers (entryOf ⟨i, op, r⟩).toList = []) : Unwritten i (s.push i op r x) := by
  unfold Unwritten
  rw [log_push, publishers_append, hentry, List.append_nil]
  exact h

/-- A program left the scope sound. -/
def Done {α : Type} (s : Traced ops World) (_ : α) (s' : Traced ops World) : Prop :=
  Evolves s s' ∧ Inv s'

/-- A program left the scope sound and wrote no record for a claim. -/
def Moved {α : Type} (i : Nat) (s : Traced ops World) (_ : α) (s' : Traced ops World) : Prop :=
  Evolves s s' ∧ Inv s' ∧ (Unwritten i s → Unwritten i s')

theorem Moved.done (h : Moved i s a s') : Done s b s' :=
  ⟨h.1, h.2.1⟩

theorem Moved.refl (h : Inv s) : Moved i s a s := ⟨.refl _, h, id⟩

theorem Moved.trans {s'' : Traced ops World} (h : Moved i s a s') (h' : Moved i s' b s'') :
    Moved i s b s'' :=
  ⟨h.1.trans h'.1, h'.2.1, h'.2.2 ∘ h.2.2⟩

theorem Done.trans {s'' : Traced ops World} (h : Done s a s') (h' : Done s' b s'') : Done s b s'' :=
  ⟨h.1.trans h'.1, h'.2⟩

theorem moved_push {s₁ : Traced ops World} (hinv : Inv s)
    (hs : Evolves s s₁) (ho : Others i s s₁) (hentry : publishers (entryOf ⟨i, op, r⟩).toList = [])
    (hstep : Evolves s₁ (s₁.push i op r x)) : Moved i s r (s₁.push i op r x) :=
  ⟨hs.trans hstep, hstep.inv (hs.inv hinv), fun h => (h.others ho).push hentry⟩

theorem spec_minor (hinv : Inv s) (hop : op.minor = true) :
    Spec exec Evolves i (ask op) (Moved i s) s := by
  apply Spec.perform
  intro s₁ hs ho c r x hexec
  obtain ⟨hgen, hlater, hcur⟩ := exec_minor hop hexec
  have hstep : Evolves s₁ (s₁.push i op r x) := by
    refine evolves_quiet (entryOf_minor hop) hgen hlater fun y hy => ?_
    rw [Option.mem_def.1 hy, Option.map_some, eq_comm, Option.map_eq_some_iff] at hcur
    obtain ⟨z, hz, heq⟩ := hcur
    exact ⟨z, hz, by rw [heq]⟩
  exact ⟨hstep, moved_push hinv hs ho (by rw [entryOf_minor hop]; rfl) hstep⟩

theorem spec_runHook {present : Bool} {h : Hook} (hinv : Inv s) :
    Spec exec Evolves i (runHook present h) (Moved i s) s := by
  cases present with
  | true => exact @spec_minor s i (.hook h) hinv rfl
  | false => exact .refl hinv

theorem spec_live (hinv : Inv s) : Spec exec Evolves i (live m o now) (Moved i s) s := by
  unfold live
  split
  · exact Moved.refl hinv
  · cases m.leaseView with
    | true => exact @spec_minor s i (.nodeLease o) hinv rfl
    | false => exact Moved.refl hinv

theorem evolves_noop (hentry : entryOf ⟨i, op, r⟩ = none) :
    Evolves s (s.push i op r s.shared) :=
  evolves_quiet hentry rfl (.refl _) fun y hy => ⟨y, hy, rfl⟩

theorem spec_read {P : Reply op → World → Prop} (hinv : Inv s) (hop : op.reads = true)
    (hread : ∀ c w w' r, exec op c w = some (r, w') → P r w) :
    Spec exec Evolves i (ask op) (fun r s' => Moved i s r s' ∧ P r s'.shared) s := by
  apply Spec.perform
  intro s₁ hs ho c r x hexec
  have hP := hread c _ _ r hexec
  obtain rfl := exec_reads hop hexec
  have hminor : op.minor = true := by cases op <;> first | rfl | exact hop
  have hstep : Evolves s₁ (s₁.push i op r s₁.shared) := evolves_noop (entryOf_minor hminor)
  exact ⟨hstep, moved_push hinv hs ho (by rw [entryOf_minor hminor]; rfl) hstep, hP⟩

theorem spec_resolve (hinv : Inv s) :
    Spec exec Evolves i resolve
      (fun r s' => Moved i s r s' ∧ ∀ x, r = .ok x → s'.shared.owner.cur = some x) s := by
  refine Spec.seq (@spec_read s i .getOwner
    (fun r w => ∀ x, r = Except.ok x → w.owner.cur = some x) hinv rfl ?_) ?_
  · intro c w w' r hexec x hx
    subst hx
    exact exec_getOwner hexec
  · intro r s₁ h
    cases r with
    | ok x => exact ⟨h.1, fun y hy => h.2 y hy⟩
    | error e => exact ⟨h.1, fun _ => nofun⟩

/-! ### The generation counter -/

theorem lt_nextGen {g : UInt64} (hg : g.toNat < 2 ^ 64 - 1) (hf : floor.toNat < 2 ^ 64 - 1) :
    g < nextGen g floor := by
  unfold nextGen
  rw [UInt64.lt_iff_toNat_lt]
  split
  · next h =>
    rw [UInt64.le_iff_toNat_le] at h
    simp only [UInt64.toNat_add, UInt64.toNat_one] at h ⊢
    omega
  · simp only [UInt64.toNat_add, UInt64.toNat_one]
    omega

theorem floor_lt_nextGen {g : UInt64} (hf : floor.toNat < 2 ^ 64 - 1) :
    floor < nextGen g floor := by
  unfold nextGen
  rw [UInt64.lt_iff_toNat_lt]
  split
  · simp only [UInt64.toNat_add, UInt64.toNat_one]
    omega
  · next h =>
    rw [UInt64.le_iff_toNat_le] at h
    omega

theorem parse_gen {text : Str} {g : Nat} {g' : UInt64}
    (hparse : parseUint 64 (trimSpace text) = some g) (htext : text = formatUint g'.toNat) :
    UInt64.ofNat g = g' := by
  subst htext
  rw [trimSpace_formatUint, parseUint_formatUint g'.toNat_lt, Option.some.injEq] at hparse
  rw [← hparse, UInt64.ofNat_toNat]

/-- `nextEpoch` returns a new generation of the thread, above the floor. -/
def Took (i : Nat) (floor : UInt64) (s : Traced ops World) (r : Res UInt64)
    (s' : Traced ops World) : Prop :=
  Moved i s r s' ∧ ∀ e, r = .ok e →
    (i, .bumped e) ∈ log s'.trace ∧ (floor.toNat < 2 ^ 64 - 1 → floor < e)

theorem spec_bump {next : UInt64} (hinv : Inv s)
    (hop : (∃ tag, op = .casGen next tag) ∨ op = .createGen next)
    (hstep : ∀ s₁ r x, Evolves s s₁ → Wrote s₁.shared op r x →
      Evolves s₁ (s₁.push i op r x)) : Spec exec Evolves i (ask op) (fun r s' => Moved i s r s' ∧
      ((entryOf ⟨i, op, r⟩).isSome → (i, .bumped next) ∈ log s'.trace)) s := by
  apply Spec.perform
  intro s₁ hs ho c r x hexec
  have hminor : op.minor = false := by
    rcases hop with ⟨tag, rfl⟩ | rfl <;> rfl
  rcases exec_write hminor hexec with ⟨h, rfl⟩ | hw
  · have hE : Evolves s₁ (s₁.push i op r s₁.shared) := evolves_noop h
    exact ⟨hE, moved_push hinv hs ho (by rw [h]; rfl) hE, fun hsome => by rw [h] at hsome; cases hsome⟩
  have hE := hstep s₁ r x hs hw
  have h : entryOf ⟨i, op, r⟩ = some (i, .bumped next) := by
    rcases hop with ⟨tag, rfl⟩ | rfl <;> cases hw <;> rfl
  refine ⟨hE, moved_push hinv hs ho (by rw [h]; rfl) hE, fun _ => ?_⟩
  rw [log_push, h]
  exact List.mem_append_right _ (List.mem_singleton_self _)

theorem spec_casGen {text : Str} {g : Nat} (hinv : Inv s)
    (hfloor : Bounded (log s.trace) → floor.toNat < 2 ^ 64 - 1)
    (hread : s.shared.gen.cur = some (text, tag))
    (hparse : parseUint 64 (trimSpace text) = some g) :
    Spec exec Evolves i (ask (.casGen (nextGen (UInt64.ofNat g) floor) tag))
      (fun r s' => Moved i s r s' ∧ (r = .ok () →
        (i, .bumped (nextGen (UInt64.ofNat g) floor)) ∈ log s'.trace)) s := by
  refine (spec_bump hinv (.inl ⟨tag, rfl⟩) fun s₁ r x hs hw => ?_).mono fun r s' h =>
    ⟨h.1, fun hr => h.2 (by rw [hr]; rfl)⟩
  cases hw with
  | casGen hv =>
    obtain ⟨⟨text', hcur⟩, rfl⟩ := Versioned.cas_eq_some hv
    obtain rfl : text' = text := congrArg Prod.fst (hs.gen.eq_of_tag hread hcur rfl)
    refine evolves_bump rfl fun hbound hsound g₀ hg₀ => ?_
    -- the generation is unchanged since it was read, so it is the last bump
    obtain ⟨g', htext, hlast⟩ := hsound.gen_last _ hcur
    rw [Option.mem_def, hlast, Option.some.injEq] at hg₀
    subst hg₀
    rw [parse_gen hparse htext]
    exact lt_nextGen (hbound _ (List.mem_of_getLast? hlast)) (hfloor (hbound.of_isPrefix hs.log))

theorem spec_createGen {next : UInt64} (hinv : Inv s) :
    Spec exec Evolves i (ask (.createGen next))
      (fun r s' => Moved i s r s' ∧ (r = .ok () → (i, .bumped next) ∈ log s'.trace)) s := by
  refine (spec_bump hinv (.inr rfl) fun s₁ r x hs hw => ?_).mono fun r s' h =>
    ⟨h.1, fun hr => h.2 (by rw [hr]; rfl)⟩
  cases hw with
  | createGen hv =>
    obtain ⟨hcur, rfl⟩ := Versioned.create_eq_some hv
    refine evolves_bump rfl fun _ hsound g₀ hg₀ => ?_
    rw [hsound.gen_none hcur] at hg₀
    cases hg₀

theorem took_error {e : Err} (h : Moved i s a s') : Took i floor s (.error e) s' :=
  ⟨h, fun _ => nofun⟩

theorem spec_nextEpochFrom {attempts : Nat} (hinv : Inv s)
    (hfloor : Bounded (log s.trace) → floor.toNat < 2 ^ 64 - 1) :
    Spec exec Evolves i (nextEpochFrom floor attempts) (Took i floor s) s := by
  induction attempts generalizing s with
  | zero => exact took_error (α := Unit) (a := ()) (.refl hinv)
  | succ attempts ih =>
    -- a lost race leaves fewer attempts
    have hretry : ∀ {α : Type} {a : α} {s'}, Moved i s a s' →
        Spec exec Evolves i (nextEpochFrom floor attempts) (Took i floor s) s' := fun h =>
      (ih h.2.1 fun hb => hfloor (hb.of_isPrefix h.1.log)).mono fun _ _ ht =>
        ⟨h.trans ht.1, ht.2⟩
    refine Spec.seq (@spec_read s i .getGen
      (fun r w => ∀ x, r = Except.ok x → w.gen.cur = some x) hinv rfl ?_) ?_
    · intro c w w' r hexec x hx
      subst hx
      exact exec_getGen hexec
    · rintro r s₁ ⟨hmoved, hread⟩
      have hfloor₁ : Bounded (log s₁.trace) → floor.toNat < 2 ^ 64 - 1 := fun hb =>
        hfloor (hb.of_isPrefix hmoved.1.log)
      cases r with
      | ok x =>
        obtain ⟨text, tag⟩ := x
        dsimp only
        rcases hparse : parseUint 64 (trimSpace text) with _ | g
        · exact took_error hmoved
        refine Spec.seq (spec_casGen hmoved.2.1 hfloor₁ (hread _ rfl) hparse) ?_
        rintro r s₂ ⟨hmoved₂, hbump⟩
        cases r with
        | ok u =>
          refine ⟨hmoved.trans hmoved₂, fun e he => ?_⟩
          cases he
          exact ⟨hbump rfl, floor_lt_nextGen⟩
        | error e => exact hretry (hmoved.trans hmoved₂)
      | error e =>
        dsimp only
        split
        · refine Spec.seq (spec_createGen hmoved.2.1) ?_
          rintro r s₂ ⟨hmoved₂, hbump⟩
          cases r with
          | ok u =>
            refine ⟨hmoved.trans hmoved₂, fun e he => ?_⟩
            cases he
            exact ⟨hbump rfl, floor_lt_nextGen⟩
          | error e => exact hretry (hmoved.trans hmoved₂)
        · exact took_error hmoved

/-! ### The owner record -/

/-- The program leaves the scope sound. -/
abbrev Safe (i : Nat) (p : Prog ops α) (s : Traced ops World) : Prop :=
  Spec exec Evolves i p (Done s) s

section Record

variable (hinv : Inv s)
include hinv

theorem spec_ask (hop : op.minor = false) (hstep : ∀ s₁ r x, Evolves s s₁ → Others i s s₁ →
      Wrote s₁.shared op r x → Evolves s₁ (s₁.push i op r x)) : Safe i (ask op) s := by
  apply Spec.perform
  intro s₁ hs ho c r x hexec
  have hE : Evolves s₁ (s₁.push i op r x) := by
    rcases exec_write hop hexec with ⟨hentry, rfl⟩ | hw
    · exact evolves_noop hentry
    · exact hstep s₁ r x hs ho hw
  exact ⟨hE, hs.trans hE, hE.inv (hs.inv hinv)⟩

theorem spec_createOwner (htaken : (i, .bumped o.epoch) ∈ log s.trace)
    (hfirst : Unwritten i s) : Safe i (ask (.createOwner o)) s := by
  refine spec_ask hinv rfl fun s₁ r x hs ho hw => ?_
  cases hw with
  | createOwner hv =>
    obtain ⟨-, rfl⟩ := Versioned.create_eq_some hv
    exact evolves_publish rfl (hs.log.subset htaken) (hfirst.others ho) (.inl rfl)

theorem spec_replaceOwner (htaken : (i, .bumped o.epoch) ∈ log s.trace)
    (hfirst : Unwritten i s) (hread : s₀.shared.owner.cur = some (cur, tag)) (hs₀ : Evolves s₀ s)
    (hlt : Bounded (log s.trace) → cur.epoch < o.epoch) :
    Safe i (ask (.casOwner true o tag)) s := by
  refine spec_ask hinv rfl fun s₁ r x hs ho hw => ?_
  cases hw with
  | casOwner hv =>
    obtain ⟨⟨cur', hcur⟩, rfl⟩ := Versioned.cas_eq_some hv
    refine evolves_publish rfl (hs.log.subset htaken) (hfirst.others ho)
      (.inr ⟨rfl, fun hbound hsound => ?_⟩)
    have heq : cur' = cur := congrArg Prod.fst ((hs₀.trans hs).owner.eq_of_tag hread hcur rfl)
    refine ⟨cur.epoch, ?_, hlt (hbound.of_isPrefix hs.log)⟩
    rw [hsound.owner_last _ hcur, heq]

theorem spec_renewOwner (hread : s.shared.owner.cur = some (cur, tag))
    (hepoch : o.epoch = cur.epoch) :
    Safe i (ask (.casOwner false o tag)) s := by
  refine spec_ask hinv rfl fun s₁ r x hs ho hw => ?_
  cases hw with
  | casOwner hv =>
    obtain ⟨⟨cur', hcur⟩, rfl⟩ := Versioned.cas_eq_some hv
    have heq : cur' = cur := congrArg Prod.fst (hs.owner.eq_of_tag hread hcur rfl)
    refine evolves_quiet rfl rfl (Versioned.later_store _ _) fun y hy => ?_
    obtain rfl := Option.some.inj hy
    exact ⟨_, hcur, by rw [hepoch, heq]⟩

theorem spec_deleteOwner : Safe i (ask (.deleteOwner tag)) s := by
  refine spec_ask hinv rfl fun s₁ r x hs ho hw => ?_
  cases hw with
  | deleteOwner hv =>
    obtain ⟨hnone, hlater⟩ := Versioned.delete_eq_some hv
    refine evolves_quiet rfl rfl hlater fun y hy => ?_
    rw [hnone] at hy
    cases hy

end Record

/-! ### The calls -/

theorem spec_then {p : Prog ops α} {f : α → Prog ops β} {P : α → Traced ops World → Prop}
    (hp : Spec exec Evolves i p P s) (hP : ∀ {a s'}, P a s' → Done s a s')
    (hf : ∀ a s', P a s' → Safe i (f a) s') : Safe i (p >>= f) s :=
  Spec.seq hp fun a s' h => (hf a s' h).mono fun _ _ h' => (hP h).trans h'

theorem spec_thenOk {ε : Type} {p : Prog ops (Except ε α)} {f : Except ε α → Prog ops β}
    {P : Except ε α → Traced ops World → Prop} (hp : Spec exec Evolves i p P s)
    (hP : ∀ {a s'}, P a s' → Done s a s') (herr : ∀ e, ∃ b, f (.error e) = .ret b)
    (hf : ∀ a s', P (.ok a) s' → Safe i (f (.ok a)) s') : Safe i (p >>= f) s := by
  refine spec_then hp hP fun r s' h => ?_
  cases r with
  | ok a => exact hf a s' h
  | error e =>
    obtain ⟨b, hb⟩ := herr e
    rw [hb]
    exact ⟨.refl _, (hP h).2⟩

theorem spec_ret (hinv : Inv s) : Safe i (pure a : Prog ops α) s :=
  ⟨.refl _, hinv⟩

theorem spec_last {ε : Type} {p : Prog ops (Except ε α)} {f : Except ε α → Prog ops β}
    (hp : Safe i p s) (herr : ∀ e, ∃ b, f (.error e) = .ret b)
    (hok : ∀ a, ∃ b, f (.ok a) = .ret b) : Safe i (p >>= f) s := by
  refine spec_thenOk hp id herr fun a s' h => ?_
  obtain ⟨b, hb⟩ := hok a
  rw [hb]
  exact ⟨.refl _, h.2⟩

theorem epoch_bounded (hinv : Inv s) (hread : s.shared.owner.cur = some (cur, tag))
    (hbound : Bounded (log s.trace)) : cur.epoch.toNat < 2 ^ 64 - 1 := by
  have hs := hinv hbound
  exact hbound _ (hs.bumps_of_published (List.mem_of_getLast? (hs.owner_last _ hread)))

variable (hinv : Inv s)
include hinv

theorem spec_claimUnowned (hfirst : Unwritten i s) :
    Safe i (claimUnowned m now reset) s := by
  refine spec_thenOk (spec_nextEpochFrom hinv fun _ => by decide) (·.1.done) (fun _ => ⟨_, rfl⟩) ?_
  intro epoch s₁ h₁
  refine spec_thenOk (spec_runHook h₁.1.2.1) Moved.done (fun _ => ⟨_, rfl⟩) ?_
  intro _ s₂ h₂
  have htaken := h₂.1.log.subset (h₁.2 epoch rfl).1
  exact spec_last (@spec_createOwner s₂ i (newOwner m epoch now) h₂.2.1 htaken
    (h₂.2.2 (h₁.1.2.2 hfirst))) (fun _ => ⟨_, rfl⟩) (fun _ => ⟨_, rfl⟩)

theorem spec_takeOver (hfirst : Unwritten i s)
    (hread : s₀.shared.owner.cur = some (cur, tag)) (hinv₀ : Inv s₀) (hs₀ : Evolves s₀ s) :
    Safe i (takeOver m now reset cur tag) s := by
  refine spec_thenOk (spec_runHook hinv) Moved.done (fun _ => ⟨_, rfl⟩) ?_
  intro _ s₁ h₁
  refine spec_thenOk (spec_runHook h₁.2.1) Moved.done (fun _ => ⟨_, rfl⟩) ?_
  intro _ s₂ h₂
  have hs₂ := hs₀.trans (h₁.1.trans h₂.1)
  have hfloor : ∀ {s'}, Evolves s₂ s' → Bounded (log s'.trace) → cur.epoch.toNat < 2 ^ 64 - 1 :=
    fun hs hb => epoch_bounded hinv₀ hread (hb.of_isPrefix (hs₂.trans hs).log)
  refine spec_thenOk (spec_nextEpochFrom h₂.2.1 (hfloor (.refl _))) (·.1.done)
    (fun _ => ⟨_, rfl⟩) ?_
  intro epoch s₃ h₃
  obtain ⟨htaken, hlt⟩ := h₃.2 epoch rfl
  exact spec_last (@spec_replaceOwner s₃ s₀ i (newOwner m epoch now) cur tag h₃.1.2.1 htaken
    (h₃.1.2.2 (h₂.2.2 (h₁.2.2 hfirst))) hread (hs₂.trans h₃.1.1)
    fun hb => hlt (hfloor h₃.1.1 hb)) (fun _ => ⟨_, rfl⟩) (fun _ => ⟨_, rfl⟩)

theorem spec_claimLocked (hfirst : Unwritten i s) :
    Safe i (claimLocked m now reset) s := by
  refine spec_then (spec_resolve hinv) (·.1.done) ?_
  rintro r s₁ ⟨h₁, hread⟩
  cases r with
  | error e =>
    dsimp only
    split
    · exact spec_claimUnowned h₁.2.1 (h₁.2.2 hfirst)
    · exact spec_ret h₁.2.1
  | ok x =>
    obtain ⟨cur, tag⟩ := x
    dsimp only
    split
    · refine spec_then (@spec_minor s₁ i .touchOwner h₁.2.1 rfl) Moved.done ?_
      intro _ s₂ h₂
      exact spec_ret h₂.2.1
    · refine spec_thenOk (spec_live h₁.2.1) Moved.done (fun _ => ⟨_, rfl⟩) ?_
      intro yes s₂ h₂
      cases yes with
      | true => exact spec_ret h₂.2.1
      | false =>
        exact spec_takeOver h₂.2.1 (h₂.2.2 (h₁.2.2 hfirst)) (hread _ rfl) h₁.2.1 h₂.1

theorem spec_claimWithReset (hfirst : Unwritten i s) :
    Safe i (claimWithReset m now reset) s := by
  refine spec_thenOk (@spec_minor s i (.lockClaim m.number) hinv rfl) Moved.done
    (fun _ => ⟨_, rfl⟩) ?_
  intro _ s₁ h₁
  refine spec_then (spec_claimLocked h₁.2.1 (h₁.2.2 hfirst)) id ?_
  intro out s₂ h₂
  refine spec_then (@spec_minor s₂ i (.unlockClaim m.number) h₂.2 rfl) Moved.done ?_
  intro _ s₃ h₃
  exact spec_ret h₃.2.1

theorem spec_claimAs {advertise : String} {role : Role} {ttl : Int} (hfirst : Unwritten i s) :
    Safe i (claimAs m node advertise role ttl now) s := by
  refine spec_then (spec_resolve hinv) (·.1.done) ?_
  rintro r s₁ ⟨h₁, hread⟩
  have hfirst₁ := h₁.2.2 hfirst
  cases r with
  | error e =>
    dsimp only
    split
    · refine spec_thenOk (spec_nextEpochFrom h₁.2.1 fun _ => by decide) (·.1.done)
        (fun _ => ⟨_, rfl⟩) ?_
      intro epoch s₂ h₂
      exact spec_last (@spec_createOwner s₂ i
        (ownerFor m epoch now node advertise role (ttlOf m ttl)) h₂.1.2.1 (h₂.2 epoch rfl).1
        (h₂.1.2.2 hfirst₁)) (fun _ => ⟨_, rfl⟩) (fun _ => ⟨_, rfl⟩)
    · exact spec_ret h₁.2.1
  | ok x =>
    obtain ⟨cur, tag⟩ := x
    have hcur := hread _ rfl
    have hfloor : ∀ {s'}, Evolves s₁ s' → Bounded (log s'.trace) →
        cur.epoch.toNat < 2 ^ 64 - 1 :=
      fun hs hb => epoch_bounded h₁.2.1 hcur (hb.of_isPrefix hs.log)
    dsimp only
    split
    · exact spec_ret h₁.2.1
    refine spec_thenOk (spec_nextEpochFrom h₁.2.1 (hfloor (.refl _))) (·.1.done)
      (fun _ => ⟨_, rfl⟩) ?_
    intro epoch s₂ h₂
    obtain ⟨htaken, hlt⟩ := h₂.2 epoch rfl
    exact spec_last (@spec_replaceOwner s₂ s₁ i
      (ownerFor m epoch now node advertise role (ttlOf m ttl)) cur tag h₂.1.2.1 htaken
      (h₂.1.2.2 hfirst₁) hcur h₂.1.1 fun hb => hlt (hfloor h₂.1.1 hb))
      (fun _ => ⟨_, rfl⟩) (fun _ => ⟨_, rfl⟩)

theorem spec_storeRenewed (hread : s.shared.owner.cur = some (cur, tag))
    (hepoch : o.epoch = cur.epoch) : Safe i (storeRenewed o tag) s := by
  exact spec_last (spec_renewOwner hinv hread hepoch) (fun _ => ⟨_, rfl⟩) (fun _ => ⟨_, rfl⟩)

theorem spec_renew : Safe i (renew m epoch now) s := by
  have htouch : ∀ {s' : Traced ops World} {o : Record}, Inv s' → Spec exec Evolves i
      (ask .touchOwner >>= fun _ => pure (Except.ok o : Res Record)) (Done s') s' := by
    intro s' o hinv'
    refine spec_then (@spec_minor s' i .touchOwner hinv' rfl) Moved.done ?_
    intro _ s'' h
    exact spec_ret h.2.1
  refine spec_thenOk (spec_resolve hinv) (·.1.done) (fun _ => ⟨_, rfl⟩) ?_
  rintro ⟨cur, tag⟩ s₁ ⟨h₁, hread⟩
  dsimp only
  split
  · exact spec_ret h₁.2.1
  split
  · split
    · refine spec_thenOk (spec_storeRenewed h₁.2.1 (hread _ rfl) rfl) id (fun _ => ⟨_, rfl⟩) ?_
      intro o s₂ h₂
      exact htouch h₂.2
    · exact htouch h₁.2.1
  · exact spec_storeRenewed h₁.2.1 (hread _ rfl) rfl

theorem spec_renewAs {ttl : Int} : Safe i (renewAs m node epoch ttl now) s := by
  refine spec_thenOk (spec_resolve hinv) (·.1.done) (fun _ => ⟨_, rfl⟩) ?_
  rintro ⟨cur, tag⟩ s₁ ⟨h₁, hread⟩
  dsimp only
  split
  · exact spec_ret h₁.2.1
  · exact spec_storeRenewed h₁.2.1 (hread _ rfl) rfl

theorem spec_deleteRecord : Safe i (deleteRecord tag) s := by
  exact spec_last (spec_deleteOwner hinv) (fun _ => ⟨_, rfl⟩) (fun _ => ⟨_, rfl⟩)

theorem spec_release {skip : Bool} : Safe i (release m epoch skip) s := by
  refine spec_thenOk (spec_resolve hinv) (·.1.done) (fun _ => ⟨_, rfl⟩) ?_
  rintro ⟨cur, tag⟩ s₁ ⟨h₁, -⟩
  dsimp only
  split
  · exact spec_ret h₁.2.1
  · refine spec_thenOk (spec_runHook h₁.2.1) Moved.done (fun _ => ⟨_, rfl⟩) ?_
    intro _ s₂ h₂
    exact spec_deleteRecord h₂.2.1

theorem spec_releaseAs : Safe i (releaseAs node epoch) s := by
  refine spec_thenOk (spec_resolve hinv) (·.1.done) (fun _ => ⟨_, rfl⟩) ?_
  rintro ⟨cur, tag⟩ s₁ ⟨h₁, -⟩
  dsimp only
  split
  · exact spec_ret h₁.2.1
  · exact spec_deleteRecord h₁.2.1

theorem spec_call {call : Call} (hfirst : Unwritten i s) :
    Spec exec Evolves i call.prog (fun _ _ => True) s := by
  cases call with
  | claimWithReset m now reset =>
    exact Spec.seq (spec_claimWithReset hinv hfirst) fun _ _ _ => trivial
  | claimAs m node advertise role ttl now =>
    exact Spec.seq (spec_claimAs hinv hfirst) fun _ _ _ => trivial
  | renew m epoch now => exact Spec.seq (spec_renew hinv) fun _ _ _ => trivial
  | renewAs m node epoch ttl now => exact Spec.seq (spec_renewAs hinv) fun _ _ _ => trivial
  | release m epoch skip => exact Spec.seq (spec_release hinv) fun _ _ _ => trivial
  | releaseAs node epoch => exact Spec.seq (spec_releaseAs hinv) fun _ _ _ => trivial

end Programs

end CellHive.Owner
