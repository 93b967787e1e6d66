import CellHive.Go.Time

/-!
# A process's own lease

What `lease.Manager` keeps about the lease of its own node: the deadline of the newest
lease it managed to write, and whether it lost its authority for good. Both fields are
set together with the etag of that lease, so a deadline is recorded exactly when there
is an etag.
-/

namespace CellHive.Lease

open Go

/-- The fields of `Manager` about its own lease. -/
structure Held where
  ttl : Int
  /-- `publishedExpiry`; none is the zero time -/
  publishedExpiry : Option Time
  fenced : Bool
  deriving DecidableEq, Repr

namespace Held

/-- A manager that has not published yet. -/
def fresh (ttl : Int) : Held := ⟨ttl, none, false⟩

/-- The deadline has passed, by either clock. -/
def pastDeadline (l : Held) (now : Time) : Bool :=
  match l.publishedExpiry with
  | none => false
  | some e => !now.before e || decide (e.unixMilli ≤ now.unixMilli)

/-- `expiredLocked`: its result is the field `fenced` afterwards. -/
def expired (l : Held) (now : Time) : Held :=
  if l.pastDeadline now then { l with fenced := true } else l

def margin (l : Held) : Int :=
  if l.ttl.tdiv 5 ≤ 0 then second else l.ttl.tdiv 5

/-- The recorded deadline minus the margin. -/
def safeUntil (l : Held) : Option Time := l.publishedExpiry.map (·.add (-l.margin))

def healthyUntil (l : Held) (now : Time) : Option Time :=
  if (l.expired now).fenced then none else l.safeUntil

/-- The result of `Healthy`, which reads the clock once more. -/
def healthy (l : Held) (now later : Time) : Bool :=
  !(l.expired now).fenced && beforeZero now ((l.expired now).healthyUntil later)

def afterHealthy (l : Held) (now later : Time) : Held := (l.expired now).expired later

def deadline (l : Held) (now : Time) : Time :=
  match l.publishedExpiry with
  | none => now.add l.ttl
  | some e => if (now.add l.ttl).before e then e else now.add l.ttl

/-- How the write of a lease ended. -/
inductive Written where
  | stored
  | precondition
  | failed
  deriving DecidableEq, Repr

/-- The end of `Publish`, after the write of a lease with the given deadline. -/
def settle (l : Held) (expiry now : Time) (w : Written) : Held :=
  if (l.expired now).fenced then l.expired now
  else
    match w with
    | .failed => l
    | .precondition => if l.publishedExpiry.isSome then { l with fenced := true } else l
    | .stored =>
      if !now.before expiry || decide (expiry.unixMilli ≤ now.unixMilli) then l
      else { l with publishedExpiry := some expiry }

/-! ## Lost authority stays lost -/

@[simp] theorem expired_ttl (l : Held) (now : Time) : (l.expired now).ttl = l.ttl := by
  unfold expired
  split <;> rfl

@[simp] theorem expired_publishedExpiry (l : Held) (now : Time) :
    (l.expired now).publishedExpiry = l.publishedExpiry := by
  unfold expired
  split <;> rfl

theorem expired_of_fenced {l : Held} (h : l.fenced = true) (now : Time) :
    (l.expired now).fenced = true := by
  unfold expired
  split
  · rfl
  · exact h

theorem expired_eq_self {l : Held} {now : Time} (h : (l.expired now).fenced = false) :
    l.expired now = l := by
  unfold expired at h ⊢
  split at h
  · cases h
  · rename_i hpast
    rw [if_neg hpast]

@[simp] theorem expired_safeUntil (l : Held) (now : Time) :
    (l.expired now).safeUntil = l.safeUntil := by
  simp [safeUntil, margin]

/-- The manager goes from one state to another: authority is not regained, and the
recorded deadline does not move back. -/
structure Later (l l' : Held) : Prop where
  ttl : l'.ttl = l.ttl
  fenced : l.fenced = true → l'.fenced = true
  deadline : ∀ e, l.publishedExpiry = some e →
    ∃ e', l'.publishedExpiry = some e' ∧ e.mono ≤ e'.mono

theorem Later.refl (l : Held) : Later l l := ⟨rfl, id, fun e h => ⟨e, h, Int.le_refl _⟩⟩

theorem Later.trans {a b c : Held} (hab : Later a b) (hbc : Later b c) : Later a c := by
  refine ⟨hbc.ttl.trans hab.ttl, fun h => hbc.fenced (hab.fenced h), fun e he => ?_⟩
  obtain ⟨e', he', hle⟩ := hab.deadline e he
  obtain ⟨e'', he'', hle'⟩ := hbc.deadline e' he'
  exact ⟨e'', he'', Int.le_trans hle hle'⟩

theorem Later.safeUntil {l l' : Held} (h : Later l l') {u : Time} (hu : l.safeUntil = some u) :
    ∃ u', l'.safeUntil = some u' ∧ u.mono ≤ u'.mono := by
  obtain ⟨e, he, rfl⟩ := Option.map_eq_some_iff.1 hu
  obtain ⟨e', he', hle⟩ := h.deadline e he
  have hm : l'.margin = l.margin := by simp [margin, h.ttl]
  refine ⟨e'.add (-l'.margin), by simp [Held.safeUntil, he'], ?_⟩
  simp only [Time.add_mono, hm]
  omega

/-- A deadline that is zero or at most the safe deadline of the lease. -/
def Covers (l : Held) (d : Option Time) : Prop :=
  ∀ u, d = some u → ∃ u', l.safeUntil = some u' ∧ u.mono ≤ u'.mono

theorem covers_none (l : Held) : l.Covers none := fun _ h => nomatch h

theorem Covers.later {l l' : Held} {d : Option Time} (h : l.Covers d) (hl : Later l l') :
    l'.Covers d := by
  intro u hu
  obtain ⟨v, hv, huv⟩ := h u hu
  obtain ⟨w, hw, hvw⟩ := hl.safeUntil hv
  exact ⟨w, hw, Int.le_trans huv hvw⟩

theorem later_expired (l : Held) (now : Time) : Later l (l.expired now) :=
  ⟨by simp, fun h => expired_of_fenced h now, fun e h => ⟨e, by simpa using h, Int.le_refl _⟩⟩

theorem later_afterHealthy (l : Held) (now later : Time) : Later l (l.afterHealthy now later) :=
  (later_expired l now).trans (later_expired _ later)

theorem deadline_ge (l : Held) (now : Time) {e : Time} (h : l.publishedExpiry = some e) :
    e.mono ≤ (l.deadline now).mono := by
  simp only [deadline, h]
  split
  · exact Int.le_refl _
  · rename_i hb
    simpa using hb

/-- Settling a write keeps the recorded deadline from moving back, when the deadline
that was written did not lie before it. -/
theorem later_settle (l : Held) {expiry now : Time} (w : Written)
    (h : ∀ e, l.publishedExpiry = some e → e.mono ≤ expiry.mono) :
    Later l (l.settle expiry now w) := by
  unfold settle
  split
  · exact later_expired l now
  cases w with
  | failed => exact Later.refl l
  | precondition =>
    dsimp only
    split
    · exact ⟨rfl, fun _ => rfl, fun e he => ⟨e, he, Int.le_refl _⟩⟩
    · exact Later.refl l
  | stored =>
    dsimp only
    split
    · exact Later.refl l
    · exact ⟨rfl, id, fun e he => ⟨expiry, rfl, h e he⟩⟩

/-! ## Healthy leases -/

/-- A lease within its safe window by the monotonic clock. -/
def Safe (l : Held) (now : Time) : Prop :=
  l.fenced = false ∧ ∃ u, l.safeUntil = some u ∧ now.mono < u.mono

theorem safe_of_healthy {l : Held} {now later : Time} (h : l.healthy now later = true) :
    (l.afterHealthy now later).fenced = false ∧ l.Safe now := by
  unfold healthy at h
  rw [Bool.and_eq_true, beforeZero_iff, Bool.not_eq_true'] at h
  obtain ⟨hnow, u, hu, hlt⟩ := h
  have hself : l.expired now = l := expired_eq_self hnow
  unfold healthyUntil at hu
  split at hu
  · cases hu
  rename_i hlater
  rw [expired_safeUntil] at hu
  rw [hself] at hnow
  exact ⟨by simpa [afterHealthy] using hlater, hnow, u, hu, hlt⟩

theorem covers_healthyUntil (l : Held) (now : Time) : l.Covers (l.healthyUntil now) := by
  unfold healthyUntil
  split
  · exact covers_none l
  · exact fun u h => ⟨u, h, le_rfl⟩

end Held

end CellHive.Lease
