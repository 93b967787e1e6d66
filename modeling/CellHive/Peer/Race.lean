import CellHive.Go.Strings
import CellHive.Util.Prefixes

/-!
# The race of followers

`followersRace` of `internal/peer/shipper.go`: copies of an append go to an ordered list of
followers, the next one when a copy fails or when the hedge timer fires, and `wait` returns the
first acknowledgement. That no follower could be launched after a failure is noticed only when
another copy fails. The counts of hedges are left out.
-/

namespace CellHive.Peer

open Go

variable {ε : Type}

inductive RaceError (ε : Type)
  | noUsableFollower (last : Option ε)
  | allFollowersFailed (last : Option ε)

inductive RaceOutcome (ε : Type)
  | acked (addr : Str)
  | failed (err : RaceError ε)
  | canceled

structure Race (ε : Type) where
  /-- the followers from `next` on -/
  rest : List Nat
  lastErr : Option ε := none
  timerC : Bool := false
  /-- the copies launched that have not answered; `pending` is their number -/
  outstanding : List Nat := []
  /-- what `wait` returned -/
  returned : Option (RaceOutcome ε) := none

inductive RaceEvent (ε : Type)
  /-- a copy acknowledged, or failed -/
  | result (i : Nat) (err : Option ε)
  | timer
  | done

namespace Race

variable (followers : List Str) (launch : Nat → Option ε)

/-- `startNext`; `launch` gives the errors. -/
def startFrom (r : Race ε) : List Nat → Race ε
  | [] => { r with rest := [] }
  | i :: rest =>
    match launch i with
    | some err => startFrom { r with lastErr := some err } rest
    | none => { r with rest := rest, outstanding := i :: r.outstanding }

def startNext (r : Race ε) : Race ε := startFrom launch r r.rest

def beginRace (hedgeEnabled : Bool) : Race ε :=
  let r := startNext launch { rest := List.range followers.length }
  { r with timerC := r.outstanding ≠ [] ∧ hedgeEnabled ∧ 1 < followers.length }

/-- `beginRace` and the first lines of `wait`. -/
def start (hedgeEnabled : Bool) : Race ε :=
  let r := beginRace followers launch hedgeEnabled
  if r.outstanding = [] then
    { r with returned := some (.failed (.noUsableFollower r.lastErr)) }
  else r

def fail (err : ε) (r : Race ε) : Race ε :=
  let r := { r with lastErr := some err }
  if r.rest ≠ [] then r.startNext launch
  else if r.outstanding = [] then
    { r with returned := some (.failed (.allFollowersFailed r.lastErr)) }
  else r

/-- One turn of the loop of `wait`; what cannot happen changes nothing. -/
def step (r : Race ε) (ev : RaceEvent ε) : Race ε :=
  if r.returned.isSome then r else
  match ev with
  | .result i err =>
    if i ∉ r.outstanding then r else
    let r := { r with outstanding := r.outstanding.erase i }
    match err with
    | none => { r with returned := some (.acked (followers.getD i [])) }
    | some err => r.fail launch err
  | .timer =>
    if r.timerC = false then r
    else if r.rest ≠ [] then r.startNext launch
    else { r with timerC := false }
  | .done => { r with returned := some .canceled }

def run (hedgeEnabled : Bool) (events : List (RaceEvent ε)) : Race ε :=
  events.foldl (step followers launch) (start followers launch hedgeEnabled)

/-- No copy is outstanding and none remains to be launched. -/
def Over (r : Race ε) : Prop := r.outstanding = [] ∧ r.rest = []

/-- What `wait` is to do. -/
structure Sound (r : Race ε) : Prop where
  waits : r.returned = none → ¬ r.Over
  acks : r.returned = none → ∀ ev addr, (step followers launch r ev).returned = some (.acked addr) ↔
    ∃ i ∈ r.outstanding, ev = .result i none ∧ followers.getD i [] = addr
  fails : ∀ err, r.returned = some (.failed err) → r.Over

/-- If followers remain when the only outstanding copy fails, one of them can be launched. -/
def Noticed (r : Race ε) : RaceEvent ε → Prop
  | .result i (some _) => r.returned = none → r.outstanding = [i] → r.rest ≠ [] →
    ∃ j ∈ r.rest, launch j = none
  | _ => True

/-! ## Turns -/

theorem startFrom_spec (r : Race ε) (rest : List Nat) :
    (r.startFrom launch rest).returned = r.returned ∧
      ((r.startFrom launch rest).outstanding = [] ↔
        r.outstanding = [] ∧ ∀ j ∈ rest, launch j ≠ none) ∧
      ((r.startFrom launch rest).outstanding = [] → (r.startFrom launch rest).rest = []) := by
  induction rest generalizing r with
  | nil => simp [startFrom]
  | cons i rest ih =>
    cases hlaunch : launch i with
    | none => simp [startFrom, hlaunch]
    | some err =>
      have htail := ih { r with lastErr := some err }
      simpa [startFrom, hlaunch] using htail

variable {followers launch}

/-- While `wait` has not returned, a copy is outstanding. -/
structure Inv (r : Race ε) : Prop where
  waits : r.returned = none → r.outstanding ≠ []
  fails : ∀ err, r.returned = some (.failed err) → r.Over

theorem inv_start (hedgeEnabled : Bool) : (start followers launch hedgeEnabled).Inv := by
  obtain ⟨hreturned, -, hrest⟩ :=
    startFrom_spec launch { rest := List.range followers.length } (List.range followers.length)
  rw [start]
  split
  next hout => exact ⟨nofun, fun _ _ => ⟨hout, hrest hout⟩⟩
  next hout => exact ⟨fun _ => hout, fun err herr => by cases hreturned.symm.trans herr⟩

variable {r : Race ε}

theorem inv_startNext (hnone : r.returned = none)
    (hsome : r.outstanding = [] → ∃ j ∈ r.rest, launch j = none) : (r.startNext launch).Inv := by
  obtain ⟨hreturned, hout, -⟩ := startFrom_spec launch r r.rest
  refine ⟨fun _ hempty => ?_, fun err herr => ?_⟩
  · obtain ⟨hempty, hnever⟩ := hout.1 hempty
    obtain ⟨j, hj, hlaunch⟩ := hsome hempty
    exact hnever j hj hlaunch
  · cases (hreturned.trans hnone).symm.trans herr

theorem inv_step (h : r.Inv) {ev : RaceEvent ε} (hnoticed : r.Noticed launch ev) :
    (step followers launch r ev).Inv := by
  unfold step
  split
  · exact h
  next hnone =>
    have hnone : r.returned = none := by simpa using hnone
    have hout := h.waits hnone
    cases ev with
    | result i err =>
      dsimp only
      split
      · exact h
      next hmem =>
        cases err with
        | none => exact ⟨nofun, nofun⟩
        | some err =>
          dsimp only [fail]
          split
          next hrest =>
            refine inv_startNext hnone fun hempty => hnoticed hnone ?_ hrest
            have hperm := List.perm_cons_erase (not_not.1 hmem)
            rw [show r.outstanding.erase i = [] from hempty] at hperm
            exact List.perm_singleton.1 hperm
          next hlast =>
            split
            next hempty => exact ⟨nofun, fun _ _ => ⟨hempty, not_not.1 hlast⟩⟩
            next hempty => exact ⟨fun _ => hempty, fun err herr => nomatch hnone.symm.trans herr⟩
    | timer =>
      dsimp only
      split
      · exact h
      split
      · exact inv_startNext hnone fun hempty => absurd hempty hout
      · exact ⟨h.waits, h.fails⟩
    | done => exact ⟨nofun, nofun⟩

theorem step_acked (hnone : r.returned = none) (ev : RaceEvent ε) (addr : Str) :
    (step followers launch r ev).returned = some (.acked addr) ↔
      ∃ i ∈ r.outstanding, ev = .result i none ∧ followers.getD i [] = addr := by
  cases ev with
  | result i err =>
    by_cases hmem : i ∈ r.outstanding
    · cases err with
      | none => simp [step, hnone, hmem]
      | some err =>
        simp only [step, hnone, hmem, fail, startNext]
        split_ifs <;> simp [startFrom_spec, hnone]
    · cases err <;> simp [step, hnone, hmem]
  | timer =>
    simp only [step, hnone, startNext]
    split_ifs <;> simp [startFrom_spec, hnone]
  | done => simp [step, hnone]

theorem over_of_not_noticed {ev : RaceEvent ε} (h : ¬ r.Noticed launch ev) :
    (step followers launch r ev).returned = none ∧ (step followers launch r ev).Over := by
  rcases ev with ⟨i, - | err⟩ | - | -
  · exact absurd trivial h
  · simp only [Noticed, not_forall, not_exists, not_and] at h
    obtain ⟨hnone, hout, hrest, hnever⟩ := h
    have hstep : step followers launch r (.result i (some err)) =
        startFrom launch { r with outstanding := [], lastErr := some err } r.rest := by
      simp [step, fail, startNext, hnone, hout, hrest]
    obtain ⟨hreturned, hempty, hover⟩ := startFrom_spec launch
      { r with outstanding := [], lastErr := some err } r.rest
    have hempty := hempty.2 ⟨rfl, hnever⟩
    rw [hstep]
    exact ⟨hreturned.trans hnone, hempty, hover hempty⟩
  · exact absurd trivial h
  · exact absurd trivial h

end Race

open Race in
theorem race_sound_iff (followers : List Str) (launch : Nat → Option ε) (hedgeEnabled : Bool)
    (events : List (RaceEvent ε)) :
    (∀ before, before <+: events →
        (run followers launch hedgeEnabled before).Sound followers launch) ↔
      ∀ before ev, before ++ [ev] <+: events →
        (run followers launch hedgeEnabled before).Noticed launch ev := by
  constructor
  · intro hall before ev hprefix
    by_contra hnot
    have hsound := hall _ hprefix
    rw [run, List.foldl_append] at hsound
    obtain ⟨hnone, hover⟩ := over_of_not_noticed hnot
    exact hsound.waits hnone hover
  · intro hnoticed before hprefix
    have hinv := Util.invariant_of_steps (inv_start hedgeEnabled)
      (fun _ _ h hn => inv_step h hn) hnoticed before hprefix
    exact ⟨fun hnone hover => hinv.waits hnone hover.1, step_acked, hinv.fails⟩

/-- The only copy fails, and the other follower cannot be launched. -/
theorem race_waits_for_nothing :
    ((Race.run ["a".toList, "b".toList] (fun i => if i = 0 then none else some ()) false
        [.result 0 (some ())]).returned = none) ∧
      (Race.run ["a".toList, "b".toList] (fun i => if i = 0 then none else some ()) false
        [.result 0 (some ())]).Over :=
  ⟨rfl, rfl, rfl⟩

end CellHive.Peer
