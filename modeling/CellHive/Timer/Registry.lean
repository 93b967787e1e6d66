import CellHive.Go.Strings

/-!
# The registry of scopes that hold timers

A process keeps, per scope, the time at which its timers are to be looked at next. Producers
move it with `Add` and `Arm`; the runner takes a snapshot, polls the scope, and writes its
answer back if no producer came in between. A due time of 0 stands for an unknown one, which is
due at once.

The entry is compared with the earliest request since it was last written by the runner.
-/

namespace CellHive.Timer

open Go

/-- `registryEntry`; `gen` is bumped by every producer update. -/
structure Entry where
  due : Int
  gen : UInt64
deriving DecidableEq, Repr

abbrev Registry := AList fun _ : Str => Entry

namespace Registry

/-- `Arm`. A missing entry reads as the zero one. -/
def arm (r : Registry) (scope : Str) (dueMs : Int) : Registry :=
  let e := (r.lookup scope).getD ⟨0, 0⟩
  r.insert scope ⟨if e.due = 0 ∨ dueMs = 0 ∨ dueMs < e.due then dueMs else e.due, e.gen + 1⟩

def add (r : Registry) (scope : Str) : Registry := r.arm scope 0

def remove (r : Registry) (scope : Str) : Registry := r.erase scope

def snapshot (r : Registry) (scope : Str) : Option Entry := r.lookup scope

/-- The generation a conditional update asks for is still there. -/
def unchanged (r : Registry) (scope : Str) (gen : UInt64) : Bool :=
  (r.lookup scope).any fun e => e.gen = gen

def setIfUnchanged (r : Registry) (scope : Str) (gen : UInt64) (due : Int) : Registry :=
  if r.unchanged scope gen then r.insert scope ⟨due, gen⟩ else r

def removeIf (r : Registry) (scope : Str) (gen : UInt64) : Registry :=
  if r.unchanged scope gen then r.erase scope else r

def due (r : Registry) (nowMs : Int) : List Str :=
  (r.entries.filter fun e => e.2.due = 0 ∨ e.2.due ≤ nowMs).map Sigma.fst

end Registry

/-! ## A pass of the runner -/

/-- How the runner's work on one scope went: the scope's resource is deleted, the scope is not
owned, something failed, or the timers were dispatched and the next one is due at `next`. -/
inductive Outcome
  | deleted
  | notOwned
  | failed
  | dispatched (next : Int)
deriving DecidableEq, Repr

/-- What the loop body of `Pass` writes at its end: nothing, or an entry, or no entry. -/
def Outcome.update : Outcome → Option (Option Int)
  | .deleted => some none
  | .notOwned => some none
  | .failed => none
  | .dispatched next => some (if next = 0 then none else some next)

def finish (r : Registry) (scope : Str) (gen : UInt64) (o : Outcome) : Registry :=
  match o.update with
  | none => r
  | some none => r.removeIf scope gen
  | some (some next) => r.setIfUnchanged scope gen next

/-! ## Requests -/

/-- `wake.earlier`: 0 is before everything. -/
def earlier (a b : Int) : Bool := a = 0 ∨ (b ≠ 0 ∧ a < b)

/-- What the last update of an entry left, and what was asked for since. -/
structure Since where
  left : Option Int
  asked : List Int
deriving DecidableEq, Repr

/-- The earlier of two wakeups, the first of which may be missing. -/
def combine (acc : Option Int) (d : Int) : Option Int :=
  match acc with
  | none => some d
  | some e => some (if earlier d e then d else e)

def Since.earliest (s : Since) : Option Int := s.asked.foldl combine s.left

inductive Event
  | arm (scope : Str) (dueMs : Int)
  | remove (scope : Str)
  | snapshot (scope : Str)
  | finish (o : Outcome)
deriving DecidableEq, Repr

/-- The registry, the scope and generation the runner is at, and per scope the requests since
the last update of its entry. -/
structure State where
  registry : Registry
  pass : Option (Str × UInt64)
  since : Str → Since

namespace State

def start : State := ⟨∅, none, fun _ => ⟨none, []⟩⟩

def setSince (s : State) (scope : Str) (x : Since) : Str → Since :=
  fun k => if k = scope then x else s.since k

def step (s : State) : Event → State
  | .arm scope d =>
    { s with
      registry := s.registry.arm scope d
      since := s.setSince scope ⟨(s.since scope).left, (s.since scope).asked ++ [d]⟩ }
  | .remove scope =>
    { s with registry := s.registry.remove scope, since := s.setSince scope ⟨none, []⟩ }
  | .snapshot scope =>
    { s with pass := (s.registry.snapshot scope).map fun e => (scope, e.gen) }
  | .finish o =>
    match s.pass with
    | none => s
    | some (scope, gen) =>
      { registry := finish s.registry scope gen o
        pass := none
        since :=
          match o.update with
          | some left =>
            if s.registry.unchanged scope gen then s.setSince scope ⟨left, []⟩ else s.since
          | none => s.since }

def run (events : List Event) : State := events.foldl step start

theorem run_concat (events : List Event) (ev : Event) :
    run (events ++ [ev]) = (run events).step ev := by
  rw [run, List.foldl_append]
  rfl

/-- Every entry is the earliest request since it was last updated. -/
def Exact (s : State) : Prop :=
  ∀ scope, (s.registry.lookup scope).map Entry.due = (s.since scope).earliest

/-- No request is looked at later than its due time. -/
def OnTime (s : State) : Prop :=
  ∀ scope, ∀ d ∈ (s.since scope).asked, ∀ now, d = 0 ∨ d ≤ now → scope ∈ s.registry.due now

/-- The event does not arm an entry whose due time is 0 with another one. -/
def Meets (s : State) : Event → Prop
  | .arm scope d => ∀ e, s.registry.lookup scope = some e → e.due = 0 → d = 0
  | _ => True

/-! ## One event -/

theorem since_earliest_concat (x : Since) (d : Int) :
    (Since.mk x.left (x.asked ++ [d])).earliest = combine x.earliest d := by
  simp [Since.earliest, List.foldl_append]

variable {s : State}

theorem exact_arm (h : s.Exact) (scope : Str) (d : Int) :
    (s.step (.arm scope d)).Exact ↔ s.Meets (.arm scope d) := by
  have hother (k : Str) (hk : k ≠ scope) :
      ((s.step (.arm scope d)).registry.lookup k).map Entry.due =
        ((s.step (.arm scope d)).since k).earliest := by
    simp only [step, Registry.arm, setSince, if_neg hk]
    rw [AList.lookup_insert_ne hk]
    exact h k
  have hself : ((s.step (.arm scope d)).registry.lookup scope).map Entry.due =
      ((s.step (.arm scope d)).since scope).earliest ↔ s.Meets (.arm scope d) := by
    simp only [step, Registry.arm, setSince, if_true, AList.lookup_insert, Option.map_some,
      since_earliest_concat, ← h scope, Meets]
    cases s.registry.lookup scope with
    | none => simp [combine]
    | some e =>
      simp only [Option.getD_some, Option.map_some, combine, Option.some.injEq, forall_eq',
        earlier, decide_eq_true_eq]
      by_cases he : e.due = 0 <;> by_cases hd : d = 0 <;> simp [he, hd]
  constructor
  · intro hexact
    exact hself.mp (hexact scope)
  · intro hmeets k
    by_cases hk : k = scope
    · subst hk
      exact hself.mpr hmeets
    · exact hother k hk

theorem exact_remove (h : s.Exact) (scope : Str) : (s.step (.remove scope)).Exact := by
  intro k
  simp only [step, Registry.remove, setSince]
  by_cases hk : k = scope
  · subst hk
    rw [AList.lookup_erase, if_pos rfl]
    rfl
  · rw [AList.lookup_erase_ne hk, if_neg hk]
    exact h k

theorem exact_finish (h : s.Exact) (o : Outcome) : (s.step (.finish o)).Exact := by
  unfold step
  rcases s.pass with _ | p
  · exact h
  obtain ⟨scope, gen⟩ := p
  dsimp only
  intro k
  unfold finish
  rcases o.update with _ | left
  · exact h k
  by_cases hu : s.registry.unchanged scope gen
  · by_cases hk : k = scope
    · subst hk
      cases left with
      | none => simp [Registry.removeIf, hu, setSince, Since.earliest]
      | some next => simp [Registry.setIfUnchanged, hu, setSince, Since.earliest]
    · cases left with
      | none =>
        simp only [Registry.removeIf, hu, if_true, setSince, if_neg hk]
        rw [AList.lookup_erase_ne hk]
        exact h k
      | some next =>
        simp only [Registry.setIfUnchanged, hu, if_true, setSince, if_neg hk]
        rw [AList.lookup_insert_ne hk]
        exact h k
  · cases left <;>
      simpa only [Registry.removeIf, Registry.setIfUnchanged, hu, Bool.false_eq_true,
        if_false] using h k

/-- Only an arming can part the entries from the requests. -/
theorem exact_step (h : s.Exact) (ev : Event) : (s.step ev).Exact ↔ s.Meets ev := by
  cases ev with
  | arm scope d => exact exact_arm h scope d
  | remove scope => exact iff_of_true (exact_remove h scope) trivial
  | snapshot scope => exact iff_of_true h trivial
  | finish o => exact iff_of_true (exact_finish h o) trivial

/-! ## On time -/

theorem combine_le {acc : Option Int} {d e : Int} (h : combine acc d = some e) :
    (e = 0 ∨ e ≤ d) ∧ (d = 0 → e = 0) := by
  cases acc with
  | none =>
    cases h
    exact ⟨.inr le_rfl, id⟩
  | some a =>
    simp only [combine, earlier, Option.some.injEq, decide_eq_true_eq] at h
    split at h <;> omega

theorem combine_keeps {acc : Int} {d e : Int} (h : combine (some acc) d = some e) :
    (e = 0 ∨ e ≤ acc) ∧ (acc = 0 → e = 0) := by
  simp only [combine, earlier, Option.some.injEq, decide_eq_true_eq] at h
  split at h <;> omega

theorem earliest_le {left : Option Int} {asked : List Int} {e d : Int}
    (h : asked.foldl combine left = some e) (hd : d ∈ asked) :
    (e = 0 ∨ e ≤ d) ∧ (d = 0 → e = 0) := by
  induction asked using List.reverseRecOn generalizing e with
  | nil => cases hd
  | append_singleton asked last ih =>
    rw [List.foldl_append] at h
    rcases List.mem_append.mp hd with hd | hd
    · cases hacc : asked.foldl combine left with
      | none =>
        -- the first request of a missing entry is kept, so an accumulator cannot stay empty
        have hne : asked.foldl combine left ≠ none := by
          obtain ⟨init, x, rfl⟩ : ∃ init x, asked = init ++ [x] :=
            ⟨_, _, (List.dropLast_append_getLast (List.ne_nil_of_mem hd)).symm⟩
          rw [List.foldl_append]
          cases init.foldl combine left <;> simp [combine]
        exact absurd hacc hne
      | some a =>
        rw [hacc] at h
        obtain ⟨hle, hzero⟩ := combine_keeps h
        obtain ⟨hle', hzero'⟩ := ih hacc hd
        refine ⟨?_, fun hd0 => hzero (hzero' hd0)⟩
        rcases hle' with h0 | hle'
        · exact .inl (hzero h0)
        · rcases hle with h0 | hle
          · exact .inl h0
          · exact .inr (hle.trans hle')
    · rw [List.mem_singleton.mp hd]
      exact combine_le h

theorem mem_due {r : Registry} {scope : Str} {e : Entry} {now : Int}
    (h : r.lookup scope = some e) (hdue : e.due = 0 ∨ e.due ≤ now) : scope ∈ r.due now := by
  have hmem : (⟨scope, e⟩ : Sigma fun _ : Str => Entry) ∈ r.entries :=
    AList.mem_lookup_iff.mp h
  rw [Registry.due, List.mem_map]
  exact ⟨_, List.mem_filter.mpr ⟨hmem, by simpa using hdue⟩, rfl⟩

theorem Exact.onTime (h : s.Exact) : s.OnTime := by
  intro scope d hd now hnow
  have hexact := h scope
  cases hlook : s.registry.lookup scope with
  | none =>
    exfalso
    rw [hlook] at hexact
    obtain ⟨init, x, hsplit⟩ : ∃ init x, (s.since scope).asked = init ++ [x] :=
      ⟨_, _, (List.dropLast_append_getLast (List.ne_nil_of_mem hd)).symm⟩
    rw [Since.earliest, hsplit] at hexact
    cases hinit : init.foldl combine (s.since scope).left <;> simp [hinit, combine] at hexact
  | some e =>
    rw [hlook] at hexact
    obtain ⟨hle, hzero⟩ := earliest_le hexact.symm hd
    apply mem_due hlook
    rcases hnow with h0 | hnow
    · exact .inl (hzero h0)
    · exact hle.imp id fun hle => hle.trans hnow

/-! ## Whole runs -/

theorem exact_start : start.Exact := fun _ => rfl

end State

end CellHive.Timer
