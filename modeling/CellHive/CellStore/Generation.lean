import CellHive.Util.Prefixes
import Mathlib.Tactic.FinCases

/-!
# Resource generations

`internal/cellstore/resource_generation.go`, for one scope: before a request is admitted the marker
beside the local file is brought to the generation of the resource, and the file of another
generation is removed. The marker is what the file is known by.

Generations are numbered in the order the bucket goes through them, 0 for a resource never deleted.
A local file carries, as a ghost, the generation it was created or restored for. Steps are taken
under the lock of the scope where the source holds it.
-/

namespace CellHive.CellStore.Generation

/-- Where a goroutine is. `direct` is set in `BeginResourceRequest`, which keeps the lock until the
request is admitted; otherwise the request is prepared first and admitted later. -/
inductive Proc
  | idle
  /-- `EnsureResourceGenerationFromSnapshot` with a generation read before -/
  | snapshot (g : Nat)
  | recheck (g : Nat)
  | locked
  | forgetting (g : Nat) (direct : Bool)
  | forgot (g : Nat) (direct : Bool)
  | ready (g : Nat)
  | prepared (g : Nat)
  /-- inside the request gate, before the generation is checked again -/
  | checking (g : Nat) (direct : Bool)
  | admitted (g : Nat)
deriving DecidableEq, Repr

structure State where
  current : Nat := 0
  marker : Nat := 0
  file : Option Nat := none
  lock : Option Nat := none
  busy : Nat := 0
  procs : Nat → Proc := fun _ => .idle

inductive Event
  /-- the resource is deleted and created again -/
  | change
  /-- the process starts again, with what is on disk -/
  | restart (file : Option Nat) (marker : Nat)
  /-- `Cell` restores or creates a file that is not there -/
  | openCell
  | readSnapshot (t : Nat)
  | lockSnapshot (t : Nat)
  | recheck (t : Nat)
  | lockDirect (t : Nat)
  | authority (t : Nat)
  | forget (t : Nat)
  | writeMarker (t : Nat)
  | fail (t : Nat)
  | begin (t : Nat)
  | check (t : Nat)
  | endRequest (t : Nat)
deriving DecidableEq, Repr

/-- Whether the class of the scope has generations (`__kv__`, `__queue__`), and whether the scope is
pinned, so that `Forget` leaves it alone. -/
structure Config where
  tracked : Bool
  pinned : Bool
deriving DecidableEq, Repr

namespace State

variable (s : State)

def setProc (t : Nat) (p : Proc) : State := { s with procs := Function.update s.procs t p }

/-- `ensureResourceGenerationLocked` up to the removal of the file. -/
def ensureLocked (t g : Nat) (direct : Bool) : State :=
  if s.marker = g then
    if direct then s.setProc t (.ready g) else { s with lock := none }.setProc t (.prepared g)
  -- the generation of the resource disappeared
  else if g = 0 ∧ s.marker ≠ 0 then { s with lock := none }.setProc t .idle
  else s.setProc t (.forgetting g direct)

def unlockIf (direct : Bool) : State := if direct then { s with lock := none } else s

def step (cfg : Config) : Event → State
  | .change => { s with current := s.current + 1 }
  | .restart file marker => { current := s.current, file := file, marker := marker }
  | .openCell => if s.file = none then { s with file := some s.current } else s
  | .readSnapshot t => if s.procs t = .idle then s.setProc t (.snapshot s.current) else s
  | .lockSnapshot t =>
    match s.procs t with
    | .snapshot g =>
      if cfg.tracked = false then s.setProc t (.prepared g)
      else if s.lock ≠ none then s
      else if s.marker = g then s.setProc t (.prepared g)
      else { s with lock := some t }.setProc t (.recheck g)
    | _ => s
  | .recheck t =>
    match s.procs t with
    | .recheck g =>
      if s.current = g then s.ensureLocked t g false else { s with lock := none }.setProc t .idle
    | _ => s
  | .lockDirect t =>
    if s.procs t = .idle ∧ s.lock = none then { s with lock := some t }.setProc t .locked else s
  | .authority t =>
    match s.procs t with
    | .locked => s.ensureLocked t s.current true
    | _ => s
  | .forget t =>
    match s.procs t with
    | .forgetting g direct =>
      -- a pinned scope is not forgotten; the others wait for the requests to drain
      if cfg.pinned then s.setProc t (.forgot g direct)
      else if s.busy = 0 then { s with file := none }.setProc t (.forgot g direct)
      else s
    | _ => s
  | .writeMarker t =>
    match s.procs t with
    | .forgot g direct =>
      if direct then { s with marker := g }.setProc t (.ready g)
      else { s with marker := g, lock := none }.setProc t (.prepared g)
    | _ => s
  | .fail t =>
    match s.procs t with
    | .recheck _ | .locked | .forgetting .. | .forgot .. | .ready _ =>
      { s with lock := none }.setProc t .idle
    | .snapshot _ | .prepared _ => s.setProc t .idle
    | _ => s
  | .begin t =>
    match s.procs t with
    | .ready g => { s with busy := s.busy + 1 }.setProc t (.checking g true)
    | .prepared g => { s with busy := s.busy + 1 }.setProc t (.checking g false)
    | _ => s
  | .check t =>
    match s.procs t with
    | .checking g direct =>
      if s.current = g then (s.unlockIf direct).setProc t (.admitted g)
      else { s.unlockIf direct with busy := s.busy - 1 }.setProc t .idle
    | _ => s
  | .endRequest t =>
    match s.procs t with
    | .admitted _ => { s with busy := s.busy - 1 }.setProc t .idle
    | _ => s

end State

def run (cfg : Config) (events : List Event) : State := events.foldl (State.step · cfg) {}

/-- The local file that an admitted request touches is of its generation. -/
def Touches (s : State) : Prop := ∀ t g, s.procs t = .admitted g → ∀ f, s.file = some f → f = g

/-- A generation changes with no request in flight, and what a restart finds is of generations the
resource has gone through, with the file of the marker's where that is the current one. -/
def Orderly (s : State) : Event → Prop
  | .change => ∀ t g, s.procs t ≠ .admitted g
  | .restart file marker =>
    marker ≤ s.current ∧ ∀ f, file = some f → f ≤ s.current ∧ (marker = s.current → f = marker)
  | _ => True

/-! ## The invariant -/

/-- The goroutine holds the lock. -/
def Proc.holds : Proc → Bool
  | .recheck _ | .locked | .forgetting .. | .forgot .. | .ready _ | .checking _ true => true
  | _ => false

/-- The marker was brought to the generation, and the lock may be free since. -/
def Proc.passed : Proc → Option Nat
  | .prepared g | .checking g false | .admitted g => some g
  | _ => none

/-- The marker is about to be brought to the generation. -/
def Proc.replacing : Proc → Option Nat
  | .forgetting g _ | .forgot g _ => some g
  | _ => none

theorem Proc.holds_of_replacing {p : Proc} {g : Nat} (h : p.replacing = some g) :
    p.holds = true := by
  cases p <;> first | rfl | cases h

/-- What a goroutine knows where it is. -/
def Entry (s : State) (t : Nat) : Proc → Prop
  | .idle => True
  | .snapshot g => g ≤ s.current
  | .recheck g => s.lock = some t ∧ g ≤ s.current
  | .locked => s.lock = some t
  | .forgetting g _ => s.lock = some t ∧ g ≤ s.current
  | .forgot g _ => s.lock = some t ∧ g ≤ s.current ∧ ∀ f, s.file = some f → g ≤ f
  | .ready g | .checking g true => s.lock = some t ∧ g ≤ s.current ∧ s.marker = g
  | .prepared g | .checking g false => g ≤ s.current ∧ (s.marker = g ∨ g < s.current)
  | .admitted g => s.current = g ∧ s.marker = g

/-- A file of another generation than the marker's is there only when the marker is behind, and a
marker is brought to a generation that none of the requests that passed is ahead of. -/
structure Inv (s : State) : Prop where
  marker : s.marker ≤ s.current
  file : ∀ f, s.file = some f → f ≤ s.current ∧ (f = s.marker ∨ s.marker < s.current)
  entry : ∀ t, Entry s t (s.procs t)
  newest : ∀ t t' g g', (s.procs t).replacing = some g → (s.procs t').passed = some g' → g' ≤ g

theorem Inv.touches {s : State} (h : Inv s) : Touches s := by
  intro t g hp f hf
  have hentry := h.entry t
  rw [hp] at hentry
  obtain ⟨hcurrent, hmarker⟩ := hentry
  have hfile := (h.file f hf).2
  omega

theorem Entry.holds {s : State} {t : Nat} {p : Proc} (h : Entry s t p) (hp : p.holds = true) :
    s.lock = some t := by
  cases p with
  | checking g direct =>
    cases direct with
    | true => exact h.1
    | false => cases hp
  | recheck g => exact h.1
  | locked => exact h
  | forgetting | forgot | ready => exact h.1
  | _ => cases hp

theorem Entry.passed_le {s : State} {t g : Nat} {p : Proc} (h : Entry s t p)
    (hp : p.passed = some g) : g ≤ s.current := by
  cases p with
  | prepared g => cases hp; exact h.1
  | checking g direct =>
    cases direct with
    | true => cases hp
    | false => cases hp; exact h.1
  | admitted g => cases hp; exact h.1.ge
  | _ => cases hp

/-- A step of another goroutine, or one that leaves the generations alone. -/
theorem Entry.frame {s s' : State} {t : Nat} {p : Proc} (h : Entry s t p)
    (hcurrent : s'.current = s.current) (hmarker : s'.marker = s.marker)
    (hfile : ∀ f, s'.file = some f → s.file = some f)
    (hlock : p.holds = true → s'.lock = s.lock) : Entry s' t p := by
  cases p with
  | checking g direct => cases direct <;> simp_all [Entry, Proc.holds]
  | forgot g direct =>
    obtain ⟨h₁, h₂, h₃⟩ := h
    exact ⟨(hlock rfl).trans h₁, hcurrent ▸ h₂, fun f hf => h₃ f (hfile f hf)⟩
  | _ => simp_all [Entry, Proc.holds]

/-- The marker is brought to a generation that the goroutine is not ahead of. -/
theorem Entry.setMarker {s : State} {t g : Nat} {p : Proc} (h : Entry s t p)
    (hfree : p.holds = false) (hg : g ≤ s.current) (hpassed : ∀ g', p.passed = some g' → g' ≤ g) :
    Entry { s with marker := g } t p := by
  cases p with
  | idle => trivial
  | snapshot g' => exact h
  | checking g' direct =>
    cases direct with
    | true => cases hfree
    | false =>
      have := hpassed g' rfl
      simp only [Entry] at h ⊢
      omega
  | prepared g' | admitted g' =>
    have := hpassed g' rfl
    simp only [Entry] at h ⊢
    omega
  | _ => cases hfree

namespace Inv

variable {s s' : State} {cfg : Config} {t : Nat} {p : Proc}

section Steps

variable (h : Inv s)
include h

theorem alone (hlock : s.lock = none ∨ s.lock = some t) :
    ∀ t', t' ≠ t → (s.procs t').holds = false := by
  intro t' hne
  by_contra hholds
  have hsome := (h.entry t').holds (by simpa using hholds)
  rcases hlock with hlock | hlock
  · simp [hlock] at hsome
  · rw [hlock, Option.some.injEq] at hsome
    exact hne hsome.symm

theorem move (hprocs : s'.procs = Function.update s.procs t p)
    (hcurrent : s'.current = s.current) (hmarker : s'.marker = s.marker)
    (hfile : ∀ f, s'.file = some f → s.file = some f)
    (hlock : s'.lock = s.lock ∨ ∀ t', t' ≠ t → (s.procs t').holds = false) (hentry : Entry s' t p)
    (hreplacing : p.replacing = none ∨ p.replacing = (s.procs t).replacing ∨
      p.replacing = some s.current)
    (hpassed : p.passed = none ∨ p.passed = (s.procs t).passed ∨
      ∀ t', t' ≠ t → (s.procs t').holds = false) : Inv s' := by
  refine ⟨by rw [hcurrent, hmarker]; exact h.marker, fun f hf => ?_, fun t' => ?_,
    fun t₁ t₂ g g' h₁ h₂ => ?_⟩
  · rw [hcurrent, hmarker]
    exact h.file f (hfile f hf)
  · rw [hprocs]
    by_cases ht : t' = t
    · subst ht
      rwa [Function.update_self]
    rw [Function.update_of_ne ht]
    refine (h.entry t').frame hcurrent hmarker hfile fun hholds => ?_
    rcases hlock with hlock | halone
    · exact hlock
    · rw [halone t' ht] at hholds
      cases hholds
  · rw [hprocs] at h₁ h₂
    by_cases ht₁ : t₁ = t <;> by_cases ht₂ : t₂ = t
    · subst ht₁ ht₂
      rw [Function.update_self] at h₁ h₂
      cases p <;> first | cases h₁; done | cases h₂
    · subst ht₁
      rw [Function.update_self] at h₁
      rw [Function.update_of_ne ht₂] at h₂
      rcases hreplacing with hnone | hsame | hcur
      · rw [h₁] at hnone
        cases hnone
      · exact h.newest t₁ t₂ g g' (hsame ▸ h₁) h₂
      · obtain rfl := Option.some.inj (h₁.symm.trans hcur)
        exact (h.entry t₂).passed_le h₂
    · subst ht₂
      rw [Function.update_of_ne ht₁] at h₁
      rw [Function.update_self] at h₂
      rcases hpassed with hnone | hsame | halone
      · rw [h₂] at hnone
        cases hnone
      · exact h.newest t₁ t₂ g g' h₁ (hsame ▸ h₂)
      · have := Proc.holds_of_replacing h₁
        rw [halone t₁ ht₁] at this
        cases this
    · rw [Function.update_of_ne ht₁] at h₁
      rw [Function.update_of_ne ht₂] at h₂
      exact h.newest t₁ t₂ g g' h₁ h₂

theorem idle {busy : Nat} : Inv ({ s with busy := busy }.setProc t .idle) :=
  h.move rfl rfl rfl (fun _ => id) (.inl rfl) trivial (.inl rfl) (.inl rfl)

theorem unlock (hlock : s.lock = some t) {busy : Nat} :
    Inv ({ s with lock := none, busy := busy }.setProc t .idle) :=
  h.move rfl rfl rfl (fun _ => id) (.inr (h.alone (.inr hlock))) trivial (.inl rfl) (.inl rfl)

theorem ensureLocked (hlock : s.lock = some t) (direct : Bool) :
    Inv (s.ensureLocked t s.current direct) := by
  have halone := h.alone (.inr hlock)
  unfold State.ensureLocked
  split
  · next hmarker =>
    split
    · exact h.move rfl rfl rfl (fun _ => id) (.inl rfl) ⟨hlock, le_rfl, hmarker⟩ (.inl rfl)
        (.inl rfl)
    · exact h.move rfl rfl rfl (fun _ => id) (.inr halone) ⟨le_rfl, .inl hmarker⟩ (.inl rfl)
        (.inr (.inr halone))
  · split
    · exact h.unlock hlock
    · exact h.move rfl rfl rfl (fun _ => id) (.inl rfl) ⟨hlock, le_rfl⟩ (.inr (.inr rfl)) (.inl rfl)

theorem change (hquiet : ∀ t g, s.procs t ≠ .admitted g) : Inv (s.step cfg .change) := by
  refine ⟨h.marker.trans (Nat.le_succ _), fun f hf => ?_, fun t => ?_, h.newest⟩
  · exact ⟨(h.file f hf).1.trans (Nat.le_succ _), .inr (Nat.lt_succ_of_le h.marker)⟩
  · have hentry := h.entry t
    cases hp : s.procs t with
    | admitted g => exact absurd hp (hquiet t g)
    | checking g direct => rw [hp] at hentry; cases direct <;> grind [Entry, State.step]
    | _ => rw [hp] at hentry; grind [Entry, State.step]

theorem openCell : Inv (s.step cfg .openCell) := by
  simp only [State.step]
  split
  · refine ⟨h.marker, fun f hf => ?_, fun t => ?_, h.newest⟩
    · obtain rfl := Option.some.inj hf
      have hmarker := h.marker
      simp only [le_refl, true_and]
      omega
    · have hentry := h.entry t
      cases hp : s.procs t with
      | checking g direct => rw [hp] at hentry; cases direct <;> exact hentry
      | forgot g direct =>
        rw [hp] at hentry
        exact ⟨hentry.1, hentry.2.1, fun f hf => Option.some.inj hf ▸ hentry.2.1⟩
      | _ => rw [hp] at hentry; exact hentry
  · exact h

omit h in
theorem restart {file : Option Nat} {marker : Nat} (hop : Orderly s (.restart file marker)) :
    Inv (s.step cfg (.restart file marker)) := by
  refine ⟨hop.1, fun f hf => ?_, fun _ => trivial, fun _ _ _ _ => nofun⟩
  obtain ⟨hle, heq⟩ := hop.2 f hf
  refine ⟨hle, ?_⟩
  rcases hop.1.eq_or_lt with hmarker | hmarker
  · exact .inl (heq hmarker)
  · exact .inr hmarker

theorem lockSnapshot (htracked : cfg.tracked = true) : Inv (s.step cfg (.lockSnapshot t)) := by
  have hentry := h.entry t
  simp only [State.step]
  split
  · next g hp =>
    rw [hp] at hentry
    rw [if_neg (by simp [htracked])]
    split
    · exact h
    next hlock =>
    have halone := h.alone (t := t) (.inl (not_not.mp hlock))
    split
    · next hmarker =>
      exact h.move rfl rfl rfl (fun _ => id) (.inl rfl) ⟨hentry, .inl hmarker⟩ (.inl rfl)
        (.inr (.inr halone))
    · exact h.move rfl rfl rfl (fun _ => id) (.inr halone) ⟨rfl, hentry⟩ (.inl rfl) (.inl rfl)
  · exact h

theorem recheck : Inv (s.step cfg (.recheck t)) := by
  have hentry := h.entry t
  simp only [State.step]
  split
  · next g hp =>
    rw [hp] at hentry
    split
    · next hcurrent => exact hcurrent ▸ h.ensureLocked hentry.1 false
    · exact h.unlock hentry.1
  · exact h

theorem lockDirect : Inv (s.step cfg (.lockDirect t)) := by
  simp only [State.step]
  split
  · next hfree =>
    exact h.move rfl rfl rfl (fun _ => id) (.inr (h.alone (.inl hfree.2))) rfl (.inl rfl) (.inl rfl)
  · exact h

theorem authority : Inv (s.step cfg (.authority t)) := by
  have hentry := h.entry t
  simp only [State.step]
  split
  · next hp =>
    rw [hp] at hentry
    exact h.ensureLocked hentry true
  · exact h

theorem forget (hpinned : cfg.pinned = false) : Inv (s.step cfg (.forget t)) := by
  have hentry := h.entry t
  simp only [State.step]
  split
  · next g direct hp =>
    rw [hp] at hentry
    rw [if_neg (by simp [hpinned])]
    split
    · exact h.move rfl rfl rfl (fun _ hf => nomatch hf) (.inl rfl)
        ⟨hentry.1, hentry.2, fun _ hf => nomatch hf⟩ (.inr (.inl (by rw [hp]; rfl))) (.inl rfl)
    · exact h
  · exact h

theorem setMarker {g : Nat} {direct : Bool} (hp : s.procs t = .forgot g direct) :
    Inv ({ s with marker := g }.setProc t (.ready g)) := by
  have hentry := h.entry t
  rw [hp] at hentry
  obtain ⟨hlock, hle, hfile⟩ := hentry
  have halone := h.alone (.inr hlock)
  refine ⟨hle, fun f hf => ?_, fun t' => ?_, fun t₁ t₂ g₁ g₂ h₁ h₂ => ?_⟩
  · have hcurrent := h.file f hf
    have hnew := hfile f hf
    simp only [State.setProc]
    omega
  · simp only [State.setProc]
    by_cases ht : t' = t
    · subst ht
      rw [Function.update_self]
      exact ⟨hlock, hle, rfl⟩
    · rw [Function.update_of_ne ht]
      exact (h.entry t').setMarker (halone t' ht) hle fun g' => h.newest t t' g g' (by rw [hp]; rfl)
  · simp only [State.setProc] at h₁
    by_cases ht : t₁ = t
    · subst ht
      rw [Function.update_self] at h₁
      cases h₁
    · rw [Function.update_of_ne ht] at h₁
      have hholds := Proc.holds_of_replacing h₁
      rw [halone t₁ ht] at hholds
      cases hholds

theorem writeMarker : Inv (s.step cfg (.writeMarker t)) := by
  simp only [State.step]
  split
  · next g direct hp =>
    have hready := h.setMarker hp
    have hentry := h.entry t
    rw [hp] at hentry
    have halone := hready.alone (.inr hentry.1)
    split
    · exact hready
    · refine hready.move (t := t) (p := .prepared g) ?_ rfl rfl (fun _ => id) (.inr halone)
        ⟨hentry.2.1, .inl rfl⟩ (.inl rfl) (.inr (.inr halone))
      simp only [State.setProc, Function.update_idem]
  · exact h

theorem fail : Inv (s.step cfg (.fail t)) := by
  have hentry := h.entry t
  simp only [State.step]
  split
  all_goals first | exact h | exact h.idle | skip
  all_goals next hp => exact h.unlock (hentry.holds (by rw [hp]; rfl))

theorem «begin» : Inv (s.step cfg (.begin t)) := by
  have hentry := h.entry t
  simp only [State.step]
  split
  · next g hp =>
    rw [hp] at hentry
    exact h.move rfl rfl rfl (fun _ => id) (.inl rfl) hentry (.inl rfl) (.inl rfl)
  · next g hp =>
    rw [hp] at hentry
    exact h.move rfl rfl rfl (fun _ => id) (.inl rfl) hentry (.inl rfl)
      (.inr (.inl (by rw [hp]; rfl)))
  · exact h

theorem check : Inv (s.step cfg (.check t)) := by
  have hentry := h.entry t
  simp only [State.step]
  split
  · next g direct hp =>
    rw [hp] at hentry
    cases direct with
    | true =>
      have halone := h.alone (.inr hentry.1)
      split
      · next hcurrent =>
        exact h.move rfl rfl rfl (fun _ => id) (.inr halone) ⟨hcurrent, hentry.2.2⟩ (.inl rfl)
          (.inr (.inr halone))
      · exact h.unlock hentry.1
    | false =>
      split
      · next hcurrent =>
        have hmarker : s.marker = g := hentry.2.resolve_right (by omega)
        exact h.move rfl rfl rfl (fun _ => id) (.inl rfl) ⟨hcurrent, hmarker⟩ (.inl rfl)
          (.inr (.inl (by rw [hp]; rfl)))
      · exact h.idle
  · exact h

end Steps

theorem step (htracked : cfg.tracked = true) (hpinned : cfg.pinned = false) {e : Event} (h : Inv s)
    (hop : Orderly s e) : Inv (s.step cfg e) := by
  cases e with
  | change => exact h.change hop
  | restart file marker => exact restart hop
  | openCell => exact h.openCell
  | readSnapshot t =>
    simp only [State.step]
    split
    · exact h.move rfl rfl rfl (fun _ => id) (.inl rfl) le_rfl (.inl rfl) (.inl rfl)
    · exact h
  | lockSnapshot t => exact h.lockSnapshot htracked
  | recheck t => exact h.recheck
  | lockDirect t => exact h.lockDirect
  | authority t => exact h.authority
  | forget t => exact h.forget hpinned
  | writeMarker t => exact h.writeMarker
  | fail t => exact h.fail
  | begin t => exact h.begin
  | check t => exact h.check
  | endRequest t =>
    simp only [State.step]
    split
    · exact h.idle
    · exact h

end Inv

theorem inv_init : Inv {} :=
  ⟨le_rfl, fun _ => nofun, fun _ => trivial, fun _ _ _ _ => nofun⟩

/-- A leftover file of an older generation is forgotten before the request is admitted. -/
def replaced : List Event :=
  [.change, .restart (some 0) 0, .lockDirect 0, .authority 0, .forget 0, .writeMarker 0, .begin 0,
    .check 0, .openCell]

end CellHive.CellStore.Generation
