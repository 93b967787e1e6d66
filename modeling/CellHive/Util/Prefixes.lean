import Mathlib.Data.List.Basic
import Mathlib.Data.List.Infix
import Mathlib.Data.Fintype.Basic

/-!
# Runs and their prefixes

A run is a fold of a step function over a list of events. What must hold of each event, in the
state it happens in, is stated over the prefixes of the list.
-/

namespace CellHive.Util

universe u v

section

variable {ε : Type u} {P : List ε → ε → Prop}

/-- The events of a list with what comes before them, by position. -/
theorem forall_concat_isPrefix {l : List ε} :
    (∀ before ev, before ++ [ev] <+: l → P before ev) ↔
      ∀ k : Fin l.length, P (l.take k) (l.get k) := by
  constructor
  · intro h k
    apply h
    rw [List.get_eq_getElem, ← List.take_succ_eq_append_getElem k.isLt]
    exact List.take_prefix _ _
  · rintro h before ev ⟨rest, rfl⟩
    have hk : before.length < (before ++ [ev] ++ rest).length := by simp
    have hat := h ⟨before.length, hk⟩
    simpa using hat

instance decidableForallConcat {l : List ε} [∀ before ev, Decidable (P before ev)] :
    Decidable (∀ before ev, before ++ [ev] <+: l → P before ev) :=
  decidable_of_iff _ forall_concat_isPrefix.symm

end

/-- An invariant that holds at the start and that every good step keeps holds in every state of
a run of good steps. -/
theorem invariant_of_steps {σ : Type v} {ε : Type u} {step : σ → ε → σ} {s : σ} {I : σ → Prop}
    {good : σ → ε → Prop} (hstart : I s) (hstep : ∀ s ev, I s → good s ev → I (step s ev))
    {events : List ε}
    (hgood : ∀ before ev, before ++ [ev] <+: events → good (before.foldl step s) ev) :
    ∀ before, before <+: events → I (before.foldl step s) := by
  intro before hbefore
  induction before using List.reverseRecOn with
  | nil => exact hstart
  | append_singleton before ev ih =>
    rw [List.foldl_append]
    have hprev := ih ((List.prefix_append before [ev]).trans hbefore)
    exact hstep _ ev hprev (hgood before ev hbefore)

/-- Where a step keeps the invariant exactly when it is good, the runs in which it always holds are
the runs of good steps. -/
theorem invariant_iff_steps {σ : Type v} {ε : Type u} {step : σ → ε → σ} {s : σ} {I : σ → Prop}
    {good : σ → ε → Prop} (hstart : I s) (hstep : ∀ s ev, I s → (I (step s ev) ↔ good s ev))
    (events : List ε) :
    (∀ before, before <+: events → I (before.foldl step s)) ↔
      ∀ before ev, before ++ [ev] <+: events → good (before.foldl step s) ev := by
  constructor
  · intro hall before ev hprefix
    have hafter := hall _ hprefix
    rw [List.foldl_append] at hafter
    exact (hstep _ ev (hall before ((List.prefix_append before [ev]).trans hprefix))).mp hafter
  · exact invariant_of_steps hstart fun s ev hs => (hstep s ev hs).mpr

end CellHive.Util
