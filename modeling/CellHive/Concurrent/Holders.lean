import Mathlib.Logic.Function.Basic

/-!
# Flags and their holders

A map of flags, and for each process the key whose flag it holds: a set flag per holder, and at most
one holder per key. Processes set a flag that is not set, and clear the one they hold.
-/

namespace CellHive.Concurrent

universe u v

variable {τ : Type u} {κ : Type v} [DecidableEq τ] [DecidableEq κ]

def Holds (flag : κ → Bool) (holder : τ → Option κ) : Prop :=
  ∀ t k, holder t = some k → flag k = true ∧ ∀ t', holder t' = some k → t' = t

variable {flag : κ → Bool} {holder : τ → Option κ} {t : τ} {k : κ}

omit [DecidableEq κ] in
/-- A process that keeps what it holds, or holds nothing any more. -/
theorem Holds.keep (h : Holds flag holder) {x : Option κ} (hx : x = none ∨ x = holder t) :
    Holds flag (Function.update holder t x) := by
  have hold : ∀ t' k, Function.update holder t x t' = some k → holder t' = some k := by
    intro t' k ht'
    by_cases heq : t' = t
    · subst heq
      rw [Function.update_self] at ht'
      rcases hx with rfl | rfl
      · cases ht'
      · exact ht'
    · rwa [Function.update_of_ne heq] at ht'
  intro t' k ht'
  obtain ⟨hflag, hone⟩ := h t' k (hold t' k ht')
  exact ⟨hflag, fun t₂ ht₂ => hone t₂ (hold t₂ k ht₂)⟩

theorem Holds.acquire (h : Holds flag holder) (hfree : flag k = false) (t : τ) :
    Holds (Function.update flag k true) (Function.update holder t (some k)) := by
  have hcases : ∀ t' k', Function.update holder t (some k) t' = some k' →
      (t' = t ∧ k' = k) ∨ (k' ≠ k ∧ holder t' = some k') := by
    intro t' k' ht'
    by_cases heq : t' = t
    · subst heq
      rw [Function.update_self, Option.some.injEq] at ht'
      exact .inl ⟨rfl, ht'.symm⟩
    · rw [Function.update_of_ne heq] at ht'
      refine .inr ⟨?_, ht'⟩
      rintro rfl
      rw [(h t' k' ht').1] at hfree
      cases hfree
  intro t' k' ht'
  rcases hcases t' k' ht' with ⟨rfl, rfl⟩ | ⟨hne, hold⟩
  · refine ⟨Function.update_self .., fun t₂ ht₂ => ?_⟩
    rcases hcases t₂ k' ht₂ with ⟨rfl, -⟩ | ⟨hne, -⟩
    · rfl
    · exact absurd rfl hne
  · obtain ⟨hflag, hone⟩ := h t' k' hold
    rw [Function.update_of_ne hne]
    refine ⟨hflag, fun t₂ ht₂ => ?_⟩
    rcases hcases t₂ k' ht₂ with ⟨-, rfl⟩ | ⟨-, hold₂⟩
    · exact absurd rfl hne
    · exact hone t₂ hold₂

theorem Holds.release (h : Holds flag holder) (hold : holder t = some k) :
    Holds (Function.update flag k false) (Function.update holder t none) := by
  intro t' k' ht'
  have hne : t' ≠ t := by
    rintro rfl
    rw [Function.update_self] at ht'
    cases ht'
  obtain ⟨hflag, hone⟩ := h.keep (.inl rfl) t' k' ht'
  rw [Function.update_of_ne hne] at ht'
  have hk : k' ≠ k := by
    rintro rfl
    exact hne ((h t k' hold).2 t' ht')
  rw [Function.update_of_ne hk]
  exact ⟨hflag, hone⟩

end CellHive.Concurrent
