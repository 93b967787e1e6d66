import Mathlib

/-!
# Error values

Go errors as data: a sentinel that callers compare with `errors.Is`, a
formatted text, or a text that wraps another error (`%w`). A fallible function
returns `Except (GoError σ) α`, where `σ` lists the sentinels of the program.
-/

namespace CellHive.Go

inductive GoError (σ : Type) where
  | sentinel (s : σ)
  | errorf (text : String)
  | wrap (text : String) (inner : GoError σ)
  deriving DecidableEq, Repr

namespace GoError

/-- `errors.Is`: the sentinel occurs in the chain of wrapped errors. -/
def is {σ : Type} [DecidableEq σ] (s : σ) : GoError σ → Bool
  | sentinel t => t == s
  | errorf _ => false
  | wrap _ inner => inner.is s

end GoError

/-! ## Sequencing fallible steps -/

section Bind

variable {ε α β : Type}

theorem bind_eq_ok {x : Except ε α} {f : α → Except ε β} {b : β} :
    (x >>= f) = .ok b ↔ ∃ a, x = .ok a ∧ f a = .ok b := by
  cases x with
  | error | ok => simp [bind, Except.bind]

@[simp] theorem ok_bind (a : α) (f : α → Except ε β) : ((Except.ok a : Except ε α) >>= f) = f a := rfl

@[simp] theorem error_bind (e : ε) (f : α → Except ε β) :
    ((Except.error e : Except ε α) >>= f) = .error e := rfl

theorem map_eq_ok {x : Except ε α} {f : α → β} {b : β} :
    x.map f = .ok b ↔ ∃ a, x = .ok a ∧ f a = b := by
  cases x with
  | error | ok => simp [Except.map]

theorem guard_eq_ok {c : Prop} [Decidable c] {e : ε} {x : Except ε α} {a : α}
    (h : (if c then .error e else x) = .ok a) : ¬ c ∧ x = .ok a := by
  split at h
  · cases h
  · next hc => exact ⟨hc, h⟩

theorem isOk_iff {x : Except ε α} : x.isOk = true ↔ ∃ a, x = .ok a := by
  cases x <;> simp [Except.isOk, Except.toBool]

/-- A loop that decodes each element before it uses it succeeds when all elements
decode and the loop over the decoded elements succeeds. -/
theorem foldlM_decode {σ : Type} {f : σ → α → Except ε σ} {g : σ → β → Except ε σ}
    {decodes : α → β → Prop}
    (hf : ∀ s a s', f s a = .ok s' ↔ ∃ b, decodes a b ∧ g s b = .ok s') (xs : List α) (s s' : σ) :
    xs.foldlM f s = .ok s' ↔ ∃ ys, List.Forall₂ decodes xs ys ∧ ys.foldlM g s = .ok s' := by
  induction xs generalizing s with
  | nil => simp
  | cons a xs ih =>
    simp only [List.foldlM_cons, bind_eq_ok, hf]
    constructor
    · rintro ⟨s₁, ⟨b, hb, hg⟩, hrest⟩
      obtain ⟨ys, hys, hfold⟩ := (ih s₁).1 hrest
      refine ⟨b :: ys, .cons hb hys, ?_⟩
      rw [List.foldlM_cons, hg, ok_bind, hfold]
    · rintro ⟨_, hys, hfold⟩
      cases hys with
      | cons hb hys =>
        rw [List.foldlM_cons, bind_eq_ok] at hfold
        obtain ⟨s₁, hg, hfold⟩ := hfold
        exact ⟨s₁, ⟨_, hb, hg⟩, (ih s₁).2 ⟨_, hys, hfold⟩⟩

end Bind

end CellHive.Go
