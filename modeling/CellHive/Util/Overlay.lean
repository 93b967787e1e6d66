import Mathlib

/-!
# Overlays of partial maps

A stack of partial maps read from the top: the last layer that defines a key
decides its value. `first` reads the same stack from the bottom; the two agree
when the layers agree with each other wherever they overlap.
-/

namespace CellHive.Overlay

variable {κ α : Type}

/-- The value of the last layer that defines the key. -/
def overlay (layers : List (κ → Option α)) (k : κ) : Option α :=
  layers.foldl (fun below layer => (layer k).or below) none

/-- The value of the first layer that defines the key. -/
def first (layers : List (κ → Option α)) (k : κ) : Option α :=
  layers.findSome? fun layer => layer k

/-- Two layers give the same value to every key both define. -/
def Compatible (f g : κ → Option α) : Prop :=
  ∀ k a b, f k = some a → g k = some b → a = b

section Overlay

variable {xs ys : List (κ → Option α)} {k : κ} {a : α}

@[simp] theorem overlay_nil (k : κ) : overlay ([] : List (κ → Option α)) k = none := rfl

theorem foldl_or (xs : List (κ → Option α)) (k : κ) (below : Option α) :
    xs.foldl (fun b layer => (layer k).or b) below = (overlay xs k).or below := by
  induction xs generalizing below with
  | nil => simp
  | cons f xs ih =>
    simp only [overlay, List.foldl_cons] at ih ⊢
    rw [ih, ih ((f k).or none), Option.or_assoc, Option.or_none]

theorem overlay_append (xs ys : List (κ → Option α)) (k : κ) :
    overlay (xs ++ ys) k = (overlay ys k).or (overlay xs k) := by
  unfold overlay
  rw [List.foldl_append, foldl_or ys]
  rfl

@[simp] theorem overlay_singleton (f : κ → Option α) (k : κ) : overlay [f] k = f k := by
  simp [overlay]

theorem overlay_cons (f : κ → Option α) (xs : List (κ → Option α)) (k : κ) :
    overlay (f :: xs) k = (overlay xs k).or (f k) := by
  rw [← List.singleton_append, overlay_append, overlay_singleton]

theorem exists_of_overlay (h : overlay xs k = some a) : ∃ f ∈ xs, f k = some a := by
  induction xs with
  | nil => simp at h
  | cons f xs ih =>
    rw [overlay_cons, Option.or_eq_some_iff] at h
    rcases h with h | ⟨-, h⟩
    · obtain ⟨g, hg, hk⟩ := ih h
      exact ⟨g, List.mem_cons_of_mem _ hg, hk⟩
    · exact ⟨f, List.mem_cons_self, h⟩

end Overlay

section First

variable {xs : List (κ → Option α)} {k : κ} {a : α}

theorem first_concat (xs : List (κ → Option α)) (f : κ → Option α) (k : κ) :
    first (xs ++ [f]) k = (first xs k).or (f k) := by
  simp only [first, List.findSome?_append, List.findSome?_cons, List.findSome?_nil]
  cases f k <;> rfl

/-- Layers that agree where they overlap: the order of reading does not matter. -/
theorem first_eq_overlay (h : xs.Pairwise Compatible) (k : κ) : first xs k = overlay xs k := by
  induction xs using List.reverseRecOn with
  | nil => rfl
  | append_singleton xs f ih =>
    rw [List.pairwise_append] at h
    obtain ⟨hxs, -, hf⟩ := h
    rw [first_concat, overlay_append, overlay_singleton, ih hxs]
    rcases hk : overlay xs k with _ | a
    · simp
    obtain ⟨g, hg, hgk⟩ := exists_of_overlay hk
    cases hfk : f k with
    | none => rfl
    | some b => simp [hf g hg f (by simp) k a b hgk hfk]

theorem first_eq_of_mem {b : α} {f : κ → Option α} (h : xs.Pairwise Compatible) (hf : f ∈ xs)
    (ha : f k = some a) (hb : first xs k = some b) : a = b := by
  induction xs with
  | nil => cases hf
  | cons g xs ih =>
    obtain ⟨hg, hxs⟩ := List.pairwise_cons.1 h
    rw [first, List.findSome?_cons] at hb
    rcases List.mem_cons.1 hf with rfl | hf
    · rw [ha] at hb
      exact Option.some.inj hb
    cases hgk : g k with
    | none =>
      rw [hgk] at hb
      exact ih hxs hf hb
    | some c =>
      rw [hgk] at hb
      cases hb
      exact (hg f hf k b a hgk ha).symm

/-- Agreeing with a stack of compatible layers is agreeing with each of them. -/
theorem compatible_first {g : κ → Option α} (h : xs.Pairwise Compatible) :
    Compatible (first xs) g ↔ ∀ f ∈ xs, Compatible f g := by
  constructor
  · intro hg f hf k a b ha hb
    have hsome : (first xs k).isSome := List.findSome?_isSome_iff.2 ⟨f, hf, by simp [ha]⟩
    obtain ⟨c, hc⟩ := Option.isSome_iff_exists.1 hsome
    exact (first_eq_of_mem h hf ha hc).trans (hg k c b hc hb)
  · intro hg k a b ha hb
    obtain ⟨f, hf, hfk⟩ := List.exists_of_findSome?_eq_some ha
    exact hg f hf k a b hfk hb

end First

end CellHive.Overlay
