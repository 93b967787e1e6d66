import Mathlib

/-!
# Versioned objects

An object that conditional writes change: it may be absent, and every version that was
ever stored carries a tag of its own. Tags are taken from a counter, so a tag is
never given to a second version; a version that still has the tag it was read with
is the version that was read (`Later.eq_of_tag`).
-/

namespace CellHive.Concurrent

/-- The current version with its tag, and the first tag not given out yet. -/
structure Versioned (α : Type) where
  cur : Option (α × Nat)
  fresh : Nat
  tag_lt : ∀ x ∈ cur, x.2 < fresh

namespace Versioned

variable {α : Type}

/-- An object that never existed. -/
def absent : Versioned α := ⟨none, 0, by simp⟩

def store (v : Versioned α) (a : α) : Versioned α :=
  ⟨some (a, v.fresh), v.fresh + 1, by simp⟩

def create (v : Versioned α) (a : α) : Option (Versioned α) :=
  match v.cur with
  | none => some (v.store a)
  | some _ => none

def cas (v : Versioned α) (a : α) (tag : Nat) : Option (Versioned α) :=
  match v.cur with
  | none => none
  | some x => if x.2 = tag then some (v.store a) else none

def delete (v : Versioned α) (tag : Nat) : Option (Versioned α) :=
  match v.cur with
  | none => none
  | some x => if x.2 = tag then some ⟨none, v.fresh, by simp⟩ else none

/-- The same value under a new tag. -/
def retag (v : Versioned α) : Versioned α :=
  match v.cur with
  | none => v
  | some x => v.store x.1

/-- The tags given out so far keep their versions: a version with one of them was
current before. -/
def Later (v v' : Versioned α) : Prop :=
  v.fresh ≤ v'.fresh ∧ ∀ x ∈ v'.cur, x.2 < v.fresh → v.cur = some x

theorem Later.refl (v : Versioned α) : Later v v := ⟨le_rfl, fun _ hx _ => hx⟩

theorem Later.trans {v₁ v₂ v₃ : Versioned α} (h : Later v₁ v₂) (h' : Later v₂ v₃) :
    Later v₁ v₃ := by
  refine ⟨h.1.trans h'.1, fun x hx hlt => ?_⟩
  exact h.2 x (h'.2 x hx (lt_of_lt_of_le hlt h.1)) hlt

variable {v v' : Versioned α}

theorem Later.eq_of_tag {x y : α × Nat} (h : Later v v') (hx : v.cur = some x)
    (hy : v'.cur = some y) (htag : y.2 = x.2) : y = x := by
  have hlt : x.2 < v.fresh := v.tag_lt x hx
  have hcur := h.2 y hy (htag ▸ hlt)
  rw [hx, Option.some.injEq] at hcur
  exact hcur.symm

theorem later_store (v : Versioned α) (a : α) : Later v (v.store a) := by
  refine ⟨Nat.le_succ _, fun x hx hlt => ?_⟩
  obtain rfl : (a, v.fresh) = x := Option.some.inj hx
  exact absurd hlt (lt_irrefl _)

theorem create_eq_some {a : α} (h : v.create a = some v') : v.cur = none ∧ v' = v.store a := by
  unfold create at h
  split at h
  · next hcur => exact ⟨hcur, (Option.some.inj h).symm⟩
  · cases h

theorem cas_eq_some {a : α} {tag : Nat} (h : v.cas a tag = some v') :
    (∃ b, v.cur = some (b, tag)) ∧ v' = v.store a := by
  unfold cas at h
  split at h
  · cases h
  next x hcur =>
  split at h
  · next htag =>
    subst htag
    exact ⟨⟨x.1, hcur⟩, (Option.some.inj h).symm⟩
  · cases h

theorem delete_eq_some {tag : Nat} (h : v.delete tag = some v') : v'.cur = none ∧ Later v v' := by
  unfold delete at h
  split at h
  · cases h
  split at h
  · cases h
    exact ⟨rfl, le_rfl, fun x hx _ => by cases hx⟩
  · cases h

theorem retag_cur (v : Versioned α) : v.retag.cur.map (·.1) = v.cur.map (·.1) := by
  unfold retag
  split
  · rfl
  · next x hcur => rw [hcur]; rfl

theorem later_retag (v : Versioned α) : Later v v.retag := by
  unfold retag
  split
  · exact Later.refl v
  · exact later_store v _

end Versioned

end CellHive.Concurrent
