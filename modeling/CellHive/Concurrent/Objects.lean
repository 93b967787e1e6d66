import Mathlib

/-!
# A store of versioned objects

Objects under keys, each stored under a tag of its own. An object is created if there is
none under its key, and deleted if it still has the tag its writer knows.
-/

namespace CellHive.Concurrent

/-- The objects with their tags, and the first tag not given out yet. -/
structure Objects (κ α : Type) where
  entries : List (κ × α × Nat)
  fresh : Nat

namespace Objects

variable {κ α : Type} [DecidableEq κ] {o o' : Objects κ α} {k k' : κ} {a : α} {tag : Nat}

def get (o : Objects κ α) (k : κ) : Option (α × Nat) :=
  (o.entries.find? fun e => e.1 = k).map (·.2)

def keys (o : Objects κ α) : List κ := o.entries.map (·.1)

def create (o : Objects κ α) (k : κ) (a : α) : Option (Objects κ α) :=
  match o.get k with
  | some _ => none
  | none => some ⟨o.entries ++ [(k, a, o.fresh)], o.fresh + 1⟩

def delete (o : Objects κ α) (k : κ) (tag : Nat) : Option (Objects κ α) :=
  match o.get k with
  | none => none
  | some x =>
    if x.2 = tag then some ⟨o.entries.filter fun e => e.1 ≠ k, o.fresh⟩ else none

theorem get_eq_none : o.get k = none ↔ k ∉ o.keys := by
  unfold get keys
  rw [Option.map_eq_none_iff, List.find?_eq_none, List.mem_map]
  constructor
  · rintro h ⟨e, he, heq⟩
    exact h e he (decide_eq_true heq)
  · intro h e he heq
    exact h ⟨e, he, of_decide_eq_true heq⟩

theorem create_eq_some (h : o.create k a = some o') :
    k ∉ o.keys ∧ o'.keys = o.keys ++ [k] ∧
      ∀ k', o'.get k' = if k' = k then some (a, o.fresh) else o.get k' := by
  unfold create at h
  cases hget : o.get k with
  | some x =>
    rw [hget] at h
    cases h
  | none =>
    rw [hget] at h
    cases h
    have hno := get_eq_none.1 hget
    refine ⟨hno, ?_, fun k' => ?_⟩
    · simp [keys]
    · unfold get
      rw [List.find?_append]
      split
      next heq =>
        subst heq
        have hfind : o.entries.find? (fun e => e.1 = k') = none := Option.map_eq_none_iff.1 hget
        rw [hfind]
        simp
      next hne =>
        have hlast : [(k, a, o.fresh)].find? (fun e => e.1 = k') = none := by
          rw [List.find?_eq_none]
          intro e he
          rw [List.mem_singleton.1 he]
          simpa using fun heq : k = k' => hne heq.symm
        rw [hlast, Option.or_none]

theorem delete_eq_some (h : o.delete k tag = some o') :
    ∀ k', o'.get k' = if k' = k then none else o.get k' := by
  unfold delete at h
  cases hget : o.get k with
  | none =>
    rw [hget] at h
    cases h
  | some x =>
    rw [hget] at h
    dsimp only at h
    split at h
    · cases h
      intro k'
      unfold get
      rw [List.find?_filter]
      split
      next heq =>
        subst heq
        rw [Option.map_eq_none_iff, List.find?_eq_none]
        intro e _
        simp
      next hne =>
        congr 2
        funext e
        by_cases he : e.1 = k'
        · simp [he, hne]
        · simp [he]
    · cases h

end Objects

end CellHive.Concurrent
