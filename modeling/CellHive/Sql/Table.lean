import Mathlib.Data.List.Sort

/-!
# Tables with a primary key

One relational table as the statements of a transaction see it: a list of rows of which no two
agree on the primary key. The uniqueness is a field, so every statement below has to keep it and
a lookup by key has at most one answer.

The row order is the order of insertion. A statement whose result must not depend on it says so
with `orderBy`.
-/

namespace CellHive.Sql

variable {ρ κ : Type}

structure Table (key : ρ → κ) where
  rows : List ρ
  unique : (rows.map key).Nodup

namespace Table

variable {key : ρ → κ} {t : Table key} {x r : ρ} {k : κ}

@[ext] theorem ext {u : Table key} (h : t.rows = u.rows) : t = u := by
  cases t
  cases u
  cases h
  rfl

instance [DecidableEq ρ] : DecidableEq (Table key) := fun t u =>
  decidable_of_iff (t.rows = u.rows) ⟨ext, fun h => h ▸ rfl⟩

def empty : Table key := ⟨[], List.nodup_nil⟩

instance : Inhabited (Table key) := ⟨empty⟩

@[simp] theorem rows_empty : (empty : Table key).rows = [] := rfl

def delete (t : Table key) (p : ρ → Bool) : Table key where
  rows := t.rows.filter fun r => !p r
  unique := t.unique.sublist ((List.filter_sublist).map key)

/-- `UPDATE t SET .. WHERE p`, where the assignment leaves the key alone. -/
def update (t : Table key) (p : ρ → Bool) (f : ρ → ρ) (hf : ∀ r, key (f r) = key r) :
    Table key where
  rows := t.rows.map fun r => if p r then f r else r
  unique := by
    have hkey : key ∘ (fun r => if p r then f r else r) = key := by
      funext r
      by_cases h : p r <;> simp [h, hf]
    rw [List.map_map, hkey]
    exact t.unique

theorem key_injOn {y : ρ} (hx : x ∈ t.rows) (hy : y ∈ t.rows) (h : key x = key y) : x = y :=
  List.inj_on_of_nodup_map t.unique hx hy h

theorem mem_delete {p : ρ → Bool} : x ∈ (t.delete p).rows ↔ x ∈ t.rows ∧ p x = false := by
  simp [delete]

theorem mem_update {p : ρ → Bool} {f : ρ → ρ} {hf : ∀ r, key (f r) = key r} :
    x ∈ (t.update p f hf).rows ↔ ∃ y ∈ t.rows, (if p y then f y else y) = x := by
  simp [update]

variable [DecidableEq κ]

def get (t : Table key) (k : κ) : Option ρ := t.rows.find? fun r => key r = k

def insertIgnore (t : Table key) (r : ρ) : Table key :=
  if h : key r ∈ t.rows.map key then t
  else ⟨t.rows ++ [r], by
    rw [List.map_append, List.nodup_append]
    refine ⟨t.unique, by simp, ?_⟩
    rintro a ha b hb rfl
    rw [List.map_cons, List.map_nil, List.mem_singleton] at hb
    exact h (hb ▸ ha)⟩

/-- `INSERT INTO t .. ON CONFLICT DO UPDATE` that sets every column. -/
def upsert (t : Table key) (r : ρ) : Table key :=
  if key r ∈ t.rows.map key then
    t.update (fun x => key x = key r) (fun x => if key x = key r then r else x) (by
      intro x
      by_cases h : key x = key r <;> simp [h])
  else t.insertIgnore r

/-! ## What a statement leaves -/

theorem mem_insertIgnore :
    x ∈ (t.insertIgnore r).rows ↔ x ∈ t.rows ∨ (x = r ∧ key r ∉ t.rows.map key) := by
  unfold insertIgnore
  split
  next h => simp [h]
  next h => simp [h]

theorem mem_upsert : x ∈ (t.upsert r).rows ↔ x = r ∨ (x ∈ t.rows ∧ key x ≠ key r) := by
  unfold upsert
  split
  next h =>
    rw [mem_update]
    constructor
    · rintro ⟨y, hy, rfl⟩
      by_cases hk : key y = key r
      · left
        simp [hk]
      · right
        simp [hk, hy]
    · rintro (rfl | ⟨hx, hne⟩)
      · obtain ⟨y, hy, hk⟩ := List.mem_map.mp h
        exact ⟨y, hy, by simp [hk]⟩
      · exact ⟨x, hx, by simp [hne]⟩
  next h =>
    rw [mem_insertIgnore]
    constructor
    · rintro (hx | ⟨rfl, -⟩)
      · right
        exact ⟨hx, fun hk => h (hk ▸ List.mem_map_of_mem hx)⟩
      · exact .inl rfl
    · rintro (rfl | ⟨hx, -⟩)
      · exact .inr ⟨rfl, h⟩
      · exact .inl hx

/-! ## Lookups -/

theorem get_eq_some : t.get k = some r ↔ r ∈ t.rows ∧ key r = k := by
  constructor
  · intro h
    exact ⟨List.mem_of_find?_eq_some h, by simpa using List.find?_some h⟩
  · rintro ⟨hr, rfl⟩
    obtain ⟨x, hx⟩ : ∃ x, t.get (key r) = some x :=
      Option.isSome_iff_exists.mp (List.find?_isSome.mpr ⟨r, hr, by simp⟩)
    have hkey : key x = key r := by simpa using List.find?_some hx
    rw [hx, key_injOn (List.mem_of_find?_eq_some hx) hr hkey]

theorem get_eq_none : t.get k = none ↔ ∀ r ∈ t.rows, key r ≠ k := by
  simp [get, List.find?_eq_none]

theorem get_key (h : t.get k = some r) : key r = k :=
  (get_eq_some.mp h).2

theorem get_of_mem (h : r ∈ t.rows) : t.get (key r) = some r :=
  get_eq_some.mpr ⟨h, rfl⟩

/-- Two tables agree on a key as soon as they have the same rows under it. -/
theorem get_congr {u : Table key} (h : ∀ r, key r = k → (r ∈ t.rows ↔ r ∈ u.rows)) :
    t.get k = u.get k := by
  apply Option.ext
  intro r
  rw [get_eq_some, get_eq_some]
  constructor
  · rintro ⟨hr, hk⟩
    exact ⟨(h r hk).mp hr, hk⟩
  · rintro ⟨hr, hk⟩
    exact ⟨(h r hk).mpr hr, hk⟩

theorem get_upsert (t : Table key) (r : ρ) (k : κ) :
    (t.upsert r).get k = if key r = k then some r else t.get k := by
  split
  next h => exact get_eq_some.mpr ⟨mem_upsert.mpr (.inl rfl), h⟩
  next h =>
    apply get_congr
    rintro x rfl
    rw [mem_upsert]
    constructor
    · rintro (rfl | ⟨hx, -⟩)
      · exact absurd rfl h
      · exact hx
    · intro hx
      exact .inr ⟨hx, fun hk => h hk.symm⟩

theorem get_insertIgnore (t : Table key) (r : ρ) (k : κ) :
    (t.insertIgnore r).get k = if key r = k then some ((t.get k).getD r) else t.get k := by
  unfold insertIgnore
  split
  next h =>
    split
    next hk =>
      obtain ⟨y, hy, hkey⟩ := List.mem_map.mp h
      have hget : t.get k = some y := get_eq_some.mpr ⟨hy, hkey.trans hk⟩
      simp [hget]
    next => rfl
  next h =>
    have hnone : t.get (key r) = none := by
      rw [get_eq_none]
      intro x hx hk
      exact h (hk ▸ List.mem_map_of_mem hx)
    split
    next hk =>
      subst hk
      rw [hnone]
      exact get_eq_some.mpr ⟨by simp, rfl⟩
    next hk =>
      apply get_congr
      rintro x rfl
      have hne : x ≠ r := fun hxr => hk (hxr ▸ rfl)
      simp [hne]

theorem get_update (t : Table key) (p : ρ → Bool) (f : ρ → ρ) (hf : ∀ r, key (f r) = key r)
    (k : κ) :
    (t.update p f hf).get k = (t.get k).map fun r => if p r then f r else r := by
  have hkey (r : ρ) : key (if p r then f r else r) = key r := by
    by_cases h : p r <;> simp [h, hf]
  unfold get update
  rw [List.find?_map]
  congr 2
  funext r
  simp [hkey]

theorem isSome_get_update (t : Table key) (p : ρ → Bool) (f : ρ → ρ)
    (hf : ∀ r, key (f r) = key r) (k : κ) : ((t.update p f hf).get k).isSome = (t.get k).isSome := by
  rw [get_update, Option.isSome_map]

theorem get_delete (t : Table key) (p : ρ → Bool) (k : κ) :
    (t.delete p).get k = (t.get k).filter fun r => !p r := by
  apply Option.ext
  intro r
  rw [get_eq_some, mem_delete, Option.filter_eq_some_iff, get_eq_some]
  simp only [Bool.not_eq_true']
  tauto

/-! ## Ordered results -/

section Ordered

variable [LE κ] [DecidableLE κ]

def orderBy (t : Table key) (p : ρ → Bool) : List ρ :=
  (t.rows.filter p).insertionSort fun a b => key a ≤ key b

omit [DecidableEq κ] in
theorem mem_orderBy {t : Table key} {p : ρ → Bool} {r : ρ} :
    r ∈ t.orderBy p ↔ r ∈ t.rows ∧ p r = true := by
  rw [orderBy, List.mem_insertionSort, List.mem_filter]

variable [Std.Total (α := κ) (· ≤ ·)] [IsTrans κ (· ≤ ·)] [Std.Antisymm (α := κ) (· ≤ ·)]

omit [DecidableEq κ] [Std.Antisymm (α := κ) (· ≤ ·)] in
theorem pairwise_orderBy (t : Table key) (p : ρ → Bool) :
    (t.orderBy p).Pairwise fun a b => key a ≤ key b := by
  exact List.pairwise_insertionSort _ _

omit [DecidableEq κ] in
theorem orderBy_congr {t u : Table key} {p q : ρ → Bool}
    (h : ∀ r, (r ∈ t.rows ∧ p r = true) ↔ (r ∈ u.rows ∧ q r = true)) :
    t.orderBy p = u.orderBy q := by
  have hnodup (v : Table key) (s : ρ → Bool) : (v.rows.filter s).Nodup :=
    (List.Nodup.of_map key v.unique).filter _
  have hperm : (t.rows.filter p).Perm (u.rows.filter q) := by
    rw [List.perm_ext_iff_of_nodup (hnodup t p) (hnodup u q)]
    intro r
    rw [List.mem_filter, List.mem_filter]
    exact h r
  have hsorted : (t.orderBy p).Perm (u.orderBy q) :=
    (List.perm_insertionSort _ _).trans (hperm.trans (List.perm_insertionSort _ _).symm)
  refine hsorted.eq_of_pairwise ?_ (pairwise_orderBy t p) (pairwise_orderBy u q)
  intro a b ha hb hab hba
  have ha' : a ∈ u.rows := ((h a).mp (mem_orderBy.mp ha)).1
  exact key_injOn ha' (mem_orderBy.mp hb).1 (Std.Antisymm.antisymm _ _ hab hba)

omit [DecidableEq κ] in
theorem orderBy_filter (t : Table key) (p q : ρ → Bool) :
    (t.orderBy p).filter q = t.orderBy fun r => p r && q r := by
  have hperm : ((t.orderBy p).filter q).Perm (t.orderBy fun r => p r && q r) := by
    refine ((List.perm_insertionSort _ _).filter q).trans ?_
    rw [List.filter_filter]
    refine List.Perm.trans ?_ (List.perm_insertionSort _ _).symm
    simp only [Bool.and_comm]
    exact List.Perm.refl _
  refine hperm.eq_of_pairwise ?_ ((pairwise_orderBy t p).filter q) (pairwise_orderBy t _)
  intro a b ha hb hab hba
  have ha' : a ∈ t.rows := (mem_orderBy.mp (List.mem_filter.mp ha).1).1
  exact key_injOn ha' (mem_orderBy.mp hb).1 (Std.Antisymm.antisymm _ _ hab hba)

end Ordered

end Table

end CellHive.Sql
