import CellHive.Go.Bytes
import Mathlib.Data.List.AList
import Mathlib.Data.List.Sort

/-!
# The wake index

The bucket's index of scopes with a pending timer: one pointer per scope, and one entry per scope
and due minute. The minute is part of an entry's key, as the text of a time; it is its number
here, and `minuteStart` is what parsing the text gives. `Due` opens the minutes that have begun.
-/

namespace CellHive.Wake

open Go

structure Entry where
  scope : Bytes
  dueMs : Int
deriving DecidableEq, Repr

structure Index where
  ptr : AList fun _ : Bytes => Entry
  due : AList fun _ : Int × Bytes => Entry

def minuteOf (ms : Int) : Int := ms / 60000

/-- `minuteStart`: a year is parsed from four digits, so that only the minutes of the years 0 to
9999 are found again. -/
def minuteStart (minute : Int) : Option Int :=
  if -1036120320 ≤ minute ∧ minute < 4223371680 then some (minute * 60000) else none

/-- The first millisecond whose minute is not parsed. -/
def endOfMinutes : Int := 253402300800000

def dueKey (ms : Int) (scope : Bytes) : Int × Bytes := (minuteOf ms, scope)

def earlier (a b : Int) : Bool :=
  if a = 0 then true else if b = 0 then false else decide (a < b)

namespace Index

def empty : Index := ⟨∅, ∅⟩

/-- `Due` takes the entry up: its minute has begun, and so has its time. -/
def visible (nowMs : Int) (x : Sigma fun _ : Int × Bytes => Entry) : Bool :=
  (minuteStart x.1.1).any (fun start => decide (start ≤ nowMs)) && decide (x.2.scope ≠ []) &&
    !(decide (x.2.dueMs ≠ 0) && decide (nowMs < x.2.dueMs))

def keepEarliest (byScope : AList fun _ : Bytes => Entry) (e : Entry) :
    AList fun _ : Bytes => Entry :=
  match byScope.lookup e.scope with
  | some prev => if earlier e.dueMs prev.dueMs then byScope.insert e.scope e else byScope
  | none => byScope.insert e.scope e

/-- The entries whose minute and time are at or before now, one for each scope. -/
def dueAt (idx : Index) (nowMs : Int) : List Entry :=
  let found := (idx.due.entries.filter (visible nowMs)).map Sigma.snd
  let byScope := found.foldl keepEarliest ∅
  (byScope.entries.map Sigma.snd).insertionSort fun a b =>
    a.dueMs < b.dueMs ∨ (a.dueMs = b.dueMs ∧ a.scope ≤ b.scope)

/-! ## The scopes of `Due` -/

def Keyed (byScope : AList fun _ : Bytes => Entry) : Prop :=
  ∀ scope e, byScope.lookup scope = some e → e.scope = scope

theorem lookup_keepEarliest {byScope : AList fun _ : Bytes => Entry} {e : Entry}
    (h : Keyed byScope) :
    Keyed (keepEarliest byScope e) ∧
      ∀ scope, ((keepEarliest byScope e).lookup scope).isSome ↔
        (byScope.lookup scope).isSome ∨ e.scope = scope := by
  have hinsert : Keyed (byScope.insert e.scope e) ∧
      ∀ scope, ((byScope.insert e.scope e).lookup scope).isSome ↔
        (byScope.lookup scope).isSome ∨ e.scope = scope := by
    constructor
    · intro scope x hx
      by_cases hs : scope = e.scope
      · subst hs
        rw [AList.lookup_insert, Option.some.injEq] at hx
        rw [← hx]
      · rw [AList.lookup_insert_ne hs] at hx
        exact h scope x hx
    · intro scope
      by_cases hs : scope = e.scope
      · subst hs
        simp
      · rw [AList.lookup_insert_ne hs]
        simp [Ne.symm hs]
  unfold keepEarliest
  split
  · next prev hprev =>
    split
    · exact hinsert
    refine ⟨h, fun scope => ?_⟩
    constructor
    · exact .inl
    · rintro (hs | rfl)
      · exact hs
      · rw [hprev]
        rfl
  · exact hinsert

theorem lookup_foldl_keepEarliest (found : List Entry) {byScope : AList fun _ : Bytes => Entry}
    (h : Keyed byScope) :
    Keyed (found.foldl keepEarliest byScope) ∧
      ∀ scope, ((found.foldl keepEarliest byScope).lookup scope).isSome ↔
        (byScope.lookup scope).isSome ∨ ∃ e ∈ found, e.scope = scope := by
  induction found generalizing byScope with
  | nil => exact ⟨h, by simp⟩
  | cons e found ih =>
    obtain ⟨hkeyed, hlookup⟩ := lookup_keepEarliest (e := e) h
    obtain ⟨hkeyed', hlookup'⟩ := ih hkeyed
    refine ⟨hkeyed', fun scope => ?_⟩
    rw [List.foldl_cons, hlookup', hlookup]
    simp [or_assoc]

theorem mem_dueAt {idx : Index} {nowMs : Int} {scope : Bytes} :
    (∃ e ∈ idx.dueAt nowMs, e.scope = scope) ↔
      ∃ x ∈ idx.due.entries, visible nowMs x = true ∧ x.2.scope = scope := by
  have hempty : Keyed ∅ := fun scope e h => by simp at h
  obtain ⟨hkeyed, hlookup⟩ := lookup_foldl_keepEarliest
    ((idx.due.entries.filter (visible nowMs)).map Sigma.snd) hempty
  have hfound : (∃ e ∈ (idx.due.entries.filter (visible nowMs)).map Sigma.snd, e.scope = scope) ↔
      ∃ x ∈ idx.due.entries, visible nowMs x = true ∧ x.2.scope = scope := by
    constructor
    · rintro ⟨e, he, hscope⟩
      obtain ⟨x, hx, rfl⟩ := List.mem_map.mp he
      obtain ⟨hmem, hvisible⟩ := List.mem_filter.mp hx
      exact ⟨x, hmem, hvisible, hscope⟩
    · rintro ⟨x, hmem, hvisible, hscope⟩
      exact ⟨x.2, List.mem_map.mpr ⟨x, List.mem_filter.mpr ⟨hmem, hvisible⟩, rfl⟩, hscope⟩
  rw [← hfound]
  have hscope := hlookup scope
  simp only [AList.lookup_empty, Option.isSome_none, Bool.false_eq_true, false_or] at hscope
  rw [← hscope]
  unfold dueAt
  constructor
  · rintro ⟨e, he, rfl⟩
    rw [List.mem_insertionSort] at he
    obtain ⟨⟨k, v⟩, hmem, rfl⟩ := List.mem_map.mp he
    have hv := AList.mem_lookup_iff.mpr hmem
    rw [hkeyed k v hv, Option.mem_def.mp hv]
    rfl
  · intro hsome
    obtain ⟨e, he⟩ := Option.isSome_iff_exists.mp hsome
    refine ⟨e, ?_, hkeyed scope e he⟩
    rw [List.mem_insertionSort]
    exact List.mem_map.mpr ⟨⟨scope, e⟩, AList.mem_lookup_iff.mp he, rfl⟩

end Index

end CellHive.Wake
