import CellHive.Go.Bytes

/-!
# Scopes

`internal/cell/scope.go`: the three components that name a cell, and the text form that
names it on disk and in the bucket. Components are Go strings, that is, bytes.
-/

namespace CellHive.Cell

open Go

structure Scope where
  ns : Bytes
  cls : Bytes
  id : Bytes
  deriving DecidableEq, Repr

namespace Scope

def slash : UInt8 := 47

def string (s : Scope) : Bytes := s.ns ++ slash :: (s.cls ++ slash :: s.id)

def hasDots : Bytes → Bool
  | a :: b :: rest => (a == 46 && b == 46) || hasDots (b :: rest)
  | _ => false

/-- The checks of `Validate` on one component. -/
def validPart (p : Bytes) : Bool :=
  p != [46] && !hasDots p && p != [] && !p.contains slash && !p.contains 92

/-- `Validate` finds nothing wrong. -/
def valid (s : Scope) : Bool := validPart s.ns && validPart s.cls && validPart s.id

def parse (b : Bytes) : Option Scope :=
  match b.splitOn slash with
  | [ns, cls, id] => if (Scope.mk ns cls id).valid then some ⟨ns, cls, id⟩ else none
  | _ => none

theorem slash_notMem_of_validPart {p : Bytes} (h : validPart p = true) : slash ∉ p := by
  simp only [validPart, Bool.and_eq_true, Bool.not_eq_true'] at h
  simpa using h.1.2

theorem splitOn_string {s : Scope} (h : ∀ p ∈ [s.ns, s.cls, s.id], slash ∉ p) :
    s.string.splitOn slash = [s.ns, s.cls, s.id] := by
  have hcat : s.string = [slash].intercalate [s.ns, s.cls, s.id] := by
    simp [string, List.intercalate, List.intersperse]
  rw [hcat]
  apply List.splitOn_intercalate
  · exact h
  · simp

theorem slash_notMem {s : Scope} (h : s.valid = true) :
    ∀ p ∈ [s.ns, s.cls, s.id], slash ∉ p := by
  simp only [valid, Bool.and_eq_true] at h
  intro p hp
  simp only [List.mem_cons, List.not_mem_nil, or_false] at hp
  obtain rfl | rfl | rfl := hp
  · exact slash_notMem_of_validPart h.1.1
  · exact slash_notMem_of_validPart h.1.2
  · exact slash_notMem_of_validPart h.2

theorem parse_string {s : Scope} (h : s.valid = true) : parse s.string = some s := by
  unfold parse
  rw [splitOn_string (slash_notMem h)]
  exact if_pos h

end Scope

end CellHive.Cell
