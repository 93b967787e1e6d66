import Mathlib

/-!
# Instants

Go's `time.Time` as `time.Now` gives it: a wall clock reading and a reading of the
process's monotonic clock, both in nanoseconds. Comparisons and differences use the
monotonic reading, `UnixMilli` the wall clock.
-/

namespace CellHive.Go

structure Time where
  wall : Int
  mono : Int
  deriving DecidableEq, Repr

namespace Time

def before (t u : Time) : Bool := t.mono < u.mono

def add (t : Time) (d : Int) : Time := ⟨t.wall + d, t.mono + d⟩

def sub (t u : Time) : Int := t.mono - u.mono

def unixMilli (t : Time) : Int := t.wall / 1000000

@[simp] theorem before_iff {t u : Time} : t.before u = true ↔ t.mono < u.mono := by
  simp [before]

@[simp] theorem add_mono (t : Time) (d : Int) : (t.add d).mono = t.mono + d := rfl

end Time

def second : Int := 1000000000

def zeroUnixMilli : Int := -62135596800000

def beforeZero (t : Time) : Option Time → Bool
  | none => false
  | some u => t.before u

def unixMilliZero : Option Time → Int
  | none => zeroUnixMilli
  | some u => u.unixMilli

@[simp] theorem beforeZero_iff {t : Time} {u : Option Time} :
    beforeZero t u = true ↔ ∃ v, u = some v ∧ t.mono < v.mono := by
  cases u with
  | none | some => simp [beforeZero]

/-- The readings of the clock that one stretch of code takes, in order. The monotonic
clock does not go back; the wall clock may. -/
structure Readings where
  first : Time
  second : Time
  third : Time
  ordered : first.mono ≤ second.mono ∧ second.mono ≤ third.mono
  deriving DecidableEq, Repr

def Readings.still (t : Time) : Readings := ⟨t, t, t, Int.le_refl _, Int.le_refl _⟩

end CellHive.Go
