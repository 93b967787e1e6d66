import CellHive.Go.Bytes

/-!
# Byte strings in lexicographic order

Byte strings compare as `bytes.Compare` does: by the first byte that differs, a proper initial
part coming first. The two facts range scans rest on are that a zero byte gives the immediate
successor, and that the strings with a given beginning are an interval.
-/

namespace CellHive.Go

theorem cons_le_cons_iff {x y : UInt8} {a b : Bytes} :
    x :: a ≤ y :: b ↔ x < y ∨ x = y ∧ a ≤ b :=
  List.cons_le_cons_iff

theorem not_cons_le_nil (x : UInt8) (a : Bytes) : ¬ x :: a ≤ [] := by
  intro h
  exact h (List.nil_lt_cons x a)

theorem nil_le (a : Bytes) : [] ≤ a := List.not_lt_nil a

/-- Nothing lies between a string and its extension by a zero byte. -/
theorem append_zero_le_iff {a k : Bytes} : a ++ [0] ≤ k ↔ a < k := by
  induction a generalizing k with
  | nil =>
    rcases k with _ | ⟨c, rest⟩
    · simp
    have hzero : (0 : UInt8) < c ∨ 0 = c := by
      rcases Nat.eq_zero_or_pos c.toNat with h | h
      · right
        exact UInt8.toNat_inj.mp h.symm
      · left
        exact UInt8.lt_iff_toNat_lt.mpr h
    simp only [List.nil_append, cons_le_cons_iff, List.nil_lt_cons, iff_true]
    rcases hzero with h | h
    · exact .inl h
    · exact .inr ⟨h, nil_le rest⟩
  | cons x a ih =>
    cases k with
    | nil =>
      simp only [List.cons_append, List.not_lt_nil, iff_false]
      exact not_cons_le_nil _ _
    | cons c rest => rw [List.cons_append, cons_le_cons_iff, List.cons_lt_cons_iff, ih]

theorem le_of_isPrefix {p k : Bytes} (h : p <+: k) : p ≤ k := by
  induction p generalizing k with
  | nil => exact nil_le k
  | cons x p ih =>
    obtain ⟨rest, rfl⟩ := h
    exact cons_le_cons_iff.mpr (.inr ⟨rfl, ih ⟨rest, rfl⟩⟩)

end CellHive.Go
