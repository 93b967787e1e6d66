import CellHive.Restore.Chain

/-!
# What a selection is

A selection names positions of the header list: at least one snapshot segment and
deltas, all of them kept by the markers. These are the facts every consumer of
`selectChain` uses.
-/

namespace CellHive.Restore

open Go Ltx

variable {headers : List Header} {keep : List Nat} {sel : Selection}

theorem lt_of_mem_keepIndices {cuts : List (UInt64 × UInt64)} {i : Nat}
    (h : i ∈ keepIndices cuts headers) : i < headers.length :=
  List.mem_range.1 (List.mem_filter.1 h).1

theorem firstUsable_eq_ok {cs : List (UInt64 × UInt64)} (h : firstUsable headers keep cs = .ok sel) :
    ∃ c ∈ cs, tryCandidate headers keep c = .ok sel := by
  induction cs with
  | nil => cases h
  | cons c cs ih =>
    unfold firstUsable at h
    cases hc : tryCandidate headers keep c with
    | ok r =>
      rw [hc] at h
      cases h
      exact ⟨c, List.mem_cons_self, hc⟩
    | error e =>
      rw [hc] at h
      rcases hr : firstUsable headers keep cs with e' | r
      · simp [hr] at h
      simp only [hr, Except.ok.injEq] at h
      subst h
      obtain ⟨c', hc', ht⟩ := ih hr
      exact ⟨c', List.mem_cons_of_mem _ hc', ht⟩

theorem tryCandidate_eq_ok {c : UInt64 × UInt64} :
    tryCandidate headers keep c = .ok sel ↔
      completeSnapshotSet headers (snapshotSet headers keep c.1 c.2) = true ∧
        sel.snapshots = sortParts headers (snapshotSet headers keep c.1 c.2) ∧
        sel.deltas = deltaTail headers keep c.1 ∧
        checkTail headers (c.1 + 1) (deltaTail headers keep c.1) = .ok (sel.watermark + 1) := by
  unfold tryCandidate
  dsimp only
  rcases hcomplete : completeSnapshotSet headers (snapshotSet headers keep c.1 c.2) with _ | _
  · simp
  rw [if_neg (by simp), bind_eq_ok]
  simp only [true_and]
  constructor
  · rintro ⟨expected, htail, h⟩
    cases h
    exact ⟨rfl, rfl, by simpa using htail⟩
  · rintro ⟨hs, hd, htail⟩
    refine ⟨_, htail, ?_⟩
    rw [← hs, ← hd, UInt64.add_sub_cancel]

theorem selectChain_eq_ok (h : selectChain headers = .ok sel) :
    ∃ cuts c, markerCuts [] headers = .ok cuts ∧
      c ∈ candidates headers (keepIndices cuts headers) ∧
      tryCandidate headers (keepIndices cuts headers) c = .ok sel := by
  obtain ⟨cuts, hcuts, h⟩ := bind_eq_ok.1 h
  obtain ⟨c, hc, ht⟩ := firstUsable_eq_ok h
  exact ⟨cuts, c, hcuts, hc, ht⟩

theorem snapshotSet_ne_nil {c : UInt64 × UInt64}
    (h : completeSnapshotSet headers (snapshotSet headers keep c.1 c.2) = true) :
    snapshotSet headers keep c.1 c.2 ≠ [] := by
  intro hnil
  rw [hnil] at h
  simp [completeSnapshotSet, pure] at h

theorem selectChain_snapshots_ne_nil (h : selectChain headers = .ok sel) : sel.snapshots ≠ [] := by
  obtain ⟨cuts, c, -, -, ht⟩ := selectChain_eq_ok h
  obtain ⟨hcomplete, hs, -, -⟩ := tryCandidate_eq_ok.1 ht
  intro hnil
  have hlen := List.length_insertionSort
    (fun i j => (snapshotPart (headerAt headers i)).getD 0 ≤ (snapshotPart (headerAt headers j)).getD 0)
    (snapshotSet headers (keepIndices cuts headers) c.1 c.2)
  rw [← sortParts, ← hs, hnil] at hlen
  exact snapshotSet_ne_nil hcomplete (List.length_eq_zero_iff.1 hlen.symm)

theorem mem_sortParts {snap : List Nat} {i : Nat} : i ∈ sortParts headers snap ↔ i ∈ snap :=
  (List.perm_insertionSort _ _).mem_iff

theorem selectChain_lt (h : selectChain headers = .ok sel) {i : Nat}
    (hi : i ∈ sel.snapshots ∨ i ∈ sel.deltas) : i < headers.length := by
  obtain ⟨cuts, c, -, -, ht⟩ := selectChain_eq_ok h
  obtain ⟨-, hs, hd, -⟩ := tryCandidate_eq_ok.1 ht
  rcases hi with hi | hi
  · rw [hs, mem_sortParts, snapshotSet, List.mem_filter, snapshotIndices, List.mem_filter] at hi
    exact lt_of_mem_keepIndices hi.1.1
  · rw [hd, deltaTail, (List.perm_insertionSort _ _).mem_iff, List.mem_filter] at hi
    exact lt_of_mem_keepIndices hi.1

end CellHive.Restore
