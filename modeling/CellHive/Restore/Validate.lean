import CellHive.Restore.MergeSpec

/-!
# Validation without pages

`ValidateChain` looks at headers only. A chain it accepts has complete part numbers
and contiguous transactions, but nothing records how many parts a snapshot has or
which pages its deltas were made for, so `mergeChain` can still find a page missing.
-/

namespace CellHive.Restore

open Go Ltx

def PageSegment (pageSize : UInt32) (segment : Bytes) : Prop :=
  ∃ h payload m, decode segment = .ok (h, payload) ∧
    (h.kind = kindSnapshot ∨ h.kind = kindDelta) ∧
    decodeWALPageMap payload = .ok m ∧ m.pageSize = pageSize

theorem decodeHeaders_eq_ok {segments : List Bytes} {headers : List Header} (i : Nat) :
    decodeHeaders segments = .ok headers ↔
      ∃ decoded, decodeSegments i segments = .ok decoded ∧ headers = decoded.map (·.1) := by
  induction segments generalizing i headers with
  | nil => simp [decodeHeaders, decodeSegments, eq_comm]
  | cons raw segments ih =>
    unfold decodeHeaders decodeSegments
    rcases decode raw with e | d
    · simp
    simp only [ok_bind, bind_eq_ok, ih (i + 1)]
    constructor
    · rintro ⟨_, ⟨ds, hds, rfl⟩, h⟩
      cases h
      exact ⟨d :: ds, ⟨ds, hds, rfl⟩, rfl⟩
    · rintro ⟨_, ⟨ds, hds, h⟩, rfl⟩
      cases h
      exact ⟨_, ⟨ds, hds, rfl⟩, rfl⟩

theorem validateChain_eq_ok_iff {segments : List Bytes} :
    validateChain segments = .ok () ↔ ∃ decoded sel, decodeSegments 0 segments = .ok decoded ∧
      selectChain (decoded.map (·.1)) = .ok sel := by
  unfold validateChain
  simp only [bind_eq_ok, decodeHeaders_eq_ok 0]
  constructor
  · rintro ⟨_, ⟨decoded, hdec, rfl⟩, sel, hsel, -⟩
    exact ⟨decoded, sel, hdec, hsel⟩
  · rintro ⟨decoded, sel, hdec, hsel⟩
    exact ⟨_, ⟨decoded, hdec, rfl⟩, sel, hsel, trivial⟩

theorem exists_forall₂_maps {decoded : List (Header × Bytes)} {is : List Nat}
    (h : ∀ i ∈ is, ∃ m, decodeWALPageMap (segmentAt decoded i).2 = .ok m) :
    ∃ maps, MappedAt decoded is maps := by
  induction is with
  | nil => exact ⟨[], .nil⟩
  | cons i is ih =>
    obtain ⟨m, hm⟩ := h i (by simp)
    obtain ⟨maps, hmaps⟩ := ih fun j hj => h j (List.mem_cons_of_mem _ hj)
    exact ⟨m :: maps, .cons hm hmaps⟩

theorem exists_chosenMaps {pageSize : UInt32} {segments : List Bytes}
    (hseg : ∀ s ∈ segments, PageSegment pageSize s) {decoded : List (Header × Bytes)}
    (hdec : decodeSegments 0 segments = .ok decoded) {sel : Selection}
    (hsel : selectChain (decoded.map (·.1)) = .ok sel) :
    ∃ snaps deltas, ChosenMaps decoded sel snaps deltas := by
  have hpay : ∀ i, i ∈ sel.snapshots ∨ i ∈ sel.deltas →
      ∃ m, decodeWALPageMap (segmentAt decoded i).2 = .ok m := by
    intro i hi
    have hlt : i < decoded.length := by simpa using selectChain_lt hsel hi
    have hforall := decodeSegments_eq_ok.1 hdec
    have hlt' : i < segments.length := hforall.length_eq ▸ hlt
    have hget := hforall.get hlt' hlt
    obtain ⟨h, payload, m, hd, -, hm, -⟩ := hseg _ (List.get_mem segments ⟨i, hlt'⟩)
    rw [hd, Except.ok.injEq] at hget
    refine ⟨m, ?_⟩
    rw [segmentAt, List.getD_eq_getElem _ _ hlt]
    rw [List.get_eq_getElem] at hget
    rw [← hget, hm]
  obtain ⟨snaps, hsnaps⟩ := exists_forall₂_maps fun i hi => hpay i (.inl hi)
  obtain ⟨deltas, hdeltas⟩ := exists_forall₂_maps fun i hi => hpay i (.inr hi)
  exact ⟨snaps, deltas, hsnaps, hdeltas⟩

/-- Validation and materialization agree on a list of page segments exactly when the
chain that is chosen, if one is, can be materialized. -/
theorem validateChain_iff_mergeChain {pageSize : UInt32} {segments : List Bytes}
    (hseg : ∀ s ∈ segments, PageSegment pageSize s) :
    (validateChain segments = .ok () ↔ ∃ r, mergeChain segments = .ok r) ↔
      ∀ decoded sel snaps deltas, decodeSegments 0 segments = .ok decoded →
        selectChain (decoded.map (·.1)) = .ok sel → ChosenMaps decoded sel snaps deltas →
        Materializable snaps deltas := by
  simp only [validateChain_eq_ok_iff, mergeChain_eq_ok_iff]
  constructor
  · intro hiff decoded sel snaps deltas hdec hsel hmaps
    obtain ⟨r, hr⟩ := hiff.1 ⟨decoded, sel, hdec, hsel⟩
    exact ((mergeChain_of_chosen hdec hsel hmaps).1 (mergeChain_eq_ok_iff.2 hr)).1
  · intro hmat
    constructor
    · rintro ⟨decoded, sel, hdec, hsel⟩
      obtain ⟨snaps, deltas, hmaps⟩ := exists_chosenMaps hseg hdec hsel
      exact ⟨_, decoded, sel, snaps, deltas, hdec, hsel, hmaps,
        hmat decoded sel snaps deltas hdec hsel hmaps, rfl⟩
    · rintro ⟨_, decoded, sel, _, _, hdec, hsel, -⟩
      exact ⟨decoded, sel, hdec, hsel⟩

/-! ## A snapshot that lost its last part -/

/-- Part 0 of a two-page snapshot in two parts, as `EncodeSnapshotPart` writes it. -/
def firstOfTwo : Bytes :=
  encode (partHeader (compactHeader 1 1) 0 2)
    [87, 65, 76, 50, 0, 0, 0, 1, 0, 0, 0, 2, 0, 0, 0, 1, 0, 0, 0, 1, 0, 0, 0, 1, 7]

theorem pageSegment_firstOfTwo : PageSegment 1 firstOfTwo :=
  ⟨_, _, ⟨1, 2, 1, [⟨1, [7]⟩]⟩, decode_encode _ _ (by decide), .inl rfl, by decide +kernel, rfl⟩

/-- The part is accepted as a complete snapshot and has no second page. -/
theorem validateChain_accepts_firstOfTwo :
    encodeSnapshotPart false (compactHeader 1 1) 1 2 [⟨1, [7]⟩] 0 2 = .ok firstOfTwo ∧
      (∀ s ∈ [firstOfTwo], PageSegment 1 s) ∧ validateChain [firstOfTwo] = .ok () ∧
      mergeChain [firstOfTwo] = .error (.errorf "restore: missing page 2 of 2") :=
  ⟨by decide +kernel, by simpa using pageSegment_firstOfTwo, by decide +kernel, by decide +kernel⟩

theorem validateChain_iff_mergeChain_firstOfTwo :
    (∀ s ∈ [firstOfTwo], PageSegment 1 s) ∧
      ((validateChain [firstOfTwo] = .ok () ↔ ∃ r, mergeChain [firstOfTwo] = .ok r) ↔
        ∀ decoded sel snaps deltas, decodeSegments 0 [firstOfTwo] = .ok decoded →
          selectChain (decoded.map (·.1)) = .ok sel → ChosenMaps decoded sel snaps deltas →
          Materializable snaps deltas) := by
  have hseg : ∀ s ∈ [firstOfTwo], PageSegment 1 s := by simpa using pageSegment_firstOfTwo
  exact ⟨hseg, validateChain_iff_mergeChain hseg⟩

end CellHive.Restore
