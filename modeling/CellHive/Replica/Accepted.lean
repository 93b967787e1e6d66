import CellHive.Replica.Restore

/-!
# Reading accepted segments back

The writers of a scope decode a segment before they store it, and `decode` allows bytes
behind the payload. The readers cut a stored object with `split`, which does not: it takes
the bytes behind a payload for the next segment. So what was accepted reads back exactly
when no segment has such bytes.
-/

namespace CellHive.Replica

open Go Ltx Bucket

inductive AppendCall where
  | append (segment : Bytes)
  | appendBatch (segments : List Bytes)
  | appendL1 (segment : Bytes)

namespace AppendCall

def segments : AppendCall → List Bytes
  | append segment => [segment]
  | appendBatch segments => segments
  | appendL1 segment => [segment]

def run (m : Manager) (epoch : UInt64) : AppendCall → Res (Key × Manager)
  | append segment => m.append epoch segment
  | appendBatch segments => m.appendBatch epoch segments
  | appendL1 segment => m.appendL1 epoch segment

end AppendCall

def acceptedHeader (segment : Bytes) : Res Header := (decode segment).map (·.1)

/-- Nothing stands behind the payload. -/
def Exact (segment : Bytes) : Prop :=
  segment.length = headerSize + (parseHeader segment).length.toNat

instance : DecidablePred Exact := fun segment =>
  inferInstanceAs (Decidable (segment.length = headerSize + (parseHeader segment).length.toNat))

/-- The object splits into the given segments, and a restore decodes each of them to the
header it was accepted with instead of calling the object corrupt. -/
def ReadsBack (m : Manager) (key : Key) (segments : List Bytes) : Prop :=
  ∃ raw headers, m.objects.get key = .ok raw ∧ split raw = .ok segments ∧
    segments.mapM acceptedHeader = .ok headers ∧
    Manager.objectSegments key raw = .ok (headers.zip segments)

/-! ## What is stored -/

variable {epoch : UInt64} {segment : Bytes} {m m' : Manager} {key : Key}

theorem acceptSegment_eq_ok {invalid label : String} {h : Header} :
    Manager.acceptSegment invalid label epoch segment = .ok h ↔
      (∃ payload, decode segment = .ok (h, payload)) ∧ h.epoch = epoch := by
  unfold Manager.acceptSegment
  rcases hd : decode segment with e | d
  · simp
  obtain ⟨h', payload⟩ := d
  by_cases he : h'.epoch = epoch
  · simp only [he, ne_eq, not_true_eq_false, if_false, Except.ok.injEq, Prod.mk.injEq]
    constructor
    · rintro rfl
      exact ⟨⟨payload, rfl, rfl⟩, he⟩
    · rintro ⟨⟨_, rfl, -⟩, -⟩
      rfl
  · simp only [ne_eq, he, not_false_eq_true, if_true, Except.ok.injEq, Prod.mk.injEq]
    constructor
    · nofun
    · rintro ⟨⟨_, rfl, -⟩, heq⟩
      exact absurd heq he

theorem putImmutableSegment_get {data : Bytes} (h : m.putImmutableSegment key data = .ok m') :
    m'.objects.get key = .ok data := by
  unfold Manager.putImmutableSegment at h
  split at h
  · next old hold =>
    split at h
    · cases h
    next heq =>
    cases h
    rw [hold, not_not.1 heq]
  · cases h
    exact Store.get_put_self _ _ _

theorem appendIn_eq_ok {dir : Key} {label : String}
    (h : Manager.appendIn dir label m epoch segment = .ok (key, m')) :
    (∃ d, decode segment = .ok d) ∧ m'.objects.get key = .ok segment := by
  obtain ⟨-, -, h⟩ := bind_eq_ok.1 h
  obtain ⟨hdr, hacc, h⟩ := bind_eq_ok.1 h
  obtain ⟨m₁, hput, h⟩ := bind_eq_ok.1 h
  cases h
  obtain ⟨⟨payload, hd⟩, -⟩ := acceptSegment_eq_ok.1 hacc
  exact ⟨⟨_, hd⟩, putImmutableSegment_get hput⟩

theorem mapM_ok_mem {α β : Type} {f : α → Res β} {xs : List α} {ys : List β}
    (h : xs.mapM f = .ok ys) : ∀ x ∈ xs, ∃ y, f x = .ok y := by
  induction xs generalizing ys with
  | nil => simp
  | cons x xs ih =>
    rw [List.mapM_cons] at h
    obtain ⟨y, hy, h⟩ := bind_eq_ok.1 h
    obtain ⟨zs, hzs, -⟩ := bind_eq_ok.1 h
    intro x' hx'
    rcases List.mem_cons.1 hx' with rfl | hx'
    · exact ⟨y, hy⟩
    · exact ih hzs x' hx'

theorem AppendCall.run_eq_ok {call : AppendCall} (h : call.run m epoch = .ok (key, m')) :
    (∀ s ∈ call.segments, ∃ d, decode s = .ok d) ∧
      m'.objects.get key = .ok call.segments.flatten := by
  cases call with
  | append | appendL1 =>
    obtain ⟨hd, hget⟩ := appendIn_eq_ok h
    exact ⟨by simpa [segments] using hd, by simpa [segments] using hget⟩
  | appendBatch segs =>
    obtain ⟨-, -, h⟩ := bind_eq_ok.1 h
    split at h
    · cases h
    obtain ⟨headers, hacc, h⟩ := bind_eq_ok.1 h
    obtain ⟨m₁, hput, h⟩ := bind_eq_ok.1 h
    cases h
    refine ⟨?_, putImmutableSegment_get hput⟩
    intro s hs
    obtain ⟨hdr, hs⟩ := mapM_ok_mem hacc s hs
    obtain ⟨⟨payload, hd⟩, -⟩ := acceptSegment_eq_ok.1 hs
    exact ⟨_, hd⟩

/-! ## Reading it -/

theorem isSegment_iff_exact (h : ∃ d, decode segment = .ok d) :
    IsSegment segment ↔ Exact segment := by
  obtain ⟨⟨hdr, payload⟩, hd⟩ := h
  obtain ⟨-, -, hparse, -, -, -, -⟩ := decode_eq_ok hd
  have hlen : payload.length = (parseHeader segment).length.toNat := by
    rw [length_of_decode hd, hparse]
  constructor
  · rintro ⟨_, _, hd', hl⟩
    cases hd.symm.trans hd'
    rw [Exact, hl, hlen]
  · intro hex
    exact ⟨hdr, payload, hd, by rw [hlen]; exact hex⟩

theorem mapM_decode (key : Key) {segments : List Bytes} (h : ∀ s ∈ segments, ∃ d, decode s = .ok d) :
    ∃ headers, segments.mapM acceptedHeader = .ok headers ∧
      (segments.mapM fun part =>
        match decode part with
        | .error e => (.error (.wrap s!"replica: corrupt segment in {String.ofList key}" e) :
            Res (Header × Bytes))
        | .ok d => .ok (d.1, part)) = .ok (headers.zip segments) := by
  induction segments with
  | nil => exact ⟨[], rfl, rfl⟩
  | cons s segments ih =>
    obtain ⟨d, hd⟩ := h s List.mem_cons_self
    obtain ⟨headers, hacc, hparts⟩ := ih fun t ht => h t (List.mem_cons_of_mem s ht)
    refine ⟨d.1 :: headers, ?_, ?_⟩
    · rw [List.mapM_cons, acceptedHeader, hd, hacc]
      rfl
    · rw [List.mapM_cons, hd, hparts]
      rfl

/-- What a successful call stored reads back exactly when none of its segments has bytes
behind its payload. -/
theorem readsBack_iff_exact {m m' : Manager} {epoch : UInt64} {call : AppendCall} {key : Key}
    (h : call.run m epoch = .ok (key, m')) :
    ReadsBack m' key call.segments ↔ ∀ s ∈ call.segments, Exact s := by
  obtain ⟨hdec, hget⟩ := AppendCall.run_eq_ok h
  constructor
  · rintro ⟨raw, -, -, hsplit, -, -⟩ s hs
    exact (isSegment_iff_exact (hdec s hs)).1 ((split_eq_ok hsplit).2 s hs)
  · intro hex
    have hsplit : split call.segments.flatten = .ok call.segments :=
      split_flatten fun s hs => (isSegment_iff_exact (hdec s hs)).2 (hex s hs)
    obtain ⟨headers, hacc, hparts⟩ := mapM_decode key hdec
    refine ⟨_, headers, hget, hsplit, hacc, ?_⟩
    unfold Manager.objectSegments
    rw [hsplit]
    exact hparts

/-! ## A byte behind the payload -/

def firstDelta : Header :=
  { version := 0, kind := kindDelta, flags := 0, epoch := 1, startTxID := 1, endTxID := 1,
    length := 0, crc := 0 }

/-- A valid segment with one byte behind its payload. -/
def paddedSegment : Bytes := encode firstDelta [] ++ [0]

def emptyScope : Manager := { scope := ['s'], objects := Store.empty }

/-- The padded segment is accepted, and then the restore of its epoch fails as corrupt. -/
theorem append_accepts_padded :
    (match emptyScope.append 1 paddedSegment with
      | .error _ => false
      | .ok (_, m) =>
        match m.restore 1 with
        | .error (.wrap _ e) => e.is .ltxShort
        | _ => false) = true := by
  decide +kernel

/-- A delta and a snapshot without padding, stored as one batch, read back. -/
theorem readsBack_pair :
    ∃ key m, (AppendCall.appendBatch [encode firstDelta [],
        encode { firstDelta with kind := kindSnapshot } [1, 2]]).run emptyScope 1 = .ok (key, m) ∧
      ReadsBack m key [encode firstDelta [],
        encode { firstDelta with kind := kindSnapshot } [1, 2]] := by
  obtain ⟨⟨key, m⟩, h⟩ : ∃ r, (AppendCall.appendBatch [encode firstDelta [],
      encode { firstDelta with kind := kindSnapshot } [1, 2]]).run emptyScope 1 = .ok r :=
    isOk_iff.1 (by decide +kernel)
  exact ⟨key, m, h, (readsBack_iff_exact h).2 (by decide +kernel)⟩

end CellHive.Replica
