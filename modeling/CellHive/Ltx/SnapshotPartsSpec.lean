import CellHive.Ltx.PageMapRoundTrip
import CellHive.Ltx.SnapshotParts

/-!
# The parts of a snapshot are read back

`encodeSnapshotParts` cuts the pages into consecutive chunks. Each chunk is one part;
within the limits of the payload format every part decodes to its chunk, under a
header that carries the part's number.
-/

namespace CellHive.Ltx

open Go

/-! ## Part numbers -/

theorem snapshotFlags_paged (part : Nat) : snapshotFlags part &&& flagSnapshotPaged ≠ 0 := by
  intro e
  have e2 := congrArg UInt16.toNat e
  have hbit : flagSnapshotPaged.toNat = 2 ^ 15 := rfl
  rw [snapshotFlags, UInt16.toNat_and, UInt16.toNat_or, hbit, Nat.and_two_pow, Nat.testBit_or,
    Nat.testBit_two_pow_self, Bool.true_or] at e2
  exact absurd e2 (by decide)

theorem snapshotFlags_part {part : Nat} (h : part < maxSnapshotParts) :
    (snapshotFlags part &&& snapshotPartMask).toNat = part := by
  have h' : part < 2 ^ 15 := h
  have hto : (UInt16.ofNat part).toNat = part := by
    rw [UInt16.toNat_ofNat']
    omega
  have hmask : snapshotPartMask.toNat = 2 ^ 15 - 1 := rfl
  have hbit : flagSnapshotPaged.toNat = 2 ^ 15 := rfl
  rw [snapshotFlags, UInt16.toNat_and, UInt16.toNat_or, UInt16.toNat_and, hto, hmask, hbit,
    Nat.and_two_pow_sub_one_eq_mod, Nat.and_two_pow_sub_one_eq_mod, Nat.or_mod_two_pow,
    Nat.mod_self, Nat.zero_or, Nat.mod_mod, Nat.mod_eq_of_lt h']

theorem snapshotPart_partHeader {h : Header} {payload : Bytes} {part total : Nat}
    (hkind : h.kind = kindSnapshot) (hpart : part < total) (htotal : total ≤ maxSnapshotParts) :
    snapshotPart (sealHeader (partHeader h part total) payload) =
      if total = 1 then none else some part := by
  have hk : (sealHeader (partHeader h part total) payload).kind = kindSnapshot := hkind
  by_cases h1 : total = 1
  · have hflags : (sealHeader (partHeader h part total) payload).flags = 0 := if_pos h1
    rw [snapshotPart, hflags, if_pos (.inr rfl), if_pos h1]
  · have hflags : (sealHeader (partHeader h part total) payload).flags = snapshotFlags part :=
      if_neg h1
    rw [snapshotPart, hflags, if_neg (not_or.2 ⟨not_not.2 hk, snapshotFlags_paged part⟩), if_neg h1,
      snapshotFlags_part (by omega)]

/-! ## One part -/

section Parts

variable {compress : Bool} {h : Header} {pageSize commit : UInt32}
  {pages : List WALPage} {segments : List Bytes}

theorem encodeSnapshotPart_eq_ok {partIndex total : Nat} {segment : Bytes}
    (he : encodeSnapshotPart compress h pageSize commit pages partIndex total = .ok segment) :
    partIndex < total ∧ total ≤ maxSnapshotParts ∧
      ∃ payload, encodeWALPageMap compress pageSize commit 1 pages = .ok payload ∧
        segment = encode (partHeader h partIndex total) payload := by
  obtain ⟨-, he⟩ := guard_eq_ok he
  obtain ⟨-, he⟩ := guard_eq_ok he
  obtain ⟨-, he⟩ := guard_eq_ok he
  obtain ⟨hrange, he⟩ := guard_eq_ok he
  obtain ⟨htotal, he⟩ := guard_eq_ok he
  rcases pages with _ | ⟨page, rest⟩
  · cases he
  obtain ⟨-, he⟩ := guard_eq_ok he
  obtain ⟨-, he⟩ := guard_eq_ok he
  obtain ⟨-, he⟩ := guard_eq_ok he
  obtain ⟨-, he⟩ := guard_eq_ok he
  obtain ⟨_, -, he⟩ := bind_eq_ok.1 he
  obtain ⟨payload, hpayload, he⟩ := bind_eq_ok.1 he
  cases he
  exact ⟨by omega, by omega, payload, hpayload, rfl⟩

/-! ## All parts -/

theorem encodePartsFrom_nil (perPart total k : Nat) :
    encodePartsFrom compress h pageSize commit perPart total k [] = .ok [] := by
  rw [encodePartsFrom, dif_pos (.inl rfl)]

theorem encodePartsFrom_step {perPart : Nat} (hp : 0 < perPart) (total k : Nat) (hne : pages ≠ []) :
    encodePartsFrom compress h pageSize commit perPart total k pages =
      (encodeSnapshotPart compress h pageSize commit (pages.take perPart) k total >>= fun segment =>
        encodePartsFrom compress h pageSize commit perPart total (k + 1) (pages.drop perPart) >>=
          fun rest => .ok (segment :: rest)) := by
  rw [encodePartsFrom, dif_neg (not_or.2 ⟨hne, by omega⟩)]

/-- The number of chunks of `p` elements in a list of `n`. -/
theorem chunk_count_step {n p : Nat} (hp : 0 < p) (hn : 0 < n) :
    (n + p - 1) / p = (n - p + p - 1) / p + 1 := by
  by_cases h : p ≤ n
  · rw [← Nat.add_div_right _ hp]
    congr 1
    omega
  · have h0 : n - p = 0 := by omega
    have hlow : (0 + p - 1) / p = 0 := Nat.div_eq_of_lt (by omega)
    rw [h0, hlow]
    refine Nat.div_eq_of_lt_le ?_ ?_ <;> omega

theorem pagesPerPart_pos {maxBytes : Int} : 0 < pagesPerPart pageSize maxBytes :=
  Nat.lt_of_lt_of_le Nat.zero_lt_one (le_max_left _ _)

theorem encodePartsFrom_eq_ok {perPart : Nat} (hp : 0 < perPart) {total k : Nat}
    (he : encodePartsFrom compress h pageSize commit perPart total k pages = .ok segments) :
    ∃ chunks : List (List WALPage), chunks.flatten = pages ∧
      chunks.length = (pages.length + perPart - 1) / perPart ∧
      (∀ c ∈ chunks, c.length ≤ perPart) ∧
      List.Forall₂ (fun c segment =>
        encodeSnapshotPart compress h pageSize commit c.1 c.2 total = .ok segment)
        (chunks.zipIdx k) segments := by
  induction hn : pages.length using Nat.strong_induction_on generalizing pages k segments with
  | _ n ih =>
    by_cases hne : pages = []
    · subst hne
      rw [encodePartsFrom_nil] at he
      cases he
      refine ⟨[], rfl, ?_, by simp, .nil⟩
      rw [← hn]
      exact (Nat.div_eq_of_lt (by simp; omega)).symm
    · have hpos := List.length_pos_iff.2 hne
      rw [encodePartsFrom_step hp total k hne] at he
      obtain ⟨segment, hseg, he⟩ := bind_eq_ok.1 he
      obtain ⟨rest, hrest, he⟩ := bind_eq_ok.1 he
      cases he
      obtain ⟨chunks, hflat, hcount, hsize, hparts⟩ :=
        ih (pages.drop perPart).length (by rw [List.length_drop]; omega) hrest rfl
      refine ⟨pages.take perPart :: chunks, ?_, ?_, ?_, ?_⟩
      · rw [List.flatten_cons, hflat, List.take_append_drop]
      · rw [List.length_cons, hcount, List.length_drop, ← hn, ← chunk_count_step hp hpos]
      · rw [List.forall_mem_cons]
        exact ⟨by simp, hsize⟩
      · exact .cons hseg hparts

/-- A part that is read back: its header carries its number, its payload its pages. -/
structure ReadsPart (h : Header) (pageSize commit : UInt32) (total : Nat)
    (c : List WALPage × Nat) (segment : Bytes) : Prop where
  part_lt : c.2 < total
  reads : ∃ payload, decode segment = .ok (sealHeader (partHeader h c.2 total) payload, payload) ∧
    decodeWALPageMap payload = .ok ⟨pageSize, commit, 1, c.1⟩

def partPages (pageSize : UInt32) (maxBytes : Int) (pageCount : Nat) : Nat :=
  min (pagesPerPart pageSize maxBytes) pageCount

section Budget

variable {maxBytes : Int}
  (he : encodeSnapshotParts compress h pageSize commit pages maxBytes = .ok segments)
include he

theorem encodeSnapshotParts_guards : h.kind = kindSnapshot ∧ commit ≠ 0 ∧
    64 + (4 + pageSize.toNat) ≤ maxBytes.toNat ∧ UInt32.ofNat pages.length = commit ∧
    encodePartsFrom compress h pageSize commit (pagesPerPart pageSize maxBytes)
      ((pages.length + pagesPerPart pageSize maxBytes - 1) / pagesPerPart pageSize maxBytes) 0
      pages = .ok segments := by
  obtain ⟨hkind, he⟩ := guard_eq_ok he
  obtain ⟨-, he⟩ := guard_eq_ok he
  obtain ⟨hcommit, he⟩ := guard_eq_ok he
  obtain ⟨hsmall, he⟩ := guard_eq_ok he
  obtain ⟨hcount, he⟩ := guard_eq_ok he
  refine ⟨not_not.1 hkind, hcommit, ?_, not_not.1 hcount, he⟩
  rw [headerSize] at hsmall
  omega

theorem pagesPerPart_le : 64 + pagesPerPart pageSize maxBytes * (4 + pageSize.toNat) ≤
    maxBytes.toNat := by
  have hsize := (encodeSnapshotParts_guards he).2.2.1
  have hquot : 1 ≤ (maxBytes.toNat - headerSize - 20) / (4 + pageSize.toNat) :=
    (Nat.le_div_iff_mul_le (by omega)).2 (by rw [headerSize]; omega)
  have hle := Nat.div_mul_le_self (maxBytes.toNat - headerSize - 20) (4 + pageSize.toNat)
  rw [pagesPerPart, max_eq_right hquot]
  rw [headerSize] at hle ⊢
  omega

theorem partPages_le : 64 + partPages pageSize maxBytes pages.length * (4 + pageSize.toNat) ≤
    maxBytes.toNat :=
  (Nat.add_le_add_left (Nat.mul_le_mul_right _ (min_le_left _ _)) 64).trans (pagesPerPart_le he)

/-- Without compression the budget itself keeps every part within a Go slice. -/
theorem fitsV1_of_budget (hbudget : maxBytes < 2 ^ 63) :
    FitsV1 pageSize (partPages pageSize maxBytes pages.length) := by
  have hpages := partPages_le he
  exact (show 20 + partPages pageSize maxBytes pages.length * (4 + pageSize.toNat) < 2 ^ 63 by
    omega)

/-- All parts of a snapshot are read back when the payload format can hold the largest. -/
theorem encodeSnapshotParts_eq_ok (hn : pages.length < 2 ^ 32)
    (hfit : Fits compress pageSize (partPages pageSize maxBytes pages.length)) :
    ∃ chunks : List (List WALPage), chunks.flatten = pages ∧ chunks ≠ [] ∧
      chunks.length ≤ maxSnapshotParts ∧ h.kind = kindSnapshot ∧
      List.Forall₂ (ReadsPart h pageSize commit chunks.length) chunks.zipIdx segments := by
  obtain ⟨hkind, hcommit, -, hcount, he⟩ := encodeSnapshotParts_guards he
  have hne : pages ≠ [] := by
    rintro rfl
    exact hcommit hcount.symm
  obtain ⟨chunks, hflat, hlen, hsize, hparts⟩ := encodePartsFrom_eq_ok pagesPerPart_pos he
  rw [← hlen] at hparts
  have hchunks : chunks ≠ [] := by
    rintro rfl
    exact hne hflat.symm
  have hread : ∀ c segment, c ∈ chunks.zipIdx →
      encodeSnapshotPart compress h pageSize commit c.1 c.2 chunks.length = .ok segment →
      ReadsPart h pageSize commit chunks.length c segment := by
    intro c segment hc hseg
    obtain ⟨hlt, -, payload, hpayload, rfl⟩ := encodeSnapshotPart_eq_ok hseg
    have hmem : c.1 ∈ chunks := List.fst_mem_of_mem_zipIdx hc
    have hle : c.1.length ≤ pages.length := by
      rw [← hflat]
      exact (List.sublist_flatten_of_mem hmem).length_le
    have hround := decodeWALPageMap_encodeWALPageMap (by omega) (by omega)
      (hfit.mono (le_min (hsize _ hmem) hle)) hpayload
    exact ⟨hlt, payload, decode_encode _ _ (by omega), hround.1⟩
  refine ⟨chunks, hflat, hchunks, ?_, hkind, ?_⟩
  · obtain ⟨c, cs, rfl⟩ := List.exists_cons_of_ne_nil hchunks
    cases hparts with
    | cons hfirst _ => exact (encodeSnapshotPart_eq_ok hfirst).2.1
  · exact (List.forall₂_iff_zip.1 hparts) |> fun hz => List.forall₂_iff_zip.2 ⟨hz.1,
      fun hmem => hread _ _ (List.of_mem_zip hmem).1 (hz.2 hmem)⟩

/-- Version 2 keeps a part's pages within the budget when LZ4 saves what its index takes. -/
def SavesIndex (pageSize : UInt32) (maxBytes : Int) (pages : List WALPage) : Prop :=
  (pageMapV2HeaderSize + pages.length * (pageMapV2IndexStride + pageSize.toNat) : Nat) ≤
    maxBytes + savedBytes pages

omit he in
theorem payload_le_iff {partIndex total : Nat} {segment : Bytes}
    (hper : 64 + pages.length * (4 + pageSize.toNat) ≤ maxBytes.toNat)
    (hpart : encodeSnapshotPart compress h pageSize commit pages partIndex total = .ok segment) :
    ((segment.drop headerSize).length : Int) ≤ maxBytes ↔
      compress = false ∨ SavesIndex pageSize maxBytes pages := by
  obtain ⟨-, -, payload, hpayload, rfl⟩ := encodeSnapshotPart_eq_ok hpart
  rw [List.length_drop, length_encode]
  cases compress with
  | false =>
    have hlen := length_encodeV1 hpayload
    exact ⟨fun _ => .inl rfl, fun _ => by omega⟩
  | true =>
    have hlen := length_encodeV2_add hpayload
    rw [SavesIndex, ← hlen]
    simp

/-- The pages of part `i`. -/
def pagesOf (perPart : Nat) (pages : List WALPage) (i : Nat) : List WALPage :=
  (pages.drop (i * perPart)).take perPart

omit he in
theorem payloads_le_iff {perPart total k : Nat} (hp : 0 < perPart)
    (hper : 64 + perPart * (4 + pageSize.toNat) ≤ maxBytes.toNat)
    (he : encodePartsFrom compress h pageSize commit perPart total k pages = .ok segments) :
    (∀ segment ∈ segments, ((segment.drop headerSize).length : Int) ≤ maxBytes) ↔
      ∀ i, compress = false ∨ SavesIndex pageSize maxBytes (pagesOf perPart pages i) := by
  induction hn : pages.length using Nat.strong_induction_on generalizing pages k segments with
  | _ n ih =>
    by_cases hne : pages = []
    · subst hne
      rw [encodePartsFrom_nil] at he
      cases he
      simp [pagesOf, SavesIndex, savedBytes, pageMapV2HeaderSize]
      omega
    · have hpos := List.length_pos_iff.2 hne
      rw [encodePartsFrom_step hp total k hne] at he
      obtain ⟨segment, hseg, he⟩ := bind_eq_ok.1 he
      obtain ⟨rest, hrest, he⟩ := bind_eq_ok.1 he
      cases he
      have hlater := ih (pages.drop perPart).length (by rw [List.length_drop]; omega) hrest rfl
      have htake : (pages.take perPart).length ≤ perPart := List.length_take_le _ _
      rw [List.forall_mem_cons, hlater, payload_le_iff (le_trans (by gcongr) hper) hseg,
        ← Nat.and_forall_add_one (p := fun i => _ ∨ SavesIndex _ _ (pagesOf perPart pages i))]
      simp [pagesOf, Nat.succ_mul, Nat.add_comm]

/-- The parts of a snapshot keep to the budget when nothing is compressed, or when LZ4 saves
enough in the pages of every part. -/
theorem encodeSnapshotParts_within_iff :
    (∀ segment ∈ segments, ((segment.drop headerSize).length : Int) ≤ maxBytes) ↔
      compress = false ∨
        ∀ i, SavesIndex pageSize maxBytes (pagesOf (pagesPerPart pageSize maxBytes) pages i) := by
  rw [payloads_le_iff pagesPerPart_pos (pagesPerPart_le he)
    (encodeSnapshotParts_guards he).2.2.2.2, forall_or_left]

end Budget

/-- Six pages of one byte that LZ4 does not shorten. -/
def bytePages : List WALPage := (List.range 6).map fun i => ⟨UInt32.ofNat (i + 1), [0]⟩

def exceeding : Res (List Bytes) :=
  encodeSnapshotParts true { (default : Header) with kind := kindSnapshot } 1 6 bytePages 94

theorem encodeSnapshotParts_exceeds :
    exceeding.map (·.map fun segment => (segment.drop headerSize).length) = .ok [102] := by
  decide +kernel

theorem encodeSnapshotParts_within_bytePages : ∃ segments, exceeding = .ok segments ∧
    ((∀ segment ∈ segments, ((segment.drop headerSize).length : Int) ≤ 94) ↔
      true = false ∨ ∀ i, SavesIndex 1 94 (pagesOf (pagesPerPart 1 94) bytePages i)) := by
  obtain ⟨segments, hok⟩ := isOk_iff.1 (show exceeding.isOk = true by decide +kernel)
  exact ⟨segments, hok, encodeSnapshotParts_within_iff hok⟩


end Parts

end CellHive.Ltx
