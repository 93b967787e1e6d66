import CellHive.Ltx.PageMap

/-!
# Page maps are read back

Encoding a page list and decoding the payload returns the list, in both versions,
as long as the payload stays within the widths of its fields (`Fits`). For
version 1 only a Go slice's own length bounds it; for version 2 the index words
are 32 bits wide with one bit taken by the codec, the decoder limits the number
of entries, and LZ4 length bytes stop at 2^30.
-/

namespace CellHive.Ltx

open Go

/-- The limits of a version 2 payload with `n` pages. -/
def FitsV2 (pageSize : UInt32) (n : Nat) : Prop :=
  pageSize.toNat ≤ 2 ^ 30 ∧ n ≤ 2 ^ 31 / pageMapV2IndexStride ∧
    pageMapV2HeaderSize + n * (pageMapV2IndexStride + pageSize.toNat) ≤ 2 ^ 32

/-- The limit of a version 1 payload with `n` pages: it is one Go slice. -/
def FitsV1 (pageSize : UInt32) (n : Nat) : Prop :=
  20 + n * (4 + pageSize.toNat) < 2 ^ 63

instance (pageSize : UInt32) (n : Nat) : Decidable (FitsV2 pageSize n) :=
  inferInstanceAs (Decidable (_ ∧ _ ∧ _))

instance (pageSize : UInt32) (n : Nat) : Decidable (FitsV1 pageSize n) :=
  inferInstanceAs (Decidable (_ < _))

/-- The limits of a payload that `EncodeWALPageMap` writes. -/
def Fits (compress : Bool) (pageSize : UInt32) (n : Nat) : Prop :=
  if compress then FitsV2 pageSize n else FitsV1 pageSize n

variable {pageSize : UInt32} {txCount : Nat} {seen : Option UInt32} {page : WALPage}
  {pages : List WALPage} {payload : Bytes}

theorem Fits.mono {compress : Bool} {m n : Nat} (hmn : m ≤ n) (h : Fits compress pageSize n) :
    Fits compress pageSize m := by
  cases compress with
  | false =>
    have hmul := Nat.mul_le_mul_right (4 + pageSize.toNat) hmn
    have hn : 20 + n * (4 + pageSize.toNat) < 2 ^ 63 := h
    exact (show 20 + m * (4 + pageSize.toNat) < 2 ^ 63 by omega)
  | true =>
    obtain ⟨hsize, hcount, htotal⟩ : FitsV2 pageSize n := h
    have hmul := Nat.mul_le_mul_right (pageMapV2IndexStride + pageSize.toNat) hmn
    exact ⟨hsize, by omega, by omega⟩

/-! ## Dimensions -/

@[simp] theorem length_dimensions (pageSize commit : UInt32) (txCount pageCount : Nat) :
    (dimensions pageSize commit txCount pageCount).length = 16 := by
  simp [dimensions]

theorem readDesc_dimensions {m : Bytes} (hm : m.length = 4) (pageSize commit : UInt32)
    {pageCount : Nat} (ht : txCount < 2 ^ 32) (hp : pageCount < 2 ^ 32) (rest : Bytes) (v2 : Bool) :
    readDesc (m ++ (dimensions pageSize commit txCount pageCount ++ rest)) v2 =
      ⟨pageSize, commit, txCount, pageCount, v2⟩ := by
  have hdrop (n : Nat) (b : Bytes) : (m ++ b).drop (n + 4) = b.drop n := by
    rw [Nat.add_comm, ← List.drop_drop, List.drop_left' hm]
  simp only [readDesc, hdrop, dimensions, List.append_assoc, List.drop_zero, drop_putUint32,
    uint32_putUint32, UInt32.toNat_ofNat', Nat.mod_eq_of_lt ht, Nat.mod_eq_of_lt hp]

/-! ## The encoders' checks -/

theorem checkPages_cons {rest : List WALPage}
    (h : checkPages pageSize seen (page :: rest) = .ok ()) :
    page.data.length = pageSize.toNat ∧ notAbove seen page.pageNo = false ∧
      checkPages pageSize (some page.pageNo) rest = .ok () := by
  unfold checkPages at h
  split at h
  · cases h
  split at h
  · cases h
  simp_all

theorem checkPages_ok {seen : Option UInt32}
    (hsized : ∀ q ∈ pages, q.data.length = pageSize.toNat)
    (hasc : pages.Pairwise (·.pageNo < ·.pageNo))
    (hseen : ∀ q ∈ pages, notAbove seen q.pageNo = false) :
    checkPages pageSize seen pages = .ok () := by
  induction pages generalizing seen with
  | nil => rfl
  | cons q pages ih =>
    obtain ⟨hhead, htail⟩ := List.pairwise_cons.1 hasc
    rw [checkPages, if_neg fun hne => hne (hsized q List.mem_cons_self), if_neg]
    · apply ih (fun p hp => hsized p (List.mem_cons_of_mem _ hp)) htail
      intro p hp
      exact decide_eq_false (UInt32.not_le.2 (hhead p hp))
    · rw [hseen q List.mem_cons_self]
      exact Bool.false_ne_true

theorem encodeWALPageMap_ok (compress : Bool) (commit : UInt32) {txCount : Nat}
    (hsize : pageSize ≠ 0) (hcount : txCount ≠ 0)
    (hcheck : checkPages pageSize none pages = .ok ()) :
    ∃ payload, encodeWALPageMap compress pageSize commit txCount pages = .ok payload := by
  cases compress with
  | false =>
    rw [encodeWALPageMap, encodeWALPageMapV1, if_neg hsize, if_neg hcount, hcheck]
    exact ⟨_, rfl⟩
  | true =>
    rw [encodeWALPageMap, if_neg hsize, if_neg hcount, hcheck]
    exact ⟨_, rfl⟩

/-! ## Version 1 -/

/-- The locations of version 1 frames from offset `off` on. -/
def v1Locs (pageSize : UInt32) : Nat → List WALPage → List PageLoc
  | _, [] => []
  | off, page :: rest =>
    ⟨page.pageNo, off + 4, pageSize.toNat, pageSize, codecRaw⟩ ::
      v1Locs pageSize (off + (4 + pageSize.toNat)) rest

/-- The body of a version 1 payload. -/
def v1Entries (pages : List WALPage) : Bytes :=
  pages.flatMap fun page => putUint32 page.pageNo ++ page.data

theorem length_v1Entries (h : checkPages pageSize seen pages = .ok ()) :
    (v1Entries pages).length = pages.length * (4 + pageSize.toNat) := by
  induction pages generalizing seen with
  | nil => simp [v1Entries]
  | cons page rest ih =>
    obtain ⟨hlen, -, hrest⟩ := checkPages_cons h
    have := ih hrest
    simp only [v1Entries, List.flatMap_cons, List.length_append, length_putUint32, hlen,
      List.length_cons] at this ⊢
    rw [this]
    ring

theorem locsV1_v1Entries :
    ∀ {off : Nat} {seen : Option UInt32}, checkPages pageSize seen pages = .ok () →
      off ≤ payload.length → payload.drop off = v1Entries pages →
      locsV1 payload pageSize pages.length off seen = .ok (v1Locs pageSize off pages) ∧
        readFrames payload (v1Locs pageSize off pages) = .ok pages := by
  induction pages with
  | nil => intro off seen _ _ _; exact ⟨rfl, rfl⟩
  | cons page rest ih =>
    intro off seen hc hoff hd
    obtain ⟨hlen, hab, hrest⟩ := checkPages_cons hc
    have hd' : payload.drop off = putUint32 page.pageNo ++ (page.data ++ v1Entries rest) := by
      rw [hd]; simp [v1Entries]
    have hd4 : payload.drop (off + 4) = page.data ++ v1Entries rest := by
      rw [← List.drop_drop, hd', List.drop_left' (length_putUint32 _)]
    have hdn : payload.drop (off + (4 + pageSize.toNat)) = v1Entries rest := by
      rw [← Nat.add_assoc, ← List.drop_drop, hd4, List.drop_left' hlen]
    have hbound : off + 4 + pageSize.toNat ≤ payload.length := by
      have := congrArg List.length hd'
      simp only [List.length_drop, List.length_append, length_putUint32, hlen] at this
      omega
    obtain ⟨ih1, ih2⟩ := ih hrest (by omega) hdn
    have hframe : frameData payload ⟨page.pageNo, off + 4, pageSize.toNat, pageSize, codecRaw⟩ =
        .ok page.data := by
      unfold frameData slice
      dsimp only
      rw [if_neg (by omega), if_pos rfl, Nat.add_sub_cancel_left, hd4, List.take_left' hlen,
        if_neg (by simp [hlen])]
    constructor
    · simp only [List.length_cons, locsV1, v1Locs]
      rw [if_neg (by omega), hd', uint32_putUint32, hab, ih1]
      rfl
    · simp only [v1Locs, readFrames]
      rw [hframe, ih2]
      rfl

section V1

variable {commit : UInt32} (h : encodeWALPageMapV1 pageSize commit txCount pages = .ok payload)
include h

theorem encodeV1_eq_ok : pageSize ≠ 0 ∧ txCount ≠ 0 ∧ checkPages pageSize none pages = .ok () ∧
    payload = walPageMapMagic ++ (dimensions pageSize commit txCount pages.length ++
      v1Entries pages) := by
  obtain ⟨hps, h⟩ := guard_eq_ok h
  obtain ⟨htx, h⟩ := guard_eq_ok h
  obtain ⟨⟨⟩, hc, h⟩ := bind_eq_ok.1 h
  cases h
  exact ⟨hps, htx, hc, rfl⟩

theorem length_encodeV1 : payload.length = 20 + pages.length * (4 + pageSize.toNat) := by
  obtain ⟨-, -, hc, rfl⟩ := encodeV1_eq_ok h
  simp only [List.length_append, length_dimensions, walPageMapMagic, List.length_cons,
    List.length_nil, length_v1Entries hc]
  omega

theorem decodeWALPageMap_encodeV1 (ht : txCount < 2 ^ 32) (hn : pages.length < 2 ^ 32)
    (hfit : payload.length < 2 ^ 63) :
    decodeWALPageMap payload = .ok ⟨pageSize, commit, txCount, pages⟩ := by
  have hlen := length_encodeV1 h
  obtain ⟨hps, htx, hc, hp⟩ := encodeV1_eq_ok h
  have hdesc : describePageMap payload = .ok ⟨pageSize, commit, txCount, pages.length, false⟩ := by
    unfold describePageMap
    rw [if_pos ⟨by omega, by rw [hp]; rfl⟩, hp, readDesc_dimensions rfl _ _ ht hn, ← hp]
    dsimp only
    rw [if_neg (by tauto), Nat.mod_eq_of_lt (by omega), if_neg (by simp [hlen])]
  have hdrop : payload.drop pageMapHeaderSize = v1Entries pages := by
    rw [hp, ← List.append_assoc, List.drop_left' (by simp [walPageMapMagic, pageMapHeaderSize])]
  have hlocs := locsV1_v1Entries hc (by rw [hlen, pageMapHeaderSize]; omega) hdrop
  unfold decodeWALPageMap pageLocs
  rw [hdesc, ok_bind, ok_bind, locsOf, if_pos rfl]
  rw [hlocs.1, ok_bind, hlocs.2, ok_bind]

end V1

/-! ## The codec bit -/

section CodecBit

variable {n : Nat}

theorem toNat_codecBit : codecBit.toNat = 2 ^ 31 := rfl

theorem not_codecBit : ~~~ codecBit = (0x7fffffff : UInt32) := by decide

theorem stored_and_not_codecBit (h : n < 2 ^ 31) :
    ((UInt32.ofNat n &&& ~~~ codecBit).toNat = n) ∧
      (((UInt32.ofNat n ||| codecBit) &&& ~~~ codecBit).toNat = n) := by
  have hto : (UInt32.ofNat n).toNat = n := by rw [UInt32.toNat_ofNat']; omega
  have hmask : (0x7fffffff : UInt32).toNat = 2 ^ 31 - 1 := rfl
  rw [not_codecBit, UInt32.toNat_and, UInt32.toNat_and, UInt32.toNat_or, hto, hmask,
    toNat_codecBit, Nat.and_two_pow_sub_one_eq_mod, Nat.and_two_pow_sub_one_eq_mod,
    Nat.or_mod_two_pow, Nat.mod_self, Nat.or_zero, Nat.mod_eq_of_lt h]
  exact ⟨rfl, rfl⟩

theorem raw_and_codecBit (h : n < 2 ^ 31) : UInt32.ofNat n &&& codecBit = 0 := by
  have hto : (UInt32.ofNat n).toNat = n := by rw [UInt32.toNat_ofNat']; omega
  apply UInt32.toNat_inj.1
  rw [UInt32.toNat_and, hto, toNat_codecBit, Nat.and_two_pow, Nat.testBit_lt_two_pow h]
  rfl

theorem lz4_and_codecBit : (UInt32.ofNat n ||| codecBit) &&& codecBit ≠ 0 := by
  intro e
  have e2 := congrArg UInt32.toNat e
  rw [UInt32.toNat_and, UInt32.toNat_or, toNat_codecBit, Nat.and_two_pow, Nat.testBit_or,
    Nat.testBit_two_pow_self, Bool.or_true] at e2
  exact absurd e2 (by decide)

end CodecBit

/-! ## Version 2 -/

/-- A location whose numbers fit their index words. -/
structure LocFits (pageSize : UInt32) (loc : PageLoc) : Prop where
  off_lt : loc.off < 2 ^ 32
  stored_lt : loc.stored < 2 ^ 31
  size_eq : loc.size = pageSize
  codec_mem : loc.codec = codecRaw ∨ loc.codec = codecLZ4

theorem readLoc_indexEntry {rest : Bytes} {i : Nat} {loc : PageLoc} (hfit : LocFits pageSize loc)
    (hd : payload.drop (pageMapV2HeaderSize + i * pageMapV2IndexStride) = indexEntry loc ++ rest) :
    readLoc payload pageSize i = loc := by
  obtain ⟨hoff, hst, hsize, hcodec⟩ := hfit
  generalize hpos : pageMapV2HeaderSize + i * pageMapV2IndexStride = pos at hd
  have hdrop (n : Nat) : payload.drop (pos + n) = (indexEntry loc ++ rest).drop n := by
    rw [← List.drop_drop, hd]
  have hto : (UInt32.ofNat loc.off).toNat = loc.off := by rw [UInt32.toNat_ofNat']; omega
  simp only [readLoc, hpos, hdrop, hd, indexEntry, List.append_assoc, drop_putUint32,
    List.drop_zero, uint32_putUint32, hto]
  obtain ⟨pgno, off, stored, size, codec⟩ := loc
  dsimp only at hst hsize hcodec ⊢
  subst hsize
  have hstored := stored_and_not_codecBit hst
  rcases hcodec with rfl | rfl
  · rw [if_neg (by decide), hstored.1, raw_and_codecBit hst]
    simp
  · rw [if_pos rfl, hstored.2, if_pos lz4_and_codecBit]

theorem frameOf_cases (page : WALPage) :
    ((frameOf page).2 = codecRaw ∧ (frameOf page).1 = page.data) ∨
      ((frameOf page).2 = codecLZ4 ∧ (frameOf page).1 = Lz4.encodeBlock page.data ∧
        (frameOf page).1.length < page.data.length) := by
  unfold frameOf
  dsimp only
  split
  · rename_i h; exact .inr ⟨rfl, rfl, h⟩
  · exact .inl ⟨rfl, rfl⟩

/-- The bytes by which LZ4 shortens these pages; a page it does not shorten counts nothing. -/
def savedBytes (pages : List WALPage) : Nat :=
  (pages.map fun page => page.data.length - (Lz4.encodeBlock page.data).length).sum

theorem frameOf_length (page : WALPage) : (frameOf page).1.length +
    (page.data.length - (Lz4.encodeBlock page.data).length) = page.data.length := by
  unfold frameOf
  dsimp only
  split <;> dsimp only <;> omega

theorem frameOf_length_pos (h : 0 < page.data.length) : 0 < (frameOf page).1.length := by
  rcases frameOf_cases page with ⟨-, e⟩ | ⟨-, e, -⟩
  · rw [e]; exact h
  · rw [e]; exact List.length_pos_iff.2 (Lz4.encodeBlock_ne_nil (List.length_pos_iff.1 h))

theorem frameData_frameOf {rest : Bytes} {off : Nat} (hlen : page.data.length = pageSize.toNat)
    (hsize : pageSize.toNat ≤ 2 ^ 30) (hoff : off ≤ payload.length)
    (hd : payload.drop off = (frameOf page).1 ++ rest) :
    frameData payload ⟨page.pageNo, off, (frameOf page).1.length, pageSize, (frameOf page).2⟩ =
      .ok page.data := by
  have hbound : off + (frameOf page).1.length ≤ payload.length := by
    have := congrArg List.length hd
    simp only [List.length_drop, List.length_append] at this
    omega
  unfold frameData slice
  dsimp only
  rw [if_neg (by omega), Nat.add_sub_cancel_left, hd, List.take_left]
  rcases frameOf_cases page with ⟨hc, he⟩ | ⟨hc, he, -⟩
  · rw [hc, if_pos rfl, he, if_neg (by simp [hlen])]
  · rw [hc, if_pos rfl, he, ← hlen]
    exact Lz4.decodeBlock_encodeBlock page.data (by omega)

@[simp] theorem length_indexEntry (l : PageLoc) : (indexEntry l).length = pageMapV2IndexStride := by
  simp [indexEntry, pageMapV2IndexStride]

@[simp] theorem length_frameLocs (pageSize : UInt32) (off : Nat) (pages : List WALPage) :
    (frameLocs pageSize off pages).length = pages.length := by
  induction pages generalizing off with
  | nil => rfl
  | cons page rest ih => simp [frameLocs, ih]

theorem length_flatMap_indexEntry (locs : List PageLoc) :
    (locs.flatMap indexEntry).length = locs.length * pageMapV2IndexStride := by
  induction locs with
  | nil => simp
  | cons l locs ih => simp only [List.flatMap_cons, List.length_append, ih, length_indexEntry,
      List.length_cons]; ring

theorem length_frames (h : checkPages pageSize seen pages = .ok ()) :
    (frames pages).length + savedBytes pages = pages.length * pageSize.toNat := by
  induction pages generalizing seen with
  | nil => simp [frames, savedBytes]
  | cons page rest ih =>
    obtain ⟨hlen, -, hrest⟩ := checkPages_cons h
    have h1 := ih hrest
    have h2 := frameOf_length page
    simp only [frames, savedBytes, List.flatMap_cons, List.length_append, List.map_cons,
      List.sum_cons, List.length_cons] at h1 ⊢
    rw [Nat.add_mul]
    omega

/-- Scanning the version 2 index from entry `i`, where a page list's entries start, finds
the frames that start at `off`, and reads them. -/
theorem locsV2_frameLocs {indexEnd : Nat} (hpos : 0 < pageSize.toNat)
    (hsize : pageSize.toNat ≤ 2 ^ 30) :
    ∀ {off i : Nat} {seen : Option UInt32} {rest : Bytes}, checkPages pageSize seen pages = .ok () →
      indexEnd ≤ off → off ≤ payload.length → payload.drop off = frames pages →
      off + (frames pages).length ≤ 2 ^ 32 →
      payload.drop (pageMapV2HeaderSize + i * pageMapV2IndexStride) =
        (frameLocs pageSize off pages).flatMap indexEntry ++ rest →
      locsV2 payload pageSize indexEnd pages.length i seen = .ok (frameLocs pageSize off pages) ∧
        readFrames payload (frameLocs pageSize off pages) = .ok pages := by
  induction pages with
  | nil => intro off i seen rest _ _ _ _ _ _; exact ⟨rfl, rfl⟩
  | cons page pages ih =>
    intro off i seen rest hc hidx hoff hfr h32 hix
    obtain ⟨hlen, hab, hrest⟩ := checkPages_cons hc
    have hfr' : payload.drop off = (frameOf page).1 ++ frames pages := by rw [hfr]; rfl
    have hfrn : payload.drop (off + (frameOf page).1.length) = frames pages := by
      rw [← List.drop_drop, hfr', List.drop_left]
    have hlenf : (frames (page :: pages)).length = (frameOf page).1.length + (frames pages).length := by
      simp [frames]
    have hle := frameOf_length page
    have hgt : 0 < (frameOf page).1.length := frameOf_length_pos (by omega)
    have hbound : off + (frameOf page).1.length ≤ payload.length := by
      have := congrArg List.length hfr'
      simp only [List.length_drop, List.length_append] at this
      omega
    have hix' : payload.drop (pageMapV2HeaderSize + i * pageMapV2IndexStride) =
        indexEntry ⟨page.pageNo, off, (frameOf page).1.length, pageSize, (frameOf page).2⟩ ++
          ((frameLocs pageSize (off + (frameOf page).1.length) pages).flatMap indexEntry ++ rest) := by
      rw [hix, frameLocs, List.flatMap_cons, List.append_assoc]
    have hixn : payload.drop (pageMapV2HeaderSize + (i + 1) * pageMapV2IndexStride) =
        (frameLocs pageSize (off + (frameOf page).1.length) pages).flatMap indexEntry ++ rest := by
      rw [Nat.add_mul, Nat.one_mul, ← Nat.add_assoc, ← List.drop_drop, hix',
        List.drop_left' (length_indexEntry _)]
    have hcodec : (frameOf page).2 = codecRaw ∨ (frameOf page).2 = codecLZ4 := by
      rcases frameOf_cases page with h | h
      · exact .inl h.1
      · exact .inr h.1
    have hloc := readLoc_indexEntry ⟨by dsimp only; omega, by dsimp only; omega, rfl, hcodec⟩ hix'
    obtain ⟨ih1, ih2⟩ := ih hrest (by omega) hbound hfrn (by omega) hixn
    constructor
    · simp only [List.length_cons, locsV2, frameLocs]
      rw [hloc]
      dsimp only
      rw [if_neg (by simp [hab]), if_neg (by omega), if_neg, if_neg (by omega), ih1]
      · rfl
      · rintro ⟨hraw, hne⟩
        rcases frameOf_cases page with ⟨-, he⟩ | ⟨hz, -, -⟩
        · rw [he] at hne; exact hne hlen
        · rw [hz] at hraw; exact absurd hraw (by decide)
    · simp only [frameLocs, readFrames]
      rw [frameData_frameOf hlen hsize hoff hfr', ih2]
      rfl

section V2

variable {commit : UInt32} (h : encodeWALPageMap true pageSize commit txCount pages = .ok payload)
include h

theorem encodeV2_eq_ok : pageSize ≠ 0 ∧ txCount ≠ 0 ∧ checkPages pageSize none pages = .ok () ∧
    payload = walPageMapV2Magic ++ (dimensions pageSize commit txCount pages.length ++ (putUint32 0 ++
      ((frameLocs pageSize (pageMapV2HeaderSize + pages.length * pageMapV2IndexStride) pages).flatMap
        indexEntry ++ frames pages))) := by
  obtain ⟨hps, h⟩ := guard_eq_ok h
  obtain ⟨htx, h⟩ := guard_eq_ok h
  obtain ⟨⟨⟩, hc, h⟩ := bind_eq_ok.1 h
  cases h
  exact ⟨hps, htx, hc, rfl⟩

theorem length_encodeV2 : payload.length =
    pageMapV2HeaderSize + pages.length * pageMapV2IndexStride + (frames pages).length := by
  obtain ⟨-, -, -, rfl⟩ := encodeV2_eq_ok h
  simp only [List.length_append, length_dimensions, length_putUint32, walPageMapV2Magic,
    List.length_cons, List.length_nil, length_flatMap_indexEntry, length_frameLocs,
    pageMapV2HeaderSize]
  omega

/-- The decoder's limit on the number of pages is the only check that can fail. -/
theorem describe_encodeV2 (ht : txCount < 2 ^ 32) (hn : pages.length < 2 ^ 32) :
    describePageMap payload =
      if pages.length > 2 ^ 31 / pageMapV2IndexStride then
        .error (.errorf "ltx: page-map page count too large")
      else .ok ⟨pageSize, commit, txCount, pages.length, true⟩ := by
  have hlen := length_encodeV2 h
  obtain ⟨hps, htx, -, hp⟩ := encodeV2_eq_ok h
  have hm : payload.take 4 = walPageMapV2Magic := by rw [hp]; rfl
  have hread : readDesc payload true = ⟨pageSize, commit, txCount, pages.length, true⟩ := by
    rw [hp, readDesc_dimensions rfl _ _ ht hn]
  rw [describePageMap, if_neg (by rw [hm]; simp [walPageMapV2Magic, walPageMapMagic]),
    if_pos ⟨by omega, hm⟩, hread]
  dsimp only
  rw [if_neg (by tauto), if_neg (show ¬ _ > payload.length by omega)]

theorem decodeWALPageMap_encodeV2 (ht : txCount < 2 ^ 32) (hsize : pageSize.toNat ≤ 2 ^ 30)
    (hcount : pages.length ≤ 2 ^ 31 / pageMapV2IndexStride) (hfit : payload.length ≤ 2 ^ 32) :
    decodeWALPageMap payload = .ok ⟨pageSize, commit, txCount, pages⟩ := by
  have hn : pages.length < 2 ^ 32 := lt_of_le_of_lt hcount (by decide)
  have hlen := length_encodeV2 h
  have hdesc := describe_encodeV2 h ht hn
  rw [if_neg (by omega)] at hdesc
  obtain ⟨hps, -, hc, hp⟩ := encodeV2_eq_ok h
  have hpos : 0 < pageSize.toNat := by
    rcases Nat.eq_zero_or_pos pageSize.toNat with h0 | h0
    · exact absurd (UInt32.toNat_inj.1 h0) hps
    · exact h0
  generalize hindex : (frameLocs pageSize (pageMapV2HeaderSize + pages.length *
    pageMapV2IndexStride) pages).flatMap indexEntry = index at hp
  have hil : index.length = pages.length * pageMapV2IndexStride := by
    rw [← hindex, length_flatMap_indexEntry, length_frameLocs]
  have hhead : (walPageMapV2Magic ++ (dimensions pageSize commit txCount pages.length ++
      putUint32 0)).length = pageMapV2HeaderSize := by
    simp [walPageMapV2Magic, pageMapV2HeaderSize]
  have hdrop : payload.drop pageMapV2HeaderSize = index ++ frames pages := by
    rw [hp, ← List.append_assoc _ (putUint32 0), ← List.append_assoc, List.drop_left' hhead]
  have hframes : payload.drop (pageMapV2HeaderSize + pages.length * pageMapV2IndexStride) =
      frames pages := by
    rw [← List.drop_drop, hdrop, List.drop_left' hil]
  have hlocs := @locsV2_frameLocs pageSize pages payload
    (pageMapV2HeaderSize + pages.length * pageMapV2IndexStride) hpos hsize _ 0 none
    (frames pages) hc (Nat.le_refl _) (by omega) hframes (by omega)
    (by rw [Nat.zero_mul, Nat.add_zero, hdrop, hindex])
  unfold decodeWALPageMap pageLocs
  rw [hdesc, ok_bind, ok_bind, locsOf, if_neg (by simp)]
  rw [hlocs.1, ok_bind, hlocs.2, ok_bind]

theorem length_encodeV2_add : payload.length + savedBytes pages =
    pageMapV2HeaderSize + pages.length * (pageMapV2IndexStride + pageSize.toNat) := by
  have hframes := length_frames (encodeV2_eq_ok h).2.2.1
  rw [length_encodeV2 h, Nat.mul_add]
  omega

theorem length_encodeV2_le : payload.length ≤
    pageMapV2HeaderSize + pages.length * (pageMapV2IndexStride + pageSize.toNat) := by
  rw [← length_encodeV2_add h]
  exact Nat.le_add_right _ _

end V2

theorem decodeWALPageMap_encodeWALPageMap {compress : Bool} {commit : UInt32}
    (ht : txCount < 2 ^ 32) (hn : pages.length < 2 ^ 32)
    (hfit : Fits compress pageSize pages.length)
    (h : encodeWALPageMap compress pageSize commit txCount pages = .ok payload) :
    decodeWALPageMap payload = .ok ⟨pageSize, commit, txCount, pages⟩ ∧
      payload.length < 2 ^ 63 := by
  cases compress with
  | false =>
    have hlen : payload.length < 2 ^ 63 := lt_of_eq_of_lt (length_encodeV1 h) hfit
    exact ⟨decodeWALPageMap_encodeV1 h ht hn hlen, hlen⟩
  | true =>
    obtain ⟨hsize, hcount, htotal⟩ : FitsV2 pageSize pages.length := hfit
    have hle := le_trans (length_encodeV2_le h) htotal
    exact ⟨decodeWALPageMap_encodeV2 h ht hsize hcount hle, lt_of_le_of_lt hle (by decide)⟩

end CellHive.Ltx
