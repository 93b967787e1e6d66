import CellHive.Go.Crc32
import CellHive.Errors

/-!
# Replication segments

`internal/ltx/ltx.go`: a segment is a 44-byte header followed by an opaque
payload. The header carries the kind, the epoch, the transaction range and a
CRC32C of the payload; `decode` refuses a buffer whose magic, version, length or
checksum is wrong, and accepts bytes after the payload. `split` cuts a
concatenation of segments (a group-commit batch) back into its segments.
-/

namespace CellHive.Ltx

open Go

def headerSize : Nat := 44

def magic : Bytes := [76, 84, 88, 49]

def version : UInt8 := 1

/-- `Kind`; the four named values are the ones writers use, a decoder may see any byte. -/
abbrev Kind := UInt8

def kindDelta : Kind := 0

def kindSnapshot : Kind := 1

def kindLink : Kind := 2

def kindMarker : Kind := 3

/-- Bit 15 of a snapshot's flags: the segment is one part of a paged snapshot. -/
def flagSnapshotPaged : UInt16 := 0x8000

/-- Bits 0..14 of a snapshot's flags: the part index. -/
def snapshotPartMask : UInt16 := 0x7fff

structure Header where
  version : UInt8
  kind : Kind
  flags : UInt16
  epoch : UInt64
  startTxID : UInt64
  endTxID : UInt64
  length : UInt64
  crc : UInt32
  deriving DecidableEq, Repr, Inhabited

def snapshotFlags (part : Nat) : UInt16 :=
  flagSnapshotPaged ||| (UInt16.ofNat part &&& snapshotPartMask)

/-- `SnapshotPart`: the part index of a paged snapshot part, `none` for anything else. -/
def snapshotPart (h : Header) : Option Nat :=
  if h.kind ≠ kindSnapshot ∨ h.flags &&& flagSnapshotPaged = 0 then none
  else some (h.flags &&& snapshotPartMask).toNat

def checksum (payload : Bytes) : UInt32 := crc32 castagnoli payload

/-- The header `Encode` writes: version, length and checksum are its own. -/
def sealHeader (h : Header) (payload : Bytes) : Header :=
  { h with
    version := version
    length := UInt64.ofNat payload.length
    crc := checksum payload }

def headerBytes (h : Header) : Bytes :=
  magic ++ ([h.version] ++ ([h.kind] ++ (putUint16 h.flags ++ (putUint64 h.epoch ++
    (putUint64 h.startTxID ++ (putUint64 h.endTxID ++ (putUint64 h.length ++ putUint32 h.crc)))))))

def encode (h : Header) (payload : Bytes) : Bytes :=
  headerBytes (sealHeader h payload) ++ payload

def parseHeader (b : Bytes) : Header where
  version := b.getD 4 0
  kind := b.getD 5 0
  flags := uint16 (b.drop 6)
  epoch := uint64 (b.drop 8)
  startTxID := uint64 (b.drop 16)
  endTxID := uint64 (b.drop 24)
  length := uint64 (b.drop 32)
  crc := uint32 (b.drop 40)

def decode (b : Bytes) : Res (Header × Bytes) :=
  if b.length < headerSize then .error (.sentinel .ltxShort)
  else if b.take 4 ≠ magic then .error (.sentinel .ltxMagic)
  else
    let h := parseHeader b
    if h.version ≠ version then .error (.errorf s!"ltx: unsupported version {h.version}")
    else if b.length - headerSize < h.length.toNat then .error (.sentinel .ltxShort)
    else
      let payload := (b.drop headerSize).take h.length.toNat
      if checksum payload ≠ h.crc then .error (.sentinel .ltxChecksum)
      else .ok (h, payload)

/-- `Header.ID`: the content identity of a segment. The source renders the five
numbers as one colon-separated text, which determines them. -/
structure SegmentID where
  epoch : UInt64
  kind : Kind
  startTxID : UInt64
  endTxID : UInt64
  crc : UInt32
  deriving DecidableEq, Repr

def Header.id (h : Header) : SegmentID :=
  ⟨h.epoch, h.kind, h.startTxID, h.endTxID, h.crc⟩

/-- `Split`: cuts a concatenation of segments into its segments. -/
def split (b : Bytes) : Res (List Bytes) :=
  if _hb : b.length = 0 then .ok []
  else if b.length < headerSize then .error (.sentinel .ltxShort)
  else if b.take 4 ≠ magic then .error (.sentinel .ltxMagic)
  else
    let length := (uint64 (b.drop 32)).toNat
    if b.length - headerSize < length then .error (.sentinel .ltxShort)
    else
      let total := headerSize + length
      do
        let _ ← decode (b.take total)
        let rest ← split (b.drop total)
        .ok (b.take total :: rest)
termination_by b.length
decreasing_by
  simp only [List.length_drop, headerSize]
  omega

/-! ## Encoding and decoding -/

@[simp] theorem length_headerBytes (h : Header) : (headerBytes h).length = headerSize := by
  simp [headerBytes, magic, headerSize]

theorem length_encode (h : Header) (payload : Bytes) :
    (encode h payload).length = headerSize + payload.length := by
  simp [encode]

theorem parseHeader_headerBytes (h : Header) (rest : Bytes) :
    parseHeader (headerBytes h ++ rest) = h := by
  simp [parseHeader, headerBytes, magic]

/-- Decoding what was encoded gives the sealed header and the payload, also when
other bytes follow the segment. -/
theorem decode_encode_append (h : Header) (payload rest : Bytes) (hp : payload.length < 2 ^ 64) :
    decode (encode h payload ++ rest) = .ok (sealHeader h payload, payload) := by
  have hlen : (sealHeader h payload).length.toNat = payload.length := by
    exact Nat.mod_eq_of_lt hp
  have hparse : parseHeader (encode h payload ++ rest) = sealHeader h payload := by
    rw [encode, List.append_assoc, parseHeader_headerBytes]
  have hdrop : (encode h payload ++ rest).drop headerSize = payload ++ rest := by
    rw [encode, List.append_assoc, List.drop_left' (length_headerBytes _)]
  have htotal : (encode h payload ++ rest).length = headerSize + payload.length + rest.length := by
    rw [List.length_append, length_encode]
  unfold decode
  dsimp only
  rw [hparse, hdrop, hlen, List.take_left]
  rw [if_neg (by omega), if_neg (by simp [encode, headerBytes, magic]), if_neg (by simp [sealHeader]),
    if_neg (by omega), if_neg (by simp [sealHeader])]

theorem decode_encode (h : Header) (payload : Bytes) (hp : payload.length < 2 ^ 64) :
    decode (encode h payload) = .ok (sealHeader h payload, payload) := by
  have e := decode_encode_append h payload [] hp
  rwa [List.append_nil] at e

variable {b payload : Bytes} {h : Header}

theorem decode_eq_ok (hd : decode b = .ok (h, payload)) :
    headerSize ≤ b.length ∧ b.take 4 = magic ∧ h = parseHeader b ∧ h.version = version ∧
      h.length.toNat ≤ b.length - headerSize ∧ payload = (b.drop headerSize).take h.length.toNat ∧
      checksum payload = h.crc := by
  unfold decode at hd
  split at hd
  · cases hd
  split at hd
  · cases hd
  dsimp only at hd
  split at hd
  · cases hd
  split at hd
  · cases hd
  split at hd
  · cases hd
  obtain ⟨rfl, rfl⟩ := hd
  simp_all

theorem length_of_decode (hd : decode b = .ok (h, payload)) : payload.length = h.length.toNat := by
  obtain ⟨-, -, -, -, hl, rfl, -⟩ := decode_eq_ok hd
  simp only [List.length_take, List.length_drop]
  omega

/-! ## Single segments and batches -/

/-- `b` is exactly one valid segment: it decodes and nothing follows its payload. -/
def IsSegment (b : Bytes) : Prop :=
  ∃ h payload, decode b = .ok (h, payload) ∧ b.length = headerSize + payload.length

theorem isSegment_encode (h : Header) (payload : Bytes) (hp : payload.length < 2 ^ 64) :
    IsSegment (encode h payload) :=
  ⟨_, _, decode_encode h payload hp, length_encode h payload⟩

theorem split_nil : split [] = .ok [] := by
  rw [split]; simp

theorem split_append {rest : Bytes} (hb : IsSegment b) :
    split (b ++ rest) = (split rest).map (b :: ·) := by
  obtain ⟨h, payload, hd, hlen⟩ := hb
  obtain ⟨hsize, hmagic, hparse, -, -, -, -⟩ := decode_eq_ok hd
  have hl := length_of_decode hd
  have hbig : 44 ≤ b.length := hsize
  have hfield : (uint64 ((b ++ rest).drop 32)).toNat = payload.length := by
    rw [hl, hparse, parseHeader]
    simp only [uint64]
    rw [List.drop_append_of_le_length (by omega), List.take_append_of_le_length]
    simp only [List.length_drop]
    omega
  have htake : (b ++ rest).take (headerSize + payload.length) = b := List.take_left' hlen
  have hdrop : (b ++ rest).drop (headerSize + payload.length) = rest := List.drop_left' hlen
  rw [split]
  dsimp only
  rw [hfield, htake, hdrop, hd]
  have htotal : (b ++ rest).length = headerSize + payload.length + rest.length := by
    rw [List.length_append, hlen]
  rw [htotal, dif_neg (by simp only [headerSize]; omega), if_neg (by omega),
    List.take_append_of_le_length (by omega), if_neg (by simp [hmagic]), if_neg (by omega)]
  cases split rest <;> rfl

theorem split_single (hb : IsSegment b) : split b = .ok [b] := by
  have e : split (b ++ []) = (split []).map (b :: ·) := split_append hb
  rwa [List.append_nil, split_nil] at e

theorem split_flatten {parts : List Bytes} (h : ∀ p ∈ parts, IsSegment p) :
    split parts.flatten = .ok parts := by
  induction parts with
  | nil => exact split_nil
  | cons p parts ih =>
    rw [List.flatten_cons, split_append (h p List.mem_cons_self),
      ih fun q hq => h q (List.mem_cons_of_mem p hq)]
    rfl

theorem isSegment_take (hle : (uint64 (b.drop 32)).toNat ≤ b.length - headerSize)
    (hbig : headerSize ≤ b.length)
    (hd : decode (b.take (headerSize + (uint64 (b.drop 32)).toNat)) = .ok (h, payload)) :
    IsSegment (b.take (headerSize + (uint64 (b.drop 32)).toNat)) := by
  refine ⟨h, payload, hd, ?_⟩
  obtain ⟨-, -, hparse, -, -, -, -⟩ := decode_eq_ok hd
  -- the length field of the cut buffer is that of the whole one
  have hfield : (parseHeader (b.take (headerSize + (uint64 (b.drop 32)).toNat))).length =
      uint64 (b.drop 32) := by
    simp only [parseHeader, uint64, List.drop_take, List.take_take, headerSize]
    rw [Nat.min_eq_left (by omega)]
  rw [length_of_decode hd, hparse, hfield, List.length_take]
  omega

theorem split_eq_ok {parts : List Bytes} (h : split b = .ok parts) :
    parts.flatten = b ∧ ∀ p ∈ parts, IsSegment p := by
  induction hn : b.length using Nat.strong_induction_on generalizing b parts with
  | _ n ih =>
    subst hn
    rw [split] at h
    split at h
    · next hb =>
      cases h
      exact ⟨(List.length_eq_zero_iff.1 hb).symm, by simp⟩
    split at h
    · cases h
    split at h
    · cases h
    dsimp only at h
    split at h
    · cases h
    next hne hbig _ hle =>
    obtain ⟨⟨hdr, payload⟩, hd, h⟩ := bind_eq_ok.1 h
    obtain ⟨rest, hrest, h⟩ := bind_eq_ok.1 h
    cases h
    have hshort : (b.drop (headerSize + (uint64 (b.drop 32)).toNat)).length < b.length := by
      rw [List.length_drop, headerSize]
      omega
    obtain ⟨hflat, hsegs⟩ := ih _ hshort hrest rfl
    refine ⟨by rw [List.flatten_cons, hflat, List.take_append_drop], ?_⟩
    intro p hp
    rcases List.mem_cons.1 hp with rfl | hp
    · exact isSegment_take (not_lt.1 hle) (not_lt.1 hbig) hd
    · exact hsegs p hp

theorem split_eq_ok_iff {parts : List Bytes} :
    split b = .ok parts ↔ parts.flatten = b ∧ ∀ p ∈ parts, IsSegment p :=
  ⟨split_eq_ok, fun h => h.1 ▸ split_flatten h.2⟩

end CellHive.Ltx
