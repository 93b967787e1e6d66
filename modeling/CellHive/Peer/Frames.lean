import CellHive.Go.Bytes

/-!
# Framed records

`internal/peer/frames.go`: byte strings as records of a four-byte length and the bytes.
`decodeFrames` stops at a torn tail instead of refusing it, so what it reads from some
bytes is a start of what it reads when more bytes follow.
-/

namespace CellHive.Peer

open Go

/-- `EncodeFrames`; a length is cut to 32 bits. -/
def encodeFrames (segments : List Bytes) : Bytes :=
  segments.flatMap fun s => putUint32 (UInt32.ofNat s.length) ++ s

def decodeFrames (data : Bytes) : List Bytes :=
  if data.length < 4 + (uint32 data).toNat then []
  else (data.drop 4).take (uint32 data).toNat :: decodeFrames (data.drop (4 + (uint32 data).toNat))
termination_by data.length
decreasing_by
  simp only [List.length_drop]
  omega

variable {data : Bytes} {segments : List Bytes}

theorem decodeFrames_of_short (h : data.length < 4 + (uint32 data).toNat) :
    decodeFrames data = [] := by
  rw [decodeFrames, if_pos h]

@[simp] theorem decodeFrames_nil : decodeFrames [] = [] :=
  decodeFrames_of_short (by simp)

theorem decodeFrames_of_le (h : 4 + (uint32 data).toNat ≤ data.length) :
    decodeFrames data = (data.drop 4).take (uint32 data).toNat ::
      decodeFrames (data.drop (4 + (uint32 data).toNat)) := by
  rw [decodeFrames, if_neg (not_lt.2 h)]

theorem decodeFrames_cons {s : Bytes} (hs : s.length < 2 ^ 32) (rest : Bytes) :
    decodeFrames (putUint32 (UInt32.ofNat s.length) ++ (s ++ rest)) = s :: decodeFrames rest := by
  have hlen : (uint32 (putUint32 (UInt32.ofNat s.length) ++ (s ++ rest))).toNat = s.length := by
    rw [uint32_putUint32]
    exact Nat.mod_eq_of_lt hs
  have hdrop : (putUint32 (UInt32.ofNat s.length) ++ (s ++ rest)).drop 4 = s ++ rest :=
    List.drop_left' (length_putUint32 _)
  rw [decodeFrames_of_le (by rw [hlen]; simp), hlen, ← List.drop_drop, hdrop, List.take_left, List.drop_left]

theorem decodeFrames_encodeFrames_append (h : ∀ s ∈ segments, s.length < 2 ^ 32) (rest : Bytes) :
    decodeFrames (encodeFrames segments ++ rest) = segments ++ decodeFrames rest := by
  induction segments with
  | nil => rfl
  | cons s segments ih =>
    have hcons : encodeFrames (s :: segments) ++ rest =
        putUint32 (UInt32.ofNat s.length) ++ (s ++ (encodeFrames segments ++ rest)) := by
      simp [encodeFrames]
    rw [hcons, decodeFrames_cons (h s List.mem_cons_self),
      ih fun t ht => h t (List.mem_cons_of_mem s ht)]
    rfl

theorem decodeFrames_encodeFrames (h : ∀ s ∈ segments, s.length < 2 ^ 32) :
    decodeFrames (encodeFrames segments) = segments := by
  have e := decodeFrames_encodeFrames_append h []
  rwa [List.append_nil, decodeFrames_nil, List.append_nil] at e

theorem decodeFrames_append_left (data rest : Bytes) :
    decodeFrames data <+: decodeFrames (data ++ rest) := by
  induction hn : data.length using Nat.strong_induction_on generalizing data with
  | _ n ih =>
    by_cases h : 4 + (uint32 data).toNat ≤ data.length
    · have hsame : uint32 (data ++ rest) = uint32 data := by
        rw [uint32, uint32, List.take_append_of_le_length (by omega)]
      have hle : 4 + (uint32 (data ++ rest)).toNat ≤ (data ++ rest).length := by
        rw [hsame, List.length_append]
        omega
      rw [decodeFrames_of_le h, decodeFrames_of_le hle, hsame,
        List.drop_append_of_le_length (by omega), List.take_append_of_le_length (by
          rw [List.length_drop]
          omega), List.drop_append_of_le_length h]
      obtain ⟨more, hmore⟩ := ih (data.drop (4 + (uint32 data).toNat)).length
        (by rw [List.length_drop]; omega) (data.drop (4 + (uint32 data).toNat)) rfl
      exact ⟨more, by rw [List.cons_append, hmore]⟩
    · rw [decodeFrames_of_short (not_le.1 h)]
      exact ⟨_, rfl⟩

theorem length_of_mem_decodeFrames {s : Bytes} (h : s ∈ decodeFrames data) : s.length < 2 ^ 32 := by
  induction hn : data.length using Nat.strong_induction_on generalizing data with
  | _ n ih =>
    by_cases hle : 4 + (uint32 data).toNat ≤ data.length
    · rw [decodeFrames_of_le hle] at h
      rcases List.mem_cons.1 h with rfl | h
      · rw [List.length_take]
        exact (Nat.min_le_left _ _).trans_lt (uint32 data).toNat_lt
      · exact ih _ (by rw [List.length_drop]; omega) h rfl
    · rw [decodeFrames_of_short (not_le.1 hle)] at h
      cases h

theorem decodeFrames_append_of_whole (h : encodeFrames (decodeFrames data) = data)
    (hs : ∀ s ∈ segments, s.length < 2 ^ 32) :
    decodeFrames (data ++ encodeFrames segments) = decodeFrames data ++ segments := by
  conv_lhs => rw [← h]
  rw [decodeFrames_encodeFrames_append fun s => length_of_mem_decodeFrames,
    decodeFrames_encodeFrames hs]

theorem decodeFrames_subset {data' : Bytes} (h : data <+: data') :
    decodeFrames data ⊆ decodeFrames data' := by
  obtain ⟨rest, rfl⟩ := h
  exact (decodeFrames_append_left data rest).subset

end CellHive.Peer
