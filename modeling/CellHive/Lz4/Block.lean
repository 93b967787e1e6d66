import CellHive.Go.Bytes
import CellHive.Errors

/-!
# LZ4 blocks

`internal/lz4/block.go`: the raw block format. The encoder scans the source with
a hash table of earlier positions; where the four bytes at a position occurred at
most 64 KiB earlier it extends the match and emits one sequence (pending
literals, offset, match length). The decoder replays the sequences and demands
exactly the expected number of bytes.

`decodeBlock_encodeBlock`: every source of at most 2^30 bytes is restored. The
invariant is that the output decoded so far is the prefix of the source up to the
encoder's anchor.
-/

namespace CellHive.Lz4

open Go

def minMatch : Nat := 4

def maxOffset : Nat := 65535

/-! ## Encoding -/

/-- The hash of the four bytes at `i`: the top 16 bits of their product with a
multiplicative constant. -/
def hash (src : Bytes) (i : Nat) : Nat :=
  ((uint32LE (src.drop i) * 2654435761) >>> 16).toNat

/-- `appendLengthBytes`: a length in bytes of 255 and a final smaller byte. -/
def lengthBytes (n : Nat) : Bytes :=
  if n < 255 then [UInt8.ofNat n] else 255 :: lengthBytes (n - 255)

/-- A length as a token's nibble; 15 announces length bytes. -/
def nibble (n : Nat) : Nat := if n < 15 then n else 15

def token (litLen matchExtra : Nat) : UInt8 :=
  (UInt8.ofNat (nibble litLen) <<< 4) ||| UInt8.ofNat (nibble matchExtra)

def extraBytes (n : Nat) : Bytes := if n < 15 then [] else lengthBytes (n - 15)

def emitSequence (lits : Bytes) (offset matchExtra : Nat) : Bytes :=
  [token lits.length matchExtra] ++ (extraBytes lits.length ++ (lits ++
    ([UInt8.ofNat offset, UInt8.ofNat (offset / 256)] ++ extraBytes matchExtra)))

/-- The last sequence has literals only, and is left out when there are none. -/
def emitLast (lits : Bytes) : Bytes :=
  if lits = [] then [] else [token lits.length 0] ++ (extraBytes lits.length ++ lits)

/-- Extends a match that starts at `start` with candidate `cand` from position `i` on. -/
def extend (src : Bytes) (cand start i : Nat) : Nat :=
  if i < src.length ∧ src.getD (cand + (i - start)) 0 = src.getD i 0 then
    extend src cand start (i + 1)
  else i
termination_by src.length - i

/-- The candidate for position `i` is usable: near enough, with four bytes that agree. -/
def usable (src : Bytes) (i cand : Nat) : Bool :=
  decide (i - cand ≤ maxOffset) && decide (cand + minMatch ≤ src.length) &&
    decide (uint32LE (src.drop cand) = uint32LE (src.drop i))

theorem le_extend (src : Bytes) (cand start i : Nat) : i ≤ extend src cand start i := by
  fun_induction extend src cand start i with
  | case1 i h ih => omega
  | case2 i h => exact Nat.le_refl i

/-- The encoder's loop from position `i`, with the literals since `anchor` pending. -/
def encodeFrom (src : Bytes) (table : Nat → Option Nat) (anchor i : Nat) : Bytes :=
  if i + minMatch ≤ src.length then
    let h := hash src i
    let table' := fun k => if k = h then some i else table k
    match (table h).filter (usable src i) with
    | none => encodeFrom src table' anchor (i + 1)
    | some cand =>
      let stop := extend src cand i (i + minMatch)
      emitSequence (slice src anchor i) (i - cand) (stop - i - minMatch) ++
        encodeFrom src table' stop stop
  else emitLast (src.drop anchor)
termination_by src.length - i
decreasing_by
  · simp only [minMatch] at *; omega
  · have := le_extend src cand i (i + minMatch)
    simp only [minMatch] at *; omega

def encodeBlock (src : Bytes) : Bytes :=
  if src = [] then [] else encodeFrom src (fun _ => none) 0 0

/-! ## Decoding -/

def readLength (total : Nat) : Bytes → Res (Nat × Bytes)
  | [] => .error (.sentinel .lz4Truncated)
  | b :: rest =>
    if b ≠ 255 then .ok (total + b.toNat, rest)
    else if total + b.toNat > 2 ^ 30 then .error (.sentinel .lz4BadLength)
    else readLength (total + b.toNat) rest

def readNibble (n : Nat) (rest : Bytes) : Res (Nat × Bytes) :=
  if n = 15 then (readLength 0 rest).map fun r => (15 + r.1, r.2) else .ok (n, rest)

/-- The byte-wise copy of a match, which may overlap its own output. -/
def copyMatch (offset : Nat) : Nat → Bytes → Bytes
  | 0, out => out
  | n + 1, out => copyMatch offset n (out ++ [out.getD (out.length - offset) 0])

theorem readLength_suffix {total : Nat} {rest : Bytes} {r : Nat × Bytes}
    (h : readLength total rest = .ok r) : r.2 <:+ rest := by
  induction rest generalizing total with
  | nil => cases h
  | cons b rest ih =>
    unfold readLength at h
    split at h
    · cases h
      exact List.suffix_cons b rest
    · split at h
      · cases h
      · exact (ih h).trans (List.suffix_cons b rest)

theorem readNibble_suffix {n : Nat} {rest : Bytes} {r : Nat × Bytes}
    (h : readNibble n rest = .ok r) : r.2 <:+ rest := by
  unfold readNibble at h
  split at h
  · obtain ⟨s, hs, rfl⟩ := map_eq_ok.1 h
    exact (readLength_suffix hs :)
  · cases h
    exact List.suffix_rfl

/-- The length check after the last sequence. -/
def finish (expected : Nat) (out : Bytes) : Res Bytes :=
  if out.length ≠ expected then
    .error (.wrap s!"got {out.length}, want {expected}" (.sentinel .lz4ShortOutput))
  else .ok out

/-- The decoder's loop over the remaining input; `size` is the length of the whole input. -/
def decodeFrom (size expected : Nat) (rest out : Bytes) : Res Bytes :=
  match rest with
  | [] => finish expected out
  | tok :: rest =>
    match _hl : readNibble (tok >>> 4).toNat rest with
    | .error e => .error e
    | .ok (litLen, rest₁) =>
      if rest₁.length < litLen then
        .error (.wrap s!"literals {litLen} at {size - rest₁.length}" (.sentinel .lz4Truncated))
      else
        let out₁ := out ++ rest₁.take litLen
        match _hr : rest₁.drop litLen with
        | [] => finish expected out₁
        | [_] => .error (.sentinel .lz4Truncated)
        | lo :: hi :: rest₂ =>
          let offset := lo.toNat + 256 * hi.toNat
          if offset = 0 ∨ out₁.length < offset then
            .error (.wrap s!"{offset}" (.sentinel .lz4BadOffset))
          else
            match _hm : readNibble (tok &&& 0x0f).toNat rest₂ with
            | .error e => .error e
            | .ok (matchExtra, rest₃) =>
              let matchLen := matchExtra + minMatch
              if out₁.length + matchLen > expected then
                .error (.wrap s!"{out₁.length + matchLen} > {expected}" (.sentinel .lz4TooLarge))
              else decodeFrom size expected rest₃ (copyMatch offset matchLen out₁)
termination_by rest.length
decreasing_by
  have h1 := (readNibble_suffix _hl).length_le
  have h3 := (readNibble_suffix _hm).length_le
  have h2 : (rest₁.drop litLen).length = rest₂.length + 2 := by rw [_hr]; rfl
  simp only [List.length_drop] at h2
  simp only [List.length_cons]
  simp only at h1 h3
  omega

def decodeBlock (src : Bytes) (expected : Nat) : Res Bytes :=
  decodeFrom src.length expected src []

/-! ## Lengths and tokens are read back -/

theorem readLength_lengthBytes (n total : Nat) (rest : Bytes) (h : total + n ≤ 2 ^ 30) :
    readLength total (lengthBytes n ++ rest) = .ok (total + n, rest) := by
  fun_induction lengthBytes n generalizing total with
  | case1 n hn =>
    have hne : UInt8.ofNat n ≠ 255 := by
      intro e
      have e2 := congrArg UInt8.toNat e
      simp only [UInt8.toNat_ofNat'] at e2
      have e3 : (255 : UInt8).toNat = 255 := rfl
      omega
    have hto : (UInt8.ofNat n).toNat = n := by
      rw [UInt8.toNat_ofNat']; omega
    simp [readLength, hne, hto]
  | case2 n hn ih =>
    have e3 : (255 : UInt8).toNat = 255 := rfl
    simp only [List.cons_append, readLength, ne_eq, not_true_eq_false, if_false, e3]
    have hsum : total + 255 + (n - 255) = total + n := by omega
    rw [if_neg (by omega), ih (total + 255) (by omega), hsum]

theorem readNibble_extraBytes (n : Nat) (rest : Bytes) (h : n ≤ 2 ^ 30) :
    readNibble (nibble n) (extraBytes n ++ rest) = .ok (n, rest) := by
  unfold readNibble nibble extraBytes
  by_cases hn : n < 15
  · rw [if_pos hn, if_pos hn, if_neg (by omega)]
    rfl
  · rw [if_neg hn, if_neg hn, if_pos rfl, readLength_lengthBytes _ _ _ (by omega)]
    have hsum : 15 + (0 + (n - 15)) = n := by omega
    simp only [Except.map, hsum]

theorem nibble_lt (n : Nat) : nibble n < 16 := by
  unfold nibble; split <;> omega

theorem token_nibbles : ∀ a b : Fin 16,
    (((UInt8.ofNat a <<< 4) ||| UInt8.ofNat b) >>> 4).toNat = a ∧
      (((UInt8.ofNat a <<< 4) ||| UInt8.ofNat b) &&& 0x0f).toNat = b := by
  decide +kernel

theorem token_high (l m : Nat) : (token l m >>> 4).toNat = nibble l :=
  (token_nibbles ⟨nibble l, nibble_lt l⟩ ⟨nibble m, nibble_lt m⟩).1

theorem token_low (l m : Nat) : (token l m &&& 0x0f).toNat = nibble m :=
  (token_nibbles ⟨nibble l, nibble_lt l⟩ ⟨nibble m, nibble_lt m⟩).2

/-! ## One sequence -/

theorem decodeFrom_emitSequence {size expected : Nat} {lits out rest : Bytes}
    {offset matchExtra : Nat} (hlit : lits.length ≤ 2 ^ 30) (hmx : matchExtra ≤ 2 ^ 30)
    (ho : 0 < offset) (hmax : offset ≤ maxOffset) (hback : offset ≤ out.length + lits.length)
    (hexp : out.length + lits.length + (matchExtra + minMatch) ≤ expected) :
    decodeFrom size expected (emitSequence lits offset matchExtra ++ rest) out =
      decodeFrom size expected rest (copyMatch offset (matchExtra + minMatch) (out ++ lits)) := by
  have hoff : (UInt8.ofNat offset).toNat + 256 * (UInt8.ofNat (offset / 256)).toNat = offset := by
    simp only [UInt8.toNat_ofNat', maxOffset] at *
    omega
  have hread : readNibble (token lits.length matchExtra >>> 4).toNat (extraBytes lits.length ++
      (lits ++ ([UInt8.ofNat offset, UInt8.ofNat (offset / 256)] ++
        (extraBytes matchExtra ++ rest)))) = .ok (lits.length, lits ++
      ([UInt8.ofNat offset, UInt8.ofNat (offset / 256)] ++ (extraBytes matchExtra ++ rest))) := by
    rw [token_high, readNibble_extraBytes _ _ hlit]
  have hmatch : readNibble (token lits.length matchExtra &&& 0x0f).toNat
      (extraBytes matchExtra ++ rest) = .ok (matchExtra, rest) := by
    rw [token_low, readNibble_extraBytes _ _ hmx]
  simp only [emitSequence, List.cons_append, List.nil_append, List.append_assoc] at hread ⊢
  rw [decodeFrom.eq_def]
  dsimp only
  split
  · rename_i e heq
    rw [hread] at heq
    cases heq
  · rename_i heq
    rw [hread] at heq
    cases heq
    rw [if_neg (by simp)]
    split
    all_goals
      rename_i hr
      rw [List.drop_left] at hr
      cases hr
    rw [List.take_left, hoff, if_neg (by simp only [List.length_append]; omega)]
    split
    all_goals
      rename_i hm
      rw [hmatch] at hm
      cases hm
    rw [if_neg (by simp only [List.length_append]; omega)]

theorem decodeFrom_emitLast {size expected : Nat} {lits out : Bytes} (hlit : lits.length ≤ 2 ^ 30) :
    decodeFrom size expected (emitLast lits) out = finish expected (out ++ lits) := by
  unfold emitLast
  by_cases hl : lits = []
  · rw [if_pos hl, hl, decodeFrom.eq_def, List.append_nil]
  rw [if_neg hl, List.cons_append, List.nil_append, decodeFrom.eq_def]
  dsimp only
  have hread : readNibble (token lits.length 0 >>> 4).toNat (extraBytes lits.length ++ lits) =
      .ok (lits.length, lits) := by
    rw [token_high, readNibble_extraBytes _ _ hlit]
  split
  · rename_i heq
    rw [hread] at heq
    cases heq
  · rename_i heq
    rw [hread] at heq
    cases heq
    rw [if_neg (by simp)]
    split
    · rw [List.take_length]
    all_goals
      rename_i hr
      rw [List.drop_length] at hr
      cases hr

/-! ## Matches -/

theorem getLE_inj : ∀ {a b : Bytes}, a.length = b.length → getLE a = getLE b → a = b
  | [], [], _, _ => rfl
  | x :: a, y :: b, hlen, h => by
    simp only [getLE, List.foldr_cons] at h
    have hx := x.toNat_lt
    have hy := y.toNat_lt
    have hxy : x.toNat = y.toNat := by omega
    have hab : getLE a = getLE b := by unfold getLE; omega
    rw [UInt8.toNat_inj.1 hxy, getLE_inj (by simpa using hlen) hab]

theorem getLE_lt : ∀ (a : Bytes), getLE a < 256 ^ a.length
  | [] => by simp [getLE]
  | x :: a => by
    have ih := getLE_lt a
    have hx := x.toNat_lt
    simp only [getLE, List.foldr_cons, List.length_cons, pow_succ] at ih ⊢
    omega

theorem take_of_uint32LE_eq {a b : Bytes} (ha : 4 ≤ a.length) (hb : 4 ≤ b.length)
    (h : uint32LE a = uint32LE b) : a.take 4 = b.take 4 := by
  have hla : (a.take 4).length = 4 := by rw [List.length_take]; omega
  have hlb : (b.take 4).length = 4 := by rw [List.length_take]; omega
  apply getLE_inj (hla.trans hlb.symm)
  have hta := getLE_lt (a.take 4)
  have htb := getLE_lt (b.take 4)
  rw [hla] at hta
  rw [hlb] at htb
  have e := congrArg UInt32.toNat h
  simp only [uint32LE, UInt32.toNat_ofNat'] at e
  omega

/-- A copied run extends a prefix of the source when the source repeats itself there. -/
theorem copyMatch_take (src : Bytes) (offset : Nat) (ho : 0 < offset) :
    ∀ (n p : Nat), offset ≤ p → p + n ≤ src.length →
      (∀ k, k < n → src.getD (p - offset + k) 0 = src.getD (p + k) 0) →
      copyMatch offset n (src.take p) = src.take (p + n)
  | 0, p, _, _, _ => rfl
  | n + 1, p, hp, hlen, hrep => by
    have hl : (src.take p).length = p := by rw [List.length_take]; omega
    have hget : (src.take p).getD (p - offset) 0 = src.getD p 0 := by
      have h0 := hrep 0 (by omega)
      rw [Nat.add_zero, Nat.add_zero] at h0
      rw [← h0, List.getD_eq_getElem?_getD, List.getD_eq_getElem?_getD,
        List.getElem?_take_of_lt (by omega)]
    have hstep : src.take p ++ [(src.take p).getD (p - offset) 0] = src.take (p + 1) := by
      rw [hget, List.take_add_one, List.getD_eq_getElem?_getD, List.getElem?_eq_getElem (by omega)]
      rfl
    rw [copyMatch, hl, hstep, copyMatch_take src offset ho n (p + 1) (by omega) (by omega)]
    · congr 1
      omega
    · intro k hk
      have := hrep (k + 1) (by omega)
      rw [show p + 1 - offset + k = p - offset + (k + 1) by omega,
        show p + 1 + k = p + (k + 1) by omega]
      exact this

theorem extend_spec (src : Bytes) (cand start i : Nat) (hi : start ≤ i) :
    (i ≤ src.length → extend src cand start i ≤ src.length) ∧
      ∀ k, i ≤ k → k < extend src cand start i →
        src.getD (cand + (k - start)) 0 = src.getD k 0 := by
  fun_induction extend src cand start i with
  | case1 i h ih =>
    obtain ⟨ih1, ih2⟩ := ih (by omega)
    refine ⟨fun _ => ih1 (by omega), fun k hk hlt => ?_⟩
    rcases Nat.eq_or_lt_of_le hk with rfl | hgt
    · exact h.2
    · exact ih2 k hgt hlt
  | case2 i h => exact ⟨fun hl => hl, fun k hk hlt => by omega⟩

theorem usable_repeats {src : Bytes} {i cand : Nat} (hu : usable src i cand = true)
    (hi : i + minMatch ≤ src.length) :
    ∀ k, k < minMatch → src.getD (cand + k) 0 = src.getD (i + k) 0 := by
  simp only [usable, Bool.and_eq_true, decide_eq_true_eq] at hu
  obtain ⟨⟨-, hc⟩, he⟩ := hu
  simp only [minMatch] at hc hi ⊢
  have ht := take_of_uint32LE_eq (by rw [List.length_drop]; omega)
    (by rw [List.length_drop]; omega) he
  intro k hk
  have hk2 := congrArg (fun l => l[k]?.getD 0) ht
  simp only [List.getElem?_take_of_lt hk, List.getElem?_drop] at hk2
  exact hk2

theorem match_repeats {src : Bytes} {i cand : Nat} (hu : usable src i cand = true)
    (hi : i + minMatch ≤ src.length) :
    ∀ k, k < extend src cand i (i + minMatch) - i →
      src.getD (cand + k) 0 = src.getD (i + k) 0 := by
  intro k hk
  by_cases hk4 : k < minMatch
  · exact usable_repeats hu hi k hk4
  · have h := (extend_spec src cand i (i + minMatch) (by omega)).2 (i + k) (by omega) (by omega)
    rwa [Nat.add_sub_cancel_left] at h

/-! ## The round trip -/

/-- Decoding what the encoder emits from position `i` on, after the prefix up to the
anchor, completes the source. The table only holds positions before `i`. -/
theorem decodeFrom_encodeFrom (src : Bytes) (hsrc : src.length ≤ 2 ^ 30) (size : Nat)
    (table : Nat → Option Nat) (anchor i : Nat) (ha : anchor ≤ i) (hal : anchor ≤ src.length)
    (htab : ∀ h c, table h = some c → c < i) :
    decodeFrom size src.length (encodeFrom src table anchor i) (src.take anchor) = .ok src := by
  fun_induction encodeFrom src table anchor i with
  | case1 table anchor i hi h table' hnone ih =>
    apply ih (by omega) hal
    intro k c hc
    simp only [table'] at hc
    split at hc
    · cases hc; omega
    · have := htab k c hc; omega
  | case2 table anchor i hi h table' cand hsome stop ih =>
    obtain ⟨hcand, hu⟩ := Option.filter_eq_some_iff.1 hsome
    have hlt : cand < i := htab _ _ hcand
    have hstop : stop ≤ src.length := (extend_spec src cand i (i + minMatch) (by omega)).1 hi
    have hge : i + minMatch ≤ stop := le_extend src cand i (i + minMatch)
    have hnear : i - cand ≤ maxOffset := by
      simp only [usable, Bool.and_eq_true, decide_eq_true_eq] at hu
      exact hu.1.1
    have hlits : (slice src anchor i).length = i - anchor := by
      simp only [slice, List.length_take, List.length_drop]
      omega
    have hpre : src.take anchor ++ slice src anchor i = src.take i := by
      unfold slice
      rw [← List.take_add, show anchor + (i - anchor) = i by omega]
    have hlen : (src.take anchor).length = anchor := by rw [List.length_take]; omega
    have hsum : stop - i - minMatch + minMatch = stop - i := by omega
    rw [decodeFrom_emitSequence (by omega) (by omega) (by omega) hnear (by omega) (by omega), hpre,
      hsum, copyMatch_take src (i - cand) (by omega) _ _ (by omega) (by omega)]
    · rw [show i + (stop - i) = stop by omega]
      refine ih (Nat.le_refl _) hstop ?_
      intro k c hc
      simp only [table'] at hc
      have hgt : i < stop := by simp only [minMatch] at hge; omega
      split at hc
      · cases hc; exact hgt
      · have := htab k c hc; omega
    · intro k hk
      rw [show i - (i - cand) + k = cand + k by omega]
      exact match_repeats hu hi k hk
  | case3 table anchor i hi =>
    rw [decodeFrom_emitLast (by rw [List.length_drop]; omega), finish]
    simp

theorem encodeFrom_ne_nil (src : Bytes) (table : Nat → Option Nat) (anchor i : Nat)
    (ha : anchor < src.length) : encodeFrom src table anchor i ≠ [] := by
  fun_induction encodeFrom src table anchor i with
  | case1 table anchor i hi h table' hnone ih => exact ih ha
  | case2 table anchor i hi h table' cand hsome stop ih => simp [emitSequence]
  | case3 table anchor i hi =>
    have hd : src.drop anchor ≠ [] := by
      intro e
      have := congrArg List.length e
      simp only [List.length_drop, List.length_nil] at this
      omega
    simp [emitLast, hd]

theorem encodeBlock_ne_nil {src : Bytes} (h : src ≠ []) : encodeBlock src ≠ [] := by
  rw [encodeBlock, if_neg h]
  exact encodeFrom_ne_nil src _ 0 0 (List.length_pos_iff.2 h)

/-- **Round trip**: every source of at most 2^30 bytes is restored from its block. -/
theorem decodeBlock_encodeBlock (src : Bytes) (hsrc : src.length ≤ 2 ^ 30) :
    decodeBlock (encodeBlock src) src.length = .ok src := by
  unfold decodeBlock encodeBlock
  by_cases h : src = []
  · subst h
    rw [decodeFrom.eq_def]
    rfl
  · rw [if_neg h]
    exact decodeFrom_encodeFrom src hsrc _ _ 0 0 (Nat.le_refl 0) (Nat.zero_le _) (by simp)

end CellHive.Lz4
