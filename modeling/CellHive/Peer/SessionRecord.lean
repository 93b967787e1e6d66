import CellHive.Errors
import CellHive.Peer.Frames

/-!
# Records of a follower session

The session log of `internal/peer/spool.go` as bytes. A record is a length, a sequence
number and a fragment: the scope, the epoch and the framed segments of one append. The
scan that resumes a log and the reader of a sealed one walk the records from the start;
both are compared here with the list of fragments that was written.
-/

namespace CellHive.Peer

open Go

structure SessionAppend where
  scope : Bytes
  epoch : UInt64
  segments : List Bytes
  deriving DecidableEq

structure SessionFragment where
  sequence : UInt64
  scope : Bytes
  epoch : UInt64
  segments : List Bytes
  deriving DecidableEq

/-- `encodeSessionFragment`; the length of the scope is cut to 16 bits. -/
def encodeSessionFragment (a : SessionAppend) : Bytes :=
  putUint16 (UInt16.ofNat a.scope.length) ++ (a.scope ++ (putUint64 a.epoch ++
    encodeFrames a.segments))

/-- `encodeSessionRecord`; the length of the record is cut to 32 bits. -/
def encodeSessionRecord (seq : UInt64) (a : SessionAppend) : Bytes :=
  putUint32 (UInt32.ofNat (8 + (encodeSessionFragment a).length)) ++ (putUint64 seq ++
    encodeSessionFragment a)

def decodeSessionFragment (seq : UInt64) (b : Bytes) : Res SessionFragment :=
  if b.length < 10 then .error (.errorf "spool: truncated session fragment")
  else
    let n := (uint16 b).toNat
    if b.length < n + 10 then .error (.errorf "spool: invalid session fragment scope")
    else
      let frames := b.drop (n + 10)
      let segments := decodeFrames frames
      if segments = [] ∨ (encodeFrames segments).length ≠ frames.length then
        .error (.errorf "spool: invalid session fragment frames")
      else .ok ⟨seq, (b.drop 2).take n, uint64 (b.drop (2 + n)), segments⟩

/-- The scan of a log from its start: the last sequence number and the length of the whole
records. No record is shorter than `least`. -/
def scanRecords (least : Nat) (last : UInt64) (size : Nat) (data : Bytes) : Res (UInt64 × Nat) :=
  if _h : data.length < 12 then .ok (last, size)
  else
    let n := (uint32 data).toNat
    let seq := uint64 (data.drop 4)
    if n < least ∨ seq ≠ last + 1 then
      .error (.errorf s!"spool: invalid session sequence at {last}")
    else if data.length < 4 + n then .ok (last, size)
    else scanRecords least seq (size + (4 + n)) (data.drop (4 + n))
termination_by data.length
decreasing_by
  simp only [List.length_drop]
  omega

def scanSessionState (data : Bytes) : Res (UInt64 × Nat) := scanRecords 18 0 0 data

/-- Where a reader of the sealed log stands: a sequence number and its offset. -/
structure TailPosition where
  sequence : UInt64 := 0
  offset : Nat := 0
  deriving DecidableEq

def SessionFragment.size (f : SessionFragment) : Nat := (f.segments.map (·.length)).sum

/-- What one call of `tailPage` asks for. -/
structure TailRequest where
  after : UInt64
  maxFragments : Int
  maxBytes : Int

def TailRequest.full (rq : TailRequest) (out : List SessionFragment) (bytes size : Nat) : Bool :=
  out ≠ [] ∧ ((0 < rq.maxFragments ∧ rq.maxFragments ≤ out.length) ∨
    (0 < rq.maxBytes ∧ rq.maxBytes < (bytes + size : Nat)))

/-- The loop of `tailPage` over a log sealed at `final`. `data` is the rest of the file from
`pos` on; `returned` is the position behind the last returned fragment. -/
def tailFrom (rq : TailRequest) (final : UInt64) (pos returned : TailPosition)
    (out : List SessionFragment) (bytes : Nat) (data : Bytes) :
    Res (List SessionFragment × TailPosition) :=
  if final ≤ pos.sequence then .ok (out, returned)
  else if 0 < rq.maxFragments ∧ rq.maxFragments ≤ out.length then .ok (out, returned)
  else if _h : data.length < 12 then
    .error (.errorf s!"spool: incomplete session tail at {pos.sequence}")
  else
    let n := (uint32 data).toNat
    let seq := uint64 (data.drop 4)
    if n < 18 ∨ seq ≠ pos.sequence + 1 then
      .error (.errorf s!"spool: session tail gap at {pos.sequence} got {seq}")
    else if data.length < 4 + n then .error (.errorf s!"spool: incomplete session frame at {seq}")
    else
      let next : TailPosition := ⟨seq, pos.offset + (4 + n)⟩
      if seq ≤ rq.after then tailFrom rq final next returned out bytes (data.drop (4 + n))
      else
        match decodeSessionFragment seq ((data.drop 12).take (n - 8)) with
        | .error e => .error e
        | .ok fragment =>
          if rq.full out bytes fragment.size then .ok (out, returned)
          else tailFrom rq final next next (out ++ [fragment]) (bytes + fragment.size)
            (data.drop (4 + n))
termination_by data.length
decreasing_by
  all_goals
    simp only [List.length_drop]
    omega

/-! ## One record -/

structure Fits (a : SessionAppend) : Prop where
  scope : a.scope.length < 2 ^ 16
  segments : a.segments ≠ []
  frames : ∀ s ∈ a.segments, s.length < 2 ^ 32
  record : 8 + (encodeSessionFragment a).length < 2 ^ 32

def SessionAppend.fragment (a : SessionAppend) (seq : UInt64) : SessionFragment :=
  ⟨seq, a.scope, a.epoch, a.segments⟩

theorem length_encodeSessionFragment (a : SessionAppend) :
    (encodeSessionFragment a).length = 10 + a.scope.length + (encodeFrames a.segments).length := by
  simp only [encodeSessionFragment, List.length_append, length_putUint16, length_putUint64]
  omega

theorem length_encodeSessionRecord (seq : UInt64) (a : SessionAppend) :
    (encodeSessionRecord seq a).length = 12 + (encodeSessionFragment a).length := by
  simp only [encodeSessionRecord, List.length_append, length_putUint32, length_putUint64]
  omega

theorem decodeSessionFragment_encode {a : SessionAppend} (h : Fits a) (seq : UInt64) :
    decodeSessionFragment seq (encodeSessionFragment a) = .ok (a.fragment seq) := by
  have hlen := length_encodeSessionFragment a
  have hscope : (uint16 (encodeSessionFragment a)).toNat = a.scope.length := by
    rw [encodeSessionFragment, uint16_putUint16]
    exact Nat.mod_eq_of_lt h.scope
  have hdrop2 : (encodeSessionFragment a).drop 2 =
      a.scope ++ (putUint64 a.epoch ++ encodeFrames a.segments) :=
    List.drop_left' (length_putUint16 _)
  have hepoch : (encodeSessionFragment a).drop (2 + a.scope.length) =
      putUint64 a.epoch ++ encodeFrames a.segments := by
    rw [← List.drop_drop, hdrop2, List.drop_left]
  have hframes : (encodeSessionFragment a).drop (a.scope.length + 10) = encodeFrames a.segments := by
    rw [show a.scope.length + 10 = 2 + a.scope.length + 8 by omega, ← List.drop_drop, hepoch,
      List.drop_left' (length_putUint64 _)]
  unfold decodeSessionFragment
  dsimp only
  rw [hscope, hframes, decodeFrames_encodeFrames h.frames, hdrop2, hepoch, List.take_left,
    uint64_putUint64, if_neg (by omega), if_neg (by omega), if_neg (by simp [h.segments])]
  rfl

section Record

variable {a : SessionAppend} (h : Fits a) (seq : UInt64) (rest : Bytes)
include h

theorem uint32_record : (uint32 (encodeSessionRecord seq a ++ rest)).toNat =
    8 + (encodeSessionFragment a).length := by
  rw [encodeSessionRecord, List.append_assoc, uint32_putUint32]
  exact Nat.mod_eq_of_lt h.record

omit h in
theorem uint64_record : uint64 ((encodeSessionRecord seq a ++ rest).drop 4) = seq := by
  rw [encodeSessionRecord, List.append_assoc, List.drop_left' (length_putUint32 _),
    List.append_assoc, uint64_putUint64]

omit h in
theorem drop_record : (encodeSessionRecord seq a ++ rest).drop
    (4 + (8 + (encodeSessionFragment a).length)) = rest :=
  List.drop_left' (by rw [length_encodeSessionRecord]; omega)

omit h in
theorem payload_record : ((encodeSessionRecord seq a ++ rest).drop 12).take
    (8 + (encodeSessionFragment a).length - 8) = encodeSessionFragment a := by
  rw [encodeSessionRecord, ← List.append_assoc (putUint32 _), List.append_assoc,
    List.drop_left' (by simp), Nat.add_sub_cancel_left, List.take_left]

end Record

/-! ## A list of records -/

/-- The records of some appends, numbered after `k`. -/
def encodeAll : Nat → List SessionAppend → Bytes
  | _, [] => []
  | k, a :: rest => encodeSessionRecord (UInt64.ofNat (k + 1)) a ++ encodeAll (k + 1) rest

/-- The fragments of some appends, numbered after `k`. -/
def fragmentsFrom : Nat → List SessionAppend → List SessionFragment
  | _, [] => []
  | k, a :: rest => a.fragment (UInt64.ofNat (k + 1)) :: fragmentsFrom (k + 1) rest

theorem encodeAll_append (k : Nat) (xs ys : List SessionAppend) :
    encodeAll k (xs ++ ys) = encodeAll k xs ++ encodeAll (k + xs.length) ys := by
  induction xs generalizing k with
  | nil => rfl
  | cons a xs ih =>
    rw [List.cons_append, encodeAll, encodeAll, ih, List.append_assoc, List.length_cons,
      Nat.add_assoc, Nat.add_comm 1]

theorem ofNat_succ (k : Nat) : UInt64.ofNat (k + 1) = UInt64.ofNat k + 1 := by
  rw [UInt64.ofNat_add]
  rfl

/-! ## Scanning a log that may be torn -/

theorem uint32_take {data : Bytes} {m : Nat} (h : 4 ≤ m) : uint32 (data.take m) = uint32 data := by
  rw [uint32, uint32, List.take_take, Nat.min_eq_left h]

theorem uint64_drop_take {data : Bytes} {m : Nat} (h : 12 ≤ m) :
    uint64 ((data.take m).drop 4) = uint64 (data.drop 4) := by
  rw [uint64, uint64, List.drop_take, List.take_take, Nat.min_eq_left (by omega)]

/-- The records that lie wholly in the first `m` bytes, the most of them there are. -/
structure Whole (k : Nat) (appends : List SessionAppend) (m j : Nat) : Prop where
  le : j ≤ appends.length
  inside : (encodeAll k (appends.take j)).length ≤ m
  most : ∀ i ≤ appends.length, (encodeAll k (appends.take i)).length ≤ m → i ≤ j

theorem Whole.zero {k m : Nat} {a : SessionAppend} {appends : List SessionAppend}
    (h : m < (encodeSessionRecord (UInt64.ofNat (k + 1)) a).length) :
    Whole k (a :: appends) m 0 := by
  refine ⟨Nat.zero_le _, by simp [encodeAll], ?_⟩
  intro i _ hi
  cases i with
  | zero => exact le_rfl
  | succ i =>
    rw [List.take_succ_cons, encodeAll, List.length_append] at hi
    omega

theorem Whole.succ {k m j : Nat} {a : SessionAppend} {appends : List SessionAppend}
    (hm : (encodeSessionRecord (UInt64.ofNat (k + 1)) a).length ≤ m)
    (h : Whole (k + 1) appends (m - (encodeSessionRecord (UInt64.ofNat (k + 1)) a).length) j) :
    Whole k (a :: appends) m (j + 1) := by
  have hinside := h.inside
  refine ⟨Nat.succ_le_succ h.le, ?_, ?_⟩
  · rw [List.take_succ_cons, encodeAll, List.length_append]
    omega
  · intro i hle hi
    cases i with
    | zero => omega
    | succ i =>
      rw [List.take_succ_cons, encodeAll, List.length_append] at hi
      exact Nat.succ_le_succ (h.most i (Nat.le_of_succ_le_succ hle) (by omega))

theorem scanRecords_take {least : Nat} (hleast : least ≤ 18) {appends : List SessionAppend}
    (hfits : ∀ a ∈ appends, Fits a) (k size m : Nat) :
    ∃ j, Whole k appends m j ∧
      scanRecords least (UInt64.ofNat k) size ((encodeAll k appends).take m) =
        .ok (UInt64.ofNat (k + j), size + (encodeAll k (appends.take j)).length) := by
  induction appends generalizing k size m with
  | nil =>
    refine ⟨0, ⟨le_rfl, by simp [encodeAll], fun i hi _ => hi⟩, ?_⟩
    rw [scanRecords]
    simp [encodeAll]
  | cons a appends ih =>
    have ha := hfits a List.mem_cons_self
    have hlen := length_encodeSessionRecord (UInt64.ofNat (k + 1)) a
    have hfrag := length_encodeSessionFragment a
    by_cases hm12 : m < 12
    · refine ⟨0, Whole.zero (by omega), ?_⟩
      rw [scanRecords, dif_pos (by rw [List.length_take]; omega)]
      simp [encodeAll]
    have hn : (uint32 ((encodeAll k (a :: appends)).take m)).toNat =
        8 + (encodeSessionFragment a).length := by
      rw [uint32_take (by omega), encodeAll, uint32_record ha]
    have hseq : uint64 (((encodeAll k (a :: appends)).take m).drop 4) = UInt64.ofNat (k + 1) := by
      rw [uint64_drop_take (by omega), encodeAll, uint64_record]
    have htotal : ((encodeAll k (a :: appends)).take m).length =
        min m (12 + (encodeSessionFragment a).length + (encodeAll (k + 1) appends).length) := by
      rw [List.length_take, encodeAll, List.length_append, hlen]
    rw [scanRecords, dif_neg (by omega)]
    rw [hn, hseq, ofNat_succ, if_neg (by simp; omega)]
    by_cases hshort : m < 12 + (encodeSessionFragment a).length
    · refine ⟨0, Whole.zero (by omega), ?_⟩
      rw [if_pos (by omega)]
      simp [encodeAll]
    · obtain ⟨j, hwhole, hscan⟩ := ih (fun b hb => hfits b (List.mem_cons_of_mem a hb)) (k + 1)
        (size + (4 + (8 + (encodeSessionFragment a).length)))
        (m - (encodeSessionRecord (UInt64.ofNat (k + 1)) a).length)
      refine ⟨j + 1, Whole.succ (by omega) hwhole, ?_⟩
      have hdrop : ((encodeAll k (a :: appends)).take m).drop
          (4 + (8 + (encodeSessionFragment a).length)) = (encodeAll (k + 1) appends).take
            (m - (encodeSessionRecord (UInt64.ofNat (k + 1)) a).length) := by
        rw [List.drop_take, encodeAll, drop_record]
        congr 1
        omega
      rw [if_neg (by omega), hdrop, ← ofNat_succ, hscan, List.take_succ_cons, encodeAll, List.length_append]
      simp only [Except.ok.injEq, Prod.mk.injEq]
      refine ⟨by congr 1; omega, by omega⟩

/-! ## Reading a sealed log -/

def TailRequest.wanted (rq : TailRequest) (fragments : List SessionFragment) :
    List SessionFragment :=
  fragments.filter fun f => rq.after < f.sequence

def TailRequest.Unlimited (rq : TailRequest) : Prop := rq.maxFragments ≤ 0 ∧ rq.maxBytes ≤ 0

/-- What a read of records numbered after `k` returns behind `out`: a start of the wanted
fragments, all of them without limits, and a position between two records. -/
structure TailPage (rq : TailRequest) (k offset : Nat) (appends : List SessionAppend)
    (returned : TailPosition) (page : List SessionFragment) (after : TailPosition) : Prop where
  start : page <+: rq.wanted (fragmentsFrom k appends)
  all : rq.Unlimited → page = rq.wanted (fragmentsFrom k appends)
  position : after = returned ∨ ∃ i ≤ appends.length,
    after = ⟨UInt64.ofNat (k + i), offset + (encodeAll k (appends.take i)).length⟩

theorem TailRequest.not_full {rq : TailRequest} (h : rq.Unlimited) (out : List SessionFragment)
    (bytes size : Nat) : rq.full out bytes size = false := by
  obtain ⟨hf, hb⟩ := h
  apply decide_eq_false
  rintro ⟨-, h | h⟩ <;> omega

section Tail

variable {rq : TailRequest} {k offset : Nat} {a : SessionAppend} {appends : List SessionAppend}
  {returned after : TailPosition} {page : List SessionFragment}

theorem TailPage.stop (h : ¬ rq.Unlimited) : TailPage rq k offset appends returned [] returned :=
  ⟨⟨_, rfl⟩, fun hu => absurd hu h, .inl rfl⟩

theorem position_cons (k offset i : Nat) (a : SessionAppend) (appends : List SessionAppend) :
    (⟨UInt64.ofNat (k + 1 + i), offset + (4 + (8 + (encodeSessionFragment a).length)) +
      (encodeAll (k + 1) (appends.take i)).length⟩ : TailPosition) =
    ⟨UInt64.ofNat (k + (i + 1)), offset + (encodeAll k ((a :: appends).take (i + 1))).length⟩ := by
  rw [List.take_succ_cons, encodeAll, List.length_append, length_encodeSessionRecord, Nat.add_right_comm k]
  congr 1
  omega

theorem TailPage.skip (hseq : UInt64.ofNat (k + 1) ≤ rq.after)
    (h : TailPage rq (k + 1) (offset + (4 + (8 + (encodeSessionFragment a).length))) appends
      returned page after) : TailPage rq k offset (a :: appends) returned page after := by
  have hwanted : rq.wanted (fragmentsFrom k (a :: appends)) =
      rq.wanted (fragmentsFrom (k + 1) appends) :=
    List.filter_cons_of_neg (by simpa [SessionAppend.fragment] using hseq)
  refine ⟨hwanted ▸ h.start, fun hu => hwanted ▸ h.all hu, h.position.imp_right ?_⟩
  rintro ⟨i, hi, rfl⟩
  exact ⟨i + 1, Nat.succ_le_succ hi, position_cons k offset i a appends⟩

theorem TailPage.take (hseq : rq.after < UInt64.ofNat (k + 1))
    (h : TailPage rq (k + 1) (offset + (4 + (8 + (encodeSessionFragment a).length))) appends
      ⟨UInt64.ofNat (k + 1), offset + (4 + (8 + (encodeSessionFragment a).length))⟩ page after) :
    TailPage rq k offset (a :: appends) returned
      (a.fragment (UInt64.ofNat (k + 1)) :: page) after := by
  have hwanted : rq.wanted (fragmentsFrom k (a :: appends)) =
      a.fragment (UInt64.ofNat (k + 1)) :: rq.wanted (fragmentsFrom (k + 1) appends) :=
    List.filter_cons_of_pos (by simpa [SessionAppend.fragment] using hseq)
  refine ⟨?_, ?_, ?_⟩
  · rw [hwanted]
    obtain ⟨more, hmore⟩ := h.start
    exact ⟨more, by rw [List.cons_append, hmore]⟩
  · intro hu
    rw [hwanted, h.all hu]
  · right
    rcases h.position with rfl | ⟨i, hi, rfl⟩
    · exact ⟨1, by simp, position_cons k offset 0 a appends⟩
    · exact ⟨i + 1, Nat.succ_le_succ hi, position_cons k offset i a appends⟩

end Tail

theorem tailFrom_spec (rq : TailRequest) {appends : List SessionAppend}
    (hfits : ∀ a ∈ appends, Fits a) (junk : Bytes) {k : Nat}
    (hbound : k + appends.length < 2 ^ 64) (offset : Nat) (returned : TailPosition)
    (out : List SessionFragment) (bytes : Nat) :
    ∃ page after, TailPage rq k offset appends returned page after ∧
      tailFrom rq (UInt64.ofNat (k + appends.length)) ⟨UInt64.ofNat k, offset⟩ returned out bytes
        (encodeAll k appends ++ junk) = .ok (out ++ page, after) := by
  induction appends generalizing k offset returned out bytes with
  | nil =>
    refine ⟨[], returned, ⟨⟨_, rfl⟩, fun _ => rfl, .inl rfl⟩, ?_⟩
    rw [tailFrom, if_pos (by simp), List.append_nil]
  | cons a appends ih =>
    have ha := hfits a List.mem_cons_self
    have hlen := length_encodeSessionRecord (UInt64.ofNat (k + 1)) a
    have hfrag := length_encodeSessionFragment a
    rw [List.length_cons] at hbound
    have hmore : ¬ UInt64.ofNat (k + (a :: appends).length) ≤ UInt64.ofNat k := by
      rw [UInt64.le_iff_toNat_le, UInt64.toNat_ofNat', UInt64.toNat_ofNat', List.length_cons]
      omega
    rw [tailFrom, if_neg hmore]
    by_cases hfull : 0 < rq.maxFragments ∧ rq.maxFragments ≤ out.length
    · refine ⟨[], returned, TailPage.stop fun hu => ?_, by rw [if_pos hfull, List.append_nil]⟩
      have := hu.1
      omega
    have hn : (uint32 (encodeAll k (a :: appends) ++ junk)).toNat =
        8 + (encodeSessionFragment a).length := by
      rw [encodeAll, List.append_assoc, uint32_record ha]
    have hseq : uint64 ((encodeAll k (a :: appends) ++ junk).drop 4) = UInt64.ofNat (k + 1) := by
      rw [encodeAll, List.append_assoc, uint64_record]
    have hdrop : (encodeAll k (a :: appends) ++ junk).drop
        (4 + (8 + (encodeSessionFragment a).length)) = encodeAll (k + 1) appends ++ junk := by
      rw [encodeAll, List.append_assoc, drop_record]
    have hpayload : ((encodeAll k (a :: appends) ++ junk).drop 12).take
        (8 + (encodeSessionFragment a).length - 8) = encodeSessionFragment a := by
      rw [encodeAll, List.append_assoc, payload_record]
    have htotal : (encodeAll k (a :: appends) ++ junk).length =
        12 + (encodeSessionFragment a).length + (encodeAll (k + 1) appends).length + junk.length := by
      rw [encodeAll, List.length_append, List.length_append, hlen]
    have hnext : k + (a :: appends).length = k + 1 + appends.length := by
      rw [List.length_cons]
      omega
    rw [if_neg hfull, dif_neg (by omega)]
    rw [hn, hseq, if_neg (by rw [ofNat_succ]; simp; omega), if_neg (by omega), hdrop, hpayload,
      decodeSessionFragment_encode ha, hnext]
    have ih := fun offset returned out bytes =>
      ih (fun b hb => hfits b (List.mem_cons_of_mem a hb)) (k := k + 1) (by omega) offset returned
        out bytes
    by_cases hafter : UInt64.ofNat (k + 1) ≤ rq.after
    · obtain ⟨page, after, hpage, hread⟩ :=
        ih (offset + (4 + (8 + (encodeSessionFragment a).length))) returned out bytes
      exact ⟨page, after, hpage.skip hafter, by rw [if_pos hafter, hread]⟩
    rw [if_neg hafter]
    dsimp only
    cases hf : rq.full out bytes (a.fragment (UInt64.ofNat (k + 1))).size with
    | true =>
      refine ⟨[], returned, TailPage.stop fun hu => ?_, by rw [if_pos rfl, List.append_nil]⟩
      rw [TailRequest.not_full hu] at hf
      cases hf
    | false =>
      rw [if_neg Bool.false_ne_true]
      obtain ⟨page, after, hpage, hread⟩ :=
        ih (offset + (4 + (8 + (encodeSessionFragment a).length)))
          ⟨UInt64.ofNat (k + 1), offset + (4 + (8 + (encodeSessionFragment a).length))⟩
          (out ++ [a.fragment (UInt64.ofNat (k + 1))])
          (bytes + (a.fragment (UInt64.ofNat (k + 1))).size)
      refine ⟨_, after, hpage.take (UInt64.not_le.1 hafter), ?_⟩
      rw [hread, List.append_assoc, List.singleton_append]

end CellHive.Peer
