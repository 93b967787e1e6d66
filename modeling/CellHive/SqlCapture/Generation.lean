import CellHive.SqlCapture.Poll

/-!
# Generation changes of the write-ahead log

A capture must emit a full snapshot between a generation change of the WAL and the first
delta after it. `Cursor.Poll` reports the change together with the cursor's move to the
new generation, except that a checksum error hides the report. `snapshot_before_delta`
shows that this is the only way to lose it: the first transaction of the new generation
is torn when the cursor meets it.
-/

namespace CellHive.Wal

open Go

/-! ## Torn transactions -/

section Torn

variable (h : Header) (tail : Bytes) (start : Sums)

/-- The running checksum behind the first `k` frames. -/
def sumsAfter : Nat → Sums
  | 0 => start
  | k + 1 => frameChecksum (frameHdrAt h tail k) (pageAt h tail k) (sumsAfter k) (checksumBig h)

/-- Frame `k` is of the generation, but its checksum is wrong. -/
def FrameTorn (k : Nat) : Prop :=
  saltsMatch h (frameHdrAt h tail k) = true ∧
    sumsAfter h tail start (k + 1) ≠ storedSums (frameHdrAt h tail k)

/-- Frame `k` is a valid frame of the generation that commits nothing. -/
def FrameOpen (k : Nat) : Prop :=
  saltsMatch h (frameHdrAt h tail k) = true ∧
    sumsAfter h tail start (k + 1) = storedSums (frameHdrAt h tail k) ∧
    uint32 ((frameHdrAt h tail k).drop 4) = 0

/-- Among the first `count` frames, a torn frame comes before any commit. -/
def TornBeforeCommit (count : Nat) : Prop :=
  ∃ k < count, FrameTorn h tail start k ∧ ∀ j < k, FrameOpen h tail start j

end Torn

/-- The complete frames a file of this size can hold. -/
def frameCount (h : Header) (size : Nat) : Nat := (size - walHeaderSize) / h.frameSize

def framesOf (h : Header) (size : Nat) (content : Bytes) : Bytes :=
  slice content walHeaderSize (walHeaderSize + frameCount h size * h.frameSize)

/-- The cursor does not continue from where it was: its salts were replaced or dropped, or
it went back. -/
def Replaced (c c' : Cursor) : Prop :=
  ¬ (c'.haveSalt = true ∧ c'.salt1 = c.salt1 ∧ c'.salt2 = c.salt2 ∧ c.frameIdx ≤ c'.frameIdx)

/-- The file is shorter than the cursor's position in it. -/
def Shrunk (c : Cursor) : Observed → Prop
  | .missing => True
  | .failed _ => False
  | .file size atHeader _ =>
    size < walHeaderSize ∨ ∃ h, parseHeader (atHeader.take walHeaderSize) = .ok h ∧
      size < walHeaderSize + c.frameIdx * h.frameSize

def GenerationChange (c : Cursor) (o : Observed) : Prop :=
  c.haveSalt = true ∧ (Replaced c (c.poll o).cursor ∨ Shrunk c o)

/-- The file is torn where a generation starts: below a torn header it is shorter than the
cursor, or below a header that starts a new generation for the cursor the first
transaction is torn. -/
def TornStart (c : Cursor) : Observed → Prop
  | .file size atHeader atTail =>
    walHeaderSize ≤ size ∧ ∃ h, parseHeader (atHeader.take walHeaderSize) = .ok h ∧
      if headerChecksum (atHeader.take walHeaderSize) h = (h.checksum1, h.checksum2) then
        c.rotated h size = true ∧
          TornBeforeCommit h (framesOf h size atTail) (h.checksum1, h.checksum2)
            (frameCount h size)
      else size < walHeaderSize + c.frameIdx * h.frameSize
  | _ => False

section Scan

variable {h : Header} {tail : Bytes} {start : Sums}

theorem committed_scanFrames {count i : Nat} {st : Scan} (hst : st.committed ≠ 0) :
    (scanFrames h tail count i st).committed ≠ 0 := by
  induction count generalizing i st with
  | zero => exact hst
  | succ count ih =>
    rw [scanFrames]
    dsimp only
    split
    · exact hst
    split
    · exact hst
    apply ih
    split
    · exact hst
    · simp

theorem torn_of_scanFrames {count i : Nat} {st : Scan} (hsums : st.sums = sumsAfter h tail start i)
    (hgood : st.bad = false) (hbad : (scanFrames h tail count i st).bad = true)
    (hnone : (scanFrames h tail count i st).committed = 0) :
    ∃ k, i ≤ k ∧ k < i + count ∧ FrameTorn h tail start k ∧
      ∀ j, i ≤ j → j < k → FrameOpen h tail start j := by
  induction count generalizing i st with
  | zero =>
    rw [scanFrames, hgood] at hbad
    cases hbad
  | succ count ih =>
    rw [scanFrames] at hbad hnone
    dsimp only at hbad hnone
    split at hbad
    · rw [hgood] at hbad
      cases hbad
    next hsalt =>
    rw [if_neg hsalt] at hnone
    rw [Bool.not_eq_false] at hsalt
    rw [hsums] at hbad hnone
    split at hbad
    · next hsum =>
      exact ⟨i, le_rfl, by omega, ⟨hsalt, hsum⟩, fun j h1 h2 => by omega⟩
    next hsum =>
    rw [if_neg hsum] at hnone
    rw [not_not] at hsum
    by_cases hdb : uint32 ((frameHdrAt h tail i).drop 4) = 0
    · obtain ⟨k, h1, h2, htorn, hopen⟩ := ih (by rfl) (by exact hgood) hbad hnone
      refine ⟨k, by omega, by omega, htorn, fun j hj1 hj2 => ?_⟩
      by_cases hij : j = i
      · subst hij
        exact ⟨hsalt, hsum, hdb⟩
      · exact hopen j (by omega) hj2
    · -- a commit frame was read
      refine absurd hnone (committed_scanFrames ?_)
      rw [if_neg hdb]
      simp

end Scan

section Poll

variable {c : Cursor} {h : Header} {size : Nat} {atTail : Bytes}

theorem pollFrames_cursor (c : Cursor) (h : Header) (size : Nat) (atTail : Bytes)
    (checkpoint : Bool) :
    let p := c.pollFrames h checkpoint size atTail
    (p.err = none ∧ p.result.checkpoint = true) ∨
      (p.cursor.haveSalt = c.haveSalt ∧ p.cursor.salt1 = c.salt1 ∧ p.cursor.salt2 = c.salt2 ∧
        c.frameIdx ≤ p.cursor.frameIdx ∧ p.result.checkpoint = checkpoint) := by
  unfold Cursor.pollFrames
  dsimp only
  split
  · exact .inr ⟨rfl, rfl, rfl, le_rfl, rfl⟩
  split
  · exact .inl ⟨rfl, rfl⟩
  refine .inr ?_
  split
  · exact ⟨rfl, rfl, rfl, le_rfl, rfl⟩
  · exact ⟨rfl, rfl, rfl, Nat.le_add_right _ _, rfl⟩

theorem torn_of_pollFrames {checkpoint : Bool} {e : Err} (hidx : c.frameIdx = 0)
    (herr : (c.pollFrames h checkpoint size atTail).err = some e) :
    TornBeforeCommit h (framesOf h size atTail) c.cksum (frameCount h size) := by
  unfold Cursor.pollFrames at herr
  dsimp only at herr
  split at herr
  · cases herr
  split at herr
  · cases herr
  dsimp only at herr
  split at herr
  · next hbad =>
    rw [hidx, Nat.zero_mul, Nat.sub_zero] at hbad
    obtain ⟨k, -, hk, htorn, hopen⟩ := torn_of_scanFrames (i := 0) rfl rfl hbad.1 hbad.2
    rw [Nat.zero_add] at hk
    exact ⟨k, hk, htorn, fun j hj => hopen j (Nat.zero_le j) hj⟩
  · cases herr

/-- Errors for which a capture does not end. -/
def Swallowed (e : Err) : Prop := e.is .noWAL = true ∨ e.is .walChecksum = true

theorem poll_eq_pollFrames {atHeader : Bytes} (hsize : ¬ size < walHeaderSize)
    (hlen : ¬ atHeader.length < walHeaderSize)
    (hparse : parseHeader (atHeader.take walHeaderSize) = .ok h)
    (hsums : headerChecksum (atHeader.take walHeaderSize) h = (h.checksum1, h.checksum2)) :
    c.poll (.file size atHeader atTail) =
      (c.anchor h (h.checksum1, h.checksum2) size).pollFrames h (c.rotated h size) size atTail := by
  rw [Cursor.poll, if_neg hsize, if_neg hlen]
  dsimp only
  rw [hparse]
  dsimp only
  rw [hsums, if_neg (not_not.2 rfl)]

theorem checkpoint_of_anchored (hsalt : c.haveSalt = true)
    (hchange : c.rotated h size = true ∨
      Replaced c ((c.anchor h (h.checksum1, h.checksum2) size).pollFrames h (c.rotated h size)
        size atTail).cursor)
    (htorn : c.rotated h size = true → ¬ TornBeforeCommit h (framesOf h size atTail)
      (h.checksum1, h.checksum2) (frameCount h size)) :
    let p := (c.anchor h (h.checksum1, h.checksum2) size).pollFrames h (c.rotated h size) size
      atTail
    p.err = none ∧ p.result.checkpoint = true := by
  intro p
  rcases pollFrames_cursor (c.anchor h (h.checksum1, h.checksum2) size) h size atTail
    (c.rotated h size) with hdone | hmoved
  · exact hdone
  obtain ⟨hsalt', hs1, hs2, hidx, hcheck⟩ := hmoved
  by_cases hrot : c.rotated h size = true
  · refine ⟨?_, hcheck.trans hrot⟩
    have hanchor : c.anchor h (h.checksum1, h.checksum2) size =
        ⟨true, h.salt1, h.salt2, (h.checksum1, h.checksum2), true, 0⟩ := by
      rw [Cursor.anchor, if_pos hrot]
    cases herr : p.err with
    | none => rfl
    | some e =>
      have := torn_of_pollFrames (by rw [hanchor]) herr
      rw [hanchor] at this
      exact (htorn hrot this).elim
  · -- the same generation, and the cursor has moved forward in it
    refine (hchange.resolve_left hrot ?_).elim
    have hsame : c.salt1 = h.salt1 ∧ c.salt2 = h.salt2 := by
      simp only [Cursor.rotated, hsalt, true_and, decide_eq_true_eq, not_or, ne_eq, not_not] at hrot
      exact hrot.1
    rw [Cursor.anchor, if_neg hrot] at hsalt' hs1 hs2 hidx ⊢
    exact ⟨hsalt', hs1.trans hsame.1.symm, hs2.trans hsame.2.symm, hidx⟩

theorem not_tornStart_empty (o : Observed) : ¬ TornStart .empty o := by
  cases o with
  | missing | failed => exact id
  | file size atHeader atTail =>
    intro htorn
    obtain ⟨hsize, h, -, hstart⟩ := htorn
    have hpos : ¬ size < walHeaderSize + Cursor.empty.frameIdx * h.frameSize := by
      rw [Cursor.empty, Nat.zero_mul]
      exact not_lt.2 hsize
    split at hstart
    · have hrot := hstart.1
      simp only [Cursor.rotated, decide_eq_true_eq] at hrot
      rcases hrot with hsalt | hlt
      · cases hsalt.1
      · exact hpos hlt
    · exact hpos hstart

theorem not_replaced_self (hsalt : c.haveSalt = true) : ¬ Replaced c c :=
  fun hrep => hrep ⟨hsalt, rfl, rfl, le_rfl⟩

theorem checkpoint_of_generationChange {o : Observed} (hchange : GenerationChange c o)
    (htorn : ¬ TornStart c o) :
    ((c.poll o).err = none ∧ (c.poll o).result.checkpoint = true) ∨
      ∃ e, (c.poll o).err = some e ∧ ¬ Swallowed e := by
  obtain ⟨hsalt, hchange⟩ := hchange
  have hnoFile : c.noFile.err = none ∧ c.noFile.result.checkpoint = true := by
    rw [Cursor.noFile, if_pos hsalt]
    exact ⟨rfl, rfl⟩
  cases o with
  | missing => exact .inl hnoFile
  | failed text => exact (not_replaced_self hsalt (hchange.resolve_right id)).elim
  | file size atHeader atTail =>
    by_cases hsize : size < walHeaderSize
    · refine .inl ?_
      rw [Cursor.poll, if_pos hsize]
      exact hnoFile
    by_cases hlen : atHeader.length < walHeaderSize
    · refine .inr ⟨.errorf "EOF", ?_, by simp [Swallowed, Go.GoError.is]⟩
      rw [Cursor.poll, if_neg hsize, if_pos hlen]
    cases hparse : parseHeader (atHeader.take walHeaderSize) with
    | error e =>
      have hcur : (c.poll (.file size atHeader atTail)).cursor = c := by
        rw [Cursor.poll, if_neg hsize, if_neg hlen]
        dsimp only
        rw [hparse]
      rcases hchange with hrep | hshrunk
      · rw [hcur] at hrep
        exact (not_replaced_self hsalt hrep).elim
      · obtain ⟨h, hh, -⟩ := hshrunk.resolve_left hsize
        cases hparse.symm.trans hh
    | ok h =>
      by_cases hsums : headerChecksum (atHeader.take walHeaderSize) h = (h.checksum1, h.checksum2)
      · rw [poll_eq_pollFrames hsize hlen hparse hsums] at hchange ⊢
        refine .inl (checkpoint_of_anchored hsalt ?_ fun hrot hbad => htorn ?_)
        · rcases hchange with hrep | hshrunk
          · exact .inr hrep
          · obtain ⟨h', hh', hlt⟩ := hshrunk.resolve_left hsize
            cases hparse.symm.trans hh'
            exact .inl (by simp [Cursor.rotated, hlt])
        · exact ⟨not_lt.1 hsize, h, hparse, by rw [if_pos hsums]; exact ⟨hrot, hbad⟩⟩
      · have hcur : (c.poll (.file size atHeader atTail)).cursor = c := by
          rw [Cursor.poll, if_neg hsize, if_neg hlen]
          dsimp only
          rw [hparse]
          dsimp only
          rw [if_pos hsums]
        rcases hchange with hrep | hshrunk
        · rw [hcur] at hrep
          exact (not_replaced_self hsalt hrep).elim
        · obtain ⟨h', hh', hlt⟩ := hshrunk.resolve_left hsize
          cases hparse.symm.trans hh'
          exact (htorn ⟨not_lt.1 hsize, h, hparse, by rw [if_neg hsums]; exact hlt⟩).elim

end Poll

end CellHive.Wal

namespace CellHive.SqlCapture

open Go Wal

/-! ## Runs of a capture -/

/-- One poll of a run: the cursor it started from, the file it found and what it emitted. -/
structure PollRecord where
  before : Wal.Cursor
  observed : Wal.Observed
  emitted : List Emission

/-- The polls of `Run`. A poll that returns an error is the last one. -/
def run : Capture → List Surroundings → List PollRecord
  | _, [] => []
  | c, env :: rest =>
    let out := poll c env
    ⟨c.cursor, env.observed, out.emitted⟩ ::
      match out.err with
      | some _ => []
      | none => run out.capture rest

/-- Every delta of a sequence of emissions stands behind a snapshot. -/
def SnapshotFirst (l : List Emission) : Prop :=
  ∀ pre segment post, l = pre ++ .delta segment :: post → ∃ label, .snapshot label ∈ pre

theorem SnapshotFirst.nil : SnapshotFirst [] := by
  intro pre segment post heq
  cases pre <;> cases heq

theorem SnapshotFirst.snapshot_cons (label : UInt64) (l : List Emission) :
    SnapshotFirst (.snapshot label :: l) := by
  intro pre segment post heq
  cases pre with
  | nil => cases heq
  | cons e pre =>
    cases heq
    exact ⟨label, List.mem_cons_self⟩

theorem poll_of_generationChange {c : Capture} {env : Surroundings}
    (hchange : GenerationChange c.cursor env.observed) (htorn : ¬ TornStart c.cursor env.observed) :
    (∃ label, (poll c env).emitted = [.snapshot label]) ∨
      ((poll c env).emitted = [] ∧ (poll c env).err ≠ none) := by
  cases hdrained : env.drained with
  | some e =>
    refine .inr ?_
    rw [poll, hdrained]
    exact ⟨rfl, nofun⟩
  | none =>
    rw [poll, hdrained]
    dsimp only
    rcases checkpoint_of_generationChange hchange htorn with ⟨herr, hcheck⟩ | ⟨e, herr, hkeep⟩
    · rw [herr]
      rw [if_pos hcheck]
      cases hfails : env.rebaselineFails with
      | none => exact .inl ⟨_, rfl⟩
      | some e => exact .inr ⟨rfl, nofun⟩
    · rw [herr]
      dsimp only
      rw [if_neg fun hno => hkeep (.inl hno), if_neg fun hsum => hkeep (.inr hsum)]
      exact .inr ⟨rfl, nofun⟩

theorem run_split {c : Capture} {envs : List Surroundings} {before after : List PollRecord}
    {r : PollRecord} (hrun : run c envs = before ++ r :: after) :
    ∃ c' env, r = ⟨c'.cursor, env.observed, (poll c' env).emitted⟩ ∧
      ((poll c' env).err ≠ none → after = []) := by
  induction envs generalizing c before with
  | nil =>
    cases before <;> cases hrun
  | cons env rest ih =>
    cases before with
    | nil =>
      obtain ⟨hr, hafter⟩ := List.cons.inj hrun
      refine ⟨c, env, hr.symm, fun herr => ?_⟩
      obtain ⟨e, herr⟩ := Option.ne_none_iff_exists'.1 herr
      rw [← hafter, herr]
    | cons r' before =>
      obtain ⟨-, htail⟩ := List.cons.inj hrun
      cases herr : (poll c env).err with
      | none =>
        rw [herr] at htail
        exact ih htail
      | some e =>
        rw [herr] at htail
        cases before <;> cases htail

/-! ### A log of one page -/

/-- A file of the generation with this salt: the header alone, or with one frame that
commits page 1. -/
def sampleWal (salt : UInt32) (page : Option Bytes) : Bytes :=
  let start := putUint32 magicLE ++ putUint32 3007000 ++ putUint32 8 ++ putUint32 0 ++
    putUint32 salt ++ putUint32 0
  let sums := checksumBytes false (0, 0) start
  let header := start ++ putUint32 sums.1 ++ putUint32 sums.2
  match page with
  | none => header
  | some page =>
    let commit := putUint32 1 ++ putUint32 1
    let sums := frameChecksum commit page sums false
    header ++ commit ++ putUint32 salt ++ putUint32 0 ++ putUint32 sums.1 ++ putUint32 sums.2 ++
      page

/-- A poll that finds this file; nothing else fails. -/
def quietPoll (content : Option Bytes) : Surroundings :=
  { drained := none
    observed := match content with
      | none => .missing
      | some b => .file b.length b b
    ticket := 0
    rebaselineFails := none
    commitFails := fun _ => none
    autoCheckpoint := none }

/-- A capture that has read the header of generation 1. -/
def sampleCapture : Capture :=
  { cursor := ⟨true, 1, 0, checksumBytes false (0, 0) ((sampleWal 1 none).take 24), true, 0⟩
    epoch := 1
    nextTxID := 0
    baselineCuts := []
    compress := false }

def samplePage : Bytes := [1, 2, 3, 4, 5, 6, 7, 8]

/-- The file of generation 2 while the page is written. -/
def tornWal : Bytes := (sampleWal 2 (some samplePage)).take 60 ++ [0, 0, 0, 0]

theorem not_snapshotFirst_of_delta {l : List Emission}
    (hdelta : (match l.head? with | some (.delta _) => true | _ => false) = true) :
    ¬ SnapshotFirst l := by
  intro hfirst
  rcases l with _ | ⟨e, l⟩
  · cases hdelta
  cases e with
  | snapshot label => cases hdelta
  | delta segment =>
    obtain ⟨label, hmem⟩ := hfirst [] segment l rfl
    cases hmem

/-- The second poll finds a new generation whose only frame is torn and drops the report;
the third finds the frame complete and emits a delta without a snapshot. -/
theorem poll_drops_generation_change :
    new 1 0 false (quietPoll (some (sampleWal 1 none))).observed = .ok sampleCapture ∧
      ∃ r₁ r₂, run sampleCapture
          [quietPoll (some tornWal), quietPoll (some (sampleWal 2 (some samplePage)))] = [r₁, r₂] ∧
        GenerationChange r₁.before r₁.observed ∧ ¬ SnapshotFirst (r₁.emitted ++ r₂.emitted) := by
  refine ⟨by rfl, _, _, by rfl, ⟨rfl, .inl ?_⟩, not_snapshotFirst_of_delta ?_⟩
  · show ¬ (_ ∧ _)
    decide +kernel
  · decide +kernel

/-- In a run that finds no file torn where a generation starts, no delta follows a
generation change before a full snapshot. -/
theorem snapshot_before_delta (c : Capture) (envs : List Surroundings)
    (hwhole : ∀ r ∈ run c envs, ¬ TornStart r.before r.observed)
    (before : List PollRecord) (r : PollRecord) (after : List PollRecord)
    (hrun : run c envs = before ++ r :: after) (hchange : GenerationChange r.before r.observed) :
    SnapshotFirst (r.emitted ++ after.flatMap (·.emitted)) := by
  have htorn : ¬ TornStart r.before r.observed := by
    apply hwhole r
    rw [hrun]
    exact List.mem_append_right _ List.mem_cons_self
  obtain ⟨c', env, rfl, hend⟩ := run_split hrun
  rcases poll_of_generationChange hchange htorn with ⟨label, hemit⟩ | ⟨hemit, herr⟩
  · rw [hemit]
    exact .snapshot_cons label _
  · rw [hemit, hend herr]
    exact .nil

/-- The WAL is removed and written anew: a snapshot, then the delta of the new frame. -/
theorem snapshot_before_delta_recreated :
    ∃ r₁ r₂, run sampleCapture
        [quietPoll none, quietPoll (some (sampleWal 2 (some samplePage)))] = [r₁, r₂] ∧
      r₂.emitted ≠ [] ∧ SnapshotFirst (r₁.emitted ++ [r₂].flatMap (·.emitted)) := by
  refine ⟨_, _, by rfl, by decide +kernel, ?_⟩
  refine snapshot_before_delta sampleCapture
    [quietPoll none, quietPoll (some (sampleWal 2 (some samplePage)))] ?_ [] _ _ rfl
    ⟨rfl, .inr trivial⟩
  intro r hr
  rcases List.mem_pair.1 hr with rfl | rfl
  · exact id
  · exact not_tornStart_empty _

end CellHive.SqlCapture
