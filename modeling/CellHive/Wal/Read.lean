import CellHive.Wal.Log

/-!
# Reading a log at once

`Read` scans a whole log from its header on. A file that only grows is polled as it grows: the
polls return one after the other the transactions `Read` finds in the last contents, wherever the
file was cut in between (`polls_eq_read`). The scan can be taken up behind any commit it has passed
(`scanFrames_rewind`).
-/

namespace CellHive.Wal

open Go

structure Snapshot where
  header : Header
  frames : List Frame := []
  commitCount : Nat := 0
  totalFrames : Nat := 0

/-- The checks of the header. -/
def openLog (data : Bytes) : Res Header :=
  if data.length < walHeaderSize then .error (.sentinel .noWAL)
  else
    match parseHeader (data.take walHeaderSize) with
    | .error e => .error e
    | .ok h =>
      if headerChecksum (data.take walHeaderSize) h ≠ (h.checksum1, h.checksum2) then
        .error (.wrap "header" (.sentinel .walChecksum))
      else .ok h

/-- `Read`, of a file with the contents `data`; a snapshot can come with the error of a bad frame. -/
def read (data : Bytes) : Option Snapshot × Option Err :=
  match openLog data with
  | .error e => (none, some e)
  | .ok h =>
    if data.length < walHeaderSize + h.frameSize then (some { header := h }, none)
    else
      let total := (data.length - walHeaderSize) / h.frameSize
      let scan := scanFrames h (data.drop walHeaderSize) total 0 (.start (h.checksum1, h.checksum2))
      (some
        { header := h
          frames := scan.frames.take scan.committed
          commitCount := scan.frames.countP (·.dbSize ≠ 0)
          totalFrames := total },
        if scan.bad then some (.wrap s!"frame {scan.frames.length}" (.sentinel .walChecksum))
        else none)

/-- The committed transactions `Read` returns. -/
def readTransactions (data : Bytes) : List Transaction :=
  cutTransactions [] ((read data).1.elim [] Snapshot.frames)

/-- A poll of a file with these contents, behind the transactions of the polls before it. -/
def pollNext (st : Cursor × List Transaction) (data : Bytes) : Cursor × List Transaction :=
  let polled := st.1.poll (.file data.length data data)
  (polled.cursor, st.2 ++ if polled.err = none then polled.result.transactions else [])

/-! ## Taking up a scan -/

section Scan

variable {h : Header} {t tail : Bytes} {count i k : Nat} {st : Scan} {frames : List Frame}

/-- The frames end with a commit. -/
def Closed (frames : List Frame) : Prop :=
  ∀ more, cutTransactions [] (frames ++ more) = cutTransactions [] frames ++ cutTransactions [] more

theorem cutTransactions_commit {f : Frame} (hf : f.dbSize ≠ 0) (opened more : List Frame) :
    cutTransactions opened (frames ++ f :: more) =
      cutTransactions opened (frames ++ [f]) ++ cutTransactions [] more := by
  induction frames generalizing opened with
  | nil => simp [cutTransactions, hf]
  | cons x frames ih =>
    simp only [List.cons_append, cutTransactions]
    split
    · exact ih _
    · rw [ih, List.cons_append]

/-- A scan goes on behind the last commit it has passed as if it started there. -/
theorem scanFrames_rewind {T : Scan} (hT : scanFrames h t count i st = T) (hbad : st.bad = false) :
    st.frames <+: T.frames ∧
      (T.committed = st.committed ∧ T.committedSums = st.committedSums ∨
        ∃ j < count, T.committed = st.frames.length + (j + 1) ∧
          (T.frames.take T.committed).length = T.committed ∧ Closed (T.frames.take T.committed) ∧
          ∀ more, scanFrames h t (j + 1 + more) i st = scanFrames h t more (i + (j + 1))
            (.settled (T.frames.take T.committed) T.committedSums)) := by
  induction count generalizing i st with
  | zero =>
    cases hT
    exact ⟨List.prefix_rfl, .inl ⟨rfl, rfl⟩⟩
  | succ count ih =>
    have hstep (n : Nat) := scanFrames.eq_2 h t i st n
    rw [hstep] at hT
    dsimp only at hstep hT
    split at hT
    · cases hT
      exact ⟨List.prefix_rfl, .inl ⟨rfl, rfl⟩⟩
    next hsalts =>
    split at hT
    · cases hT
      exact ⟨List.prefix_rfl, .inl ⟨rfl, rfl⟩⟩
    next hsums =>
    simp only [if_neg hsalts, if_neg hsums] at hstep
    obtain ⟨hpre, hcase⟩ := ih hT hbad
    dsimp only at hpre hcase
    refine ⟨(List.prefix_append _ _).trans hpre, ?_⟩
    rcases hcase with ⟨hc, hs⟩ | ⟨j, hj, hc, hlen, hclosed, hmore⟩
    · by_cases hf : uint32 ((frameHdrAt h t i).drop 4) = 0
      · exact .inl ⟨hc.trans (if_pos hf), hs.trans (if_pos hf)⟩
      rw [if_neg hf] at hc hs
      have htake := (List.prefix_iff_eq_take.mp hpre).symm
      rw [← hc] at htake
      refine .inr ⟨0, Nat.succ_pos _, by simpa using hc, by rw [htake, hc], ?_, fun more => ?_⟩
      · rw [htake]
        intro more
        rw [List.append_assoc]
        exact cutTransactions_commit hf [] more
      · rw [Nat.add_comm, hstep, htake, hs]
        simp only [if_neg hf, hbad]
        rfl
    · refine .inr ⟨j + 1, Nat.succ_lt_succ hj, by simpa [Nat.add_assoc, Nat.add_comm 1] using hc,
        hlen, hclosed, fun more => ?_⟩
      rw [show j + 1 + 1 + more = j + 1 + more + 1 by omega, hstep, hmore, Nat.add_assoc,
        Nat.add_comm 1]

/-- The state behind the frames `frames`. -/
def Scan.behind (frames : List Frame) (st : Scan) : Scan :=
  { st with frames := frames ++ st.frames, committed := frames.length + st.committed }

theorem scanFrames_part (hpart : ∀ a b, b ≤ count * h.frameSize →
      slice tail (i * h.frameSize + a) (i * h.frameSize + b) =
        slice t (k * h.frameSize + a) (k * h.frameSize + b)) :
    scanFrames h t count k (st.behind frames) = (scanFrames h tail count i st).behind frames := by
  induction count generalizing i k st with
  | zero => rfl
  | succ count ih =>
    have hsize : h.frameSize = frameHdrSize + h.pageSize.toNat := rfl
    rw [Nat.succ_mul] at hpart
    have hhdr : frameHdrAt h tail i = frameHdrAt h t k := hpart 0 frameHdrSize (by omega)
    have hpage : pageAt h tail i = pageAt h t k := hpart frameHdrSize h.frameSize (by omega)
    have hsums : (st.behind frames).sums = st.sums := rfl
    rw [scanFrames, scanFrames]
    dsimp only
    rw [hhdr, hpage, hsums]
    split
    · rfl
    split
    · rfl
    rw [← ih fun a b hb => ?_]
    · congr 1
      simp only [Scan.behind, List.append_assoc, List.length_append]
      split <;> simp
    · have := hpart (h.frameSize + a) (h.frameSize + b) (by omega)
      simpa only [Nat.succ_mul, Nat.add_assoc] using this

theorem scanFrames_resume {sums : Sums} {T : Scan}
    (hT : scanFrames h t count 0 (.start sums) = T) :
    T.committed ≤ count ∧ (T.frames.take T.committed).length = T.committed ∧
      Closed (T.frames.take T.committed) ∧ (T.committed = 0 → T.committedSums = sums) ∧
      ∀ more, scanFrames h t (T.committed + more) 0 (.start sums) =
        scanFrames h t more T.committed
          ((Scan.start T.committedSums).behind (T.frames.take T.committed)) := by
  rcases (scanFrames_rewind hT rfl).2 with ⟨hc, hs⟩ | ⟨j, hj, hc, hlen, hclosed, hmore⟩
  · have hzero : T.committed = 0 := hc
    have hsums : T.committedSums = sums := hs
    simp [hzero, hsums, Closed, cutTransactions, Scan.behind, Scan.start]
  · have hj' : T.committed = j + 1 := hc.trans (Nat.zero_add _)
    refine ⟨by omega, hlen, hclosed, by omega, fun more => ?_⟩
    rw [← hj'] at hmore
    rw [hmore]
    simp [Scan.behind, Scan.start, Scan.settled, hlen]

end Scan

/-! ## Polling a file that grows -/

section Grows

variable {h : Header} {b data : Bytes} {c : Cursor}

theorem openLog_grow (ho : openLog b = .ok h) (hb : b <+: data) : openLog data = .ok h := by
  obtain ⟨rest, rfl⟩ := hb
  unfold openLog at ho ⊢
  obtain ⟨hlen, ho⟩ := guard_eq_ok ho
  rw [if_neg (by rw [List.length_append]; omega), List.take_append_of_le_length (not_lt.1 hlen)]
  exact ho

theorem poll_of_open (ho : openLog b = .ok h) : c.poll (.file b.length b b) =
    (c.anchor h (h.checksum1, h.checksum2) b.length).pollFrames h (c.rotated h b.length) b.length
      b := by
  obtain ⟨hlen, ho⟩ := guard_eq_ok ho
  split at ho
  · cases ho
  next hp =>
  obtain ⟨hsums, ho⟩ := guard_eq_ok ho
  cases ho
  simp [Cursor.poll, hlen, hp, not_not.1 hsums]

theorem pollNext_of_error {e : Err} (ho : openLog b = .error e) :
    pollNext (.empty, []) b = (.empty, []) := by
  unfold openLog at ho
  split at ho
  · next hlen => simp [pollNext, Cursor.poll, Cursor.noFile, Cursor.empty, hlen]
  next hlen =>
  split at ho
  · next hp => simp [pollNext, Cursor.poll, hlen, hp]
  next hp =>
  split at ho
  · next hsums => simp [pollNext, Cursor.poll, hlen, hp, hsums]
  · cases ho

theorem slice_part {n off len a e : Nat} (hb : b <+: data) (hlen : n + off + len ≤ b.length)
    (he : e ≤ len) :
    slice (slice b (n + off) (n + off + len)) a e = slice (data.drop n) (off + a) (off + e) := by
  obtain ⟨rest, rfl⟩ := hb
  rw [slice, slice, slice, Nat.add_sub_add_left, List.drop_take, List.drop_drop, List.drop_drop,
    List.take_take, min_eq_left (by omega), ← Nat.add_assoc, List.drop_append, List.take_append,
    List.length_drop, show e - a - (b.length - (n + off + a)) = 0 by omega, List.take_zero,
    List.append_nil]

def completeFrames (b : Bytes) (h : Header) : Nat := (b.length - walHeaderSize) / h.frameSize

abbrev Cursor.at (h : Header) (sums : Sums) (k : Nat) : Cursor :=
  ⟨true, h.salt1, h.salt2, sums, true, k⟩

theorem pollNext_of_open {sums : Sums} {k : Nat} {out : List Transaction} (ho : openLog b = .ok h)
    (hb : b <+: data) (hk : k ≤ completeFrames b h)
    (hc : c = .at h sums k ∨ c = .empty ∧ sums = (h.checksum1, h.checksum2) ∧ k = 0) :
    ∃ scan : Scan, pollNext (c, out) b = (.at h scan.committedSums (k + scan.committed),
        out ++ cutTransactions [] (scan.frames.take scan.committed)) ∧
      ∀ done, scanFrames h (data.drop walHeaderSize) (completeFrames b h - k) k
        ((Scan.start sums).behind done) = scan.behind done := by
  have hlong : walHeaderSize + k * h.frameSize + (completeFrames b h - k) * h.frameSize ≤
      b.length := by
    have hdiv := Nat.div_mul_le_self (b.length - walHeaderSize) h.frameSize
    have hlen := not_lt.1 (guard_eq_ok ho).1
    rw [Nat.add_assoc, ← Nat.add_mul, Nat.add_sub_cancel' hk, completeFrames]
    omega
  have hat : ¬ b.length < walHeaderSize + k * h.frameSize := by omega
  have hanchor : c.anchor h (h.checksum1, h.checksum2) b.length = .at h sums k := by
    rcases hc with rfl | ⟨rfl, rfl, rfl⟩ <;>
      simp_all [Cursor.anchor, Cursor.rotated, Cursor.empty]
  refine ⟨_, ?_, fun done => @scanFrames_part h _ _ _ 0 _ _ done fun a e he => by
    rw [Nat.zero_mul, Nat.zero_add, Nat.zero_add]
    exact slice_part hb hlong he⟩
  rw [pollNext]
  rw [poll_of_open ho, hanchor, Cursor.pollFrames]
  unfold completeFrames at hlong ⊢
  by_cases hnone : (b.length - walHeaderSize) / h.frameSize ≤ k
  · rw [if_pos hnone, Nat.sub_eq_zero_of_le hnone]
    rfl
  rw [if_neg hnone, if_neg (not_lt.2 hlong)]
  generalize hscan : scanFrames h _ _ 0 (.start sums) = scan
  have hsums := (scanFrames_resume hscan).2.2.2.1
  by_cases hzero : scan.committed = 0
  · simp [hzero, hsums hzero, cutTransactions]
  · simp [hzero]

theorem pollNext_empty (ho : openLog b = .ok h) (hb : b <+: data) :
    ∃ scan : Scan, pollNext (.empty, []) b = (.at h scan.committedSums scan.committed,
        cutTransactions [] (scan.frames.take scan.committed)) ∧
      scanFrames h (data.drop walHeaderSize) (completeFrames b h) 0
        (.start (h.checksum1, h.checksum2)) = scan := by
  have hnil (st : Scan) : st.behind [] = st := by simp [Scan.behind]
  obtain ⟨scan, hpoll, hscan⟩ := @pollNext_of_open h b data .empty _ 0 [] ho hb (Nat.zero_le _)
    (.inr ⟨rfl, rfl, rfl⟩)
  rw [Nat.zero_add] at hpoll
  exact ⟨scan, hpoll, by simpa only [hnil, Nat.sub_zero] using hscan []⟩

/-- However the file is cut, the frames up to the last commit are returned once. -/
theorem pollNext_pollNext (hb : b <+: data) :
    pollNext (pollNext (.empty, []) b) data = pollNext (.empty, []) data := by
  rcases ho : openLog b with e | h
  · rw [pollNext_of_error ho]
  have ho' := openLog_grow ho hb
  obtain ⟨first, hfirst, hscan⟩ := pollNext_empty ho hb
  obtain ⟨whole, hwhole, hscan'⟩ := pollNext_empty ho' List.prefix_rfl
  obtain ⟨hcount, hlen, hclosed, -, hmore⟩ := scanFrames_resume hscan
  have hle : first.committed ≤ completeFrames data h :=
    hcount.trans (Nat.div_le_div_right (Nat.sub_le_sub_right hb.length_le _))
  rw [hfirst, hwhole]
  obtain ⟨second, hsecond, hscan₂⟩ := @pollNext_of_open h data data _ first.committedSums
    first.committed (cutTransactions [] (first.frames.take first.committed)) ho'
    List.prefix_rfl hle (.inl rfl)
  have hmore := hmore (completeFrames data h - first.committed)
  rw [Nat.add_sub_cancel' hle, hscan', hscan₂] at hmore
  subst hmore
  have htake : (second.behind (first.frames.take first.committed)).frames.take
      (second.behind (first.frames.take first.committed)).committed = _ :=
    List.take_length_add_append ..
  rw [hsecond, htake, hclosed, Scan.behind, hlen]

theorem pollNext_eq_read (b : Bytes) : (pollNext (.empty, []) b).2 = readTransactions b := by
  unfold readTransactions read
  cases ho : openLog b with
  | error e =>
    rw [pollNext_of_error ho]
    rfl
  | ok h =>
    obtain ⟨scan, hpoll, hscan⟩ := pollNext_empty ho List.prefix_rfl
    rw [completeFrames] at hscan
    rw [hpoll]
    dsimp only
    rw [hscan]
    split
    · next hshort =>
      have hlen := not_lt.1 (guard_eq_ok ho).1
      rw [Nat.div_eq_of_lt (Nat.sub_lt_left_of_lt_add hlen hshort)] at hscan
      rw [← hscan]
      rfl
    · rfl

end Grows

/-- The polls of a file that only grows return, one after the other, the transactions that `Read`
finds in its last contents. -/
theorem polls_eq_read (contents : List Bytes) (last : Bytes)
    (hgrows : (contents ++ [last]).Pairwise (· <+: ·)) :
    ((contents ++ [last]).foldl pollNext (.empty, [])).2 = readTransactions last := by
  have hrun : (contents ++ [last]).foldl pollNext (.empty, []) = pollNext (.empty, []) last := by
    induction contents using List.reverseRecOn generalizing last with
    | nil => rfl
    | append_singleton contents b ih =>
      rw [List.pairwise_append] at hgrows
      rw [List.foldl_append, ih b hgrows.1]
      exact pollNext_pollNext (hgrows.2.2 b (by simp) last (by simp))
  rw [hrun, pollNext_eq_read]

theorem oneFrame_pageSize_ne : (8 : UInt32) ≠ 0 := by decide

def oneFrameLog : Bytes :=
  let g : Generation 8 := ⟨true, 0, 1, 2, oneFrame_pageSize_ne⟩
  g.bytes ++ encodeFrames g g.sums [⟨1, 1, [0, 0, 0, 0, 0, 0, 0, 1]⟩]

theorem polls_eq_read_oneFrame : [oneFrameLog.take 40, oneFrameLog].Pairwise (· <+: ·) ∧
    ([oneFrameLog.take 40, oneFrameLog].foldl pollNext (.empty, [])).2 =
      readTransactions oneFrameLog ∧ readTransactions oneFrameLog ≠ [] := by
  have hgrows : [oneFrameLog.take 40, oneFrameLog].Pairwise (· <+: ·) := by
    simp [List.take_prefix]
  exact ⟨hgrows, polls_eq_read [oneFrameLog.take 40] oneFrameLog hgrows, by decide +kernel⟩

end CellHive.Wal
