import CellHive.Wal.Cursor

/-!
# A log as SQLite writes it

The write-ahead log of one generation: a header with its salts, and the frames of the
committed transactions with their chained checksums, possibly followed by frames of an
older generation. A cursor that stands behind the first `k` transactions reads exactly the
others (`poll_log`), so the bytes of a log can be forgotten: a log is a list of
transactions and a cursor a position in it.
-/

namespace CellHive.Wal

open Go

variable {pageSize : UInt32}

/-! ## Generations -/

/-- What the header of a log with pages of this size fixes; `big` is the byte order of the
checksums. -/
structure Generation (pageSize : UInt32) where
  big : Bool
  checkpointSeq : UInt32
  salt1 : UInt32
  salt2 : UInt32
  pageSize_ne : pageSize ≠ 0

namespace Generation

variable (g : Generation pageSize)

def magic : UInt32 := if g.big then magicBE else magicLE

/-- The header without its checksum. -/
def words : List UInt32 := [g.magic, 3007000, pageSize, g.checkpointSeq, g.salt1, g.salt2]

def fields : Bytes := g.words.flatMap putUint32

def sums : Sums := checksumBytes g.big (0, 0) g.fields

def bytes : Bytes := (g.words ++ [g.sums.1, g.sums.2]).flatMap putUint32

def header : Header :=
  ⟨g.magic, 3007000, pageSize, g.checkpointSeq, g.salt1, g.salt2, g.sums.1, g.sums.2⟩

@[simp] theorem length_fields : g.fields.length = 24 := by simp [fields, words]

@[simp] theorem length_bytes : g.bytes.length = walHeaderSize := by
  simp [bytes, words, walHeaderSize]

theorem magic_cases : g.big = true ∧ g.magic = magicBE ∨ g.big = false ∧ g.magic = magicLE := by
  unfold magic
  cases g.big with
  | true => exact .inl ⟨rfl, rfl⟩
  | false => exact .inr ⟨rfl, rfl⟩

theorem checksumBig_header : checksumBig g.header = g.big := by
  have hmagic : g.header.magic = g.magic := rfl
  unfold checksumBig
  rw [hmagic]
  rcases g.magic_cases with ⟨hbig, hm⟩ | ⟨hbig, hm⟩
  · rw [hbig, hm]
    decide
  · rw [hbig, hm]
    decide

theorem uint32_words (words : List UInt32) (rest : Bytes) {k : Nat} {x : UInt32}
    (h : words[k]? = some x) : uint32 ((words.flatMap putUint32 ++ rest).drop (4 * k)) = x := by
  induction words generalizing k with
  | nil => cases h
  | cons w words ih =>
    cases k with
    | zero =>
      cases h
      exact uint32_putUint32 _ _
    | succ k =>
      exact ih h

theorem parseHeader_bytes : parseHeader g.bytes = .ok g.header := by
  have hat : ∀ k x, (g.words ++ [g.sums.1, g.sums.2])[k]? = some x →
      uint32 (g.bytes.drop (4 * k)) = x := by
    intro k x hx
    have hword := uint32_words _ [] hx
    rwa [List.append_nil] at hword
  have hmagic : ¬ (g.magic ≠ magicLE ∧ g.magic ≠ magicBE) := by
    rintro ⟨hle, hbe⟩
    exact g.magic_cases.elim (fun h => hbe h.2) fun h => hle h.2
  unfold parseHeader
  simp only [show uint32 g.bytes = g.magic from hat 0 _ rfl,
    show uint32 (g.bytes.drop 8) = pageSize from hat 2 _ rfl,
    show uint32 (g.bytes.drop 12) = g.checkpointSeq from hat 3 _ rfl,
    show uint32 (g.bytes.drop 16) = g.salt1 from hat 4 _ rfl,
    show uint32 (g.bytes.drop 20) = g.salt2 from hat 5 _ rfl,
    show uint32 (g.bytes.drop 24) = g.sums.1 from hat 6 _ rfl,
    show uint32 (g.bytes.drop 28) = g.sums.2 from hat 7 _ rfl]
  rw [if_neg hmagic, if_neg g.pageSize_ne]
  rfl

theorem headerChecksum_bytes : headerChecksum g.bytes g.header = g.sums := by
  have htake : g.bytes.take (walHeaderSize - 8) = g.fields := by
    exact List.take_left' g.length_fields
  rw [headerChecksum, checksumBig_header, htake, sums]

end Generation

/-! ## Frames -/

section Frames

variable (g : Generation pageSize)

def Frame.fields (f : Frame) : Bytes := [f.pageNo, f.dbSize].flatMap putUint32

def sumsBehind (sums : Sums) (f : Frame) : Sums := frameChecksum f.fields f.data sums g.big

/-- The header of a frame behind the checksum `sums`. -/
def frameWords (sums : Sums) (f : Frame) : List UInt32 :=
  [f.pageNo, f.dbSize, g.salt1, g.salt2, (sumsBehind g sums f).1, (sumsBehind g sums f).2]

def encodeFrame (sums : Sums) (f : Frame) : Bytes :=
  (frameWords g sums f).flatMap putUint32 ++ f.data

def encodeFrames : Sums → List Frame → Bytes
  | _, [] => []
  | sums, f :: rest => encodeFrame g sums f ++ encodeFrames (sumsBehind g sums f) rest

def sumsBehindAll (sums : Sums) (frames : List Frame) : Sums := frames.foldl (sumsBehind g) sums

def Sized (pageSize : UInt32) (frames : List Frame) : Prop :=
  ∀ f ∈ frames, f.data.length = pageSize.toNat

variable {g} {sums : Sums} {f : Frame} {frames more : List Frame}

theorem frameSize_header : g.header.frameSize = 24 + pageSize.toNat := rfl

theorem length_frameWords : ((frameWords g sums f).flatMap putUint32).length = 24 := by
  simp [frameWords]

theorem encodeFrames_append : encodeFrames g sums (frames ++ more) =
    encodeFrames g sums frames ++ encodeFrames g (sumsBehindAll g sums frames) more := by
  induction frames generalizing sums with
  | nil => rfl
  | cons f frames ih =>
    rw [List.cons_append, encodeFrames, encodeFrames, ih, List.append_assoc]
    rfl

theorem length_encodeFrame (hf : f.data.length = pageSize.toNat) :
    (encodeFrame g sums f).length = g.header.frameSize := by
  rw [encodeFrame, List.length_append, length_frameWords, hf, frameSize_header]

theorem length_encodeFrames (hsized : Sized pageSize frames) :
    (encodeFrames g sums frames).length = frames.length * g.header.frameSize := by
  induction frames generalizing sums with
  | nil => simp [encodeFrames]
  | cons f frames ih =>
    rw [encodeFrames, List.length_append, length_encodeFrame (hsized f List.mem_cons_self),
      ih fun f hf => hsized f (List.mem_cons_of_mem _ hf), List.length_cons, Nat.succ_mul,
      Nat.add_comm]

/-! ### Scanning them -/

def Scan.add (g : Generation pageSize) (st : Scan) (f : Frame) : Scan :=
  { st with
    frames := st.frames ++ [f]
    sums := sumsBehind g st.sums f
    committed := if f.dbSize = 0 then st.committed else (st.frames ++ [f]).length
    committedSums := if f.dbSize = 0 then st.committedSums else sumsBehind g st.sums f }

variable {tail rest : Bytes} {i : Nat} {st : Scan}

theorem frameHdrAt_encoded (h : tail.drop (i * g.header.frameSize) = encodeFrame g sums f ++ rest) :
    frameHdrAt g.header tail i = (frameWords g sums f).flatMap putUint32 := by
  unfold frameHdrAt slice
  rw [h, Nat.add_sub_cancel_left, encodeFrame]
  exact List.take_left' length_frameWords

theorem pageAt_encoded (h : tail.drop (i * g.header.frameSize) = encodeFrame g sums f ++ rest)
    (hf : f.data.length = pageSize.toNat) : pageAt g.header tail i = f.data := by
  unfold pageAt slice
  have hlen : i * g.header.frameSize + g.header.frameSize -
      (i * g.header.frameSize + frameHdrSize) = pageSize.toNat := by
    rw [frameSize_header, frameHdrSize]
    omega
  rw [hlen, ← List.drop_drop, h, encodeFrame]
  exact List.take_left' hf

theorem scanFrames_frame (count : Nat)
    (h : tail.drop (i * g.header.frameSize) = encodeFrame g st.sums f ++ rest)
    (hf : f.data.length = pageSize.toNat) :
    scanFrames g.header tail (count + 1) i st =
      scanFrames g.header tail count (i + 1) (st.add g f) := by
  have hat : ∀ k x, (frameWords g st.sums f)[k]? = some x →
      uint32 (((frameWords g st.sums f).flatMap putUint32).drop (4 * k)) = x := by
    intro k x hx
    have hword := Generation.uint32_words _ [] hx
    rwa [List.append_nil] at hword
  have hsalts : saltsMatch g.header ((frameWords g st.sums f).flatMap putUint32) = true :=
    decide_eq_true ⟨hat 2 _ rfl, hat 3 _ rfl⟩
  have hfields : ((frameWords g st.sums f).flatMap putUint32).take 8 = f.fields := rfl
  have hstored : storedSums ((frameWords g st.sums f).flatMap putUint32) =
      sumsBehind g st.sums f := Prod.ext (hat 4 _ rfl) (hat 5 _ rfl)
  have hchecked : frameChecksum ((frameWords g st.sums f).flatMap putUint32) f.data st.sums
      (checksumBig g.header) = sumsBehind g st.sums f := by
    rw [sumsBehind, frameChecksum, Generation.checksumBig_header, hfields]
    rfl
  have hpageNo : uint32 ((frameWords g st.sums f).flatMap putUint32) = f.pageNo := hat 0 _ rfl
  have hdbSize : uint32 (((frameWords g st.sums f).flatMap putUint32).drop 4) = f.dbSize :=
    hat 1 _ rfl
  rw [scanFrames]
  dsimp only
  rw [frameHdrAt_encoded h, pageAt_encoded h hf, if_neg (by rw [hsalts]; exact Bool.noConfusion),
    hchecked, hstored, if_neg (fun hne => hne rfl), hpageNo, hdbSize]
  rfl

theorem scanFrames_frames (count : Nat) (hsized : Sized pageSize frames)
    (h : tail.drop (i * g.header.frameSize) = encodeFrames g st.sums frames ++ rest) :
    scanFrames g.header tail (frames.length + count) i st =
      scanFrames g.header tail count (i + frames.length) (frames.foldl (Scan.add g) st) := by
  induction frames generalizing i st with
  | nil => simp
  | cons f frames ih =>
    have hf := hsized f List.mem_cons_self
    rw [encodeFrames, List.append_assoc] at h
    have hnext : tail.drop ((i + 1) * g.header.frameSize) =
        encodeFrames g (st.add g f).sums frames ++ rest := by
      rw [Nat.succ_mul, ← List.drop_drop, h]
      exact List.drop_left' (length_encodeFrame hf)
    have hcount : (f :: frames).length + count = frames.length + count + 1 := by
      rw [List.length_cons]
      omega
    have hrest : Sized pageSize frames := fun f hf => hsized f (List.mem_cons_of_mem _ hf)
    rw [hcount, scanFrames_frame _ h hf, ih hrest hnext, List.foldl_cons,
      List.length_cons, Nat.add_assoc, Nat.add_comm 1]

end Frames

/-! ## Transactions -/

/-- The frames of a committed transaction: only the last one carries a database size. -/
structure Commit (pageSize : UInt32) where
  body : List Frame
  last : Frame
  body_open : ∀ f ∈ body, f.dbSize = 0
  last_commits : last.dbSize ≠ 0
  sized : Sized pageSize (body ++ [last])

def Commit.frames (c : Commit pageSize) : List Frame := c.body ++ [c.last]

def Commit.transaction (c : Commit pageSize) : Transaction := ⟨c.frames, c.last.dbSize⟩

/-- A transaction that writes the page of a database of one page. -/
def Commit.single (data : Bytes) (h : data.length = pageSize.toNat) : Commit pageSize where
  body := []
  last := ⟨1, 1, data⟩
  body_open := fun _ hf => absurd hf List.not_mem_nil
  last_commits := show (1 : UInt32) ≠ 0 by decide
  sized := by
    intro f hf
    rw [List.mem_singleton.1 hf]
    exact h

section Transactions

variable {g : Generation pageSize} {frames rest : List Frame} {st : Scan}

def commitFrames (commits : List (Commit pageSize)) : List Frame := commits.flatMap Commit.frames

theorem commitFrames_append (done new : List (Commit pageSize)) :
    commitFrames (done ++ new) = commitFrames done ++ commitFrames new := List.flatMap_append

theorem commitFrames_cons (c : Commit pageSize) (commits : List (Commit pageSize)) :
    commitFrames (c :: commits) = c.frames ++ commitFrames commits := List.flatMap_cons

theorem sized_commitFrames (commits : List (Commit pageSize)) : Sized pageSize (commitFrames commits) := by
  intro f hf
  obtain ⟨c, -, hfc⟩ := List.mem_flatMap.1 hf
  exact c.sized f hfc

theorem sumsBehindAll_append (sums : Sums) (frames more : List Frame) :
    sumsBehindAll g sums (frames ++ more) =
      sumsBehindAll g (sumsBehindAll g sums frames) more := List.foldl_append

theorem commitFrames_eq_nil {commits : List (Commit pageSize)} (h : (commitFrames commits).length = 0) :
    commits = [] := by
  cases commits with
  | nil => rfl
  | cons c commits =>
    rw [commitFrames_cons, Commit.frames, List.length_append] at h
    simp at h

theorem cutTransactions_open (opened : List Frame) (hopen : ∀ f ∈ frames, f.dbSize = 0) :
    cutTransactions opened (frames ++ rest) = cutTransactions (opened ++ frames) rest := by
  induction frames generalizing opened with
  | nil => rw [List.nil_append, List.append_nil]
  | cons f frames ih =>
    rw [List.cons_append, cutTransactions, if_pos (hopen f List.mem_cons_self),
      ih _ fun f hf => hopen f (List.mem_cons_of_mem _ hf), List.append_assoc]
    rfl

theorem cutTransactions_commitFrames (commits : List (Commit pageSize)) :
    cutTransactions [] (commitFrames commits) = commits.map Commit.transaction := by
  induction commits with
  | nil => rfl
  | cons c commits ih =>
    have hframes : commitFrames (c :: commits) = c.body ++ (c.last :: commitFrames commits) := by
      rw [commitFrames, List.flatMap_cons, Commit.frames, List.append_assoc]
      rfl
    rw [hframes, cutTransactions_open [] c.body_open, cutTransactions, if_neg c.last_commits, ih]
    rfl

theorem foldl_add_open (hopen : ∀ f ∈ frames, f.dbSize = 0) :
    frames.foldl (Scan.add g) st =
      { st with frames := st.frames ++ frames, sums := sumsBehindAll g st.sums frames } := by
  induction frames generalizing st with
  | nil => simp [sumsBehindAll]
  | cons f frames ih =>
    have hadd : st.add g f =
        { st with frames := st.frames ++ [f], sums := sumsBehind g st.sums f } := by
      rw [Scan.add, if_pos (hopen f List.mem_cons_self), if_pos (hopen f List.mem_cons_self)]
    rw [List.foldl_cons, ih fun f hf => hopen f (List.mem_cons_of_mem _ hf), hadd]
    simp [sumsBehindAll]

def Scan.settled (frames : List Frame) (sums : Sums) : Scan :=
  ⟨frames, sums, frames.length, sums, false⟩

theorem foldl_add_commitFrames (sums : Sums) (commits : List (Commit pageSize)) :
    (commitFrames commits).foldl (Scan.add g) (.settled frames sums) =
      .settled (frames ++ commitFrames commits) (sumsBehindAll g sums (commitFrames commits)) := by
  induction commits generalizing frames sums with
  | nil => simp [commitFrames, sumsBehindAll]
  | cons c commits ih =>
    have hcommit : c.frames.foldl (Scan.add g) (.settled frames sums) =
        .settled (frames ++ c.frames) (sumsBehindAll g sums c.frames) := by
      rw [Commit.frames, List.foldl_append, foldl_add_open c.body_open, List.foldl_cons, Scan.add,
        if_neg c.last_commits, if_neg c.last_commits, sumsBehindAll_append, ← List.append_assoc]
      rfl
    rw [commitFrames_cons, List.foldl_append, hcommit, ih, sumsBehindAll_append, List.append_assoc]

end Transactions

/-! ## Logs -/

variable {g : Generation pageSize}

/-- The bytes behind the last frame of a generation: less than a frame, or a frame of an
older generation. -/
def Stale (g : Generation pageSize) (b : Bytes) : Prop :=
  b.length < g.header.frameSize ∨ saltsMatch g.header (b.take frameHdrSize) = false

/-- What stands behind the committed transactions of a log: the frames of one that has not
committed yet, and what an older generation left. -/
structure LogEnd (g : Generation pageSize) where
  spilled : List Frame
  spilled_open : ∀ f ∈ spilled, f.dbSize = 0
  spilled_sized : Sized pageSize spilled
  stale : Bytes
  stale_ends : Stale g stale

def LogEnd.nothing (g : Generation pageSize) : LogEnd g where
  spilled := []
  spilled_open := fun _ hf => absurd hf List.not_mem_nil
  spilled_sized := fun _ hf => absurd hf List.not_mem_nil
  stale := []
  stale_ends := .inl (Nat.lt_of_lt_of_le (Nat.succ_pos 23) (Nat.le_add_right _ _))

structure Log (g : Generation pageSize) extends LogEnd g where
  commits : List (Commit pageSize)

namespace Log

def frames (log : Log g) : List Frame := commitFrames log.commits ++ log.spilled

def bytes (log : Log g) : Bytes := g.bytes ++ (encodeFrames g g.sums log.frames ++ log.stale)

def observed (log : Log g) : Observed := .file log.bytes.length log.bytes log.bytes

theorem sized (log : Log g) : Sized pageSize log.frames := by
  intro f hf
  rcases List.mem_append.1 hf with hc | hs
  · exact sized_commitFrames log.commits f hc
  · exact log.spilled_sized f hs

theorem length_bytes (log : Log g) : log.bytes.length =
    walHeaderSize + log.frames.length * g.header.frameSize + log.stale.length := by
  rw [bytes, List.length_append, List.length_append, g.length_bytes,
    length_encodeFrames log.sized, Nat.add_assoc]

end Log

/-- The cursor that stands behind the transactions `done` of the generation. -/
def Cursor.behind (g : Generation pageSize) (done : List (Commit pageSize)) : Cursor :=
  { haveSalt := true
    salt1 := g.salt1
    salt2 := g.salt2
    cksum := sumsBehindAll g g.sums (commitFrames done)
    haveCksum := true
    frameIdx := (commitFrames done).length }

variable {log : Log g} {done new : List (Commit pageSize)}

theorem scanFrames_stale {tail stale : Bytes} {i : Nat} {st : Scan} (hstale : Stale g stale)
    (htail : tail.drop (i * g.header.frameSize) =
      stale.take (stale.length / g.header.frameSize * g.header.frameSize)) :
    scanFrames g.header tail (stale.length / g.header.frameSize) i st = st := by
  rcases hstale with hshort | hsalts
  · rw [Nat.div_eq_of_lt hshort, scanFrames]
  rcases hcount : stale.length / g.header.frameSize with _ | count
  · rw [scanFrames]
  have hhdr : frameHdrAt g.header tail i = stale.take frameHdrSize := by
    have hle : frameHdrSize ≤ (count + 1) * g.header.frameSize := by
      rw [Nat.succ_mul, frameSize_header, frameHdrSize]
      omega
    rw [frameHdrAt, slice, Nat.add_sub_cancel_left, htail, hcount, List.take_take,
      Nat.min_eq_left hle]
  rw [scanFrames]
  rw [hhdr, if_pos hsalts]

theorem poll_observed (c : Cursor) : c.poll log.observed =
    (c.anchor g.header g.sums log.bytes.length).pollFrames g.header
      (c.rotated g.header log.bytes.length) log.bytes.length log.bytes := by
  have hlong : ¬ log.bytes.length < walHeaderSize := by
    rw [log.length_bytes]
    omega
  have hraw : log.bytes.take walHeaderSize = g.bytes := List.take_left' g.length_bytes
  rw [Log.observed, Cursor.poll, if_neg hlong, if_neg hlong]
  dsimp only
  rw [hraw, g.parseHeader_bytes]
  dsimp only
  rw [g.headerChecksum_bytes, if_neg (fun hne => hne rfl)]

section Behind

variable (hlog : log.commits = done ++ new)
include hlog

theorem length_frames :
    log.frames.length = (commitFrames done).length + (commitFrames new ++ log.spilled).length := by
  rw [Log.frames, hlog, commitFrames_append, List.append_assoc, List.length_append]

theorem drop_bytes :
    log.bytes.drop (walHeaderSize + (commitFrames done).length * g.header.frameSize) =
      encodeFrames g (sumsBehindAll g g.sums (commitFrames done))
        (commitFrames new ++ log.spilled) ++ log.stale := by
  have hframes : log.frames = commitFrames done ++ (commitFrames new ++ log.spilled) := by
    rw [Log.frames, hlog, commitFrames_append, List.append_assoc]
  rw [Log.bytes, ← List.drop_drop, hframes, encodeFrames_append, List.append_assoc]
  exact List.drop_left' (length_encodeFrames (sized_commitFrames done))

theorem scanFrames_log {offset count : Nat}
    (hoffset : offset = walHeaderSize + (commitFrames done).length * g.header.frameSize)
    (hcount : count = (commitFrames new ++ log.spilled).length +
      log.stale.length / g.header.frameSize) :
    scanFrames g.header (slice log.bytes offset (offset + count * g.header.frameSize)) count 0
        (.start (sumsBehindAll g g.sums (commitFrames done))) =
      log.spilled.foldl (Scan.add g)
        (.settled (commitFrames new) (sumsBehindAll g g.sums (commitFrames (done ++ new)))) := by
  have hsized : Sized pageSize (commitFrames new ++ log.spilled) := by
    intro f hf
    rcases List.mem_append.1 hf with hn | hs
    · exact sized_commitFrames new f hn
    · exact log.spilled_sized f hs
  have htail : slice log.bytes offset (offset + count * g.header.frameSize) =
      encodeFrames g (sumsBehindAll g g.sums (commitFrames done))
        (commitFrames new ++ log.spilled) ++
      log.stale.take (log.stale.length / g.header.frameSize * g.header.frameSize) := by
    rw [slice, Nat.add_sub_cancel_left, hoffset, drop_bytes hlog, hcount, Nat.add_mul,
      ← length_encodeFrames hsized, List.take_length_add_append]
  rw [hcount, scanFrames_frames _ hsized (by rw [Nat.zero_mul, ← hcount, htail]; rfl), ← hcount,
    htail, scanFrames_stale log.stale_ends]
  · rw [List.foldl_append, commitFrames_append, sumsBehindAll_append]
    exact congrArg (log.spilled.foldl (Scan.add g)) (foldl_add_commitFrames _ new)
  · rw [Nat.zero_add]
    exact List.drop_left' (length_encodeFrames hsized)

/-- What a poll returns that finds the transactions `new`. -/
def polledTo (g : Generation pageSize) (done new : List (Commit pageSize))
    (checkpoint : Bool) : Polled :=
  { cursor := .behind g (done ++ new)
    result :=
      { header := g.header
        newCommitted := commitFrames new
        transactions := new.map Commit.transaction
        checkpoint }
    err := none }

theorem pollFrames_log (checkpoint : Bool) :
    (Cursor.behind g done).pollFrames g.header checkpoint log.bytes.length log.bytes =
      polledTo g done new checkpoint := by
  have htotal : (log.bytes.length - walHeaderSize) / g.header.frameSize =
      (commitFrames done).length + ((commitFrames new ++ log.spilled).length +
        log.stale.length / g.header.frameSize) := by
    rw [log.length_bytes, Nat.add_assoc, Nat.add_sub_cancel_left, Nat.add_comm,
      Nat.add_mul_div_right _ _ (by rw [frameSize_header]; omega), length_frames hlog]
    omega
  have hidx : (Cursor.behind g done).frameIdx = (commitFrames done).length := rfl
  unfold Cursor.pollFrames
  rw [htotal, hidx]
  by_cases hnone : (commitFrames done).length + ((commitFrames new ++ log.spilled).length +
      log.stale.length / g.header.frameSize) ≤ (commitFrames done).length
  · have hnew : new = [] := by
      apply commitFrames_eq_nil
      generalize log.stale.length / g.header.frameSize = older at hnone
      rw [List.length_append] at hnone
      omega
    subst hnew
    rw [if_pos hnone, polledTo, List.append_nil]
    rfl
  · rw [if_neg hnone, Nat.add_sub_cancel_left]
    have hlong : ¬ log.bytes.length <
        walHeaderSize + (commitFrames done).length * g.header.frameSize +
          ((commitFrames new ++ log.spilled).length + log.stale.length / g.header.frameSize) *
            g.header.frameSize := by
      have hstale := Nat.div_mul_le_self log.stale.length g.header.frameSize
      rw [log.length_bytes, length_frames hlog, Nat.add_mul, Nat.add_mul]
      omega
    have hcksum : (Cursor.behind g done).cksum = sumsBehindAll g g.sums (commitFrames done) := rfl
    rw [if_neg hlong, hcksum, scanFrames_log hlog rfl rfl, foldl_add_open log.spilled_open]
    unfold Scan.settled
    simp only [Bool.false_eq_true, false_and, if_false]
    rw [List.take_left' rfl, cutTransactions_commitFrames]
    congr 1
    by_cases hzero : (commitFrames new).length = 0
    · rw [if_pos hzero, commitFrames_eq_nil hzero, List.append_nil]
    · rw [if_neg hzero, ← List.length_append, ← commitFrames_append]
      rfl

theorem rotated_behind :
    (Cursor.behind g done).rotated g.header log.bytes.length = false := by
  apply decide_eq_false
  rintro (⟨-, hsalt | hsalt⟩ | hshort)
  · exact hsalt rfl
  · exact hsalt rfl
  · have hidx : (Cursor.behind g done).frameIdx = (commitFrames done).length := rfl
    rw [log.length_bytes, length_frames hlog, hidx, Nat.add_mul] at hshort
    omega

theorem poll_log :
    (Cursor.behind g done).poll log.observed = polledTo g done new false := by
  have hanchor : (Cursor.behind g done).anchor g.header g.sums log.bytes.length =
      .behind g done := by
    rw [Cursor.anchor, rotated_behind hlog]
    rfl
  rw [poll_observed, hanchor, rotated_behind hlog, pollFrames_log hlog]

end Behind

theorem poll_log_empty : Cursor.empty.poll log.observed = polledTo g [] log.commits false := by
  have hrotated : Cursor.empty.rotated g.header log.bytes.length = false := by
    apply decide_eq_false
    rintro (⟨hsalt, -⟩ | hshort)
    · cases hsalt
    · have hidx : Cursor.empty.frameIdx = 0 := rfl
      rw [log.length_bytes, hidx] at hshort
      omega
  have hanchor : Cursor.empty.anchor g.header g.sums log.bytes.length = .behind g [] := by
    rw [Cursor.anchor, hrotated]
    rfl
  rw [poll_observed, hanchor, hrotated, pollFrames_log (List.nil_append _).symm]

theorem poll_log_rotated {c : Cursor} (hsalt : c.haveSalt = true)
    (hother : c.salt1 ≠ g.salt1 ∨ c.salt2 ≠ g.salt2) :
    c.poll log.observed = polledTo g [] log.commits true := by
  have hrotated : c.rotated g.header log.bytes.length = true :=
    decide_eq_true (.inl ⟨hsalt, hother⟩)
  have hanchor : c.anchor g.header g.sums log.bytes.length = .behind g [] := by
    rw [Cursor.anchor, hrotated]
    rfl
  rw [poll_observed, hanchor, hrotated, pollFrames_log (List.nil_append _).symm]

end CellHive.Wal
