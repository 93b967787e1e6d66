import CellHive.CellCapture.Ensure
import CellHive.SqlCapture.Chunks

/-!
# Resuming leaves no hole

A capture that resumes numbers the transactions it reads from the baseline on, so its
cursor must not have passed a transaction above the baseline. `canResume` reads the txid
again after the cursor is placed and asks that it is still the baseline. A hint is compared
with the baseline only: `resume_noHole` shows that commits between the read of the baseline
and the first poll of the log are lost on that path, and on no other.
-/

namespace CellHive.SqlCapture

open Go Ltx

/-! ## Numbering -/

section Chunks

theorem flatten_cutChunks (pageSize : UInt32) (start : UInt64) (cuts : List UInt64)
    (txs : List WALTransaction) : (cutChunks pageSize start cuts txs).flatten = txs := by
  induction cuts generalizing start txs with
  | nil => exact flatten_chunkTransactions pageSize txs
  | cons cut cuts ih =>
    unfold cutChunks
    split
    · exact ih start txs
    · rw [List.flatten_append, flatten_chunkTransactions, ih, List.take_append_drop]

theorem deltaSegment_end {c : Capture} {pageSize : UInt32} {chunk : List WALTransaction}
    {segment : Bytes} {endTxID : UInt64} (h : deltaSegment c pageSize chunk = .ok (segment, endTxID)) :
    endTxID = c.nextTxID + UInt64.ofNat chunk.length := by
  unfold deltaSegment at h
  split at h
  · cases h
  split at h
  · cases h
  · cases h
    rfl

theorem emitChunks_nextTxID {pageSize : UInt32} {commitFails : Nat → Option Err} {k : Nat}
    {c : Capture} {chunks : List (List WALTransaction)}
    (h : (emitChunks pageSize commitFails k c chunks).2.2 = none) :
    (emitChunks pageSize commitFails k c chunks).2.1 =
      { c with nextTxID := c.nextTxID + UInt64.ofNat chunks.flatten.length } := by
  induction chunks generalizing k c with
  | nil => simp [emitChunks]
  | cons chunk chunks ih =>
    unfold emitChunks at h ⊢
    cases hseg : deltaSegment c pageSize chunk with
    | error e =>
      rw [hseg] at h
      cases h
    | ok out =>
      obtain ⟨segment, endTxID⟩ := out
      have hend := deltaSegment_end hseg
      rw [hseg] at h
      cases hfails : commitFails k with
      | some e =>
        rw [hfails] at h
        cases h
      | none =>
        rw [hfails] at h
        rw [ih h, hend, List.flatten_cons, List.length_append, UInt64.ofNat_add,
          UInt64.add_assoc]

theorem emitTransactions_nextTxID {c : Capture} {env : Surroundings} {result : Wal.PollResult}
    (hauto : env.autoCheckpoint = none) (h : (emitTransactions c env result).2.2 = none) :
    ∃ cuts, (emitTransactions c env result).2.1 =
      { c with
        nextTxID := c.nextTxID + UInt64.ofNat result.transactions.length
        baselineCuts := cuts } := by
  unfold emitTransactions at h ⊢
  dsimp only at h ⊢
  rw [hauto] at h ⊢
  split at h
  · cases h
  next hok =>
    rw [emitChunks_nextTxID hok, flatten_cutChunks, List.length_map]
    exact ⟨_, rfl⟩

end Chunks

/-- The transactions with the txids of a capture whose position is `next`. -/
def numbered (next : UInt64) (txs : List Wal.Transaction) : List (UInt64 × Wal.Transaction) :=
  txs.mapIdx fun i tx => (next + UInt64.ofNat (i + 1), tx)

/-- The transactions that successive polls turn into deltas, with their txids. -/
def handedOut : Capture → List Surroundings → List (UInt64 × Wal.Transaction)
  | _, [] => []
  | c, env :: rest =>
    match env.drained with
    | some _ => []
    | none =>
      numbered c.nextTxID (c.cursor.poll env.observed).result.transactions ++
        match (poll c env).err with
        | some _ => []
        | none => handedOut (poll c env).capture rest

end CellHive.SqlCapture

namespace CellHive.CellCapture

open Go Wal SqlCapture

/-! ## A cursor in the cell's log -/

variable {pageSize : UInt32} {g : Generation pageSize} {autoSnapshot : Bool} {c : Cell g}
  {n m k : Nat} {capture : Capture}

/-- The transactions number `n` to `m - 1` of the history. -/
def Cell.between (c : Cell g) (n m : Nat) : List (Commit pageSize) :=
  (List.range' n (m - n)).map c.history

theorem committed_eq_append (h : n ≤ m) : c.committed m = c.committed n ++ c.between n m := by
  rw [Cell.committed, Cell.committed, Cell.between, ← List.map_append, List.range_eq_range',
    List.range_eq_range', ← Nat.add_sub_of_le h]
  congr 1
  rw [← List.range'_append_1, Nat.zero_add, Nat.add_sub_cancel_left]

/-- The cursor stands behind the first `n` transactions of the history. -/
def Stands (c : Cell g) (cursor : Cursor) (n : Nat) : Prop :=
  cursor = .behind g (c.committed n) ∨ n = 0 ∧ cursor = .empty

theorem new_stands (epoch txid : UInt64) (compress : Bool) (rest : Option (LogEnd g)) :
    ∃ cursor, Stands c cursor n ∧
      SqlCapture.new epoch txid compress (c.wal n rest) = .ok ⟨cursor, epoch, txid, [], compress⟩ := by
  have hlog : ∀ log : Log g, log.commits = c.committed n →
      SqlCapture.new epoch txid compress log.observed =
        .ok ⟨.behind g (c.committed n), epoch, txid, [], compress⟩ := by
    intro log hcommits
    unfold SqlCapture.new
    rw [poll_log_empty, hcommits]
    rfl
  cases rest with
  | some rest => exact ⟨_, .inl rfl, hlog _ rfl⟩
  | none =>
    unfold Cell.wal
    dsimp only
    split
    next hn => exact ⟨.empty, .inr ⟨hn, rfl⟩, rfl⟩
    · exact ⟨_, .inl rfl, hlog _ rfl⟩

theorem Stands.poll {cursor : Cursor} (h : Stands c cursor n) (hnm : n ≤ m) (rest : LogEnd g) :
    cursor.poll (c.wal m (some rest)) =
      polledTo g (c.committed n) (c.between n m) false := by
  have hcommits := committed_eq_append (c := c) hnm
  rcases h with rfl | ⟨rfl, rfl⟩
  · have hlog : (Log.mk rest (c.committed m)).commits = c.committed n ++ c.between n m := hcommits
    exact poll_log hlog
  · have hpoll : Cursor.empty.poll (Log.mk rest (c.committed m)).observed =
        polledTo g [] (c.committed m) false := poll_log_empty
    have hall : c.committed m = c.between 0 m := hcommits
    rw [Cell.wal, hpoll, hall]
    rfl

/-! ## Holes -/

def Unread (c : Cell g) (capture : Capture) (baseline n : Nat) : Prop :=
  ∀ m ≥ n, ∀ rest, (capture.cursor.poll (c.wal m (some rest))).result.transactions =
    (c.between (baseline - c.start) m).map Commit.transaction

/-- Polls of the cell's log while its writers go on. -/
def Later (c : Cell g) : Nat → List SqlCapture.Surroundings → Prop
  | _, [] => True
  | n, env :: more =>
    ∃ m ≥ n, ∃ rest, env.observed = c.wal m (some rest) ∧ env.autoCheckpoint = none ∧ Later c m more

theorem Later.mono {later : List SqlCapture.Surroundings} (h : Later c m later) (hnm : n ≤ m) :
    Later c n later := by
  cases later with
  | nil => exact trivial
  | cons env more =>
    obtain ⟨l, hl, hrest⟩ := h
    exact ⟨l, Nat.le_trans hnm hl, hrest⟩

/-- The `k`-th transaction of the capture's deltas is transaction `baseline + k`. -/
def InOrder (c : Cell g) (capture : Capture) (baseline n : Nat) : Prop :=
  ∀ later, Later c n later → ∀ k x, (handedOut capture later)[k]? = some x →
    x = (UInt64.ofNat (baseline + (k + 1)), (c.history (baseline - c.start + k)).transaction)

def NoHole (c : Cell g) (capture : Capture) (baseline n : Nat) : Prop :=
  Unread c capture baseline n ∧ InOrder c capture baseline n

/-- The capture continues behind the first `n` transactions. -/
structure Continues (c : Cell g) (capture : Capture) (n : Nat) : Prop where
  stands : Stands c capture.cursor n
  next : capture.nextTxID = UInt64.ofNat (c.txid n)

theorem getElem_numbered {next : UInt64} {txs : List Transaction} {x : UInt64 × Transaction}
    (h : (numbered next txs)[k]? = some x) :
    ∃ tx, txs[k]? = some tx ∧ x = (next + UInt64.ofNat (k + 1), tx) := by
  rw [numbered, List.getElem?_mapIdx, Option.map_eq_some_iff] at h
  obtain ⟨tx, htx, rfl⟩ := h
  exact ⟨tx, htx, rfl⟩

theorem getElem_between {x : Commit pageSize} (h : (c.between n m)[k]? = some x) :
    x = c.history (n + k) := by
  rw [Cell.between, List.getElem?_map, Option.map_eq_some_iff] at h
  obtain ⟨i, hi, rfl⟩ := h
  obtain ⟨-, rfl⟩ := List.getElem?_eq_some_iff.1 hi
  rw [List.getElem_range', Nat.one_mul]

theorem Continues.poll {env : SqlCapture.Surroundings} {rest : LogEnd g}
    (h : Continues c capture n) (hnm : n ≤ m) (hobserved : env.observed = c.wal m (some rest))
    (hauto : env.autoCheckpoint = none) (hdrained : env.drained = none)
    (hok : (SqlCapture.poll capture env).err = none) :
    Continues c (SqlCapture.poll capture env).capture m := by
  have hpoll := h.stands.poll hnm rest
  have hall : c.committed n ++ c.between n m = c.committed m := (committed_eq_append hnm).symm
  have hnext : capture.nextTxID + UInt64.ofNat ((c.between n m).map Commit.transaction).length =
      UInt64.ofNat (c.txid m) := by
    rw [h.next, ← UInt64.ofNat_add, List.length_map, Cell.between, List.length_map,
      List.length_range', Cell.txid, Cell.txid, Nat.add_assoc, Nat.add_sub_of_le hnm]
  unfold SqlCapture.poll at hok ⊢
  rw [hdrained, hobserved, hpoll] at hok ⊢
  unfold polledTo at hok ⊢
  rw [hall] at hok ⊢
  dsimp only at hok ⊢
  by_cases hnone : (c.between n m).map Commit.transaction = []
  · rw [if_pos hnone]
    rw [hnone] at hnext
    refine ⟨.inl rfl, ?_⟩
    rw [← hnext]
    simp
  · rw [if_neg hnone] at hok ⊢
    obtain ⟨cuts, hcapture⟩ := emitTransactions_nextTxID hauto hok
    rw [hcapture]
    exact ⟨.inl rfl, hnext⟩

theorem Continues.handedOut (h : Continues c capture n) {later : List SqlCapture.Surroundings}
    (hlater : Later c n later) {x : UInt64 × Transaction}
    (hx : (handedOut capture later)[k]? = some x) :
    x = (UInt64.ofNat (c.txid n + (k + 1)), (c.history (n + k)).transaction) := by
  induction later generalizing n capture k with
  | nil => simp [SqlCapture.handedOut] at hx
  | cons env more ih =>
    obtain ⟨m, hnm, rest, hobserved, hauto, hmore⟩ := hlater
    unfold SqlCapture.handedOut at hx
    cases hdrained : env.drained with
    | some e =>
      rw [hdrained] at hx
      simp at hx
    | none =>
      rw [hdrained, hobserved, h.stands.poll hnm rest] at hx
      dsimp only [polledTo] at hx
      have hlen : (numbered capture.nextTxID ((c.between n m).map Commit.transaction)).length =
          m - n := by
        simp [numbered, Cell.between]
      rw [List.getElem?_append] at hx
      split at hx
      · -- handed out by this poll
        obtain ⟨tx, htx, rfl⟩ := getElem_numbered hx
        rw [List.getElem?_map, Option.map_eq_some_iff] at htx
        obtain ⟨commit, hcommit, rfl⟩ := htx
        rw [getElem_between hcommit, h.next, ← UInt64.ofNat_add]
      next hk =>
        rw [hlen] at hk hx
        split at hx
        · simp at hx
        next hok =>
          have hnext := ih (h.poll hnm hobserved hauto hdrained hok) hmore hx
          have hindex : m + (k - (m - n)) = n + k := by omega
          have htxid : c.txid m + (k - (m - n) + 1) = c.txid n + (k + 1) := by
            unfold Cell.txid
            omega
          rw [hnext, hindex, htxid]

theorem Continues.noHole (h : Continues c capture n) (hnm : n ≤ m) :
    NoHole c capture (c.txid n) m := by
  have hsub : c.txid n - c.start = n := Nat.add_sub_cancel_left _ _
  refine ⟨?_, ?_⟩
  · intro l hl rest
    rw [h.stands.poll (Nat.le_trans hnm hl) rest, hsub]
    rfl
  · intro later hlater k x hx
    rw [hsub]
    exact h.handedOut (hlater.mono hnm) hx

/-! ## The decision -/

variable {env : Surroundings g} {epoch : UInt64} {baseline n₀ : Nat} {crossEpoch : Bool}

theorem canResume_true {k : ResumeChecks} {scope : String} {localTxID : Nat}
    (h : canResume k scope baseline localTxID = .ok (true, crossEpoch)) : baseline = localTxID := by
  have hcompare : ∀ exists_ durable,
      compareTxids k scope exists_ baseline durable localTxID = .ok (true, crossEpoch) →
      baseline = localTxID := by
    intro exists_ durable h
    obtain ⟨-, h⟩ := guard_eq_ok h
    split at h
    next heq => exact heq.2.1.symm.trans heq.2.2
    · have hboth : decide (durable = baseline ∧ durable = localTxID) = true := by
        cases hd : decide (durable = baseline ∧ durable = localTxID) with
        | true => rfl
        | false =>
          rw [hd] at h
          cases h
      have heq := of_decide_eq_true hboth
      exact heq.1.symm.trans heq.2
  unfold canResume at h
  split at h
  · cases h
  split at h
  · cases h
  split at h
  · cases h
  split at h
  · cases h
  split at h
  · cases h
  · exact hcompare _ _ h

/-- How a call resumes: its capture continues behind what was committed when it polled the
log, and either the hint was taken or nothing was committed since the baseline was read. -/
structure Resumed (c : Cell g) (env : Surroundings g) (capture : Capture) (baseline n : Nat)
    (k : Nat) : Prop where
  baseline_eq : baseline = c.txid k
  stands : Stands c capture.cursor (k + env.attempt.beforePoll)
  next : capture.nextTxID = UInt64.ofNat baseline
  after : k + env.attempt.beforePoll ≤ n
  checked : takeHint env.attempt.hint capture.epoch baseline = false →
    env.attempt.beforePoll = 0

theorem create_resumed
    (h : create autoSnapshot c env epoch (c.txid k) k =
      (.started .resume capture baseline crossEpoch, n)) : Resumed c env capture baseline n k := by
  unfold create at h
  obtain ⟨cursor, hstands, hnew⟩ := new_stands (c := c) (n := k + env.attempt.beforePoll) epoch
    (UInt64.ofNat (c.txid k)) env.compress env.attempt.logEnd
  dsimp only at h
  rw [hnew] at h
  dsimp only at h
  unfold decideStart at h
  split at h
  · cases h
  split at h
  next hhint =>
    cases h
    exact ⟨rfl, hstands, rfl, le_rfl, fun hno => absurd (hhint.symm.trans hno) Bool.noConfusion⟩
  · dsimp only at h
    split at h
    · cases h
    next hcan =>
      cases h
      have hsame : c.txid k = c.txid _ := canResume_true hcan
      refine ⟨rfl, hstands, rfl, Nat.le_add_right _ _, fun _ => ?_⟩
      unfold Cell.txid at hsame
      omega
    · split at h
      · cases h
      · cases h

theorem ensureLoop_resumed {rounds : List Round}
    (h : ensureLoop autoSnapshot c env epoch rounds n₀ =
      (.started .resume capture baseline crossEpoch, n)) :
    ∃ k, Resumed c env capture baseline n k := by
  induction rounds generalizing n₀ with
  | nil => cases h
  | cons round rest ih =>
    unfold ensureLoop at h
    split at h
    · cases h
    split at h
    · exact ⟨_, create_resumed h⟩
    · exact ih h
    · cases h
    · split at h
      · cases h
      · exact ih h

theorem ensure_resumed
    (h : ensure autoSnapshot c env n₀ = (.started .resume capture baseline crossEpoch, n)) :
    ∃ k, Resumed c env capture baseline n k := by
  unfold ensure at h
  split at h
  · cases h
  · cases h
  · split at h
    · cases h
    · exact ensureLoop_resumed h

theorem Resumed.hole (h : Resumed c env capture baseline n k)
    (hlost : env.attempt.beforePoll ≠ 0) : ¬ Unread c capture baseline n := by
  intro hunread
  have hread := hunread n le_rfl (.nothing g)
  rw [h.stands.poll h.after, h.baseline_eq] at hread
  have hlen := congrArg List.length hread
  have hsub : c.txid k - c.start = k := Nat.add_sub_cancel_left _ _
  have hafter := h.after
  simp only [polledTo, List.length_map, Cell.between, List.length_range', hsub] at hlen
  omega

def smallLog : Generation 8 := ⟨false, 0, 1, 2, by decide⟩

/-- A cell at txid 7 with an empty log, whose transactions write one page each. -/
def idleCell : Cell smallLog where
  start := 7
  history := fun n => .single (List.replicate 8 (UInt8.ofNat n)) rfl

/-- A call that finds the hint of a capture dropped at txid 7, with `lost` commits between
its read of the txid and its poll of the log. -/
def hintedCall (lost : Nat) : Surroundings smallLog where
  scope := "kv/tenant/a"
  owner := .ok (some 1)
  cellFails := none
  rounds := [⟨0, none, .free⟩]
  attempt :=
    { beforePoll := lost
      logEnd := none
      hint := some ⟨1, 7⟩
      beforeSecondRead := 0
      checks := ⟨none, none, none, none, 0, 0, none⟩
      snapshot := .ok 7 }
  compress := false

/-- Transaction 8 commits after the baseline is read, and the resumed capture skips it. -/
theorem hint_skips_commit : ∃ capture,
    ensure true idleCell (hintedCall 1) 0 = (.started .resume capture 7 false, 1) ∧
      ¬ NoHole idleCell capture 7 1 := by
  refine ⟨_, rfl, ?_⟩
  intro hno
  have hcall : ensure true idleCell (hintedCall 1) 0 = (.started .resume _ 7 false, 1) := rfl
  obtain ⟨k, hresumed⟩ := ensure_resumed hcall
  exact hresumed.hole Nat.one_ne_zero hno.1

/-- A call that resumes leaves no hole, unless it took a hint and a transaction was
committed between the read of the baseline and the first poll of the log. -/
theorem resume_noHole {n₀ n : Nat} {capture : Capture} {baseline : Nat} {crossEpoch : Bool}
    (h : ensure autoSnapshot c env n₀ = (.started .resume capture baseline crossEpoch, n)) :
    NoHole c capture baseline n ↔
      ¬ (env.attempt.hint = some ⟨capture.epoch, baseline⟩ ∧ env.attempt.beforePoll ≠ 0) := by
  obtain ⟨k, hresumed⟩ := ensure_resumed h
  constructor
  · rintro ⟨hunread, -⟩ ⟨-, hlost⟩
    exact hresumed.hole hlost hunread
  · intro hcond
    have hzero : env.attempt.beforePoll = 0 := by
      by_contra hlost
      apply hlost
      apply hresumed.checked
      apply decide_eq_false
      exact fun hhint => hcond ⟨hhint, hlost⟩
    have hstands := hresumed.stands
    have hafter := hresumed.after
    rw [hzero] at hstands hafter
    have hnext := hresumed.next
    rw [hresumed.baseline_eq] at hnext ⊢
    exact Continues.noHole ⟨hstands, hnext⟩ hafter

theorem resume_noHole_quiet : ∃ capture,
    ensure true idleCell (hintedCall 0) 0 = (.started .resume capture 7 false, 0) ∧
      NoHole idleCell capture 7 0 := by
  refine ⟨_, rfl, ?_⟩
  have hcall : ensure true idleCell (hintedCall 0) 0 = (.started .resume _ 7 false, 0) := rfl
  exact (resume_noHole hcall).2 fun hraced => hraced.2 rfl

end CellHive.CellCapture
